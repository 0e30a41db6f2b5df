import IntelliPrism.Cache.Index

/-!
# Reads that drop: what a `get` or a `counted` may take away

A `get` that finds an expired entry, and a `counted` that finds an expired one or none, drop the key in
a later transaction, by key and without looking again.  `claim` and `counting` swap for what they read;
a read does not, so it takes away whatever was written in between.

* `Reading` — where a `get` or a `counted` may stand: what it is about to drop had expired when it read;
* `DropsRead` — a drop that finds the key still holding what its call read, at no earlier moment;
* `live_kept_of_dropsRead` — **in every interleaving of any calls in which every drop is such, no step of
  a read touches a live entry**;
* `live_dropped` — a `counted` that a `put` overtakes drops what was put.
-/

namespace IntelliPrism.Cache

open IntelliPrism.Lib

/-- The calls that read and write nothing of their own. -/
def Call.reads : Call → Bool
  | .get _ => true
  | .counted _ => true
  | _ => false

/-- The calls that take a key away when asked to. -/
def Call.removes : Call → Bool
  | .remove _ => true
  | _ => false

/-- What a read that is about to drop found, and when. -/
def Thread.found (t : Thread) : Option (Option Bytes × UInt64) :=
  match t.pc with
  | .dropping found now _ => some (found, now)
  | _ => none

/-- A read that drops does so while the key still holds what it read, and not at an earlier moment. -/
def DropsRead : Guard Clock SledCache Thread := fun p t clock =>
  ∀ read ∈ t.found, p.shared.entries[t.key]? = read.1 ∧ read.2 ≤ clock.millis

instance (p : Pool SledCache Thread) (t : Thread) (clock : Clock) : Decidable (DropsRead p t clock) :=
  inferInstanceAs (Decidable (∀ read ∈ t.found, _))

/-- Where a read may stand, and what it knows there of what it is about to drop. -/
def Pc.reading : Pc → Prop
  | .start | .touching _ | .stamping _ _ | .done _ => True
  | .dropping found now _ => ∀ entry ∈ found, valueOf entry now = none
  | _ => False

/-- A call that reads stands where a read may stand. -/
def Reading (t : Thread) : Prop := t.call.reads = true → t.pc.reading

section Steps

variable {clock : Clock} {s s' : SledCache} {t t' : Thread}

theorem getRead_reading (key : Bytes) : (s.getRead key clock).reading := by
  unfold SledCache.getRead
  split
  · trivial
  · split
    · split <;> trivial
    · rename_i entry _ hvalue
      intro found hfound
      obtain rfl := Option.some.inj hfound
      exact hvalue

theorem countedRead_reading (key : Bytes) : (s.countedRead key clock).reading := by
  simp only [SledCache.countedRead]
  split
  · split <;> trivial
  · rename_i hvalue
    intro found hfound
    rw [hfound] at hvalue
    exact hvalue

theorem touchRead_reading (key value : Bytes) : (s.touchRead key value clock).reading := by
  unfold SledCache.touchRead
  split
  · split <;> trivial
  · trivial

/-- **Every step of a read leaves it where a read may stand.** -/
theorem step_reading (ht : Reading t) (h : step clock s t = some (s', t')) : Reading t' := by
  intro hreads
  rw [step_call h] at hreads
  obtain ⟨call, pc⟩ := t
  have hpc := ht hreads
  cases pc <;> simp only [step, Option.map_some, Option.map_none, Option.some.injEq, reduceCtorEq] at h
  all_goals first | contradiction | obtain ⟨-, rfl⟩ := Prod.mk.inj h
  case start =>
    cases call with
    | get key => exact getRead_reading _
    | counted key => exact countedRead_reading _
    | put | claim | remove | counting => cases hreads
  case touching value => exact touchRead_reading _ value
  case stamping value stamped => trivial
  case dropping found now answer => trivial

/-- **A step of a read that drops only what it read leaves a live entry as it is.** -/
theorem step_keeps_live {pool : List Thread} {entry : Bytes} (ht : Reading t)
    (hreads : t.call.reads = true) (hdrops : DropsRead ⟨s, pool⟩ t clock)
    (h : step clock s t = some (s', t')) (hentry : s.entries[t.key]? = some entry)
    (hlive : (valueOf entry clock.millis).isSome = true) : s'.entries[t.key]? = some entry := by
  obtain ⟨call, pc⟩ := t
  have hpc := ht hreads
  cases pc <;> simp only [step, Option.map_some, Option.map_none, Option.some.injEq, reduceCtorEq] at h
  all_goals first | contradiction | obtain ⟨rfl, -⟩ := Prod.mk.inj h
  case start =>
    cases call with
    | get key => exact hentry
    | counted key => exact hentry
    | put | claim | remove | counting => cases hreads
  case touching value => exact hentry
  case stamping value stamped => exact hentry
  case dropping found now answer =>
    -- what it read had expired by then, so what it finds has expired by now
    obtain ⟨hfound, hle⟩ := hdrops _ rfl
    have hexpired := valueOf_none_of_le (hpc entry (hfound.symm.trans hentry)) hle
    rw [hexpired] at hlive
    cases hlive

end Steps

/-- **A read never destroys what another call wrote**, in any interleaving of any calls, as long as every
drop finds the key still holding what its call read, and not at an earlier moment. -/
theorem live_kept_of_dropsRead (s : SledCache) (calls : List Call) {p : Pool SledCache Thread}
    (h : Pool.Reach step DropsRead ⟨s, calls.map Thread.new⟩ p) {t : Thread} (ht : t ∈ p.threads)
    (hreads : t.call.reads = true) {clock : Clock} (hdrops : DropsRead p t clock) {s' : SledCache}
    {t' : Thread} (hs : step clock p.shared t = some (s', t')) {entry : Bytes}
    (hentry : p.shared.entries[t.key]? = some entry)
    (hlive : (valueOf entry clock.millis).isSome = true) : s'.entries[t.key]? = some entry := by
  have hreading : Pool.Local (fun _ => True) (fun _ t => Reading t) p := by
    refine h.local_invariant ⟨trivial, ?_⟩ ?_
    · intro t ht
      obtain ⟨call, -, rfl⟩ := List.mem_map.mp ht
      exact fun _ => trivial
    · intro s pre t post clock s' t' hI _ hs
      have ht : Reading t := hI.2 t (List.mem_append_right _ (List.mem_cons_self ..))
      exact ⟨trivial, step_reading ht hs, fun u hu => hu⟩
  exact step_keeps_live (hreading.2 t ht) hreads hdrops hs hentry hlive

/-! ### A `counted` that a `put` overtakes -/

/-- A key that is read and written at once. -/
def sharedKey : CacheKey := ⟨.system, "session", by decide, by decide⟩

/-- A `counted` and a `put` of one key. -/
def countedAndPut : List Call := [.counted sharedKey, .put sharedKey [] none]

/-- The `put` returns between the two steps of the `counted`. -/
def putBetween : List (ℕ × Clock) := [0, 1, 1, 1].map (·, ⟨1000, 1000000⟩)

/-- The `put` returns first. -/
def putFirst : List (ℕ × Clock) := [1, 1, 1].map (·, ⟨1000, 1000000⟩)

/-- The `counted` is about to read what was put, and leaves it. -/
theorem live_kept_putFirst :
    ∃ p, Pool.Reach step DropsRead ⟨.opened .none, countedAndPut.map Thread.new⟩ p ∧
      ∀ s' t', step ⟨1000, 1000000⟩ p.shared (.new (.counted sharedKey)) = some (s', t') →
        s'.entries[sharedKey.bytes]? = some (entry [] none 1000) := by
  have hrun : (Pool.run step DropsRead ⟨.opened .none, countedAndPut.map Thread.new⟩ putFirst).any
      (fun p => p.threads.contains (.new (.counted sharedKey)) &&
        p.shared.entries[sharedKey.bytes]? == some (entry [] none 1000)) = true := by decide
  obtain ⟨p, hreach, hp⟩ := Pool.exists_reach_of_run hrun
  simp only [Bool.and_eq_true, List.contains_iff_mem, beq_iff_eq] at hp
  refine ⟨p, hreach, ?_⟩
  intro s' t' hs
  exact live_kept_of_dropsRead _ _ hreach hp.1 rfl (fun _ h => by cases h) hs hp.2 (by decide)

/-- **A `counted` that a `put` overtakes drops what was put**, with no limit set and one key. -/
theorem live_dropped :
    ¬∀ (s : SledCache) (key : CacheKey) (calls : List Call) (p : Pool SledCache Thread) (t : Thread)
      (clock : Clock) (s' : SledCache) (t' : Thread) (entry : Bytes), s.limits.any = false →
      (∀ call ∈ calls, call.key = key ∧ call.removes = false) →
      Pool.Reach step Pool.anyStep ⟨s, calls.map Thread.new⟩ p → t ∈ p.threads →
      t.call.reads = true → step clock p.shared t = some (s', t') →
      p.shared.entries[key.bytes]? = some entry → (valueOf entry clock.millis).isSome = true →
      s'.entries[key.bytes]? = some entry := by
  intro hall
  have hrun : (Pool.run step Pool.anyStep ⟨.opened .none, countedAndPut.map Thread.new⟩ putBetween).any
      (fun p => p.threads.contains ⟨.counted sharedKey, .dropping none 1000 (.counted none)⟩ &&
        p.shared.entries[sharedKey.bytes]? == some (entry [] none 1000)) = true := by decide
  obtain ⟨p, hreach, hp⟩ := Pool.exists_reach_of_run hrun
  simp only [Bool.and_eq_true, List.contains_iff_mem, beq_iff_eq] at hp
  have hkept := hall _ sharedKey countedAndPut p _ ⟨1000, 1000000⟩ _ _ _ rfl (by decide) hreach hp.1 rfl
    rfl hp.2 (by decide)
  have hgone := SledCache.dropEntry_entries_self p.shared sharedKey.level sharedKey.bytes
  cases hgone.symm.trans hkept

end IntelliPrism.Cache
