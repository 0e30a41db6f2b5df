import IntelliPrism.Cache.Index

/-!
# Counting: what racing `count` calls leave behind

A `count` reads the entry, swaps in the total it made of it, and then writes the very same bytes once
more in the transaction that does the accounting.  The swap loses no update: it only lands on the entry
the total was made from.  The second write is unconditional, so a call that is held up between the two
puts its own total back over every total swapped in since.

* `Undisturbed` — nothing expires, removes or evicts the key while the calls run;
* `lost_update` — **two calls of one each leave one**: the later total is written over;
* `OwnWrite` — a `write` that finds the key still holding the bytes its own call swapped in;
* `count_total_of_ownWrite` — in every interleaving in which every `write` does, and from every initial
  count, the calls leave the initial count and all they added, saturating.
-/

namespace IntelliPrism.Cache

open IntelliPrism.Lib

/-! ### Counts as entries -/

/-- What the entry under a key counts; a key that holds nothing counts nothing. -/
def countIn (held : Option Bytes) : ℕ :=
  (held.bind fun entry => counted (entry.drop stampLength)).elim 0 UInt64.toNat

/-- A key that holds nothing, or a stamp and a count. -/
def IsCount (held : Option Bytes) : Prop :=
  ∀ entry, held = some entry → ∃ expiresAt count, entry = toBeBytes expiresAt ++ countedBytes count

@[simp] theorem countIn_stamped (expiresAt count : UInt64) :
    countIn (some (toBeBytes expiresAt ++ countedBytes count)) = count.toNat := by
  simp [countIn, stamped_drop, counted, countedBytes]

theorem isCount_entry (total : UInt64) (ttl : Option Ttl) (now : UInt64) :
    IsCount (some (entry (countedBytes total) ttl now)) := by
  intro e he
  obtain ⟨expiresAt, h⟩ := entry_stamped (countedBytes total) ttl now
  exact ⟨expiresAt, total, by rw [← Option.some.inj he, h]⟩

@[simp] theorem countIn_entry (total : UInt64) (ttl : Option Ttl) (now : UInt64) :
    countIn (some (entry (countedBytes total) ttl now)) = total.toNat := by
  obtain ⟨expiresAt, h⟩ := entry_stamped (countedBytes total) ttl now
  rw [h, countIn_stamped]

/-! ### The runs -/

/-- Nothing takes the key away: what it holds is live whenever a step is taken, and no step drops it. -/
def Undisturbed (key : CacheKey) : Guard Clock SledCache Thread := fun p t clock =>
  (p.shared.entries[key.bytes]?).all (fun entry => (valueOf entry clock.millis).isSome) = true ∧
    t.drops ≠ some key.bytes

/-- A call that writes does so while the key still holds the bytes it swapped in. -/
def OwnWrite : Guard Clock SledCache Thread := fun p t _ =>
  t.writes = none ∨ t.writes = p.shared.entries[t.key]?

instance (key : CacheKey) (p : Pool SledCache Thread) (t : Thread) (clock : Clock) :
    Decidable (Undisturbed key p t clock) :=
  inferInstanceAs (Decidable (_ ∧ _))

instance (p : Pool SledCache Thread) (t : Thread) (clock : Clock) : Decidable (OwnWrite p t clock) :=
  inferInstanceAs (Decidable (_ ∨ _))

/-- The calls of a run, none of which has begun. -/
def countCalls (key : CacheKey) (calls : List (UInt64 × Ttl)) : List Thread :=
  calls.map fun c => .new (.count key c.1 c.2)

def amountOf : Call → ℕ
  | .counting _ _ (.add amount) => amount.toNat
  | _ => 0

/-- Whether a counting call's swap has landed. -/
def Pc.landed : Pc → Bool
  | .start => false
  | .countSwap _ _ _ => false
  | _ => true

/-- What a call has added so far: all of it once its swap has landed. -/
def added (t : Thread) : ℕ := if t.pc.landed then amountOf t.call else 0

/-- Where a `count` of `key` may stand, and what its locals say there. -/
def Counts (key : CacheKey) (t : Thread) : Prop :=
  ∃ amount ttl, t.call = .count key amount ttl ∧
    match t.pc with
    | .start => True
    | .countSwap _ held total =>
      IsCount held ∧ total.toNat = min (countIn held + amount.toNat) wordMax
    | .writing _ _ | .evicting _ | .scanning _ | .evictDrop _ _ | .done _ => True
    | _ => False

/-- **What a count reads.**  From an entry that is a live count, or from none, the call goes on to swap
in the sum of what it found and what it adds. -/
theorem countRead_counts {s : SledCache} {key : Bytes} {clock : Clock} (ttl : Ttl) (amount : UInt64)
    (hcount : IsCount s.entries[key]?)
    (hlive : (s.entries[key]?).all (fun entry => (valueOf entry clock.millis).isSome) = true) :
    ∃ total, s.countRead key ttl (.add amount) clock = .countSwap ttl s.entries[key]? total ∧
      total.toNat = min (countIn s.entries[key]? + amount.toNat) wordMax := by
  unfold SledCache.countRead
  cases hheld : s.entries[key]? with
  | none => exact ⟨_, rfl, by simp [Next.total, countIn]⟩
  | some entry =>
    obtain ⟨expiresAt, count, rfl⟩ := hcount entry hheld
    rw [hheld, Option.all_some, valueOf_stamped] at hlive
    have hgt : expiresAt > clock.millis := by
      by_contra hle
      rw [if_neg hle] at hlive
      cases hlive
    refine ⟨saturatingAdd count amount, ?_, ?_⟩
    · simp only [Option.bind_some, valueOf_stamped, if_pos hgt, countOf, countedBytes,
        fromBeBytes_toBeBytes, Next.total, Option.getD_some]
    · rw [saturatingAdd_toNat, countIn_stamped]

/-- What every step of the run keeps: the key holds a count, and it is the initial count and all that
has landed. -/
structure Tallied (key : CacheKey) (initial : ℕ) (p : Pool SledCache Thread) : Prop where
  isCount : IsCount p.shared.entries[key.bytes]?
  tally : countIn p.shared.entries[key.bytes]? = min (initial + (p.threads.map added).sum) wordMax
  counts : ∀ t ∈ p.threads, Counts key t

section Steps

variable {key : CacheKey} {initial : ℕ} {clock : Clock} {s s' : SledCache} {t t' : Thread}
  {pre post : List Thread}

/-- One thread moves on, and the count moves by what that thread added. -/
theorem Tallied.move (h : Tallied key initial ⟨s, pre ++ t :: post⟩)
    (hcount : IsCount s'.entries[key.bytes]?) (hle : added t ≤ added t')
    (hadd : countIn s'.entries[key.bytes]?
      = min (countIn s.entries[key.bytes]? + (added t' - added t)) wordMax)
    (ht' : Counts key t') : Tallied key initial ⟨s', pre ++ t' :: post⟩ where
  isCount := hcount
  tally := by
    have htally := h.tally
    simp only [List.map_append, List.map_cons, List.sum_append, List.sum_cons] at htally ⊢
    omega
  counts := Pool.forall_moved h.counts ht' fun _ hu => hu

theorem Tallied.keep (h : Tallied key initial ⟨s, pre ++ t :: post⟩)
    (hsame : s'.entries[key.bytes]? = s.entries[key.bytes]?) (hadd : added t' = added t)
    (ht' : Counts key t') : Tallied key initial ⟨s', pre ++ t' :: post⟩ := by
  have hle : countIn s.entries[key.bytes]? ≤ wordMax := by
    rw [h.tally]
    exact Nat.min_le_right _ _
  refine h.move (by rw [hsame]; exact h.isCount) hadd.ge ?_ ht'
  rw [hsame]
  omega

/-- **One step of an undisturbed run with own writes keeps the tally.** -/
theorem tallied_step (h : Tallied key initial ⟨s, pre ++ t :: post⟩)
    (hundisturbed : Undisturbed key ⟨s, pre ++ t :: post⟩ t clock)
    (hown : OwnWrite ⟨s, pre ++ t :: post⟩ t clock) (hs : step clock s t = some (s', t')) :
    Tallied key initial ⟨s', pre ++ t' :: post⟩ := by
  obtain ⟨hlive, hkept⟩ := hundisturbed
  obtain ⟨amount, ttl, hcall, hpc⟩ := h.counts t (List.mem_append_right _ (List.mem_cons_self ..))
  obtain ⟨call, pc⟩ := t
  simp only at hcall hpc
  subst hcall
  cases pc <;> simp only [step, Option.map_some, Option.map_none, Option.some.injEq, reduceCtorEq] at hs
  all_goals first | contradiction | obtain ⟨rfl, rfl⟩ := Prod.mk.inj hs
  case start =>
    obtain ⟨total, hread, htotal⟩ := countRead_counts ttl amount h.isCount hlive
    refine h.keep rfl ?_ ⟨amount, ttl, rfl, ?_⟩
    · simp [added, startStep, hread, Pc.landed]
    · simp only [startStep, hread]
      exact ⟨h.isCount, htotal⟩
  case countSwap ttl' held total =>
    -- the swap lands only on the entry the total was made from
    obtain ⟨hheld, htotal⟩ := hpc
    unfold swapStep
    split
    · rename_i heq
      refine h.move ?_ (by simp [added, Pc.landed]) ?_ ⟨amount, ttl, rfl, trivial⟩
      · simp only [SledCache.swapIn_entries, Thread.key, Call.key, Std.ExtTreeMap.getElem?_insert_self]
        exact isCount_entry _ _ _
      · simp only [SledCache.swapIn_entries, Thread.key, Call.key, Std.ExtTreeMap.getElem?_insert_self,
          countIn_entry, htotal] at heq ⊢
        simp only [added, Pc.landed, amountOf, heq]
        simp
    · exact h.keep rfl rfl ⟨amount, ttl, rfl, trivial⟩
  case writing entry answer =>
    -- the second write puts back the bytes the key still holds
    have hsame : s.entries[key.bytes]? = some entry := by
      rcases hown with hnone | hsome
      · cases hnone
      · exact hsome.symm
    refine h.keep ?_ rfl ⟨amount, ttl, rfl, trivial⟩
    simp only [SledCache.write_entries, Thread.key, Call.key, Std.ExtTreeMap.getElem?_insert_self, hsame]
  case evicting answer =>
    unfold SledCache.evictRead
    split
    · exact h.keep rfl rfl ⟨amount, ttl, rfl, trivial⟩
    · split <;> exact h.keep rfl rfl ⟨amount, ttl, rfl, trivial⟩
  case scanning answer =>
    unfold SledCache.evictScan
    split <;> exact h.keep rfl rfl ⟨amount, ttl, rfl, trivial⟩
  case evictDrop dropped answer =>
    have hne : dropped ≠ key.bytes := by
      rintro rfl
      exact hkept rfl
    exact h.keep (SledCache.dropEntry_entries_ne s _ hne) rfl ⟨amount, ttl, rfl, trivial⟩

end Steps

theorem countIn_le (held : Option Bytes) : countIn held ≤ wordMax := by
  unfold countIn
  cases held.bind fun entry => counted (entry.drop stampLength) with
  | none => exact Nat.zero_le _
  | some count => exact toNat_le_wordMax count

theorem tallied_start (s : SledCache) (key : CacheKey) (calls : List (UInt64 × Ttl))
    (hs : IsCount s.entries[key.bytes]?) :
    Tallied key (countIn s.entries[key.bytes]?) ⟨s, countCalls key calls⟩ where
  isCount := hs
  tally := by
    have hnone : ((countCalls key calls).map added).sum = 0 := by
      refine List.sum_eq_zero ?_
      intro n hn
      simp only [countCalls, List.map_map, List.mem_map] at hn
      obtain ⟨c, _, rfl⟩ := hn
      rfl
    rw [hnone, Nat.add_zero, Nat.min_eq_left (countIn_le _)]
  counts := by
    intro t ht
    obtain ⟨c, _, rfl⟩ := List.mem_map.mp ht
    exact ⟨c.1, c.2, rfl, trivial⟩

theorem added_of_returned {t : Thread} (h : t.returned = true) :
    added t = amountOf t.call := by
  obtain ⟨call, pc⟩ := t
  cases pc <;> first | rfl | cases h

/-- **Counting loses no update as long as every second write finds its own bytes**: in every
interleaving of any number of `count` calls on one key, from every initial count, with nothing taking
the key away, once all calls have returned the key counts the initial count and all their amounts,
saturating. -/
theorem count_total_of_ownWrite (s : SledCache) (key : CacheKey) (calls : List (UInt64 × Ttl))
    (hs : IsCount s.entries[key.bytes]?) {q : Pool SledCache Thread}
    (h : Pool.Reach step (Pool.both (Undisturbed key) OwnWrite) ⟨s, countCalls key calls⟩ q)
    (hq : ∀ t ∈ q.threads, t.returned = true) :
    countIn q.shared.entries[key.bytes]?
      = min (countIn s.entries[key.bytes]? + (calls.map fun c => c.1.toNat).sum) wordMax := by
  have htallied : Tallied key (countIn s.entries[key.bytes]?) q := by
    refine h.invariant (tallied_start s key calls hs) ?_
    intro s pre t post clock s' t' hI hC hstep
    exact tallied_step hI hC.1 hC.2 hstep
  have hadded : q.threads.map added = (q.threads.map Thread.call).map amountOf := by
    rw [List.map_map]
    exact List.map_congr_left fun t ht => added_of_returned (hq t ht)
  have hamounts : (countCalls key calls).map (amountOf ∘ Thread.call) = calls.map fun c => c.1.toNat := by
    simp only [countCalls, List.map_map]
    rfl
  rw [htallied.tally, hadded, reach_calls h, List.map_map, hamounts]

/-! ### Two calls, one by one and interleaved -/

def countKey : CacheKey := ⟨.system, "limit", by decide, by decide⟩

def aMinute : Ttl := ⟨60000000000, by decide⟩

def twoCounts : Pool SledCache Thread :=
  ⟨.opened .none, countCalls countKey [(1, aMinute), (1, aMinute)]⟩

def aMoment : Clock := ⟨1000, 1000000⟩

/-- One call after the other: read, swap, write, and a level nothing limits. -/
def oneByOne : List (ℕ × Clock) := [0, 0, 0, 0, 1, 1, 1, 1].map (·, aMoment)

/-- The first call is held up between its swap and its write until the second has returned. -/
def heldUp : List (ℕ × Clock) := [0, 0, 1, 1, 1, 1, 0, 0].map (·, aMoment)

theorem isCount_opened (limits : LevelLimits) (key : CacheKey) :
    IsCount (SledCache.opened limits).entries[key.bytes]? := by
  intro entry h
  simp [SledCache.opened] at h

/-- One after the other, two calls of one leave two. -/
theorem count_total_oneByOne :
    ∃ q, Pool.Reach step (Pool.both (Undisturbed countKey) OwnWrite) twoCounts q ∧
      countIn q.shared.entries[countKey.bytes]? = 2 := by
  have hrun : (Pool.run step (Pool.both (Undisturbed countKey) OwnWrite) twoCounts oneByOne).any
      (fun q => q.threads.all Thread.returned) = true := by decide
  obtain ⟨q, hreach, hdone⟩ := Pool.exists_reach_of_run hrun
  refine ⟨q, hreach, ?_⟩
  rw [count_total_of_ownWrite _ countKey _ (isCount_opened _ _) hreach (by simpa using hdone)]
  decide

/-- **A lost update.**  Nothing takes the key away, both calls return, and the key counts one: the call
that was held up wrote its own total over the other's. -/
theorem lost_update :
    ¬∀ (s : SledCache) (key : CacheKey) (calls : List (UInt64 × Ttl)) (q : Pool SledCache Thread),
      IsCount s.entries[key.bytes]? →
      Pool.Reach step (Undisturbed key) ⟨s, countCalls key calls⟩ q →
      (∀ t ∈ q.threads, t.returned = true) →
      countIn q.shared.entries[key.bytes]?
        = min (countIn s.entries[key.bytes]? + (calls.map fun c => c.1.toNat).sum) wordMax := by
  intro hall
  have hrun : (Pool.run step (Undisturbed countKey) twoCounts heldUp).any (fun q =>
      q.threads.all Thread.returned && countIn q.shared.entries[countKey.bytes]? == 1) = true := by
    decide
  obtain ⟨q, hreach, hq⟩ := Pool.exists_reach_of_run hrun
  simp only [Bool.and_eq_true, List.all_eq_true, beq_iff_eq] at hq
  have htwo := hall _ countKey _ q (isCount_opened _ _) hreach hq.1
  rw [hq.2] at htwo
  revert htwo
  decide

end IntelliPrism.Cache
