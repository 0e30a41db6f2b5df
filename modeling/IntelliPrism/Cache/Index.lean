import IntelliPrism.Cache.Standalone

/-!
# The use index and the trees it ties together

What the three transactions do to each tree, read back one tree at a time, and the invariant that
ties the record of uses to the index built from it.

* `held_write`, `held_without` — what a level holds after a transaction;
* `Indexed` — every row of the index is the row of one recorded use, spelled with the level of the key
  it names, and every recorded use has its row;
* `step_indexed` — **every step keeps `Indexed`**, whatever other calls do in between, given what a
  call carries in its locals (`Staged`): a stamp of eight bytes, a key of the level it evicts from.
-/

namespace IntelliPrism.Cache

open IntelliPrism.Lib

theorem tagOf_injective : Function.Injective tagOf := by
  intro a b h
  cases a <;> cases b <;> first | rfl | simp [tagOf] at h

namespace SledCache

variable (s : SledCache) (level : CacheLevel) (key entry stamped : Bytes)

/-! ### The transactions, one tree at a time -/

@[simp] theorem write_entries :
    (s.write level key entry stamped).entries = s.entries.insert key entry := rfl

@[simp] theorem write_used : (s.write level key entry stamped).used = s.used.insert key stamped := rfl

@[simp] theorem touch_entries : (s.touch level key stamped).entries = s.entries := rfl

@[simp] theorem touch_used : (s.touch level key stamped).used = s.used.insert key stamped := rfl

@[simp] theorem swapIn_entries : (s.swapIn key entry).entries = s.entries.insert key entry := rfl

@[simp] theorem swapIn_used : (s.swapIn key entry).used = s.used := rfl

theorem dropEntry_absent {key : Bytes} (h : s.entries[key]? = none) :
    s.dropEntry level key = (s, none) := by
  simp only [dropEntry, h]

/-- The trees after dropping an entry that is there. -/
def without (entry : Bytes) : SledCache :=
  { s with
    entries := s.entries.erase key
    used := s.used.erase key
    index := s.unindexed level key
    sizes := s.sizes.insert [tagOf level]
      (toBeBytes (saturatingSub (s.held level) (weigh key entry.length))) }

theorem dropEntry_present {key entry : Bytes} (h : s.entries[key]? = some entry) :
    s.dropEntry level key = (s.without level key entry, some entry) := by
  simp only [dropEntry, h, without]

/-- Dropping either finds nothing and does nothing, or takes out an entry with all that goes with it. -/
theorem dropEntry_cases :
    (s.entries[key]? = none ∧ s.dropEntry level key = (s, none)) ∨
      ∃ entry, s.entries[key]? = some entry ∧
        s.dropEntry level key = (s.without level key entry, some entry) := by
  cases h : s.entries[key]? with
  | none => exact .inl ⟨rfl, dropEntry_absent s level h⟩
  | some entry => exact .inr ⟨entry, rfl, dropEntry_present s level h⟩

theorem dropEntry_limits : (s.dropEntry level key).1.limits = s.limits := by
  rcases s.dropEntry_cases level key with ⟨_, h⟩ | ⟨_, _, h⟩
  · rw [h]
  · rw [h]
    rfl

theorem dropEntry_entries_ne {key other : Bytes} (h : key ≠ other) :
    (s.dropEntry level key).1.entries[other]? = s.entries[other]? := by
  rcases s.dropEntry_cases level key with ⟨_, hd⟩ | ⟨_, _, hd⟩
  · rw [hd]
  · rw [hd]
    exact getElem?_erase_ne _ h

theorem dropEntry_entries_self : (s.dropEntry level key).1.entries[key]? = none := by
  rcases s.dropEntry_cases level key with ⟨hnone, hd⟩ | ⟨_, _, hd⟩
  · rw [hd, hnone]
  · rw [hd]
    exact Std.ExtTreeMap.getElem?_erase_self

theorem held_sizes_insert (other : CacheLevel) (n : UInt64) :
    held { s with sizes := s.sizes.insert [tagOf level] (toBeBytes n) } other
      = if level = other then n else s.held other := by
  simp only [held]
  rw [getElem?_insert_eq]
  by_cases h : level = other
  · subst h
    simp [counted]
  · have htag : ¬[tagOf level] = [tagOf other] := by
      simpa using tagOf_injective.ne h
    rw [if_neg htag, if_neg h]

/-- What is left of a level's held bytes once an entry it replaced no longer counts. -/
def heldBut : UInt64 :=
  match s.entries[key]? with
  | some replaced => saturatingSub (s.held level) (weigh key replaced.length)
  | none => s.held level

theorem held_write (other : CacheLevel) :
    (s.write level key entry stamped).held other
      = if level = other then saturatingAdd (s.heldBut level key) (weigh key entry.length)
        else s.held other :=
  held_sizes_insert s level other _

theorem held_without (other : CacheLevel) :
    (s.without level key entry).held other
      = if level = other then saturatingSub (s.held level) (weigh key entry.length)
        else s.held other :=
  held_sizes_insert s level other _

@[simp] theorem held_touch (other : CacheLevel) :
    (s.touch level key stamped).held other = s.held other := rfl

@[simp] theorem held_swapIn (other : CacheLevel) : (s.swapIn key entry).held other = s.held other := rfl

end SledCache

/-! ### What an entry weighs -/

/-- What an entry weighs in a level: its key and its bytes, when it is of that level. -/
def levelWeight (level : CacheLevel) (key entry : Bytes) : ℕ :=
  if level.spells key then key.length + entry.length else 0

theorem levelWeight_own (k : CacheKey) (entry : Bytes) :
    levelWeight k.level k.bytes entry = k.bytes.length + entry.length := by
  simp [levelWeight, CacheKey.spells_bytes]

theorem levelWeight_other {k : CacheKey} {level : CacheLevel} (h : k.level ≠ level) (entry : Bytes) :
    levelWeight level k.bytes entry = 0 := by
  simp [levelWeight, CacheKey.spells_bytes, h.symm]

/-! ### The record of uses and its index -/

theorem indexKey_inj {l₁ l₂ : CacheLevel} {u₁ u₂ k₁ k₂ : Bytes} (hlen : u₁.length = u₂.length)
    (h : indexKey l₁ u₁ k₁ = indexKey l₂ u₂ k₂) : l₁ = l₂ ∧ u₁ = u₂ ∧ k₁ = k₂ := by
  obtain ⟨htag, hrest⟩ := List.cons.inj h
  obtain ⟨hu, hk⟩ := List.append_inj hrest hlen
  exact ⟨tagOf_injective htag, hu, hk⟩

theorem indexKey_drop {level : CacheLevel} {lastUsed : Bytes} (key : Bytes)
    (h : lastUsed.length = 8) : (indexKey level lastUsed key).drop indexPrefix = key := by
  rw [indexKey, indexPrefix, Nat.add_comm, List.drop_succ_cons, ← h, List.drop_left]

/-- **The index is the record of uses, in order of use.** -/
structure Indexed (s : SledCache) : Prop where
  keyed : ∀ key ∈ s.used, ∃ k : CacheKey, key = k.bytes
  stamped : ∀ key stamp : Bytes, s.used[key]? = some stamp → stamp.length = 8
  named : ∀ row ∈ s.index, ∃ (k : CacheKey) (stamp : Bytes),
    s.used[k.bytes]? = some stamp ∧ row = indexKey k.level stamp k.bytes
  listed : ∀ (k : CacheKey) (stamp : Bytes), s.used[k.bytes]? = some stamp →
    indexKey k.level stamp k.bytes ∈ s.index

theorem indexed_opened (limits : LevelLimits) : Indexed (.opened limits) where
  keyed := by
    intro key h
    simp [SledCache.opened] at h
  stamped := by
    intro key stamp h
    simp [SledCache.opened] at h
  named := by
    intro row h
    simp [SledCache.opened] at h
  listed := by
    intro k stamp h
    simp [SledCache.opened] at h

theorem mem_unindexed {s : SledCache} (hs : Indexed s) (k : CacheKey) (row : Bytes) :
    row ∈ s.unindexed k.level k.bytes ↔
      ∃ (k' : CacheKey) (stamp : Bytes), k' ≠ k ∧ s.used[k'.bytes]? = some stamp ∧
        row = indexKey k'.level stamp k'.bytes := by
  have hrow : row ∈ s.index ↔ ∃ (k' : CacheKey) (stamp : Bytes), s.used[k'.bytes]? = some stamp ∧
      row = indexKey k'.level stamp k'.bytes := by
    constructor
    · exact hs.named row
    · rintro ⟨k', stamp, hused, rfl⟩
      exact hs.listed k' stamp hused
  unfold SledCache.unindexed
  cases hk : s.used[k.bytes]? with
  | none =>
    rw [hrow]
    constructor
    · rintro ⟨k', stamp, hused, rfl⟩
      refine ⟨k', stamp, ?_, hused, rfl⟩
      rintro rfl
      rw [hk] at hused
      cases hused
    · rintro ⟨k', stamp, _, hused, rfl⟩
      exact ⟨k', stamp, hused, rfl⟩
  | some last =>
    simp only [Std.ExtTreeMap.mem_erase, ne_eq, Std.compare_eq_iff_eq, hrow]
    constructor
    · rintro ⟨hne, k', stamp, hused, rfl⟩
      refine ⟨k', stamp, ?_, hused, rfl⟩
      rintro rfl
      rw [hk] at hused
      exact hne (by rw [Option.some.inj hused])
    · rintro ⟨k', stamp, hne, hused, rfl⟩
      refine ⟨?_, k', stamp, hused, rfl⟩
      intro heq
      have hlen : last.length = stamp.length := by
        rw [hs.stamped _ _ hk, hs.stamped _ _ hused]
      exact hne (CacheKey.bytes_injective (indexKey_inj hlen heq).2.2).symm

theorem Indexed.record {s s' : SledCache} (hs : Indexed s) (k : CacheKey) {stamp : Bytes}
    (hlen : stamp.length = 8) (hused : s'.used = s.used.insert k.bytes stamp)
    (hindex : s'.index = (s.unindexed k.level k.bytes).insert (indexKey k.level stamp k.bytes) []) :
    Indexed s' where
  keyed := by
    intro key h
    rw [hused, Std.ExtTreeMap.mem_insert, Std.compare_eq_iff_eq] at h
    rcases h with rfl | h
    · exact ⟨k, rfl⟩
    · exact hs.keyed key h
  stamped := by
    intro key st h
    rw [hused, getElem?_insert_eq] at h
    split at h
    · rw [← Option.some.inj h]
      exact hlen
    · exact hs.stamped key st h
  named := by
    intro row h
    rw [hindex, Std.ExtTreeMap.mem_insert, Std.compare_eq_iff_eq] at h
    rcases h with rfl | h
    · exact ⟨k, stamp, by rw [hused, Std.ExtTreeMap.getElem?_insert_self], rfl⟩
    · obtain ⟨k', st, hne, hk', rfl⟩ := (mem_unindexed hs k row).mp h
      refine ⟨k', st, ?_, rfl⟩
      rw [hused, getElem?_insert_ne _ _ (CacheKey.bytes_injective.ne hne.symm), hk']
  listed := by
    intro k' st h
    rw [hindex, Std.ExtTreeMap.mem_insert, Std.compare_eq_iff_eq]
    rw [hused, getElem?_insert_eq] at h
    split at h
    · rename_i hkey
      left
      rw [CacheKey.bytes_injective hkey, Option.some.inj h]
    · rename_i hkey
      right
      exact (mem_unindexed hs k _).mpr ⟨k', st, fun heq => hkey (by rw [heq]), h, rfl⟩

theorem Indexed.forget {s s' : SledCache} (hs : Indexed s) (k : CacheKey)
    (hused : s'.used = s.used.erase k.bytes) (hindex : s'.index = s.unindexed k.level k.bytes) :
    Indexed s' where
  keyed := by
    intro key h
    rw [hused, Std.ExtTreeMap.mem_erase] at h
    exact hs.keyed key h.2
  stamped := by
    intro key st h
    rw [hused, getElem?_erase_eq] at h
    split at h
    · cases h
    · exact hs.stamped key st h
  named := by
    intro row h
    rw [hindex] at h
    obtain ⟨k', st, hne, hk', rfl⟩ := (mem_unindexed hs k row).mp h
    refine ⟨k', st, ?_, rfl⟩
    rw [hused, getElem?_erase_ne _ (CacheKey.bytes_injective.ne hne.symm), hk']
  listed := by
    intro k' st h
    rw [hindex]
    rw [hused, getElem?_erase_eq] at h
    split at h
    · cases h
    · rename_i hkey
      exact (mem_unindexed hs k _).mpr ⟨k', st, fun heq => hkey (by rw [heq]), h, rfl⟩

/-- The first row under a level's tag names the use of a key of that level. -/
theorem oldest_named {s : SledCache} (hs : Indexed s) {level : CacheLevel} {row : Bytes}
    (h : s.oldest level = some row) :
    ∃ k : CacheKey, k.level = level ∧ row.drop indexPrefix = k.bytes ∧ k.bytes ∈ s.used := by
  obtain ⟨hmem, htag⟩ := firstKey_some h
  obtain ⟨k, stamp, hused, rfl⟩ := hs.named row hmem
  refine ⟨k, ?_, indexKey_drop _ (hs.stamped _ _ hused), (mem_iff_getElem? _ _).mpr ⟨stamp, hused⟩⟩
  simp only [indexKey, List.isPrefixOf, Bool.and_true, beq_iff_eq] at htag
  exact (tagOf_injective htag).symm

theorem oldest_isSome {s : SledCache} (hs : Indexed s) (k : CacheKey) (hk : k.bytes ∈ s.used) :
    ∃ row, s.oldest k.level = some row := by
  obtain ⟨stamp, hused⟩ := (mem_iff_getElem? _ _).mp hk
  cases h : s.oldest k.level with
  | some row => exact ⟨row, rfl⟩
  | none =>
    have := firstKey_none h (hs.listed k stamp hused)
    simp [indexKey, List.isPrefixOf] at this

/-! ### Every step keeps the index -/

/-- What a call carries in its locals: a stamp is eight bytes, and the key it is about to drop for its
level is a key of that level. -/
structure Staged (t : Thread) : Prop where
  stamp : ∀ stamped, t.touches = some stamped → stamped.length = 8
  evicts : ∀ key, t.drops = some key → ∃ k : CacheKey, key = k.bytes ∧ k.level = t.level

section Steps

variable {clock : Clock} {s s' : SledCache} {t t' : Thread}

/-- **Every step keeps the index in step with the uses**, and leaves the call staged for its next. -/
theorem step_indexed (hs : Indexed s) (ht : Staged t) (h : step clock s t = some (s', t')) :
    Indexed s' := by
  cases step_effect h with
  | still => exact hs
  | swap entry _ => exact ⟨hs.keyed, hs.stamped, hs.named, hs.listed⟩
  | write entry _ => exact hs.record t.call.key (toBeBytes_length _) rfl rfl
  | touch stamped hst => exact hs.record t.call.key (ht.stamp _ hst) rfl rfl
  | drop key hdrop =>
    obtain ⟨k, rfl, hlevel⟩ := ht.evicts key hdrop
    rcases s.dropEntry_cases t.level k.bytes with ⟨_, hd⟩ | ⟨entry, _, hd⟩
    · rw [hd]
      exact hs
    · rw [hd, ← hlevel]
      exact hs.forget k rfl rfl

theorem step_limits (h : step clock s t = some (s', t')) : s'.limits = s.limits := by
  cases step_effect h with
  | still => rfl
  | swap entry _ => rfl
  | write entry _ => rfl
  | drop key _ => exact s.dropEntry_limits t.level key
  | touch stamped _ => rfl

/-- A call stands in one of the two places that need something of their locals, or in none. -/
theorem staged_of {call : Call} {pc : Pc}
    (hstamp : ∀ value stamped, pc = .stamping value stamped → stamped.length = 8)
    (hevict : ∀ key answer, pc = .evictDrop key answer →
      ∃ k : CacheKey, key = k.bytes ∧ k.level = call.key.level) : Staged ⟨call, pc⟩ where
  stamp := by
    intro stamped h
    cases pc <;> simp only [Thread.touches, Option.some.injEq, reduceCtorEq] at h
    exact h ▸ hstamp _ _ rfl
  evicts := by
    intro key h
    cases pc <;> cases call <;> simp only [Thread.drops, Option.some.injEq, reduceCtorEq] at h
    all_goals first
      | exact h ▸ hevict _ _ rfl
      | exact ⟨_, h.symm, rfl⟩

def Pc.plain : Pc → Bool
  | .stamping _ _ => false
  | .evictDrop _ _ => false
  | _ => true

theorem staged_plain {call : Call} {pc : Pc} (h : pc.plain = true) : Staged ⟨call, pc⟩ := by
  refine staged_of ?_ ?_
  · rintro value stamped rfl
    cases h
  · rintro key answer rfl
    cases h

theorem getRead_plain (key : Bytes) : (s.getRead key clock).plain = true := by
  unfold SledCache.getRead
  repeat' split
  all_goals rfl

theorem countRead_plain (key : Bytes) (ttl : Ttl) (next : Next) :
    (s.countRead key ttl next clock).plain = true := by
  simp only [SledCache.countRead]
  repeat' split
  all_goals rfl

theorem countedRead_plain (key : Bytes) : (s.countedRead key clock).plain = true := by
  simp only [SledCache.countedRead]
  repeat' split
  all_goals rfl

theorem claimRead_plain (key entry : Bytes) : (s.claimRead key entry clock).plain = true := by
  unfold SledCache.claimRead
  repeat' split
  all_goals rfl

theorem evictRead_plain (level : CacheLevel) (answer : Answer) :
    (s.evictRead level answer).plain = true := by
  unfold SledCache.evictRead
  repeat' split
  all_goals rfl

theorem startStep_plain (call : Call) : (startStep clock s call).2.plain = true := by
  cases call with
  | get key => exact getRead_plain _
  | put key value ttl => rfl
  | claim key ttl => rfl
  | remove key => rfl
  | counting key ttl next => exact countRead_plain _ _ _
  | counted key => exact countedRead_plain _

theorem swapStep_plain (key : Bytes) (held : Option Bytes) (entry : Bytes) {won lost : Pc}
    (hwon : won.plain = true) (hlost : lost.plain = true) :
    (swapStep s key held entry won lost).2.plain = true := by
  unfold swapStep
  split
  · exact hwon
  · exact hlost

theorem touchRead_staged (call : Call) (key value : Bytes) :
    Staged ⟨call, s.touchRead key value clock⟩ := by
  unfold SledCache.touchRead
  have hstamping : Staged ⟨call, .stamping value (toBeBytes clock.micros)⟩ := by
    refine staged_of ?_ ?_
    · intro value' stamped h
      obtain ⟨-, rfl⟩ := Pc.stamping.inj h
      exact toBeBytes_length _
    · intro key answer h
      cases h
  split
  · split
    · exact staged_plain rfl
    · exact hstamping
  · exact hstamping

theorem evictScan_staged (hs : Indexed s) (call : Call) (answer : Answer) :
    Staged ⟨call, s.evictScan call.key.level answer⟩ := by
  unfold SledCache.evictScan
  split
  · exact staged_plain rfl
  · rename_i row hrow
    refine staged_of (fun _ _ h => by cases h) ?_
    intro key answer' h
    obtain ⟨rfl, -⟩ := Pc.evictDrop.inj h
    obtain ⟨k, hlevel, hkey, -⟩ := oldest_named hs hrow
    exact ⟨k, hkey, hlevel⟩

/-- **Every step leaves the call staged for its next.** -/
theorem step_staged (hs : Indexed s) (h : step clock s t = some (s', t')) : Staged t' := by
  obtain ⟨call, pc⟩ := t
  cases pc <;> simp only [step, Option.map_some, Option.map_none, Option.some.injEq, reduceCtorEq] at h
  all_goals obtain ⟨-, rfl⟩ := Prod.mk.inj h
  case start => exact staged_plain (startStep_plain call)
  case touching value => exact touchRead_staged call _ value
  case claiming entry => exact staged_plain (claimRead_plain _ entry)
  case claimSwap entry held => exact staged_plain (swapStep_plain _ _ _ rfl rfl)
  case countSwap ttl held total => exact staged_plain (swapStep_plain _ _ _ rfl rfl)
  case evicting answer => exact staged_plain (evictRead_plain _ answer)
  case scanning answer => exact evictScan_staged hs call answer
  all_goals exact staged_plain rfl

/-- **The index along every interleaving**: from an empty database, whatever calls run and however
their steps interleave. -/
theorem reach_indexed {C : Guard Clock SledCache Thread} {limits : LevelLimits} {calls : List Call}
    {p : Pool SledCache Thread}
    (h : Pool.Reach step C ⟨.opened limits, calls.map Thread.new⟩ p) :
    Indexed p.shared ∧ ∀ t ∈ p.threads, Staged t := by
  refine h.local_invariant (S := Indexed) (T := fun _ t => Staged t) ⟨indexed_opened limits, ?_⟩ ?_
  · intro t ht
    obtain ⟨call, -, rfl⟩ := List.mem_map.mp ht
    exact staged_plain rfl
  · intro s pre t post clock s' t' hI _ hs
    have ht : Staged t := hI.2 t (List.mem_append_right _ (List.mem_cons_self ..))
    exact ⟨step_indexed hI.1 ht hs, step_staged hI.1 hs, fun u hu => hu⟩

/-- An entry is put. -/
theorem reach_indexed_put :
    ∃ key p, Pool.Reach step Pool.anyStep ⟨.opened .none, [Call.put key [7] none].map Thread.new⟩ p ∧
      p.shared.used.size = 1 ∧ Indexed p.shared := by
  have hrun : (Pool.run step Pool.anyStep
      ⟨.opened .none, [Call.put ⟨.system, "k", by decide, by decide⟩ [7] none].map Thread.new⟩
      [(0, ⟨1, 1⟩), (0, ⟨1, 1⟩)]).any (fun p => p.shared.used.size == 1) = true := by
    decide
  obtain ⟨p, hp, hsize⟩ := Pool.exists_reach_of_run hrun
  exact ⟨_, p, hp, beq_iff_eq.mp hsize, (reach_indexed hp).1⟩

end Steps

end IntelliPrism.Cache
