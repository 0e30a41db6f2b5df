import IntelliPrism.Cache.Accounting
import IntelliPrism.Lib.Bytewise

/-!
# A level's entries in order of their last use

The index spells the level, the last use and the key of every entry in one string of bytes, so that its rows
stand in order of use.  Here the order is said of the recorded uses themselves.

* `lastUse`, `byUse` — a level's keys, the least recently used first and those of one moment by their bytes;
* `Settled` — entries, uses, index and sizes agree, which is how every call on its own leaves them;
* `oldest_ranked` — **the row eviction looks for is that of the least recently used entry**;
* `stored_ranked` — what a level weighs is what its entries weigh in that order.
-/

namespace IntelliPrism.Cache

open IntelliPrism.Lib

/-! ### The order -/

/-- When a key was last used, in microseconds, as it is recorded. -/
def lastUse (s : SledCache) (key : Bytes) : ℕ := (s.used[key]?).elim 0 ofBeDigits

/-- Keys by their last use, and then by themselves. -/
def compareUse (s : SledCache) : Bytes → Bytes → Ordering := compareLex (compareOn (lastUse s)) compare

/-- The keys of a level's entries, the least recently used first. -/
def byUse (s : SledCache) (level : CacheLevel) : List Bytes :=
  (s.entries.keys.filter level.spells).mergeSort fun a b => (compareUse s a b).isLE

/-- What the entries of some keys weigh together. -/
def weighAll (s : SledCache) (keys : List Bytes) : ℕ :=
  (keys.map fun key => (s.entries[key]?).elim 0 fun entry => key.length + entry.length).sum

/-- The keys of a level's entries, in order of use. -/
structure Ranked (s : SledCache) (level : CacheLevel) (order : List Bytes) : Prop where
  mem : ∀ key, key ∈ order ↔ level.spells key = true ∧ key ∈ s.entries
  sorted : order.Pairwise fun a b => compareUse s a b = .lt

instance (s : SledCache) : Std.TransCmp (compareUse s) :=
  inferInstanceAs (Std.TransCmp (compareLex (compareOn (lastUse s)) compare))

theorem compareUse_eq {s : SledCache} (a b : Bytes) :
    compareUse s a b = (compare (lastUse s a) (lastUse s b)).then (compare a b) := rfl

theorem compareUse_swap {s : SledCache} (a b : Bytes) : compareUse s a b = (compareUse s b a).swap :=
  Std.OrientedCmp.eq_swap

theorem compareUse_self {s : SledCache} (a : Bytes) : compareUse s a a = .eq := Std.ReflCmp.compare_self

theorem eq_of_compareUse {s : SledCache} {a b : Bytes} (h : compareUse s a b = .eq) : a = b := by
  rw [compareUse_eq, Ordering.then_eq_eq] at h
  exact Std.compare_eq_iff_eq.mp h.2

/-- **`byUse` is the level's entries in order of use.** -/
theorem ranked_byUse (s : SledCache) (level : CacheLevel) : Ranked s level (byUse s level) where
  mem := by
    intro key
    rw [byUse, List.mem_mergeSort, List.mem_filter, Std.ExtTreeMap.mem_keys, and_comm]
  sorted := by
    have hle : (byUse s level).Pairwise fun a b => (compareUse s a b).isLE = true := by
      refine List.pairwise_mergeSort ?_ ?_ _
      · intro a b c hab hbc
        exact Std.TransCmp.isLE_trans hab hbc
      · intro a b
        rw [compareUse_swap b a]
        cases compareUse s a b <;> rfl
    have hnodup : (byUse s level).Nodup := by
      rw [byUse, (List.mergeSort_perm _ _).nodup_iff]
      exact Std.ExtTreeMap.nodup_keys.filter _
    refine (hle.and hnodup).imp ?_
    intro a b ⟨hab, hne⟩
    cases hcmp : compareUse s a b with
    | lt => rfl
    | eq => exact absurd (eq_of_compareUse hcmp) hne
    | gt =>
      rw [hcmp] at hab
      cases hab

theorem compare_indexKey {s : SledCache} {level : CacheLevel} {a b u v : Bytes}
    (ha : s.used[a]? = some u) (hb : s.used[b]? = some v) (hlen : u.length = v.length) :
    compare (indexKey level u a) (indexKey level v b) = compareUse s a b := by
  rw [indexKey, indexKey, compare_cons, Std.compare_self, compareUse_eq, lastUse, lastUse, ha, hb]
  show compare (u ++ a) (v ++ b) = _
  rw [compare_append hlen, compare_ofBeDigits hlen]
  rfl

/-! ### Trees that agree -/

/-- **Entries, uses, index and sizes agree**: every entry's use is recorded and every recorded use is an
entry's, the index names those uses, and the size of a level that is limited is what its entries weigh. -/
structure Settled (s : SledCache) : Prop where
  indexed : Indexed s
  present : ∀ key ∈ s.used, key ∈ s.entries
  recorded : ∀ key ∈ s.entries, key ∈ s.used
  accounted : ∀ level, (s.limits.of level).isSome = true → (s.held level).toNat = stored s level

theorem settled_opened (limits : LevelLimits) : Settled (.opened limits) where
  indexed := indexed_opened limits
  present := by
    intro key h
    simp [SledCache.opened] at h
  recorded := by
    intro key h
    simp [SledCache.opened] at h
  accounted := fun level _ => accounted_opened limits level

section Settled

variable {s : SledCache} {level : CacheLevel} {key : Bytes} {order rest : List Bytes}

/-- An entry of a level is under a key of that level, and its use is recorded. -/
theorem Settled.key_of_spells (hs : Settled s) (hspells : level.spells key = true) (hmem : key ∈ s.entries) :
    ∃ (k : CacheKey) (stamp : Bytes), key = k.bytes ∧ k.level = level ∧ s.used[k.bytes]? = some stamp := by
  have hused := hs.recorded key hmem
  obtain ⟨k, rfl⟩ := hs.indexed.keyed key hused
  obtain ⟨stamp, hstamp⟩ := (mem_iff_getElem? _ _).mp hused
  rw [CacheKey.spells_bytes, decide_eq_true_eq] at hspells
  exact ⟨k, stamp, rfl, hspells.symm, hstamp⟩

/-- **The row eviction looks for is that of the least recently used entry.** -/
theorem oldest_ranked (hs : Settled s) (hrank : Ranked s level (key :: rest)) :
    ∃ row, s.oldest level = some row ∧ row.drop indexPrefix = key := by
  obtain ⟨hspells, hmem⟩ := (hrank.mem key).mp (List.mem_cons_self ..)
  obtain ⟨k, stamp, rfl, rfl, hstamp⟩ := hs.key_of_spells hspells hmem
  obtain ⟨row, hrow⟩ := oldest_isSome hs.indexed k (hs.recorded _ hmem)
  refine ⟨row, hrow, ?_⟩
  obtain ⟨hin, htag⟩ := firstKey_some hrow
  obtain ⟨k', stamp', hstamp', rfl⟩ := hs.indexed.named row hin
  have hlen : stamp'.length = stamp.length := by
    rw [hs.indexed.stamped _ _ hstamp', hs.indexed.stamped _ _ hstamp]
  have hlevel : k'.level = k.level := by
    simp only [indexKey, List.isPrefixOf, Bool.and_true, beq_iff_eq] at htag
    exact (tagOf_injective htag).symm
  have hpicked : [tagOf k.level].isPrefixOf (indexKey k.level stamp k.bytes) = true := by
    simp [indexKey, List.isPrefixOf]
  rw [indexKey_drop _ (hs.indexed.stamped _ _ hstamp')]
  rcases firstKey_least hrow (hs.indexed.listed k stamp hstamp) hpicked with heq | hlt
  · exact (indexKey_inj hlen.symm heq).2.2.symm
  · -- a key that stands before the first of the order would be in it
    rw [hlevel, compare_indexKey hstamp' hstamp hlen] at hlt
    have hthere : k'.bytes ∈ k.bytes :: rest := by
      refine (hrank.mem _).mpr ⟨?_, hs.present _ ((mem_iff_getElem? _ _).mpr ⟨stamp', hstamp'⟩)⟩
      rw [CacheKey.spells_bytes, hlevel, decide_eq_true_eq]
    rcases List.mem_cons.mp hthere with heq | hlater
    · exact heq
    · have hgt := (List.pairwise_cons.mp hrank.sorted).1 _ hlater
      rw [compareUse_swap, hgt] at hlt
      cases hlt

theorem weighAll_congr {s' : SledCache} {keys : List Bytes}
    (h : ∀ key ∈ keys, s'.entries[key]? = s.entries[key]?) : weighAll s' keys = weighAll s keys := by
  unfold weighAll
  refine congrArg List.sum (List.map_congr_left ?_)
  intro key hkey
  rw [h key hkey]

theorem Ranked.head_notMem (hrank : Ranked s level (key :: rest)) : key ∉ rest := by
  intro hmem
  have hlt := (List.pairwise_cons.mp hrank.sorted).1 key hmem
  rw [compareUse_self] at hlt
  cases hlt

theorem Ranked.dropEntry (hrank : Ranked s level (key :: rest)) :
    Ranked (s.dropEntry level key).1 level rest := by
  have hgone := hrank.head_notMem
  rcases s.dropEntry_cases level key with ⟨hnone, _⟩ | ⟨entry, hentry, hdrop⟩
  · have hmem := ((hrank.mem key).mp (List.mem_cons_self ..)).2
    rw [mem_iff_getElem?, hnone] at hmem
    obtain ⟨_, hsome⟩ := hmem
    cases hsome
  · rw [hdrop]
    have huse : ∀ a ∈ rest, lastUse (s.without level key entry) a = lastUse s a := by
      intro a ha
      have hne : key ≠ a := fun heq => hgone (heq ▸ ha)
      unfold lastUse
      rw [show (s.without level key entry).used[a]? = s.used[a]? from getElem?_erase_ne _ hne]
    constructor
    · intro a
      have hcons := hrank.mem a
      rw [List.mem_cons] at hcons
      show a ∈ rest ↔ level.spells a = true ∧ a ∈ s.entries.erase key
      rw [Std.ExtTreeMap.mem_erase, ne_eq, Std.compare_eq_iff_eq]
      constructor
      · intro ha
        exact ⟨(hcons.mp (.inr ha)).1, fun heq => hgone (heq ▸ ha), (hcons.mp (.inr ha)).2⟩
      · intro ⟨hspells, hne, hmem⟩
        rcases hcons.mpr ⟨hspells, hmem⟩ with heq | ha
        · exact absurd heq.symm hne
        · exact ha
    · refine List.Pairwise.imp_of_mem ?_ (List.pairwise_cons.mp hrank.sorted).2
      intro a b ha hb hlt
      rw [compareUse_eq, huse a ha, huse b hb, ← compareUse_eq]
      exact hlt

/-- **What a level weighs** is what its entries weigh in their order. -/
theorem stored_ranked (hkeys : ∀ key ∈ s.entries, ∃ k : CacheKey, key = k.bytes)
    (hrank : Ranked s level order) : stored s level = weighAll s order := by
  induction order generalizing s with
  | nil =>
    have hzero : stored s level = 0 := by
      by_contra hpos
      obtain ⟨key, entry, hentry, hweight⟩ := exists_of_sumOver_pos (Nat.pos_of_ne_zero hpos)
      have hspells : level.spells key = true := by
        by_contra hnot
        rw [levelWeight, if_neg hnot] at hweight
        exact absurd hweight (Nat.lt_irrefl 0)
      have hmem := (hrank.mem key).mpr ⟨hspells, (mem_iff_getElem? _ _).mpr ⟨entry, hentry⟩⟩
      cases hmem
    rw [hzero]
    rfl
  | cons key rest ih =>
    obtain ⟨hspells, hmem⟩ := (hrank.mem key).mp (List.mem_cons_self ..)
    obtain ⟨k, rfl⟩ := hkeys key hmem
    rw [CacheKey.spells_bytes, decide_eq_true_eq] at hspells
    subst hspells
    have hgone := hrank.head_notMem
    obtain ⟨entry, hentry⟩ := (mem_iff_getElem? _ _).mp hmem
    have hdrop := s.dropEntry_present k.level hentry
    have hrank' := hrank.dropEntry
    rw [hdrop] at hrank'
    have hkeys' : ∀ key ∈ (s.without k.level k.bytes entry).entries, ∃ k : CacheKey, key = k.bytes := by
      intro key hkey
      exact hkeys key (Std.ExtTreeMap.mem_of_mem_erase hkey)
    have hrest : weighAll (s.without k.level k.bytes entry) rest = weighAll s rest := by
      refine weighAll_congr ?_
      intro a ha
      exact getElem?_erase_ne _ fun heq => hgone (heq ▸ ha)
    rw [stored_own, hentry, Option.elim_some, weighAll, List.map_cons, List.sum_cons, hentry,
      Option.elim_some, ← weighAll, ← hrest, ← ih hkeys' hrank']
    rfl

end Settled

end IntelliPrism.Cache
