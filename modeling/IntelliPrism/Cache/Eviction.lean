import IntelliPrism.Cache.Index

/-!
# Eviction: when the loop ends, and when it spins

`evict` drops the entry its index names first until the level is inside its limit.  It ends because
every turn takes an entry out, and every turn takes one out because every row of the index names an
entry that is there.  Two steps of the calls around it do not keep that up: a `get` that has read its
entry records the use in a later transaction, and by then the entry may be gone; and a swap changes an
entry without the account of its level.

* `TouchPresent`, `NoShorterSwap` — the steps that keep it up: a use recorded while the entry is there,
  a swap that puts in no fewer bytes than it takes out;
* `Evictable` — the invariant: the index in step with the uses, no use of an absent key, and no level
  that counts more bytes than the entries its uses name;
* `evictionEnds_of_guarded` — **in every state such runs reach, every row names an entry that is there
  and `evict` alone ends inside the limit**;
* `evict_spins` — an oldest row that names nothing, in a level over its limit, makes `evict` run for ever;
* `stale_row` — a `get` that a `remove` overtakes leaves such a row.
-/

namespace IntelliPrism.Cache

open IntelliPrism.Lib

/-! ### What is claimed of a state -/

/-- `evict` alone, whatever the clock reads, returns and leaves its level inside the limit. -/
def EvictStops (s : SledCache) (call : Call) (limit : MaxBytes) (answer : Answer) : Prop :=
  ∃ n, ∀ clocks : List Clock, clocks.length = n → ∃ s' : SledCache,
    Pool.run step Pool.anyStep ⟨s, [⟨call, .evicting answer⟩]⟩ (clocks.map (0, ·))
        = some ⟨s', [⟨call, .done answer⟩]⟩ ∧
      s'.held call.key.level ≤ limit.get

/-- **Eviction ends**: every row of the index names an entry that is there, a level over its limit has
an entry for the next turn to drop, and `evict` alone stops inside the limit. -/
structure EvictionEnds (s : SledCache) : Prop where
  rows : ∀ row ∈ s.index, row.drop indexPrefix ∈ s.entries
  turns : ∀ level limit, s.limits.of level = some limit → s.held level > limit.get →
    ∃ row entry, s.oldest level = some row ∧
      (s.dropEntry level (row.drop indexPrefix)).2 = some entry
  stops : ∀ call limit answer, s.limits.of call.key.level = some limit → EvictStops s call limit answer

/-- A use is recorded while the key's entry is there. -/
def TouchPresent : Guard Clock SledCache Thread := fun p t _ =>
  t.touches = none ∨ (p.shared.entries[t.key]?).isSome = true

/-- A swap that lands puts in no fewer bytes than it takes out. -/
def NoShorterSwap : Guard Clock SledCache Thread := fun p t clock =>
  ∀ swap ∈ t.swaps clock, swap.1 = p.shared.entries[t.key]? → ∀ old ∈ swap.1, old.length ≤ swap.2.length

instance (p : Pool SledCache Thread) (t : Thread) (clock : Clock) :
    Decidable (TouchPresent p t clock) :=
  inferInstanceAs (Decidable (_ ∨ _))

instance (p : Pool SledCache Thread) (t : Thread) (clock : Clock) :
    Decidable (NoShorterSwap p t clock) :=
  inferInstanceAs (Decidable (∀ swap ∈ t.swaps clock, _))

/-! ### What the recorded uses account for -/

/-- What an entry weighs in a level, when its use is recorded. -/
def usedWeight (s : SledCache) (level : CacheLevel) (key entry : Bytes) : ℕ :=
  if (s.used[key]?).isSome then levelWeight level key entry else 0

/-- What the entries of a level whose uses are recorded weigh together. -/
def tracked (s : SledCache) (level : CacheLevel) : ℕ := sumOver s.entries (usedWeight s level)

def trackedBut (s : SledCache) (level : CacheLevel) (key : Bytes) : ℕ :=
  sumOver (s.entries.erase key) (usedWeight s level)

theorem tracked_split (s : SledCache) (level : CacheLevel) (key : Bytes) :
    tracked s level = (s.entries[key]?).elim 0 (usedWeight s level key) + trackedBut s level key :=
  sumOver_split _ _ key

/-- **One key changes.**  When only the entry and the use of one key change, the rest of the sum stays. -/
theorem trackedBut_congr {s s' : SledCache} {key : Bytes} (level : CacheLevel)
    (hentries : s'.entries.erase key = s.entries.erase key)
    (hused : ∀ k, k ≠ key → s'.used[k]? = s.used[k]?) :
    trackedBut s' level key = trackedBut s level key := by
  unfold trackedBut
  rw [hentries]
  refine sumOver_congr _ ?_
  intro k v hk
  have hne : k ≠ key := by
    rintro rfl
    rw [Std.ExtTreeMap.getElem?_erase_self] at hk
    cases hk
  simp only [usedWeight, hused k hne]

theorem tracked_other (s : SledCache) {level : CacheLevel} {k : CacheKey} (h : k.level ≠ level) :
    tracked s level = trackedBut s level k.bytes := by
  rw [tracked_split s level k.bytes]
  cases s.entries[k.bytes]? with
  | none => simp
  | some old => simp [usedWeight, levelWeight_other h]

/-- Taking an entry's weight off what covers it and the rest leaves no more than the rest. -/
theorem saturatingSub_weigh_le {held : UInt64} {key : Bytes} {n rest : ℕ}
    (h : held.toNat ≤ key.length + n + rest) : (saturatingSub held (weigh key n)).toNat ≤ rest := by
  have := toNat_le_wordMax held
  rw [saturatingSub_toNat, weigh, saturate_toNat]
  omega

/-- **The invariant of eviction**: the index in step with the uses, every used key with its entry, and
every level covered by the entries whose uses are recorded. -/
structure Evictable (s : SledCache) : Prop where
  indexed : Indexed s
  present : ∀ key ∈ s.used, key ∈ s.entries
  covered : ∀ level, (s.held level).toNat ≤ tracked s level

theorem evictable_opened (limits : LevelLimits) : Evictable (.opened limits) where
  indexed := indexed_opened limits
  present := by
    intro key h
    simp [SledCache.opened] at h
  covered := by
    intro level
    simp [SledCache.opened, SledCache.held]

section Effects

variable {s s' : SledCache}

/-- What a level holds besides one of its keys is covered by the other keys. -/
theorem Evictable.heldBut_le (hs : Evictable s) (k : CacheKey) :
    (s.heldBut k.level k.bytes).toNat ≤ trackedBut s k.level k.bytes := by
  have hcov := hs.covered k.level
  rw [tracked_split s k.level k.bytes] at hcov
  unfold SledCache.heldBut
  cases hentry : s.entries[k.bytes]? with
  | none => simpa [hentry] using hcov
  | some old =>
    refine saturatingSub_weigh_le (hcov.trans ?_)
    rw [hentry, Option.elim_some, usedWeight, levelWeight_own]
    split <;> omega

theorem Evictable.covered_other (hs : Evictable s) {k : CacheKey} {level : CacheLevel}
    (hlevel : k.level ≠ level) (hheld : s'.held level = s.held level)
    (hrest : trackedBut s' level k.bytes = trackedBut s level k.bytes) :
    (s'.held level).toNat ≤ tracked s' level := by
  rw [hheld, tracked_other s' hlevel, hrest, ← tracked_other s hlevel]
  exact hs.covered level

theorem Evictable.write (hs : Evictable s) (k : CacheKey) (entry : Bytes) {stamped : Bytes}
    (hlen : stamped.length = 8) : Evictable (s.write k.level k.bytes entry stamped) where
  indexed := hs.indexed.record k hlen rfl rfl
  present := by
    intro key hkey
    simp only [SledCache.write_used, SledCache.write_entries, Std.ExtTreeMap.mem_insert] at hkey ⊢
    exact hkey.imp_right (hs.present key)
  covered := by
    intro level
    have hrest : trackedBut (s.write k.level k.bytes entry stamped) level k.bytes
        = trackedBut s level k.bytes :=
      trackedBut_congr level (erase_insert _ _ _) fun a ha => getElem?_insert_ne _ _ ha.symm
    by_cases hlevel : k.level = level
    · subst hlevel
      have hbut := hs.heldBut_le k
      rw [SledCache.held_write, if_pos rfl, tracked_split _ _ k.bytes, hrest]
      simp only [SledCache.write_entries, Std.ExtTreeMap.getElem?_insert_self, Option.elim_some,
        usedWeight, SledCache.write_used, Option.isSome_some, if_true, levelWeight_own,
        saturatingAdd_toNat, weigh, saturate_toNat]
      omega
    · exact hs.covered_other hlevel (by rw [SledCache.held_write, if_neg hlevel]) hrest

theorem Evictable.dropEntry (hs : Evictable s) (k : CacheKey) :
    Evictable (s.dropEntry k.level k.bytes).1 := by
  rcases s.dropEntry_cases k.level k.bytes with ⟨_, hd⟩ | ⟨entry, hentry, hd⟩
  · rw [hd]
    exact hs
  rw [hd]
  refine ⟨hs.indexed.forget k rfl rfl, ?_, ?_⟩
  · intro key hkey
    simp only [SledCache.without, Std.ExtTreeMap.mem_erase] at hkey ⊢
    exact ⟨hkey.1, hs.present key hkey.2⟩
  · intro level
    have hrest : trackedBut (s.without k.level k.bytes entry) level k.bytes
        = trackedBut s level k.bytes :=
      trackedBut_congr level (erase_erase _ _) fun a ha => getElem?_erase_ne _ ha.symm
    by_cases hlevel : k.level = level
    · subst hlevel
      have hbut := hs.heldBut_le k
      simp only [SledCache.heldBut, hentry] at hbut
      rw [SledCache.held_without, if_pos rfl, tracked_split _ _ k.bytes, hrest]
      omega
    · exact hs.covered_other hlevel (by rw [SledCache.held_without, if_neg hlevel]) hrest

theorem Evictable.touch (hs : Evictable s) (k : CacheKey) {stamped : Bytes}
    (hlen : stamped.length = 8) (hthere : k.bytes ∈ s.entries) :
    Evictable (s.touch k.level k.bytes stamped) where
  indexed := hs.indexed.record k hlen rfl rfl
  present := by
    intro key hkey
    simp only [SledCache.touch_used, Std.ExtTreeMap.mem_insert, Std.compare_eq_iff_eq] at hkey
    rcases hkey with rfl | hkey
    · exact hthere
    · exact hs.present key hkey
  covered := by
    intro level
    have hrest : trackedBut (s.touch k.level k.bytes stamped) level k.bytes
        = trackedBut s level k.bytes :=
      trackedBut_congr level rfl fun a ha => getElem?_insert_ne _ _ ha.symm
    have hcov := hs.covered level
    rw [tracked_split s level k.bytes] at hcov
    rw [SledCache.held_touch, tracked_split _ _ k.bytes, hrest]
    obtain ⟨entry, hentry⟩ := (mem_iff_getElem? _ _).mp hthere
    simp only [SledCache.touch_entries, hentry, Option.elim_some, usedWeight, SledCache.touch_used,
      Std.ExtTreeMap.getElem?_insert_self, Option.isSome_some, if_true] at hcov ⊢
    split at hcov <;> omega

theorem Evictable.swapIn (hs : Evictable s) (key entry : Bytes)
    (hlonger : ∀ old, s.entries[key]? = some old → old.length ≤ entry.length) :
    Evictable (s.swapIn key entry) where
  indexed := ⟨hs.indexed.keyed, hs.indexed.stamped, hs.indexed.named, hs.indexed.listed⟩
  present := by
    intro other hother
    exact Std.ExtTreeMap.mem_insert.mpr (.inr (hs.present other hother))
  covered := by
    intro level
    have hrest : trackedBut (s.swapIn key entry) level key = trackedBut s level key :=
      trackedBut_congr level (erase_insert _ _ _) fun _ _ => rfl
    have hcov := hs.covered level
    rw [tracked_split s level key] at hcov
    rw [SledCache.held_swapIn, tracked_split _ _ key, hrest]
    refine hcov.trans (Nat.add_le_add_right ?_ _)
    simp only [SledCache.swapIn_entries, Std.ExtTreeMap.getElem?_insert_self, Option.elim_some]
    cases hold : s.entries[key]? with
    | none => exact Nat.zero_le _
    | some old =>
      have := hlonger old hold
      simp only [Option.elim_some, usedWeight, levelWeight, SledCache.swapIn_used]
      split
      · split <;> omega
      · exact Nat.zero_le _

end Effects

/-- **One step keeps eviction going**, when its use is of an entry that is there and its swap shortens
nothing. -/
theorem step_evictable {clock : Clock} {s s' : SledCache} {t t' : Thread} {pool : List Thread}
    (hs : Evictable s) (ht : Staged t) (htouch : TouchPresent ⟨s, pool⟩ t clock)
    (hswap : NoShorterSwap ⟨s, pool⟩ t clock) (h : step clock s t = some (s', t')) :
    Evictable s' := by
  cases step_effect h with
  | still => exact hs
  | swap entry hsw => exact hs.swapIn _ _ fun old hold => hswap _ hsw rfl old hold
  | write entry _ => exact hs.write t.call.key entry (toBeBytes_length _)
  | drop key hdrop =>
    obtain ⟨k, rfl, hlevel⟩ := ht.evicts key hdrop
    rw [← hlevel]
    exact hs.dropEntry k
  | touch stamped hst =>
    refine hs.touch t.call.key (ht.stamp _ hst) ?_
    rcases htouch with hnone | hthere
    · rw [hst] at hnone
      cases hnone
    · exact Std.ExtTreeMap.mem_iff_isSome_getElem?.mpr hthere

/-! ### A turn of the loop, and the loop -/

/-- **A level over its limit has an entry for the next turn to drop.** -/
theorem Evictable.turn {s : SledCache} (hs : Evictable s) {level : CacheLevel} {limit : MaxBytes}
    (hover : s.held level > limit.get) :
    ∃ k : CacheKey, k.level = level ∧ k.bytes ∈ s.entries ∧
      (∃ row, s.oldest level = some row ∧ row.drop indexPrefix = k.bytes) := by
  have hpos : 0 < tracked s level := by
    have := hs.covered level
    have : limit.get.toNat < (s.held level).toNat := hover
    omega
  obtain ⟨key, entry, hentry, hweight⟩ := exists_of_sumOver_pos hpos
  have hused : (s.used[key]?).isSome = true := by
    by_contra hnot
    rw [usedWeight, if_neg hnot] at hweight
    exact absurd hweight (Nat.lt_irrefl 0)
  have hspells : level.spells key = true := by
    by_contra hnot
    rw [usedWeight, if_pos hused, levelWeight, if_neg hnot] at hweight
    exact absurd hweight (Nat.lt_irrefl 0)
  obtain ⟨k, rfl⟩ := hs.indexed.keyed key (Std.ExtTreeMap.mem_iff_isSome_getElem?.mpr hused)
  rw [CacheKey.spells_bytes, decide_eq_true_eq] at hspells
  obtain ⟨row, hrow⟩ := oldest_isSome hs.indexed k (Std.ExtTreeMap.mem_iff_isSome_getElem?.mpr hused)
  rw [← hspells] at hrow
  obtain ⟨k', hlevel, hkey, hmem⟩ := oldest_named hs.indexed hrow
  exact ⟨k', hlevel, hs.present _ hmem, row, hrow, hkey⟩

section Loop

variable {s : SledCache} {call : Call} {limit : MaxBytes} {answer : Answer} {row : Bytes}

theorem evictRead_over {level : CacheLevel} (hlimit : s.limits.of level = some limit)
    (hover : s.held level > limit.get) (answer : Answer) :
    s.evictRead level answer = .scanning answer := by
  simp only [SledCache.evictRead, hlimit, if_pos hover]

theorem evictRead_within {level : CacheLevel} (hlimit : s.limits.of level = some limit)
    (hwithin : ¬s.held level > limit.get) (answer : Answer) :
    s.evictRead level answer = .done answer := by
  simp only [SledCache.evictRead, hlimit, if_neg hwithin]

theorem evictScan_some {level : CacheLevel} (hrow : s.oldest level = some row) (answer : Answer) :
    s.evictScan level answer = .evictDrop (row.drop indexPrefix) answer := by
  simp only [SledCache.evictScan, hrow]

/-- One turn: a level over its limit, its oldest row, and the drop of the key that row names. -/
theorem run_turn (hlimit : s.limits.of call.key.level = some limit)
    (hover : s.held call.key.level > limit.get) (hrow : s.oldest call.key.level = some row)
    (c₁ c₂ c₃ : Clock) (rest : List (ℕ × Clock)) :
    Pool.run step Pool.anyStep ⟨s, [⟨call, .evicting answer⟩]⟩ ((0, c₁) :: (0, c₂) :: (0, c₃) :: rest)
      = Pool.run step Pool.anyStep
          ⟨(s.dropEntry call.key.level (row.drop indexPrefix)).1, [⟨call, .evicting answer⟩]⟩ rest := by
  have hread : step c₁ s ⟨call, .evicting answer⟩ = some (s, ⟨call, .scanning answer⟩) := by
    rw [← evictRead_over hlimit hover answer]
    rfl
  have hscan : step c₂ s ⟨call, .scanning answer⟩
      = some (s, ⟨call, .evictDrop (row.drop indexPrefix) answer⟩) := by
    rw [← evictScan_some hrow answer]
    rfl
  rw [Pool.run_solo_cons, hread, Option.bind_some, Pool.run_solo_cons, hscan, Option.bind_some,
    Pool.run_solo_cons]
  rfl

/-- **`evict` alone stops inside the limit.**  The induction is on the number of entries: every turn
takes one out. -/
theorem Evictable.stops (hs : Evictable s) (call : Call) (limit : MaxBytes) (answer : Answer)
    (hlimit : s.limits.of call.key.level = some limit) : EvictStops s call limit answer := by
  induction hsize : s.entries.size using Nat.strong_induction_on generalizing s with
  | _ size ih =>
    by_cases hover : s.held call.key.level > limit.get
    · obtain ⟨k, hlevel, hmem, row, hrow, hkey⟩ := hs.turn hover
      have hless : (s.dropEntry k.level k.bytes).1.entries.size < size := by
        obtain ⟨entry, hentry⟩ := (mem_iff_getElem? _ _).mp hmem
        rw [SledCache.dropEntry_present s k.level hentry, ← hsize]
        exact size_erase_lt hmem
      obtain ⟨n, hn⟩ := ih _ hless (hs.dropEntry k) (by rw [SledCache.dropEntry_limits, hlimit]) rfl
      refine ⟨n + 3, ?_⟩
      intro clocks hlen
      match clocks, hlen with
      | c₁ :: c₂ :: c₃ :: rest, hlen =>
        obtain ⟨s', hrun, hheld⟩ := hn rest (by simpa using hlen)
        refine ⟨s', ?_, hheld⟩
        rw [List.map_cons, List.map_cons, List.map_cons, run_turn hlimit hover hrow, hkey, ← hlevel]
        exact hrun
    · refine ⟨1, ?_⟩
      intro clocks hlen
      obtain ⟨clock, rfl⟩ := List.length_eq_one_iff.mp hlen
      refine ⟨s, ?_, UInt64.not_lt.mp hover⟩
      have hread : step clock s ⟨call, .evicting answer⟩ = some (s, ⟨call, .done answer⟩) := by
        rw [← evictRead_within hlimit hover answer]
        rfl
      rw [List.map_cons, List.map_nil, Pool.run_solo_cons, hread]
      rfl

/-- **A row that names nothing makes `evict` spin**: with the level over its limit and its oldest row
naming a key that is not there, `evict` alone goes round for ever and changes nothing. -/
theorem evict_spins (hlimit : s.limits.of call.key.level = some limit)
    (hover : s.held call.key.level > limit.get) (hrow : s.oldest call.key.level = some row)
    (hstale : s.entries[row.drop indexPrefix]? = none) {q : Pool SledCache Thread}
    (h : Pool.Reach step Pool.anyStep ⟨s, [⟨call, .evicting answer⟩]⟩ q) :
    q.shared = s ∧ ∀ t ∈ q.threads, t.returned = false := by
  have hround : ∃ s' t', q = ⟨s', [t']⟩ ∧ s' = s ∧ t'.call = call ∧
      (t'.pc = .evicting answer ∨ t'.pc = .scanning answer ∨
        t'.pc = .evictDrop (row.drop indexPrefix) answer) := by
    refine h.solo_invariant ⟨rfl, rfl, .inl rfl⟩ ?_
    rintro s₁ ⟨call₁, pc₁⟩ clock s₂ t₂ ⟨rfl, rfl, hpc⟩ _ hs
    simp only at hpc
    rcases hpc with rfl | rfl | rfl
    · simp only [step, Option.map_some, evictRead_over hlimit hover] at hs
      obtain ⟨rfl, rfl⟩ := Prod.mk.inj (Option.some.inj hs)
      exact ⟨rfl, rfl, .inr (.inl rfl)⟩
    · simp only [step, Option.map_some, evictScan_some hrow] at hs
      obtain ⟨rfl, rfl⟩ := Prod.mk.inj (Option.some.inj hs)
      exact ⟨rfl, rfl, .inr (.inr rfl)⟩
    · simp only [step, Option.map_some, SledCache.dropEntry_absent _ _ hstale] at hs
      obtain ⟨rfl, rfl⟩ := Prod.mk.inj (Option.some.inj hs)
      exact ⟨rfl, rfl, .inl rfl⟩
  obtain ⟨s', t', rfl, rfl, -, hpc⟩ := hround
  refine ⟨rfl, ?_⟩
  intro t ht
  obtain rfl := List.mem_singleton.mp ht
  rcases hpc with hpc | hpc | hpc <;> simp [Thread.returned, hpc]

end Loop

theorem Evictable.ends {s : SledCache} (hs : Evictable s) : EvictionEnds s where
  rows := by
    intro row hrow
    obtain ⟨k, stamp, hused, rfl⟩ := hs.indexed.named row hrow
    rw [indexKey_drop _ (hs.indexed.stamped _ _ hused)]
    exact hs.present _ ((mem_iff_getElem? _ _).mpr ⟨stamp, hused⟩)
  turns := by
    intro level limit _ hover
    obtain ⟨k, _, hmem, row, hrow, hkey⟩ := hs.turn hover
    obtain ⟨entry, hentry⟩ := (mem_iff_getElem? _ _).mp hmem
    refine ⟨row, entry, hrow, ?_⟩
    rw [hkey, SledCache.dropEntry_present s level hentry]
  stops := fun call limit answer hlimit => hs.stops call limit answer hlimit

/-- **Eviction ends** in every state any interleaving of any calls reaches from an empty database, as
long as every use is recorded of an entry that is there and no swap shortens the entry it replaces. -/
theorem evictionEnds_of_guarded (limits : LevelLimits) (calls : List Call) {p : Pool SledCache Thread}
    (h : Pool.Reach step (Pool.both TouchPresent NoShorterSwap)
      ⟨.opened limits, calls.map Thread.new⟩ p) : EvictionEnds p.shared := by
  have hlocal : Pool.Local Evictable (fun _ t => Staged t) p := by
    refine h.local_invariant ⟨evictable_opened limits, ?_⟩ ?_
    · intro t ht
      obtain ⟨call, -, rfl⟩ := List.mem_map.mp ht
      exact staged_plain rfl
    · intro s pre t post clock s' t' hI hC hs
      have ht : Staged t := hI.2 t (List.mem_append_right _ (List.mem_cons_self ..))
      exact ⟨step_evictable hI.1 ht hC.1 hC.2 hs, step_staged hI.1.indexed hs, fun u hu => hu⟩
  exact hlocal.1.ends

/-! ### A read that a removal overtakes -/

/-- Thirty bytes for answers, and no other limit. -/
def thirtyBytes : LevelLimits := { response := some ⟨30, by decide⟩ }

def keyA : CacheKey := ⟨.response, "a", by decide, by decide⟩

def keyB : CacheKey := ⟨.response, "b", by decide, by decide⟩

/-- An empty answer is put, read and removed; then one too large for the level is put. -/
def overtaken : Pool SledCache Thread :=
  ⟨.opened thirtyBytes,
    [.put keyA [] none, .get keyA, .remove keyA, .put keyB (List.replicate 20 0) none].map Thread.new⟩

/-- The `get` reads the entry and the stale use, the `remove` takes the entry, and the `get` records its
use; the last `put` is then about to evict. -/
def removedMidway : List (ℕ × Clock) :=
  [0, 0, 0].map (·, ⟨1000, 1000000⟩) ++ [1, 1, 2, 1].map (·, ⟨3000, 3000000⟩) ++
    [3, 3].map (·, ⟨5000, 5000000⟩)

/-- One call after the other; the last `put` is about to evict. -/
def removedAfter : List (ℕ × Clock) :=
  [0, 0, 0].map (·, ⟨1000, 1000000⟩) ++ [1, 1, 1, 3, 3].map (·, ⟨3000, 3000000⟩)

/-- With the two answers over the limit together, eviction ends. -/
theorem evictionEnds_removedAfter :
    ∃ p, Pool.Reach step (Pool.both TouchPresent NoShorterSwap) overtaken p ∧
      p.shared.held .response = 54 ∧ EvictionEnds p.shared := by
  have hrun : (Pool.run step (Pool.both TouchPresent NoShorterSwap) overtaken removedAfter).any
      (fun p => p.shared.held .response == 54) = true := by decide
  obtain ⟨p, hreach, hp⟩ := Pool.exists_reach_of_run hrun
  exact ⟨p, hreach, by simpa using hp, evictionEnds_of_guarded _ _ hreach⟩

/-- **A `get` that a `remove` overtakes leaves a row that names nothing**, and the next `evict` over the
limit never returns. -/
theorem stale_row :
    ¬∀ (limits : LevelLimits) (calls : List Call) (p : Pool SledCache Thread),
      Pool.Reach step Pool.anyStep ⟨.opened limits, calls.map Thread.new⟩ p → EvictionEnds p.shared := by
  intro hall
  have hrun : (Pool.run step Pool.anyStep overtaken removedMidway).any (fun p =>
      decide (p.shared.limits = thirtyBytes) && decide (p.shared.held .response > 30) &&
        (p.shared.oldest .response).any fun row =>
          (p.shared.entries[row.drop indexPrefix]?).isNone) = true := by decide
  obtain ⟨p, hreach, hp⟩ := Pool.exists_reach_of_run hrun
  simp only [Bool.and_eq_true, decide_eq_true_eq] at hp
  obtain ⟨⟨hlimits, hover⟩, hrow⟩ := hp
  obtain ⟨row, hrow, hstale⟩ := (Option.any_eq_true _ _).mp hrow
  have hlimit : p.shared.limits.of .response = some ⟨30, by decide⟩ := by rw [hlimits]; rfl
  -- `evict` is said to stop after `n` steps, and spins through all of them
  obtain ⟨n, hn⟩ := (hall thirtyBytes _ p hreach).stops (.remove keyB) _ .wrote hlimit
  obtain ⟨s', hdone, -⟩ := hn (List.replicate n ⟨0, 0⟩) List.length_replicate
  have := (evict_spins hlimit hover hrow (Option.isNone_iff_eq_none.mp hstale)
    (Pool.reach_of_run hdone)).2 _ (List.mem_singleton.mpr rfl)
  cases this

end IntelliPrism.Cache
