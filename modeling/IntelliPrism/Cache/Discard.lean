import IntelliPrism.Cache.Eviction
import IntelliPrism.Cache.Keeping
import IntelliPrism.Cache.Recency

/-!
# What a put discards

Calls that put, get and remove, one after the other, leave the four trees settled: every entry's use is
recorded, and every level that is limited is accounted for.  So the turns of `evict` take the level's entries
out in order of their last use, and stop with the first that brings the level within its limit.

* `FitsLimited` — what a limited level holds after a write fits in the 64 bits of its size;
* `Settled.write`, `Settled.dropEntry`, `Settled.touch` — what each transaction keeps;
* `carried_settled`, `sequence_settled` — **such calls keep the trees settled**, one call and a run of them;
* `Taken`, `step_discards` — the turns of `evict`, one step at a time;
* `put_discards` — **a put discards the least recently used and no more than needed**.
-/

namespace IntelliPrism.Cache

open IntelliPrism.Lib

/-- Where a level is limited, its bytes still fit in 64 bits after a write. -/
def FitsLimited : Guard Clock SledCache Thread := fun p t clock =>
  (p.shared.limits.of t.level).isSome = true → FitsWrite p t clock

instance (p : Pool SledCache Thread) (t : Thread) (clock : Clock) : Decidable (FitsLimited p t clock) :=
  inferInstanceAs (Decidable (_ → _))

/-! ### The transactions keep the trees settled -/

section Transactions

variable {s : SledCache}

theorem Settled.keyed (hs : Settled s) : ∀ key ∈ s.entries, ∃ k : CacheKey, key = k.bytes :=
  fun key hkey => hs.indexed.keyed key (hs.recorded key hkey)

theorem Settled.write (hs : Settled s) (k : CacheKey) {entry stamped : Bytes} (hlen : stamped.length = 8)
    (hfits : (s.limits.of k.level).isSome = true →
      k.bytes.length + entry.length + storedBut s k.level k.bytes ≤ wordMax) :
    Settled (s.write k.level k.bytes entry stamped) where
  indexed := hs.indexed.record k hlen rfl rfl
  present := by
    intro key hkey
    simp only [SledCache.write_used, SledCache.write_entries, Std.ExtTreeMap.mem_insert] at hkey ⊢
    exact hkey.imp_right (hs.present key)
  recorded := by
    intro key hkey
    simp only [SledCache.write_used, SledCache.write_entries, Std.ExtTreeMap.mem_insert] at hkey ⊢
    exact hkey.imp_right (hs.recorded key)
  accounted := by
    intro level hlimit
    have hheld := hs.accounted level hlimit
    by_cases hlevel : k.level = level
    · subst hlevel
      exact held_write_own stamped (heldBut_eq_storedBut hheld) (hfits hlimit)
    · rw [SledCache.held_write, if_neg hlevel, stored_write_other hlevel, hheld, stored_other s hlevel]

theorem Settled.dropEntry (hs : Settled s) (k : CacheKey) : Settled (s.dropEntry k.level k.bytes).1 := by
  rcases s.dropEntry_cases k.level k.bytes with ⟨_, hd⟩ | ⟨entry, hentry, hd⟩
  · rw [hd]
    exact hs
  rw [hd]
  refine ⟨hs.indexed.forget k rfl rfl, ?_, ?_, ?_⟩
  · intro key hkey
    simp only [SledCache.without, Std.ExtTreeMap.mem_erase] at hkey ⊢
    exact ⟨hkey.1, hs.present key hkey.2⟩
  · intro key hkey
    simp only [SledCache.without, Std.ExtTreeMap.mem_erase] at hkey ⊢
    exact ⟨hkey.1, hs.recorded key hkey.2⟩
  · intro level hlimit
    have hheld := hs.accounted level hlimit
    have hgone : stored (s.without k.level k.bytes entry) level = storedBut s level k.bytes := rfl
    rw [hgone, SledCache.held_without]
    by_cases hlevel : k.level = level
    · subst hlevel
      rw [if_pos rfl, ← heldBut_eq_storedBut hheld, SledCache.heldBut, hentry]
    · rw [if_neg hlevel, hheld, stored_other s hlevel]

theorem Settled.touch (hs : Settled s) (k : CacheKey) {stamped : Bytes} (hlen : stamped.length = 8)
    (hthere : k.bytes ∈ s.entries) : Settled (s.touch k.level k.bytes stamped) where
  indexed := hs.indexed.record k hlen rfl rfl
  present := by
    intro key hkey
    simp only [SledCache.touch_used, Std.ExtTreeMap.mem_insert, Std.compare_eq_iff_eq] at hkey
    rcases hkey with rfl | hkey
    · exact hthere
    · exact hs.present key hkey
  recorded := by
    intro key hkey
    simp only [SledCache.touch_used, Std.ExtTreeMap.mem_insert]
    exact .inr (hs.recorded key hkey)
  accounted := hs.accounted

end Transactions

/-! ### The turns of `evict` -/

/-- A level is over its limit without its first entries. -/
def OverWithout (w : SledCache) (level : CacheLevel) (n : ℕ) : Prop :=
  ∃ limit, w.limits.of level = some limit ∧ limit.get.toNat < weighAll w ((byUse w level).drop n)

/-- The first entries of a level are gone, each of which had to go; the rest is as it was. -/
structure Taken (w : SledCache) (level : CacheLevel) (n : ℕ) (s : SledCache) : Prop where
  settled : Settled s
  limits : s.limits = w.limits
  ranked : Ranked s level ((byUse w level).drop n)
  entries : ∀ key, s.entries[key]? = if key ∈ (byUse w level).take n then none else w.entries[key]?
  used : ∀ key, s.used[key]? = if key ∈ (byUse w level).take n then none else w.used[key]?
  held : ∀ other, other ≠ level → s.held other = w.held other
  needed : ∀ m < n, OverWithout w level m

section Turns

variable {w s : SledCache} {level : CacheLevel} {n : ℕ}

theorem taken_none (hw : Settled w) : Taken w level 0 w where
  settled := hw
  limits := rfl
  ranked := ranked_byUse w level
  entries := by simp
  used := by simp
  held := fun _ _ => rfl
  needed := by
    intro m hm
    omega

theorem drop_succ_of_cons {keys rest : List Bytes} {key : Bytes} (h : keys.drop n = key :: rest) :
    keys.drop (n + 1) = rest := by
  rw [← List.drop_drop, h, List.drop_one, List.tail_cons]

theorem getElem?_erase_next {tree whole : SledTree} {keys : List Bytes} {key : Bytes}
    (htree : ∀ k, tree[k]? = if k ∈ keys.take n then none else whole[k]?) (hnext : keys[n]? = some key)
    (k : Bytes) : (tree.erase key)[k]? = if k ∈ keys.take (n + 1) then none else whole[k]? := by
  have htake : k ∈ keys.take (n + 1) ↔ k ∈ keys.take n ∨ k = key := by
    rw [List.take_add_one, hnext, List.mem_append, Option.toList_some, List.mem_singleton]
  rw [getElem?_erase_eq, htree k]
  by_cases heq : k = key
  · rw [if_pos heq.symm, if_pos (htake.mpr (.inr heq))]
  · rw [if_neg (Ne.symm heq)]
    simp only [htake, heq, or_false]

theorem Taken.stored_eq (h : Taken w level n s) :
    stored s level = weighAll w ((byUse w level).drop n) := by
  rw [stored_ranked h.settled.keyed h.ranked]
  refine weighAll_congr ?_
  intro key hkey
  have hthere := ((h.ranked.mem key).mp hkey).2
  have hkept := h.entries key
  split at hkept
  · rw [mem_iff_getElem?, hkept] at hthere
    obtain ⟨_, hsome⟩ := hthere
    cases hsome
  · exact hkept

/-- The level is read to be over its limit exactly when what is left of it is. -/
theorem Taken.over_iff (h : Taken w level n s) {limit : MaxBytes} (hlimit : s.limits.of level = some limit) :
    s.held level > limit.get ↔ OverWithout w level n := by
  have haccounted := h.settled.accounted level (by rw [hlimit]; rfl)
  rw [h.stored_eq] at haccounted
  rw [gt_iff_lt, UInt64.lt_iff_toNat_lt, haccounted]
  constructor
  · intro hlt
    exact ⟨limit, by rw [← h.limits, hlimit], hlt⟩
  · intro ⟨other, hother, hlt⟩
    rw [← h.limits, hlimit] at hother
    cases hother
    exact hlt

/-- **One turn**: the next entry goes. -/
theorem Taken.turn (h : Taken w level n s) (hover : OverWithout w level n) {key : Bytes}
    (hnext : ((byUse w level).drop n).head? = some key) : Taken w level (n + 1) (s.dropEntry level key).1 := by
  obtain ⟨rest, hdrop⟩ := List.head?_eq_some_iff.mp hnext
  have hget : (byUse w level)[n]? = some key := by rw [← hnext, List.head?_drop]
  have hrank := h.ranked
  rw [hdrop] at hrank
  obtain ⟨hspells, hmem⟩ := (hrank.mem key).mp (List.mem_cons_self ..)
  obtain ⟨k, stamp, rfl, rfl, hstamp⟩ := h.settled.key_of_spells hspells hmem
  obtain ⟨entry, hentry⟩ := (mem_iff_getElem? _ _).mp hmem
  have hgone := s.dropEntry_present k.level hentry
  have hsettled := h.settled.dropEntry k
  have hranked := hrank.dropEntry
  rw [hgone] at hsettled hranked ⊢
  refine ⟨hsettled, h.limits, by rw [drop_succ_of_cons hdrop]; exact hranked, ?_, ?_, ?_, ?_⟩
  · exact getElem?_erase_next h.entries hget
  · exact getElem?_erase_next h.used hget
  · intro other hother
    rw [SledCache.held_without, if_neg (Ne.symm hother)]
    exact h.held other hother
  · intro m hm
    rcases Nat.lt_succ_iff_lt_or_eq.mp hm with hless | heq
    · exact h.needed m hless
    · rw [heq]
      exact hover

theorem OverWithout.next (h : OverWithout w level n) :
    ∃ key rest, (byUse w level).drop n = key :: rest := by
  obtain ⟨limit, _, hlt⟩ := h
  cases hlist : (byUse w level).drop n with
  | nil =>
    rw [hlist] at hlt
    exact absurd hlt (Nat.not_lt_zero _)
  | cons key rest => exact ⟨key, rest, rfl⟩

theorem Taken.evictRead_over (h : Taken w level n s) (hover : OverWithout w level n) (answer : Answer) :
    s.evictRead level answer = .scanning answer := by
  obtain ⟨limit, hlimit, -⟩ := id hover
  rw [← h.limits] at hlimit
  exact Cache.evictRead_over hlimit ((h.over_iff hlimit).mpr hover) answer

theorem Taken.evictRead_within (h : Taken w level n s) (hnot : ¬OverWithout w level n) (answer : Answer) :
    s.evictRead level answer = .done answer := by
  cases hlimit : s.limits.of level with
  | none => simp only [SledCache.evictRead, hlimit]
  | some limit => exact Cache.evictRead_within hlimit (fun hover => hnot ((h.over_iff hlimit).mp hover)) answer

theorem Taken.evictScan_next (h : Taken w level n s) (hover : OverWithout w level n) (answer : Answer) :
    ∃ key, ((byUse w level).drop n).head? = some key ∧ s.evictScan level answer = .evictDrop key answer := by
  obtain ⟨key, rest, hnext⟩ := hover.next
  have hrank := h.ranked
  rw [hnext] at hrank
  obtain ⟨row, hrow, hkey⟩ := oldest_ranked h.settled hrank
  exact ⟨key, by rw [hnext, List.head?_cons], by rw [evictScan_some hrow, hkey]⟩

/-- Where a put that has written stands, and what it has taken out there. -/
def Discarding (w : SledCache) (level : CacheLevel) (s : SledCache) : Pc → Prop
  | .evicting answer => answer = .wrote ∧ ∃ n, Taken w level n s
  | .scanning answer => answer = .wrote ∧ ∃ n, Taken w level n s ∧ OverWithout w level n
  | .evictDrop key answer => answer = .wrote ∧ ∃ n, Taken w level n s ∧ OverWithout w level n ∧
      ((byUse w level).drop n).head? = some key
  | .done answer => answer = .wrote ∧ ∃ n, Taken w level n s ∧ ¬OverWithout w level n
  | _ => False

theorem evictRead_discarding (h : Taken w level n s) :
    Discarding w level s (s.evictRead level .wrote) := by
  by_cases hover : OverWithout w level n
  · rw [h.evictRead_over hover]
    exact ⟨rfl, n, h, hover⟩
  · rw [h.evictRead_within hover]
    exact ⟨rfl, n, h, hover⟩

theorem evictScan_discarding (h : Taken w level n s) (hover : OverWithout w level n) :
    Discarding w level s (s.evictScan level .wrote) := by
  obtain ⟨key, hnext, hscan⟩ := h.evictScan_next hover .wrote
  rw [hscan]
  exact ⟨rfl, n, h, hover, hnext⟩

/-- **One step of the turns.** -/
theorem step_discards {clock : Clock} {s' : SledCache} {t' : Thread} {call : Call} {pc : Pc}
    (hpc : Discarding w call.key.level s pc) (h : step clock s ⟨call, pc⟩ = some (s', t')) :
    Discarding w call.key.level s' t'.pc := by
  cases pc <;> simp only [Discarding] at hpc <;> try exact hpc.elim
  case evicting answer =>
    obtain ⟨rfl, n, htaken⟩ := hpc
    cases h
    exact evictRead_discarding htaken
  case scanning answer =>
    obtain ⟨rfl, n, htaken, hover⟩ := hpc
    cases h
    exact evictScan_discarding htaken hover
  case evictDrop key answer =>
    obtain ⟨rfl, n, htaken, hover, hnext⟩ := hpc
    cases h
    exact ⟨rfl, n + 1, htaken.turn hover hnext⟩
  case done answer => cases h

end Turns

/-! ### The calls -/

section Calls

variable {s s' : SledCache} {key : CacheKey} {value : Bytes} {ttl : Option Ttl} {answer : Answer}

/-- Where a get stands, and that the entry it records a use of is there. -/
def Gets (s : SledCache) (key : CacheKey) : Pc → Prop
  | .start | .dropping _ _ _ | .done _ => True
  | .touching _ => key.bytes ∈ s.entries
  | .stamping _ stamped => key.bytes ∈ s.entries ∧ stamped.length = 8
  | _ => False

theorem getRead_gets (s : SledCache) (key : CacheKey) (clock : Clock) :
    Gets s key (s.getRead key.bytes clock) := by
  unfold SledCache.getRead
  split
  · trivial
  · rename_i entry hentry
    split
    · split
      · exact (mem_iff_getElem? _ _).mpr ⟨entry, hentry⟩
      · trivial
    · trivial

theorem touchRead_gets {clock : Clock} (hthere : key.bytes ∈ s.entries) (value : Bytes) :
    Gets s key (s.touchRead key.bytes value clock) := by
  unfold SledCache.touchRead
  split
  · split
    · trivial
    · exact ⟨hthere, toBeBytes_length _⟩
  · exact ⟨hthere, toBeBytes_length _⟩

theorem step_gets {clock : Clock} {pc : Pc} {t' : Thread} (hs : Settled s) (hpc : Gets s key pc)
    (h : step clock s ⟨.get key, pc⟩ = some (s', t')) : Settled s' ∧ Gets s' key t'.pc := by
  cases pc <;> simp only [Gets] at hpc <;> try exact hpc.elim
  case start =>
    cases h
    exact ⟨hs, getRead_gets s key clock⟩
  case touching value =>
    cases h
    exact ⟨hs, touchRead_gets hpc value⟩
  case stamping value stamped =>
    cases h
    exact ⟨hs.touch key hpc.2 hpc.1, trivial⟩
  case dropping found now answer =>
    cases h
    exact ⟨hs.dropEntry key, trivial⟩
  case done answer => cases h

/-- Where a put stands: what it is about to write, and what it takes out once it has. -/
def Puts (before : SledCache) (key : CacheKey) (value : Bytes) (ttl : Option Ttl) (s : SledCache) : Pc → Prop
  | .start => s = before
  | .writing written answer => s = before ∧ answer = .wrote ∧ ∃ now, written = entry value ttl now
  | pc => ∃ now micros,
      Discarding (before.write key.level key.bytes (entry value ttl now) (toBeBytes micros)) key.level s pc

/-- **One step of a put.** -/
theorem step_puts {before : SledCache} (hbefore : Settled before) {clock : Clock} {pc : Pc} {t' : Thread}
    (hfits : FitsLimited ⟨s, [⟨.put key value ttl, pc⟩]⟩ ⟨.put key value ttl, pc⟩ clock)
    (hpc : Puts before key value ttl s pc) (h : step clock s ⟨.put key value ttl, pc⟩ = some (s', t')) :
    Puts before key value ttl s' t'.pc := by
  have hturns : (∃ now micros, Discarding
      (before.write key.level key.bytes (entry value ttl now) (toBeBytes micros)) key.level s pc) →
      ∃ now micros, Discarding
        (before.write key.level key.bytes (entry value ttl now) (toBeBytes micros)) key.level s' t'.pc := by
    intro ⟨now, micros, hdiscards⟩
    exact ⟨now, micros, step_discards hdiscards h⟩
  have hgoes : ∀ pc, (∃ now micros, Discarding
      (before.write key.level key.bytes (entry value ttl now) (toBeBytes micros)) key.level s' pc) →
      Puts before key value ttl s' pc := by
    intro pc hdiscards
    cases pc <;> simp only [Discarding, exists_false] at hdiscards <;> exact hdiscards
  cases pc
  case start =>
    cases h
    exact ⟨hpc, rfl, clock.millis, rfl⟩
  case writing written answer =>
    obtain ⟨rfl, rfl, now, rfl⟩ := hpc
    have hwrote := hbefore.write key (toBeBytes_length clock.micros) fun hlimit => hfits hlimit _ rfl
    cases h
    exact ⟨now, clock.micros, rfl, 0, taken_none hwrote⟩
  all_goals exact hgoes _ (hturns hpc)

/-- **What a put takes out**, from trees that are settled. -/
theorem carried_put (hs : Settled s) (h : Carried FitsLimited (.put key value ttl) s s' answer) :
    ∃ now micros n,
      Taken (s.write key.level key.bytes (entry value ttl now) (toBeBytes micros)) key.level n s' ∧
      ¬OverWithout (s.write key.level key.bytes (entry value ttl now) (toBeBytes micros)) key.level n := by
  have hputs := h.ends (A := Puts s key value ttl) rfl
    fun s₁ pc clock s₂ t' hpc hfits hstep => step_puts hs hfits hpc hstep
  obtain ⟨now, micros, -, n, htaken, hwithin⟩ := hputs
  exact ⟨now, micros, n, htaken, hwithin⟩

/-- The calls of a run: puts, gets and removes. -/
def Call.ordinary : Call → Bool
  | .get _ | .put _ _ _ | .remove _ => true
  | _ => false

/-- **Such a call leaves the trees settled.** -/
theorem carried_settled {call : Call} (hcall : call.ordinary = true) (hs : Settled s)
    (h : Carried FitsLimited call s s' answer) : Settled s' ∧ s'.limits = s.limits := by
  refine ⟨?_, (carried_indexed hs.indexed h).1⟩
  cases call with
  | put key value ttl =>
    obtain ⟨now, micros, n, htaken, -⟩ := carried_put hs h
    exact htaken.settled
  | get key =>
    have hgets := h.ends (A := fun s₁ pc => Settled s₁ ∧ Gets s₁ key pc) ⟨hs, trivial⟩
      fun s₁ pc clock s₂ t' hpc _ hstep => step_gets hpc.1 hpc.2 hstep
    exact hgets.1
  | remove key =>
    have hremoves := h.ends (A := fun s₁ pc => Settled s₁ ∧ (pc = .start ∨ ∃ answer, pc = .done answer))
      ⟨hs, .inl rfl⟩ (by
        intro s₁ pc clock s₂ t' hpc _ hstep
        rcases hpc.2 with rfl | ⟨answer, rfl⟩
        · cases hstep
          exact ⟨hpc.1.dropEntry key, .inr ⟨_, rfl⟩⟩
        · cases hstep)
    exact hremoves.1
  | claim key ttl => cases hcall
  | counting key ttl next => cases hcall
  | counted key => cases hcall

/-- Any finite sequence of puts, gets and removes, one after the other. -/
abbrev Sequence : SledCache → SledCache → Prop :=
  Relation.ReflTransGen fun s s' =>
    ∃ call answer, Call.ordinary call = true ∧ Carried FitsLimited call s s' answer

/-- **So does a run of them.** -/
theorem sequence_settled {limits : LevelLimits} (h : Sequence (.opened limits) s) :
    Settled s ∧ s.limits = limits := by
  induction h with
  | refl => exact ⟨settled_opened limits, rfl⟩
  | tail _ hlast ih =>
    obtain ⟨call, answer, hcall, hcarried⟩ := hlast
    obtain ⟨hsettled, hlimits⟩ := carried_settled hcall ih.1 hcarried
    exact ⟨hsettled, hlimits.trans ih.2⟩

/-! ### Every put returns -/

theorem fitsLimited_of_writes {p : Pool SledCache Thread} {t : Thread} (h : t.writes = none) (clock : Clock) :
    FitsLimited p t clock := by
  intro _ entry hentry
  rw [h] at hentry
  cases hentry

/-- The turns end, whatever the clock reads: every one of them leaves fewer entries. -/
theorem exists_discarded {w : SledCache} {n : ℕ} (clock : Clock) (call : Call)
    (h : Taken w call.key.level n s) :
    ∃ s', Pool.Reach step FitsLimited ⟨s, [⟨call, .evicting .wrote⟩]⟩ ⟨s', [⟨call, .done .wrote⟩]⟩ := by
  have hstays : ∀ {s n}, Taken w call.key.level n s → ¬OverWithout w call.key.level n →
      Pool.Reach step FitsLimited ⟨s, [⟨call, .evicting .wrote⟩]⟩ ⟨s, [⟨call, .done .wrote⟩]⟩ := by
    intro s n htaken hnot
    refine Pool.reach_solo_head (x := clock) (fitsLimited_of_writes rfl _) ?_ .refl
    show some (s, (⟨call, s.evictRead call.key.level .wrote⟩ : Thread)) = _
    rw [htaken.evictRead_within hnot]
  induction hleft : (byUse w call.key.level).drop n generalizing s n with
  | nil =>
    refine ⟨s, hstays h ?_⟩
    intro hover
    obtain ⟨key, rest, hnext⟩ := hover.next
    rw [hleft] at hnext
    cases hnext
  | cons first rest ih =>
    by_cases hover : OverWithout w call.key.level n
    · obtain ⟨key, hnext, hscan⟩ := h.evictScan_next hover .wrote
      obtain ⟨s', hturns⟩ := ih (h.turn hover hnext) (drop_succ_of_cons hleft)
      have hdrops : Pool.Reach step FitsLimited ⟨s, [⟨call, .evictDrop key .wrote⟩]⟩
          ⟨s', [⟨call, .done .wrote⟩]⟩ :=
        Pool.reach_solo_head (x := clock) (fitsLimited_of_writes rfl _) rfl hturns
      rw [← hscan] at hdrops
      have hscans : Pool.Reach step FitsLimited ⟨s, [⟨call, .scanning .wrote⟩]⟩
          ⟨s', [⟨call, .done .wrote⟩]⟩ :=
        Pool.reach_solo_head (x := clock) (fitsLimited_of_writes rfl _) rfl hdrops
      rw [← h.evictRead_over hover] at hscans
      exact ⟨s', Pool.reach_solo_head (x := clock) (fitsLimited_of_writes rfl _) rfl hscans⟩
    · exact ⟨s, hstays h hover⟩

/-- **A put that fits returns**, whatever the clock reads. -/
theorem exists_put (hs : Settled s) (key : CacheKey) (value : Bytes) (ttl : Option Ttl) (clock : Clock)
    (hfits : (s.limits.of key.level).isSome = true →
      key.bytes.length + (entry value ttl clock.millis).length + storedBut s key.level key.bytes ≤ wordMax) :
    ∃ s', Carried FitsLimited (.put key value ttl) s s' .wrote := by
  have hwrote := hs.write key (toBeBytes_length clock.micros) hfits
  obtain ⟨s', hturns⟩ := exists_discarded clock (.put key value ttl) (taken_none hwrote)
  have hwrites : Pool.Reach step FitsLimited
      ⟨s, [⟨.put key value ttl, .writing (entry value ttl clock.millis) .wrote⟩]⟩
      ⟨s', [⟨.put key value ttl, .done .wrote⟩]⟩ := by
    refine Pool.reach_solo_head (x := clock) ?_ rfl hturns
    intro hlimit written hwritten
    cases hwritten
    exact hfits hlimit
  exact ⟨s', Pool.reach_solo_head (x := clock) (fitsLimited_of_writes rfl _) rfl hwrites⟩

/-! ### What a put discards -/

/-- Of a level as a put wrote it, the first entries in order of use are gone and nothing else is: they are
enough to bring the level within its limit, none fewer are, and no other level is touched. -/
structure Discards (s : SledCache) (key : CacheKey) (written stamped : Bytes) (n : ℕ) (s' : SledCache) :
    Prop where
  within : ∀ limit, s.limits.of key.level = some limit → stored s' key.level ≤ limit.get.toNat
  dropped : ∀ k, s'.entries[k]? =
    if k ∈ (byUse (s.write key.level key.bytes written stamped) key.level).take n then none
    else (s.write key.level key.bytes written stamped).entries[k]?
  enough : ¬OverWithout (s.write key.level key.bytes written stamped) key.level n
  needed : ∀ m < n, OverWithout (s.write key.level key.bytes written stamped) key.level m
  others : ∀ k : CacheKey, k.level ≠ key.level →
    s'.entries[k.bytes]? = s.entries[k.bytes]? ∧ s'.used[k.bytes]? = s.used[k.bytes]?
  sizes : ∀ level, level ≠ key.level → s'.held level = s.held level

theorem Taken.discards {written stamped : Bytes} {n : ℕ}
    (h : Taken (s.write key.level key.bytes written stamped) key.level n s')
    (hnot : ¬OverWithout (s.write key.level key.bytes written stamped) key.level n) :
    Discards s key written stamped n s' := by
  have hother : ∀ k : CacheKey, k.level ≠ key.level →
      k.bytes ∉ (byUse (s.write key.level key.bytes written stamped) key.level).take n ∧
        key.bytes ≠ k.bytes := by
    intro k hlevel
    constructor
    · intro htaken
      have hspells := ((ranked_byUse _ _).mem _).mp (List.mem_of_mem_take htaken)
      rw [CacheKey.spells_bytes, decide_eq_true_eq] at hspells
      exact hlevel hspells.1.symm
    · intro heq
      rw [CacheKey.bytes_injective heq] at hlevel
      exact hlevel rfl
  refine ⟨?_, h.entries, hnot, h.needed, ?_, ?_⟩
  · intro limit hlimit
    rw [h.stored_eq]
    exact Nat.le_of_not_lt fun hlt => hnot ⟨limit, hlimit, hlt⟩
  · intro k hlevel
    obtain ⟨hkept, hne⟩ := hother k hlevel
    rw [h.entries, h.used, if_neg hkept, if_neg hkept, SledCache.write_entries, SledCache.write_used]
    exact ⟨getElem?_insert_ne _ _ hne, getElem?_insert_ne _ _ hne⟩
  · intro level hlevel
    rw [h.held level hlevel, SledCache.held_write, if_neg (Ne.symm hlevel)]

/-- **A put discards the least recently used and no more than needed.**  After any sequence of puts, gets and
removes, under any limits and whatever the clock reads: a put returns, and leaves its level within its limit
by taking out the shortest run of its entries, in order of recorded use and then key, that does. -/
theorem put_discards {limits : LevelLimits} (hrun : Sequence (.opened limits) s) (key : CacheKey)
    (value : Bytes) (ttl : Option Ttl) :
    (∀ clock : Clock, ((limits.of key.level).isSome = true → key.bytes.length +
        (entry value ttl clock.millis).length + storedBut s key.level key.bytes ≤ wordMax) →
      ∃ s', Carried FitsLimited (.put key value ttl) s s' .wrote) ∧
      ∀ s' answer, Carried FitsLimited (.put key value ttl) s s' answer →
        s.limits = limits ∧ ∃ now micros n, Discards s key (entry value ttl now) (toBeBytes micros) n s' := by
  obtain ⟨hsettled, hlimits⟩ := sequence_settled hrun
  refine ⟨?_, ?_⟩
  · intro clock hfits
    exact exists_put hsettled key value ttl clock (by rw [hlimits]; exact hfits)
  · intro s' answer hput
    obtain ⟨now, micros, n, htaken, hnot⟩ := carried_put hsettled hput
    exact ⟨hlimits, now, micros, n, htaken.discards hnot⟩

/-- An answer is put, and then another, which there is no room for beside it: the first is taken out. -/
theorem put_discards_older :
    ∃ s s', Sequence (.opened thirtyBytes) s ∧ Carried FitsLimited (.put keyB [] none) s s' .wrote ∧
      s.entries.keys = [keyA.bytes] ∧ s'.entries.keys = [keyB.bytes] ∧
      ∃ now micros n, Discards s keyB (entry [] none now) (toBeBytes micros) n s' := by
  have hrun : (answered FitsLimited (.opened thirtyBytes) (.put keyA [] none)
      (List.replicate 3 ⟨1000, 1000000⟩)).any (fun first =>
        decide (first.1.entries.keys = [keyA.bytes]) &&
          (answered FitsLimited first.1 (.put keyB [] none) (List.replicate 6 ⟨2000, 2000000⟩)).any
            fun second => decide (second.2 = .wrote) &&
              decide (second.1.entries.keys = [keyB.bytes])) = true := by
    decide
  obtain ⟨⟨s, answer⟩, hfirst, hrest⟩ := (Option.any_eq_true _ _).mp hrun
  obtain ⟨hkept, hsecond⟩ := (Bool.and_eq_true _ _).mp hrest
  obtain ⟨⟨s', answer'⟩, hput, hlast⟩ := (Option.any_eq_true _ _).mp hsecond
  obtain ⟨hanswer, hleft⟩ := (Bool.and_eq_true _ _).mp hlast
  obtain rfl : answer' = .wrote := of_decide_eq_true hanswer
  have hbefore : Sequence (.opened thirtyBytes) s :=
    .single ⟨.put keyA [] none, answer, rfl, carried_of_answered hfirst⟩
  have hcarried := carried_of_answered hput
  exact ⟨s, s', hbefore, hcarried, of_decide_eq_true hkept, of_decide_eq_true hleft,
    ((put_discards hbefore keyB [] none).2 s' .wrote hcarried).2⟩

end Calls

end IntelliPrism.Cache
