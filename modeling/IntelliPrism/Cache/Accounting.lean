import IntelliPrism.Cache.Index

/-!
# Accounting: what a level is said to hold, and what it holds

`write` takes what it replaced off a level's size and puts what it wrote on.  A `claim` or a counting
call has by then swapped its entry in already, so what `write` finds under the key, and takes off, is
the entry it is about to put on: the swap itself is never accounted for.

* `stored` — what the entries of a level weigh; `Accounted` — every level's size says so;
* `Ready` — what a `write` needs: the size of its level, less what it will find under its key, is what
  the other keys weigh;
* `EvenSwap`, `FitsWrite` — the swaps that change nothing the account does not know of, and the writes
  after which a level's bytes still fit in 64 bits;
* `accounted_of_evenSwaps` — **after every history of completed calls whose swaps and writes are such,
  every level's size is the sum over its entries**;
* `claim_unaccounted` — a `claim` of a key that holds nothing, in a level that holds something.
-/

namespace IntelliPrism.Cache

open IntelliPrism.Lib

/-! ### Histories of completed calls -/

/-- One call runs from its first step to its return, with no other call running. -/
def Completed (C : Guard Clock SledCache Thread) (s s' : SledCache) : Prop :=
  ∃ call answer, Pool.Reach step C ⟨s, [.new call]⟩ ⟨s', [⟨call, .done answer⟩]⟩

/-- Any finite sequence of completed calls. -/
abbrev History (C : Guard Clock SledCache Thread) : SledCache → SledCache → Prop :=
  Relation.ReflTransGen (Completed C)

theorem eq_of_reach_alone {C : Guard Clock SledCache Thread} {s : SledCache} {call : Call}
    {q : Pool SledCache Thread} (h : Pool.Reach step C ⟨s, [.new call]⟩ q) :
    ∃ s' pc, q = ⟨s', [⟨call, pc⟩]⟩ := by
  obtain ⟨s', ⟨call', pc⟩, rfl, hcall⟩ := h.solo_invariant (A := fun _ t => t.call = call) rfl
    fun s t x s' t' hc _ hs => (step_call hs).trans hc
  obtain rfl : call' = call := hcall
  exact ⟨s', pc, rfl⟩

section Schedules

variable (C : Guard Clock SledCache Thread) [∀ p t x, Decidable (C p t x)]

/-- Runs one call alone, a clock reading for each of its steps; nothing unless it returned. -/
def callAlone (s : SledCache) (call : Call) (clocks : List Clock) : Option SledCache :=
  (Pool.run step C ⟨s, [.new call]⟩ (clocks.map (0, ·))).bind fun q =>
    if q.threads.all Thread.returned then some q.shared else none

def callsAlone : SledCache → List (Call × List Clock) → Option SledCache
  | s, [] => some s
  | s, (call, clocks) :: rest => (callAlone C s call clocks).bind fun s' => callsAlone s' rest

variable {C}

theorem completed_of_callAlone {s s' : SledCache} {call : Call} {clocks : List Clock}
    (h : callAlone C s call clocks = some s') : Completed C s s' := by
  obtain ⟨q, hrun, hq⟩ := Option.bind_eq_some_iff.mp h
  have hreach := Pool.reach_of_run hrun
  obtain ⟨s₁, pc₁, rfl⟩ := eq_of_reach_alone hreach
  cases pc₁ <;> simp [Thread.returned] at hq
  subst hq
  exact ⟨_, _, hreach⟩

theorem history_of_callsAlone {s s' : SledCache} {calls : List (Call × List Clock)}
    (h : callsAlone C s calls = some s') : History C s s' := by
  induction calls generalizing s with
  | nil =>
    cases h
    exact .refl
  | cons call rest ih =>
    obtain ⟨m, hm, hrest⟩ := Option.bind_eq_some_iff.mp h
    exact .head (completed_of_callAlone hm) (ih hrest)

end Schedules

/-! ### The account of a level -/

/-- What the entries of a level weigh together. -/
def stored (s : SledCache) (level : CacheLevel) : ℕ := sumOver s.entries (levelWeight level)

def storedBut (s : SledCache) (level : CacheLevel) (key : Bytes) : ℕ :=
  sumOver (s.entries.erase key) (levelWeight level)

/-- **Every level's size is the sum over its entries.** -/
def Accounted (s : SledCache) : Prop := ∀ level, (s.held level).toNat = stored s level

/-- What a `write` of a key needs: its level's size, less what it will find under the key, is what the
other keys weigh, and the other levels are accounted for. -/
structure Ready (s : SledCache) (k : CacheKey) : Prop where
  own : (s.heldBut k.level k.bytes).toNat = storedBut s k.level k.bytes
  others : ∀ level, k.level ≠ level → (s.held level).toNat = storedBut s level k.bytes

/-- A swap that lands puts in as many bytes as it takes out, or stands alone in its level and takes out
no more than it puts in. -/
def EvenSwap : Guard Clock SledCache Thread := fun p t clock =>
  ∀ swap ∈ t.swaps clock, swap.1 = p.shared.entries[t.key]? →
    swap.1.map List.length = some swap.2.length ∨
      storedBut p.shared t.level t.key = 0 ∧ ∀ old ∈ swap.1, old.length ≤ swap.2.length

/-- After a write, the bytes of its level still fit in 64 bits. -/
def FitsWrite : Guard Clock SledCache Thread := fun p t _ =>
  ∀ entry ∈ t.writes, t.key.length + entry.length + storedBut p.shared t.level t.key ≤ wordMax

instance (p : Pool SledCache Thread) (t : Thread) (clock : Clock) : Decidable (EvenSwap p t clock) :=
  inferInstanceAs (Decidable (∀ swap ∈ t.swaps clock, _))

instance (p : Pool SledCache Thread) (t : Thread) (clock : Clock) : Decidable (FitsWrite p t clock) :=
  inferInstanceAs (Decidable (∀ entry ∈ t.writes, _))

section Account

variable {s : SledCache}

theorem stored_split (s : SledCache) (level : CacheLevel) (key : Bytes) :
    stored s level = (s.entries[key]?).elim 0 (levelWeight level key) + storedBut s level key :=
  sumOver_split _ _ key

theorem stored_own (s : SledCache) (k : CacheKey) :
    stored s k.level
      = (s.entries[k.bytes]?).elim 0 (fun e => k.bytes.length + e.length)
        + storedBut s k.level k.bytes := by
  rw [stored_split s k.level k.bytes]
  congr 2
  exact funext (levelWeight_own k)

theorem stored_other (s : SledCache) {level : CacheLevel} {k : CacheKey} (h : k.level ≠ level) :
    stored s level = storedBut s level k.bytes := by
  rw [stored_split s level k.bytes]
  cases s.entries[k.bytes]? with
  | none => simp
  | some old => simp [levelWeight_other h]

theorem accounted_opened (limits : LevelLimits) : Accounted (.opened limits) := by
  intro level
  simp [SledCache.opened, SledCache.held, stored]

theorem heldBut_eq_storedBut {k : CacheKey} (hlevel : (s.held k.level).toNat = stored s k.level) :
    (s.heldBut k.level k.bytes).toNat = storedBut s k.level k.bytes := by
  have := toNat_le_wordMax (s.held k.level)
  rw [stored_own s k] at hlevel
  unfold SledCache.heldBut
  cases hentry : s.entries[k.bytes]? with
  | none => simpa [hentry] using hlevel
  | some old =>
    rw [hentry, Option.elim_some] at hlevel
    simp only [saturatingSub_toNat, weigh, saturate_toNat]
    omega

theorem Accounted.ready (hs : Accounted s) (k : CacheKey) : Ready s k where
  own := heldBut_eq_storedBut (hs k.level)
  others := by
    intro level h
    rw [hs level, stored_other s h]

/-- **A swap the account need not know of** leaves its key ready to be written. -/
theorem Accounted.swapIn (hs : Accounted s) (k : CacheKey) (entry : Bytes)
    (heven : (s.entries[k.bytes]?).map List.length = some entry.length ∨
      storedBut s k.level k.bytes = 0 ∧ ∀ old ∈ s.entries[k.bytes]?, old.length ≤ entry.length) :
    Ready (s.swapIn k.bytes entry) k where
  own := by
    have hrest : storedBut (s.swapIn k.bytes entry) k.level k.bytes = storedBut s k.level k.bytes := by
      rw [storedBut, SledCache.swapIn_entries, erase_insert, storedBut]
    have hlevel := hs k.level
    have := toNat_le_wordMax (s.held k.level)
    rw [stored_own s k] at hlevel
    rw [hrest]
    simp only [SledCache.heldBut, SledCache.swapIn_entries, Std.ExtTreeMap.getElem?_insert_self,
      SledCache.held_swapIn, saturatingSub_toNat, weigh, saturate_toNat]
    cases hentry : s.entries[k.bytes]? with
    | none =>
      simp only [hentry, Option.map_none, reduceCtorEq, false_or, Option.elim_none] at heven hlevel
      omega
    | some old =>
      simp only [hentry, Option.map_some, Option.some.injEq, Option.mem_def, forall_eq',
        Option.elim_some] at heven hlevel
      omega
  others := by
    intro level h
    rw [SledCache.held_swapIn, storedBut, SledCache.swapIn_entries, erase_insert, ← storedBut,
      ← stored_other s h]
    exact hs level

/-- A write puts what it wrote on a level, as long as the level still fits. -/
theorem held_write_own {k : CacheKey} {entry : Bytes} (stamped : Bytes)
    (hbut : (s.heldBut k.level k.bytes).toNat = storedBut s k.level k.bytes)
    (hfits : k.bytes.length + entry.length + storedBut s k.level k.bytes ≤ wordMax) :
    ((s.write k.level k.bytes entry stamped).held k.level).toNat
      = stored (s.write k.level k.bytes entry stamped) k.level := by
  have hrest : storedBut (s.write k.level k.bytes entry stamped) k.level k.bytes
      = storedBut s k.level k.bytes := by
    rw [storedBut, SledCache.write_entries, erase_insert, storedBut]
  rw [SledCache.held_write, if_pos rfl, stored_own, hrest, SledCache.write_entries,
    Std.ExtTreeMap.getElem?_insert_self, Option.elim_some, saturatingAdd_toNat, hbut, weigh, saturate_toNat]
  omega

theorem stored_write_other {k : CacheKey} {level : CacheLevel} (hlevel : k.level ≠ level)
    (entry stamped : Bytes) :
    stored (s.write k.level k.bytes entry stamped) level = storedBut s level k.bytes := by
  rw [stored_other _ hlevel, storedBut, SledCache.write_entries, erase_insert, storedBut]

/-- **A write of a key that is ready settles the account**, as long as the level still fits. -/
theorem Ready.write {k : CacheKey} (hs : Ready s k) (entry stamped : Bytes)
    (hfits : k.bytes.length + entry.length + storedBut s k.level k.bytes ≤ wordMax) :
    Accounted (s.write k.level k.bytes entry stamped) := by
  intro level
  by_cases hlevel : k.level = level
  · subst hlevel
    exact held_write_own stamped hs.own hfits
  · rw [SledCache.held_write, if_neg hlevel, stored_write_other hlevel]
    exact hs.others level hlevel

theorem Accounted.dropEntry (hs : Accounted s) (k : CacheKey) :
    Accounted (s.dropEntry k.level k.bytes).1 := by
  rcases s.dropEntry_cases k.level k.bytes with ⟨_, hd⟩ | ⟨entry, hentry, hd⟩
  · rw [hd]
    exact hs
  rw [hd]
  intro level
  have hgone : stored (s.without k.level k.bytes entry) level = storedBut s level k.bytes := rfl
  rw [hgone, SledCache.held_without]
  have hready := hs.ready k
  by_cases hlevel : k.level = level
  · subst hlevel
    rw [if_pos rfl, ← hready.own, SledCache.heldBut, hentry]
  · rw [if_neg hlevel]
    exact hready.others level hlevel

end Account

/-! ### One step, one call, a history -/

/-- What a call finds at each of its steps: its key ready when it is about to write, and the whole
account settled otherwise. -/
def Books (s : SledCache) (t : Thread) : Prop :=
  match t.writes with
  | some _ => Ready s t.call.key
  | none => Accounted s

theorem Accounted.books {s : SledCache} (hs : Accounted s) (t : Thread) : Books s t := by
  unfold Books
  split
  · exact hs.ready _
  · exact hs

/-- **One step keeps the books.** -/
theorem step_books {clock : Clock} {s s' : SledCache} {t t' : Thread} {pool : List Thread}
    (hs : Books s t) (ht : Staged t) (heven : EvenSwap ⟨s, pool⟩ t clock)
    (hfits : FitsWrite ⟨s, pool⟩ t clock) (h : step clock s t = some (s', t')) : Books s' t' := by
  cases hw : t.writes with
  | some entry =>
    obtain ⟨rfl, hdone⟩ := step_of_writes hw h
    simp only [Books, hw] at hs
    exact (hs.write entry _ (hfits entry hw)).books t'
  | none =>
    simp only [Books, hw] at hs
    cases step_effect h with
    | still => exact hs.books t'
    | swap entry hsw =>
      obtain ⟨-, hwrites⟩ := step_of_swaps hsw h
      simp only [Books, hwrites]
      rw [step_call h]
      exact hs.swapIn t.call.key entry (heven _ hsw rfl)
    | write entry hwrites =>
      rw [hw] at hwrites
      cases hwrites
    | drop key hdrop =>
      obtain ⟨k, rfl, hlevel⟩ := ht.evicts key hdrop
      rw [← hlevel]
      exact (hs.dropEntry k).books t'
    | touch stamped _ =>
      have htouched : Accounted (s.touch t.level t.key stamped) := hs
      exact htouched.books t'

theorem completed_accounted {s s' : SledCache} (hs : Indexed s ∧ Accounted s)
    (h : Completed (Pool.both EvenSwap FitsWrite) s s') : Indexed s' ∧ Accounted s' := by
  obtain ⟨call, answer, hreach⟩ := h
  obtain ⟨hindexed, -, hbooks⟩ := hreach.solo_ends
    (A := fun s t => Indexed s ∧ Staged t ∧ Books s t)
    ⟨hs.1, staged_plain rfl, hs.2.books _⟩
    fun s t clock s' t' hA hC hstep => ⟨step_indexed hA.1 hA.2.1 hstep, step_staged hA.1 hstep,
      step_books hA.2.2 hA.2.1 hC.1 hC.2 hstep⟩
  exact ⟨hindexed, hbooks⟩

/-- **The cache accounts for every byte it holds**, after every history of completed calls from an
empty database under any limits, as long as every swap that lands is even and every write fits. -/
theorem accounted_of_evenSwaps (limits : LevelLimits) {s : SledCache}
    (h : History (Pool.both EvenSwap FitsWrite) (.opened limits) s) (level : CacheLevel) :
    (s.held level).toNat = stored s level := by
  have hs : Indexed s ∧ Accounted s := by
    induction h with
    | refl => exact ⟨indexed_opened limits, accounted_opened limits⟩
    | tail _ hlast ih => exact completed_accounted ih hlast
  exact hs.2 level

/-! ### A claim beside another entry -/

/-- An answer, and a key to claim beside it. -/
def heldAnswer : CacheKey := ⟨.response, "h", by decide, by decide⟩

def claimedKey : CacheKey := ⟨.response, "c", by decide, by decide⟩

/-- Clock readings for a call of `n` steps. -/
def readings (n : ℕ) : List Clock := List.replicate n ⟨1000, 1000000⟩

/-- A claim, a read and a removal of the claimed key, and then an answer put. -/
theorem accounted_claim_alone :
    ∃ s, History (Pool.both EvenSwap FitsWrite) (.opened .none) s ∧
      (s.held .response).toNat = stored s .response ∧ stored s .response = 17 := by
  have hrun : (callsAlone (Pool.both EvenSwap FitsWrite) (.opened .none)
      [(.claim claimedKey none, readings 5), (.get claimedKey, readings 1),
        (.remove claimedKey, readings 1), (.put heldAnswer [] none, readings 3)]).any
      (fun s => stored s .response == 17) = true := by decide
  obtain ⟨s, hs, hstored⟩ := (Option.any_eq_true _ _).mp hrun
  have hhistory := history_of_callsAlone hs
  exact ⟨s, hhistory, accounted_of_evenSwaps .none hhistory .response, by simpa using hstored⟩

/-- **A claim beside another entry is not accounted for**: the level is said to hold the one entry, and
holds two. -/
theorem claim_unaccounted :
    ¬∀ (limits : LevelLimits) (s : SledCache), History Pool.anyStep (.opened limits) s →
      ∀ level, (s.held level).toNat = stored s level := by
  intro hall
  have hrun : (callsAlone Pool.anyStep (.opened .none)
      [(.put heldAnswer [] none, readings 3), (.claim claimedKey none, readings 5)]).any
      (fun s => (s.held .response).toNat == 17 && stored s .response == 34) = true := by decide
  obtain ⟨s, hs, hsizes⟩ := (Option.any_eq_true _ _).mp hrun
  simp only [Bool.and_eq_true, beq_iff_eq] at hsizes
  have := hall .none s (history_of_callsAlone hs) .response
  omega

end IntelliPrism.Cache
