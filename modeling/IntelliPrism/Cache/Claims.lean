import IntelliPrism.Cache.Index
import Mathlib.Algebra.Order.BigOperators.Group.List

/-!
# Claims: one caller wins

Any number of `claim` calls race for a key whose entry is absent or expired.  Each reads the entry,
swaps its own in for what it read, and on success writes it once more; on failure it reads again.  The
first swap that lands makes the entry live, and every later read finds it so.

* `Contends` — where a `claim` may stand, before and after somebody won;
* `Contest` — the invariant: the entry is the one the race began with and nobody has won, or it is live
  to the end of the race and exactly one has;
* `claim_step`, `other_step` — what a step of a racing `claim`, or of a call on another key, does to it;
* `claim_won_once` — **every race ends, and is won by exactly one caller**: no schedule holds more than
  five moves of each `claim`, a `claim` that has not returned can always move, and once all have
  returned one has `true`, the others have `false`, and the entry is live.
-/

namespace IntelliPrism.Cache

open IntelliPrism.Lib

/-- A `claim` of this key. -/
def Call.claims (key : CacheKey) : Call → Bool
  | .claim k _ => k = key
  | _ => false

/-- The race runs from `began` to `ended`, and no entry it puts under the key expires before it ends. -/
def During (key : CacheKey) (began ended : UInt64) : Guard Clock SledCache Thread := fun _ t clock =>
  began ≤ clock.millis ∧ clock.millis ≤ ended ∧
    (t.call.key = key → ∀ swap ∈ t.swaps clock, (valueOf swap.2 ended).isSome = true)

instance (key : CacheKey) (began ended : UInt64) (p : Pool SledCache Thread) (t : Thread)
    (clock : Clock) : Decidable (During key began ended p t clock) :=
  inferInstanceAs (Decidable (_ ∧ _ ∧ (_ → ∀ swap ∈ t.swaps clock, _)))

/-- Whether the key holds something else than what the race began with. -/
def taken (key : CacheKey) (first : Option Bytes) (s : SledCache) : Bool :=
  s.entries[key.bytes]? != first

/-- Whether a `claim` has won: its swap has landed. -/
def Pc.won : Pc → Bool
  | .writing _ answer | .evicting answer | .done answer => answer = .claimed true
  | _ => false

/-- Where a `claim` may stand while nobody has won, and once somebody has. -/
def Contends (first : Option Bytes) (ended : UInt64) (taken : Bool) : Pc → Prop
  | .start | .claiming _ => True
  | .claimSwap _ held => held = first
  | .writing entry answer =>
    answer = .claimed true ∧ taken = true ∧ (valueOf entry ended).isSome = true
  | .evicting answer => answer = .claimed true ∧ taken = true
  | .done answer => (answer = .claimed true ∨ answer = .claimed false) ∧ taken = true
  | _ => False

/-- How many moves a `claim` has left at most. -/
def movesLeft (taken : Bool) : Pc → ℕ
  | .start => 5
  | .claiming _ => if taken then 2 else 4
  | .claimSwap _ _ => 3
  | .writing _ _ => 2
  | .evicting _ => 1
  | _ => 0

/-- Where a call on another key never stands while no level is limited. -/
def Pc.unlimited : Pc → Bool
  | .scanning _ => false
  | .evictDrop _ _ => false
  | _ => true

section Race

variable {key : CacheKey} {first : Option Bytes} {began ended : UInt64} {clock : Clock}
  {s s' : SledCache} {t t' : Thread}

/-- What a racing call or one beside the race satisfies. -/
def Beside (key : CacheKey) (first : Option Bytes) (ended : UInt64) (s : SledCache) (t : Thread) : Prop :=
  if t.call.claims key then Contends first ended (taken key first s) t.pc
  else t.call.key ≠ key ∧ t.pc.unlimited = true

theorem Contends.mono {pc : Pc} {a b : Bool} (hab : a = true → b = true)
    (h : Contends first ended a pc) : Contends first ended b pc := by
  cases pc
  case start => trivial
  case claiming => trivial
  case claimSwap => exact h
  case writing => exact ⟨h.1, hab h.2.1, h.2.2⟩
  case evicting => exact ⟨h.1, hab h.2⟩
  case done => exact ⟨h.1, hab h.2⟩
  all_goals exact h.elim

theorem movesLeft_mono (pc : Pc) {a b : Bool} (hab : a = true → b = true) :
    movesLeft b pc ≤ movesLeft a pc := by
  cases a with
  | true =>
    rw [hab rfl]
  | false => cases pc <;> cases b <;> simp [movesLeft]

theorem live_before {entry : Bytes} (h : (valueOf entry ended).isSome = true) {now : UInt64}
    (hle : now ≤ ended) : (valueOf entry now).isSome = true := by
  by_contra hnot
  rw [valueOf_none_of_le (Option.not_isSome_iff_eq_none.mp hnot) hle] at h
  cases h

theorem taken_eq_false : taken key first s = false ↔ s.entries[key.bytes]? = first := by
  simp [taken]

theorem taken_eq_true : taken key first s = true ↔ s.entries[key.bytes]? ≠ first := by
  simp [taken]

/-- What one step of a racing `claim` does: the entry stays live once somebody has won, the call stands
where it may, one more has won exactly when the entry was taken by this step, and the call has fewer
moves left. -/
structure Advances (key : CacheKey) (first : Option Bytes) (ended : UInt64) (s : SledCache) (t : Thread)
    (s' : SledCache) (t' : Thread) : Prop where
  live : taken key first s' = true →
    ∃ entry, s'.entries[key.bytes]? = some entry ∧ (valueOf entry ended).isSome = true
  keeps : taken key first s = true → taken key first s' = true
  stands : Contends first ended (taken key first s') t'.pc
  wins : (taken key first s').toNat + t.pc.won.toNat = (taken key first s).toNat + t'.pc.won.toNat
  lowers : movesLeft (taken key first s') t'.pc < movesLeft (taken key first s) t.pc

variable {ttl : Option Ttl} {entry : Bytes}

/-- Once somebody has won, a read finds the entry live and gives up; before that it finds the entry the
race began with. -/
theorem claiming_advances (hfirst : ∀ entry ∈ first, valueOf entry began = none)
    (hlive : taken key first s = true →
      ∃ entry, s.entries[key.bytes]? = some entry ∧ (valueOf entry ended).isSome = true)
    (hbegan : began ≤ clock.millis) (hended : clock.millis ≤ ended) :
    Advances key first ended s ⟨.claim key ttl, .claiming entry⟩ s
      ⟨.claim key ttl, s.claimRead key.bytes entry clock⟩ := by
  cases htaken : taken key first s with
  | true =>
    obtain ⟨held, hheld, hl⟩ := hlive htaken
    have hread : s.claimRead key.bytes entry clock = .done (.claimed false) := by
      simp only [SledCache.claimRead, hheld, live_before hl hended, if_true]
    rw [hread]
    exact ⟨hlive, id, ⟨.inr rfl, htaken⟩, rfl, by simp [movesLeft, htaken]⟩
  | false =>
    have hread : s.claimRead key.bytes entry clock = .claimSwap entry first := by
      simp only [SledCache.claimRead, taken_eq_false.mp htaken]
      cases hf : first with
      | none => rfl
      | some stale => simp [valueOf_none_of_le (hfirst stale hf) hbegan]
    rw [hread]
    exact ⟨hlive, id, rfl, rfl, by simp [movesLeft, htaken]⟩

/-- The swap that lands takes the entry; one that fails has been beaten to it. -/
theorem claimSwap_advances (hfirst : ∀ entry ∈ first, valueOf entry began = none)
    (hlive : taken key first s = true →
      ∃ entry, s.entries[key.bytes]? = some entry ∧ (valueOf entry ended).isSome = true)
    (hle : began ≤ ended) (hl : (valueOf entry ended).isSome = true) :
    let swapped := swapStep s key.bytes first entry (.writing entry (.claimed true)) (.claiming entry)
    Advances key first ended s ⟨.claim key ttl, .claimSwap entry first⟩ swapped.1
      ⟨.claim key ttl, swapped.2⟩ := by
  by_cases hheld : s.entries[key.bytes]? = first
  · have hfree : taken key first s = false := taken_eq_false.mpr hheld
    have hnew : (s.swapIn key.bytes entry).entries[key.bytes]? = some entry :=
      Std.ExtTreeMap.getElem?_insert_self
    have htaken : taken key first (s.swapIn key.bytes entry) = true := by
      rw [taken_eq_true, hnew]
      intro hstale
      rw [valueOf_none_of_le (hfirst entry hstale.symm) hle] at hl
      cases hl
    rw [swapStep_landed hheld]
    exact ⟨fun _ => ⟨entry, hnew, hl⟩, fun _ => htaken, ⟨rfl, htaken, hl⟩,
      by simp [htaken, hfree, Pc.won], by simp [movesLeft]⟩
  · have htaken : taken key first s = true := taken_eq_true.mpr hheld
    rw [swapStep_failed hheld]
    exact ⟨hlive, id, trivial, rfl, by simp [movesLeft, htaken]⟩

theorem writing_advances (hfirst : ∀ entry ∈ first, valueOf entry began = none) (hle : began ≤ ended)
    (hl : (valueOf entry ended).isSome = true) (htaken : taken key first s = true) (stamped : Bytes) :
    Advances key first ended s ⟨.claim key ttl, .writing entry (.claimed true)⟩
      (s.write key.level key.bytes entry stamped) ⟨.claim key ttl, .evicting (.claimed true)⟩ := by
  have hnew : (s.write key.level key.bytes entry stamped).entries[key.bytes]? = some entry :=
    Std.ExtTreeMap.getElem?_insert_self
  have hstill : taken key first (s.write key.level key.bytes entry stamped) = true := by
    rw [taken_eq_true, hnew]
    intro hstale
    rw [valueOf_none_of_le (hfirst entry hstale.symm) hle] at hl
    cases hl
  exact ⟨fun _ => ⟨entry, hnew, hl⟩, fun _ => hstill, ⟨rfl, hstill⟩,
    by rw [htaken, hstill]; rfl, by simp [movesLeft]⟩

/-- **One step of a racing `claim`.** -/
theorem claim_step {pool : List Thread} (hfirst : ∀ entry ∈ first, valueOf entry began = none)
    (hlimits : s.limits.any = false)
    (hlive : taken key first s = true →
      ∃ entry, s.entries[key.bytes]? = some entry ∧ (valueOf entry ended).isSome = true)
    (hclaims : t.call.claims key = true) (ht : Contends first ended (taken key first s) t.pc)
    (hduring : During key began ended ⟨s, pool⟩ t clock) (h : step clock s t = some (s', t')) :
    Advances key first ended s t s' t' := by
  obtain ⟨hbegan, hended, hwritten⟩ := hduring
  have hle : began ≤ ended := UInt64.le_trans hbegan hended
  obtain ⟨call, pc⟩ := t
  cases call with
  | get | put | remove | counting | counted => cases hclaims
  | claim k ttl =>
  obtain rfl : k = key := by simpa [Call.claims] using hclaims
  cases pc <;> simp only [step, Option.map_some, Option.map_none, Option.some.injEq, reduceCtorEq] at h
  all_goals first | exact ht.elim | obtain ⟨rfl, rfl⟩ := Prod.mk.inj h
  case start =>
    refine ⟨hlive, id, trivial, rfl, ?_⟩
    cases htaken : taken k first s <;> simp [startStep, movesLeft, htaken]
  case claiming entry => exact claiming_advances hfirst hlive hbegan hended
  case claimSwap entry held =>
    obtain rfl : held = first := ht
    exact claimSwap_advances hfirst hlive hle (hwritten rfl _ rfl)
  case writing entry answer =>
    obtain ⟨rfl, htaken, hl⟩ := ht
    exact writing_advances hfirst hle hl htaken _
  case evicting answer =>
    obtain ⟨rfl, htaken⟩ := ht
    have hread : s.evictRead k.level (.claimed true) = .done (.claimed true) := by
      simp only [SledCache.evictRead, LevelLimits.of_eq_none hlimits]
    simp only [Thread.level, Call.key, hread]
    exact ⟨hlive, id, ⟨.inl rfl, htaken⟩, rfl, by simp [movesLeft]⟩

/-! ### Calls on other keys -/

theorem step_unlimited (hlimit : s.limits.of t.level = none) (ht : t.pc.unlimited = true)
    (h : step clock s t = some (s', t')) : t'.pc.unlimited = true := by
  obtain ⟨call, pc⟩ := t
  cases pc <;> simp only [step, Option.map_some, Option.map_none, Option.some.injEq, reduceCtorEq] at h
  all_goals obtain ⟨-, rfl⟩ := Prod.mk.inj h
  case start =>
    cases call <;> simp only [startStep, SledCache.getRead, SledCache.countRead, SledCache.countedRead]
    all_goals
      repeat' split
      all_goals rfl
  case touching value =>
    simp only [SledCache.touchRead]
    repeat' split
    all_goals rfl
  case claiming entry =>
    simp only [SledCache.claimRead]
    repeat' split
    all_goals rfl
  case claimSwap entry held =>
    simp only [swapStep]
    split <;> rfl
  case countSwap ttl held total =>
    simp only [swapStep]
    split <;> rfl
  case evicting answer =>
    have hlimit : s.limits.of call.key.level = none := hlimit
    simp only [SledCache.evictRead, hlimit]
    rfl
  all_goals first | rfl | cases ht

theorem other_step (hkey : t.call.key ≠ key) (ht : t.pc.unlimited = true)
    (h : step clock s t = some (s', t')) : s'.entries[key.bytes]? = s.entries[key.bytes]? := by
  have hne : t.key ≠ key.bytes := CacheKey.bytes_injective.ne hkey
  cases step_effect h with
  | still => rfl
  | swap entry _ => exact getElem?_insert_ne _ _ hne
  | write entry _ => exact getElem?_insert_ne _ _ hne
  | touch stamped _ => rfl
  | drop dropped hdrop =>
    have hown : dropped = t.key := by
      obtain ⟨call, pc⟩ := t
      cases pc <;> cases call <;> simp_all [Thread.drops, Pc.unlimited]
    rw [hown]
    exact SledCache.dropEntry_entries_ne s _ hne

/-! ### The race -/

/-- A `claim` of the key that has won. -/
def Winner (key : CacheKey) (t : Thread) : Bool := t.call.claims key && t.pc.won

/-- How many moves a racing call has left at most; the others do not count. -/
def racingLeft (key : CacheKey) (first : Option Bytes) (s : SledCache) (t : Thread) : ℕ :=
  if t.call.claims key then movesLeft (taken key first s) t.pc else 0

/-- How many moves the race has left at most. -/
def raceLeft (key : CacheKey) (first : Option Bytes) (p : Pool SledCache Thread) : ℕ :=
  (p.threads.map (racingLeft key first p.shared)).sum

/-- **The invariant of a race**: while the key holds what the race began with nobody has won, and from
then on it holds a live entry and exactly one has. -/
structure Contest (key : CacheKey) (first : Option Bytes) (ended : UInt64) (calls : List Call)
    (p : Pool SledCache Thread) : Prop where
  calls : p.threads.map Thread.call = calls
  limits : p.shared.limits.any = false
  live : taken key first p.shared = true →
    ∃ entry, p.shared.entries[key.bytes]? = some entry ∧ (valueOf entry ended).isSome = true
  winners : p.threads.countP (Winner key) = (taken key first p.shared).toNat
  beside : ∀ t ∈ p.threads, Beside key first ended p.shared t

variable {calls : List Call} {pre post : List Thread}

/-- A call that did not move stands where it may, as long as what was taken stays taken. -/
theorem Beside.mono (hkeeps : taken key first s = true → taken key first s' = true) {u : Thread}
    (h : Beside key first ended s u) : Beside key first ended s' u := by
  unfold Beside at h ⊢
  split at h
  · rw [if_pos ‹_›]
    exact h.mono hkeeps
  · rw [if_neg ‹_›]
    exact h

theorem racingLeft_mono (hkeeps : taken key first s = true → taken key first s' = true) (u : Thread) :
    racingLeft key first s' u ≤ racingLeft key first s u := by
  unfold racingLeft
  split
  · exact movesLeft_mono u.pc hkeeps
  · exact Nat.le_refl _

theorem Contest.move (hp : Contest key first ended calls ⟨s, pre ++ t :: post⟩)
    (hs : step clock s t = some (s', t'))
    (hlive : taken key first s' = true →
      ∃ entry, s'.entries[key.bytes]? = some entry ∧ (valueOf entry ended).isSome = true)
    (hkeeps : taken key first s = true → taken key first s' = true)
    (hwins : (taken key first s').toNat + (Winner key t).toNat
      = (taken key first s).toNat + (Winner key t').toNat)
    (hstands : Beside key first ended s' t') :
    Contest key first ended calls ⟨s', pre ++ t' :: post⟩ where
  calls := by
    rw [← hp.calls]
    simp [step_call hs]
  limits := by
    rw [step_limits hs]
    exact hp.limits
  live := hlive
  winners := by
    have hwinners := hp.winners
    simp only [List.countP_append, List.countP_cons] at hwinners ⊢
    cases hw : Winner key t <;> cases hw' : Winner key t' <;>
      simp only [hw, hw', Bool.toNat_true, Bool.toNat_false, if_true, Bool.false_eq_true,
        if_false] at hwins hwinners ⊢ <;> omega
  beside := Pool.forall_moved hp.beside hstands fun _ hu => hu.mono hkeeps

theorem raceLeft_move (hkeeps : taken key first s = true → taken key first s' = true)
    (pre post : List Thread) (t t' : Thread) :
    raceLeft key first ⟨s', pre ++ t' :: post⟩ + racingLeft key first s t
      ≤ raceLeft key first ⟨s, pre ++ t :: post⟩ + racingLeft key first s' t' := by
  have hpre := List.sum_le_sum fun u (_ : u ∈ pre) => racingLeft_mono hkeeps u
  have hpost := List.sum_le_sum fun u (_ : u ∈ post) => racingLeft_mono hkeeps u
  simp only [raceLeft, List.map_append, List.map_cons, List.sum_append, List.sum_cons]
  omega

/-- **One move of the race** keeps the invariant, and a move of a `claim` uses one of its moves up. -/
theorem contest_fire (hfirst : ∀ entry ∈ first, valueOf entry began = none)
    {p q : Pool SledCache Thread} {i : ℕ} (hp : Contest key first ended calls p)
    (h : Pool.fire step (During key began ended) p i clock = some q) :
    Contest key first ended calls q ∧
      ((calls[i]?).any (Call.claims key)).toNat + raceLeft key first q ≤ raceLeft key first p := by
  obtain ⟨pre, t, post, s', t', hthreads, rfl, hduring, hs, rfl⟩ := Pool.fire_eq_some h
  obtain ⟨s, threads⟩ := p
  simp only at hthreads hs
  subst hthreads
  have hcall : calls[pre.length]? = some t.call := by
    rw [← hp.calls]
    simp
  have hbeside := hp.beside t (List.mem_append_right _ (List.mem_cons_self ..))
  rw [hcall, Option.any_some]
  unfold Beside at hbeside
  cases hclaims : t.call.claims key with
  | true =>
    have hclaims' : t'.call.claims key = true := by rw [step_call hs, hclaims]
    rw [hclaims, if_pos rfl] at hbeside
    have hmove := claim_step hfirst hp.limits hp.live hclaims hbeside hduring hs
    refine ⟨hp.move hs hmove.live hmove.keeps ?_ ?_, ?_⟩
    · simpa [Winner, hclaims, hclaims'] using hmove.wins
    · rw [Beside, if_pos hclaims']
      exact hmove.stands
    · have hsum := raceLeft_move hmove.keeps pre post t t'
      have hlower := hmove.lowers
      rw [racingLeft, if_pos hclaims, racingLeft, if_pos hclaims'] at hsum
      rw [Bool.toNat_true]
      dsimp only at hsum hlower ⊢
      omega
  | false =>
    have hclaims' : t'.call.claims key = false := by rw [step_call hs, hclaims]
    rw [hclaims, if_neg (by decide)] at hbeside
    have hentry := other_step hbeside.1 hbeside.2 hs
    have hsame : taken key first s' = taken key first s := by rw [taken, hentry, taken]
    have hlive := hp.live
    simp only at hlive
    rw [← hentry, ← hsame] at hlive
    refine ⟨hp.move hs hlive hsame.ge ?_ ?_, ?_⟩
    · simp [Winner, hclaims, hclaims', hsame]
    · rw [Beside, if_neg (by simp [hclaims'])]
      have hlimit := LevelLimits.of_eq_none hp.limits t.level
      exact ⟨by rw [step_call hs]; exact hbeside.1, step_unlimited hlimit hbeside.2 hs⟩
    · have hsum := raceLeft_move hsame.ge pre post t t'
      rw [racingLeft, if_neg (by simp [hclaims]), racingLeft, if_neg (by simp [hclaims'])] at hsum
      simp only [Bool.toNat_false]
      omega

/-- A racing call that has returned was told whether it won, and by then the key was taken. -/
theorem Contest.of_returned {p : Pool SledCache Thread} (hp : Contest key first ended calls p)
    (ht : t ∈ p.threads) (hclaims : t.call.claims key = true) (hreturned : t.returned = true) :
    (t.pc = .done (.claimed true) ∨ t.pc = .done (.claimed false)) ∧
      taken key first p.shared = true := by
  have hbeside := hp.beside t ht
  rw [Beside, if_pos hclaims] at hbeside
  obtain ⟨call, pc⟩ := t
  cases pc <;> cases hreturned
  obtain ⟨hanswer, htaken⟩ := hbeside
  exact ⟨hanswer.imp (congrArg Pc.done) (congrArg Pc.done), htaken⟩

end Race

theorem contest_start (s : SledCache) (key : CacheKey) (ended : UInt64) (calls : List Call)
    (hlimits : s.limits.any = false) (hcalls : ∀ call ∈ calls, call.claims key = true ∨ call.key ≠ key) :
    Contest key s.entries[key.bytes]? ended calls ⟨s, calls.map Thread.new⟩ where
  calls := by
    rw [List.map_map]
    exact List.map_id calls
  limits := hlimits
  live := by
    intro h
    exact absurd rfl (taken_eq_true.mp h)
  winners := by
    rw [taken_eq_false.mpr rfl, Bool.toNat_false, List.countP_eq_zero]
    intro t ht
    obtain ⟨call, -, rfl⟩ := List.mem_map.mp ht
    simp [Winner, Thread.new, Pc.won]
  beside := by
    intro t ht
    obtain ⟨call, hcall, rfl⟩ := List.mem_map.mp ht
    unfold Beside
    split
    · trivial
    · rename_i hnot
      exact ⟨(hcalls call hcall).resolve_left hnot, rfl⟩

theorem raceLeft_start (key : CacheKey) (first : Option Bytes) (s : SledCache) (calls : List Call) :
    raceLeft key first ⟨s, calls.map Thread.new⟩ = 5 * calls.countP (Call.claims key) := by
  simp only [raceLeft]
  induction calls with
  | nil => rfl
  | cons call rest ih =>
    simp only [List.map_cons, List.sum_cons, List.countP_cons, ih]
    cases h : call.claims key
    · simp [racingLeft, Thread.new, h]
    · simp [racingLeft, Thread.new, h, movesLeft]
      omega

/-- **A claim is won by exactly one caller.**  Any number of `claim` calls, at least one, race for a key
whose entry is absent or has expired, beside any calls on other keys, with no level limited and nothing
they put under the key expiring before the race ends.  However their steps interleave, the `claim` calls
make at most five moves each, each that has not returned can move, and once all of them have returned
exactly one has `true`, the others have `false`, and the key holds a live entry. -/
theorem claim_won_once (s : SledCache) (key : CacheKey) (began ended : UInt64) (calls : List Call)
    (hlimits : s.limits.any = false)
    (hcalls : ∀ call ∈ calls, call.claims key = true ∨ call.key ≠ key)
    (hsome : ∃ call ∈ calls, call.claims key = true)
    (hfree : ∀ entry ∈ s.entries[key.bytes]?, valueOf entry began = none)
    {sched : List (ℕ × Clock)} {q : Pool SledCache Thread}
    (h : Pool.run step (During key began ended) ⟨s, calls.map Thread.new⟩ sched = some q) :
    sched.countP (fun move => (calls[move.1]?).any (Call.claims key))
        ≤ 5 * calls.countP (Call.claims key) ∧
      (∀ t ∈ q.threads, t.returned = false → ∀ clock, (step clock q.shared t).isSome = true) ∧
      ((∀ t ∈ q.threads, t.call.claims key = true → t.returned = true) →
        q.threads.countP (fun t => t.call.claims key && t.pc == .done (.claimed true)) = 1 ∧
        (∀ t ∈ q.threads, t.call.claims key = true →
          t.pc = .done (.claimed true) ∨ t.pc = .done (.claimed false)) ∧
        ∃ entry, q.shared.entries[key.bytes]? = some entry ∧ (valueOf entry ended).isSome = true) := by
  have hrun : Contest key s.entries[key.bytes]? ended calls q ∧
      sched.countP (fun move => (calls[move.1]?).any (Call.claims key))
          + raceLeft key s.entries[key.bytes]? q
        ≤ raceLeft key s.entries[key.bytes]? ⟨s, calls.map Thread.new⟩ := by
    refine Pool.run_countP_le ?_ (contest_start s key ended calls hlimits hcalls) h
    intro p q i clock hp hfire
    exact contest_fire hfree hp hfire
  obtain ⟨hq, hmoves⟩ := hrun
  refine ⟨?_, fun t _ ht clock => step_isSome clock q.shared ht, ?_⟩
  · rw [raceLeft_start] at hmoves
    omega
  · intro hreturned
    have hdone : ∀ t ∈ q.threads, t.call.claims key = true →
        (t.pc = .done (.claimed true) ∨ t.pc = .done (.claimed false)) ∧
          taken key s.entries[key.bytes]? q.shared = true :=
      fun t ht hclaims => hq.of_returned ht hclaims (hreturned t ht hclaims)
    have htaken : taken key s.entries[key.bytes]? q.shared = true := by
      obtain ⟨call, hcall, hclaims⟩ := hsome
      rw [← hq.calls] at hcall
      obtain ⟨t, ht, rfl⟩ := List.mem_map.mp hcall
      exact (hdone t ht hclaims).2
    refine ⟨?_, fun t ht hclaims => (hdone t ht hclaims).1, hq.live htaken⟩
    have hwinners := hq.winners
    rw [htaken, Bool.toNat_true] at hwinners
    rw [← hwinners]
    refine List.countP_congr ?_
    intro t ht
    simp only [Winner, Bool.and_eq_true, beq_iff_eq]
    refine and_congr_right ?_
    intro hclaims
    rcases (hdone t ht hclaims).1 with hpc | hpc <;> simp [hpc, Pc.won]

/-! ### Three callers for a nonce that expired -/

def nonce : CacheKey := ⟨.system, "nonce", by decide, by decide⟩

/-- A database that holds the nonce, expired at one second. -/
def expiredNonce : SledCache :=
  { SledCache.opened .none with entries := (∅ : SledTree).insert nonce.bytes (toBeBytes 1000) }

def threeClaims : List Call := List.replicate 3 (.claim nonce none)

/-- All three read before any swaps; the second swaps first, and the others read again. -/
def threeRaces : List (ℕ × Clock) :=
  [0, 1, 2, 0, 1, 2, 1, 0, 2, 1, 0, 2, 1].map (·, ⟨2000, 2000000⟩)

/-- The race is over, with one winner and a live nonce. -/
theorem claim_won_threeRaces :
    ∃ q, Pool.run step (During nonce 1000 5000) ⟨expiredNonce, threeClaims.map Thread.new⟩ threeRaces
        = some q ∧
      q.threads.countP (fun t => t.call.claims nonce && t.pc == .done (.claimed true)) = 1 := by
  have hrun : (Pool.run step (During nonce 1000 5000) ⟨expiredNonce, threeClaims.map Thread.new⟩
      threeRaces).any (fun q => q.threads.all Thread.returned) = true := by decide
  obtain ⟨q, hq, hdone⟩ := (Option.any_eq_true _ _).mp hrun
  refine ⟨q, hq, ?_⟩
  have hwon := claim_won_once expiredNonce nonce 1000 5000 threeClaims (by decide) (by decide) (by decide)
    (by decide) hq
  exact (hwon.2.2 fun t ht _ => List.all_eq_true.mp hdone t ht).1

end IntelliPrism.Cache
