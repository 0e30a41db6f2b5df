import IntelliPrism.Dispatch.Requests
import Mathlib.Data.List.MinMax

/-!
# What endpoints take, and what they carry

An endpoint is held to take a smoothed average of its answers, and the least load strategy sends a request
where what is in front of it, at what the endpoint takes, comes to least.

* `smoothed_toNat` — the arithmetic of one answer, in which nothing overflows;
* `smoothed_between`, `folded_between` — an answer keeps what is held between the bounds of all answers,
  and so do answers one after the other;
* `latency_follows_answers` — **the smoothed latency is bounded and converges**;
* `fold_alone` — what the folder leaves, meeting nobody, is each answer worked into its endpoint;
* `lightest_least` — the scan returns a true minimum of the scores;
* `least_load_balances` — **least load balances by expected wait**.
-/

namespace IntelliPrism.Dispatch

open IntelliPrism.Core IntelliPrism.Lib IntelliPrism.Gateway

/-! ### What an endpoint takes -/

/-- One answer's latency folded into what an endpoint takes. -/
def answered (load : EndpointLoad) (micros : UInt64) : EndpointLoad :=
  { load with latency := smoothed load.latency micros }

/-- **Nothing overflows**: neither the difference nor the sum, so that they are those of numbers. -/
theorem smoothed_toNat (held micros : UInt64) (h : held ≠ 0) :
    held.toNat / 5 ≤ held.toNat ∧
      held.toNat - held.toNat / 5 + micros.toNat / 5 < UInt64.size ∧
      (smoothed held micros).toNat = held.toNat - held.toNat / 5 + micros.toNat / 5 := by
  have hheld : held.toNat < UInt64.size := held.toNat_lt
  have hmicros : micros.toNat < UInt64.size := micros.toNat_lt
  have hfits : held.toNat - held.toNat / 5 + micros.toNat / 5 < UInt64.size := by omega
  have hfive : smoothing.toNat = 5 := rfl
  have hle : held / smoothing ≤ held := by
    rw [UInt64.le_iff_toNat_le, UInt64.toNat_div, hfive]
    omega
  refine ⟨by omega, hfits, ?_⟩
  rw [smoothed, if_neg h, UInt64.toNat_add, UInt64.toNat_sub_of_le _ _ hle, UInt64.toNat_div,
    UInt64.toNat_div, hfive]
  exact Nat.mod_eq_of_lt hfits

/-- **One answer** keeps what is held between any bounds it and the answer lie in. -/
theorem smoothed_between {low high held micros : UInt64} (hheld : held ≠ 0 → low ≤ held ∧ held ≤ high)
    (hmicros : low ≤ micros ∧ micros ≤ high) :
    low ≤ smoothed held micros ∧ smoothed held micros ≤ high := by
  by_cases hzero : held = 0
  · rw [smoothed, if_pos hzero]
    exact hmicros
  · obtain ⟨-, -, hsum⟩ := smoothed_toNat held micros hzero
    have hbounds := hheld hzero
    simp only [UInt64.le_iff_toNat_le] at hbounds hmicros ⊢
    rw [hsum]
    omega

/-- **Answers one after the other**, by induction over them. -/
theorem folded_between {low high : UInt64} (hlow : low ≠ 0) {answers : List UInt64} {load : EndpointLoad}
    (hheld : load.latency ≠ 0 → low ≤ load.latency ∧ load.latency ≤ high)
    (h : ∀ micros ∈ answers, low ≤ micros ∧ micros ≤ high)
    (hsome : answers ≠ [] ∨ load.latency ≠ 0) :
    low ≤ (answers.foldl answered load).latency ∧ (answers.foldl answered load).latency ≤ high := by
  induction answers generalizing load with
  | nil => exact hheld (hsome.resolve_left fun hnil => hnil rfl)
  | cons micros answers ih =>
    have hnext := smoothed_between hheld (h micros (List.mem_cons_self ..))
    refine @ih (answered load micros) (fun _ => hnext)
      (fun later hlater => h later (List.mem_cons_of_mem _ hlater)) (.inr ?_)
    intro hzero
    have hzero : smoothed load.latency micros = 0 := hzero
    rw [hzero, UInt64.le_iff_toNat_le] at hnext
    exact hlow (UInt64.toNat_inj.mp (Nat.le_zero.mp hnext.1))

/-- Within four microseconds of an answer. -/
def Near (held micros : UInt64) : Prop :=
  held.toNat ≤ micros.toNat + 4 ∧ micros.toNat ≤ held.toNat + 4

theorem Near.smoothed {held micros : UInt64} (h : Near held micros) : Near (smoothed held micros) micros := by
  by_cases hzero : held = 0
  · rw [Dispatch.smoothed, if_pos hzero]
    exact ⟨Nat.le_add_right _ _, Nat.le_add_right _ _⟩
  · obtain ⟨-, -, hsum⟩ := smoothed_toNat held micros hzero
    unfold Near at h ⊢
    rw [hsum]
    omega

/-- What is not near an answer comes nearer: it is in another block of five, and moves by as many as there
are blocks between. -/
theorem nearer_of_not_near {held micros : UInt64} (hzero : held ≠ 0) (h : ¬ Near held micros) :
    ((smoothed held micros).toNat - micros.toNat) + (micros.toNat - (smoothed held micros).toNat)
      < (held.toNat - micros.toNat) + (micros.toNat - held.toNat) := by
  obtain ⟨-, -, hsum⟩ := smoothed_toNat held micros hzero
  unfold Near at h
  rw [hsum]
  omega

/-- What is near an answer stays near it while that answer keeps coming. -/
theorem Near.stays {load : EndpointLoad} {micros : UInt64} (h : Near load.latency micros) (k : ℕ) :
    Near ((List.replicate k micros).foldl answered load).latency micros := by
  induction k generalizing load with
  | zero => exact h
  | succ k ih => exact @ih (answered load micros) h.smoothed

/-- **An answer that keeps coming is reached**, by induction on how far off it is. -/
theorem near_eventually (micros : UInt64) (load : EndpointLoad) :
    ∃ n, ∀ k ≥ n, Near ((List.replicate k micros).foldl answered load).latency micros := by
  have hlater : (∃ n, ∀ k ≥ n, Near ((List.replicate k micros).foldl answered
      (answered load micros)).latency micros) →
      ∃ n, ∀ k ≥ n, Near ((List.replicate k micros).foldl answered load).latency micros := by
    rintro ⟨n, hn⟩
    refine ⟨n + 1, ?_⟩
    intro k hk
    obtain ⟨k, rfl⟩ : ∃ j, k = j + 1 := ⟨k - 1, by omega⟩
    exact hn k (by omega)
  by_cases hnear : Near load.latency micros
  · exact ⟨0, fun k _ => hnear.stays k⟩
  · apply hlater
    by_cases hzero : load.latency = 0
    · refine ⟨0, fun k _ => Near.stays ?_ k⟩
      show Near (smoothed load.latency micros) micros
      rw [smoothed, if_pos hzero]
      exact ⟨Nat.le_add_right _ _, Nat.le_add_right _ _⟩
    · have hless := nearer_of_not_near hzero hnear
      exact near_eventually micros (answered load micros)
termination_by (load.latency.toNat - micros.toNat) + (micros.toNat - load.latency.toNat)
decreasing_by exact hless

/-! ### What the folder leaves -/

/-- A request that is done says it waited at least a microsecond, so no answer is taken for none. -/
theorem one_le_waited (elapsed : ℕ) : 1 ≤ waited elapsed := by
  show 1 ≤ if saturate elapsed ≤ 1 then 1 else saturate elapsed
  split
  · exact UInt64.le_refl 1
  · rename_i hmore
    exact UInt64.le_of_lt (UInt64.not_le.mp hmore)

theorem load_carry (s : Dispatching) {location other i j : ℕ} (f : EndpointLoad → EndpointLoad)
    (h : j < (s.counts other).load.length) : (s.carry location i f).load other j
      = if location = other ∧ i = j then f (s.load other j) else s.load other j := by
  have hload := load_of_lt h
  unfold Dispatching.load
  show (((Function.update s.counts location _) other).load[j]?).getD _ = _
  by_cases hlocation : location = other
  · rw [← hlocation] at h hload ⊢
    rw [Function.update_self]
    show (((s.counts location).load.modify i f)[j]?).getD _ = _
    rw [List.getElem?_modify, hload]
    by_cases hi : i = j
    · simp [hi]
    · simp [hi]
  · rw [Function.update_of_ne (Ne.symm hlocation), if_neg fun hboth => hlocation hboth.1]

theorem length_carry (s : Dispatching) (location other i : ℕ) (f : EndpointLoad → EndpointLoad) :
    ((s.carry location i f).counts other).load.length = (s.counts other).load.length := by
  show (Function.update s.counts location _ other).load.length = _
  by_cases hlocation : other = location
  · rw [hlocation, Function.update_self]
    exact List.length_modify ..
  · rw [Function.update_of_ne hlocation]

/-- What the folder, meeting nobody, makes of one endpoint: its answers folded one after the other. -/
theorem load_foldEach (x : Chance) (batch : List Answered) (s : Dispatching) {location i : ℕ}
    (h : i < (s.counts location).load.length) :
    (Process.exec handle x (foldEach batch) s).1.load location i
      = ((batch.filter fun answer => answer.location = location ∧ answer.i = i).map Answered.micros).foldl
        answered (s.load location i) := by
  induction batch generalizing s with
  | nil => rfl
  | cons answer batch ih =>
    have hnext : (Process.exec handle x (foldEach (answer :: batch)) s).1
        = (Process.exec handle x (foldEach batch) (s.carry answer.location answer.i fun load =>
          { load with latency := smoothed (s.load answer.location answer.i).latency answer.micros })).1 := rfl
    rw [hnext, ih _ (by rw [length_carry]; exact h), load_carry _ _ h, List.filter_cons]
    by_cases hmine : answer.location = location ∧ answer.i = i
    · obtain ⟨hlocation, hi⟩ := hmine
      simp [hlocation, hi, answered]
    · simp [hmine]

/-- **The folder works in a batch of the answers that have arrived**, each into its own endpoint. -/
theorem fold_alone (x : Chance) (s : Dispatching) {location i : ℕ}
    (h : i < (s.counts location).load.length) :
    (Process.exec handle x fold s).1.load location i
        = (((s.answers.take batchSize).filter fun answer => answer.location = location ∧ answer.i = i).map
          Answered.micros).foldl answered (s.load location i) ∧
      (Process.exec handle x fold s).2 = min batchSize s.answers.length := by
  have hfold : Process.exec handle x fold s = ((Process.exec handle x (foldEach (s.answers.take batchSize))
      { s with answers := s.answers.drop batchSize }).1, (s.answers.take batchSize).length) := by
    rw [fold, Process.exec_bind, Process.exec_bind]
    rfl
  rw [hfold]
  exact ⟨load_foldEach x _ { s with answers := s.answers.drop batchSize } h, List.length_take ..⟩

/-! ### Bounded, and converging -/

/-- **The smoothed latency is a bounded average that converges.**  Answers of at least a microsecond, to an
endpoint that has never answered, leave it between the smallest and the largest of them and never at the
zero of one that has not answered; no step of the arithmetic overflows; and an answer that keeps coming is
reached to within four, and kept.  A request that is done leaves such an answer, whatever the clock says, and
the folder works the answers of an endpoint in one after the other. -/
theorem latency_follows_answers :
    (∀ (load : EndpointLoad) (answers : List UInt64), load.latency = 0 → answers ≠ [] →
        (∀ micros ∈ answers, 1 ≤ micros) →
        (answers.foldl answered load).latency ≠ 0 ∧
          ∃ smallest ∈ answers, ∃ largest ∈ answers,
            (∀ micros ∈ answers, smallest ≤ micros ∧ micros ≤ largest) ∧
            smallest ≤ (answers.foldl answered load).latency ∧
            (answers.foldl answered load).latency ≤ largest) ∧
      (∀ held micros : UInt64, held ≠ 0 → held.toNat / 5 ≤ held.toNat ∧
        held.toNat - held.toNat / 5 + micros.toNat / 5 < UInt64.size ∧
        (smoothed held micros).toNat = held.toNat - held.toNat / 5 + micros.toNat / 5) ∧
      (∀ (load : EndpointLoad) (micros : UInt64),
        ∃ n, ∀ k ≥ n, Near ((List.replicate k micros).foldl answered load).latency micros) ∧
      (∀ (x : Chance) (s : Dispatching) (chosen : Chosen), ∃ micros, 1 ≤ micros ∧
        (Process.exec handle x (drop chosen) s).1.answers
          = s.answers ++ [⟨chosen.location, chosen.i, micros⟩]) ∧
      ∀ (x : Chance) (s : Dispatching) (location i : ℕ), i < (s.counts location).load.length →
        (Process.exec handle x fold s).1.load location i
          = (((s.answers.take batchSize).filter fun answer =>
            answer.location = location ∧ answer.i = i).map Answered.micros).foldl answered
              (s.load location i) := by
  refine ⟨?_, smoothed_toNat, fun load micros => near_eventually micros load,
    fun x _ _ => ⟨waited x.elapsed, one_le_waited _, rfl⟩, fun x s _ _ h => (fold_alone x s h).1⟩
  intro load answers hnever hsome hone
  obtain ⟨smallest, hsmallest⟩ := Option.ne_none_iff_exists'.mp
    (mt List.argmin_eq_none.mp hsome : answers.argmin UInt64.toNat ≠ none)
  obtain ⟨largest, hlargest⟩ := Option.ne_none_iff_exists'.mp
    (mt List.argmax_eq_none.mp hsome : answers.argmax UInt64.toNat ≠ none)
  have hbounds : ∀ micros ∈ answers, smallest ≤ micros ∧ micros ≤ largest := by
    intro micros hmicros
    exact ⟨UInt64.le_iff_toNat_le.mpr (List.le_of_mem_argmin hmicros hsmallest),
      UInt64.le_iff_toNat_le.mpr (List.le_of_mem_argmax hmicros hlargest)⟩
  have hpositive : ∀ held : UInt64, 1 ≤ held → held ≠ 0 := by
    intro held hheld hzero
    rw [hzero] at hheld
    exact absurd hheld (by decide)
  have hlow := List.argmin_mem hsmallest
  have hbetween := folded_between (hpositive _ (hone _ hlow)) (fun h => absurd hnever h) hbounds (.inl hsome)
  refine ⟨?_, smallest, hlow, largest, List.argmax_mem hlargest, hbounds, hbetween⟩
  have hleast := UInt64.le_iff_toNat_le.mp (hone _ hlow)
  exact hpositive _ (UInt64.le_iff_toNat_le.mpr
    (Nat.le_trans hleast (UInt64.le_iff_toNat_le.mp hbetween.1)))

/-- Answers of 10 and then of 20 microseconds leave an endpoint held to take 12. -/
theorem latency_of_ten_and_twenty :
    (∃ smallest ∈ ([10, 20] : List UInt64), ∃ largest ∈ ([10, 20] : List UInt64),
        (∀ micros ∈ ([10, 20] : List UInt64), smallest ≤ micros ∧ micros ≤ largest) ∧
        smallest ≤ (([10, 20] : List UInt64).foldl answered ⟨0, 0⟩).latency ∧
        (([10, 20] : List UInt64).foldl answered ⟨0, 0⟩).latency ≤ largest) ∧
      (([10, 20] : List UInt64).foldl answered ⟨0, 0⟩).latency = 12 := by
  have hleast : ∀ micros ∈ ([10, 20] : List UInt64), 1 ≤ micros := by
    intro micros hmicros
    simp only [List.mem_cons, List.not_mem_nil, or_false] at hmicros
    rcases hmicros with rfl | rfl
    · exact UInt64.le_iff_toNat_le.mpr (by decide)
    · exact UInt64.le_iff_toNat_le.mpr (by decide)
  exact ⟨(latency_follows_answers.1 ⟨0, 0⟩ [10, 20] rfl (List.cons_ne_nil _ _) hleast).2, rfl⟩

/-! ### The lightest endpoint -/

/-- What an endpoint counts as taking, which is not known before it has answered. -/
def takes (latency : UInt64) : ℕ := (if latency = 0 then unknownLatency else latency).toNat

/-- A score that does not overflow is what is in front of a request at what the endpoint takes. -/
theorem score_toNat (load : EndpointLoad)
    (h : (load.inFlight.toNat + 1) * takes load.latency < UInt64.size) :
    load.score.toNat = (load.inFlight.toNat + 1) * takes load.latency := by
  have hcount : (load.inFlight.toUInt64 + 1).toNat = load.inFlight.toNat + 1 := by
    have hlt : load.inFlight.toNat < UInt32.size := load.inFlight.toNat_lt
    rw [UInt64.toNat_add, UInt32.toNat_toUInt64]
    apply Nat.mod_eq_of_lt
    show load.inFlight.toNat + 1 < UInt64.size
    have hsize : UInt32.size + 1 < UInt64.size := by decide
    omega
  rw [EndpointLoad.score, UInt64.toNat_mul, hcount]
  exact Nat.mod_eq_of_lt h

/-- The scan holds an endpoint no heavier than the least score it has, which no endpoint it came by is
below. -/
theorem foldl_lighter_least {s : Dispatching} {location : ℕ} {live passed : List ℕ}
    (h : ∀ i ∈ live, i < (s.counts location).load.length) {least : Option ℕ × UInt64} {i : ℕ}
    (hleast : least.1 = some i) (hi : (s.load location i).score ≤ least.2)
    (hpassed : ∀ j ∈ passed, least.2 ≤ (s.load location j).score) :
    ∃ i, (live.foldl (Plan.lighter (s.counts location)) least).1 = some i ∧
      ∀ j ∈ passed ++ live, (s.load location i).score ≤ (s.load location j).score := by
  induction live generalizing passed least i with
  | nil =>
    refine ⟨i, hleast, fun j hj => UInt64.le_trans hi (hpassed j ?_)⟩
    rwa [List.append_nil] at hj
  | cons next live ih =>
    have hrest : ∀ j ∈ live, j < (s.counts location).load.length := fun j hj => h j (List.mem_cons_of_mem _ hj)
    have hload := load_of_lt (h next (List.mem_cons_self ..))
    have hwhole : passed ++ next :: live = (passed ++ [next]) ++ live := by
      rw [List.append_assoc, List.singleton_append]
    rw [List.foldl_cons, Plan.lighter, hload, hwhole]
    dsimp only
    by_cases hlt : (s.load location next).score < least.2
    · rw [if_pos hlt]
      refine ih hrest rfl (UInt64.le_refl _) ?_
      intro j hj
      rcases List.mem_append.mp hj with hj | hj
      · exact UInt64.le_trans (UInt64.le_of_lt hlt) (hpassed j hj)
      · rw [List.mem_singleton.mp hj]
        exact UInt64.le_refl _
    · rw [if_neg hlt]
      refine ih hrest hleast hi ?_
      intro j hj
      rcases List.mem_append.mp hj with hj | hj
      · exact hpassed j hj
      · rw [List.mem_singleton.mp hj]
        exact UInt64.not_lt.mp hlt

/-- **The lightest endpoint has the least score of all live ones.** -/
theorem lightest_least {s : Dispatching} {location : ℕ} {plan : Plan} (hlive : plan.live ≠ [])
    (h : ∀ i ∈ plan.live, i < (s.counts location).load.length) :
    ∃ i, plan.lightest (s.counts location) = some i ∧ i ∈ plan.live ∧
      ∀ j ∈ plan.live, (s.load location i).score ≤ (s.load location j).score := by
  have hmost : ∀ score : UInt64, score ≤ 0xFFFFFFFFFFFFFFFF := by
    intro score
    exact UInt64.le_iff_toNat_le.mpr (Nat.le_of_lt_succ score.toNat_lt)
  have hscan : ∃ i, plan.lightest (s.counts location) = some i ∧
      ∀ j ∈ [] ++ plan.live, (s.load location i).score ≤ (s.load location j).score :=
    foldl_lighter_least h (List.head?_eq_some_head hlive) (hmost _) fun j hj => by cases hj
  obtain ⟨i, hi, hleast⟩ := hscan
  obtain ⟨i', hmem, hi'⟩ := Plan.lightest_mem hlive (s.counts location)
  rw [hi, Option.some.injEq] at hi'
  exact ⟨i, hi, hi' ▸ hmem, hleast⟩

/-! ### Choices one after another -/

/-- One choice after others: what it leaves, and the endpoints chosen so far. -/
def chooseNext (resolution : Resolution) (left : Dispatching × List ℕ) (x : Chance) :
    Dispatching × List ℕ :=
  let chosen := Process.exec handle x (choose resolution) left.1
  (chosen.1, left.2 ++ (chosen.2.map Chosen.i).toList)

/-- Choices one after another, with none finished in between. -/
def chooseAll (resolution : Resolution) (s : Dispatching) (chances : List Chance) :
    Dispatching × List ℕ :=
  chances.foldl (chooseNext resolution) (s, [])

theorem chooseAll_concat (resolution : Resolution) (s : Dispatching) (chances : List Chance) (x : Chance) :
    chooseAll resolution s (chances ++ [x]) = chooseNext resolution (chooseAll resolution s chances) x := by
  rw [chooseAll, List.foldl_append]
  rfl

section LeastLoad

variable {resolution : Resolution} (hplan : resolution.plan = planOf resolution.rule)
  (htargets : resolution.targets.length = resolution.rule.target.weighted.length)
  (hstrategy : resolution.rule.strategy = .leastLoad)

include hplan htargets hstrategy

/-- **One least load choice** goes to an endpoint of least score, and is counted there. -/
theorem chooseNext_leastLoad {left : Dispatching × List ℕ} (x : Chance)
    (h : (left.1.counts resolution.location).load.length = resolution.rule.target.weighted.length) :
    ∃ i ∈ (planOf resolution.rule).live,
      (∀ j ∈ (planOf resolution.rule).live,
        (left.1.load resolution.location i).score ≤ (left.1.load resolution.location j).score) ∧
      chooseNext resolution left x = (left.1.carry resolution.location i
        fun load => { load with inFlight := load.inFlight + 1 }, left.2 ++ [i]) := by
  obtain ⟨hlive, hbound⟩ := Plan.live_of resolution.rule.target.nonempty
  rw [← h] at hbound
  obtain ⟨i, hi, hmem, hleast⟩ := lightest_least hlive hbound
  refine ⟨i, hmem, hleast, ?_⟩
  have hscan : Process.exec handle x (choosing resolution) left.1 = (left.1, some i) := by
    unfold choosing
    rw [hstrategy, hplan]
    exact (exec_scan x _ hbound).trans (congrArg _ hi)
  have hlt : i < resolution.targets.length := by
    rw [htargets, ← h]
    exact hbound i hmem
  rw [chooseNext, choose, Process.exec_bind, hscan]
  show (left.1.carry resolution.location i _, left.2 ++
    (((resolution.targets[i]?).map _).map Chosen.i).toList) = _
  rw [List.getElem?_eq_getElem hlt]
  rfl

/-- What choices with none finished leave: each endpoint carries what was sent to it, takes what it took,
and the live ones are in balance. -/
structure Carried (resolution : Resolution) (s : Dispatching) (left : Dispatching × List ℕ) : Prop where
  length : (left.1.counts resolution.location).load.length = resolution.rule.target.weighted.length
  latency : ∀ i < resolution.rule.target.weighted.length,
    (left.1.load resolution.location i).latency = (s.load resolution.location i).latency
  inFlight : ∀ i < resolution.rule.target.weighted.length,
    (left.1.load resolution.location i).inFlight.toNat = left.2.count i
  live : ∀ i ∈ left.2, i ∈ (planOf resolution.rule).live
  balanced : Balanced (planOf resolution.rule).live (fun i => takes (s.load resolution.location i).latency)
    fun i => left.2.count i

/-- **One choice more**: it goes where a request waits least, which keeps the balance. -/
theorem Carried.next {s : Dispatching} {left : Dispatching × List ℕ}
    (h : Carried resolution s left) (x : Chance)
    (hcounts : ∀ i, (chooseNext resolution left x).2.count i < UInt32.size)
    (hscores : ∀ i ∈ (planOf resolution.rule).live,
      (left.2.count i + 1) * takes (s.load resolution.location i).latency < UInt64.size) :
    Carried resolution s (chooseNext resolution left x) := by
  obtain ⟨i, hi, hleast, hnext⟩ := chooseNext_leastLoad hplan htargets hstrategy x h.length
  have hbound := (Plan.live_of resolution.rule.target.nonempty).2
  have hscore : ∀ j ∈ (planOf resolution.rule).live, (left.1.load resolution.location j).score.toNat
      = (left.2.count j + 1) * takes (s.load resolution.location j).latency := by
    intro j hj
    have hfits := hscores j hj
    rw [← h.inFlight j (hbound j hj), ← h.latency j (hbound j hj)] at hfits ⊢
    exact score_toNat _ hfits
  rw [hnext] at hcounts ⊢
  refine ⟨?_, ?_, ?_, ?_, ?_⟩
  · rw [length_carry]
    exact h.length
  · intro j hj
    rw [load_carry _ _ (by rw [h.length]; exact hj), ← h.latency j hj]
    split <;> rfl
  · intro j hj
    rw [load_carry _ _ (by rw [h.length]; exact hj)]
    by_cases hij : i = j
    · have hfits := hcounts j
      rw [count_concat, if_pos hij] at hfits
      rw [if_pos ⟨rfl, hij⟩, count_concat, if_pos hij, UInt32.toNat_add, h.inFlight j hj]
      exact Nat.mod_eq_of_lt hfits
    · rw [if_neg fun hboth => hij hboth.2, count_concat, if_neg hij, h.inFlight j hj, Nat.add_zero]
  · intro j hj
    rcases List.mem_append.mp hj with hj | hj
    · exact h.live j hj
    · rw [List.mem_singleton.mp hj]
      exact hi
  · have hwaits : ∀ j ∈ (planOf resolution.rule).live,
        (left.2.count i + 1) * takes (s.load resolution.location i).latency
          ≤ (left.2.count j + 1) * takes (s.load resolution.location j).latency := by
      intro j hj
      have hle := UInt64.le_iff_toNat_le.mp (hleast j hj)
      rw [hscore i hi, hscore j hj] at hle
      exact hle
    rw [count_concat_update]
    exact h.balanced.served hwaits

/-- **Any number of choices**, by induction on them from the last. -/
theorem carried_of_chooseAll {s : Dispatching}
    (hlength : (s.counts resolution.location).load.length = resolution.rule.target.weighted.length)
    (hidle : ∀ i < resolution.rule.target.weighted.length, (s.load resolution.location i).inFlight = 0)
    (chances : List Chance) (hcounts : ∀ i, (chooseAll resolution s chances).2.count i < UInt32.size)
    (hscores : ∀ k < chances.length, ∀ i ∈ (planOf resolution.rule).live,
      ((chooseAll resolution s (chances.take k)).2.count i + 1)
        * takes (s.load resolution.location i).latency < UInt64.size) :
    Carried resolution s (chooseAll resolution s chances) := by
  induction chances using List.reverseRecOn with
  | nil =>
    refine ⟨hlength, fun _ _ => rfl, ?_, ?_, balanced_idle _ _⟩
    · intro i hi
      show (s.load resolution.location i).inFlight.toNat = 0
      rw [hidle i hi]
      rfl
    · intro i hi
      cases hi
  | append_singleton chances x ih =>
    rw [chooseAll_concat] at hcounts ⊢
    have hbefore : Carried resolution s (chooseAll resolution s chances) := by
      apply ih
      · intro i
        refine Nat.lt_of_le_of_lt ?_ (hcounts i)
        rw [chooseNext, List.count_append]
        exact Nat.le_add_right _ _
      · intro k hk i hi
        have hlater := hscores k (by rw [List.length_append]; omega) i hi
        rwa [List.take_append_of_le_length (Nat.le_of_lt hk)] at hlater
    refine hbefore.next hplan htargets hstrategy x hcounts ?_
    intro i hi
    have hnow := hscores chances.length (by simp) i hi
    rwa [List.take_left] at hnow

end LeastLoad

/-- **Least load balances by expected wait.**  From nothing in flight, after any number of least load
choices with none finished, while no count in flight reaches 32 bits and no score 64, what one live
endpoint carries at what it takes is at most what another would with one request more; and nothing is
carried by a drained endpoint while another is live. -/
theorem least_load_balances {rules : List RouteRule} {key : RouteKey} {resolution : Resolution}
    (hresolved : (RoutingTable.fromRules rules).resolve key = some resolution)
    (hstrategy : resolution.rule.strategy = .leastLoad) {s : Dispatching}
    (hlength : (s.counts resolution.location).load.length = resolution.rule.target.weighted.length)
    (hidle : ∀ i < resolution.rule.target.weighted.length, (s.load resolution.location i).inFlight = 0)
    (chances : List Chance) (hcounts : ∀ i, (chooseAll resolution s chances).2.count i < UInt32.size)
    (hscores : ∀ k < chances.length, ∀ i ∈ (planOf resolution.rule).live,
      ((chooseAll resolution s (chances.take k)).2.count i + 1)
        * takes (s.load resolution.location i).latency < UInt64.size) :
    (∀ i ∈ (planOf resolution.rule).live, ∀ j ∈ (planOf resolution.rule).live,
        ((chooseAll resolution s chances).1.load resolution.location i).inFlight.toNat
            * takes (s.load resolution.location i).latency
          ≤ (((chooseAll resolution s chances).1.load resolution.location j).inFlight.toNat + 1)
            * takes (s.load resolution.location j).latency) ∧
      (¬ Plan.AllDrained resolution.rule.target.weighted →
        ∀ i < resolution.rule.target.weighted.length,
          Plan.shareAt resolution.rule.target.weighted i = 0 →
          ((chooseAll resolution s chances).1.load resolution.location i).inFlight = 0) := by
  obtain ⟨hplan, htargets⟩ := plan_of_fromRules hresolved
  have hcarried := carried_of_chooseAll hplan htargets hstrategy hlength hidle chances hcounts hscores
  have hbound := (Plan.live_of resolution.rule.target.nonempty).2
  constructor
  · intro i hi j hj
    rw [hcarried.inFlight i (hbound i hi), hcarried.inFlight j (hbound j hj)]
    exact hcarried.balanced i hi j hj
  · intro hsome i hi hshare
    have hnone : (chooseAll resolution s chances).2.count i = 0 := by
      apply List.count_eq_zero.mpr
      intro hmem
      have hpos := (Plan.mem_live_of hsome).mp (hcarried.live i hmem)
      omega
    have hcount := hcarried.inFlight i hi
    rw [hnone] at hcount
    exact UInt32.toNat_inj.mp hcount

/-- A least load rule of the examples, whose last endpoint is drained. -/
def lighterRule : RouteRule := spreading .leastLoad 1 [1, 0]

/-- What it resolves its own path to. -/
def lighterResolution : Resolution := ⟨lighterRule, lighterRule.target.weighted, planOf lighterRule, 0⟩

/-- Nothing in flight at endpoints that take three, five and one microseconds. -/
def answeredBefore : Dispatching :=
  { Dispatching.fresh [lighterRule] with counts := fun _ => ⟨0, [⟨0, 3⟩, ⟨0, 5⟩, ⟨0, 1⟩]⟩ }

/-- Of three requests two go to the faster endpoint, one to the slower and none to the drained one, which
takes least of all. -/
theorem least_load_of_three :
    (chooseAll lighterResolution answeredBefore (List.replicate 3 noChance)).2 = [0, 1, 0] ∧
      ((chooseAll lighterResolution answeredBefore (List.replicate 3 noChance)).1.load 0
          0).inFlight.toNat * takes 3
        ≤ (((chooseAll lighterResolution answeredBefore (List.replicate 3 noChance)).1.load 0
          1).inFlight.toNat + 1) * takes 5 ∧
      ((chooseAll lighterResolution answeredBefore (List.replicate 3 noChance)).1.load 0
        2).inFlight = 0 := by
  have hpicks : (chooseAll lighterResolution answeredBefore (List.replicate 3 noChance)).2 = [0, 1, 0] := by
    decide +kernel
  have hresolved : (RoutingTable.fromRules [lighterRule]).resolve configuredRule.key
      = some lighterResolution := by decide +kernel
  obtain ⟨hbalanced, hdrained⟩ := least_load_balances hresolved rfl (s := answeredBefore) rfl
    (by decide +kernel) (List.replicate 3 noChance)
    (by
      intro i
      rw [hpicks]
      exact Nat.lt_of_le_of_lt List.count_le_length (by decide))
    (by decide +kernel)
  refine ⟨hpicks, hbalanced 0 (by decide +kernel) 1 (by decide +kernel), ?_⟩
  refine hdrained ?_ 2 (by decide +kernel) rfl
  intro hall
  exact absurd (hall 0) (by decide +kernel)

end IntelliPrism.Dispatch
