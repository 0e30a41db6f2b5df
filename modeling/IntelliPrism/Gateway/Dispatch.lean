import IntelliPrism.Core.Route

/-!
# How a rule's endpoints are dispatched to

What a dispatcher knows of the endpoints behind one rule: which of them are live, how their shares run
up, and what each is carrying.  The first two are worked out once from the rule; turn and load are
counted as requests come and go.

* `Plan.of` — what the rule says;
* `Plan.inTurn`, `Plan.byShare`, `Plan.lightest` — the three strategies, each a choice among the live
  endpoints;
* `Plan.choose` — the one the rule names, and `Plan.choose_mem`: there is always a choice, among the live;
* `mem_live_of`, `allDrained_of_mem_live` — **which endpoints are live**: those that take a share, or all
  when none does.
-/

namespace IntelliPrism.Gateway

open IntelliPrism.Core

/-- What a latency no endpoint has answered yet counts as, in microseconds. -/
def unknownLatency : UInt64 := 1000

/-- What one endpoint behind a rule is carrying. -/
structure EndpointLoad where
  inFlight : UInt32
  latency : UInt64
  deriving DecidableEq

/-- What a request arriving now would wait. -/
def EndpointLoad.score (load : EndpointLoad) : UInt64 :=
  (load.inFlight.toUInt64 + 1) * (if load.latency = 0 then unknownLatency else load.latency)

/-- Which endpoints a request may go to, and the running total of their shares. -/
structure Plan where
  live : List ℕ
  shares : List ℕ
  deriving DecidableEq

/-- The running totals of a list of shares, from a total on. -/
def runningFrom (total : ℕ) : List ℕ → List ℕ
  | [] => []
  | share :: rest => (total + share) :: runningFrom (total + share) rest

namespace Plan

/-- Works out how these endpoints are dispatched to: those not drained, or every one when all are. -/
def of (targets : List Weighted) : Plan :=
  let kept := (List.range targets.length).filter fun i =>
    (targets[i]?).any fun target => !target.weight.isDrained
  let live := if kept = [] then List.range targets.length else kept
  ⟨live, runningFrom 0 (live.map fun i => (targets[i]?).elim 0 fun target => target.weight.get.toNat)⟩

def total (plan : Plan) : ℕ := plan.shares.getLast?.getD 0

/-- What a plan counts, as it stands at one moment: whose turn it is and what each endpoint carries. -/
structure Counts where
  turn : UInt64
  load : List EndpointLoad
  deriving DecidableEq

/-- What a plan begins with: its first turn, and nothing carried or answered. -/
def Counts.of (targets : List Weighted) : Counts := ⟨0, targets.map fun _ => ⟨0, 0⟩⟩

/-- The endpoint after the one this rule last used. -/
def inTurn (plan : Plan) (counts : Counts) : Option ℕ :=
  plan.live[counts.turn.toNat % plan.live.length]?

/-- The endpoint whose share a number falls in. -/
def atShare (plan : Plan) (rolled : ℕ) : Option ℕ :=
  plan.live[min (plan.shares.countP (· ≤ rolled)) (plan.live.length - 1)]?

/-- The lighter of the lightest so far, with what it scores, and the next endpoint. -/
def lighter (counts : Counts) (least : Option ℕ × UInt64) (i : ℕ) : Option ℕ × UInt64 :=
  match counts.load[i]? with
  | none => least
  | some load => if load.score < least.2 then (some i, load.score) else least

/-- The live endpoint a new request would wait least behind. -/
def lightest (plan : Plan) (counts : Counts) : Option ℕ :=
  (plan.live.foldl (lighter counts) (plan.live.head?, 0xFFFFFFFFFFFFFFFF)).1

/-- A number below a total: what was drawn, or the middle when nothing could be. -/
def roll (total : ℕ) (draw : Option UInt64) : ℕ :=
  match draw with
  | none => total / 2
  | some bytes => bytes.toNat % total

/-- An endpoint drawn in proportion to the shares. -/
def byShare (plan : Plan) (draw : Option UInt64) : Option ℕ :=
  if plan.total = 0 then plan.live.head? else plan.atShare (roll plan.total draw)

/-- The endpoint a rule's strategy comes to. -/
def choose (plan : Plan) (strategy : Strategy) (counts : Counts) (draw : Option UInt64) : Option ℕ :=
  match strategy with
  | .roundRobin => plan.inTurn counts
  | .ratio => plan.byShare draw
  | .leastLoad => plan.lightest counts

/-! ### There is always a choice -/

theorem live_of {targets : List Weighted} (h : targets ≠ []) :
    (Plan.of targets).live ≠ [] ∧ ∀ i ∈ (Plan.of targets).live, i < targets.length := by
  have hrange : List.range targets.length ≠ [] := by
    intro hnil
    exact h (List.length_eq_zero_iff.mp (List.range_eq_nil.mp hnil))
  simp only [Plan.of]
  split
  · exact ⟨hrange, fun i hi => List.mem_range.mp hi⟩
  · rename_i hkept
    exact ⟨hkept, fun i hi => List.mem_range.mp (List.mem_filter.mp hi).1⟩

theorem lighter_mem {plan : Plan} (counts : Counts) {rest : List ℕ} (hrest : rest ⊆ plan.live)
    {least : Option ℕ × UInt64} (hleast : ∃ i ∈ plan.live, least.1 = some i) :
    ∃ i ∈ plan.live, (rest.foldl (lighter counts) least).1 = some i := by
  induction rest generalizing least with
  | nil => exact hleast
  | cons i rest ih =>
    refine ih (fun _ hi => hrest (List.mem_cons_of_mem _ hi)) ?_
    rw [lighter]
    split
    · exact hleast
    · split
      · exact ⟨i, hrest (List.mem_cons_self ..), rfl⟩
      · exact hleast

theorem lightest_mem {plan : Plan} (h : plan.live ≠ []) (counts : Counts) :
    ∃ i ∈ plan.live, plan.lightest counts = some i := by
  apply lighter_mem counts (List.Subset.refl _)
  exact ⟨plan.live.head h, List.head_mem h, List.head?_eq_some_head h⟩

/-- **Every strategy chooses a live endpoint**, whatever was counted and whatever was drawn. -/
theorem choose_mem {plan : Plan} (h : plan.live ≠ []) (strategy : Strategy) (counts : Counts)
    (draw : Option UInt64) : ∃ i ∈ plan.live, plan.choose strategy counts draw = some i := by
  have hlength : 0 < plan.live.length := List.length_pos_iff.mpr h
  have hat : ∀ n, n < plan.live.length → ∃ i ∈ plan.live, plan.live[n]? = some i := fun n hn =>
    ⟨plan.live[n], List.getElem_mem hn, List.getElem?_eq_getElem hn⟩
  cases strategy with
  | roundRobin => exact hat _ (Nat.mod_lt _ hlength)
  | leastLoad => exact lightest_mem h counts
  | ratio =>
    show ∃ i ∈ plan.live, plan.byShare draw = some i
    rw [byShare]
    split
    · exact ⟨plan.live.head h, List.head_mem h, List.head?_eq_some_head h⟩
    · exact hat _ (by omega)

/-! ### Which endpoints are live -/

/-- The share of the endpoint at a position, and no share where there is none. -/
def shareAt (targets : List Weighted) (i : ℕ) : ℕ :=
  (targets[i]?).elim 0 fun target => target.weight.get.toNat

/-- Every endpoint is to be sent nothing. -/
def AllDrained (targets : List Weighted) : Prop := ∀ i, shareAt targets i = 0

/-- The live endpoints and their shares, said of the shares by position. -/
theorem of_eq (targets : List Weighted) : Plan.of targets =
    ⟨(Plan.of targets).live, runningFrom 0 ((Plan.of targets).live.map (shareAt targets))⟩ := rfl

theorem any_not_isDrained_iff {targets : List Weighted} {i : ℕ} :
    (targets[i]?).any (fun target => !target.weight.isDrained) = true ↔ 0 < shareAt targets i := by
  rw [shareAt]
  cases targets[i]? with
  | none => simp
  | some target =>
    have hzero : target.weight.get = 0 ↔ target.weight.get.toNat = 0 :=
      UInt32.toNat_inj.symm
    simp [Weight.isDrained, hzero, Nat.pos_iff_ne_zero]

theorem lt_length_of_shareAt_pos {targets : List Weighted} {i : ℕ} (h : 0 < shareAt targets i) :
    i < targets.length := by
  apply Nat.lt_of_not_le
  intro hout
  rw [shareAt, List.getElem?_eq_none hout] at h
  exact Nat.lt_irrefl 0 h

theorem live_of_allDrained {targets : List Weighted} (h : AllDrained targets) :
    (Plan.of targets).live = List.range targets.length := by
  simp only [Plan.of]
  apply if_pos
  apply List.filter_eq_nil_iff.mpr
  intro i _ hany
  rw [any_not_isDrained_iff, h i] at hany
  exact Nat.lt_irrefl 0 hany

/-- **While some endpoint takes a share, those that do are the live ones.** -/
theorem mem_live_of {targets : List Weighted} (h : ¬ AllDrained targets) {i : ℕ} :
    i ∈ (Plan.of targets).live ↔ 0 < shareAt targets i := by
  have hkept : ∀ j, j ∈ (List.range targets.length).filter (fun i =>
      (targets[i]?).any fun target => !target.weight.isDrained) ↔ 0 < shareAt targets j := by
    intro j
    rw [List.mem_filter, any_not_isDrained_iff, List.mem_range]
    exact and_iff_right_of_imp lt_length_of_shareAt_pos
  simp only [Plan.of]
  split
  · rename_i hnil
    exfalso
    apply h
    intro j
    have hnone := hkept j
    rw [hnil] at hnone
    exact Nat.eq_zero_of_not_pos fun hpos => absurd (hnone.mpr hpos) List.not_mem_nil
  · exact hkept i

/-- **A drained endpoint is live only where every one is.** -/
theorem allDrained_of_mem_live {targets : List Weighted} {i : ℕ} (hi : i ∈ (Plan.of targets).live)
    (hdrained : shareAt targets i = 0) : AllDrained targets := by
  apply Classical.byContradiction
  intro hnot
  have hpos := (mem_live_of hnot).mp hi
  omega

theorem nodup_live (targets : List Weighted) : (Plan.of targets).live.Nodup := by
  simp only [Plan.of]
  split
  · exact List.nodup_range
  · exact List.nodup_range.filter _

end Plan

end IntelliPrism.Gateway
