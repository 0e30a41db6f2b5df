import IntelliPrism.Gateway.Flow
import IntelliPrism.Gateway.Shares
import IntelliPrism.Lib.Rely

/-!
# Requests that choose at once

A dispatcher takes no lock.  Each request reads and moves the atomics of its rule's plan one at a time,
while others do the same; a request that is done takes itself off its endpoint and leaves word of how long
it waited, which the folder works in later.  A table makes one plan for each of its rules and a resolution
copies the reference, so every request the rule carries counts at the same location.

* `choose`, `drop`, `fold` — the texts, one atomic operation at a time;
* `choose_alone` — **a request that meets no other chooses as `Resolution.choose` says**;
* `Orderly` — what each text can do next, whatever the atomics answer: a turn is taken at the request's own
  plan and leads to the endpoint whose turn it is, and nothing else leads to an endpoint that is not live;
* `picks_perm_turns` — along every interleaving the requests of a rule that goes in turn have picked what
  the turns taken at the plan they share come to, and the turns are consecutive (`consecutive_turns`);
* `each_live_once` — **round robin is fair under concurrency**;
* `drained_gets_nothing` — **a drained endpoint gets nothing while another can take it**, and where all
  are drained a rule that goes in turn reaches them all; one that draws does not
  (`drained_ratio_reaches_one`).
-/

namespace IntelliPrism.Dispatch

open IntelliPrism.Core IntelliPrism.Lib IntelliPrism.Gateway

/-! ### Answers -/

/-- One part in this many of a new latency replaces what an endpoint was taking before. -/
def smoothing : UInt64 := 5

/-- How many answers are folded in before the folder looks for more. -/
def batchSize : ℕ := 128

/-- What an endpoint takes after an answer, from what it was held to take. -/
def smoothed (held micros : UInt64) : UInt64 :=
  if held = 0 then micros else held - held / smoothing + micros / smoothing

/-- One answer, for the folder to work into what its endpoint takes. -/
structure Answered where
  location : ℕ
  i : ℕ
  micros : UInt64

/-- The endpoint a request was sent to, counted against it until this is dropped. -/
structure Chosen where
  location : ℕ
  i : ℕ
  endpoint : Endpoint
  deriving DecidableEq

/-! ### What the requests and the folder share -/

/-- What is counted at every plan's location, and the answers not yet folded in.  The turns each plan has
handed out, oldest first, are kept for the statements only. -/
structure Dispatching where
  counts : DispatcherState
  answers : List Answered
  turns : ℕ → List UInt64

namespace Dispatching

/-- One plan's counts as an atomic operation leaves them. -/
def count (s : Dispatching) (location : ℕ) (f : Plan.Counts → Plan.Counts) : Dispatching :=
  { s with counts := Function.update s.counts location (f (s.counts location)) }

/-- What one endpoint carries, as an atomic operation leaves it. -/
def carry (s : Dispatching) (location i : ℕ) (f : EndpointLoad → EndpointLoad) : Dispatching :=
  s.count location fun counts => { counts with load := counts.load.modify i f }

def load (s : Dispatching) (location i : ℕ) : EndpointLoad :=
  ((s.counts location).load[i]?).getD ⟨0, 0⟩

/-- Before the first request to a table of these rules, whose plans are as they were made. -/
def fresh (rules : List RouteRule) : Dispatching where
  counts := fun location => (rules[location]?).elim ⟨0, []⟩ fun rule => .of rule.target.weighted
  answers := []
  turns := fun _ => []

end Dispatching

/-- An atomic operation. -/
inductive Atomic where
  | takeTurn (location : ℕ)
  | readLatency (location i : ℕ)
  | readInFlight (location i : ℕ)
  | draw
  | sent (location i : ℕ)
  | done (location i : ℕ)
  | elapsed
  | send (answer : Answered)
  | receive
  | writeLatency (location i : ℕ) (latency : UInt64)

abbrev Atomic.Res : Atomic → Type
  | .takeTurn _ => UInt64
  | .readLatency _ _ => UInt64
  | .readInFlight _ _ => UInt32
  | .draw => Option UInt64
  | .elapsed => ℕ
  | .receive => List Answered
  | .sent _ _ | .done _ _ | .send _ | .writeLatency _ _ _ => Unit

/-- What entropy and the clock supply an operation with: a draw when one could be made, and the
microseconds since the request was sent. -/
structure Chance where
  draw : Option UInt64
  elapsed : ℕ

/-- What an operation does and answers.  Counters wrap, as atomics do. -/
def handle : Handler Chance Dispatching Atomic Atomic.Res
  | _, .takeTurn location, s =>
    let turn := (s.counts location).turn
    ({ s.count location fun counts => { counts with turn := counts.turn + 1 } with
        turns := Function.update s.turns location (s.turns location ++ [turn]) }, turn)
  | _, .readLatency location i, s => (s, (s.load location i).latency)
  | _, .readInFlight location i, s => (s, (s.load location i).inFlight)
  | x, .draw, s => (s, x.draw)
  | _, .sent location i, s => (s.carry location i fun load => { load with inFlight := load.inFlight + 1 }, ())
  | _, .done location i, s => (s.carry location i fun load => { load with inFlight := load.inFlight - 1 }, ())
  | x, .elapsed, s => (s, x.elapsed)
  | _, .send answer, s => ({ s with answers := s.answers ++ [answer] }, ())
  | _, .receive, s => ({ s with answers := s.answers.drop batchSize }, s.answers.take batchSize)
  | _, .writeLatency location i latency, s => (s.carry location i fun load => { load with latency }, ())

abbrev Action := Process Atomic Atomic.Res

def ask (op : Atomic) : Action op.Res := .call op .done

/-! ### The texts -/

/-- The scan of the live endpoints for the lightest, from the lightest so far and what it scores. -/
def scan (location : ℕ) : List ℕ → Option ℕ × UInt64 → Action (Option ℕ)
  | [], least => pure least.1
  | i :: rest, least => do
    let latency ← ask (.readLatency location i)
    let inFlight ← ask (.readInFlight location i)
    let score := (EndpointLoad.mk inFlight latency).score
    scan location rest (if score < least.2 then (some i, score) else least)

/-- The endpoint the rule's strategy comes to. -/
def choosing (resolution : Resolution) : Action (Option ℕ) :=
  match resolution.rule.strategy with
  | .roundRobin => do
    let turn ← ask (.takeTurn resolution.location)
    pure (resolution.plan.live[turn.toNat % resolution.plan.live.length]?)
  | .ratio =>
    if resolution.plan.total = 0 then pure resolution.plan.live.head?
    else do
      let draw ← ask .draw
      pure (resolution.plan.atShare (Plan.roll resolution.plan.total draw))
  | .leastLoad =>
    scan resolution.location resolution.plan.live (resolution.plan.live.head?, 0xFFFFFFFFFFFFFFFF)

/-- Counts a request against the endpoint chosen for it.  No plan has an index its rule has no endpoint
for. -/
def counting (resolution : Resolution) : Option ℕ → Action (Option Chosen)
  | none => pure none
  | some i => do
    ask (.sent resolution.location i)
    pure ((resolution.targets[i]?).map fun target => ⟨resolution.location, i, target.endpoint⟩)

/-- Chooses where a request goes, counting it against that endpoint until it is done. -/
def choose (resolution : Resolution) : Action (Option Chosen) :=
  choosing resolution >>= counting resolution

/-- What a request that is done says it waited, at least one microsecond. -/
def waited (elapsed : ℕ) : UInt64 := max (saturate elapsed) 1

/-- A request that is done with its endpoint. -/
def drop (chosen : Chosen) : Action Unit := do
  ask (.done chosen.location chosen.i)
  let elapsed ← ask .elapsed
  ask (.send ⟨chosen.location, chosen.i, waited elapsed⟩)

/-- Folds answers in, one after the other. -/
def foldEach : List Answered → Action Unit
  | [] => pure ()
  | answer :: rest => do
    let held ← ask (.readLatency answer.location answer.i)
    ask (.writeLatency answer.location answer.i (smoothed held answer.micros))
    foldEach rest

/-- Folds in whatever has arrived, up to a batch, reporting how many. -/
def fold : Action ℕ := do
  let batch ← ask .receive
  foldEach batch
  pure batch.length

/-- What is asked of a dispatcher. -/
inductive Call where
  | choose (key : RouteKey)
  | drop (chosen : Chosen)
  | fold

/-- The text of each, against one table. -/
def Call.text (table : RoutingTable) : Call → Action (Option Chosen)
  | .choose key =>
    match table.resolve key with
    | none => pure none
    | some resolution => Dispatch.choose resolution
  | .drop chosen => do
    Dispatch.drop chosen
    pure none
  | .fold => do
    let _ ← Dispatch.fold
    pure none

def calling (table : RoutingTable) (s : Dispatching) (calls : List Call) :
    Pool Dispatching (Task Call Atomic Atomic.Res (Option Chosen)) :=
  ⟨s, calls.map (Task.of (Call.text table))⟩

/-! ### A request that meets no other -/

@[simp] theorem exec_ask (x : Chance) (op : Atomic) (s : Dispatching) :
    Process.exec handle x (ask op) s = handle x op s := rfl

theorem load_of_lt {s : Dispatching} {location i : ℕ} (h : i < (s.counts location).load.length) :
    (s.counts location).load[i]? = some (s.load location i) := by
  rw [Dispatching.load, List.getElem?_eq_getElem h, Option.getD_some]

theorem exec_scan {s : Dispatching} {location : ℕ} (x : Chance) {live : List ℕ}
    (least : Option ℕ × UInt64) (h : ∀ i ∈ live, i < (s.counts location).load.length) :
    Process.exec handle x (scan location live least) s
      = (s, (live.foldl (Plan.lighter (s.counts location)) least).1) := by
  induction live generalizing least with
  | nil => rfl
  | cons i live ih =>
    have hload := load_of_lt (h i (List.mem_cons_self ..))
    rw [scan, List.foldl_cons, Plan.lighter, hload]
    exact ih _ fun j hj => h j (List.mem_cons_of_mem _ hj)

/-- **Alone, a request is given the endpoint its rule's strategy comes to** on the counts as they are. -/
theorem exec_choosing {s : Dispatching} {resolution : Resolution} (x : Chance)
    (h : ∀ i ∈ resolution.plan.live, i < (s.counts resolution.location).load.length) :
    (Process.exec handle x (choosing resolution) s).2
      = resolution.plan.choose resolution.rule.strategy (s.counts resolution.location) x.draw := by
  unfold choosing Plan.choose
  cases resolution.rule.strategy with
  | roundRobin => rfl
  | leastLoad => exact congrArg Prod.snd (exec_scan x _ h)
  | ratio =>
    show (Process.exec handle x (if resolution.plan.total = 0 then _ else _) s).2
      = resolution.plan.byShare x.draw
    rw [Plan.byShare]
    split <;> rfl

theorem choose_alone {s : Dispatching} {resolution : Resolution} (x : Chance)
    (h : ∀ i ∈ resolution.plan.live, i < (s.counts resolution.location).load.length) :
    (Process.exec handle x (choose resolution) s).2.map Chosen.endpoint
      = resolution.choose s.counts x.draw := by
  rw [choose, Process.exec_bind, exec_choosing x h, Resolution.choose]
  cases resolution.plan.choose resolution.rule.strategy (s.counts resolution.location) x.draw with
  | none => rfl
  | some i =>
    show ((resolution.targets[i]?).map _).map _ = _
    cases htarget : resolution.targets[i]? with
    | none => simp [htarget]
    | some target => simp [htarget]

/-! ### What a text can do next -/

def Call.resolved (table : RoutingTable) : Call → Option Resolution
  | .choose key => table.resolve key
  | .drop _ | .fold => none

/-- The endpoint a text has picked, by its plan's location: the one it is about to be counted against, or
was. -/
def picked : Action (Option Chosen) → Option (ℕ × ℕ)
  | .call (.sent location i) _ => some (location, i)
  | .done (some chosen) => some (chosen.location, chosen.i)
  | _ => none

abbrev planOf (rule : RouteRule) : Plan := Plan.of rule.target.weighted

def turnOf (rule : RouteRule) (turn : UInt64) : Option ℕ :=
  (planOf rule).live[turn.toNat % (planOf rule).live.length]?

/-- What a text has picked is a live endpoint of what its request was resolved to. -/
def Within (own : Option Resolution) (p : Action (Option Chosen)) : Prop :=
  ∀ location i, picked p = some (location, i) →
    ∃ resolution, own = some resolution ∧ location = resolution.location ∧
      i ∈ (planOf resolution.rule).live

/-- A text has not picked an endpoint of a rule that goes in turn. -/
def Unturned (own : Option Resolution) (p : Action (Option Chosen)) : Prop :=
  ∀ resolution, own = some resolution → resolution.rule.strategy = .roundRobin → picked p = none

/-- Where an operation leads, whatever it answers: a turn, which is taken at the plan the request was
resolved to, to the endpoint whose turn it is; a count to what was counted; and anything else to no
endpoint of a rule that goes in turn. -/
def Leads (own : Option Resolution) (op : Atomic) (next : op.Res → Action (Option Chosen)) : Prop :=
  match op, next with
  | .takeTurn location, next => ∃ resolution, own = some resolution ∧ location = resolution.location ∧
      ∀ turn : UInt64, ∃ i, turnOf resolution.rule turn = some i ∧ picked (next turn) = some (location, i)
  | .sent location i, next => picked (next ()) = some (location, i)
  | _, next => ∀ answer, Unturned own (next answer)

/-- Every operation of a text leads where it should, and what it has picked at any point is live. -/
def Orderly (own : Option Resolution) : Action (Option Chosen) → Prop
  | .done value => Within own (.done value)
  | .call op next => Within own (.call op next) ∧ Leads own op next ∧ ∀ answer, Orderly own (next answer)

theorem Orderly.within {own : Option Resolution} {p : Action (Option Chosen)} (h : Orderly own p) :
    Within own p := by
  cases p with
  | done value => exact h
  | call op next => exact h.1

/-- An operation that neither takes a turn nor counts a request. -/
def Quiet : Atomic → Prop
  | .takeTurn _ | .sent _ _ => False
  | _ => True

theorem picked_of_quiet {op : Atomic} (h : Quiet op) (next : op.Res → Action (Option Chosen)) :
    picked (.call op next) = none := by
  cases op with
  | sent location i => exact h.elim
  | _ => rfl

theorem within_of_none {own : Option Resolution} {p : Action (Option Chosen)} (h : picked p = none) :
    Within own p := by
  intro location i hpicked
  rw [h] at hpicked
  cases hpicked

/-- **Quiet operations first, and then a text that is orderly**, is an orderly text. -/
theorem orderly_bind {own : Option Resolution} {α : Type} {p : Action α}
    {f : α → Action (Option Chosen)} {Q : α → Prop} (hcalls : p.Calls Quiet) (hyields : p.Yields Q)
    (hf : ∀ value, Q value → Orderly own (f value) ∧ Unturned own (f value)) :
    Orderly own (p >>= f) ∧ Unturned own (p >>= f) := by
  induction p with
  | done value => exact hf value hyields
  | call op next ih =>
    have hnext := fun answer => ih answer (hcalls.2 answer) (hyields answer)
    have hquiet : Quiet op := hcalls.1
    have hnone := picked_of_quiet hquiet fun answer => next answer >>= f
    refine ⟨⟨within_of_none hnone, ?_, fun answer => (hnext answer).1⟩, fun _ _ _ => hnone⟩
    cases op with
    | takeTurn location => exact hquiet.elim
    | sent location i => exact hquiet.elim
    | _ => exact fun answer => (hnext answer).2

section Choosing

variable {resolution : Resolution} (hplan : resolution.plan = planOf resolution.rule)
  (htargets : resolution.targets.length = resolution.rule.target.weighted.length)

include hplan htargets

theorem orderly_counting {i : ℕ} (hi : i ∈ resolution.plan.live) :
    Orderly (some resolution) (counting resolution (some i)) := by
  rw [hplan] at hi
  have hlt := (Plan.live_of resolution.rule.target.nonempty).2 i hi
  rw [← htargets] at hlt
  have htext : counting resolution (some i) = .call (.sent resolution.location i)
      fun _ => .done (some ⟨resolution.location, i, resolution.targets[i].endpoint⟩) := by
    show Process.call _ (fun _ => Process.done _) = _
    rw [List.getElem?_eq_getElem hlt]
    rfl
  have hwithin : ∀ {p}, picked p = some (resolution.location, i) → Within (some resolution) p := by
    intro p hp location j hpicked
    rw [hp] at hpicked
    cases hpicked
    exact ⟨resolution, rfl, rfl, hi⟩
  rw [htext]
  exact ⟨hwithin rfl, rfl, fun _ => hwithin rfl⟩

/-- A text that is quiet and comes to a live endpoint, under a rule that does not go in turn. -/
theorem orderly_of_yields (hstrategy : resolution.rule.strategy ≠ .roundRobin) {p : Action (Option ℕ)}
    (hcalls : p.Calls Quiet) (hyields : p.Yields fun value => ∃ i ∈ resolution.plan.live, value = some i) :
    Orderly (some resolution) (p >>= counting resolution) ∧
      Unturned (some resolution) (p >>= counting resolution) := by
  refine orderly_bind hcalls hyields ?_
  rintro value ⟨i, hi, rfl⟩
  refine ⟨orderly_counting hplan htargets hi, ?_⟩
  intro own hown hturn
  cases hown
  exact absurd hturn hstrategy

end Choosing

theorem calls_scan (location : ℕ) (live : List ℕ) (least : Option ℕ × UInt64) :
    (scan location live least).Calls Quiet := by
  induction live generalizing least with
  | nil => trivial
  | cons i live ih => exact ⟨trivial, fun _ => ⟨trivial, fun _ => ih _⟩⟩

/-- Whatever the scan reads, it ends on one of the endpoints it began with or came by. -/
theorem yields_scan (location : ℕ) {live whole : List ℕ} (hsub : live ⊆ whole)
    {least : Option ℕ × UInt64} (hleast : ∃ i ∈ whole, least.1 = some i) :
    (scan location live least).Yields fun value => ∃ i ∈ whole, value = some i := by
  induction live generalizing least with
  | nil => exact hleast
  | cons i live ih =>
    intro latency inFlight
    refine ih (fun j hj => hsub (List.mem_cons_of_mem _ hj)) ?_
    split
    · exact ⟨i, hsub (List.mem_cons_self ..), rfl⟩
    · exact hleast

/-- **Choosing is orderly**, whichever strategy the rule names. -/
theorem orderly_choose {resolution : Resolution} (hplan : resolution.plan = planOf resolution.rule)
    (htargets : resolution.targets.length = resolution.rule.target.weighted.length) :
    Orderly (some resolution) (choose resolution) ∧ Unturned (some resolution) (choose resolution) := by
  have hlive : resolution.plan.live ≠ [] := by
    rw [hplan]
    exact (Plan.live_of resolution.rule.target.nonempty).1
  have hpos : 0 < resolution.plan.live.length := List.length_pos_iff.mpr hlive
  have hhead : ∃ i ∈ resolution.plan.live, resolution.plan.live.head? = some i :=
    ⟨_, List.head_mem hlive, List.head?_eq_some_head hlive⟩
  have hat : ∀ n, n < resolution.plan.live.length →
      ∃ i ∈ resolution.plan.live, resolution.plan.live[n]? = some i := fun n hn =>
    ⟨_, List.getElem_mem hn, List.getElem?_eq_getElem hn⟩
  unfold choose choosing
  cases hstrategy : resolution.rule.strategy with
  | roundRobin =>
    refine ⟨⟨within_of_none rfl, ⟨resolution, rfl, rfl, ?_⟩, ?_⟩, fun _ _ _ => rfl⟩
    · intro turn
      obtain ⟨i, -, hget⟩ := hat _ (Nat.mod_lt turn.toNat hpos)
      refine ⟨i, ?_, ?_⟩
      · rw [turnOf, ← hplan]
        exact hget
      · show picked (counting resolution _) = _
        rw [hget]
        rfl
    · intro turn
      obtain ⟨i, hi, hget⟩ := hat _ (Nat.mod_lt turn.toNat hpos)
      show Orderly (some resolution) (counting resolution _)
      rw [hget]
      exact orderly_counting hplan htargets hi
  | leastLoad =>
    exact orderly_of_yields hplan htargets (by rw [hstrategy]; decide) (calls_scan _ _ _)
      (yields_scan _ (List.Subset.refl _) hhead)
  | ratio =>
    refine orderly_of_yields hplan htargets (by rw [hstrategy]; decide) ?_ ?_
    · dsimp only
      split
      · trivial
      · exact ⟨trivial, fun _ => trivial⟩
    · dsimp only
      split
      · exact hhead
      · exact fun draw => hat _ (by omega)

theorem calls_foldEach (answers : List Answered) : (foldEach answers).Calls Quiet := by
  induction answers with
  | nil => trivial
  | cons answer answers ih => exact ⟨trivial, fun _ => ⟨trivial, fun _ => ih⟩⟩

/-- **Every call of a dispatcher is orderly**, and has picked nothing in turn before it begins. -/
theorem orderly_text (rules : List RouteRule) (call : Call) :
    Orderly (call.resolved (.fromRules rules)) (call.text (.fromRules rules)) ∧
      Unturned (call.resolved (.fromRules rules)) (call.text (.fromRules rules)) := by
  have hdone : ∀ own, Orderly own (pure none) ∧ Unturned own (pure none) := fun own =>
    ⟨within_of_none rfl, fun _ _ _ => rfl⟩
  have hnone : ∀ {α : Type} {p : Action α}, p.Calls Quiet →
      Orderly none (p >>= fun _ => pure none) ∧ Unturned none (p >>= fun _ => pure none) := by
    intro α p hcalls
    exact orderly_bind hcalls p.yields_true fun _ _ => hdone none
  cases call with
  | choose key =>
    unfold Call.text Call.resolved
    dsimp only
    cases hresolution : (RoutingTable.fromRules rules).resolve key with
    | none => exact hdone none
    | some resolution =>
      obtain ⟨hplan, htargets⟩ := plan_of_fromRules hresolution
      exact orderly_choose hplan htargets
  | drop chosen => exact hnone ⟨trivial, fun _ => ⟨trivial, fun _ => ⟨trivial, fun _ => trivial⟩⟩⟩
  | fold => exact hnone ⟨trivial, fun batch => (calls_foldEach batch).bind fun _ => trivial⟩

/-! ### Turns -/

/-- No operation but the taking of a turn of the plan moves its turns. -/
theorem handle_of_ne_takeTurn {location : ℕ} {op : Atomic} (h : op ≠ .takeTurn location) (x : Chance)
    (s : Dispatching) : (handle x op s).1.turns location = s.turns location ∧
      ((handle x op s).1.counts location).turn = (s.counts location).turn := by
  have hcarry : ∀ (other i : ℕ) (f : EndpointLoad → EndpointLoad),
      ((s.carry other i f).counts location).turn = (s.counts location).turn := by
    intro other i f
    show (Function.update s.counts other _ location).turn = _
    by_cases heq : location = other
    · rw [heq, Function.update_self]
    · rw [Function.update_of_ne heq]
  cases op with
  | takeTurn other =>
    have hne : location ≠ other := fun heq => h (by rw [heq])
    simp only [handle, Dispatching.count, Function.update_of_ne hne]
    trivial
  | sent other i => exact ⟨rfl, hcarry other i _⟩
  | done other i => exact ⟨rfl, hcarry other i _⟩
  | writeLatency other i latency => exact ⟨rfl, hcarry other i _⟩
  | _ => exact ⟨rfl, rfl⟩

theorem handle_takeTurn (location : ℕ) (x : Chance) (s : Dispatching) :
    (handle x (.takeTurn location) s).1.turns location
        = s.turns location ++ [(s.counts location).turn] ∧
      ((handle x (.takeTurn location) s).1.counts location).turn = (s.counts location).turn + 1 ∧
      (handle x (.takeTurn location) s).2 = (s.counts location).turn := by
  simp only [handle, Dispatching.count, Function.update_self]
  trivial

/-- What a text of a rule that goes in turn has picked changes only as it takes its turn. -/
theorem picked_next {resolution : Resolution} (hstrategy : resolution.rule.strategy = .roundRobin)
    {op : Atomic} {next : op.Res → Action (Option Chosen)} (hleads : Leads (some resolution) op next)
    (h : ∀ location, op ≠ .takeTurn location) (answer : op.Res) :
    picked (next answer) = picked (.call op next) := by
  cases op with
  | takeTurn location => exact absurd rfl (h location)
  | sent location i => exact hleads
  | _ => exact hleads answer resolution rfl hstrategy

/-- Consecutive turns that do not wrap, as many as there are live endpoints, come to each of them once. -/
theorem perm_live_of_consecutive (rule : RouteRule) (first : UInt64)
    (hroom : first.toNat + (planOf rule).live.length ≤ UInt64.size) :
    (((List.range (planOf rule).live.length).map fun k => first + UInt64.ofNat k).filterMap
      (turnOf rule)).Perm (planOf rule).live := by
  have hturns : ((List.range (planOf rule).live.length).map fun k => first + UInt64.ofNat k).map
      (turnOf rule) = (List.range (planOf rule).live.length).map
        fun k => (planOf rule).live[(first.toNat + k) % (planOf rule).live.length]? := by
    rw [List.map_map]
    apply List.map_congr_left
    intro k hk
    have hlt := List.mem_range.mp hk
    have hsum : (first + UInt64.ofNat k).toNat = first.toNat + k := by
      rw [UInt64.toNat_add, UInt64.toNat_ofNat_of_lt' (by omega)]
      exact Nat.mod_eq_of_lt (show _ < UInt64.size by omega)
    show turnOf rule (first + UInt64.ofNat k) = _
    rw [turnOf, hsum]
  have hpicks : ∀ turns : List UInt64,
      (turns.map (turnOf rule)).filterMap id = turns.filterMap (turnOf rule) := by
    intro turns
    rw [List.filterMap_map]
    rfl
  have hlive : ((planOf rule).live.map some).filterMap id = (planOf rule).live := by
    rw [List.filterMap_map]
    exact List.filterMap_some
  have hperm := (perm_window (planOf rule).live first.toNat).filterMap id
  rw [← hturns, hpicks, hlive] at hperm
  exact hperm

abbrev Underway := Task Call Atomic Atomic.Res (Option Chosen)

/-- The endpoint a request that a rule carries has picked. -/
def pickOf (table : RoutingTable) (rule : RouteRule) (t : Underway) : Option ℕ :=
  if (t.request.resolved table).map Resolution.rule = some rule then (picked t.rest).map Prod.snd else none

section Interleavings

variable {rules : List RouteRule} {s : Dispatching} {calls : List Call} {q : Pool Dispatching Underway}

/-- **The turns a plan hands out are consecutive**, in whatever order the requests come. -/
theorem consecutive_turns (h : Pool.Reach (Task.step handle) Pool.anyStep
      (calling (.fromRules rules) s calls) q) {location : ℕ} (hnone : s.turns location = []) :
    q.shared.turns location = (List.range (q.shared.turns location).length).map
      fun k => (s.counts location).turn + UInt64.ofNat k := by
  refine (h.invariant (I := fun p =>
    p.shared.turns location = (List.range (p.shared.turns location).length).map
      (fun k => (s.counts location).turn + UInt64.ofNat k) ∧
    (p.shared.counts location).turn
      = (s.counts location).turn + UInt64.ofNat (p.shared.turns location).length) ?_ ?_).1
  · show s.turns location = (List.range (s.turns location).length).map _ ∧
      (s.counts location).turn = _ + UInt64.ofNat (s.turns location).length
    rw [hnone]
    exact ⟨rfl, (UInt64.add_zero _).symm⟩
  · rintro s₁ pre t post x s₂ t' ⟨hturns, hcounter⟩ - hstep
    obtain ⟨op, next, -, rfl, -⟩ := Task.step_eq_some.mp hstep
    dsimp only at hturns hcounter ⊢
    by_cases hop : op = .takeTurn location
    · obtain ⟨hnew, hmoved, -⟩ := handle_takeTurn location x s₁
      rw [hop, hnew, hmoved, List.length_append, List.length_singleton, List.range_succ,
        List.map_append, ← hturns, hcounter]
      refine ⟨rfl, ?_⟩
      rw [UInt64.ofNat_add, UInt64.add_assoc]
      rfl
    · obtain ⟨hsame, hstill⟩ := handle_of_ne_takeTurn hop x s₁
      rw [hsame, hstill]
      exact ⟨hturns, hcounter⟩

theorem orderly_of_reach (h : Pool.Reach (Task.step handle) Pool.anyStep
      (calling (.fromRules rules) s calls) q) :
    ∀ t ∈ q.threads, Orderly (t.request.resolved (.fromRules rules)) t.rest := by
  refine (h.local_invariant (S := fun _ => True)
    (T := fun _ t => Orderly (t.request.resolved (.fromRules rules)) t.rest) ⟨trivial, ?_⟩ ?_).2
  · intro t ht
    obtain ⟨call, -, rfl⟩ := List.mem_map.mp ht
    exact (orderly_text rules call).1
  · rintro s₁ pre t post x s₂ t' ⟨-, horderly⟩ - hstep
    obtain ⟨op, next, hrest, rfl, rfl⟩ := Task.step_eq_some.mp hstep
    have ht : Orderly _ t.rest := horderly t (List.mem_append_right _ (List.mem_cons_self ..))
    rw [hrest] at ht
    exact ⟨trivial, ht.2.2 _, fun _ => id⟩

/-- A request that has not begun has picked nothing of a rule that goes in turn. -/
theorem pickOf_calling {rule : RouteRule} (hstrategy : rule.strategy = .roundRobin) :
    ∀ t ∈ (calling (.fromRules rules) s calls).threads, pickOf (.fromRules rules) rule t = none := by
  intro t ht
  obtain ⟨call, -, rfl⟩ := List.mem_map.mp ht
  unfold pickOf
  split
  · rename_i hrule
    obtain ⟨own, hown, rfl⟩ := Option.map_eq_some_iff.mp hrule
    rw [show picked (Task.of (Call.text (.fromRules rules)) call).rest = none from
      (orderly_text rules call).2 own hown hstrategy]
    rfl
  · rfl

theorem shared_of_resolved {key : RouteKey} {resolution own : Resolution} {call : Call}
    (hresolved : (RoutingTable.fromRules rules).resolve key = some resolution)
    (hown : call.resolved (.fromRules rules) = some own) :
    resolution.location = own.location ↔ resolution.rule = own.rule := by
  cases call with
  | choose other => exact location_eq_iff hresolved hown
  | drop chosen => cases hown
  | fold => cases hown

/-- **One step of a request**: what the requests of a rule that goes in turn have picked grows by the
endpoint whose turn it is as one of them takes its turn at the plan they share, and not otherwise. -/
theorem pickOf_next {key : RouteKey} {resolution : Resolution}
    (hresolved : (RoutingTable.fromRules rules).resolve key = some resolution)
    (hstrategy : resolution.rule.strategy = .roundRobin) {t : Underway} {op : Atomic}
    {next : op.Res → Action (Option Chosen)} (hrest : t.rest = .call op next)
    (hleads : Leads (t.request.resolved (.fromRules rules)) op next) (x : Chance) (s₁ : Dispatching) :
    (∃ i, pickOf (.fromRules rules) resolution.rule t = none ∧
        pickOf (.fromRules rules) resolution.rule ⟨t.request, true, next (handle x op s₁).2⟩ = some i ∧
        turnOf resolution.rule (s₁.counts resolution.location).turn = some i ∧
        (handle x op s₁).1.turns resolution.location
          = s₁.turns resolution.location ++ [(s₁.counts resolution.location).turn]) ∨
      pickOf (.fromRules rules) resolution.rule ⟨t.request, true, next (handle x op s₁).2⟩
          = pickOf (.fromRules rules) resolution.rule t ∧
        (handle x op s₁).1.turns resolution.location = s₁.turns resolution.location := by
  by_cases hmine : (t.request.resolved (.fromRules rules)).map Resolution.rule = some resolution.rule
  · obtain ⟨own, hown, hrule⟩ := Option.map_eq_some_iff.mp hmine
    have hlocation : resolution.location = own.location := (shared_of_resolved hresolved hown).mpr hrule.symm
    simp only [pickOf, if_pos hmine, hrest]
    rw [hown] at hleads
    by_cases hturn : ∃ location, op = .takeTurn location
    · obtain ⟨location, rfl⟩ := hturn
      obtain ⟨same, hsame, hat, hpicks⟩ := hleads
      cases hsame
      rw [← hlocation] at hat
      subst hat
      obtain ⟨hnew, -, hanswer⟩ := handle_takeTurn resolution.location x s₁
      obtain ⟨i, hi, hpicked⟩ := hpicks (handle x (.takeTurn resolution.location) s₁).2
      rw [hrule, hanswer] at hi
      exact .inl ⟨i, rfl, by rw [hpicked]; rfl, hi, hnew⟩
    · have hne : ∀ location, op ≠ .takeTurn location := fun location heq => hturn ⟨location, heq⟩
      rw [← hrule] at hstrategy
      rw [picked_next hstrategy hleads hne]
      exact .inr ⟨rfl, (handle_of_ne_takeTurn (hne _) x s₁).1⟩
  · refine .inr ⟨(if_neg hmine).trans (if_neg hmine).symm, (handle_of_ne_takeTurn ?_ x s₁).1⟩
    -- a call that takes a turn takes it at the plan of what it was resolved to
    rintro rfl
    obtain ⟨own, hown, hat, -⟩ := hleads
    exact hmine (by rw [hown, Option.map_some, ← (shared_of_resolved hresolved hown).mp hat])

/-- **What the requests of a rule that goes in turn have picked is what the turns taken at the plan they
share come to.**  A step that takes a turn there adds its endpoint on both sides; no other step touches
either. -/
theorem picks_perm_turns (h : Pool.Reach (Task.step handle) Pool.anyStep
      (calling (.fromRules rules) s calls) q) {key : RouteKey} {resolution : Resolution}
    (hresolved : (RoutingTable.fromRules rules).resolve key = some resolution)
    (hstrategy : resolution.rule.strategy = .roundRobin) (hnone : s.turns resolution.location = []) :
    (q.threads.filterMap (pickOf (.fromRules rules) resolution.rule)).Perm
      ((q.shared.turns resolution.location).filterMap (turnOf resolution.rule)) := by
  refine (h.invariant (I := fun p =>
    (∀ t ∈ p.threads, Orderly (t.request.resolved (.fromRules rules)) t.rest) ∧
    (p.threads.filterMap (pickOf (.fromRules rules) resolution.rule)).Perm
      ((p.shared.turns resolution.location).filterMap (turnOf resolution.rule))) ?_ ?_).2
  · refine ⟨orderly_of_reach .refl, ?_⟩
    show List.Perm _ ((s.turns resolution.location).filterMap _)
    rw [hnone, List.filterMap_eq_nil_iff.mpr (pickOf_calling hstrategy)]
    exact List.Perm.refl _
  · rintro s₁ pre t post x s₂ t' ⟨horderly, hperm⟩ - hstep
    obtain ⟨op, next, hrest, rfl, rfl⟩ := Task.step_eq_some.mp hstep
    dsimp only at horderly hperm ⊢
    have ht := horderly t (List.mem_append_right _ (List.mem_cons_self ..))
    rw [hrest] at ht
    refine ⟨Pool.forall_moved horderly (ht.2.2 _) fun _ => id, ?_⟩
    rw [List.filterMap_append, List.filterMap_cons] at hperm ⊢
    rcases pickOf_next hresolved hstrategy hrest ht.2.1 x s₁ with
      ⟨i, hbefore, hafter, hturn, hturns⟩ | ⟨hsame, hturns⟩
    · rw [hbefore] at hperm
      rw [hafter, hturns, List.filterMap_append, List.filterMap_cons, hturn, List.filterMap_nil]
      refine List.perm_middle.trans ((hperm.cons i).trans ?_)
      exact (List.perm_append_singleton i _).symm
    · rw [hsame, hturns]
      exact hperm

/-- A stretch of the turns handed out, as many as there are live endpoints, comes to each of them once. -/
theorem perm_live_of_window (h : Pool.Reach (Task.step handle) Pool.anyStep
      (calling (.fromRules rules) s calls) q) (rule : RouteRule) {location : ℕ}
    (hnone : s.turns location = []) {k : ℕ} {first : UInt64}
    (hfirst : (q.shared.turns location)[k]? = some first)
    (hlong : k + (planOf rule).live.length ≤ (q.shared.turns location).length)
    (hroom : first.toNat + (planOf rule).live.length ≤ UInt64.size) :
    ((((q.shared.turns location).drop k).take (planOf rule).live.length).filterMap (turnOf rule)).Perm
      (planOf rule).live := by
  have hturns := consecutive_turns h hnone
  have hwindow : ((q.shared.turns location).drop k).take (planOf rule).live.length
      = (List.range (planOf rule).live.length).map fun m => first + UInt64.ofNat m := by
    apply List.ext_getElem
    · simp only [List.length_take, List.length_drop, List.length_map, List.length_range]
      omega
    · intro m hm hm'
      simp only [List.length_map, List.length_range] at hm'
      have hget : ∀ n, n < (q.shared.turns location).length →
          (q.shared.turns location)[n]? = some ((s.counts location).turn + UInt64.ofNat n) := by
        intro n hn
        rw [hturns]
        simp [hn]
      have hk := hget k (by omega)
      have hkm := hget (k + m) (by omega)
      rw [hfirst, Option.some.injEq] at hk
      rw [List.getElem?_eq_getElem (by omega), Option.some.injEq] at hkm
      rw [List.getElem_take, List.getElem_drop, hkm, List.getElem_map, List.getElem_range, hk,
        UInt64.ofNat_add, UInt64.add_assoc]
  rw [hwindow]
  exact perm_live_of_consecutive rule first hroom

end Interleavings

/-- **Round robin is fair under concurrency.**  Every resolution of a rule against one table counts on the
plan the table made for that rule, and no other rule's does.  So along every interleaving of requests, those
the rule carries have picked what the turns of that one plan come to; the turns are consecutive; and any
stretch of them as long as there are live endpoints, in which the counter does not wrap, comes to each live
endpoint once and to no other. -/
theorem each_live_once (rules : List RouteRule) (s : Dispatching) (calls : List Call)
    {q : Pool Dispatching Underway}
    (h : Pool.Reach (Task.step handle) Pool.anyStep (calling (.fromRules rules) s calls) q)
    {key : RouteKey} {resolution : Resolution}
    (hresolved : (RoutingTable.fromRules rules).resolve key = some resolution)
    (hstrategy : resolution.rule.strategy = .roundRobin) (hnone : s.turns resolution.location = []) :
    (∀ key' other, (RoutingTable.fromRules rules).resolve key' = some other →
        (resolution.location = other.location ↔ resolution.rule = other.rule)) ∧
      (q.threads.filterMap (pickOf (.fromRules rules) resolution.rule)).Perm
        ((q.shared.turns resolution.location).filterMap (turnOf resolution.rule)) ∧
      q.shared.turns resolution.location
        = (List.range (q.shared.turns resolution.location).length).map
          (fun k => (s.counts resolution.location).turn + UInt64.ofNat k) ∧
      ∀ (k : ℕ) (first : UInt64), (q.shared.turns resolution.location)[k]? = some first →
        k + (planOf resolution.rule).live.length ≤ (q.shared.turns resolution.location).length →
        first.toNat + (planOf resolution.rule).live.length ≤ UInt64.size →
        ((((q.shared.turns resolution.location).drop k).take
          (planOf resolution.rule).live.length).filterMap (turnOf resolution.rule)).Perm
            (planOf resolution.rule).live :=
  ⟨fun _ _ hother => location_eq_iff hresolved hother, picks_perm_turns h hresolved hstrategy hnone,
    consecutive_turns h hnone,
    fun _ _ hfirst hlong hroom => perm_live_of_window h _ hnone hfirst hlong hroom⟩

/-- A rule of the examples over endpoints with these shares. -/
def spreading (strategy : Strategy) (share : UInt32) (shares : List UInt32) : RouteRule :=
  { configuredRule with
    target := ⟨Plan.weighing (share :: shares), List.cons_ne_nil _ _⟩
    strategy }

/-- Nothing drawn, and no time gone by. -/
def noChance : Chance := ⟨none, 0⟩

/-- Two requests for one path and one for a path below it, all carried by one rule. -/
def threeCalls : List Call := [.choose configuredRule.key, .choose messagesKey, .choose configuredRule.key]

/-- Two requests for different paths take their turns one after the other at the plan they share, and are
counted in the other order; a third is underway with a turn of its own.  Of three endpoints the drained one
is left out. -/
theorem each_live_once_of_three :
    ∃ q, Pool.Reach (Task.step handle) Pool.anyStep
        (calling (.fromRules [spreading .roundRobin 2 [0, 1]]) (.fresh [spreading .roundRobin 2 [0, 1]])
          threeCalls) q ∧
      q.shared.turns 0 = [0, 1, 2] ∧
      (q.threads.filterMap (pickOf (.fromRules [spreading .roundRobin 2 [0, 1]])
        (spreading .roundRobin 2 [0, 1]))).Perm [0, 2, 0] ∧
      ((([0, 1, 2] : List UInt64).drop 1).take 2).filterMap
        (turnOf (spreading .roundRobin 2 [0, 1])) = [2, 0] ∧ List.Perm [2, 0] [0, 2] := by
  have hrun : (Pool.run (Task.step handle) Pool.anyStep
      (calling (.fromRules [spreading .roundRobin 2 [0, 1]]) (.fresh [spreading .roundRobin 2 [0, 1]])
        threeCalls)
      [(0, noChance), (1, noChance), (1, noChance), (0, noChance), (2, noChance)]).any
        (fun q => q.shared.turns 0 == [0, 1, 2]) = true := by
    decide +kernel
  have hresolved : ((RoutingTable.fromRules [spreading .roundRobin 2 [0, 1]]).resolve messagesKey).isSome
      = true := by decide +kernel
  obtain ⟨q, hreach, htest⟩ := Pool.exists_reach_of_run hrun
  obtain ⟨resolution, hresolution⟩ := Option.isSome_iff_exists.mp hresolved
  obtain ⟨hrule, hlocation⟩ := placed_alone hresolution
  have hturns : q.shared.turns 0 = [0, 1, 2] := beq_iff_eq.mp htest
  obtain ⟨-, hpicks, -, hwindow⟩ := each_live_once _ _ _ hreach hresolution (by rw [hrule]; rfl) rfl
  rw [hrule, hlocation] at hpicks hwindow
  have hlive := hwindow 1 1 (by rw [hturns]; rfl) (by rw [hturns]; decide +kernel) (by decide +kernel)
  rw [hturns] at hpicks hlive
  exact ⟨q, hreach, hturns, hpicks, by decide +kernel, hlive⟩

/-! ### Drained endpoints -/

/-- **A drained endpoint gets nothing while another can take it**, whatever the strategy, the draws and the
order the requests come in; and where every endpoint is drained, a rule that goes in turn reaches each of
them once in any stretch of as many turns. -/
theorem drained_gets_nothing (rules : List RouteRule) (s : Dispatching) (calls : List Call)
    {q : Pool Dispatching Underway}
    (h : Pool.Reach (Task.step handle) Pool.anyStep (calling (.fromRules rules) s calls) q) :
    (∀ t ∈ q.threads, ∀ location i, picked t.rest = some (location, i) →
        ∃ resolution, t.request.resolved (.fromRules rules) = some resolution ∧
          location = resolution.location ∧
          (Plan.shareAt resolution.rule.target.weighted i = 0 →
            Plan.AllDrained resolution.rule.target.weighted)) ∧
      ∀ key resolution, (RoutingTable.fromRules rules).resolve key = some resolution →
        resolution.rule.strategy = .roundRobin → s.turns resolution.location = [] →
        Plan.AllDrained resolution.rule.target.weighted →
        (q.threads.filterMap (pickOf (.fromRules rules) resolution.rule)).Perm
            ((q.shared.turns resolution.location).filterMap (turnOf resolution.rule)) ∧
          ∀ (k : ℕ) (first : UInt64), (q.shared.turns resolution.location)[k]? = some first →
            k + resolution.rule.target.weighted.length ≤ (q.shared.turns resolution.location).length →
            first.toNat + resolution.rule.target.weighted.length ≤ UInt64.size →
            ((((q.shared.turns resolution.location).drop k).take
              resolution.rule.target.weighted.length).filterMap (turnOf resolution.rule)).Perm
                (List.range resolution.rule.target.weighted.length) := by
  constructor
  · intro t ht location i hpicked
    obtain ⟨resolution, hown, hlocation, hlive⟩ := (orderly_of_reach h t ht).within location i hpicked
    exact ⟨resolution, hown, hlocation, Plan.allDrained_of_mem_live hlive⟩
  · intro key resolution hresolved hstrategy hnone hdrained
    have hlive : (planOf resolution.rule).live = List.range resolution.rule.target.weighted.length :=
      Plan.live_of_allDrained hdrained
    have hlength : (planOf resolution.rule).live.length = resolution.rule.target.weighted.length := by
      rw [hlive, List.length_range]
    refine ⟨picks_perm_turns h hresolved hstrategy hnone, ?_⟩
    intro k first hfirst hlong hroom
    rw [← hlength] at hlong hroom ⊢
    rw [hlength, ← hlive, ← hlength]
    exact perm_live_of_window h _ hnone hfirst hlong hroom

/-- **A ratio rule sends everything to its first endpoint once all are drained**: of two endpoints the
second is never reached, however many requests come one after the other. -/
theorem drained_ratio_reaches_one :
    Plan.AllDrained (spreading .ratio 0 [0]).target.weighted ∧
      ∃ q, Pool.Reach (Task.step handle) Pool.anyStep
          (calling (.fromRules [spreading .ratio 0 [0]]) (.fresh [spreading .ratio 0 [0]])
            (List.replicate 2 (.choose configuredRule.key))) q ∧
        (q.threads.all fun t => t.rest.returned) = true ∧
        q.threads.filterMap (pickOf (.fromRules [spreading .ratio 0 [0]]) (spreading .ratio 0 [0]))
          = [0, 0] ∧
        ¬ List.Perm [0, 0] (List.range (spreading .ratio 0 [0]).target.weighted.length) := by
  have hrun : (Pool.run (Task.step handle) Pool.anyStep
      (calling (.fromRules [spreading .ratio 0 [0]]) (.fresh [spreading .ratio 0 [0]])
        (List.replicate 2 (.choose configuredRule.key))) [(0, noChance), (1, noChance)]).any
        (fun q => (q.threads.all fun t => t.rest.returned) &&
          q.threads.filterMap (pickOf (.fromRules [spreading .ratio 0 [0]]) (spreading .ratio 0 [0]))
            == [0, 0]) = true := by
    decide +kernel
  obtain ⟨q, hreach, htest⟩ := Pool.exists_reach_of_run hrun
  obtain ⟨hreturned, hpicks⟩ := Bool.and_eq_true_iff.mp htest
  refine ⟨?_, q, hreach, hreturned, beq_iff_eq.mp hpicks, by decide +kernel⟩
  intro i
  rcases i with _ | _ | i <;> rfl

/-- Two drained endpoints are reached in turn by a rule that goes in turn. -/
theorem drained_gets_nothing_of_two :
    Plan.AllDrained (spreading .roundRobin 0 [0]).target.weighted ∧
      ∃ q, Pool.Reach (Task.step handle) Pool.anyStep
          (calling (.fromRules [spreading .roundRobin 0 [0]]) (.fresh [spreading .roundRobin 0 [0]])
            (List.replicate 2 (.choose configuredRule.key))) q ∧
        q.shared.turns 0 = [0, 1] ∧
        (q.threads.filterMap (pickOf (.fromRules [spreading .roundRobin 0 [0]])
          (spreading .roundRobin 0 [0]))).Perm [0, 1] := by
  have hrun : (Pool.run (Task.step handle) Pool.anyStep
      (calling (.fromRules [spreading .roundRobin 0 [0]]) (.fresh [spreading .roundRobin 0 [0]])
        (List.replicate 2 (.choose configuredRule.key))) [(0, noChance), (1, noChance)]).any
        (fun q => q.shared.turns 0 == [0, 1]) = true := by
    decide +kernel
  have hdrained : Plan.AllDrained (spreading .roundRobin 0 [0]).target.weighted := by
    intro i
    rcases i with _ | _ | i <;> rfl
  have hresolved : ((RoutingTable.fromRules [spreading .roundRobin 0 [0]]).resolve configuredRule.key).isSome
      = true := by decide +kernel
  obtain ⟨q, hreach, htest⟩ := Pool.exists_reach_of_run hrun
  obtain ⟨resolution, hresolution⟩ := Option.isSome_iff_exists.mp hresolved
  obtain ⟨hrule, hlocation⟩ := placed_alone hresolution
  have hturns : q.shared.turns 0 = [0, 1] := beq_iff_eq.mp htest
  obtain ⟨hpicks, -⟩ := (drained_gets_nothing _ _ _ hreach).2 _ resolution hresolution
    (by rw [hrule]; rfl) rfl (by rw [hrule]; exact hdrained)
  rw [hrule, hlocation, hturns] at hpicks
  exact ⟨hdrained, q, hreach, hturns, hpicks⟩

end IntelliPrism.Dispatch
