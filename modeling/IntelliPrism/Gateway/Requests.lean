import IntelliPrism.Gateway.Limiter

/-!
# Requests on their way: the limiter's calls one at a time

Many requests are admitted, answered and recorded at once.  `Stage` is where one of them stands: the
call it waits for next, with the locals it carries there, so that what it was decided and what it has
yet to count can be read off.

* `Request.work` — the program text that is left at a stage;
* `step_work` — **a stage steps exactly as its program text does**, so whatever holds of every
  interleaving of stages holds of the limiter as it is written;
* `Onward` — a property of wherever a walk can stand next, from its cases;
* `Thread` — a request, or a loss of one cached count, as the threads of a pool.
-/

namespace IntelliPrism.Gateway

open IntelliPrism.Lib IntelliPrism.Core IntelliPrism.Cache

/-- A request: who asks, under which limits, in which orders its two walks over them go, and what its
answer costs, or nothing when it fails upstream. -/
structure Request where
  asking : Asking
  limits : List Limit
  admitOrder : HashOrder
  spendOrder : HashOrder
  outcome : Option Tokens

/-- Where a request stands. -/
inductive Stage where
  /-- `admit` is about to read the clock. -/
  | arriving
  /-- `seeded` is about to ask for the count. -/
  | asking (now : Timestamp) (limit : Limit) (rest : List Limit)
  /-- `seeded` is about to sum the rows. -/
  | summing (now : Timestamp) (limit : Limit) (rest : List Limit)
  /-- `seeded` is about to seed the count with the sum. -/
  | seeding (now : Timestamp) (limit : Limit) (rest : List Limit) (start : ℕ)
  /-- `rate` is about to count the request. -/
  | counting (now : Timestamp) (limit : Limit) (rest : List Limit)
  | refused (decision : Decision)
  /-- Admitted and answered; the row is about to be written. -/
  | admitted
  /-- The row is written; `spend` is about to read the clock. -/
  | spending
  /-- `spend` is about to count the tokens towards a quota. -/
  | adding (now : Timestamp) (limit : Limit) (rest : List Limit)
  /-- Nothing is left to do for a request that was admitted. -/
  | finished
  deriving DecidableEq

/-- The walk of `spend` goes on to the next quota. -/
def addFrom (now : Timestamp) : List Limit → Stage
  | [] => .finished
  | limit :: rest => if limit.counted ≠ .tokens then addFrom now rest else .adding now limit rest

namespace Request

variable (r : Request)

/-- An admitted request is recorded once it is answered, and not at all when it fails. -/
def goesOn : Stage :=
  match r.outcome with
  | some _ => .admitted
  | none => .finished

/-- The walk of `admit` goes on to the next limit. -/
def visitFrom (now : Timestamp) : List Limit → Stage
  | [] => r.goesOn
  | limit :: rest => .asking now limit rest

def decided (now : Timestamp) (rest : List Limit) (decision : Decision) : Stage :=
  if decision = .allowed then r.visitFrom now rest else .refused decision

/-- A limit's count has been read, or could not be. -/
def judged (now : Timestamp) (limit : Limit) (rest : List Limit) (read : Except Unreadable ℕ) : Stage :=
  match limit.counted, read with
  | .requests, .error _ => r.decided now rest .allowed
  | .requests, .ok _ => .counting now limit rest
  | .tokens, .error unreadable => r.decided now rest (.unknown unreadable.display)
  | .tokens, .ok read =>
    r.decided now rest (if limit.allowance.isSpent read then spent limit now else .allowed)

/-- One atomic step of a request, or nothing once it is over. -/
def step (x : Weather) (w : World) : Stage → Option (World × Stage)
  | .arriving => some (w, r.visitFrom x.now (applyingTo r.admitOrder r.limits r.asking))
  | .asking now limit rest =>
    let answer := handle x (.counted (counter limit now).1) w
    some (answer.1, match answer.2 with
      | .error fault => r.judged now limit rest (.error (.cache fault))
      | .ok (some counted) => r.judged now limit rest (.ok counted)
      | .ok none => .summing now limit rest)
  | .summing now limit rest =>
    let answer := handle x (.spent (filter limit.scope) limit.counted (limit.period.began now)) w
    some (answer.1, match answer.2 with
      | .error fault => r.judged now limit rest (.error (.store fault))
      | .ok start => .seeding now limit rest start)
  | .seeding now limit rest start =>
    let answer := handle x (.seed (counter limit now).1 start (counter limit now).2) w
    some (answer.1, match answer.2 with
      | .error fault => r.judged now limit rest (.error (.cache fault))
      | .ok held => r.judged now limit rest (.ok held))
  | .counting now limit rest =>
    let answer := handle x (.count (counter limit now).1 1 (counter limit now).2) w
    some (answer.1, r.decided now rest (match answer.2 with
      | .error _ => .allowed
      | .ok made => if made > limit.allowance.get then spent limit now else .allowed))
  | .refused _ => none
  | .admitted =>
    r.outcome.map fun tokens =>
      let answer := handle x (.recordUsage ⟨r.asking, tokens⟩) w
      (answer.1, if tokens.total = 0 then .finished else .spending)
  | .spending => some (w, addFrom x.now (applyingTo r.spendOrder r.limits r.asking))
  | .adding now limit rest =>
    r.outcome.map fun tokens =>
      let answer := handle x (.count (counter limit now).1 tokens.total (counter limit now).2) w
      (answer.1, addFrom now rest)
  | .finished => none

/-! ### The program text that is left -/

def carry (decision : Decision) : Work Unit :=
  match decision, r.outcome with
  | .allowed, some tokens => record r.spendOrder r.limits r.asking tokens
  | _, _ => return ()

/-- A request from its admission to the record of its answer. -/
def serve : Work Unit := do
  let decision ← admitRequest r.admitOrder r.limits r.asking
  r.carry decision

/-- What follows one limit's decision. -/
def visited (now : Timestamp) (rest : List Limit) (decision : Decision) : Work Unit :=
  (if decision = .allowed then visit now rest else pure decision) >>= r.carry

/-- What follows the reading of one limit's count. -/
def read (now : Timestamp) (limit : Limit) (rest : List Limit) (read : Except Unreadable ℕ) :
    Work Unit :=
  (match limit.counted with
    | .requests => rateRead limit now read
    | .tokens => quotaRead limit now read) >>= r.visited now rest

/-- What is left of a request at a stage. -/
def work : Stage → Work Unit
  | .arriving => r.serve
  | .asking now limit rest => do
    r.read now limit rest (← seeded limit now (counter limit now).1 (counter limit now).2)
  | .summing now limit rest => do
    r.read now limit rest (← seedFromRows limit now (counter limit now).1 (counter limit now).2)
  | .seeding now limit rest start => do
    r.read now limit rest (← seedFrom (counter limit now).1 (counter limit now).2 start)
  | .counting now limit rest => do
    r.visited now rest (← countRequest limit now)
  | .refused _ => return ()
  | .admitted => r.carry .allowed
  | .spending =>
    match r.outcome with
    | some tokens => spend r.spendOrder r.limits r.asking tokens.total
    | none => return ()
  | .adding now limit rest =>
    match r.outcome with
    | some tokens => add now tokens.total (limit :: rest)
    | none => return ()
  | .finished => return ()

/-- What a stage's locals say: `spend` walks with tokens to count, and stops at quotas only. -/
def Proper : Stage → Prop
  | .spending => ∃ tokens, r.outcome = some tokens ∧ tokens.total ≠ 0
  | .adding _ limit _ => limit.counted = .tokens ∧ ∃ tokens, r.outcome = some tokens ∧ tokens.total ≠ 0
  | _ => True

variable {r} {x : Weather} {w w' : World} {stage stage' : Stage}

theorem work_visitFrom (now : Timestamp) (rest : List Limit) :
    r.work (r.visitFrom now rest) = visit now rest >>= r.carry := by
  cases rest with
  | nil =>
    unfold visitFrom goesOn
    cases h : r.outcome <;> simp [work, carry, visit, h]
  | cons limit rest =>
    obtain ⟨scope, counted, period, allowance⟩ := limit
    cases counted <;>
      simp only [visitFrom, work, visit, check, rate, quota, read, bind_assoc] <;> rfl

theorem work_decided (now : Timestamp) (rest : List Limit) (decision : Decision) :
    r.work (r.decided now rest decision) = r.visited now rest decision := by
  unfold decided visited
  split
  · exact work_visitFrom now rest
  · rename_i hne
    cases decision with
    | allowed => exact absurd rfl hne
    | spent counted period allowance ends => rfl
    | unknown detail => rfl

theorem work_judged (now : Timestamp) (limit : Limit) (rest : List Limit)
    (read : Except Unreadable ℕ) :
    r.work (r.judged now limit rest read) = r.read now limit rest read := by
  obtain ⟨scope, counted, period, allowance⟩ := limit
  cases counted <;> cases read
  case requests.ok => rfl
  all_goals exact work_decided now rest _

theorem work_addFrom (now : Timestamp) (rest : List Limit) {tokens : Tokens}
    (h : r.outcome = some tokens) : r.work (addFrom now rest) = add now tokens.total rest := by
  induction rest with
  | nil => rfl
  | cons limit rest ih =>
    unfold addFrom
    split
    · rename_i hcounted
      rw [ih, add, if_pos hcounted]
    · simp only [work, h]

/-- **A stage steps exactly as its program text does.** -/
theorem step_work (hproper : r.Proper stage) :
    Process.step handle x w (r.work stage)
      = (r.step x w stage).map fun next => (next.1, r.work next.2) := by
  cases stage with
  | arriving =>
    simp only [step, Option.map_some, work_visitFrom]
    rfl
  | asking now limit rest =>
    refine congrArg some (Prod.ext rfl ?_)
    cases (handle x (.counted (counter limit now).1) w).2 with
    | error fault => exact (work_judged now limit rest _).symm
    | ok held =>
      cases held with
      | some counted => exact (work_judged now limit rest _).symm
      | none => rfl
  | summing now limit rest =>
    refine congrArg some (Prod.ext rfl ?_)
    cases (handle x (.spent (filter limit.scope) limit.counted (limit.period.began now)) w).2 with
    | error fault => exact (work_judged now limit rest _).symm
    | ok start => rfl
  | seeding now limit rest start =>
    refine congrArg some (Prod.ext rfl ?_)
    cases (handle x (.seed (counter limit now).1 start (counter limit now).2) w).2 with
    | error fault => exact (work_judged now limit rest _).symm
    | ok held => exact (work_judged now limit rest _).symm
  | counting now limit rest =>
    refine congrArg some (Prod.ext rfl ?_)
    cases (handle x (.count (counter limit now).1 1 (counter limit now).2) w).2 with
    | error fault => exact (work_decided now rest _).symm
    | ok made => exact (work_decided now rest _).symm
  | refused decision => rfl
  | admitted =>
    cases houtcome : r.outcome with
    | none =>
      simp only [work, carry, step, houtcome]
      rfl
    | some tokens =>
      simp only [work, carry, step, houtcome, record, Option.map_some]
      refine congrArg some (Prod.ext rfl ?_)
      by_cases hzero : tokens.total = 0
      · simp only [if_pos hzero, spend]
        rfl
      · simp only [if_neg hzero]
        rfl
  | spending =>
    obtain ⟨tokens, houtcome, htotal⟩ := hproper
    simp only [step, Option.map_some, work_addFrom _ _ houtcome]
    simp only [work, houtcome, spend, if_neg htotal]
    rfl
  | adding now limit rest =>
    obtain ⟨hcounted, tokens, houtcome, -⟩ := hproper
    simp only [step, houtcome, Option.map_some, work_addFrom _ _ houtcome]
    simp only [work, houtcome, add, hcounted]
    rfl
  | finished => rfl

/-- What holds wherever a walk of `admit` over these limits can stand next. -/
structure Onward (P : Stage → Prop) (now : Timestamp) (rest : List Limit) : Prop where
  asking : ∀ limit later, rest = limit :: later → P (.asking now limit later)
  refused : ∀ decision, P (.refused decision)
  admitted : P .admitted
  finished : P .finished

section Onward

variable {P : Stage → Prop} {now : Timestamp} {rest : List Limit}

theorem Onward.goesOn (h : Onward P now rest) (r : Request) : P r.goesOn := by
  unfold Request.goesOn
  split
  · exact h.admitted
  · exact h.finished

theorem Onward.visitFrom (h : Onward P now rest) (r : Request) : P (r.visitFrom now rest) := by
  cases rest with
  | nil => exact h.goesOn r
  | cons limit later => exact h.asking limit later rfl

theorem Onward.decided (h : Onward P now rest) (r : Request) (decision : Decision) :
    P (r.decided now rest decision) := by
  unfold Request.decided
  split
  · exact h.visitFrom r
  · exact h.refused decision

theorem Onward.judged (h : Onward P now rest) (r : Request) {limit : Limit}
    (hcounting : limit.counted = .requests → P (.counting now limit rest))
    (read : Except Unreadable ℕ) : P (r.judged now limit rest read) := by
  unfold Request.judged
  split
  · exact h.decided r _
  · exact hcounting (by assumption)
  · exact h.decided r _
  · exact h.decided r _

end Onward

theorem onward_proper (now : Timestamp) (rest : List Limit) : Onward r.Proper now rest where
  asking _ _ _ := trivial
  refused _ := trivial
  admitted := trivial
  finished := trivial

theorem proper_addFrom (now : Timestamp) (rest : List Limit)
    (h : ∃ tokens, r.outcome = some tokens ∧ tokens.total ≠ 0) : r.Proper (addFrom now rest) := by
  induction rest with
  | nil => trivial
  | cons limit rest ih =>
    unfold addFrom
    split
    · exact ih
    · rename_i hcounted
      exact ⟨not_not.mp hcounted, h⟩

theorem step_proper (hproper : r.Proper stage) (h : r.step x w stage = some (w', stage')) :
    r.Proper stage' := by
  cases stage <;> simp only [step, Option.some.injEq, Prod.mk.injEq, reduceCtorEq] at h
  case arriving =>
    obtain ⟨-, rfl⟩ := h
    exact (onward_proper _ _).visitFrom r
  case asking now limit rest =>
    obtain ⟨-, rfl⟩ := h
    split
    · exact (onward_proper now rest).judged r (fun _ => trivial) _
    · exact (onward_proper now rest).judged r (fun _ => trivial) _
    · trivial
  case summing now limit rest =>
    obtain ⟨-, rfl⟩ := h
    split
    · exact (onward_proper now rest).judged r (fun _ => trivial) _
    · trivial
  case seeding now limit rest start =>
    obtain ⟨-, rfl⟩ := h
    split <;> exact (onward_proper now rest).judged r (fun _ => trivial) _
  case counting now limit rest =>
    obtain ⟨-, rfl⟩ := h
    exact (onward_proper now rest).decided r _
  case admitted =>
    obtain ⟨tokens, houtcome, h⟩ := Option.map_eq_some_iff.mp h
    obtain ⟨-, rfl⟩ := Prod.mk.inj h
    split
    · trivial
    · rename_i htotal
      exact ⟨tokens, houtcome, htotal⟩
  case spending =>
    obtain ⟨-, rfl⟩ := h
    exact proper_addFrom _ _ hproper
  case adding now limit rest =>
    obtain ⟨tokens, houtcome, h⟩ := Option.map_eq_some_iff.mp h
    obtain ⟨-, rfl⟩ := Prod.mk.inj h
    exact proper_addFrom _ _ hproper.2

/-! ### Steps while nothing fails -/

section Fair

variable {now : Timestamp} {limit : Limit} {rest : List Limit} (hfair : x.fault = none)
include hfair

theorem step_asking : r.step x w (.asking now limit rest)
    = some (w, match w.counts (counter limit now).1 with
        | some counted => r.judged now limit rest (.ok counted)
        | none => .summing now limit rest) := by
  simp only [step, handle, hfair]
  cases w.counts (counter limit now).1 <;> rfl

theorem step_summing : r.step x w (.summing now limit rest)
    = some (w, .seeding now limit rest
        (spentIn w.rows (filter limit.scope) limit.counted (limit.period.began now))) := by
  simp only [step, handle, hfair]

theorem step_seeding (start : ℕ) : r.step x w (.seeding now limit rest start)
    = some (w.setCount (counter limit now).1 (some ((w.counts (counter limit now).1).getD start)),
        r.judged now limit rest (.ok ((w.counts (counter limit now).1).getD start))) := by
  simp only [step, handle, hfair]

theorem step_counting : r.step x w (.counting now limit rest)
    = some (w.setCount (counter limit now).1 (some ((w.counts (counter limit now).1).getD 0 + 1)),
        r.decided now rest (if (w.counts (counter limit now).1).getD 0 + 1 > limit.allowance.get
          then spent limit now else .allowed)) := by
  simp only [step, handle, hfair]

theorem step_admitted {tokens : Tokens} (houtcome : r.outcome = some tokens) :
    r.step x w .admitted
      = some ({ w with rows := w.rows ++ [⟨r.asking, tokens, x.now⟩] },
          if tokens.total = 0 then .finished else .spending) := by
  simp only [step, handle, hfair, houtcome, Option.map_some]

theorem step_adding {tokens : Tokens} (houtcome : r.outcome = some tokens) :
    r.step x w (.adding now limit rest)
      = some (w.setCount (counter limit now).1
          (some ((w.counts (counter limit now).1).getD 0 + tokens.total)), addFrom now rest) := by
  simp only [step, handle, hfair, houtcome, Option.map_some]

end Fair

end Request

/-! ### Threads -/

/-- A request on its way, or a count the cache is about to lose. -/
inductive Thread where
  | request (r : Request) (stage : Stage)
  | losing (key : CacheKey)
  | lost

namespace Thread

/-- One atomic step of a thread, or nothing once it is over. -/
def step : Program Weather World Thread := fun x w t =>
  match t with
  | .request r stage => (r.step x w stage).map fun next => (next.1, .request r next.2)
  | .losing key => some (w.setCount key none, .lost)
  | .lost => none

end Thread

end IntelliPrism.Gateway
