import IntelliPrism.Core.Calendar
import IntelliPrism.Gateway.Limiter

/-!
# Sweeping away what a quota is counted from

A lost count is seeded from the usage rows of its scope since its stretch began.  Rows past their keeping
are swept away, by the retention the configuration names: any whole number of seconds, or none at all.  A
stretch can be longer than that.

* `Sweeper.new`, `Sweeper.sweep`, `sweepUsage` — the source's functions;
* `Ledger`, `Ledger.run` — the rows the store holds, beside everything ever recorded;
* `Ledger.run_kept` — sweeps before a moment leave what was recorded since it;
* `unrefunded_iff` — **sweeping refunds no quota of a period exactly when a row is kept for as long as the
  longest stretch of the period lasts**, less one second;
* `month_refunded_by_thirty_days` — a month is longer than the thirty days the example configuration names.
-/

namespace IntelliPrism.Gateway

open IntelliPrism.Core

/-! ### The sweeper -/

/-- A duration written in the file as a whole number of seconds. -/
structure Seconds where
  get : UInt64
  deriving DecidableEq

/-- What is kept of the record of every request, as far as the sweeper reads it. -/
structure UsageConfig where
  retention : Option Seconds

/-- Removes the rows the configuration no longer keeps. -/
structure Sweeper where
  retention : Seconds

/-- A sweeper for the configured retention, or nothing at all when every row is kept. -/
def Sweeper.new (config : UsageConfig) : Option Sweeper := config.retention.map Sweeper.mk

/-- The seconds a row is kept for, as far as they fit a signed count. -/
def Sweeper.kept (sweeper : Sweeper) : ℕ := min sweeper.retention.get.toNat 9223372036854775807

/-- The rows that are left when those from before a moment are deleted. -/
def sweepUsage (moment : Timestamp) (rows : List Usage) : List Usage :=
  rows.filter fun row => !decide (row.createdAt.unixSeconds < moment.unixSeconds)

def Sweeper.sweep (sweeper : Sweeper) (now : Timestamp) (rows : List Usage) :
    Except CoreError (List Usage) := do
  let moment ← Timestamp.fromUnixSeconds (now.unixSeconds - sweeper.kept)
  return sweepUsage moment rows

/-! ### Runs of records and sweeps -/

/-- What happens to the rows. -/
inductive Event where
  | record (usage : NewUsage)
  | sweep

/-- The rows the store holds, and everything that was ever recorded. -/
structure Ledger where
  rows : List Usage
  recorded : List Usage

namespace Ledger

def empty : Ledger := ⟨[], []⟩

/-- The rows a sweep leaves.  One that fails leaves them as they were, and without a sweeper there is none. -/
def swept (sweeper : Option Sweeper) (now : Timestamp) (rows : List Usage) : List Usage :=
  match sweeper with
  | none => rows
  | some sweeper => (sweeper.sweep now rows).toOption.getD rows

/-- What one event leaves, by the clock it happens at. -/
def step (config : UsageConfig) (now : Timestamp) (ledger : Ledger) : Event → Ledger
  | .record usage =>
    let row : Usage := ⟨usage.asking, usage.tokens, now⟩
    ⟨ledger.rows ++ [row], ledger.recorded ++ [row]⟩
  | .sweep => { ledger with rows := swept (Sweeper.new config) now ledger.rows }

/-- What events leave, each at its own time. -/
def run (config : UsageConfig) (events : List (Timestamp × Event)) : Ledger :=
  events.foldl (fun ledger event => ledger.step config event.1 event.2) .empty

/-- The rows of a list since a moment. -/
def since (moment : Timestamp) (rows : List Usage) : List Usage :=
  rows.filter fun row => decide (moment.unixSeconds ≤ row.createdAt.unixSeconds)

/-- What was recorded since a moment is still there. -/
def Keeps (moment : Timestamp) (ledger : Ledger) : Prop :=
  since moment ledger.rows = since moment ledger.recorded

theorem spentIn_eq_of_keeps {moment : Timestamp} {ledger : Ledger} (h : ledger.Keeps moment) (f : UsageFilter)
    (counted : Counted) :
    spentIn ledger.rows f counted moment = spentIn ledger.recorded f counted moment := by
  have hmeant : ∀ rows : List Usage, (rows.filter fun row =>
      moment.unixSeconds ≤ row.createdAt.unixSeconds && f.admits row) = (since moment rows).filter f.admits := by
    intro rows
    rw [since, List.filter_filter]
    exact List.filter_congr fun row _ => Bool.and_comm _ _
  unfold spentIn
  simp only [hmeant]
  rw [h]

theorem since_sweepUsage {moment swept : Timestamp} (h : swept.unixSeconds ≤ moment.unixSeconds)
    (rows : List Usage) : since moment (sweepUsage swept rows) = since moment rows := by
  rw [since, sweepUsage, List.filter_filter]
  refine List.filter_congr fun row _ => ?_
  by_cases hsince : moment.unixSeconds ≤ row.createdAt.unixSeconds
  · have hkept : ¬ row.createdAt.unixSeconds < swept.unixSeconds := by omega
    rw [decide_eq_true hsince, decide_eq_false hkept]
    rfl
  · rw [decide_eq_false hsince]
    rfl

theorem since_swept {moment now : Timestamp} {sweeper : Option Sweeper}
    (h : ∀ this, sweeper = some this → now.unixSeconds - this.kept ≤ moment.unixSeconds) (rows : List Usage) :
    since moment (swept sweeper now rows) = since moment rows := by
  cases sweeper with
  | none => rfl
  | some this =>
    have hearly := h this rfl
    unfold swept Sweeper.sweep Timestamp.fromUnixSeconds
    dsimp only
    split
    · exact since_sweepUsage hearly rows
    · rfl

/-- **One event keeps what was recorded since a moment**, when a row is kept for at least as long as the
clock is past it. -/
theorem Keeps.step {moment now : Timestamp} {ledger : Ledger} {config : UsageConfig}
    (h : ledger.Keeps moment)
    (hlong : ∀ sweeper, Sweeper.new config = some sweeper →
      now.unixSeconds - sweeper.kept ≤ moment.unixSeconds) (event : Event) :
    (ledger.step config now event).Keeps moment := by
  cases event with
  | record usage =>
    show since moment (ledger.rows ++ [_]) = since moment (ledger.recorded ++ [_])
    rw [since, since, List.filter_append, List.filter_append]
    exact congrArg (· ++ _) h
  | sweep => exact (since_swept hlong ledger.rows).trans h

/-- **A run keeps what was recorded since a moment.** -/
theorem run_kept {moment : Timestamp} {config : UsageConfig} {events : List (Timestamp × Event)}
    (hlong : ∀ sweeper, Sweeper.new config = some sweeper →
      ∀ event ∈ events, event.1.unixSeconds - sweeper.kept ≤ moment.unixSeconds) :
    (run config events).Keeps moment := by
  induction events using List.reverseRecOn with
  | nil => rfl
  | append_singleton events event ih =>
    rw [run, List.foldl_append]
    refine Keeps.step (ih fun sweeper hsweeper other hother =>
      hlong sweeper hsweeper other (List.mem_append_left _ hother)) (fun sweeper hsweeper => ?_) event.2
    exact hlong sweeper hsweeper event (List.mem_append_right _ (List.mem_singleton_self _))

end Ledger

/-! ### Quotas -/

/-- After any events, and by any clock that is not behind them, what a limit's count is seeded from is
everything recorded in its scope since its stretch began. -/
def Unrefunded (config : UsageConfig) (limit : Limit) : Prop :=
  ∀ (events : List (Timestamp × Event)) (now : Timestamp),
    (∀ event ∈ events, event.1.unixSeconds ≤ now.unixSeconds) →
      spentIn (Ledger.run config events).rows (filter limit.scope) limit.counted (limit.period.began now)
        = spentIn (Ledger.run config events).recorded (filter limit.scope) limit.counted
          (limit.period.began now)

/-- Rows are kept long enough for a limit: for as long as the longest stretch of its period, less a second. -/
def KeepsLongEnough (config : UsageConfig) (limit : Limit) : Prop :=
  ∀ seconds ∈ config.retention, limit.period.longest ≤ seconds.get.toNat + 1

def askingIn (scope : LimitScope) : Asking := ⟨scope.tenant, scope.user.getD alice, scope.api.getD anthropic⟩

theorem admits_askingIn (scope : LimitScope) (tokens : Tokens) (createdAt : Timestamp) :
    (filter scope).admits ⟨askingIn scope, tokens, createdAt⟩ = true := by
  obtain ⟨tenant, user, api⟩ := scope
  cases user <;> cases api <;> simp [filter, UsageFilter.admits, askingIn]

/-- Something is recorded at the epoch, and swept in the last second of the stretch that began there. -/
def recordThenSweep (limit : Limit) : List (Timestamp × Event) :=
  [(.epoch, .record ⟨askingIn limit.scope, ⟨1, 0⟩⟩), (limit.period.lastSecond, .sweep)]

theorem spentIn_recorded (limit : Limit) :
    spentIn [⟨askingIn limit.scope, ⟨1, 0⟩, .epoch⟩] (filter limit.scope) limit.counted .epoch = 1 := by
  unfold spentIn
  simp only [List.filter_cons, List.filter_nil, admits_askingIn, Bool.and_true]
  cases limit.counted <;> rfl

theorem longest_le (period : Period) : period.longest ≤ 2678400 := by
  cases period <;> decide

theorem run_recordThenSweep {config : UsageConfig} {limit : Limit} {seconds : Seconds}
    (hretention : config.retention = some seconds)
    (hshort : (seconds.get.toNat : ℤ) + 1 < limit.period.longest) :
    Ledger.run config (recordThenSweep limit) = ⟨[], [⟨askingIn limit.scope, ⟨1, 0⟩, .epoch⟩]⟩ := by
  have hlongest := longest_le limit.period
  have hkept : (Sweeper.mk seconds).kept = seconds.get.toNat := by
    show min seconds.get.toNat _ = _
    omega
  have hmax := limit.period.lastSecond.notAfter
  have hmin : minSeconds ≤ 0 := by decide
  have hlast : limit.period.lastSecond.unixSeconds = limit.period.longest - 1 := rfl
  have hmoment : minSeconds ≤ limit.period.lastSecond.unixSeconds - (Sweeper.mk seconds).kept ∧
      limit.period.lastSecond.unixSeconds - (Sweeper.mk seconds).kept ≤ maxSeconds := by
    omega
  have hpast : (0 : ℤ) < limit.period.lastSecond.unixSeconds - (Sweeper.mk seconds).kept := by omega
  have hswept : (Sweeper.mk seconds).sweep limit.period.lastSecond
      [⟨askingIn limit.scope, ⟨1, 0⟩, .epoch⟩] = .ok [] := by
    unfold Sweeper.sweep
    rw [fromUnixSeconds_of_le hmoment.1 hmoment.2]
    refine congrArg Except.ok (List.filter_eq_nil_iff.mpr fun row hrow => ?_)
    rw [List.mem_singleton.mp hrow]
    show ¬ (!decide ((0 : ℤ) < _)) = true
    rw [decide_eq_true hpast]
    decide
  show Ledger.mk (Ledger.swept (Sweeper.new config) limit.period.lastSecond [_]) [_] = _
  unfold Ledger.swept Sweeper.new
  rw [hretention]
  show Ledger.mk ((Sweeper.sweep _ _ _).toOption.getD _) _ = _
  rw [hswept]
  rfl

/-- **Sweeping refunds no quota exactly when rows are kept long enough**: for every retention the
configuration accepts and every limit, what a lost count is seeded from is everything recorded in the
limit's scope since its stretch began, at every moment of every run of records and sweeps, if and only if
a row is kept for the longest stretch of the limit's period, less a second. -/
theorem unrefunded_iff (config : UsageConfig) (limit : Limit) :
    Unrefunded config limit ↔ KeepsLongEnough config limit := by
  constructor
  · intro hunrefunded seconds hretention
    by_contra hshort
    have hrun := run_recordThenSweep (Option.mem_def.mp hretention) (by omega : _ < limit.period.longest)
    have hsame := hunrefunded (recordThenSweep limit) limit.period.lastSecond ?_
    · rw [hrun, limit.period.began_lastSecond, spentIn_recorded] at hsame
      unfold spentIn at hsame
      cases hcounted : limit.counted <;> rw [hcounted] at hsame <;> cases hsame
    · intro event hevent
      have hlast : (0 : ℤ) ≤ limit.period.longest - 1 := by cases limit.period <;> decide
      rcases List.mem_cons.mp hevent with hfirst | hrest
      · rw [hfirst]
        exact hlast
      · rw [List.mem_singleton.mp hrest]
  · intro hlong events now hbehind
    refine Ledger.spentIn_eq_of_keeps (Ledger.run_kept fun sweeper hsweeper event hevent => ?_) _ _
    obtain ⟨seconds, hseconds, rfl⟩ := Option.map_eq_some_iff.mp hsweeper
    have hkept := hlong seconds hseconds
    have hbegan := limit.period.lt_began_add now
    have hclock := hbehind event hevent
    have hlongest := longest_le limit.period
    have hmin : (Sweeper.mk seconds).kept = min seconds.get.toNat 9223372036854775807 := rfl
    omega

/-- What a tenant may spend in a month. -/
def monthly : Limit := ⟨.ofTenant acme, .tokens, .month, ⟨1000, by decide⟩⟩

/-- Thirty-one days are enough for a month. -/
theorem unrefunded_by_thirty_one_days :
    KeepsLongEnough ⟨some ⟨2678400⟩⟩ monthly ∧ Unrefunded ⟨some ⟨2678400⟩⟩ monthly := by
  have hlong : KeepsLongEnough ⟨some ⟨2678400⟩⟩ monthly := by
    intro seconds hseconds
    rw [← Option.some.inj (Option.mem_def.mp hseconds)]
    decide
  exact ⟨hlong, (unrefunded_iff _ _).mpr hlong⟩

/-- **A swept row is a refund.**  With rows kept for thirty days, what was spent on the first of a month of
thirty-one is gone from the sum on its last. -/
theorem month_refunded_by_thirty_days :
    ∃ (events : List (Timestamp × Event)) (now : Timestamp),
      (∀ event ∈ events, event.1.unixSeconds ≤ now.unixSeconds) ∧
      spentIn (Ledger.run ⟨some ⟨2592000⟩⟩ events).rows (filter monthly.scope) monthly.counted
        (monthly.period.began now) = 0 ∧
      spentIn (Ledger.run ⟨some ⟨2592000⟩⟩ events).recorded (filter monthly.scope) monthly.counted
        (monthly.period.began now) = 1 := by
  have hshort : ((Seconds.mk 2592000).get.toNat : ℤ) + 1 < monthly.period.longest := by decide
  have hrun := @run_recordThenSweep ⟨some ⟨2592000⟩⟩ monthly ⟨2592000⟩ rfl hshort
  refine ⟨recordThenSweep monthly, monthly.period.lastSecond, by decide, ?_, ?_⟩
  · rw [hrun]
    rfl
  · rw [hrun, Period.began_lastSecond]
    exact spentIn_recorded monthly

end IntelliPrism.Gateway
