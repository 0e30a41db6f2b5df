import IntelliPrism.Gateway.Single
import Mathlib.Algebra.Group.Prod

/-!
# A request rate: what it lets through

A rate counts every admit, and is started from the rows, which are the requests that were answered and
recorded.  Here is what a rate lets through while it alone is set:

* `Rates` — **what one step does to a rate**, `rates_of_step`: to its count, and to how many requests
  stand allowed and refused;
* `allowed_le_of_startsPast` — **no more than it allows**, whatever is lost, as long as a count is never
  started from less than what was already allowed;
* `fresh_allowance` — without that, a loss grants a fresh allowance.
-/

namespace IntelliPrism.Gateway

open IntelliPrism.Lib IntelliPrism.Core IntelliPrism.Cache

/-! ### Where requests stand -/

namespace Stage

/-- The request was decided `Allowed`. -/
def isAllowed : Stage → Bool
  | .admitted => true
  | .spending => true
  | .adding _ _ _ => true
  | .finished => true
  | _ => false

/-- The request was decided anything else. -/
def isRefused : Stage → Bool
  | .refused _ => true
  | _ => false

/-- The request has yet to be decided. -/
def isUndecided (stage : Stage) : Bool := !(stage.isAllowed || stage.isRefused)

end Stage

/-- A request that the limit's scope holds stands at such a stage. -/
def Thread.stands (limit : Limit) (among : Stage → Bool) : Thread → Bool
  | .request r stage => limit.holds r.asking && among stage
  | _ => false

/-- Whether a thread is a request that stands allowed, and one that stands refused. -/
def standing (limit : Limit) (t : Thread) : ℕ × ℕ :=
  ((t.stands limit Stage.isAllowed).toNat, (t.stands limit Stage.isRefused).toNat)

theorem tally_standing (limit : Limit) (threads : List Thread) :
    Pool.tally (standing limit) threads = (threads.countP (Thread.stands limit Stage.isAllowed),
      threads.countP (Thread.stands limit Stage.isRefused)) := by
  induction threads with
  | nil => rfl
  | cons t threads ih =>
    have hcons : Pool.tally (standing limit) (t :: threads)
        = standing limit t + Pool.tally (standing limit) threads := List.sum_cons
    rw [hcons, ih]
    simp only [standing, List.countP_cons, Prod.mk_add_mk]
    cases t.stands limit Stage.isAllowed <;> cases t.stands limit Stage.isRefused <;>
      simp [Nat.add_comm]

/-- **What one step does to a rate.** -/
inductive Rates (limit : Limit) (began : Timestamp) (w w' : World) (t t' : Thread) : Prop where
  | quiet (hcount : w'.counts (counterKey limit began) = w.counts (counterKey limit began))
      (hstanding : standing limit t' = standing limit t)
  | loses (hlosing : t = .losing (counterKey limit began))
      (hcount : w'.counts (counterKey limit began) = none)
      (hstanding : standing limit t' = standing limit t)
  | seeds (r : Request) (now : Timestamp) (start : ℕ)
      (hseeding : t = .request r (.seeding now limit [] start))
      (hcount : w'.counts (counterKey limit began)
        = some ((w.counts (counterKey limit began)).getD start))
      (hstanding : standing limit t' = standing limit t)
  | counts (r : Request) (now : Timestamp) (hcounting : t = .request r (.counting now limit []))
      (hcount : w'.counts (counterKey limit began)
        = some ((w.counts (counterKey limit began)).getD 0 + 1))
      (hbefore : standing limit t = 0)
      (hstanding : standing limit t'
        = if (w.counts (counterKey limit began)).getD 0 + 1 ≤ limit.allowance.get then (1, 0) else (0, 1))

section Step

variable {limit : Limit} {began : Timestamp} {x : Weather} {w w' : World} {r : Request}
  {stage stage' : Stage}

theorem standing_of_not_holds (h : limit.holds r.asking = false) :
    standing limit (.request r stage) = 0 := by
  simp [standing, Thread.stands, h]

theorem standing_goesOn (h : limit.holds r.asking = true) :
    standing limit (.request r r.goesOn) = (1, 0) := by
  unfold Request.goesOn
  split <;> simp [standing, Thread.stands, h, Stage.isAllowed, Stage.isRefused]

theorem judged_requests (hrequests : limit.counted = .requests) (now : Timestamp) (read : ℕ) :
    r.judged now limit [] (.ok read) = .counting now limit [] := by
  simp only [Request.judged, hrequests]

theorem Moves.rates (hmoves : Moves limit began x w r stage w' stage')
    (hrequests : limit.counted = .requests) :
    Rates limit began w w' (.request r stage) (.request r stage') := by
  cases hmoves with
  | arrives _ => exact .quiet rfl rfl
  | passes hholds => exact .quiet rfl (by rw [standing_of_not_holds hholds, standing_of_not_holds hholds])
  | finds _ => exact .quiet rfl (by rw [judged_requests hrequests]; rfl)
  | misses _ => exact .quiet rfl rfl
  | sums => exact .quiet rfl rfl
  | @seeds now start =>
    refine .seeds r now start rfl (World.setCount_self ..) ?_
    rw [judged_requests hrequests]
    rfl
  | @counts now _ hholds =>
    refine .counts r now rfl (World.setCount_self ..) ?_ ?_
    · simp [standing, Thread.stands, Stage.isAllowed, Stage.isRefused]
    · by_cases hmade : (w.counts (counterKey limit began)).getD 0 + 1 ≤ limit.allowance.get
      · rw [if_neg (Nat.not_lt.mpr hmade), if_pos hmade]
        exact standing_goesOn hholds
      · rw [if_pos (Nat.not_le.mp hmade), if_neg hmade]
        simp [Request.decided, spent, standing, Thread.stands, Stage.isAllowed, Stage.isRefused, hholds]
  | records _ => exact .quiet rfl (by split <;> rfl)
  | spends _ _ => exact .quiet rfl rfl
  | skips _ => exact .quiet rfl rfl
  | adds htokens _ _ =>
    rw [hrequests] at htokens
    cases htokens

theorem rates_of_step {t t' : Thread} {p : Pool World Thread} (hrequests : limit.counted = .requests)
    (hx : InStretch limit began p t x) (hunder : Under limit began t)
    (h : Thread.step x w t = some (w', t')) : Rates limit began w w' t t' := by
  obtain ⟨key, rfl, rfl, rfl⟩ | ⟨r, stage, stage', rfl, rfl, -, -, -, hmoves⟩ := thread_moves hx hunder h
  · by_cases hkey : counterKey limit began = key
    · exact .loses (by rw [hkey]) (by rw [hkey, World.setCount_self]) rfl
    · exact .quiet (World.setCount_other w hkey _) rfl
  · exact hmoves.rates hrequests

end Step

/-! ### No more than it allows -/

/-- A count is started from no less than what was already allowed. -/
def StartsPast (limit : Limit) (began : Timestamp) : Guard Weather World Thread := fun p t _ =>
  p.shared.counts (counterKey limit began) = none → ∀ start ∈ t.startsFrom,
    p.threads.countP (Thread.stands limit Stage.isAllowed) ≤ start

instance (limit : Limit) (began : Timestamp) (p : Pool World Thread) (t : Thread) (x : Weather) :
    Decidable (StartsPast limit began p t x) :=
  inferInstanceAs (Decidable (_ → ∀ start ∈ t.startsFrom, _))

/-- What was allowed is within the allowance, and within the count while one is held. -/
def Within (limit : Limit) (began : Timestamp) (w : World) (stood : ℕ × ℕ) : Prop :=
  stood.1 ≤ limit.allowance.get ∧
    ∀ held, w.counts (counterKey limit began) = some held → stood.1 ≤ held

theorem Rates.within {limit : Limit} {began : Timestamp} {w w' : World} {t t' : Thread} {rest : ℕ × ℕ}
    (hrates : Rates limit began w w' t t')
    (hpast : w.counts (counterKey limit began) = none → ∀ start ∈ t.startsFrom,
      (rest + standing limit t).1 ≤ start)
    (h : Within limit began w (rest + standing limit t)) :
    Within limit began w' (rest + standing limit t') := by
  cases hrates with
  | quiet hcount hstanding =>
    rw [hstanding]
    exact ⟨h.1, by rw [hcount]; exact h.2⟩
  | loses _ hcount hstanding =>
    rw [hstanding]
    refine ⟨h.1, ?_⟩
    intro held hheld
    rw [hcount] at hheld
    cases hheld
  | seeds r now start hseeding hcount hstanding =>
    rw [hstanding]
    refine ⟨h.1, ?_⟩
    intro held hheld
    obtain rfl := Option.some.inj (hcount.symm.trans hheld)
    cases hbefore : w.counts (counterKey limit began) with
    | none => exact hpast hbefore start (by rw [hseeding]; rfl)
    | some count => exact h.2 count hbefore
  | counts r now hcounting hcount hbefore hstanding =>
    rw [hbefore, add_zero] at h hpast
    -- the count was no less than what was allowed, so it now makes room for this request
    have hroom : rest.1 ≤ (w.counts (counterKey limit began)).getD 0 := by
      cases hheld : w.counts (counterKey limit began) with
      | none => exact hpast hheld 0 (by rw [hcounting]; rfl)
      | some count => exact h.2 count hheld
    rw [hstanding]
    refine ⟨?_, ?_⟩
    · split
      · rename_i hmade
        exact (Nat.succ_le_succ hroom).trans hmade
      · exact h.1
    · intro held hheld
      obtain rfl := Option.some.inj (hcount.symm.trans hheld)
      split
      · exact Nat.succ_le_succ hroom
      · exact Nat.le_succ_of_le hroom

/-- **Losing the cache grants no fresh allowance**, in any run of admits, outcomes and losses in one
stretch, as long as a count is never started from less than what was already allowed. -/
theorem allowed_le_of_startsPast (limit : Limit) (hrequests : limit.counted = .requests)
    (began : Timestamp) (w : World) (threads : List Thread) (hfresh : ∀ t ∈ threads, Fresh limit t)
    (hnew : ∀ t ∈ threads, t.stands limit Stage.isAllowed = false)
    {p : Pool World Thread}
    (h : Pool.Reach Thread.step (Pool.both (InStretch limit began) (StartsPast limit began))
      ⟨w, threads⟩ p) :
    p.threads.countP (Thread.stands limit Stage.isAllowed) ≤ limit.allowance.get := by
  have hwithin : Within limit began p.shared (Pool.tally (standing limit) p.threads) := by
    refine (h.tally_invariant (T := Under limit began) (J := Within limit began) ?_ ?_ ?_).2
    · intro t ht
      exact (hfresh t ht).under
    · have hzero : threads.countP (Thread.stands limit Stage.isAllowed) = 0 := by
        rw [List.countP_eq_zero]
        intro t ht
        rw [hnew t ht]
        exact Bool.false_ne_true
      rw [tally_standing, hzero]
      exact ⟨Nat.zero_le _, fun _ _ => Nat.zero_le _⟩
    · intro s threads t x s' t' rest hrest hunder hC hs hwithin
      refine ⟨step_under hC.1 hunder hs, (rates_of_step hrequests hC.1 hunder hs).within ?_ hwithin⟩
      rw [← hrest, tally_standing]
      exact hC.2
  rw [tally_standing] at hwithin
  exact hwithin.1

/-- One request a minute for the whole tenant. -/
def oneByMinute : Limit := tenantWide .requests ⟨1, by decide⟩

/-- A request under that limit alone. -/
def underRequests (outcome : Option Tokens) : Thread :=
  .request ⟨.of alice, [oneByMinute], .asPut, .asPut, outcome⟩ .arriving

/-- Two requests, the first with some outcome, and a loss of their count. -/
def twoAndLoss (outcome : Option Tokens) : List Thread :=
  [underRequests outcome, underRequests none, .losing (counterKey oneByMinute .epoch)]

/-- The count is lost after the first request is recorded, and the other one is refused. -/
theorem allowed_le_recorded :
    ∃ p, Pool.Reach Thread.step
        (Pool.both (InStretch oneByMinute .epoch) (StartsPast oneByMinute .epoch))
        ⟨⟨fun _ => none, []⟩, twoAndLoss (some ⟨5, 0⟩)⟩ p ∧
      p.threads.countP (Thread.stands oneByMinute Stage.isRefused) = 1 ∧
      p.threads.countP (Thread.stands oneByMinute Stage.isAllowed) ≤ 1 := by
  have hrun : (Pool.run Thread.step
      (Pool.both (InStretch oneByMinute .epoch) (StartsPast oneByMinute .epoch))
      ⟨⟨fun _ => none, []⟩, twoAndLoss (some ⟨5, 0⟩)⟩
      ([0, 0, 0, 0, 0, 0, 0, 2, 1, 1, 1, 1, 1].map (·, ⟨.epoch, none⟩))).any
      (fun p => p.threads.countP (Thread.stands oneByMinute Stage.isRefused) == 1) = true := by
    decide +kernel
  obtain ⟨p, hreach, hp⟩ := Pool.exists_reach_of_run hrun
  refine ⟨p, hreach, beq_iff_eq.mp hp, ?_⟩
  refine allowed_le_of_startsPast oneByMinute rfl .epoch _ (twoAndLoss _) ?_ ?_ hreach
  · simp [twoAndLoss, underRequests, Fresh]
  · simp [twoAndLoss, underRequests, Thread.stands, Stage.isAllowed]

/-- **A loss grants a fresh allowance**: two requests are allowed of one a minute, the first of which is
answered and not recorded yet when its count is lost. -/
theorem fresh_allowance :
    ¬∀ (limit : Limit) (began : Timestamp) (w : World) (threads : List Thread) (p : Pool World Thread),
      limit.counted = .requests → (∀ t ∈ threads, Fresh limit t) →
      (∀ t ∈ threads, t.stands limit Stage.isAllowed = false) →
      Pool.Reach Thread.step (InStretch limit began) ⟨w, threads⟩ p →
      p.threads.countP (Thread.stands limit Stage.isAllowed) ≤ limit.allowance.get := by
  intro hall
  have hrun : (Pool.run Thread.step (InStretch oneByMinute .epoch)
      ⟨⟨fun _ => none, []⟩, twoAndLoss (some ⟨5, 0⟩)⟩
      ([0, 0, 0, 0, 0, 2, 1, 1, 1, 1, 1].map (·, ⟨.epoch, none⟩))).any
      (fun p => p.threads.countP (Thread.stands oneByMinute Stage.isAllowed) == 2) = true := by
    decide +kernel
  obtain ⟨p, hreach, hp⟩ := Pool.exists_reach_of_run hrun
  have hle := hall oneByMinute .epoch _ (twoAndLoss _) p rfl
    (by simp [twoAndLoss, underRequests, Fresh])
    (by simp [twoAndLoss, underRequests, Thread.stands, Stage.isAllowed]) hreach
  rw [beq_iff_eq.mp hp] at hle
  exact absurd hle (by decide)

end IntelliPrism.Gateway
