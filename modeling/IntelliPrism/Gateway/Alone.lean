import IntelliPrism.Gateway.Limiter

/-!
# A check with no other call in between

What the limiter's functions do when they run from a state to their end, nothing fails, and no other
request comes between their calls.  A check reads a number, refuses when it is at the allowance, and
leaves a count behind; limits that decide together count under different keys, so no check of one moves
what another reads.

* `World.read`, `World.refuses`, `World.checked` — what a check reads, decides and leaves;
* `exec_check` — **the code computes exactly that**;
* `exec_visit_refused` — a walk over limits that count apart refuses when one of them does;
* `admitRequest_refused_iff` — **`admit` refuses when one of the limits that decide does**.
-/

namespace IntelliPrism.Gateway

open IntelliPrism.Lib IntelliPrism.Core IntelliPrism.Cache

namespace World

variable (w : World) (limit : Limit) (now : Timestamp)

/-- What a check reads: the count that is held, or what the rows come to. -/
def read : ℕ :=
  (w.counts (counter limit now).1).getD
    (spentIn w.rows (filter limit.scope) limit.counted (limit.period.began now))

/-- Whether a check refuses: what it reads is at the allowance already. -/
def refuses : Bool := limit.allowance.get ≤ w.read limit now

/-- What a check leaves: the count it read, and the request on top when it is a rate. -/
def checked : World :=
  w.setCount (counter limit now).1 (some (w.read limit now + match limit.counted with
    | .requests => 1
    | .tokens => 0))

theorem setCount_held {key : CacheKey} {count : ℕ} (h : w.counts key = some count) :
    w.setCount key (some count) = w := by
  rw [← h]
  simp [setCount]

end World

def Decision.isSpent : Decision → Bool
  | .spent _ _ _ _ => true
  | _ => false

section Alone

variable {x : Weather} {w : World} {limit : Limit} {now : Timestamp}

theorem exec_seeded (hfair : x.fault = none) :
    Process.exec handle x (seeded limit now (counter limit now).1 (counter limit now).2) w
      = (w.setCount (counter limit now).1 (some (w.read limit now)), .ok (w.read limit now)) := by
  cases hheld : w.counts (counter limit now).1 with
  | some count =>
    simp [seeded, Counters.counted, handle, hfair, hheld, World.read, World.setCount_held w hheld]
  | none =>
    simp [seeded, seedFromRows, seedFrom, Counters.counted, Counters.seed, UsageStore.spent, handle,
      hfair, hheld, World.read]

/-- **What one check does** when nothing fails. -/
theorem exec_check (hfair : x.fault = none) :
    Process.exec handle x (check limit now) w
      = (w.checked limit now, if w.refuses limit now then spent limit now else .allowed) := by
  unfold check
  split
  · rename_i hrequests
    have hmade : w.read limit now + 1 > limit.allowance.get ↔ limit.allowance.get ≤ w.read limit now :=
      Nat.lt_succ_iff
    simp only [rate, Process.exec_bind, exec_seeded hfair, rateRead, countRequest, Counters.count,
      Process.exec_call, Process.exec_done, handle, hfair, World.setCount_self, Option.getD_some, hmade]
    refine Prod.ext ?_ ?_
    · simp [World.checked, World.setCount, hrequests]
    · simp [World.refuses]
  · rename_i htokens
    simp only [quota, Process.exec_bind, exec_seeded hfair, quotaRead, Process.exec_pure]
    refine Prod.ext ?_ ?_
    · simp [World.checked, htokens]
    · simp [World.refuses, Allowance.isSpent]

theorem read_checked {other : Limit} (h : other.pair ≠ limit.pair) :
    (w.checked limit now).read other now = w.read other now := by
  have hkey : (counter other now).1 ≠ (counter limit now).1 := fun heq => h (counter_eq_iff.mp heq).2
  unfold World.read World.checked
  rw [World.setCount_other w hkey, World.setCount_rows]

/-- The first limit of a walk refuses, or the walk goes on from what its check leaves. -/
theorem exec_visit_cons (hfair : x.fault = none) (rest : List Limit) :
    Process.exec handle x (visit now (limit :: rest)) w
      = if w.refuses limit now then (w.checked limit now, spent limit now)
        else Process.exec handle x (visit now rest) (w.checked limit now) := by
  simp only [visit, Process.exec_bind, exec_check hfair]
  cases w.refuses limit now with
  | true => simp [spent]
  | false => simp

/-- **A walk over limits that count apart** refuses when one of them does, and says that it is spent. -/
theorem exec_visit_refused (hfair : x.fault = none) {limits : List Limit}
    (hapart : limits.Pairwise fun a b => a.pair ≠ b.pair) :
    ((Process.exec handle x (visit now limits) w).2 ≠ .allowed ↔
      ∃ limit ∈ limits, w.refuses limit now = true) ∧
    ((Process.exec handle x (visit now limits) w).2 ≠ .allowed →
      (Process.exec handle x (visit now limits) w).2.isSpent = true) := by
  induction limits generalizing w with
  | nil => simp [visit]
  | cons limit rest ih =>
    obtain ⟨hfirst, hrest⟩ := List.pairwise_cons.mp hapart
    have hsame : (∃ other ∈ rest, (w.checked limit now).refuses other now = true) ↔
        ∃ other ∈ rest, w.refuses other now = true := by
      refine exists_congr fun other => and_congr_right fun hother => ?_
      unfold World.refuses
      rw [read_checked (hfirst other hother).symm]
    rw [exec_visit_cons hfair]
    cases hrefuses : w.refuses limit now with
    | true => simp [spent, Decision.isSpent, hrefuses]
    | false =>
      have := ih (w := w.checked limit now) hrest
      rw [hsame] at this
      simpa [hrefuses] using this

theorem exec_visit_failing {fault : Fault} (hfails : x.fault = some fault) (limits : List Limit) :
    (Process.exec handle x (visit now limits) w).2.isSpent = false := by
  induction limits with
  | nil => rfl
  | cons limit rest ih =>
    have hcheck : Process.exec handle x (check limit now) w = (w, match limit.counted with
        | .requests => .allowed
        | .tokens => .unknown (Unreadable.cache fault).display) := by
      obtain ⟨scope, counted, period, allowance⟩ := limit
      cases counted <;>
        simp [check, rate, quota, seeded, rateRead, quotaRead, Counters.counted, handle, hfails]
    simp only [visit, Process.exec_bind, hcheck]
    cases limit.counted with
    | requests => simpa using ih
    | tokens => simp [Decision.isSpent]

/-! ### What a walk leaves under a quota -/

section Quota

variable {quota : Limit} (hquota : quota.counted = .tokens)
include hquota

/-- A check leaves a quota's count as it was, or starts it from the rows. -/
theorem counts_checked (w : World) (limit : Limit) (now : Timestamp) :
    (w.checked limit now).counts (counter quota now).1 = w.counts (counter quota now).1 ∨
      (w.counts (counter quota now).1 = none ∧
        (w.checked limit now).counts (counter quota now).1
          = some (spentIn w.rows (filter quota.scope) .tokens (quota.period.began now)) ∧
        (counter limit now).1 = (counter quota now).1) := by
  by_cases hkey : (counter limit now).1 = (counter quota now).1
  · obtain ⟨hscope, hpair⟩ := counter_eq_iff.mp hkey
    obtain ⟨hcounted, hperiod⟩ := Prod.mk.inj hpair
    rw [hquota] at hcounted
    have hleft : (w.checked limit now).counts (counter quota now).1
        = some ((w.counts (counter quota now).1).getD
          (spentIn w.rows (filter quota.scope) .tokens (quota.period.began now))) := by
      simp only [World.checked, World.read, hkey, World.setCount_self, hscope, hcounted, hperiod,
        Nat.add_zero]
    cases hheld : w.counts (counter quota now).1 with
    | some count =>
      rw [hheld] at hleft
      exact .inl hleft
    | none =>
      rw [hheld] at hleft
      exact .inr ⟨rfl, hleft, hkey⟩
  · exact .inl (World.setCount_other w (Ne.symm hkey) _)

/-- **A walk of `admit` leaves a quota's count as it was, or starts it from the rows**, and starts only
what counts with a limit on the way. -/
theorem counts_visit (hfair : x.fault = none) (w : World) (now : Timestamp) (limits : List Limit) :
    (Process.exec handle x (visit now limits) w).1.counts (counter quota now).1
        = w.counts (counter quota now).1 ∨
      (w.counts (counter quota now).1 = none ∧
        (Process.exec handle x (visit now limits) w).1.counts (counter quota now).1
          = some (spentIn w.rows (filter quota.scope) .tokens (quota.period.began now)) ∧
        ∃ limit ∈ limits, (counter limit now).1 = (counter quota now).1) := by
  induction limits generalizing w with
  | nil => exact .inl rfl
  | cons limit rest ih =>
    rw [exec_visit_cons hfair]
    split
    · rcases counts_checked hquota w limit now with hsame | ⟨hnone, hstarted, hkey⟩
      · exact .inl hsame
      · exact .inr ⟨hnone, hstarted, limit, List.mem_cons_self .., hkey⟩
    · rcases ih (w.checked limit now) with hsame | ⟨hnone, hstarted, other, hother, hkey⟩
      · rw [hsame]
        rcases counts_checked hquota w limit now with hsame | ⟨hnone, hstarted, hkey⟩
        · exact .inl hsame
        · exact .inr ⟨hnone, hstarted, limit, List.mem_cons_self .., hkey⟩
      · -- what is still not started was not started before
        rcases counts_checked hquota w limit now with hsame | ⟨-, hheld, -⟩
        · exact .inr ⟨hsame.symm.trans hnone, hstarted, other, List.mem_cons_of_mem _ hother, hkey⟩
        · cases hheld.symm.trans hnone

/-- Once a walk of `admit` has let the request through, every quota on the way has its count started. -/
theorem held_of_visit_allowed (hfair : x.fault = none) {limits : List Limit} (hmem : quota ∈ limits)
    (hallowed : (Process.exec handle x (visit now limits) w).2 = .allowed) :
    (Process.exec handle x (visit now limits) w).1.counts (counter quota now).1 ≠ none := by
  induction limits generalizing w with
  | nil => cases hmem
  | cons limit rest ih =>
    rw [exec_visit_cons hfair] at hallowed ⊢
    split at hallowed
    · cases hallowed
    · rename_i hrefuses
      rw [if_neg hrefuses]
      rcases List.mem_cons.mp hmem with rfl | hrest
      · have hheld : (w.checked quota now).counts (counter quota now).1 ≠ none := by
          simp [World.checked]
        rcases counts_visit hquota hfair (w.checked quota now) now rest with hsame | ⟨hnone, -⟩
        · rwa [hsame]
        · exact absurd hnone hheld
      · exact ih hrest hallowed

/-- **A walk of `spend` counts towards a quota** that counts with a limit on the way, and towards no
other. -/
theorem counts_add (hfair : x.fault = none) (w : World) (now : Timestamp) (tokens : ℕ)
    {limits : List Limit} (hapart : limits.Pairwise fun a b => a.pair ≠ b.pair) :
    (Process.exec handle x (add now tokens limits) w).1.counts (counter quota now).1
      = if ∃ limit ∈ limits, (counter limit now).1 = (counter quota now).1
        then some ((w.counts (counter quota now).1).getD 0 + tokens)
        else w.counts (counter quota now).1 := by
  induction limits generalizing w with
  | nil => simp [add]
  | cons limit rest ih =>
    obtain ⟨hfirst, hrest⟩ := List.pairwise_cons.mp hapart
    by_cases hkey : (counter limit now).1 = (counter quota now).1
    · obtain ⟨-, hpair⟩ := counter_eq_iff.mp hkey
      have hcounted : limit.counted = .tokens := (congrArg Prod.fst hpair).trans hquota
      have hnone : ¬∃ other ∈ rest, (counter other now).1 = (counter quota now).1 := by
        rintro ⟨other, hother, hsame⟩
        exact hfirst other hother (hpair.trans (counter_eq_iff.mp hsame).2.symm)
      simp [add, hcounted, Counters.count, handle, hfair, ih _ hrest, hnone, hkey]
    · by_cases hcounted : limit.counted = .tokens
      · have hother := World.setCount_other w (Ne.symm hkey)
          (some ((w.counts (counter limit now).1).getD 0 + tokens))
        simp [add, hcounted, Counters.count, handle, hfair, ih _ hrest, hkey, hother]
      · simp [add, hcounted, ih _ hrest, hkey]

end Quota

theorem rows_visit (hfair : x.fault = none) (limits : List Limit) :
    (Process.exec handle x (visit now limits) w).1.rows = w.rows := by
  induction limits generalizing w with
  | nil => rfl
  | cons limit rest ih =>
    rw [exec_visit_cons hfair]
    split
    · rfl
    · exact ih

theorem rows_add (hfair : x.fault = none) (tokens : ℕ) (limits : List Limit) :
    (Process.exec handle x (add now tokens limits) w).1.rows = w.rows := by
  induction limits generalizing w with
  | nil => rfl
  | cons limit rest ih =>
    by_cases hcounted : limit.counted = .tokens
    · simp [add, hcounted, Counters.count, handle, hfair, ih]
    · simp [add, hcounted, ih]

end Alone

theorem exec_admitRequest (x : Weather) (w : World) (order : HashOrder) (limits : List Limit)
    (asking : Asking) :
    Process.exec handle x (admitRequest order limits asking) w
      = Process.exec handle x (visit x.now (applyingTo order limits asking)) w := by
  simp only [admitRequest, timestampNow, Process.exec_bind, Process.exec_call, Process.exec_done, handle]

theorem mem_applyingTo (order : HashOrder) {limits : List Limit} {asking : Asking} {limit : Limit} :
    limit ∈ applyingTo order limits asking ↔ Decides limits asking limit := by
  rw [applyingTo, (order.perm _).mem_iff, mem_deciding]

theorem applyingTo_pairwise (order : HashOrder) (limits : List Limit) (asking : Asking) :
    (applyingTo order limits asking).Pairwise fun a b => a.pair ≠ b.pair :=
  ((order.perm _).pairwise_iff fun h => h.symm).mpr (deciding_pairwise limits asking)

/-- **`admit` refuses when one of the limits that decide does**, whatever order it goes over them in. -/
theorem admitRequest_refused_iff {x : Weather} (hfair : x.fault = none) (w : World) (order : HashOrder)
    (limits : List Limit) (asking : Asking) :
    (Process.exec handle x (admitRequest order limits asking) w).2 ≠ .allowed ↔
      ∃ limit, Decides limits asking limit ∧ w.refuses limit x.now = true := by
  rw [exec_admitRequest, (exec_visit_refused hfair (applyingTo_pairwise order limits asking)).1]
  simp only [mem_applyingTo]

/-- **`spend` counts towards a quota that counts with a limit that decides**, and towards no other. -/
theorem counts_spend {x : Weather} (hfair : x.fault = none) {quota : Limit}
    (hquota : quota.counted = .tokens) (w : World) (order : HashOrder) (limits : List Limit)
    (asking : Asking) (tokens : ℕ) :
    ((∃ limit, Decides limits asking limit ∧ (counter limit x.now).1 = (counter quota x.now).1) →
      ∀ held, w.counts (counter quota x.now).1 = some held →
        (Process.exec handle x (spend order limits asking tokens) w).1.counts (counter quota x.now).1
          = some (held + tokens)) ∧
    ((¬∃ limit, Decides limits asking limit ∧ (counter limit x.now).1 = (counter quota x.now).1) →
      (Process.exec handle x (spend order limits asking tokens) w).1.counts (counter quota x.now).1
        = w.counts (counter quota x.now).1) := by
  simp only [← mem_applyingTo order]
  by_cases hzero : tokens = 0
  · simp [spend, hzero]
  · have hadd := counts_add hquota hfair w x.now tokens (applyingTo_pairwise order limits asking)
    simp only [spend, if_neg hzero, timestampNow, Process.exec_bind, Process.exec_call, Process.exec_done,
      handle, hadd]
    refine ⟨?_, fun hnone => if_neg hnone⟩
    intro hsome held hheld
    rw [if_pos hsome, hheld, Option.getD_some]

theorem rows_spend {x : Weather} (hfair : x.fault = none) (w : World) (order : HashOrder)
    (limits : List Limit) (asking : Asking) (tokens : ℕ) :
    (Process.exec handle x (spend order limits asking tokens) w).1.rows = w.rows := by
  by_cases hzero : tokens = 0
  · simp [spend, hzero]
  · simp only [spend, if_neg hzero, timestampNow, Process.exec_bind, Process.exec_call, Process.exec_done,
      handle]
    exact rows_add hfair tokens _

end IntelliPrism.Gateway
