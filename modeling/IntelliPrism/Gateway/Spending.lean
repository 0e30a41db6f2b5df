import IntelliPrism.Gateway.Alone

/-!
# What a quota counts of what its scope holds

Requests that come one after the other, each admitted, recorded and counted before the next, under any
set of limits and with nothing lost.  `spend` counts towards the limits that decide for the request, and
the rows a count is seeded from are all those its scope holds.

* `CountsAll` — a count that is held under a quota is everything its scope holds;
* `Outranks` — a request is about to spend under a quota that is counted and does not decide for it;
* `countsAll_along_iff` — **every quota counts everything its scope holds, all along a run, exactly when
  no answer spends past a count in that way**;
* `count_misses_alice` — with a limit on one account, the tenant's count misses what that account spends.
-/

namespace IntelliPrism.Gateway

open IntelliPrism.Lib IntelliPrism.Core IntelliPrism.Cache

/-! ### Requests one after the other -/

/-- A request that comes alone: who asks, what its answer spends, and what the clock reads on the way. -/
structure Lone where
  asking : Asking
  tokens : Tokens
  admitOrder : HashOrder
  spendOrder : HashOrder
  admitAt : Weather
  recordAt : Weather
  spendAt : Weather

namespace Lone

variable (limits : List Limit) (r : Lone) (w : World)

def admitted : World × Decision :=
  Process.exec handle r.admitAt (admitRequest r.admitOrder limits r.asking) w

/-- A request that is admitted is answered, and then recorded and counted. -/
def serve : World :=
  if (r.admitted limits w).2 = .allowed then
    let recorded := Process.exec handle r.recordAt (UsageStore.recordUsage ⟨r.asking, r.tokens⟩)
      (r.admitted limits w).1
    (Process.exec handle r.spendAt (spend r.spendOrder limits r.asking r.tokens.total) recorded.1).1
  else (r.admitted limits w).1

/-- Nothing fails, and the clock stays in the stretch of every limit that holds a moment. -/
def Within (moment : Timestamp) : Prop :=
  ∀ x ∈ [r.admitAt, r.recordAt, r.spendAt], x.fault = none ∧
    ∀ limit ∈ limits, limit.period.began x.now = limit.period.began moment

end Lone

def serveAll (limits : List Limit) (calls : List Lone) (w : World) : World :=
  calls.foldl (fun w r => r.serve limits w) w

/-- The requests among them that were answered. -/
def answered (limits : List Limit) : List Lone → World → List Lone
  | [], _ => []
  | r :: rest, w =>
    if (r.admitted limits w).2 = .allowed then r :: answered limits rest (r.serve limits w)
    else answered limits rest (r.serve limits w)

/-! ### Everything a scope holds -/

/-- What seeding a quota afresh would give. -/
def seedOf (moment : Timestamp) (quota : Limit) (w : World) : ℕ :=
  spentIn w.rows (filter quota.scope) .tokens (quota.period.began moment)

/-- The count a quota keeps for the stretch. -/
def heldOf (moment : Timestamp) (quota : Limit) (w : World) : Option ℕ :=
  w.counts (counterKey quota (quota.period.began moment))

/-- Every count that is held under a quota is what the rows come to. -/
def Agrees (limits : List Limit) (moment : Timestamp) (w : World) : Prop :=
  ∀ quota ∈ limits, quota.counted = .tokens → ∀ held, heldOf moment quota w = some held →
    held = seedOf moment quota w

/-- Every count that is held under a quota after these requests is what was spent before and what those
answered spent inside its scope, and that is what seeding it afresh would give. -/
def CountsAll (limits : List Limit) (moment : Timestamp) (start : World) (calls : List Lone) : Prop :=
  ∀ quota ∈ limits, quota.counted = .tokens →
    ∀ held, heldOf moment quota (serveAll limits calls start) = some held →
      held = seedOf moment quota start
          + (((answered limits calls start).filter fun r => quota.holds r.asking).map
            fun r => r.tokens.total).sum ∧
      held = seedOf moment quota (serveAll limits calls start)

/-- Some quota that is counted holds a request that spends, and a narrower limit for its pair does too. -/
def Outranks (limits : List Limit) (moment : Timestamp) (w : World) (r : Lone) : Prop :=
  r.tokens.total ≠ 0 ∧ ∃ quota ∈ limits, quota.counted = .tokens ∧ quota.holds r.asking = true ∧
    heldOf moment quota w ≠ none ∧
    ∃ other ∈ limits, other.holds r.asking = true ∧ other.pair = quota.pair ∧
      quota.narrowness < other.narrowness

/-! ### One request -/

section Serve

variable {limits : List Limit} {moment : Timestamp} {w : World} {r : Lone} {quota : Limit}

theorem counts_eq_heldOf {x : Weather}
    (hx : ∀ limit ∈ limits, limit.period.began x.now = limit.period.began moment)
    (hmem : quota ∈ limits) (w : World) :
    w.counts (counter quota x.now).1 = heldOf moment quota w := by
  rw [counter_fst (hx quota hmem)]
  rfl

/-- Admission leaves a quota's count as it was, or starts it from the rows when the quota decides. -/
theorem held_admitted (hwithin : r.Within limits moment) (hmem : quota ∈ limits)
    (hquota : quota.counted = .tokens) (w : World) :
    heldOf moment quota (r.admitted limits w).1 = heldOf moment quota w ∨
      (heldOf moment quota w = none ∧
        heldOf moment quota (r.admitted limits w).1 = some (seedOf moment quota w) ∧
        Narrowest limits r.asking quota) := by
  obtain ⟨hfair, hx⟩ := hwithin r.admitAt (by simp)
  have hcounts := counts_visit hquota hfair w r.admitAt.now (applyingTo r.admitOrder limits r.asking)
  rw [← exec_admitRequest] at hcounts
  simp only [counts_eq_heldOf hx hmem, hx quota hmem, mem_applyingTo] at hcounts
  rcases hcounts with hsame | ⟨hnone, hstarted, hkey⟩
  · exact .inl hsame
  · exact .inr ⟨hnone, hstarted, (exists_decides_counter_iff _ hmem).mp hkey⟩

theorem rows_admitted (hwithin : r.Within limits moment) (w : World) :
    (r.admitted limits w).1.rows = w.rows := by
  rw [Lone.admitted, exec_admitRequest]
  exact rows_visit (hwithin r.admitAt (by simp)).1 _

/-- Once the request is admitted, a quota that decides for it is counted. -/
theorem held_of_admitted (hwithin : r.Within limits moment) (hmem : quota ∈ limits)
    (hquota : quota.counted = .tokens) (hnarrowest : Narrowest limits r.asking quota)
    (hallowed : (r.admitted limits w).2 = .allowed) :
    heldOf moment quota (r.admitted limits w).1
      = some ((heldOf moment quota w).getD (seedOf moment quota w)) := by
  obtain ⟨hfair, hx⟩ := hwithin r.admitAt (by simp)
  have hstarted : heldOf moment quota (r.admitted limits w).1 ≠ none := by
    obtain ⟨other, hdecides, hkey⟩ := (exists_decides_counter_iff r.admitAt.now hmem).mpr hnarrowest
    have hother : other.counted = .tokens := (congrArg Prod.fst (counter_eq_iff.mp hkey).2).trans hquota
    rw [Lone.admitted, exec_admitRequest] at hallowed ⊢
    rw [← counts_eq_heldOf hx hmem, ← hkey]
    exact held_of_visit_allowed hother hfair ((mem_applyingTo _).mpr hdecides) hallowed
  rcases held_admitted hwithin hmem hquota w with hsame | ⟨hnone, hseeded, -⟩
  · rw [hsame] at hstarted ⊢
    obtain ⟨held, hheld⟩ := Option.ne_none_iff_exists'.mp hstarted
    rw [hheld, Option.getD_some]
  · rw [hseeded, hnone, Option.getD_none]

/-- **What an answered request does**: its row is written, and a quota that decides for it counts what it
spent on top of what it had, or would have been seeded with; any other keeps its count. -/
theorem serve_of_allowed (hwithin : r.Within limits moment)
    (hallowed : (r.admitted limits w).2 = .allowed) :
    (r.serve limits w).rows = w.rows ++ [⟨r.asking, r.tokens, r.recordAt.now⟩] ∧
      ∀ quota ∈ limits, quota.counted = .tokens →
        (Narrowest limits r.asking quota → heldOf moment quota (r.serve limits w)
          = some ((heldOf moment quota w).getD (seedOf moment quota w) + r.tokens.total)) ∧
        (¬Narrowest limits r.asking quota →
          heldOf moment quota (r.serve limits w) = heldOf moment quota w) := by
  obtain ⟨hfair, hx⟩ := hwithin r.spendAt (by simp)
  have hrecord : (r.serve limits w) = (Process.exec handle r.spendAt
      (spend r.spendOrder limits r.asking r.tokens.total)
      { (r.admitted limits w).1 with
        rows := w.rows ++ [⟨r.asking, r.tokens, r.recordAt.now⟩] }).1 := by
    rw [Lone.serve, if_pos hallowed]
    simp only [UsageStore.recordUsage, Process.exec_call, Process.exec_done, handle,
      (hwithin r.recordAt (by simp)).1, rows_admitted hwithin]
  rw [hrecord]
  refine ⟨rows_spend hfair _ _ _ _ _, ?_⟩
  intro quota hmem hquota
  obtain ⟨hcounts, hkeeps⟩ := counts_spend hfair hquota
    { (r.admitted limits w).1 with rows := w.rows ++ [⟨r.asking, r.tokens, r.recordAt.now⟩] }
    r.spendOrder limits r.asking r.tokens.total
  rw [exists_decides_counter_iff r.spendAt.now hmem] at hcounts hkeeps
  simp only [counts_eq_heldOf hx hmem] at hcounts hkeeps
  refine ⟨?_, ?_⟩
  · intro hnarrowest
    exact hcounts hnarrowest _ (held_of_admitted hwithin hmem hquota hnarrowest hallowed)
  · intro hwider
    rw [hkeeps hwider]
    rcases held_admitted hwithin hmem hquota w with hsame | ⟨-, -, hnarrowest⟩
    · exact hsame
    · exact absurd hnarrowest hwider

/-- What an answered request adds to what a quota would be seeded with. -/
theorem seedOf_of_allowed (hwithin : r.Within limits moment) (hmem : quota ∈ limits)
    (hquota : quota.counted = .tokens) (hallowed : (r.admitted limits w).2 = .allowed) :
    seedOf moment quota (r.serve limits w)
      = seedOf moment quota w + if quota.holds r.asking then r.tokens.total else 0 := by
  have hbegan := quota.period.began_le r.recordAt.now
  rw [(hwithin r.recordAt (by simp)).2 quota hmem] at hbegan
  have happend := spentIn_append w.rows quota ⟨r.asking, r.tokens, r.recordAt.now⟩ hbegan
  rw [hquota] at happend
  rw [seedOf, (serve_of_allowed hwithin hallowed).1]
  exact happend

/-- What a refused request does: some quota that decides for it may be seeded. -/
theorem serve_of_refused (hwithin : r.Within limits moment) (hmem : quota ∈ limits)
    (hquota : quota.counted = .tokens) (hrefused : (r.admitted limits w).2 ≠ .allowed) :
    seedOf moment quota (r.serve limits w) = seedOf moment quota w ∧
      (heldOf moment quota (r.serve limits w) = heldOf moment quota w ∨
        heldOf moment quota (r.serve limits w) = some (seedOf moment quota w)) := by
  rw [Lone.serve, if_neg hrefused]
  refine ⟨?_, ?_⟩
  · rw [seedOf, rows_admitted hwithin, seedOf]
  · rcases held_admitted hwithin hmem hquota w with hsame | ⟨-, hseeded, -⟩
    · exact .inl hsame
    · exact .inr hseeded

theorem not_narrowest_iff (hholds : quota.holds r.asking = true) :
    ¬Narrowest limits r.asking quota ↔ ∃ other ∈ limits, other.holds r.asking = true ∧
      other.pair = quota.pair ∧ quota.narrowness < other.narrowness := by
  constructor
  · intro hwider
    by_contra hnone
    refine hwider ⟨hholds, ?_⟩
    intro other hother hoth hpair
    by_contra hlt
    exact hnone ⟨other, hother, hoth, hpair, Nat.not_le.mp hlt⟩
  · rintro ⟨other, hother, hoth, hpair, hlt⟩ hnarrowest
    exact absurd (hnarrowest.2 other hother hoth hpair) (Nat.not_le.mpr hlt)

theorem not_agrees_of_outranks (hwithin : r.Within limits moment) (h : Agrees limits moment w)
    (hallowed : (r.admitted limits w).2 = .allowed) (houtranks : Outranks limits moment w r) :
    ¬Agrees limits moment (r.serve limits w) := by
  obtain ⟨hspends, quota, hmem, hquota, hholds, hheld, hother⟩ := houtranks
  obtain ⟨held, hheld⟩ := Option.ne_none_iff_exists'.mp hheld
  have hkept := ((serve_of_allowed hwithin hallowed).2 quota hmem hquota).2
    ((not_narrowest_iff hholds).mpr hother)
  intro hagrees
  have hbefore := h quota hmem hquota held hheld
  have hafter := hagrees quota hmem hquota held (hkept.trans hheld)
  rw [seedOf_of_allowed hwithin hmem hquota hallowed, if_pos hholds] at hafter
  omega

theorem agrees_of_not_outranks (hwithin : r.Within limits moment) (h : Agrees limits moment w)
    (hallowed : (r.admitted limits w).2 = .allowed) (hmeets : ¬Outranks limits moment w r) :
    Agrees limits moment (r.serve limits w) := by
  intro quota hmem hquota held hheld
  obtain ⟨hcounts, hkeeps⟩ := (serve_of_allowed hwithin hallowed).2 quota hmem hquota
  rw [seedOf_of_allowed hwithin hmem hquota hallowed]
  by_cases hnarrowest : Narrowest limits r.asking quota
  · rw [hcounts hnarrowest, Option.some.injEq] at hheld
    rw [if_pos hnarrowest.1, ← hheld]
    cases hbefore : heldOf moment quota w with
    | none => rfl
    | some count => rw [Option.getD_some, h quota hmem hquota count hbefore]
  · rw [hkeeps hnarrowest] at hheld
    have hbefore := h quota hmem hquota held hheld
    split
    · rename_i hholds
      -- a narrower limit holds the request too, so its answer spends nothing
      have hnothing : r.tokens.total = 0 := by
        by_contra hspends
        exact hmeets ⟨hspends, quota, hmem, hquota, hholds,
          Option.ne_none_iff_exists'.mpr ⟨held, hheld⟩, (not_narrowest_iff hholds).mp hnarrowest⟩
      rw [hnothing]
      exact hbefore
    · exact hbefore

/-- **One request keeps every quota in agreement with the rows exactly when it does not spend past a
count.** -/
theorem agrees_serve_iff (hwithin : r.Within limits moment) (h : Agrees limits moment w) :
    Agrees limits moment (r.serve limits w) ↔
      ((r.admitted limits w).2 = .allowed → ¬Outranks limits moment w r) := by
  by_cases hallowed : (r.admitted limits w).2 = .allowed
  · constructor
    · intro hagrees _ houtranks
      exact not_agrees_of_outranks hwithin h hallowed houtranks hagrees
    · intro hmeets
      exact agrees_of_not_outranks hwithin h hallowed (hmeets hallowed)
  · refine ⟨fun _ habs => absurd habs hallowed, ?_⟩
    rintro - quota hmem hquota held hheld
    obtain ⟨hseed, hsame | hseeded⟩ := serve_of_refused hwithin hmem hquota hallowed
    · rw [hseed]
      exact h quota hmem hquota held (hsame.symm.trans hheld)
    · rw [hseed]
      exact (Option.some.inj (hseeded.symm.trans hheld)).symm

end Serve

/-! ### A whole run -/

section Runs

variable {limits : List Limit} {moment : Timestamp} {start : World} {calls : List Lone}

theorem serveAll_concat (calls : List Lone) (r : Lone) (start : World) :
    serveAll limits (calls ++ [r]) start = r.serve limits (serveAll limits calls start) := by
  simp only [serveAll, List.foldl_append, List.foldl_cons, List.foldl_nil]

/-- What a quota would be seeded with is what was spent before and what those answered spent in its
scope. -/
theorem seedOf_serveAll {quota : Limit} (hmem : quota ∈ limits) (hquota : quota.counted = .tokens)
    (hwithin : ∀ r ∈ calls, r.Within limits moment) (start : World) :
    seedOf moment quota (serveAll limits calls start)
      = seedOf moment quota start +
        (((answered limits calls start).filter fun r => quota.holds r.asking).map
          fun r => r.tokens.total).sum := by
  induction calls generalizing start with
  | nil => rfl
  | cons r rest ih =>
    have hrest := ih (fun r hr => hwithin r (List.mem_cons_of_mem _ hr)) (r.serve limits start)
    have hr := hwithin r (List.mem_cons_self ..)
    have hcons : serveAll limits (r :: rest) start = serveAll limits rest (r.serve limits start) := rfl
    rw [hcons, hrest]
    by_cases hallowed : (r.admitted limits start).2 = .allowed
    · rw [seedOf_of_allowed hr hmem hquota hallowed, answered, if_pos hallowed, List.filter_cons]
      cases quota.holds r.asking <;> simp [Nat.add_assoc]
    · rw [(serve_of_refused hr hmem hquota hallowed).1, answered, if_neg hallowed]

theorem countsAll_iff_agrees (hwithin : ∀ r ∈ calls, r.Within limits moment) :
    CountsAll limits moment start calls ↔ Agrees limits moment (serveAll limits calls start) := by
  constructor
  · intro h quota hmem hquota held hheld
    exact (h quota hmem hquota held hheld).2
  · intro h quota hmem hquota held hheld
    have hagrees := h quota hmem hquota held hheld
    exact ⟨hagrees.trans (seedOf_serveAll hmem hquota hwithin start), hagrees⟩

/-- **Every quota counts everything spent in its scope, all along a run of requests one after the other,
exactly when no answer spends past a count that it leaves out.** -/
theorem countsAll_along_iff (limits : List Limit) (moment : Timestamp) (start : World) (calls : List Lone)
    (hwithin : ∀ r ∈ calls, r.Within limits moment) (hstart : Agrees limits moment start) :
    (∀ before after, calls = before ++ after → CountsAll limits moment start before) ↔
      ∀ before r after, calls = before ++ r :: after →
        (r.admitted limits (serveAll limits before start)).2 = .allowed →
        ¬Outranks limits moment (serveAll limits before start) r := by
  have hpart : ∀ before after, calls = before ++ after → ∀ r ∈ before, r.Within limits moment := by
    rintro before after rfl r hr
    exact hwithin r (List.mem_append_left _ hr)
  constructor
  · intro hall before r after hsplit
    have hsplit' : calls = (before ++ [r]) ++ after := by rw [hsplit, List.append_assoc]; rfl
    have hbefore := (countsAll_iff_agrees (hpart _ _ hsplit)).mp (hall _ _ hsplit)
    have hafter := (countsAll_iff_agrees (hpart _ _ hsplit')).mp (hall _ _ hsplit')
    rw [serveAll_concat] at hafter
    exact (agrees_serve_iff (hwithin r (by simp [hsplit])) hbefore).mp hafter
  · intro hmeets before after hsplit
    refine (countsAll_iff_agrees (hpart _ _ hsplit)).mpr ?_
    induction before using List.reverseRecOn generalizing after with
    | nil => exact hstart
    | append_singleton init r ih =>
      have hsplit' : calls = init ++ r :: after := by rw [hsplit, List.append_assoc]; rfl
      rw [serveAll_concat]
      exact (agrees_serve_iff (hwithin r (by simp [hsplit'])) (ih _ hsplit')).mpr
        (hmeets init r after hsplit')

end Runs

/-- A request of one account, all of it at one moment. -/
def loneOf (user : UserId) (input : UInt32) : Lone :=
  ⟨.of user, ⟨input, 0⟩, .asPut, .asPut, ⟨.epoch, none⟩, ⟨.epoch, none⟩, ⟨.epoch, none⟩⟩

theorem loneOf_within (limits : List Limit) (user : UserId) (input : UInt32) :
    (loneOf user input).Within limits .epoch := by
  intro x hx
  simp only [loneOf, List.mem_cons, List.not_mem_nil, or_false, or_self] at hx
  rw [hx]
  exact ⟨rfl, fun _ _ => rfl⟩

/-- A quota over the whole tenant counts both accounts while it alone is set. -/
theorem countsAll_tenantWide :
    CountsAll [tenantWide .tokens ⟨100, by decide⟩] .epoch ⟨fun _ => none, []⟩
        [loneOf bob 5, loneOf alice 7] ∧
      heldOf .epoch (tenantWide .tokens ⟨100, by decide⟩)
        (serveAll [tenantWide .tokens ⟨100, by decide⟩] [loneOf bob 5, loneOf alice 7]
          ⟨fun _ => none, []⟩) = some 12 := by
  refine ⟨(countsAll_along_iff _ _ _ [loneOf bob 5, loneOf alice 7] ?_ ?_).mpr ?_ _ [] rfl,
    by decide +kernel⟩
  · simp [loneOf_within]
  · intro quota _ _ held hheld
    cases hheld
  · rintro before r after - - ⟨-, quota, hquota, -, -, -, other, hother, -, -, hlt⟩
    rw [List.mem_singleton.mp hquota, List.mem_singleton.mp hother] at hlt
    exact absurd hlt (Nat.lt_irrefl _)

/-- **A tenant's quota misses what an account with a limit of its own spends**: twelve tokens are spent,
and its count stands at five. -/
theorem count_misses_alice :
    ¬∀ (limits : List Limit) (moment : Timestamp) (start : World) (calls : List Lone),
      (∀ r ∈ calls, r.Within limits moment) → Agrees limits moment start →
      CountsAll limits moment start calls := by
  intro hall
  have hrun : heldOf .epoch (tenantWide .tokens ⟨100, by decide⟩)
        (serveAll [tenantWide .tokens ⟨100, by decide⟩, onAccount alice .tokens ⟨50, by decide⟩]
          [loneOf bob 5, loneOf alice 7] ⟨fun _ => none, []⟩) = some 5 ∧
      seedOf .epoch (tenantWide .tokens ⟨100, by decide⟩)
        (serveAll [tenantWide .tokens ⟨100, by decide⟩, onAccount alice .tokens ⟨50, by decide⟩]
          [loneOf bob 5, loneOf alice 7] ⟨fun _ => none, []⟩) = 12 := by decide +kernel
  have hcounts := hall [tenantWide .tokens ⟨100, by decide⟩, onAccount alice .tokens ⟨50, by decide⟩]
    .epoch ⟨fun _ => none, []⟩ [loneOf bob 5, loneOf alice 7] (by simp [loneOf_within])
    (fun _ _ _ _ hheld => by cases hheld) _ (List.mem_cons_self ..) rfl 5 hrun.1
  rw [hrun.2] at hcounts
  exact absurd hcounts.2 (by decide)

end IntelliPrism.Gateway
