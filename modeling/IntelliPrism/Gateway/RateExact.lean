import IntelliPrism.Gateway.Rate

/-!
# A request rate lets through exactly what it allows

While no count is lost, only the first seed takes effect, and every request that is counted after it takes
a number of its own.

* `FirstHeld` — what the count first stood at: what was held at the start, or what was first seeded;
* `Numbered` — from then on the count is that and the requests counted since, of which those within the
  allowance were allowed;
* `LetsThrough`, `rate_letsThrough` — **of the requests a rate decides for it lets through exactly what it
  allows**, and it decides for each of them.
-/

namespace IntelliPrism.Gateway

open IntelliPrism.Lib IntelliPrism.Core IntelliPrism.Cache

/-- What the count first stands at along a schedule: what is held at its start, or what the seed that
finds nothing held writes. -/
def FirstHeld (limit : Limit) (began : Timestamp) (start : Pool World Thread)
    (sched : List (ℕ × Weather)) (s : ℕ) : Prop :=
  start.shared.counts (counterKey limit began) = some s ∨
    ∃ before i x after m r now, sched = before ++ (i, x) :: after ∧
      Pool.run Thread.step (InStretch limit began) start before = some m ∧
      m.shared.counts (counterKey limit began) = none ∧
      m.threads[i]? = some (.request r (.seeding now limit [] s))

/-- What a rate does for the requests of a schedule from `start` to `last`. -/
structure LetsThrough (limit : Limit) (began : Timestamp) (start : Pool World Thread)
    (sched : List (ℕ × Weather)) (last : Pool World Thread) : Prop where
  /-- No schedule goes on for more than eight steps of each thread. -/
  ends : sched.length ≤ 8 * start.threads.length
  /-- A request that is not decided yet can go on, whatever it is supplied with. -/
  goesOn : ∀ t ∈ last.threads, t.stands limit Stage.isUndecided = true → ∀ x,
    (Thread.step x last.shared t).isSome = true
  /-- Once some request was decided, some count was first held. -/
  held : start.threads.countP (Thread.stands limit Stage.isUndecided) ≠ 0 →
    last.threads.countP (Thread.stands limit Stage.isUndecided) = 0 →
    ∃ s, FirstHeld limit began start sched s
  /-- Once all are decided, those that were are allowed as far as the allowance goes past that count. -/
  exact : last.threads.countP (Thread.stands limit Stage.isUndecided) = 0 →
    ∀ s, FirstHeld limit began start sched s →
      last.threads.countP (Thread.stands limit Stage.isAllowed)
        = start.threads.countP (Thread.stands limit Stage.isAllowed)
          + min (start.threads.countP (Thread.stands limit Stage.isUndecided)) (limit.allowance.get - s)

/-! ### Every schedule ends -/

/-- How many steps a request may still take at a stage. -/
def Stage.left : Stage → ℕ
  | .arriving => 8
  | .asking _ _ _ => 7
  | .summing _ _ _ => 6
  | .seeding _ _ _ _ => 5
  | .counting _ _ _ => 4
  | .admitted => 3
  | .spending => 2
  | .adding _ _ _ => 1
  | .refused _ => 0
  | .finished => 0

/-- How many steps a thread may still take. -/
def Thread.left : Thread → ℕ
  | .request _ stage => stage.left
  | .losing _ => 1
  | .lost => 0

section Step

variable {limit : Limit} {began : Timestamp} {x : Weather} {w w' : World} {r : Request}
  {stage stage' : Stage} {t t' : Thread} {p : Pool World Thread}

theorem onward_left {n : ℕ} (h : 3 ≤ n) (now : Timestamp) :
    Request.Onward (fun stage => stage.left ≤ n) now [] where
  asking _ _ h := nomatch h
  refused _ := Nat.zero_le n
  admitted := h
  finished := Nat.zero_le n

theorem left_judged (now : Timestamp) (read : ℕ) :
    (r.judged now limit [] (.ok read)).left ≤ 4 :=
  (onward_left (Nat.le_succ 3) now).judged r (fun _ => Nat.le_refl 4) _

theorem Moves.left_lt (hmoves : Moves limit began x w r stage w' stage') : stage'.left < stage.left := by
  cases hmoves with
  | arrives _ => exact Nat.lt_succ_self 7
  | passes _ =>
    exact Nat.lt_of_le_of_lt ((onward_left (Nat.le_refl 3) x.now).goesOn r) (show 3 < 8 by decide)
  | finds _ => exact Nat.lt_of_le_of_lt (left_judged _ _) (show 4 < 7 by decide)
  | misses _ => exact Nat.lt_succ_self 6
  | sums => exact Nat.lt_succ_self 5
  | seeds => exact Nat.lt_of_le_of_lt (left_judged _ _) (show 4 < 5 by decide)
  | counts _ _ =>
    exact Nat.lt_of_le_of_lt ((onward_left (Nat.le_refl 3) _).decided r _) (show 3 < 4 by decide)
  | records _ => split <;> decide
  | spends _ _ => exact Nat.lt_succ_self 1
  | skips _ => decide
  | adds _ _ _ => exact Nat.lt_succ_self 0

theorem step_left_lt (hx : InStretch limit began p t x) (hunder : Under limit began t)
    (h : Thread.step x w t = some (w', t')) : t'.left < t.left := by
  obtain ⟨key, rfl, rfl, rfl⟩ | ⟨r, stage, stage', rfl, rfl, -, -, -, hmoves⟩ := thread_moves hx hunder h
  · exact Nat.zero_lt_one
  · exact hmoves.left_lt

end Step

theorem left_le (t : Thread) : t.left ≤ 8 := by
  cases t with
  | request r stage => cases stage <;> simp [Thread.left, Stage.left]
  | losing key => simp [Thread.left]
  | lost => simp [Thread.left]

/-- **Every schedule ends.** -/
theorem schedule_le {limit : Limit} {began : Timestamp} {start last : Pool World Thread}
    {sched : List (ℕ × Weather)} (hunder : ∀ t ∈ start.threads, Under limit began t)
    (h : Pool.run Thread.step (InStretch limit began) start sched = some last) :
    sched.length ≤ 8 * start.threads.length := by
  have hcount : sched.length + Pool.tally Thread.left last.threads
      ≤ Pool.tally Thread.left start.threads := by
    refine Pool.run_length_le ?_ hunder h
    intro p t x s' t' ht hx hs
    exact ⟨step_under hx ht hs, step_left_lt hx ht hs⟩
  exact (Nat.le_add_right _ _).trans (hcount.trans (Pool.tally_le left_le _))

/-! ### Who is counted -/

/-- The requests a limit's scope holds are undecided, allowed or refused. -/
theorem countP_inScope (limit : Limit) (threads : List Thread) :
    threads.countP (Thread.stands limit fun _ => true)
      = threads.countP (Thread.stands limit Stage.isUndecided)
        + threads.countP (Thread.stands limit Stage.isAllowed)
        + threads.countP (Thread.stands limit Stage.isRefused) := by
  induction threads with
  | nil => rfl
  | cons t threads ih =>
    simp only [List.countP_cons, ih]
    cases t with
    | request r stage =>
      cases stage <;> cases limit.holds r.asking <;>
        simp [Thread.stands, Stage.isUndecided, Stage.isAllowed, Stage.isRefused] <;> omega
    | losing key => rfl
    | lost => rfl

theorem countP_inScope_eq {C : Guard Weather World Thread} {p q : Pool World Thread} (limit : Limit)
    (h : Pool.Reach Thread.step C p q) :
    q.threads.countP (Thread.stands limit fun _ => true)
      = p.threads.countP (Thread.stands limit fun _ => true) := by
  refine h.invariant (I := fun q => q.threads.countP (Thread.stands limit fun _ => true)
    = p.threads.countP (Thread.stands limit fun _ => true)) rfl ?_
  intro s pre t post x s' t' hI _ hs
  have hsame : t'.stands limit (fun _ => true) = t.stands limit (fun _ => true) := by
    cases t with
    | request r stage =>
      obtain ⟨_, _, heq⟩ := Option.map_eq_some_iff.mp hs
      obtain ⟨-, rfl⟩ := Prod.mk.inj heq
      rfl
    | losing key =>
      obtain ⟨-, rfl⟩ := Prod.mk.inj (Option.some.inj hs)
      rfl
    | lost => cases hs
  rw [← hI]
  simp only [List.countP_append, List.countP_cons, hsame]

/-! ### Numbers -/

/-- A thread under the one limit that does not lose its count. -/
def Keeping (limit : Limit) (began : Timestamp) (t : Thread) : Prop :=
  Under limit began t ∧ t ≠ .losing (counterKey limit began)

/-- Nobody was counted while no count is held. -/
def Unstarted (limit : Limit) (began : Timestamp) (earlier : ℕ) (w : World) (stood : ℕ × ℕ) : Prop :=
  w.counts (counterKey limit began) = none → stood = (earlier, 0)

/-- The count is what it first stood at and the requests counted since, and those within the allowance
were allowed. -/
def Numbered (limit : Limit) (began : Timestamp) (earlier s : ℕ) (w : World) (stood : ℕ × ℕ) : Prop :=
  ∃ n, w.counts (counterKey limit began) = some (s + n) ∧
    stood.1 = earlier + min n (limit.allowance.get - s) ∧ stood.1 + stood.2 = earlier + n

section Numbers

variable {limit : Limit} {began : Timestamp} {x : Weather} {w w' : World} {t t' : Thread}
  {p : Pool World Thread} {earlier s : ℕ} {rest : ℕ × ℕ}

theorem step_keeping (hx : InStretch limit began p t x) (ht : Keeping limit began t)
    (h : Thread.step x w t = some (w', t')) : Keeping limit began t' := by
  refine ⟨step_under hx ht.1 h, ?_⟩
  obtain ⟨key, rfl, rfl, rfl⟩ | ⟨r, stage, stage', rfl, rfl, -⟩ := thread_moves hx ht.1 h
  · exact Thread.noConfusion
  · exact Thread.noConfusion

theorem Rates.unstarted (hrates : Rates limit began w w' t t') (ht : Keeping limit began t)
    (h : Unstarted limit began earlier w (rest + standing limit t)) :
    Unstarted limit began earlier w' (rest + standing limit t') := by
  intro hnone
  cases hrates with
  | quiet hcount hstanding =>
    rw [hstanding]
    exact h (hcount.symm.trans hnone)
  | loses hlosing _ _ => exact absurd hlosing ht.2
  | seeds r now start _ hcount _ => cases hcount.symm.trans hnone
  | counts r now _ hcount _ _ => cases hcount.symm.trans hnone

theorem Rates.numbered (hrates : Rates limit began w w' t t') (ht : Keeping limit began t)
    (h : Numbered limit began earlier s w (rest + standing limit t)) :
    Numbered limit began earlier s w' (rest + standing limit t') := by
  obtain ⟨n, hheld, hallowed, hall⟩ := h
  cases hrates with
  | quiet hcount hstanding =>
    rw [hstanding]
    exact ⟨n, hcount.trans hheld, hallowed, hall⟩
  | loses hlosing _ _ => exact absurd hlosing ht.2
  | seeds r now start _ hcount hstanding =>
    rw [hheld, Option.getD_some] at hcount
    rw [hstanding]
    exact ⟨n, hcount, hallowed, hall⟩
  | counts r now _ hcount hbefore hstanding =>
    rw [hheld, Option.getD_some] at hcount hstanding
    rw [hbefore, add_zero] at hallowed hall
    refine ⟨n + 1, hcount, ?_⟩
    rw [hstanding]
    -- the number taken is within the allowance, or the allowance is used up
    split
    · simp only [Prod.fst_add, Prod.snd_add]
      omega
    · simp only [Prod.fst_add, Prod.snd_add]
      omega

theorem Moves.held_of_counting {r : Request} {stage : Stage} {now : Timestamp} {l : Limit}
    {later : List Limit} (hmoves : Moves limit began x w r stage w' (.counting now l later)) :
    w'.counts (counterKey limit began) ≠ none := by
  generalize hstage : Stage.counting now l later = stage' at hmoves
  cases hmoves with
  | arrives _ => cases hstage
  | passes _ =>
    unfold Request.goesOn at hstage
    split at hstage <;> cases hstage
  | finds hheld => exact Option.ne_none_iff_exists'.mpr ⟨_, hheld⟩
  | misses _ => cases hstage
  | sums => cases hstage
  | seeds => simp
  | counts _ _ => simp
  | records _ => split at hstage <;> cases hstage
  | spends _ _ => cases hstage
  | skips _ => cases hstage
  | adds _ _ _ => cases hstage

/-- A thread that is about to count finds a count held. -/
def CountsHeld (limit : Limit) (began : Timestamp) (w : World) (t : Thread) : Prop :=
  Keeping limit began t ∧ ∀ r now l later, t = .request r (.counting now l later) →
    w.counts (counterKey limit began) ≠ none

theorem Rates.held (hrates : Rates limit began w w' t t') (ht : Keeping limit began t)
    (h : w.counts (counterKey limit began) ≠ none) : w'.counts (counterKey limit began) ≠ none := by
  cases hrates with
  | quiet hcount _ => rwa [hcount]
  | loses hlosing _ _ => exact absurd hlosing ht.2
  | seeds r now start _ hcount _ => simp [hcount]
  | counts r now _ hcount _ _ => simp [hcount]

theorem step_countsHeld (hrequests : limit.counted = .requests) (hx : InStretch limit began p t x)
    (ht : CountsHeld limit began w t) (h : Thread.step x w t = some (w', t')) :
    CountsHeld limit began w' t' ∧ ∀ u, CountsHeld limit began w u → CountsHeld limit began w' u := by
  refine ⟨⟨step_keeping hx ht.1 h, ?_⟩, ?_⟩
  · rintro r now l later rfl
    obtain ⟨key, -, hlost, -⟩ | ⟨r, stage, stage', -, heq, -, -, -, hmoves⟩ := thread_moves hx ht.1.1 h
    · cases hlost
    · cases heq
      exact hmoves.held_of_counting
  · intro u hu
    refine ⟨hu.1, ?_⟩
    intro r now l later heq
    exact (rates_of_step hrequests hx ht.1.1 h).held ht.1 (hu.2 r now l later heq)

end Numbers

/-! ### Exactly what it allows -/

section Runs

variable {limit : Limit} {began : Timestamp} {start last : Pool World Thread}
  {sched : List (ℕ × Weather)}

theorem reach_unstarted (hrequests : limit.counted = .requests)
    (hkeeping : ∀ t ∈ start.threads, Keeping limit began t) {earlier : ℕ}
    (hstart : Pool.tally (standing limit) start.threads = (earlier, 0))
    (h : Pool.Reach Thread.step (InStretch limit began) start last) :
    (∀ t ∈ last.threads, Keeping limit began t) ∧
      Unstarted limit began earlier last.shared (Pool.tally (standing limit) last.threads) := by
  refine h.tally_invariant hkeeping (fun _ => hstart) ?_
  intro w threads t x w' t' rest _ ht hx hs hunstarted
  exact ⟨step_keeping hx ht hs, (rates_of_step hrequests hx ht.1 hs).unstarted ht hunstarted⟩

/-- Once a count is held, every request counted takes the next number. -/
theorem reach_numbered (hrequests : limit.counted = .requests)
    (hkeeping : ∀ t ∈ start.threads, Keeping limit began t) {earlier s : ℕ}
    (hstart : Numbered limit began earlier s start.shared (Pool.tally (standing limit) start.threads))
    (h : Pool.Reach Thread.step (InStretch limit began) start last) :
    Numbered limit began earlier s last.shared (Pool.tally (standing limit) last.threads) := by
  refine (h.tally_invariant hkeeping hstart ?_).2
  intro w threads t x w' t' rest _ ht hx hs hnumbered
  exact ⟨step_keeping hx ht hs, (rates_of_step hrequests hx ht.1 hs).numbered ht hnumbered⟩

theorem numbered_of_first {earlier s : ℕ} {w : World} (h : w.counts (counterKey limit began) = some s) :
    Numbered limit began earlier s w (earlier, 0) :=
  ⟨0, h, by simp, rfl⟩

theorem fire_seeding {m m' : Pool World Thread} {i : ℕ} {x : Weather} {r : Request} {now : Timestamp}
    {s : ℕ} (hrequests : limit.counted = .requests) (hkeeping : ∀ t ∈ m.threads, Keeping limit began t)
    (hnone : m.shared.counts (counterKey limit began) = none)
    (hi : m.threads[i]? = some (.request r (.seeding now limit [] s)))
    (h : Pool.fire Thread.step (InStretch limit began) m i x = some m') :
    m'.shared.counts (counterKey limit began) = some s ∧
      Pool.tally (standing limit) m'.threads = Pool.tally (standing limit) m.threads := by
  obtain ⟨pre, t, post, w', t', hthreads, rfl, hx, hs, rfl⟩ := Pool.fire_eq_some h
  have hat : m.threads[pre.length]? = some t := by simp [hthreads]
  obtain rfl := Option.some.inj (hat.symm.trans hi)
  have ht := hkeeping _ (List.mem_of_getElem? hi)
  obtain ⟨key, hlosing, -⟩ | ⟨r, stage, stage', heq, rfl, -, -, -, hmoves⟩ := thread_moves hx ht.1 hs
  · cases hlosing
  · cases heq
    cases hmoves with
    | seeds =>
      rw [hnone, Option.getD_none, judged_requests hrequests]
      refine ⟨World.setCount_self .., ?_⟩
      simp only [hthreads, Pool.tally_split]
      rfl

/-- Along a schedule, what the count first stood at is numbered from to the end. -/
theorem numbered_of_firstHeld (hrequests : limit.counted = .requests)
    (hkeeping : ∀ t ∈ start.threads, Keeping limit began t) {earlier s : ℕ}
    (hstart : Pool.tally (standing limit) start.threads = (earlier, 0))
    (hfirst : FirstHeld limit began start sched s)
    (h : Pool.run Thread.step (InStretch limit began) start sched = some last) :
    Numbered limit began earlier s last.shared (Pool.tally (standing limit) last.threads) := by
  rcases hfirst with hheld | ⟨before, i, x, after, m, r, now, rfl, hbefore, hnone, hi⟩
  · refine reach_numbered hrequests hkeeping ?_ (Pool.reach_of_run h)
    rw [hstart]
    exact numbered_of_first hheld
  · rw [Pool.run_append, hbefore, Option.bind_some] at h
    obtain ⟨m', hfire, hafter⟩ := Option.bind_eq_some_iff.mp h
    obtain ⟨hm, hunstarted⟩ := reach_unstarted hrequests hkeeping hstart (Pool.reach_of_run hbefore)
    obtain ⟨hseeded, hstood⟩ := fire_seeding hrequests hm hnone hi hfire
    have hm' : ∀ t ∈ m'.threads, Keeping limit began t :=
      (reach_unstarted hrequests hm (hunstarted hnone)
        (.single (Pool.steps_of_fire hfire))).1
    refine reach_numbered hrequests hm' ?_ (Pool.reach_of_run hafter)
    rw [hstood, hunstarted hnone]
    exact numbered_of_first hseeded

theorem exists_firstHeld (hrequests : limit.counted = .requests)
    (hheld : ∀ t ∈ start.threads, CountsHeld limit began start.shared t)
    (h : Pool.run Thread.step (InStretch limit began) start sched = some last)
    (hlast : last.shared.counts (counterKey limit began) ≠ none) :
    ∃ s, FirstHeld limit began start sched s := by
  cases hcount : start.shared.counts (counterKey limit began) with
  | some s => exact ⟨s, .inl hcount⟩
  | none =>
    obtain ⟨before, i, x, after, m, m', rfl, hbefore, hnone, hfire, hsome⟩ :=
      Pool.exists_first_of_run (P := fun p => p.shared.counts (counterKey limit began) ≠ none)
        (not_not.mpr hcount) hlast h
    have hm : Pool.Local (fun _ => True) (CountsHeld limit began) m := by
      refine (Pool.reach_of_run hbefore).local_invariant ⟨trivial, hheld⟩ ?_
      intro w pre t post x w' t' hI hx hs
      have ht := hI.2 t (List.mem_append_right _ (List.mem_cons_self ..))
      exact ⟨trivial, step_countsHeld hrequests hx ht hs⟩
    obtain ⟨pre, t, post, w', t', hthreads, rfl, hx, hs, rfl⟩ := Pool.fire_eq_some hfire
    have hat : m.threads[pre.length]? = some t := by simp [hthreads]
    have ht := hm.2 t (List.mem_of_getElem? hat)
    cases rates_of_step hrequests hx ht.1.1 hs with
    | quiet hsame _ => exact absurd (hsame.trans (not_not.mp hnone)) hsome
    | loses _ hlost _ => exact absurd hlost hsome
    | seeds r now s hseeding _ _ =>
      exact ⟨s, .inr ⟨before, _, x, after, m, r, now, rfl, hbefore, not_not.mp hnone,
        by rw [hat, hseeding]⟩⟩
    | counts r now hcounting _ _ _ => exact absurd (ht.2 r now limit [] hcounting) hnone

end Runs

theorem isSome_of_undecided {limit : Limit} {t : Thread}
    (h : t.stands limit Stage.isUndecided = true) (x : Weather) (w : World) :
    (Thread.step x w t).isSome = true := by
  cases t with
  | request r stage =>
    obtain ⟨-, hstage⟩ := Bool.and_eq_true_iff.mp h
    cases stage <;> first | rfl | cases hstage
  | losing key => cases h
  | lost => cases h

/-- A request that has not set out, or was answered before, is not refused. -/
theorem Fresh.not_refused {limit : Limit} {t : Thread} (h : Fresh limit t) :
    t.stands limit Stage.isRefused = false := by
  cases t with
  | request r stage => obtain ⟨-, rfl | rfl⟩ := h <;> simp [Thread.stands, Stage.isRefused]
  | losing key => rfl
  | lost => rfl

/-- **A request rate lets through exactly what it allows**, in every interleaving of the steps of any
number of requests with each other and with the recording of rows, in one stretch and while its count is
not lost. -/
theorem rate_letsThrough (limit : Limit) (hrequests : limit.counted = .requests) (began : Timestamp)
    (w : World) (threads : List Thread) (hfresh : ∀ t ∈ threads, Fresh limit t)
    (hkept : .losing (counterKey limit began) ∉ threads) (sched : List (ℕ × Weather))
    (last : Pool World Thread)
    (h : Pool.run Thread.step (InStretch limit began) ⟨w, threads⟩ sched = some last) :
    LetsThrough limit began ⟨w, threads⟩ sched last := by
  have hkeeping : ∀ t ∈ threads, Keeping limit began t := by
    intro t ht
    exact ⟨(hfresh t ht).under, fun heq => hkept (heq ▸ ht)⟩
  have hrefused : threads.countP (Thread.stands limit Stage.isRefused) = 0 := by
    rw [List.countP_eq_zero]
    intro t ht
    rw [(hfresh t ht).not_refused]
    exact Bool.false_ne_true
  have hstart : Pool.tally (standing limit) threads
      = (threads.countP (Thread.stands limit Stage.isAllowed), 0) := by
    rw [tally_standing, hrefused]
  have hall := countP_inScope_eq limit (Pool.reach_of_run h)
  rw [countP_inScope, countP_inScope] at hall
  simp only [hrefused] at hall
  refine ⟨schedule_le (fun t ht => (hkeeping t ht).1) h, ?_, ?_, ?_⟩
  · intro t _ hundecided x
    exact isSome_of_undecided hundecided x last.shared
  · intro hsome hdecided
    refine exists_firstHeld hrequests ?_ h ?_
    · intro t ht
      refine ⟨hkeeping t ht, ?_⟩
      rintro r now l later rfl
      obtain ⟨-, hstage | hstage⟩ := hfresh _ ht
      · cases hstage
      · cases hstage
    · -- with no count held nobody was decided, and some request was
      intro hnone
      have hstood := (reach_unstarted hrequests hkeeping hstart (Pool.reach_of_run h)).2 hnone
      rw [tally_standing] at hstood
      obtain ⟨hallowed, hrefusals⟩ := Prod.mk.inj hstood
      simp only at hsome
      omega
  · intro hdecided s hfirst
    obtain ⟨n, -, hallowed, hcounted⟩ := numbered_of_firstHeld hrequests hkeeping hstart hfirst h
    rw [tally_standing] at hallowed hcounted
    have hn : n = threads.countP (Thread.stands limit Stage.isUndecided) := by
      simp only at hcounted
      omega
    rw [← hn]
    exact hallowed

/-- Two requests under one request a minute, and an answer to an earlier one that is yet to be
recorded. -/
def twoAndEarlier : List Thread :=
  [underRequests none, underRequests none,
    .request ⟨.of bob, [oneByMinute], .asPut, .asPut, some ⟨5, 0⟩⟩ .admitted]

/-- The two take turns, and the earlier row is written between their sums. -/
def inTurn : List (ℕ × Weather) :=
  [0, 1, 0, 1, 0, 2, 1, 1, 0, 0, 1].map (·, ⟨.epoch, none⟩)

/-- The first to seed has summed the earlier row, so neither request is let through. -/
theorem rate_letsThrough_inTurn :
    ∃ last, LetsThrough oneByMinute .epoch ⟨⟨fun _ => none, []⟩, twoAndEarlier⟩ inTurn last ∧
      last.threads.countP (Thread.stands oneByMinute Stage.isUndecided) = 0 ∧
      last.threads.countP (Thread.stands oneByMinute Stage.isRefused) = 2 := by
  have hrun : (Pool.run Thread.step (InStretch oneByMinute .epoch)
      ⟨⟨fun _ => none, []⟩, twoAndEarlier⟩ inTurn).any
      (fun p => p.threads.countP (Thread.stands oneByMinute Stage.isUndecided) == 0 &&
        p.threads.countP (Thread.stands oneByMinute Stage.isRefused) == 2) = true := by decide +kernel
  obtain ⟨last, hlast, htest⟩ := (Option.any_eq_true _ _).mp hrun
  simp only [Bool.and_eq_true, beq_iff_eq] at htest
  refine ⟨last, ?_, htest⟩
  refine rate_letsThrough oneByMinute rfl .epoch _ twoAndEarlier ?_ ?_ inTurn last hlast
  · simp [twoAndEarlier, underRequests, Fresh]
  · simp [twoAndEarlier, underRequests]

end IntelliPrism.Gateway
