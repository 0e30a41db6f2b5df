import IntelliPrism.Gateway.Single

/-!
# A quota's count and the rows it is seeded from

A quota's count has two writers that know nothing of each other: an admit that finds no count seeds one
from the rows, and an answer that is recorded writes its row and counts its tokens, in two steps.  In
between, the row is there and its tokens are not counted.

* `QuotaAgrees` — while no record is part way written, a count that is held is what the rows come to;
* `StartsSettled` — a step that starts a count leaves out exactly what is part way written;
* `quotaAgrees_of_startsSettled` — **the count agrees with the rows** along every run of such steps;
* `seeded_twice` — without it a seed takes in a row whose tokens are then counted once more.
-/

namespace IntelliPrism.Gateway

open IntelliPrism.Lib IntelliPrism.Core IntelliPrism.Cache

/-- The row of the request is written, and its tokens are not counted yet. -/
def Thread.partWay : Thread → Bool
  | .request _ .spending => true
  | .request _ (.adding _ _ _) => true
  | _ => false

/-- What a thread has written a row for and has yet to count towards a quota. -/
def pending (limit : Limit) (t : Thread) : ℕ :=
  match t with
  | .request r _ =>
    if t.partWay && limit.holds r.asking then (r.outcome.map Tokens.total).getD 0 else 0
  | _ => 0

/-- While no record is part way written, a count that is held is what the rows come to. -/
def QuotaAgrees (limit : Limit) (began : Timestamp) (p : Pool World Thread) : Prop :=
  (∀ t ∈ p.threads, t.partWay = false) → ∀ held, p.shared.counts (counterKey limit began) = some held →
    held = spentIn p.shared.rows (filter limit.scope) .tokens began

/-- What a step starts a count from leaves out, of the rows there are, exactly what is part way
written. -/
def StartsSettled (limit : Limit) (began : Timestamp) : Guard Weather World Thread := fun p t _ =>
  p.shared.counts (counterKey limit began) = none → ∀ start ∈ t.startsFrom,
    start + Pool.tally (pending limit) p.threads
      = spentIn p.shared.rows (filter limit.scope) .tokens began

instance (limit : Limit) (began : Timestamp) (p : Pool World Thread) (t : Thread) (x : Weather) :
    Decidable (StartsSettled limit began p t x) :=
  inferInstanceAs (Decidable (_ → ∀ start ∈ t.startsFrom, _))

/-- A count that is held and what is part way written make up the rows. -/
def Balanced (limit : Limit) (began : Timestamp) (w : World) (owed : ℕ) : Prop :=
  ∀ held, w.counts (counterKey limit began) = some held →
    held + owed = spentIn w.rows (filter limit.scope) .tokens began

section Step

variable {limit : Limit} {began : Timestamp} {x : Weather} {w w' : World} {r : Request}
  {stage stage' : Stage} {rest : ℕ}

theorem pending_eq_zero {t : Thread} (h : t.partWay = false) : pending limit t = 0 := by
  cases t <;> simp [pending, h]

theorem onward_partWay (r : Request) (now : Timestamp) :
    Request.Onward (fun stage => (Thread.request r stage).partWay = false) now [] where
  asking _ _ h := nomatch h
  refused _ := rfl
  admitted := rfl
  finished := rfl

theorem partWay_judged (now : Timestamp) (read : ℕ) :
    (Thread.request r (r.judged now limit [] (.ok read))).partWay = false :=
  (onward_partWay r now).judged r (fun _ => rfl) _

/-- Counting moves tokens from what is owed to what is held, on top of what a count is started from. -/
theorem balanced_counts {start counted owed : ℕ}
    (hsettled : w.counts (counterKey limit began) = none →
      start + (owed + counted) = spentIn w.rows (filter limit.scope) .tokens began)
    (h : Balanced limit began w (owed + counted)) :
    Balanced limit began (w.setCount (counterKey limit began)
      (some ((w.counts (counterKey limit began)).getD start + counted))) owed := by
  intro held hheld
  rw [World.setCount_self, Option.some.injEq] at hheld
  rw [World.setCount_rows]
  cases hcount : w.counts (counterKey limit began) with
  | none =>
    have hall := hsettled hcount
    rw [hcount, Option.getD_none] at hheld
    omega
  | some count =>
    have hbefore := h count hcount
    rw [hcount, Option.getD_some] at hheld
    omega

theorem balanced_records {owed : ℕ} {tokens : Tokens} (htokens : limit.counted = .tokens)
    (hnow : limit.period.began x.now = began) (h : Balanced limit began w owed) :
    Balanced limit began { w with rows := w.rows ++ [⟨r.asking, tokens, x.now⟩] }
      (owed + if limit.holds r.asking then tokens.total else 0) := by
  intro held hheld
  have hbegan := limit.period.began_le x.now
  rw [hnow] at hbegan
  have hrow := spentIn_append w.rows limit ⟨r.asking, tokens, x.now⟩ hbegan
  rw [htokens] at hrow
  rw [hrow, ← h held hheld, Nat.add_assoc]
  rfl

theorem pending_spending {tokens : Tokens} (houtcome : r.outcome = some tokens) :
    pending limit (.request r (if tokens.total = 0 then .finished else .spending))
      = if limit.holds r.asking then tokens.total else 0 := by
  split
  · rename_i hzero
    rw [hzero, ite_self]
    rfl
  · simp [pending, Thread.partWay, houtcome]

/-- **One step of a request keeps the balance.** -/
theorem Moves.balanced (hmoves : Moves limit began x w r stage w' stage')
    (htokens : limit.counted = .tokens) (hnow : limit.period.began x.now = began)
    (hsettled : w.counts (counterKey limit began) = none →
      ∀ start ∈ (Thread.request r stage).startsFrom, start + (rest + pending limit (.request r stage))
        = spentIn w.rows (filter limit.scope) .tokens began)
    (h : Balanced limit began w (rest + pending limit (.request r stage))) :
    Balanced limit began w' (rest + pending limit (.request r stage')) := by
  cases hmoves with
  | arrives _ => exact h
  | passes _ =>
    rw [pending_eq_zero ((onward_partWay r x.now).goesOn r)]
    exact h
  | finds _ =>
    rw [pending_eq_zero (partWay_judged _ _)]
    exact h
  | misses _ => exact h
  | sums => exact h
  | @seeds now start =>
    have hnothing : pending limit (.request r (.seeding now limit [] start)) = 0 := rfl
    rw [hnothing] at h hsettled
    have hstarted := balanced_counts (fun hnone => hsettled hnone start rfl) h
    rw [Nat.add_zero] at hstarted
    rw [pending_eq_zero (partWay_judged _ _)]
    exact hstarted
  | counts hrequests _ =>
    rw [htokens] at hrequests
    cases hrequests
  | records houtcome =>
    rw [pending_spending houtcome]
    exact balanced_records htokens hnow h
  | spends _ _ => exact h
  | skips hskips =>
    rcases hskips with hholds | hrequests
    · have hnone : pending limit (.request r .spending) = 0 := by simp [pending, hholds]
      rw [hnone] at h
      exact h
    · rw [htokens] at hrequests
      cases hrequests
  | @adds now tokens _ hholds houtcome =>
    have hpending : pending limit (.request r (.adding now limit [])) = tokens.total := by
      simp [pending, Thread.partWay, hholds, houtcome]
    rw [hpending] at h hsettled
    exact balanced_counts (fun hnone => hsettled hnone 0 rfl) h

theorem balanced_losing (key : CacheKey) {owed : ℕ} (h : Balanced limit began w owed) :
    Balanced limit began (w.setCount key none) owed := by
  intro held hheld
  by_cases hkey : counterKey limit began = key
  · rw [hkey, World.setCount_self] at hheld
    cases hheld
  · rw [World.setCount_other w hkey] at hheld
    exact h held hheld

theorem step_balanced {threads : List Thread} {t t' : Thread} (htokens : limit.counted = .tokens)
    (hunder : Under limit began t) (hx : InStretch limit began ⟨w, threads⟩ t x)
    (hsettled : w.counts (counterKey limit began) = none → ∀ start ∈ t.startsFrom,
      start + (rest + pending limit t) = spentIn w.rows (filter limit.scope) .tokens began)
    (h : Thread.step x w t = some (w', t'))
    (hbalanced : Balanced limit began w (rest + pending limit t)) :
    Balanced limit began w' (rest + pending limit t') := by
  obtain ⟨key, rfl, rfl, rfl⟩ | ⟨r, stage, stage', rfl, rfl, -, -, -, hmoves⟩ := thread_moves hx hunder h
  · exact balanced_losing key hbalanced
  · exact hmoves.balanced htokens hx.2 hsettled hbalanced

theorem tally_pending_eq_zero {threads : List Thread} (h : ∀ t ∈ threads, t.partWay = false) :
    Pool.tally (pending limit) threads = 0 := by
  refine List.sum_eq_zero ?_
  intro owed howed
  obtain ⟨t, ht, rfl⟩ := List.mem_map.mp howed
  exact pending_eq_zero (h t ht)

theorem Fresh.partWay {t : Thread} (h : Fresh limit t) : t.partWay = false := by
  cases t with
  | request r stage => obtain ⟨-, rfl | rfl⟩ := h <;> rfl
  | losing key => rfl
  | lost => rfl

end Step

/-- **A quota's count agrees with the usage rows**, in every interleaving of admits, records and losses
in one stretch, as long as every step that starts a count leaves out of the rows exactly what is part way
written. -/
theorem quotaAgrees_of_startsSettled (limit : Limit) (htokens : limit.counted = .tokens)
    (began : Timestamp) (w : World) (threads : List Thread) (hfresh : ∀ t ∈ threads, Fresh limit t)
    (hheld : ∀ held, w.counts (counterKey limit began) = some held →
      held = spentIn w.rows (filter limit.scope) .tokens began)
    {p : Pool World Thread}
    (h : Pool.Reach Thread.step (Pool.both (InStretch limit began) (StartsSettled limit began))
      ⟨w, threads⟩ p) : QuotaAgrees limit began p := by
  have hnothing : Pool.tally (pending limit) threads = 0 := by
    refine tally_pending_eq_zero ?_
    intro t ht
    exact (hfresh t ht).partWay
  have hbalanced : Balanced limit began p.shared (Pool.tally (pending limit) p.threads) := by
    refine (h.tally_invariant (T := Under limit began) (J := Balanced limit began) ?_ ?_ ?_).2
    · intro t ht
      exact (hfresh t ht).under
    · intro held hsome
      rw [hnothing]
      exact hheld held hsome
    · intro s threads t x s' t' rest hrest hunder hC hs hbalanced
      refine ⟨step_under hC.1 hunder hs, ?_⟩
      have hsettled := hC.2
      unfold StartsSettled at hsettled
      rw [hrest] at hsettled
      exact step_balanced htokens hunder hC.1 hsettled hs hbalanced
  intro hnone held hsome
  have hagrees := hbalanced held hsome
  rw [tally_pending_eq_zero hnone] at hagrees
  exact hagrees

/-! ### A seed that takes in a row whose tokens are still to be counted -/

/-- A hundred tokens a minute for the whole tenant. -/
def tokensByMinute : Limit := tenantWide .tokens ⟨100, by decide⟩

/-- A request under that limit alone. -/
def underTokens (outcome : Option Tokens) : Thread :=
  .request ⟨.of alice, [tokensByMinute], .asPut, .asPut, outcome⟩ .arriving

/-- One request spends five tokens, another fails upstream, and the cache loses the count. -/
def twoAndALoss : List Thread :=
  [underTokens (some ⟨5, 0⟩), underTokens none, .losing (counterKey tokensByMinute .epoch)]

/-- The row is written after the loss, and the other request seeds before its tokens are counted. -/
def seedBetween : List (ℕ × Weather) :=
  [0, 0, 0, 0, 2, 0, 1, 1, 1, 1, 0, 0].map (·, ⟨.epoch, none⟩)

/-- The row is written and its tokens counted, and then the count is lost and seeded again. -/
def seedAfter : List (ℕ × Weather) :=
  [0, 0, 0, 0, 0, 0, 0, 2, 1, 1, 1, 1].map (·, ⟨.epoch, none⟩)

/-- The count is seeded afresh and is what the one row comes to. -/
theorem quotaAgrees_seedAfter :
    ∃ p, Pool.Reach Thread.step
        (Pool.both (InStretch tokensByMinute .epoch) (StartsSettled tokensByMinute .epoch))
        ⟨⟨fun _ => none, []⟩, twoAndALoss⟩ p ∧
      p.shared.counts (counterKey tokensByMinute .epoch) = some 5 ∧
      5 = spentIn p.shared.rows (filter tokensByMinute.scope) .tokens .epoch := by
  have hrun : (Pool.run Thread.step
      (Pool.both (InStretch tokensByMinute .epoch) (StartsSettled tokensByMinute .epoch))
      ⟨⟨fun _ => none, []⟩, twoAndALoss⟩ seedAfter).any
      (fun p => p.threads.all (fun t => t.partWay == false) &&
        p.shared.counts (counterKey tokensByMinute .epoch) == some 5) = true := by decide +kernel
  obtain ⟨p, hreach, hp⟩ := Pool.exists_reach_of_run hrun
  simp only [Bool.and_eq_true, List.all_eq_true, beq_iff_eq] at hp
  refine ⟨p, hreach, hp.2, ?_⟩
  refine quotaAgrees_of_startsSettled tokensByMinute rfl .epoch _ twoAndALoss ?_ ?_ hreach hp.1 5 hp.2
  · simp [twoAndALoss, underTokens, Fresh]
  · intro held hheld
    cases hheld

/-- **A seed can take in a row whose tokens are then counted once more**: five tokens are spent, and the
count stands at ten. -/
theorem seeded_twice :
    ¬∀ (limit : Limit) (began : Timestamp) (w : World) (threads : List Thread) (p : Pool World Thread),
      limit.counted = .tokens → (∀ t ∈ threads, Fresh limit t) →
      (∀ held, w.counts (counterKey limit began) = some held →
        held = spentIn w.rows (filter limit.scope) .tokens began) →
      Pool.Reach Thread.step (InStretch limit began) ⟨w, threads⟩ p → QuotaAgrees limit began p := by
  intro hall
  have hrun : (Pool.run Thread.step (InStretch tokensByMinute .epoch)
      ⟨⟨fun _ => none, []⟩, twoAndALoss⟩ seedBetween).any
      (fun p => p.threads.all (fun t => t.partWay == false) &&
        (p.shared.counts (counterKey tokensByMinute .epoch) == some 10 &&
          spentIn p.shared.rows (filter tokensByMinute.scope) .tokens .epoch == 5)) = true := by
    decide +kernel
  obtain ⟨p, hreach, hp⟩ := Pool.exists_reach_of_run hrun
  simp only [Bool.and_eq_true, List.all_eq_true, beq_iff_eq] at hp
  have hagrees := hall tokensByMinute .epoch _ twoAndALoss p rfl
    (by simp [twoAndALoss, underTokens, Fresh]) (fun _ hheld => by cases hheld) hreach hp.1 10 hp.2.1
  rw [hp.2.2] at hagrees
  cases hagrees

end IntelliPrism.Gateway
