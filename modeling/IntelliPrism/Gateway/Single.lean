import IntelliPrism.Gateway.Requests
import Mathlib.Algebra.BigOperators.Group.List.Basic

/-!
# One limit, one stretch

What requests do while a single limit is set, nothing fails, and the clock stays inside one stretch: the
limit counts under one key throughout.

* `InStretch` — a step that reads the clock inside the stretch and whose call does not fail;
* `Under` — what every thread then carries in its locals;
* `Moves` — **what one step of a request can do**, `moves_of_step`; every invariant of such runs is
  a case analysis on it.
-/

namespace IntelliPrism.Gateway

open IntelliPrism.Lib IntelliPrism.Core IntelliPrism.Cache

/-- The clock is read inside the stretch, and the call does not fail. -/
def InStretch (limit : Limit) (began : Timestamp) : Guard Weather World Thread := fun _ _ x =>
  x.fault = none ∧ limit.period.began x.now = began

instance (limit : Limit) (began : Timestamp) (p : Pool World Thread) (t : Thread) (x : Weather) :
    Decidable (InStretch limit began p t x) :=
  inferInstanceAs (Decidable (_ ∧ _))

/-- What a stage carries: the one limit and a moment of the stretch. -/
def Stage.Under (limit : Limit) (began : Timestamp) (asking : Asking) : Stage → Prop
  | .asking now l rest | .summing now l rest | .seeding now l rest _ | .adding now l rest =>
    l = limit ∧ rest = [] ∧ limit.period.began now = began ∧ limit.holds asking = true
  | .counting now l rest =>
    (l = limit ∧ rest = [] ∧ limit.period.began now = began ∧ limit.holds asking = true) ∧
      limit.counted = .requests
  | _ => True

def Under (limit : Limit) (began : Timestamp) : Thread → Prop
  | .request r stage => r.limits = [limit] ∧ r.Proper stage ∧ stage.Under limit began r.asking
  | _ => True

/-- A request that has not arrived yet, one that is answered and not recorded yet, or a loss. -/
def Fresh (limit : Limit) : Thread → Prop
  | .request r stage => r.limits = [limit] ∧ (stage = .arriving ∨ stage = .admitted)
  | .losing _ => True
  | .lost => False

/-- A step that may start a count, and what it starts it from when none is held. -/
def Thread.startsFrom : Thread → Option ℕ
  | .request _ (.seeding _ _ _ start) => some start
  | .request _ (.counting _ _ _) => some 0
  | .request _ (.adding _ _ _) => some 0
  | _ => none

section Step

variable {limit : Limit} {began : Timestamp}

theorem Fresh.under {t : Thread} (h : Fresh limit t) : Under limit began t := by
  cases t with
  | request r stage =>
    obtain ⟨hlimits, rfl | rfl⟩ := h
    · exact ⟨hlimits, trivial, trivial⟩
    · exact ⟨hlimits, trivial, trivial⟩
  | losing key => trivial
  | lost => trivial

theorem applyingTo_single (order : HashOrder) (limit : Limit) (asking : Asking) :
    applyingTo order [limit] asking = if limit.holds asking then [limit] else [] := by
  have hperm := order.perm (deciding [limit] asking)
  simp only [deciding, List.foldl_cons, List.foldl_nil, put, List.any_nil, Bool.false_eq_true,
    if_false, List.nil_append] at hperm
  unfold applyingTo
  simp only [deciding, List.foldl_cons, List.foldl_nil, put, List.any_nil, Bool.false_eq_true,
    if_false, List.nil_append]
  split
  · rename_i hholds
    rw [if_pos hholds] at hperm
    exact List.perm_singleton.mp hperm
  · rename_i hholds
    rw [if_neg hholds] at hperm
    exact List.perm_nil.mp hperm

variable {x : Weather} {w w' : World} {r : Request} {stage stage' : Stage}

/-- **What one step of a request can do** while one limit is set. -/
inductive Moves (limit : Limit) (began : Timestamp) (x : Weather) (w : World) (r : Request) :
    Stage → World → Stage → Prop where
  | arrives (hholds : limit.holds r.asking = true) :
      Moves limit began x w r .arriving w (.asking x.now limit [])
  | passes (hholds : limit.holds r.asking = false) : Moves limit began x w r .arriving w r.goesOn
  | finds {now : Timestamp} {counted : ℕ} (hheld : w.counts (counterKey limit began) = some counted) :
      Moves limit began x w r (.asking now limit []) w (r.judged now limit [] (.ok counted))
  | misses {now : Timestamp} (hheld : w.counts (counterKey limit began) = none) :
      Moves limit began x w r (.asking now limit []) w (.summing now limit [])
  | sums {now : Timestamp} :
      Moves limit began x w r (.summing now limit []) w
        (.seeding now limit [] (spentIn w.rows (filter limit.scope) limit.counted began))
  | seeds {now : Timestamp} {start : ℕ} :
      Moves limit began x w r (.seeding now limit [] start)
        (w.setCount (counterKey limit began) (some ((w.counts (counterKey limit began)).getD start)))
        (r.judged now limit [] (.ok ((w.counts (counterKey limit began)).getD start)))
  | counts {now : Timestamp} (hrequests : limit.counted = .requests)
      (hholds : limit.holds r.asking = true) :
      Moves limit began x w r (.counting now limit [])
        (w.setCount (counterKey limit began) (some ((w.counts (counterKey limit began)).getD 0 + 1)))
        (r.decided now [] (if (w.counts (counterKey limit began)).getD 0 + 1 > limit.allowance.get
          then spent limit now else .allowed))
  | records {tokens : Tokens} (houtcome : r.outcome = some tokens) :
      Moves limit began x w r .admitted { w with rows := w.rows ++ [⟨r.asking, tokens, x.now⟩] }
        (if tokens.total = 0 then .finished else .spending)
  | spends (hholds : limit.holds r.asking = true) (htokens : limit.counted = .tokens) :
      Moves limit began x w r .spending w (.adding x.now limit [])
  | skips (hskips : limit.holds r.asking = false ∨ limit.counted = .requests) :
      Moves limit began x w r .spending w .finished
  | adds {now : Timestamp} {tokens : Tokens} (htokens : limit.counted = .tokens)
      (hholds : limit.holds r.asking = true) (houtcome : r.outcome = some tokens) :
      Moves limit began x w r (.adding now limit [])
        (w.setCount (counterKey limit began)
          (some ((w.counts (counterKey limit began)).getD 0 + tokens.total))) .finished

theorem moves_of_step (hfair : x.fault = none) (hlimits : r.limits = [limit]) (hproper : r.Proper stage)
    (hunder : stage.Under limit began r.asking) (h : r.step x w stage = some (w', stage')) :
    Moves limit began x w r stage w' stage' := by
  cases stage with
  | arriving =>
    simp only [Request.step, hlimits, applyingTo_single, Option.some.injEq, Prod.mk.injEq] at h
    obtain ⟨rfl, rfl⟩ := h
    cases hholds : limit.holds r.asking with
    | true => exact .arrives hholds
    | false => exact .passes hholds
  | asking now l rest =>
    obtain ⟨rfl, rfl, hnow, _⟩ := hunder
    rw [Request.step_asking hfair, counter_fst hnow] at h
    cases hheld : w.counts (counterKey l began) with
    | some counted =>
      rw [hheld] at h
      obtain ⟨rfl, rfl⟩ := Prod.mk.inj (Option.some.inj h)
      exact .finds hheld
    | none =>
      rw [hheld] at h
      obtain ⟨rfl, rfl⟩ := Prod.mk.inj (Option.some.inj h)
      exact .misses hheld
  | summing now l rest =>
    obtain ⟨rfl, rfl, hnow, _⟩ := hunder
    rw [Request.step_summing hfair, hnow] at h
    obtain ⟨rfl, rfl⟩ := Prod.mk.inj (Option.some.inj h)
    exact .sums
  | seeding now l rest start =>
    obtain ⟨rfl, rfl, hnow, _⟩ := hunder
    rw [Request.step_seeding hfair, counter_fst hnow] at h
    obtain ⟨rfl, rfl⟩ := Prod.mk.inj (Option.some.inj h)
    exact .seeds
  | counting now l rest =>
    obtain ⟨⟨rfl, rfl, hnow, hholds⟩, hrequests⟩ := hunder
    rw [Request.step_counting hfair, counter_fst hnow] at h
    obtain ⟨rfl, rfl⟩ := Prod.mk.inj (Option.some.inj h)
    exact .counts hrequests hholds
  | refused decision => cases h
  | admitted =>
    cases houtcome : r.outcome with
    | none => simp [Request.step, houtcome] at h
    | some tokens =>
      rw [Request.step_admitted hfair houtcome] at h
      obtain ⟨rfl, rfl⟩ := Prod.mk.inj (Option.some.inj h)
      exact .records houtcome
  | spending =>
    simp only [Request.step, hlimits, applyingTo_single, Option.some.injEq, Prod.mk.injEq] at h
    obtain ⟨rfl, rfl⟩ := h
    cases hholds : limit.holds r.asking with
    | false => exact .skips (.inl hholds)
    | true =>
      cases hcounted : limit.counted with
      | tokens =>
        simp only [if_true, addFrom, hcounted, ne_eq, not_true_eq_false, if_false]
        exact .spends hholds hcounted
      | requests =>
        simp only [if_true, addFrom, hcounted, ne_eq, reduceCtorEq, not_false_eq_true]
        exact .skips (.inr hcounted)
  | adding now l rest =>
    obtain ⟨rfl, rfl, hnow, hholds⟩ := hunder
    obtain ⟨htokens, tokens, houtcome, _⟩ := hproper
    rw [Request.step_adding hfair houtcome, counter_fst hnow] at h
    obtain ⟨rfl, rfl⟩ := Prod.mk.inj (Option.some.inj h)
    exact .adds htokens hholds houtcome
  | finished => cases h

theorem onward_under (now : Timestamp) (asking : Asking) :
    Request.Onward (Stage.Under limit began asking) now [] where
  asking _ _ h := nomatch h
  refused _ := trivial
  admitted := trivial
  finished := trivial

/-- **What one step of a thread can do**: one of the moves of a request, or the loss of a count. -/
theorem thread_moves {t t' : Thread} {p : Pool World Thread} (hx : InStretch limit began p t x)
    (ht : Under limit began t) (h : Thread.step x w t = some (w', t')) :
    (∃ key, t = .losing key ∧ t' = .lost ∧ w' = w.setCount key none) ∨
      ∃ r stage stage', t = .request r stage ∧ t' = .request r stage' ∧ r.limits = [limit] ∧
        r.Proper stage' ∧ stage.Under limit began r.asking ∧ Moves limit began x w r stage w' stage' := by
  cases t with
  | losing key =>
    obtain ⟨rfl, rfl⟩ := Prod.mk.inj (Option.some.inj h)
    exact .inl ⟨key, rfl, rfl, rfl⟩
  | lost => cases h
  | request r stage =>
    obtain ⟨hlimits, hproper, hunder⟩ := ht
    obtain ⟨⟨w₁, stage₁⟩, hs, heq⟩ := Option.map_eq_some_iff.mp h
    obtain ⟨rfl, rfl⟩ := Prod.mk.inj heq
    exact .inr ⟨r, stage, stage₁, rfl, rfl, hlimits, Request.step_proper hproper hs, hunder,
      moves_of_step hx.1 hlimits hproper hunder hs⟩

/-- Every step inside the stretch leaves the thread under the one limit. -/
theorem step_under {t t' : Thread} {p : Pool World Thread} (hx : InStretch limit began p t x)
    (ht : Under limit began t) (h : Thread.step x w t = some (w', t')) : Under limit began t' := by
  obtain ⟨key, rfl, rfl, rfl⟩ | ⟨r, stage, stage', rfl, rfl, hlimits, hproper, hunder, hmoves⟩ :=
    thread_moves hx ht h
  · trivial
  · refine ⟨hlimits, hproper, ?_⟩
    cases hmoves with
    | arrives hholds => exact ⟨rfl, rfl, hx.2, hholds⟩
    | passes _ => exact (onward_under x.now _).goesOn r
    | finds _ => exact (onward_under _ _).judged r (fun hcounted => ⟨hunder, hcounted⟩) _
    | misses _ => exact hunder
    | sums => exact hunder
    | seeds => exact (onward_under _ _).judged r (fun hcounted => ⟨hunder, hcounted⟩) _
    | counts _ _ => exact (onward_under _ _).decided r _
    | records _ => split <;> trivial
    | spends hholds _ => exact ⟨rfl, rfl, hx.2, hholds⟩
    | skips _ => trivial
    | adds _ _ _ => trivial

end Step

end IntelliPrism.Gateway
