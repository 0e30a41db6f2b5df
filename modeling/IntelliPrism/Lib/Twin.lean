import Mathlib.Data.Nat.Notation

/-!
# Two runs side by side

What a system answers does not depend on some part of its state when two runs that differ in that part
alone answer the same.  The two runs are followed side by side: a relation between their states holds at
first and after every request, and related states answer alike.

* `Both` — two outcomes side by side, `Both.bind` of statements in sequence;
* `answers` — requests served one after the other;
* `answers_eq` — **related states answer whole runs alike** when they answer each request alike and stay
  related.
-/

namespace IntelliPrism.Lib

/-- Two outcomes side by side: the same error, or values that are related. -/
inductive Both {ε α β : Type} (R : α → β → Prop) : Except ε α → Except ε β → Prop where
  | error (e : ε) : Both R (.error e) (.error e)
  | ok {a : α} {b : β} (h : R a b) : Both R (.ok a) (.ok b)

namespace Both

variable {ε α β γ δ : Type} {R : α → β → Prop} {S : γ → δ → Prop} {x : Except ε α} {y : Except ε β}

/-- Statements one after the other, in both. -/
theorem bind (h : Both R x y) {f : α → Except ε γ} {g : β → Except ε δ}
    (hnext : ∀ a b, R a b → Both S (f a) (g b)) : Both S (x >>= f) (y >>= g) := by
  cases h with
  | error e => exact .error e
  | ok hab => exact hnext _ _ hab

theorem mono {T : α → β → Prop} (h : Both R x y) (himp : ∀ a b, R a b → T a b) : Both T x y := by
  cases h with
  | error e => exact .error e
  | ok hab => exact .ok (himp _ _ hab)

end Both

section Answers

variable {ρ σ α : Type} (serve : ρ → σ → σ × α)

/-- The answers to requests served one after the other. -/
def answers : List ρ → σ → List α
  | [], _ => []
  | request :: rest, s => (serve request s).2 :: answers rest (serve request s).1

variable {serve}

/-- **Related states answer whole runs alike.** -/
theorem answers_eq {R : σ → σ → Prop} {requests : List ρ}
    (hserve : ∀ request ∈ requests, ∀ s s', R s s' →
      (serve request s).2 = (serve request s').2 ∧ R (serve request s).1 (serve request s').1)
    {s s' : σ} (h : R s s') : answers serve requests s = answers serve requests s' := by
  induction requests generalizing s s' with
  | nil => rfl
  | cons request rest ih =>
    obtain ⟨hanswer, hnext⟩ := hserve request (List.mem_cons_self ..) s s' h
    rw [answers, answers, hanswer, ih (fun r hr => hserve r (List.mem_cons_of_mem _ hr)) hnext]

end Answers

end IntelliPrism.Lib
