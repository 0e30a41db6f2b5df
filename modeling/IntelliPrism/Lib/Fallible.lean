import Mathlib.Data.List.Forall2

/-!
# Steps that may fail

What it means for steps that may fail, one after the other or over a list, that none of them did.

* `ok_of_bind`, `ok_of_map`, `ok_of_mapError`, `ok_of_toOption` — a result that is there came from a step
  that succeeded;
* `forall₂_of_mapM` — what a list was mapped to, element by element;
* `isSome_mapM`, `mapM_self_iff` — when a list is mapped at all, and when to itself.
-/

namespace IntelliPrism.Lib

section Except

variable {ε ε' α β : Type}

/-- Steps that succeed one after the other each succeeded. -/
theorem ok_of_bind {first : Except ε α} {next : α → Except ε β} {result : β}
    (h : (first >>= next) = .ok result) : ∃ a, first = .ok a ∧ next a = .ok result := by
  cases first with
  | error error => cases h
  | ok a => exact ⟨a, rfl, h⟩

theorem ok_of_map {first : Except ε α} {f : α → β} {result : β}
    (h : first.map f = .ok result) : ∃ a, first = .ok a ∧ f a = result := by
  cases first with
  | error error => cases h
  | ok a => exact ⟨a, rfl, Except.ok.inj h⟩

theorem ok_of_mapError {first : Except ε α} {f : ε → ε'} {result : α}
    (h : first.mapError f = .ok result) : first = .ok result := by
  cases first with
  | error error => cases h
  | ok a => exact congrArg Except.ok (Except.ok.inj h)

theorem ok_of_toOption {first : Except ε α} {result : α} (h : first.toOption = some result) :
    first = .ok result := by
  cases first with
  | error error => cases h
  | ok a => exact congrArg Except.ok (Option.some.inj h)

end Except

variable {α β : Type*} {f : α → Option β} {l : List α}

theorem forall₂_of_mapM {mapped : List β} (h : l.mapM f = some mapped) :
    List.Forall₂ (fun a b => f a = some b) l mapped := by
  induction l generalizing mapped with
  | nil =>
    cases h
    exact .nil
  | cons a l ih =>
    rw [List.mapM_cons] at h
    obtain ⟨b, hb, h⟩ := Option.bind_eq_some_iff.mp h
    obtain ⟨rest, hrest, h⟩ := Option.bind_eq_some_iff.mp h
    cases h
    exact .cons hb (ih hrest)

theorem length_mapM {mapped : List β} (h : l.mapM f = some mapped) : mapped.length = l.length :=
  (forall₂_of_mapM h).length_eq.symm

/-- A list is mapped when each of its elements is. -/
theorem isSome_mapM : (l.mapM f).isSome = true ↔ ∀ a ∈ l, (f a).isSome = true := by
  induction l with
  | nil => simp
  | cons a l ih =>
    rw [List.mapM_cons]
    cases hf : f a with
    | none => simp [hf]
    | some b =>
      cases hl : l.mapM f with
      | none => simp_all
      | some bs => simp_all

theorem mapM_self_iff {f : α → Option α} : l.mapM f = some l ↔ ∀ a ∈ l, f a = some a := by
  constructor
  · intro h
    exact List.forall₂_same.mp (forall₂_of_mapM h)
  · intro h
    induction l with
    | nil => rfl
    | cons a l ih =>
      rw [List.mapM_cons, h a (List.mem_cons_self ..),
        ih fun b hb => h b (List.mem_cons_of_mem _ hb)]
      rfl

end IntelliPrism.Lib
