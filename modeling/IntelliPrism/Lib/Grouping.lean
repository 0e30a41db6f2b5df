import Mathlib.Data.List.Sort

/-!
# Rows in the order of a comparison

A list sorted by a comparison that tells its elements apart can be sorted in one way only, so whatever is
sorted and has the same elements is that list.

* `AtMost` — what a comparison puts first, or beside;
* `pairwise_sorted`, `sorted_eq` — **the sorted list is the one arrangement that is in order**;
* `sorted_filter` — what is left out of a sorted list might as well have been left out before;
* `sorted_flatMap` — **rows that are joined to others and sorted by the row they belong to first stay
  together**: they come as the blocks of the sorted rows.
-/

namespace IntelliPrism.Lib

variable {α β : Type*}

/-- Not behind, in the order of a comparison. -/
abbrev AtMost (cmp : α → α → Ordering) (a b : α) : Prop := (cmp a b).isLE = true

section Sorted

variable (cmp : α → α → Ordering) [Std.TransCmp cmp]

instance : Std.Total (AtMost cmp) where
  total a b := by
    have hswap : cmp b a = (cmp a b).swap := Std.OrientedCmp.eq_swap
    show (cmp a b).isLE = true ∨ (cmp b a).isLE = true
    rw [hswap]
    cases cmp a b <;> decide

instance : IsTrans α (AtMost cmp) where
  trans _ _ _ hab hbc := Std.TransCmp.isLE_trans hab hbc

theorem pairwise_sorted (l : List α) : (l.insertionSort (AtMost cmp)).Pairwise (AtMost cmp) :=
  List.pairwise_insertionSort _ l

variable {cmp}

theorem eq_of_atMost {a b : α} (hab : AtMost cmp a b) (hba : AtMost cmp b a) : cmp a b = .eq := by
  have hswap : cmp b a = (cmp a b).swap := Std.OrientedCmp.eq_swap
  rw [AtMost, hswap] at hba
  rw [AtMost] at hab
  cases hcmp : cmp a b with
  | lt =>
    rw [hcmp] at hba
    cases hba
  | eq => rfl
  | gt =>
    rw [hcmp] at hab
    cases hab

/-- **The one arrangement that is in order**, where the comparison tells the elements apart. -/
theorem sorted_eq {l m : List α} (hperm : m.Perm l) (hsorted : m.Pairwise (AtMost cmp))
    (hunique : ∀ a ∈ l, ∀ b ∈ l, cmp a b = .eq → a = b) : l.insertionSort (AtMost cmp) = m := by
  refine List.Perm.eq_of_pairwise ?_ (pairwise_sorted cmp l) hsorted
    ((List.perm_insertionSort _ l).trans hperm.symm)
  intro a b ha hb hab hba
  have ha : a ∈ l := (List.perm_insertionSort _ l).mem_iff.mp ha
  exact hunique a ha b (hperm.mem_iff.mp hb) (eq_of_atMost hab hba)

theorem sorted_filter {l : List α} (hunique : ∀ a ∈ l, ∀ b ∈ l, cmp a b = .eq → a = b) (p : α → Bool) :
    (l.filter p).insertionSort (AtMost cmp) = (l.insertionSort (AtMost cmp)).filter p := by
  refine sorted_eq ((List.perm_insertionSort _ l).filter p) ((pairwise_sorted cmp l).filter p) ?_
  intro a ha b hb
  exact hunique a (List.mem_filter.mp ha).1 b (List.mem_filter.mp hb).1

end Sorted

/-- What passes a test that only looks at the row it belongs to. -/
theorem filter_flatMap_of_owner {rows : List α} {block : α → List β} {p : β → Bool} {q : α → Bool}
    (h : ∀ a ∈ rows, ∀ x ∈ block a, p x = q a) :
    (rows.flatMap block).filter p = (rows.filter q).flatMap block := by
  induction rows with
  | nil => rfl
  | cons a rows ih =>
    have hrest := ih fun b hb => h b (List.mem_cons_of_mem _ hb)
    have hfirst := h a (List.mem_cons_self ..)
    rw [List.flatMap_cons, List.filter_append, hrest, List.filter_cons]
    split
    · rename_i hq
      rw [List.flatMap_cons, List.filter_eq_self.mpr fun x hx => (hfirst x hx).trans hq]
    · rename_i hq
      rw [List.filter_eq_nil_iff.mpr fun x hx hp => hq ((hfirst x hx).symm.trans hp), List.nil_append]

section Blocks

variable (outer : α → α → Ordering) [Std.TransCmp outer] {cmp : β → β → Ordering} [Std.TransCmp cmp]

/-- **The blocks of the sorted rows**: what belongs to a row is in order, and what belongs to an earlier
row comes before what belongs to a later one. -/
theorem sorted_flatMap {rows : List α} {block : α → List β} (hnodup : rows.Nodup)
    (houter : ∀ a ∈ rows, ∀ b ∈ rows, outer a b = .eq → a = b)
    (hwithin : ∀ a ∈ rows, (block a).Pairwise (AtMost cmp))
    (hacross : ∀ a ∈ rows, ∀ b ∈ rows, outer a b = .lt → ∀ x ∈ block a, ∀ y ∈ block b, AtMost cmp x y)
    (hunique : ∀ x ∈ rows.flatMap block, ∀ y ∈ rows.flatMap block, cmp x y = .eq → x = y) :
    (rows.flatMap block).insertionSort (AtMost cmp)
      = (rows.insertionSort (AtMost outer)).flatMap block := by
  have hperm := List.perm_insertionSort (AtMost outer) rows
  refine sorted_eq (hperm.flatMap_right block) ?_ hunique
  rw [List.pairwise_flatMap]
  constructor
  · intro a ha
    exact hwithin a (hperm.mem_iff.mp ha)
  · have hdistinct : (rows.insertionSort (AtMost outer)).Pairwise (· ≠ ·) := hperm.nodup_iff.mpr hnodup
    refine ((pairwise_sorted outer rows).and hdistinct).imp_of_mem ?_
    intro a b ha hb hab
    have ha : a ∈ rows := hperm.mem_iff.mp ha
    have hb : b ∈ rows := hperm.mem_iff.mp hb
    refine hacross a ha b hb ?_
    cases hcmp : outer a b with
    | lt => rfl
    | eq => exact absurd (houter a ha b hb hcmp) hab.2
    | gt =>
      have hle := hab.1
      rw [AtMost, hcmp] at hle
      cases hle

end Blocks

end IntelliPrism.Lib
