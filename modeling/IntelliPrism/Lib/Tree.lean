import Mathlib.Algebra.BigOperators.Group.Finset.Basic
import Mathlib.Algebra.Ring.Nat

/-!
# Ordered trees: sums over their rows, and the first row under a prefix

An ordered tree is Lean's own `Std.ExtTreeMap`.  What is added here is what a store that keeps an
account of its rows needs:

* `getElem?_insert_eq`, `getElem?_erase_eq` — reading after a write, split on equality of keys;
* `sumOver` — a weight summed over every row; `sumOver_split` takes one row out of it, and
  `erase_insert`, `erase_erase` say that a write or a removal leaves the rest alone;
* `firstKey` — the first key a predicate picks, in the order of the tree; `firstKey_least`.
-/

namespace IntelliPrism.Lib

open Std (ExtTreeMap TransOrd LawfulEqOrd)

variable {α β : Type*} [Ord α] [TransOrd α]

theorem mem_iff_getElem? (t : ExtTreeMap α β) (k : α) : k ∈ t ↔ ∃ v, t[k]? = some v := by
  rw [ExtTreeMap.mem_iff_isSome_getElem?, Option.isSome_iff_exists]

/-- A weight summed over every row of a tree. -/
def sumOver (t : ExtTreeMap α β) (f : α → β → ℕ) : ℕ :=
  (t.keys.map fun k => (t[k]?).elim 0 (f k)).sum

@[simp] theorem sumOver_empty (f : α → β → ℕ) : sumOver (∅ : ExtTreeMap α β) f = 0 := by
  simp [sumOver]

private theorem sumOver_eq_finset [DecidableEq α] (t : ExtTreeMap α β) (f : α → β → ℕ) :
    sumOver t f = ∑ k ∈ t.keys.toFinset, (t[k]?).elim 0 (f k) := by
  rw [sumOver, List.sum_toFinset _ ExtTreeMap.nodup_keys]

theorem sumOver_congr (t : ExtTreeMap α β) {f g : α → β → ℕ}
    (h : ∀ k v, t[k]? = some v → f k v = g k v) : sumOver t f = sumOver t g := by
  unfold sumOver
  congr 1
  refine List.map_congr_left ?_
  intro k _
  cases hk : t[k]? with
  | none => rfl
  | some v => exact h k v hk

/-- A sum that is not zero has a row that weighs something. -/
theorem exists_of_sumOver_pos {t : ExtTreeMap α β} {f : α → β → ℕ} (h : 0 < sumOver t f) :
    ∃ k v, t[k]? = some v ∧ 0 < f k v := by
  by_contra hnone
  push Not at hnone
  have hzero : sumOver t f = 0 := by
    refine List.sum_eq_zero ?_
    intro n hn
    obtain ⟨k, _, rfl⟩ := List.mem_map.mp hn
    cases hk : t[k]? with
    | none => rfl
    | some v => exact Nat.le_zero.mp (hnone k v hk)
  omega

/-- The first key `p` picks, in the order of the tree. -/
def firstKey (t : ExtTreeMap α β) (p : α → Bool) : Option α := t.keys.find? p

variable [LawfulEqOrd α]

/-! ### Reading after a write -/

theorem getElem?_insert_eq [DecidableEq α] (t : ExtTreeMap α β) (k a : α) (v : β) :
    (t.insert k v)[a]? = if k = a then some v else t[a]? := by
  rw [ExtTreeMap.getElem?_insert]
  simp only [Std.compare_eq_iff_eq]

theorem getElem?_erase_eq [DecidableEq α] (t : ExtTreeMap α β) (k a : α) :
    (t.erase k)[a]? = if k = a then none else t[a]? := by
  rw [ExtTreeMap.getElem?_erase]
  simp only [Std.compare_eq_iff_eq]

theorem getElem?_insert_ne (t : ExtTreeMap α β) {k a : α} (v : β) (h : k ≠ a) :
    (t.insert k v)[a]? = t[a]? := by
  classical
  rw [getElem?_insert_eq, if_neg h]

theorem getElem?_erase_ne (t : ExtTreeMap α β) {k a : α} (h : k ≠ a) :
    (t.erase k)[a]? = t[a]? := by
  classical
  rw [getElem?_erase_eq, if_neg h]

/-- Nothing is left of a write once its row is erased. -/
theorem erase_insert (t : ExtTreeMap α β) (k : α) (v : β) : (t.insert k v).erase k = t.erase k := by
  classical
  refine ExtTreeMap.ext_getElem? ?_
  intro a
  rw [getElem?_erase_eq, getElem?_erase_eq]
  split
  · rfl
  · rename_i h
    rw [getElem?_insert_ne t v h]

theorem erase_erase (t : ExtTreeMap α β) (k : α) : (t.erase k).erase k = t.erase k := by
  classical
  refine ExtTreeMap.ext_getElem? ?_
  intro a
  rw [getElem?_erase_eq, getElem?_erase_eq]
  split <;> rfl

/-- Erasing a row that is there leaves a smaller tree. -/
theorem size_erase_lt {t : ExtTreeMap α β} {k : α} (h : k ∈ t) : (t.erase k).size < t.size := by
  have hpos : 0 < t.keys.length := List.length_pos_of_mem (ExtTreeMap.mem_keys.mpr h)
  rw [ExtTreeMap.length_keys] at hpos
  rw [ExtTreeMap.size_erase, if_pos (ExtTreeMap.contains_iff_mem.mpr h)]
  omega

/-! ### Sums over the rows -/

/-- **One row and the rest.**  A sum over a tree is the weight of the row at `k`, when there is one, and
the sum over the tree without it. -/
theorem sumOver_split (t : ExtTreeMap α β) (f : α → β → ℕ) (k : α) :
    sumOver t f = (t[k]?).elim 0 (f k) + sumOver (t.erase k) f := by
  classical
  have hkeys : (t.erase k).keys.toFinset = t.keys.toFinset.erase k := by
    ext a
    simp only [List.mem_toFinset, ExtTreeMap.mem_keys, Finset.mem_erase, ExtTreeMap.mem_erase, ne_eq,
      Std.compare_eq_iff_eq, eq_comm (a := k)]
  have hrest : ∑ a ∈ t.keys.toFinset.erase k, ((t.erase k)[a]?).elim 0 (f a)
      = ∑ a ∈ t.keys.toFinset.erase k, (t[a]?).elim 0 (f a) := by
    refine Finset.sum_congr rfl ?_
    intro a ha
    rw [getElem?_erase_ne t (Finset.ne_of_mem_erase ha).symm]
  rw [sumOver_eq_finset, sumOver_eq_finset (t.erase k), hkeys, hrest]
  by_cases hk : k ∈ t
  · rw [Finset.add_sum_erase _ (fun a => (t[a]?).elim 0 (f a))]
    simpa only [List.mem_toFinset, ExtTreeMap.mem_keys] using hk
  · have hnone : t[k]? = none := ExtTreeMap.getElem?_eq_none hk
    rw [Finset.erase_eq_of_notMem (by simpa only [List.mem_toFinset, ExtTreeMap.mem_keys] using hk),
      hnone, Option.elim_none, Nat.zero_add]

/-! ### The first key a predicate picks -/

theorem firstKey_some {t : ExtTreeMap α β} {p : α → Bool} {k : α} (h : firstKey t p = some k) :
    k ∈ t ∧ p k = true :=
  ⟨ExtTreeMap.mem_keys.mp (List.mem_of_find?_eq_some h), List.find?_some h⟩

theorem firstKey_none {t : ExtTreeMap α β} {p : α → Bool} (h : firstKey t p = none) {k : α}
    (hk : k ∈ t) : p k = false := by
  have := List.find?_eq_none.mp h k (ExtTreeMap.mem_keys.mpr hk)
  simpa using this

/-- The first key picked stands before every other that is. -/
theorem firstKey_least {t : ExtTreeMap α β} {p : α → Bool} {k a : α} (h : firstKey t p = some k)
    (ha : a ∈ t) (hp : p a = true) : a = k ∨ compare k a = .lt := by
  obtain ⟨_, before, after, hkeys, hbefore⟩ := List.find?_eq_some_iff_append.mp h
  have hsorted : (before ++ k :: after).Pairwise fun a b => compare a b = .lt := by
    rw [← hkeys]
    exact ExtTreeMap.ordered_keys
  have hmem : a ∈ before ++ k :: after := by
    rw [← hkeys]
    exact ExtTreeMap.mem_keys.mpr ha
  rcases List.mem_append.mp hmem with hearlier | hlater
  · have hnot := hbefore a hearlier
    rw [hp] at hnot
    cases hnot
  · rcases List.mem_cons.mp hlater with heq | hafter
    · exact .inl heq
    · exact .inr ((List.pairwise_cons.mp (List.pairwise_append.mp hsorted).2.1).1 a hafter)

end IntelliPrism.Lib
