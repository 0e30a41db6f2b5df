import Mathlib.Data.List.Range
import Mathlib.Logic.Function.Basic
import Mathlib.Order.Basic

/-!
# Sharing out: in turn, by share and by load

Three ways to spread work over a list, each with the fact that makes it fair.

* `perm_window` — in turn: any stretch of a counter as long as the list, taken modulo its length, goes
  through the list once;
* `bisect`, `bisect_eq_countP` — by share: a binary search of a list that a test cuts in two finds where
  it is cut;
* `Balanced`, `Balanced.served` — by load: what goes to whoever would be done first leaves everyone about
  as far behind.
-/

namespace IntelliPrism.Lib

variable {α ι : Type*}

/-! ### In turn -/

/-- Consecutive numbers, as many as a modulus, have every residue once. -/
theorem residues_perm (n start : ℕ) :
    ((List.range' start n).map (· % n)).Perm (List.range n) := by
  induction start with
  | zero =>
    have hsame : (List.range' 0 n).map (· % n) = List.range n := by
      rw [← List.range_eq_range']
      refine (List.map_congr_left ?_).trans (List.map_id _)
      intro k hk
      exact Nat.mod_eq_of_lt (List.mem_range.mp hk)
    rw [hsame]
  | succ start ih =>
    cases n with
    | zero => exact ih
    | succ n =>
      -- moving on by one drops a residue at the front and takes the same one up at the back
      have hback : (start + 1 + n) % (n + 1) = start % (n + 1) := by
        rw [Nat.add_assoc, Nat.add_comm 1 n, Nat.add_mod_right]
      have hfront : (List.range' (start + 1) (n + 1)).map (· % (n + 1))
          = (List.range' (start + 1) n).map (· % (n + 1)) ++ [start % (n + 1)] := by
        rw [List.range'_1_concat, List.map_append, List.map_singleton, hback]
      rw [hfront]
      refine (List.perm_append_singleton _ _).trans ?_
      rw [← List.map_cons (f := (· % (n + 1))), ← List.range'_succ]
      exact ih

/-- **A stretch as long as the list goes through the list once**, wherever it starts. -/
theorem perm_window (l : List α) (start : ℕ) :
    ((List.range l.length).map fun k => l[(start + k) % l.length]?).Perm (l.map some) := by
  have hstretch : (List.range l.length).map (fun k => l[(start + k) % l.length]?)
      = ((List.range' start l.length).map (· % l.length)).map fun i => l[i]? := by
    rw [List.range'_eq_map_range, List.map_map, List.map_map]
    rfl
  have hwhole : (List.range l.length).map (fun i => l[i]?) = l.map some := by
    apply List.ext_getElem
    · simp
    · intro i hi hi'
      simp at hi
      simp [hi]
  rw [hstretch, ← hwhole]
  exact (residues_perm l.length start).map _

/-! ### By share -/

/-- Where between two bounds a list goes from passing a test to failing it, by halves. -/
def bisect (p : α → Bool) (l : List α) (low high : ℕ) : ℕ :=
  if low < high then
    if (l[(low + high) / 2]?).any p then bisect p l ((low + high) / 2 + 1) high
    else bisect p l low ((low + high) / 2)
  else low
termination_by high - low

/-- In a list that a test cuts in two, the front as long as the passes there are passes. -/
theorem any_getElem?_iff {p : α → Bool} {l : List α} (hcut : l.Pairwise fun a b => p b → p a) (i : ℕ) :
    (l[i]?).any p = true ↔ i < l.countP p := by
  induction l generalizing i with
  | nil => simp
  | cons a l ih =>
    obtain ⟨ha, hl⟩ := List.pairwise_cons.mp hcut
    by_cases hpass : p a = true
    · rw [List.countP_cons_of_pos hpass]
      cases i with
      | zero => simp [hpass]
      | succ i => rw [List.getElem?_cons_succ, ih hl, Nat.succ_lt_succ_iff]
    · have hnone : l.countP p = 0 :=
        List.countP_eq_zero.mpr fun b hb hpb => hpass (ha b hb hpb)
      rw [List.countP_cons_of_neg hpass, hnone]
      cases i with
      | zero => simp [hpass]
      | succ i => rw [List.getElem?_cons_succ, ih hl, hnone]; simp

/-- The search keeps the cut between its bounds and closes in on it. -/
theorem bisect_between {p : α → Bool} {l : List α} (hcut : l.Pairwise fun a b => p b → p a)
    {low high : ℕ} (hlow : low ≤ l.countP p) (hhigh : l.countP p ≤ high) :
    bisect p l low high = l.countP p := by
  fun_induction bisect p l low high with
  | case1 low high hlt hany ih =>
    rw [any_getElem?_iff hcut] at hany
    exact ih hany hhigh
  | case2 low high hlt hany ih =>
    rw [any_getElem?_iff hcut] at hany
    exact ih hlow (Nat.not_lt.mp hany)
  | case3 low high hlt => omega

/-- **A binary search finds where the list is cut**, which is after as many as pass. -/
theorem bisect_eq_countP {p : α → Bool} {l : List α} (hcut : l.Pairwise fun a b => p b → p a) :
    bisect p l 0 l.length = l.countP p :=
  bisect_between hcut (Nat.zero_le _) List.countP_le_length

/-! ### By load -/

/-- No one has more to do than another would have with one thing more, each thing taking as long as
whoever does it takes. -/
def Balanced (live : List ι) (takes held : ι → ℕ) : Prop :=
  ∀ i ∈ live, ∀ j ∈ live, held i * takes i ≤ (held j + 1) * takes j

theorem balanced_idle (live : List ι) (takes : ι → ℕ) : Balanced live takes fun _ => 0 := by
  intro i _ j _
  rw [Nat.zero_mul]
  exact Nat.zero_le _

/-- One thing more, counted where it goes. -/
theorem count_concat [DecidableEq ι] (given : List ι) (i j : ι) :
    (given ++ [i]).count j = given.count j + if i = j then 1 else 0 := by
  rw [List.count_append, List.count_singleton]
  simp only [beq_iff_eq]

theorem count_concat_update [DecidableEq ι] (given : List ι) (i : ι) :
    (fun j => (given ++ [i]).count j)
      = Function.update (fun j => given.count j) i (given.count i + 1) := by
  funext j
  rw [count_concat]
  by_cases hij : i = j
  · rw [← hij, if_pos rfl, Function.update_self]
  · rw [if_neg hij, Function.update_of_ne (Ne.symm hij), Nat.add_zero]

/-- **What goes to whoever would be done with it first keeps the balance.** -/
theorem Balanced.served [DecidableEq ι] {live : List ι} {takes held : ι → ℕ}
    (h : Balanced live takes held) {least : ι}
    (hleast : ∀ j ∈ live, (held least + 1) * takes least ≤ (held j + 1) * takes j) :
    Balanced live takes (Function.update held least (held least + 1)) := by
  have hmore : ∀ j, (held j + 1) * takes j
      ≤ (Function.update held least (held least + 1) j + 1) * takes j := by
    intro j
    apply Nat.mul_le_mul_right
    by_cases hj : j = least
    · rw [hj, Function.update_self]
      omega
    · rw [Function.update_of_ne hj]
  intro i hi j hj
  refine le_trans ?_ (hmore j)
  by_cases hi' : i = least
  · rw [hi', Function.update_self]
    exact hleast j hj
  · rw [Function.update_of_ne hi']
    exact h i hi j hj

end IntelliPrism.Lib
