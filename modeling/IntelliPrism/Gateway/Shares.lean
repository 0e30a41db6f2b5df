import IntelliPrism.Gateway.Table
import IntelliPrism.Lib.Sharing
import Mathlib.Algebra.BigOperators.Group.List.Basic
import Mathlib.Algebra.Group.Action.Defs
import Mathlib.Algebra.GroupWithZero.Nat
import Mathlib.Algebra.Order.BigOperators.Group.List
import Mathlib.Algebra.Order.Group.Nat

/-!
# Every endpoint gets exactly its share

A draw below the total of the shares falls among the running totals, and the endpoint it falls to is found
by a binary search of them.  Each endpoint is found for as many draws as its share says, and one that is
drained for none.

* `runningFrom` — its totals go up, from the first share to the sum of all (`sorted_runningFrom`,
  `last_runningFrom`);
* `atShare_eq_bisect` — the search by halves finds what counting the totals up to the draw does;
* `countP_draws` — how many draws fall to each endpoint of a list, by induction over the list;
* `draws_at_share` — **as many draws as the share says**, and no running total overflows.
-/

namespace IntelliPrism.Gateway

open IntelliPrism.Core IntelliPrism.Lib

/-! ### Running totals -/

theorem length_runningFrom (total : ℕ) (shares : List ℕ) :
    (runningFrom total shares).length = shares.length := by
  induction shares generalizing total with
  | nil => rfl
  | cons share rest ih => rw [runningFrom, List.length_cons, List.length_cons, ih]

/-- Every running total lies between what was there before and the sum of all. -/
theorem mem_runningFrom {total running : ℕ} {shares : List ℕ} (h : running ∈ runningFrom total shares) :
    total ≤ running ∧ running ≤ total + shares.sum := by
  induction shares generalizing total with
  | nil => cases h
  | cons share rest ih =>
    rw [List.sum_cons]
    rcases List.mem_cons.mp h with rfl | hrest
    · omega
    · have := ih hrest
      omega

theorem sorted_runningFrom (total : ℕ) (shares : List ℕ) :
    (runningFrom total shares).Pairwise (· ≤ ·) := by
  induction shares generalizing total with
  | nil => exact List.Pairwise.nil
  | cons share rest ih =>
    exact List.pairwise_cons.mpr ⟨fun running h => (mem_runningFrom h).1, ih (total + share)⟩

theorem last_runningFrom (total : ℕ) (shares : List ℕ) :
    (runningFrom total shares).getLast?.getD total = total + shares.sum := by
  induction shares generalizing total with
  | nil => rfl
  | cons share rest ih =>
    rw [runningFrom, List.getLast?_cons, Option.getD_some, ih, List.sum_cons, Nat.add_assoc]

/-! ### Where a draw falls -/

theorem countP_runningFrom_of_lt {total drawn : ℕ} (shares : List ℕ) (h : drawn < total) :
    (runningFrom total shares).countP (· ≤ drawn) = 0 := by
  apply List.countP_eq_zero.mpr
  intro running hrunning hle
  have hlow := (mem_runningFrom hrunning).1
  have hhigh : running ≤ drawn := of_decide_eq_true hle
  omega

theorem countP_first (first : ℕ) (rest : List ℕ) (share : ℕ → ℕ) (total i : ℕ) :
    (List.range' total (share first)).countP (fun drawn =>
        (first :: rest)[(runningFrom total ((first :: rest).map share)).countP (· ≤ drawn)]? == some i)
      = if first = i then share first else 0 := by
  have hhead : ∀ drawn ∈ List.range' total (share first),
      (first :: rest)[(runningFrom total ((first :: rest).map share)).countP (· ≤ drawn)]?
        = some first := by
    intro drawn hdrawn
    have hlt := (List.mem_range'_1.mp hdrawn).2
    rw [List.map_cons, runningFrom, List.countP_cons_of_neg (by simpa using hlt),
      countP_runningFrom_of_lt _ hlt]
    rfl
  split
  · rename_i heq
    rw [List.countP_eq_length.mpr, List.length_range']
    intro drawn hdrawn
    rw [hhead drawn hdrawn, heq]
    exact beq_self_eq_true _
  · rename_i hne
    apply List.countP_eq_zero.mpr
    intro drawn hdrawn
    rw [hhead drawn hdrawn, beq_iff_eq, Option.some.injEq]
    exact hne

/-- **How many draws fall to one endpoint of a list**: as many as its share.  By induction over the list:
the draws below the first total fall to the first endpoint, the others to where they fall among the rest. -/
theorem countP_draws {live : List ℕ} (hnodup : live.Nodup) (share : ℕ → ℕ) (total i : ℕ) :
    (List.range' total (live.map share).sum).countP (fun drawn =>
        live[(runningFrom total (live.map share)).countP (· ≤ drawn)]? == some i)
      = if i ∈ live then share i else 0 := by
  induction live generalizing total with
  | nil => rfl
  | cons first rest ih =>
    obtain ⟨hfirst, hrest⟩ := List.nodup_cons.mp hnodup
    have habove : (List.range' (total + share first) (rest.map share).sum).countP (fun drawn =>
        (first :: rest)[(runningFrom total ((first :: rest).map share)).countP (· ≤ drawn)]? == some i)
          = if i ∈ rest then share i else 0 := by
      rw [← ih hrest (total + share first)]
      apply List.countP_congr
      intro drawn hdrawn
      have hle := (List.mem_range'_1.mp hdrawn).1
      rw [List.map_cons, runningFrom, List.countP_cons_of_pos (by simpa using hle),
        List.getElem?_cons_succ]
    rw [List.map_cons, List.sum_cons, ← List.range'_append_1, List.countP_append, ← List.map_cons,
      countP_first, habove]
    by_cases heq : first = i
    · rw [← heq, if_pos rfl, if_neg hfirst, if_pos (List.mem_cons_self ..), Nat.add_zero]
    · have hmem : i ∈ first :: rest ↔ i ∈ rest := by
        rw [List.mem_cons]
        exact or_iff_right fun h => heq h.symm
      rw [if_neg heq, Nat.zero_add]
      simp only [hmem]

namespace Plan

/-- **The search by halves** finds the endpoint whose share a number falls in. -/
theorem atShare_eq_bisect (targets : List Weighted) (rolled : ℕ) :
    (Plan.of targets).atShare rolled = (Plan.of targets).live[min
      (bisect (fun running => decide (running ≤ rolled)) (Plan.of targets).shares 0
        (Plan.of targets).shares.length) ((Plan.of targets).live.length - 1)]? := by
  rw [bisect_eq_countP, atShare]
  refine (sorted_runningFrom 0 _).imp ?_
  intro a b hab hb
  exact decide_eq_true (le_trans hab (of_decide_eq_true hb))

theorem total_of (targets : List Weighted) :
    (Plan.of targets).total = ((Plan.of targets).live.map (shareAt targets)).sum := by
  rw [total, of_eq]
  exact (last_runningFrom 0 _).trans (Nat.zero_add _)

/-- A draw below the total falls before the last of the live endpoints has been passed. -/
theorem atShare_of_lt {targets : List Weighted} {rolled : ℕ} (h : rolled < (Plan.of targets).total) :
    (Plan.of targets).atShare rolled
      = (Plan.of targets).live[(Plan.of targets).shares.countP (· ≤ rolled)]? := by
  have hlength : (Plan.of targets).shares.length = (Plan.of targets).live.length := by
    rw [of_eq, length_runningFrom, List.length_map]
  have hbefore : (Plan.of targets).shares.countP (· ≤ rolled) ≠ (Plan.of targets).shares.length := by
    intro hall
    have hle := List.countP_eq_length.mp hall
    cases hlast : (Plan.of targets).shares.getLast? with
    | none =>
      rw [total, hlast] at h
      exact Nat.not_lt_zero _ h
    | some last =>
      rw [total, hlast] at h
      have := of_decide_eq_true (hle last (List.mem_of_getLast? hlast))
      exact Nat.lt_irrefl _ (Nat.lt_of_lt_of_le h this)
  have hmost := List.countP_le_length (l := (Plan.of targets).shares) (p := (· ≤ rolled))
  rw [atShare, Nat.min_eq_left (by omega)]

/-! ### The shares together -/

theorem sum_map_filter {α : Type} {f : α → ℕ} {p : α → Bool} {l : List α}
    (h : ∀ a ∈ l, p a = false → f a = 0) : ((l.filter p).map f).sum = (l.map f).sum := by
  induction l with
  | nil => rfl
  | cons a l ih =>
    have hl := ih fun b hb => h b (List.mem_cons_of_mem _ hb)
    rw [List.map_cons, List.sum_cons, List.filter_cons]
    split
    · rw [List.map_cons, List.sum_cons, hl]
    · rename_i hout
      rw [hl, h a (List.mem_cons_self ..) (Bool.eq_false_iff.mpr hout), Nat.zero_add]

theorem map_shareAt_range (targets : List Weighted) :
    (List.range targets.length).map (shareAt targets)
      = targets.map fun target => target.weight.get.toNat := by
  apply List.ext_getElem
  · simp
  · intro i hi hi'
    simp at hi
    simp [shareAt, hi]

/-- The live endpoints have all the shares there are, whether or not any is drained. -/
theorem sum_live (targets : List Weighted) : ((Plan.of targets).live.map (shareAt targets)).sum
    = (targets.map fun target => target.weight.get.toNat).sum := by
  rw [← map_shareAt_range]
  simp only [Plan.of]
  split
  · rfl
  · apply sum_map_filter
    intro i _ hout
    rw [Bool.eq_false_iff, ne_eq, any_not_isDrained_iff] at hout
    exact Nat.eq_zero_of_not_pos hout

theorem sum_shares_lt {targets : List Weighted} (h : targets.length ≤ UInt32.size) :
    (targets.map fun target => target.weight.get.toNat).sum < UInt64.size := by
  have hmost := List.sum_le_card_nsmul (targets.map fun target => target.weight.get.toNat) 4294967295
    (by
      intro share hshare
      obtain ⟨target, -, rfl⟩ := List.mem_map.mp hshare
      exact Nat.le_of_lt_succ target.weight.get.toNat_lt)
  rw [List.length_map, smul_eq_mul] at hmost
  calc _ ≤ targets.length * 4294967295 := hmost
    _ ≤ 4294967296 * 4294967295 := Nat.mul_le_mul_right _ h
    _ < UInt64.size := by decide

/-- **Every endpoint gets exactly its share** of the draws below the total, which is the sum of all shares;
and no running total is more than 64 bits hold. -/
theorem draws_at_share (targets : List Weighted) (hmany : targets.length ≤ UInt32.size)
    (hpositive : 0 < (targets.map fun target => target.weight.get.toNat).sum) :
    (Plan.of targets).total = (targets.map fun target => target.weight.get.toNat).sum ∧
      (∀ (i : ℕ) (hi : i < targets.length),
        (List.range (Plan.of targets).total).countP (fun drawn =>
          (Plan.of targets).atShare drawn == some i) = targets[i].weight.get.toNat) ∧
      ∀ running ∈ (Plan.of targets).shares, running < UInt64.size := by
  have hsum := sum_live targets
  have hsome : ¬ AllDrained targets := by
    intro hall
    rw [← map_shareAt_range, List.map_congr_left fun i _ => hall i] at hpositive
    simp at hpositive
  refine ⟨(total_of targets).trans hsum, ?_, ?_⟩
  · intro i hi
    have hshare : shareAt targets i = targets[i].weight.get.toNat := by
      rw [shareAt, List.getElem?_eq_getElem hi]
      rfl
    have hfalls : (List.range (Plan.of targets).total).countP (fun drawn =>
        (Plan.of targets).atShare drawn == some i)
          = if i ∈ (Plan.of targets).live then shareAt targets i else 0 := by
      rw [← countP_draws (nodup_live targets) (shareAt targets) 0 i, total_of, List.range_eq_range']
      apply List.countP_congr
      intro drawn hdrawn
      have hlt := (List.mem_range'_1.mp hdrawn).2
      rw [atShare_of_lt (by rw [total_of]; omega)]
      rfl
    rw [hfalls, ← hshare]
    split
    · rfl
    · rename_i hnot
      rw [mem_live_of hsome] at hnot
      omega
  · intro running hrunning
    have hle := (mem_runningFrom hrunning).2
    have hlt := sum_shares_lt hmany
    rw [← hsum] at hlt
    exact Nat.lt_of_le_of_lt hle (by rw [Nat.zero_add]; exact hlt)

/-- Endpoints of the examples, which differ in their shares. -/
def weighing (shares : List UInt32) : List Weighted := shares.map fun share => ⟨listener, ⟨share⟩⟩

/-- Of three draws two fall to the first endpoint, none to the drained one and one to the last. -/
theorem draws_at_two_none_one :
    (weighing [2, 0, 1]).length ≤ UInt32.size ∧ (Plan.of (weighing [2, 0, 1])).total = 3 ∧
      (List.range 3).countP (fun drawn => (Plan.of (weighing [2, 0, 1])).atShare drawn == some 0) = 2 ∧
      (List.range 3).countP (fun drawn => (Plan.of (weighing [2, 0, 1])).atShare drawn == some 1) = 0 ∧
      (List.range 3).countP (fun drawn => (Plan.of (weighing [2, 0, 1])).atShare drawn == some 2) = 1 := by
  obtain ⟨htotal, hdraws, -⟩ := draws_at_share (weighing [2, 0, 1]) (by decide) (by decide)
  rw [htotal] at hdraws
  exact ⟨by decide, htotal, hdraws 0 (by decide), hdraws 1 (by decide), hdraws 2 (by decide)⟩

end Plan

end IntelliPrism.Gateway
