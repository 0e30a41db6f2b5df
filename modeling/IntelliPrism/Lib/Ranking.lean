import Mathlib.Data.List.Find
import Mathlib.Data.List.Sort

/-!
# The first match of a list sorted by weight

A list sorted heaviest first, those of one weight in the order they had, and searched from its front.
What is found is the heaviest match, and of the heaviest matches the one that came first.

* `heaviestFirst` — the stable sort;
* `eq_heaviestFirst` — where no two elements weigh the same, there is one way to sort them;
* `Heaviest` — the first of the heaviest matches, one element at a time;
* `find?_heaviestFirst` — **what a search of it finds**, said of the list as it was;
* `find?_heaviestFirst_append` — a list that grows at its end keeps what it found, unless what it grows
  by holds a heavier match;
* `find?_heaviestFirst_zipIdx` — a numbered list is searched as the list is, and gives the first number;
* `find?_heaviestFirst_perm` — where no two matches weigh the same, the order of the list does not matter.
-/

namespace IntelliPrism.Lib

variable {α : Type*} (weight : α → ℕ)

/-- The list sorted heaviest first, those of one weight in the order they had. -/
def heaviestFirst (l : List α) : List α := l.insertionSort fun a b => weight b ≤ weight a

theorem mem_heaviestFirst {l : List α} {x : α} : x ∈ heaviestFirst weight l ↔ x ∈ l :=
  (List.perm_insertionSort _ l).mem_iff

theorem heaviestFirst_perm (l : List α) : (heaviestFirst weight l).Perm l := List.perm_insertionSort _ l

theorem pairwise_heaviestFirst (l : List α) :
    (heaviestFirst weight l).Pairwise fun a b => weight b ≤ weight a := by
  apply List.pairwise_insertionSort

/-- **Where no two elements weigh the same, there is one way to sort them.** -/
theorem eq_heaviestFirst {l l' : List α} (h : l'.Perm l) (hsorted : l'.Pairwise fun a b => weight b ≤ weight a)
    (hunique : ∀ a ∈ l, ∀ b ∈ l, weight a = weight b → a = b) : l' = heaviestFirst weight l := by
  refine List.Perm.eq_of_pairwise ?_ hsorted (pairwise_heaviestFirst weight l)
    (h.trans (heaviestFirst_perm weight l).symm)
  intro a b ha hb hab hba
  exact hunique a (h.mem_iff.mp ha) b ((mem_heaviestFirst weight).mp hb) (Nat.le_antisymm hba hab)

/-- An element that is no match changes nothing, wherever it is put. -/
theorem find?_orderedInsert_neg {p : α → Bool} {a : α} (ha : p a = false) (s : List α) :
    (s.orderedInsert (fun a b => weight b ≤ weight a) a).find? p = s.find? p := by
  induction s with
  | nil => simp [List.orderedInsert, ha]
  | cons b s ih =>
    rw [List.orderedInsert]
    split
    · rw [List.find?_cons, ha]
    · rw [List.find?_cons, List.find?_cons, ih]

/-- A match goes in front of every match that is no heavier, and behind those that are. -/
theorem find?_orderedInsert_pos {p : α → Bool} {a : α} (ha : p a = true) {s : List α}
    (hs : s.Pairwise fun a b => weight b ≤ weight a) :
    (s.orderedInsert (fun a b => weight b ≤ weight a) a).find? p
      = match s.find? p with
        | none => some a
        | some x => if weight x ≤ weight a then some a else some x := by
  induction s with
  | nil => simp [List.orderedInsert, ha]
  | cons b s ih =>
    obtain ⟨hb, hs⟩ := List.pairwise_cons.mp hs
    rw [List.orderedInsert]
    split
    · -- everything that follows is no heavier than the head, which is no heavier than the new one
      rename_i hle
      rw [List.find?_cons, ha]
      cases hfound : (b :: s).find? p with
      | none => rfl
      | some x =>
        have hx : weight x ≤ weight a := by
          rcases List.mem_cons.mp (List.mem_of_find?_eq_some hfound) with hxb | hxs
          · rw [hxb]
            exact hle
          · exact le_trans (hb x hxs) hle
        simp [hx]
    · rename_i hlt
      cases hpb : p b with
      | true => simp [hpb, hlt]
      | false => simp only [List.find?_cons, hpb, ih hs]

/-- One more element at the front of the list. -/
theorem find?_heaviestFirst_cons (p : α → Bool) (a : α) (l : List α) :
    (heaviestFirst weight (a :: l)).find? p
      = if p a then
          match (heaviestFirst weight l).find? p with
          | none => some a
          | some x => if weight x ≤ weight a then some a else some x
        else (heaviestFirst weight l).find? p := by
  have hsorted := pairwise_heaviestFirst weight l
  cases ha : p a with
  | true => exact find?_orderedInsert_pos weight ha hsorted
  | false => exact find?_orderedInsert_neg weight ha _

/-- A match that none outweighs, and the first of those of its weight. -/
def Heaviest (p : α → Bool) (l : List α) (x : α) : Prop :=
  (∀ y ∈ l, p y = true → weight y ≤ weight x) ∧
    l.find? (fun y => p y && weight y == weight x) = some x

namespace Heaviest

variable {weight} {p : α → Bool} {a x z : α} {l : List α}

theorem mem (h : Heaviest weight p l x) : x ∈ l ∧ p x = true := by
  have hmatch := List.find?_some h.2
  simp only [Bool.and_eq_true] at hmatch
  exact ⟨List.mem_of_find?_eq_some h.2, hmatch.1⟩

theorem cons_neg (ha : p a = false) : Heaviest weight p (a :: l) x ↔ Heaviest weight p l x := by
  simp [Heaviest, ha]

/-- In front of matches that are no heavier a match is the heaviest, as it comes first. -/
theorem cons_self (ha : p a = true) (hmax : ∀ y ∈ l, p y = true → weight y ≤ weight a) :
    Heaviest weight p (a :: l) x ↔ a = x := by
  constructor
  · intro h
    have hle : weight a ≤ weight x := h.1 a (List.mem_cons_self ..) ha
    rcases List.mem_cons.mp h.mem.1 with hx | hx
    · exact hx.symm
    · -- a match of the same weight further on is not the first of its weight
      have heq : weight a = weight x := Nat.le_antisymm hle (hmax x hx h.mem.2)
      have hfind := h.2
      rw [List.find?_cons, ha, heq] at hfind
      simpa using hfind
  · rintro rfl
    refine ⟨List.forall_mem_cons.mpr ⟨fun _ => le_refl _, hmax⟩, ?_⟩
    simp [ha]

/-- In front of a heavier match a match changes nothing. -/
theorem cons_lt (hz : z ∈ l ∧ p z = true) (hlt : weight a < weight z) :
    Heaviest weight p (a :: l) x ↔ Heaviest weight p l x := by
  have hfind : weight a < weight x → (a :: l).find? (fun y => p y && weight y == weight x)
      = l.find? fun y => p y && weight y == weight x := by
    intro hax
    have hne : (weight a == weight x) = false := beq_eq_false_iff_ne.mpr (Nat.ne_of_lt hax)
    rw [List.find?_cons, hne, Bool.and_false]
  constructor
  · rintro ⟨hall, hfirst⟩
    rw [hfind (lt_of_lt_of_le hlt (hall z (List.mem_cons_of_mem _ hz.1) hz.2))] at hfirst
    exact ⟨fun y hy => hall y (List.mem_cons_of_mem _ hy), hfirst⟩
  · rintro ⟨hall, hfirst⟩
    have hax := lt_of_lt_of_le hlt (hall z hz.1 hz.2)
    refine ⟨List.forall_mem_cons.mpr ⟨fun _ => le_of_lt hax, hall⟩, ?_⟩
    rw [hfind hax]
    exact hfirst

end Heaviest

/-- **What a search finds**: a match that none outweighs, and the first of those of its weight. -/
theorem find?_heaviestFirst {p : α → Bool} {l : List α} {x : α} :
    (heaviestFirst weight l).find? p = some x ↔ Heaviest weight p l x := by
  induction l generalizing x with
  | nil => simp [heaviestFirst, Heaviest]
  | cons a l ih =>
    rw [find?_heaviestFirst_cons]
    cases ha : p a with
    | false => rw [if_neg Bool.false_ne_true, ih, Heaviest.cons_neg ha]
    | true =>
      rw [if_pos rfl]
      cases hfound : (heaviestFirst weight l).find? p with
      | none =>
        have hno : ∀ y ∈ l, p y = true → weight y ≤ weight a := by
          intro y hy hpy
          exact absurd hpy (List.find?_eq_none.mp hfound y ((mem_heaviestFirst weight).mpr hy))
        rw [Heaviest.cons_self ha hno]
        exact Option.some_inj
      | some z =>
        have hz := ih.mp hfound
        by_cases hle : weight z ≤ weight a
        · rw [Heaviest.cons_self ha fun y hy hpy => le_trans (hz.1 y hy hpy) hle]
          exact (iff_of_eq (congrArg (· = some x) (if_pos hle))).trans Option.some_inj
        · rw [Heaviest.cons_lt hz.mem (Nat.not_le.mp hle), ← ih, hfound]
          exact iff_of_eq (congrArg (· = some x) (if_neg hle))

/-- Two lists whose first match of each weight is the same are searched alike. -/
theorem find?_heaviestFirst_congr {p : α → Bool} {l l' : List α}
    (h : ∀ w, l.find? (fun y => p y && weight y == w) = l'.find? fun y => p y && weight y == w) :
    (heaviestFirst weight l).find? p = (heaviestFirst weight l').find? p := by
  -- a bound on the matches' weights says that no match of a greater weight is found
  have hbound : ∀ (m : List α) (w : ℕ), (∀ y ∈ m, p y = true → weight y ≤ w) ↔
      ∀ v, w < v → m.find? (fun y => p y && weight y == v) = none := by
    intro m w
    constructor
    · intro hle v hv
      apply List.find?_eq_none.mpr
      intro y hy hmatch
      simp only [Bool.and_eq_true, beq_iff_eq] at hmatch
      have := hle y hy hmatch.1
      omega
    · intro hnone y hy hp
      by_contra hlt
      have := List.find?_eq_none.mp (hnone (weight y) (by omega)) y hy
      simp [hp] at this
  apply Option.ext
  intro x
  rw [find?_heaviestFirst, find?_heaviestFirst, Heaviest, Heaviest, hbound, hbound, h]
  simp only [h]

/-- A search does not depend on the order where at most one element matches. -/
theorem find?_perm_of_unique {p : α → Bool} {l l' : List α} (h : l.Perm l')
    (hunique : ∀ a ∈ l, ∀ b ∈ l, p a = true → p b = true → a = b) : l.find? p = l'.find? p := by
  cases hfound : l.find? p with
  | none =>
    symm
    apply List.find?_eq_none.mpr
    intro a ha
    exact List.find?_eq_none.mp hfound a (h.mem_iff.mpr ha)
  | some a =>
    have ha := List.mem_of_find?_eq_some hfound
    have hpa := List.find?_some hfound
    cases hfound' : l'.find? p with
    | none => exact absurd hpa (List.find?_eq_none.mp hfound' a (h.mem_iff.mp ha))
    | some b =>
      have hb := h.mem_iff.mpr (List.mem_of_find?_eq_some hfound')
      rw [hunique a ha b hb hpa (List.find?_some hfound')]

/-- **Where no two matches weigh the same, the order of the list does not matter.** -/
theorem find?_heaviestFirst_perm {p : α → Bool} {l l' : List α} (h : l.Perm l')
    (hunique : ∀ a ∈ l, ∀ b ∈ l, p a = true → p b = true → weight a = weight b → a = b) :
    (heaviestFirst weight l).find? p = (heaviestFirst weight l').find? p := by
  apply find?_heaviestFirst_congr
  intro w
  apply find?_perm_of_unique h
  intro a ha b hb hpa hpb
  simp only [Bool.and_eq_true, beq_iff_eq] at hpa hpb
  exact hunique a ha b hb hpa.1 hpb.1 (hpa.2.trans hpb.2.symm)

/-- What a search finds depends on the matches alone, so a list may be filtered first. -/
theorem find?_heaviestFirst_filter (p q : α → Bool) (l : List α) :
    (heaviestFirst weight (l.filter q)).find? p
      = (heaviestFirst weight l).find? fun x => q x && p x := by
  induction l with
  | nil => rfl
  | cons a l ih =>
    rw [find?_heaviestFirst_cons, List.filter_cons]
    cases hq : q a with
    | false => simp [ih]
    | true => simp [find?_heaviestFirst_cons, ih]

/-- Where all matches weigh the same, sorting does not change which comes first. -/
theorem find?_heaviestFirst_of_even {p : α → Bool} {l : List α}
    (heven : ∀ a ∈ l, ∀ b ∈ l, p a = true → p b = true → weight a = weight b) :
    (heaviestFirst weight l).find? p = l.find? p := by
  have hsame : ∀ x ∈ l, p x = true → l.find? (fun y => p y && weight y == weight x) = l.find? p := by
    intro x hx hpx
    refine List.find?_congr fun y hy => ?_
    cases hpy : p y with
    | false => rfl
    | true => rw [heven y hy x hx hpy hpx, beq_self_eq_true, Bool.and_true]
  ext x
  rw [find?_heaviestFirst]
  constructor
  · intro hx
    rw [← hsame x hx.mem.1 hx.mem.2]
    exact hx.2
  · intro hx
    have hmem : x ∈ l := List.mem_of_find?_eq_some hx
    have hmatch : p x = true := List.find?_some hx
    exact ⟨fun y hy hpy => (heven y hy x hmem hpy hmatch).le, (hsame x hmem hmatch).trans hx⟩

/-- Elements that carry their weight with them may be built before they are sorted or after. -/
theorem heaviestFirst_map {β : Type*} (f : β → α) (l : List β) :
    heaviestFirst weight (l.map f) = (heaviestFirst (fun b => weight (f b)) l).map f :=
  (List.map_insertionSort _ _ f l fun _ _ _ _ => Iff.rfl).symm

/-- The first match of a numbered list stands under the first number its element has. -/
theorem number_of_find?_zipIdx [DecidableEq α] (p : α → Bool) {l : List α} {free : ℕ} {found : α × ℕ}
    (h : (l.zipIdx free).find? (fun numbered => p numbered.1) = some found) :
    found.2 = free + l.idxOf found.1 := by
  induction l generalizing free with
  | nil => cases h
  | cons a l ih =>
    have hmatch : p found.1 = true := @List.find?_some _ (fun numbered : α × ℕ => p numbered.1) _ _ h
    rw [List.zipIdx_cons, List.find?_cons] at h
    cases ha : p a with
    | true =>
      rw [ha] at h
      cases h
      rw [List.idxOf_cons_self, Nat.add_zero]
    | false =>
      rw [ha] at h
      have hne : a ≠ found.1 := by
        intro heq
        rw [heq, hmatch] at ha
        cases ha
      rw [ih h, List.idxOf_cons_ne _ hne]
      omega

/-- **What a search finds of a numbered list** is the same element, under the first number it has. -/
theorem find?_heaviestFirst_zipIdx [DecidableEq α] (p : α → Bool) (l : List α) :
    (heaviestFirst (fun numbered : α × ℕ => weight numbered.1) l.zipIdx).find? (fun numbered => p numbered.1)
      = ((heaviestFirst weight l).find? p).map fun x => (x, l.idxOf x) := by
  have hunnumbered : ((heaviestFirst (fun numbered : α × ℕ => weight numbered.1) l.zipIdx).find?
      fun numbered => p numbered.1).map Prod.fst = (heaviestFirst weight l).find? p := by
    have hmap := heaviestFirst_map weight Prod.fst l.zipIdx
    rw [List.zipIdx_map_fst] at hmap
    rw [hmap, List.find?_map]
    rfl
  rw [← hunnumbered, Option.map_map]
  cases hfound : (heaviestFirst (fun numbered : α × ℕ => weight numbered.1) l.zipIdx).find?
      fun numbered => p numbered.1 with
  | none => rfl
  | some found =>
    have hnumber := number_of_find?_zipIdx (fun x => p x && weight x == weight found.1)
      ((find?_heaviestFirst _).mp hfound).2
    rw [Nat.zero_add] at hnumber
    exact congrArg (fun n => some (found.1, n)) hnumber

/-- **A list that grows at its end** keeps what it found unless it grows by a heavier match. -/
theorem find?_heaviestFirst_append {p : α → Bool} {l : List α} (more : List α) {x : α}
    (hx : (heaviestFirst weight l).find? p = some x) :
    ((∀ y ∈ more, p y = true → weight y ≤ weight x) ∧
        (heaviestFirst weight (l ++ more)).find? p = some x) ∨
      ∃ y, weight x < weight y ∧ (heaviestFirst weight more).find? p = some y ∧
        (heaviestFirst weight (l ++ more)).find? p = some y := by
  obtain ⟨hmax, hfirst⟩ := (find?_heaviestFirst weight).mp hx
  by_cases hmore : ∀ y ∈ more, p y = true → weight y ≤ weight x
  · refine .inl ⟨hmore, (find?_heaviestFirst weight).mpr ⟨?_, ?_⟩⟩
    · intro y hy
      rcases List.mem_append.mp hy with hl | hr
      · exact hmax y hl
      · exact hmore y hr
    · rw [List.find?_append, hfirst]
      rfl
  · push Not at hmore
    obtain ⟨z, hz, hpz, hlt⟩ := hmore
    cases hfound : (heaviestFirst weight more).find? p with
    | none =>
      have := List.find?_eq_none.mp hfound z ((mem_heaviestFirst weight).mpr hz)
      exact absurd hpz this
    | some y =>
      obtain ⟨hall, hy⟩ := (find?_heaviestFirst weight).mp hfound
      have hxy : weight x < weight y := lt_of_lt_of_le hlt (hall z hz hpz)
      refine .inr ⟨y, hxy, rfl, (find?_heaviestFirst weight).mpr ⟨?_, ?_⟩⟩
      · intro u hu
        rcases List.mem_append.mp hu with hl | hr
        · exact fun hpu => le_trans (hmax u hl hpu) (le_of_lt hxy)
        · exact hall u hr
      · have hnone : l.find? (fun u => p u && weight u == weight y) = none := by
          apply List.find?_eq_none.mpr
          intro u hu hpu
          simp only [Bool.and_eq_true, beq_iff_eq] at hpu
          have := hmax u hu hpu.1
          omega
        rw [List.find?_append, hnone]
        exact hy

end IntelliPrism.Lib
