import IntelliPrism.Lib.Text

/-!
# Lists trimmed and lists split

A list is trimmed by dropping what a test marks from both of its ends, and split at a separator into the
parts between.  Both go over a map of the elements, so what is read of text can be read of its bytes.

* `trimBy`, `trimBy_eq_self` — **what is trimmed already stays as it is**;
* `trimBy_map`, `splitOn_map` — trimming and splitting the image of a list;
* `mem_of_mem_splitOn` — the parts are made of what was split;
* `forall_byte`, `forall_ascii` — what is checked number by number.
-/

namespace IntelliPrism.Lib

/-! ### Trimming -/

section Trimming

variable {α β : Type*}

/-- A list without what a test marks at its two ends. -/
def trimBy (p : α → Bool) (l : List α) : List α := ((l.dropWhile p).reverse.dropWhile p).reverse

theorem trimBy_map (f : α → β) (p : β → Bool) (l : List α) :
    trimBy p (l.map f) = (trimBy (p ∘ f) l).map f := by
  simp [trimBy, List.dropWhile_map, ← List.map_reverse]

theorem dropWhile_congr {p q : α → Bool} {l : List α} (h : ∀ a ∈ l, p a = q a) :
    l.dropWhile p = l.dropWhile q := by
  induction l with
  | nil => rfl
  | cons a l ih =>
    simp only [List.dropWhile_cons, h a (List.mem_cons_self ..),
      ih fun b hb => h b (List.mem_cons_of_mem _ hb)]

theorem trimBy_subset (p : α → Bool) (l : List α) : trimBy p l ⊆ l := by
  intro a ha
  have hfront := List.dropWhile_subset p (List.mem_reverse.mp ha)
  exact List.dropWhile_subset p (List.mem_reverse.mp hfront)

theorem trimBy_congr {p q : α → Bool} {l : List α} (h : ∀ a ∈ l, p a = q a) : trimBy p l = trimBy q l := by
  unfold trimBy
  rw [dropWhile_congr h]
  refine congrArg List.reverse (dropWhile_congr ?_)
  intro a ha
  exact h a (List.dropWhile_subset q (List.mem_reverse.mp ha))

/-- The list begins with nothing a test marks. -/
def Begins (p : α → Bool) (l : List α) : Prop := ∀ a ∈ l.head?, p a = false

theorem begins_of_forall {p : α → Bool} {l : List α} (h : ∀ a ∈ l, p a = false) : Begins p l :=
  fun a ha => h a (List.mem_of_mem_head? ha)

theorem begins_dropWhile (p : α → Bool) (l : List α) : Begins p (l.dropWhile p) := by
  induction l with
  | nil => simp [Begins]
  | cons a l ih =>
    by_cases h : p a = true
    · rwa [List.dropWhile_cons_of_pos h]
    · rw [List.dropWhile_cons_of_neg h]
      simpa [Begins] using h

theorem dropWhile_eq_self {p : α → Bool} {l : List α} (h : Begins p l) : l.dropWhile p = l := by
  cases l with
  | nil => rfl
  | cons a l => exact List.dropWhile_cons_of_neg (by simp [h a rfl])

/-- **What begins and ends with nothing that is marked is trimmed already.** -/
theorem trimBy_eq_self {p : α → Bool} {l : List α} (hfirst : Begins p l) (hlast : Begins p l.reverse) :
    trimBy p l = l := by
  rw [trimBy, dropWhile_eq_self hfirst, dropWhile_eq_self hlast, List.reverse_reverse]

theorem begins_reverse_trimBy (p : α → Bool) (l : List α) : Begins p (trimBy p l).reverse := by
  rw [trimBy, List.reverse_reverse]
  exact begins_dropWhile p _

/-- Dropping from one end leaves the other as it is, unless nothing is left. -/
theorem begins_reverse_dropWhile {p : α → Bool} {l : List α} (h : Begins p l) :
    Begins p (l.reverse.dropWhile p).reverse := by
  obtain ⟨gone, hgone⟩ := List.dropWhile_suffix (l := l.reverse) p
  have hwhole : l = (l.reverse.dropWhile p).reverse ++ gone.reverse := by
    rw [← List.reverse_append, hgone, List.reverse_reverse]
  intro a ha
  refine h a ?_
  rw [hwhole, List.head?_append, Option.mem_def.mp ha]
  rfl

theorem begins_trimBy (p : α → Bool) (l : List α) : Begins p (trimBy p l) :=
  begins_reverse_dropWhile (begins_dropWhile p l)

end Trimming

/-! ### Splitting -/

section Splitting

variable {α β : Type*} [BEq α] [BEq β]

/-- Splitting the image of a list at the image of a separator, when no other element is taken for it. -/
theorem splitOn_map (f : α → β) (sep : α) {l : List α} (h : ∀ a ∈ l, (f a == f sep) = (a == sep)) :
    (l.map f).splitOn (f sep) = (l.splitOn sep).map (List.map f) := by
  induction l with
  | nil => simp
  | cons a l ih =>
    rw [List.map_cons, List.splitOn_cons_eq_if_modifyHead, List.splitOn_cons_eq_if_modifyHead,
      h a (List.mem_cons_self ..), ih fun b hb => h b (List.mem_cons_of_mem _ hb)]
    split
    · simp
    · cases hparts : l.splitOn sep with
      | nil => exact absurd hparts (List.splitOn_ne_nil sep l)
      | cons part parts => simp

/-- The parts are made of what was split, less the separator. -/
theorem mem_of_mem_splitOn [LawfulBEq α] {sep a : α} {l part : List α} (hpart : part ∈ l.splitOn sep)
    (ha : a ∈ part) : a ∈ l ∧ a ≠ sep := by
  induction l generalizing part with
  | nil =>
    rw [List.splitOn_nil, List.mem_singleton] at hpart
    rw [hpart] at ha
    cases ha
  | cons b l ih =>
    rw [List.splitOn_cons_eq_if_modifyHead] at hpart
    split at hpart
    · rcases List.mem_cons.mp hpart with hnil | hrest
      · rw [hnil] at ha
        cases ha
      · exact ⟨List.mem_cons_of_mem _ (ih hrest ha).1, (ih hrest ha).2⟩
    · rename_i hne
      cases hparts : l.splitOn sep with
      | nil => exact absurd hparts (List.splitOn_ne_nil sep l)
      | cons first rest =>
        rw [hparts] at hpart ih
        rcases List.mem_cons.mp hpart with hfirst | hlater
        · rw [hfirst] at ha
          rcases List.mem_cons.mp ha with hb | hl
          · refine ⟨hb ▸ List.mem_cons_self .., ?_⟩
            rw [hb]
            exact fun heq => hne (beq_iff_eq.mpr heq)
          · have := ih (List.mem_cons_self ..) hl
            exact ⟨List.mem_cons_of_mem _ this.1, this.2⟩
        · have := ih (List.mem_cons_of_mem _ hlater) ha
          exact ⟨List.mem_cons_of_mem _ this.1, this.2⟩

end Splitting

/-! ### Bytes and characters -/

/-- What holds of the first 256 numbers as bytes holds of every byte. -/
theorem forall_byte {P : UInt8 → Prop} (h : ∀ n < 256, P (UInt8.ofNat n)) (b : UInt8) : P b :=
  @UInt8.ofNat_toNat b ▸ h b.toNat b.toNat_lt

/-- What holds of the first 128 numbers as characters holds of every ascii character. -/
theorem forall_ascii {P : Char → Prop} (h : ∀ n < 128, P (Char.ofNat n)) {c : Char} (hc : c.toNat < 128) :
    P c :=
  Char.ofNat_toNat c ▸ h c.toNat hc

end IntelliPrism.Lib
