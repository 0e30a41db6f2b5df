import Mathlib.Data.Int.Notation
import Mathlib.Data.Nat.Notation
import Mathlib.Logic.Function.Defs

/-!
# Text made of parts

Keys are written as parts with separators between them.  A part that does not hold the separator ends
at the first one, so the parts can be read back one by one; a number is written in digits.

* `append_cons_inj`, `append_colon_inj` — **the first separator ends the first part**;
* `mem_splitOn` — what is split is made of its parts and the separator;
* `digit_of_mem_toString`, `toString_injective`, `toString_int_injective` — numbers as they are written;
* `foldl_digits_toString` — a number is read back from its digits;
* `utf8ByteSize_ofList`, `toByteArray_ofList_of_ascii` — ascii text has as many bytes as characters, and is
  them.
-/

namespace IntelliPrism.Lib

/-- **The first separator ends the first part**: two texts whose first parts do not hold the separator
are the same only when their first parts are, and their rests. -/
theorem append_cons_inj {α : Type*} {sep : α} {a b : List α} (ha : sep ∉ a) (hb : sep ∉ b)
    {rest rest' : List α} (h : a ++ sep :: rest = b ++ sep :: rest') : a = b ∧ rest = rest' := by
  induction a generalizing b with
  | nil =>
    cases b with
    | nil => exact ⟨rfl, (List.cons.inj h).2⟩
    | cons y b =>
      obtain ⟨rfl, -⟩ := List.cons.inj h
      exact absurd (List.mem_cons_self ..) hb
  | cons x a ih =>
    cases b with
    | nil =>
      obtain ⟨rfl, -⟩ := List.cons.inj h
      exact absurd (List.mem_cons_self ..) ha
    | cons y b =>
      obtain ⟨rfl, htail⟩ := List.cons.inj h
      obtain ⟨rfl, hrest⟩ := ih (fun hmem => ha (List.mem_cons_of_mem _ hmem))
        (fun hmem => hb (List.mem_cons_of_mem _ hmem)) htail
      exact ⟨rfl, hrest⟩

/-- Four texts one after the other. -/
theorem append_four (a b c d : String) : a ++ b ++ c ++ d = a ++ (b ++ (c ++ d)) := by
  rw [String.append_assoc, String.append_assoc]

/-- A text that goes on begins as it did. -/
theorem begins_append {front : List Char} {s : String}
    (h : ∃ rest, s.toList = front ++ rest) (t : String) :
    ∃ rest, (s ++ t).toList = front ++ rest := by
  obtain ⟨rest, hrest⟩ := h
  exact ⟨rest ++ t.toList, by rw [String.toList_append, hrest, List.append_assoc]⟩

/-- The first separator of texts with colons between their parts. -/
theorem append_colon_inj {a b rest rest' : String} (ha : ':' ∉ a.toList) (hb : ':' ∉ b.toList)
    (h : a ++ (":" ++ rest) = b ++ (":" ++ rest')) : a = b ∧ rest = rest' := by
  have hlist := congrArg String.toList h
  rw [String.toList_append, String.toList_append, String.toList_append, String.toList_append] at hlist
  obtain ⟨hfirst, hrest⟩ := append_cons_inj ha hb hlist
  exact ⟨String.toList_inj.mp hfirst, String.toList_inj.mp hrest⟩

/-- A number is written in digits. -/
theorem isDigit_of_mem_toString {n : ℕ} {c : Char} (h : c ∈ (toString n).toList) :
    c.isDigit = true := by
  rw [Nat.toString_eq_repr, Nat.repr, String.toList_ofList] at h
  exact Nat.isDigit_of_mem_toDigits (by decide) (by decide) h

/-- An integer is written in digits and a minus. -/
theorem digit_of_mem_toString {n : ℤ} {c : Char} (h : c ∈ (toString n).toList) :
    c.isDigit = true ∨ c = '-' := by
  cases n with
  | ofNat m => exact .inl (isDigit_of_mem_toString (n := m) h)
  | negSucc m =>
    have hsplit : c ∈ "-".toList ++ (toString m.succ).toList := by
      rw [← String.toList_append]
      exact h
    rcases List.mem_append.mp hsplit with hminus | hdigits
    · exact .inr (by simpa using hminus)
    · exact .inl (isDigit_of_mem_toString hdigits)

/-- Numbers written alike are the same. -/
theorem toString_injective : Function.Injective (toString : ℕ → String) := by
  intro m n h
  have hdigits := congrArg String.toList h
  rw [Nat.toString_eq_repr, Nat.toString_eq_repr, Nat.repr, Nat.repr, String.toList_ofList,
    String.toList_ofList] at hdigits
  have hread := congrArg (fun digits => Nat.ofDigitChars 10 digits 0) hdigits
  simpa only [Nat.ofDigitChars_ten_toDigits] using hread

/-- Integers written alike are the same. -/
theorem toString_int_injective : Function.Injective (toString : ℤ → String) := by
  -- only a negative one is written with a minus
  have hsign : ∀ m n : ℕ, toString m ≠ "-" ++ toString n := by
    intro m n h
    have hminus : '-' ∈ (toString m).toList := by
      rw [h, String.toList_append]
      exact List.mem_append_left _ (by decide)
    exact absurd (isDigit_of_mem_toString hminus) (by decide)
  intro a b h
  cases a with
  | ofNat m =>
    cases b with
    | ofNat n => exact congrArg Int.ofNat (toString_injective h)
    | negSucc n => exact absurd h (hsign m n.succ)
  | negSucc m =>
    cases b with
    | ofNat n => exact absurd h.symm (hsign n m.succ)
    | negSucc n =>
      have hdigits : toString m.succ = toString n.succ := (String.append_right_inj "-").mp h
      exact congrArg Int.negSucc (Nat.succ.inj (toString_injective hdigits))

/-- Parts with a separator between them are the first, the separator and the rest. -/
theorem intercalate_cons_cons {α : Type*} (sep : α) (part next : List α) (parts : List (List α)) :
    [sep].intercalate (part :: next :: parts) = part ++ sep :: [sep].intercalate (next :: parts) := by
  simp [List.intercalate]

theorem mem_intercalate {α : Type*} {sep c : α} {parts : List (List α)}
    (h : c ∈ [sep].intercalate parts) : c = sep ∨ ∃ part ∈ parts, c ∈ part := by
  induction parts with
  | nil => cases h
  | cons part parts ih =>
    cases parts with
    | nil =>
      refine .inr ⟨part, List.mem_singleton_self _, ?_⟩
      simpa [List.intercalate] using h
    | cons next parts =>
      rw [intercalate_cons_cons, List.mem_append, List.mem_cons] at h
      rcases h with hpart | hsep | hrest
      · exact .inr ⟨part, List.mem_cons_self .., hpart⟩
      · exact .inl hsep
      · rcases ih hrest with hsep | hlater
        · exact .inl hsep
        · obtain ⟨later, hmem, hin⟩ := hlater
          exact .inr ⟨later, List.mem_cons_of_mem _ hmem, hin⟩

theorem length_le_intercalate {α : Type*} {sep : α} {part : List α} {parts : List (List α)}
    (h : part ∈ parts) : part.length ≤ ([sep].intercalate parts).length := by
  induction parts with
  | nil => cases h
  | cons first parts ih =>
    cases parts with
    | nil => simp [List.intercalate, List.mem_singleton.mp h]
    | cons next parts =>
      rw [intercalate_cons_cons, List.length_append, List.length_cons]
      rcases List.mem_cons.mp h with hfirst | hrest
      · rw [hfirst]
        omega
      · have := ih hrest
        omega

/-- What a list holds stands in one of the parts it is split into, or is the separator. -/
theorem mem_splitOn {α : Type*} [BEq α] [LawfulBEq α] (sep : α) {c : α} {l : List α} (h : c ∈ l) :
    c = sep ∨ ∃ part ∈ l.splitOn sep, c ∈ part := by
  have hwhole : [sep].intercalate (l.splitOn sep) = l := List.intercalate_splitOn sep
  rw [← hwhole] at h
  exact mem_intercalate h

/-- A part is no longer than what was split. -/
theorem length_le_of_mem_splitOn {α : Type*} [BEq α] [LawfulBEq α] {sep : α} {l part : List α}
    (h : part ∈ l.splitOn sep) : part.length ≤ l.length := by
  have hle := @length_le_intercalate α sep part _ h
  rwa [List.intercalate_splitOn] at hle

theorem utf8Size_of_ascii {ch : Char} (h : ch.toNat < 128) : ch.utf8Size = 1 := by
  have hlt : ch.val.toNat < 128 := h
  rw [Char.utf8Size, if_pos]
  apply UInt32.le_iff_toNat_le.mpr
  show ch.val.toNat ≤ 127
  omega

/-- Ascii text has as many bytes as characters. -/
theorem utf8ByteSize_ofList {l : List Char} (h : ∀ ch ∈ l, ch.toNat < 128) :
    (String.ofList l).utf8ByteSize = l.length := by
  induction l with
  | nil => rfl
  | cons a l ih =>
    rw [String.ofList_cons, String.utf8ByteSize_append, String.utf8ByteSize_singleton,
      utf8Size_of_ascii (h a (List.mem_cons_self ..)), ih fun ch hch => h ch (List.mem_cons_of_mem _ hch),
      List.length_cons]
    omega

/-- The bytes of ascii text are its characters. -/
theorem toByteArray_ofList_of_ascii {l : List Char} (h : ∀ ch ∈ l, ch.toNat < 128) :
    (String.ofList l).toByteArray.data.toList = l.map fun ch => ch.val.toUInt8 := by
  rw [String.toByteArray_ofList]
  induction l with
  | nil => rfl
  | cons a l ih =>
    have hone : [a].utf8Encode.data.toList = [a.val.toUInt8] := by
      rw [List.utf8Encode_singleton, String.utf8EncodeChar_eq_singleton
        (utf8Size_of_ascii (h a (List.mem_cons_self ..)))]
      rfl
    rw [List.utf8Encode_cons, ByteArray.data_append, Array.toList_append, hone,
      ih fun ch hch => h ch (List.mem_cons_of_mem _ hch)]
    rfl

/-- A number is read back from its digits. -/
theorem foldl_digits_toString (n : ℕ) :
    (toString n).toList.foldl (fun value digit => value * 10 + (digit.toNat - '0'.toNat)) 0 = n := by
  rw [Nat.toString_eq_repr, Nat.repr, String.toList_ofList]
  have hread : Nat.ofDigitChars 10 (Nat.toDigits 10 n) 0 = n := Nat.ofDigitChars_ten_toDigits
  rw [Nat.ofDigitChars] at hread
  simp only [Nat.mul_comm 10] at hread
  exact hread

end IntelliPrism.Lib
