import IntelliPrism.Lib.Trim

/-!
# Lines, written and read back

Lines are written with an end behind each and read back by cutting at the ends.  Where a line may end in
one of two characters, or in both, every such end is first turned into one of them.

* `terminated`, `splitOn_terminated` — **lines that do not hold their own end are read back**;
* `toLineFeeds` — every pair and every lone return turned into a feed;
* `mem_bytes_ofList` — a byte below 128 of a text is one of its characters.
-/

namespace IntelliPrism.Lib

/-! ### Lines with an end behind each -/

section Lines

variable {α : Type*}

/-- Lines one after the other, with an end behind each. -/
def terminated (sep : α) (lines : List (List α)) : List α := lines.flatMap (· ++ [sep])

@[simp] theorem terminated_nil (sep : α) : terminated sep [] = [] := rfl

theorem terminated_cons (sep : α) (line : List α) (lines : List (List α)) :
    terminated sep (line :: lines) = line ++ sep :: terminated sep lines := by
  simp [terminated]

theorem mem_terminated {sep a : α} {lines : List (List α)} (h : a ∈ terminated sep lines) :
    a = sep ∨ ∃ line ∈ lines, a ∈ line := by
  obtain ⟨line, hline, ha⟩ := List.mem_flatMap.mp h
  rcases List.mem_append.mp ha with hin | hsep
  · exact .inr ⟨line, hline, hin⟩
  · exact .inl (List.mem_singleton.mp hsep)

/-- **Lines that do not hold their own end are read back**, with nothing behind the last end. -/
theorem splitOn_terminated [BEq α] [LawfulBEq α] {sep : α} {lines : List (List α)}
    (h : ∀ line ∈ lines, sep ∉ line) (rest : List α) :
    (terminated sep lines ++ rest).splitOn sep = lines ++ rest.splitOn sep := by
  induction lines with
  | nil => rfl
  | cons line lines ih =>
    rw [terminated_cons, List.append_assoc, List.cons_append,
      List.splitOn_append_cons_self_of_not_mem (h line (List.mem_cons_self ..)),
      ih fun other hother => h other (List.mem_cons_of_mem _ hother), List.cons_append]

/-! ### Two characters that end a line -/

variable [DecidableEq α] (cr lf : α)

/-- Every pair of a return and a feed, and every return that stands alone, turned into a feed. -/
def toLineFeeds : List α → List α
  | [] => []
  | [a] => [if a = cr then lf else a]
  | a :: b :: rest =>
    if a = cr then
      if b = lf then lf :: toLineFeeds rest else lf :: toLineFeeds (b :: rest)
    else a :: toLineFeeds (b :: rest)

theorem toLineFeeds_pair (rest : List α) :
    toLineFeeds cr lf (cr :: lf :: rest) = lf :: toLineFeeds cr lf rest := by
  simp [toLineFeeds]

theorem toLineFeeds_lone {lf : α} {rest : List α} (h : rest.head? ≠ some lf) :
    toLineFeeds cr lf (cr :: rest) = lf :: toLineFeeds cr lf rest := by
  cases rest with
  | nil => simp [toLineFeeds]
  | cons b rest =>
    have hb : b ≠ lf := fun heq => h (congrArg some heq)
    simp [toLineFeeds, hb]

theorem toLineFeeds_cons {cr a : α} (h : a ≠ cr) (rest : List α) :
    toLineFeeds cr lf (a :: rest) = a :: toLineFeeds cr lf rest := by
  cases rest with
  | nil => simp [toLineFeeds, h]
  | cons b rest => simp [toLineFeeds, h]

theorem toLineFeeds_of_notMem {cr : α} (lf : α) {l : List α} (h : cr ∉ l) : toLineFeeds cr lf l = l := by
  fun_induction toLineFeeds cr lf l with
  | case1 => rfl
  | case2 a =>
    rw [if_neg]
    exact fun heq => h (heq ▸ List.mem_cons_self ..)
  | case3 rest ih => exact absurd (List.mem_cons_self ..) h
  | case4 b rest hlf ih => exact absurd (List.mem_cons_self ..) h
  | case5 a b rest hcr ih => rw [ih fun hmem => h (List.mem_cons_of_mem _ hmem)]

/-- Nothing but feeds is left of the two. -/
theorem notMem_toLineFeeds {cr lf : α} (hne : cr ≠ lf) (l : List α) : cr ∉ toLineFeeds cr lf l := by
  fun_induction toLineFeeds cr lf l with
  | case1 => simp
  | case2 a =>
    rw [List.mem_singleton]
    split
    · exact hne
    · rename_i h
      exact fun heq => h heq.symm
  | case3 rest ih => simpa [hne] using ih
  | case4 b rest hlf ih => simpa [hne] using ih
  | case5 a b rest hcr ih => simpa [Ne.symm hcr] using ih

end Lines

/-! ### Bytes of text -/

/-- A character is written as itself below 128, and in bytes from 128 on above. -/
theorem mem_utf8EncodeChar {c : Char} {b : UInt8} (h : b ∈ String.utf8EncodeChar c) :
    128 ≤ b.toNat ∨ c.toNat = b.toNat := by
  have hchar : c.toNat = c.val.toNat := rfl
  unfold String.utf8EncodeChar at h
  simp only at h
  split at h
  · rw [List.mem_singleton] at h
    rw [h, UInt8.toNat_ofNat']
    omega
  · refine .inl ?_
    split at h
    · simp only [List.mem_cons, List.not_mem_nil, or_false] at h
      rcases h with rfl | rfl <;> rw [UInt8.toNat_ofNat'] <;> omega
    · split at h
      · simp only [List.mem_cons, List.not_mem_nil, or_false] at h
        rcases h with rfl | rfl | rfl <;> rw [UInt8.toNat_ofNat'] <;> omega
      · simp only [List.mem_cons, List.not_mem_nil, or_false] at h
        rcases h with rfl | rfl | rfl | rfl <;> rw [UInt8.toNat_ofNat'] <;> omega

/-- **A byte below 128 of a text is one of its characters.** -/
theorem mem_bytes_ofList {l : List Char} {b : UInt8} (h : b ∈ (String.ofList l).toByteArray.data.toList) :
    128 ≤ b.toNat ∨ ∃ c ∈ l, c.toNat = b.toNat := by
  rw [String.toByteArray_ofList] at h
  induction l with
  | nil => cases h
  | cons a l ih =>
    rw [List.utf8Encode_cons, ByteArray.data_append, Array.toList_append, List.mem_append] at h
    rcases h with hfirst | hrest
    · rw [List.utf8Encode_singleton] at hfirst
      rcases @mem_utf8EncodeChar a b (by simpa using hfirst) with hbig | heq
      · exact .inl hbig
      · exact .inr ⟨a, List.mem_cons_self .., heq⟩
    · rcases ih hrest with hbig | ⟨c, hc, heq⟩
      · exact .inl hbig
      · exact .inr ⟨c, List.mem_cons_of_mem _ hc, heq⟩

end IntelliPrism.Lib
