import IntelliPrism.Lib.Word64

/-!
# Strings of bytes in order

Strings of bytes are compared byte by byte.  So strings that begin with parts of one length are compared by
those parts first, and two big endian numbers of one length are compared as numbers.

* `compare_append` — **a part in front decides first**;
* `compare_ofBeDigits` — **big endian bytes compare as the numbers they are**.
-/

namespace IntelliPrism.Lib

theorem compare_cons {α : Type*} [Ord α] (x y : α) (a b : List α) :
    compare (x :: a) (y :: b) = (compare x y).then (compare a b) := by
  simp [List.compare_eq_compareLex]

/-- **A part in front decides first**, where the parts are of one length. -/
theorem compare_append {α : Type*} [Ord α] {u v : List α} (h : u.length = v.length) (a b : List α) :
    compare (u ++ a) (v ++ b) = (compare u v).then (compare a b) := by
  induction u generalizing v with
  | nil =>
    cases v with
    | nil => simp [List.compare_eq_compareLex]
    | cons y v => simp at h
  | cons x u ih =>
    cases v with
    | nil => simp at h
    | cons y v =>
      simp only [List.length_cons, Nat.add_right_cancel_iff] at h
      rw [List.cons_append, List.cons_append, compare_cons, compare_cons, ih h, Ordering.then_assoc]

theorem foldl_beDigits (acc : ℕ) (bytes : Bytes) :
    bytes.foldl (fun acc b => acc * 256 + b.toNat) acc = acc * 256 ^ bytes.length + ofBeDigits bytes := by
  induction bytes generalizing acc with
  | nil => simp [ofBeDigits]
  | cons b bytes ih =>
    have hrest : ofBeDigits (b :: bytes) = (0 * 256 + b.toNat) * 256 ^ bytes.length + ofBeDigits bytes := ih _
    rw [List.foldl_cons, ih, hrest, List.length_cons, pow_succ]
    ring

theorem ofBeDigits_cons (b : UInt8) (bytes : Bytes) :
    ofBeDigits (b :: bytes) = b.toNat * 256 ^ bytes.length + ofBeDigits bytes := by
  have hrest : ofBeDigits (b :: bytes) = (0 * 256 + b.toNat) * 256 ^ bytes.length + ofBeDigits bytes :=
    foldl_beDigits _ bytes
  rw [hrest, Nat.zero_mul, Nat.zero_add]

theorem ofBeDigits_lt (bytes : Bytes) : ofBeDigits bytes < 256 ^ bytes.length := by
  induction bytes with
  | nil => simp [ofBeDigits]
  | cons b bytes ih =>
    have hb : b.toNat + 1 ≤ 256 := b.toNat_lt
    have hmul := Nat.mul_le_mul_right (256 ^ bytes.length) hb
    rw [ofBeDigits_cons, List.length_cons, pow_succ]
    rw [Nat.add_mul] at hmul
    omega

theorem compare_byte (x y : UInt8) : compare x y = compare x.toNat y.toNat := by
  rcases Nat.lt_trichotomy x.toNat y.toNat with hlt | heq | hgt
  · rw [Nat.compare_eq_lt.mpr hlt]
    exact Std.compare_eq_lt.mpr hlt
  · rw [UInt8.toNat_inj.mp heq, Std.compare_self, Std.compare_self]
  · rw [Nat.compare_eq_gt.mpr hgt]
    exact Std.compare_eq_gt.mpr hgt

/-- The higher digit decides first. -/
theorem compare_digits {unit r t : ℕ} (hr : r < unit) (ht : t < unit) (x y : ℕ) :
    compare (x * unit + r) (y * unit + t) = (compare x y).then (compare r t) := by
  rcases Nat.lt_trichotomy x y with hlt | heq | hgt
  · have hmul := Nat.mul_le_mul_right unit (Nat.succ_le_of_lt hlt)
    rw [Nat.succ_mul] at hmul
    rw [Nat.compare_eq_lt.mpr hlt, Nat.compare_eq_lt.mpr (by omega)]
    rfl
  · rw [heq, Std.compare_self]
    show compare (y * unit + r) (y * unit + t) = compare r t
    rcases Nat.lt_trichotomy r t with hlt | heq | hgt
    · rw [Nat.compare_eq_lt.mpr hlt, Nat.compare_eq_lt.mpr (by omega)]
    · rw [heq, Std.compare_self, Std.compare_self]
    · rw [Nat.compare_eq_gt.mpr hgt, Nat.compare_eq_gt.mpr (by omega)]
  · have hmul := Nat.mul_le_mul_right unit (Nat.succ_le_of_lt hgt)
    rw [Nat.succ_mul] at hmul
    rw [Nat.compare_eq_gt.mpr hgt, Nat.compare_eq_gt.mpr (by omega)]
    rfl

/-- **Big endian bytes compare as the numbers they are**, where there are as many of both. -/
theorem compare_ofBeDigits {u v : Bytes} (h : u.length = v.length) :
    compare u v = compare (ofBeDigits u) (ofBeDigits v) := by
  induction u generalizing v with
  | nil =>
    cases v with
    | nil => rfl
    | cons y v => simp at h
  | cons x u ih =>
    cases v with
    | nil => simp at h
    | cons y v =>
      simp only [List.length_cons, Nat.add_right_cancel_iff] at h
      have hu := ofBeDigits_lt u
      rw [h] at hu
      rw [compare_cons, compare_byte, ih h, ofBeDigits_cons, ofBeDigits_cons, h,
        compare_digits hu (ofBeDigits_lt v)]

end IntelliPrism.Lib
