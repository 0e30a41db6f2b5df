import Mathlib.Algebra.Order.Ring.Nat
import Mathlib.Data.Nat.Log

/-!
# Whole numbers as doubles

A double holds a whole number of up to 53 bits exactly; a longer one is rounded to 53 bits, to the nearer
side and from the middle to the even one.

* `nearest_mono` — rounding to multiples of one unit keeps the order;
* `toDouble_of_lt` — a number of 53 bits is held as it is;
* `toDouble_mono` — **rounding keeps the order**, though it may make two numbers one.
-/

namespace IntelliPrism.Lib

/-- The multiple of a unit nearest to a number; from the middle, the even one. -/
def nearest (unit n : ℕ) : ℕ :=
  let below := n / unit
  let rest := n % unit
  if 2 * rest < unit then below * unit
  else if unit < 2 * rest then (below + 1) * unit
  else (below + below % 2) * unit

/-- What the last of 53 bits of a number is worth. -/
def lastBit (n : ℕ) : ℕ := 2 ^ (Nat.log 2 n - 52)

/-- A whole number as a double holds it. -/
def toDouble (n : ℕ) : ℕ := nearest (lastBit n) n

/-- How many units a number is rounded to. -/
theorem exists_nearest (unit n : ℕ) : ∃ up, nearest unit n = (n / unit + up) * unit ∧
    (up = 0 ∧ 2 * (n % unit) ≤ unit ∨ up = 1 ∧ unit ≤ 2 * (n % unit)) ∧
    (2 * (n % unit) = unit → up = n / unit % 2) := by
  simp only [nearest]
  split
  · exact ⟨0, rfl, by omega, by omega⟩
  · split
    · exact ⟨1, rfl, by omega, by omega⟩
    · exact ⟨_, rfl, by omega, fun _ => rfl⟩

theorem nearest_mono (unit : ℕ) {a b : ℕ} (h : a ≤ b) : nearest unit a ≤ nearest unit b := by
  obtain ⟨upA, hA, hsideA, hevenA⟩ := exists_nearest unit a
  obtain ⟨upB, hB, hsideB, hevenB⟩ := exists_nearest unit b
  rw [hA, hB]
  apply Nat.mul_le_mul_right
  have hdiv : a / unit ≤ b / unit := Nat.div_le_div_right h
  rcases Nat.lt_or_eq_of_le hdiv with hlt | heq
  · omega
  · -- between the same two multiples, the larger number is at least as far up
    have hover : a % unit ≤ b % unit := by
      have ha := Nat.div_add_mod a unit
      have hb := Nat.div_add_mod b unit
      rw [heq] at ha
      omega
    rw [heq] at hevenA ⊢
    omega

theorem nearest_mul (unit k : ℕ) (h : 0 < unit) : nearest unit (k * unit) = k * unit := by
  have hdiv : k * unit / unit = k := Nat.mul_div_cancel k h
  have hmod : k * unit % unit = 0 := Nat.mul_mod_left k unit
  simp only [nearest, hdiv, hmod, Nat.mul_zero, if_pos h]

theorem toDouble_of_lt {n : ℕ} (h : n < 2 ^ 53) : toDouble n = n := by
  have hlog : Nat.log 2 n - 52 = 0 := by
    have : Nat.log 2 n < 53 := Nat.log_lt_of_lt_pow' (by omega) h
    omega
  have hunit : lastBit n = 1 := by rw [lastBit, hlog, pow_zero]
  have hone := nearest_mul 1 n Nat.one_pos
  rwa [Nat.mul_one, ← hunit] at hone

/-- A power of two from the last bit on is a multiple of it. -/
theorem nearest_two_pow {k m : ℕ} (h : k ≤ m) : nearest (2 ^ k) (2 ^ m) = 2 ^ m := by
  obtain ⟨d, rfl⟩ := Nat.exists_eq_add_of_le' h
  rw [pow_add]
  exact nearest_mul _ _ (Nat.two_pow_pos k)

/-- Rounding stays on this side of the next power of two. -/
theorem toDouble_le_of_lt_two_pow {n m : ℕ} (h : n < 2 ^ m) (hm : Nat.log 2 n ≤ m) :
    toDouble n ≤ 2 ^ m := by
  have hmono := nearest_mono (lastBit n) h.le
  rwa [lastBit, nearest_two_pow (by omega)] at hmono

/-- Rounding stays on that side of the last power of two. -/
theorem two_pow_log_le_toDouble {n : ℕ} (h : n ≠ 0) : 2 ^ Nat.log 2 n ≤ toDouble n := by
  have hmono := nearest_mono (lastBit n) (Nat.pow_log_le_self 2 h)
  rwa [lastBit, nearest_two_pow (by omega)] at hmono

/-- **Rounding keeps the order.** -/
theorem toDouble_mono {a b : ℕ} (h : a ≤ b) : toDouble a ≤ toDouble b := by
  have hlog : Nat.log 2 a ≤ Nat.log 2 b := Nat.log_mono_right h
  rcases Nat.lt_or_eq_of_le hlog with hlt | heq
  · -- a power of two stands between the two numbers, and so between what they are rounded to
    have hb : b ≠ 0 := by
      rintro rfl
      simp at hlt
    have ha : a < 2 ^ Nat.log 2 b :=
      lt_of_lt_of_le (Nat.lt_pow_succ_log_self Nat.one_lt_two a) (Nat.pow_le_pow_right Nat.two_pos hlt)
    exact (toDouble_le_of_lt_two_pow ha hlog).trans (two_pow_log_le_toDouble hb)
  · unfold toDouble lastBit
    rw [heq]
    exact nearest_mono _ h

end IntelliPrism.Lib
