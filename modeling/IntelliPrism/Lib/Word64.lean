import Mathlib.Algebra.Order.Group.Nat
import Mathlib.Tactic.Ring

/-!
# 64 bit words: saturating arithmetic and big endian bytes

The operations on `UInt64` that do not wrap, each with what it is as a natural number, and the eight
byte big endian encoding with its round trip.

* `saturatingAdd`, `saturatingSub` — sums that stop at the largest word, differences that stop at zero;
* `saturate` — a natural number as the nearest word;
* `toBeBytes` / `fromBeBytes` — the encoding, and the decoding that refuses anything but eight bytes;
* `fromBeBytes_toBeBytes` — decoding gives back what was encoded.
-/

namespace IntelliPrism.Lib

/-- A string of bytes. -/
abbrev Bytes := List UInt8

/-- The largest word. -/
def wordMax : ℕ := 2 ^ 64 - 1

theorem toNat_le_wordMax (a : UInt64) : a.toNat ≤ wordMax := by
  have := a.toNat_lt
  simp only [wordMax]
  omega

/-- A natural number as a word, the largest word standing for everything past it. -/
def saturate (n : ℕ) : UInt64 := UInt64.ofNat (min n wordMax)

@[simp] theorem saturate_toNat (n : ℕ) : (saturate n).toNat = min n wordMax := by
  apply UInt64.toNat_ofNat_of_lt'
  simp only [UInt64.size, wordMax]
  omega

theorem saturate_toNat_of_le {n : ℕ} (h : n ≤ wordMax) : (saturate n).toNat = n := by
  rw [saturate_toNat, Nat.min_eq_left h]

/-- A sum that stops at the largest word. -/
def saturatingAdd (a b : UInt64) : UInt64 := saturate (a.toNat + b.toNat)

/-- A difference that stops at zero. -/
def saturatingSub (a b : UInt64) : UInt64 := saturate (a.toNat - b.toNat)

@[simp] theorem saturatingAdd_toNat (a b : UInt64) :
    (saturatingAdd a b).toNat = min (a.toNat + b.toNat) wordMax := saturate_toNat _

@[simp] theorem saturatingSub_toNat (a b : UInt64) :
    (saturatingSub a b).toNat = a.toNat - b.toNat := by
  have := toNat_le_wordMax a
  rw [saturatingSub, saturate_toNat_of_le (by omega)]

/-! ### Big endian bytes -/

/-- The `w` lowest bytes of a number, highest first. -/
def beDigits : ℕ → ℕ → Bytes
  | 0, _ => []
  | w + 1, n => beDigits w (n / 256) ++ [UInt8.ofNat n]

/-- What a string of bytes reads as, highest first. -/
def ofBeDigits (bytes : Bytes) : ℕ := bytes.foldl (fun acc b => acc * 256 + b.toNat) 0

theorem beDigits_length (w n : ℕ) : (beDigits w n).length = w := by
  induction w generalizing n with
  | zero => rfl
  | succ w ih => rw [beDigits, List.length_append, ih, List.length_singleton]

theorem ofBeDigits_snoc (bytes : Bytes) (b : UInt8) :
    ofBeDigits (bytes ++ [b]) = ofBeDigits bytes * 256 + b.toNat := by
  simp only [ofBeDigits, List.foldl_append, List.foldl_cons, List.foldl_nil]

theorem ofBeDigits_beDigits (w n : ℕ) : ofBeDigits (beDigits w n) = n % 256 ^ w := by
  induction w generalizing n with
  | zero => simp [beDigits, ofBeDigits, Nat.mod_one]
  | succ w ih =>
    rw [beDigits, ofBeDigits_snoc, ih, pow_succ, Nat.mul_comm (256 ^ w) 256, Nat.mod_mul]
    simp only [UInt8.toNat_ofNat']
    ring

/-- The eight bytes of a word, highest first. -/
def toBeBytes (n : UInt64) : Bytes := beDigits 8 n.toNat

/-- The word eight bytes stand for, or nothing for any other number of bytes. -/
def fromBeBytes (bytes : Bytes) : Option UInt64 :=
  if bytes.length = 8 then some (UInt64.ofNat (ofBeDigits bytes)) else none

@[simp] theorem toBeBytes_length (n : UInt64) : (toBeBytes n).length = 8 := beDigits_length 8 _

@[simp] theorem fromBeBytes_toBeBytes (n : UInt64) : fromBeBytes (toBeBytes n) = some n := by
  have hlt : n.toNat < 256 ^ 8 := n.toNat_lt
  rw [fromBeBytes, if_pos (toBeBytes_length n), toBeBytes, ofBeDigits_beDigits, Nat.mod_eq_of_lt hlt,
    UInt64.ofNat_toNat]

end IntelliPrism.Lib
