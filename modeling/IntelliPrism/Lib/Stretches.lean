import Mathlib.Order.Lattice
import Mathlib.Order.Monotone.Basic

/-!
# An order cut into stretches

An order is cut into stretches by a strictly increasing row of points, one for each integer, and a number
for each element: that of the stretch it stands in, which begins at or before it and ends behind it.

* `Stretches.index_eq_iff` — an element stands in one stretch only;
* `start_start`, `start_stop` — **the ends of the stretches are the starts of stretches**;
* `start_mono`, `start_eq_iff` — **the stretches follow the order**, and two elements share one exactly when
  neither is at or past the end of the other's.
-/

namespace IntelliPrism.Lib

/-- Points that cut an order, and the number of the stretch each element stands in. -/
structure Stretches (α : Type*) [LinearOrder α] where
  first : ℤ → α
  index : α → ℤ
  first_lt : ∀ i, first i < first (i + 1)
  first_le : ∀ a, first (index a) ≤ a
  lt_first : ∀ a, a < first (index a + 1)

namespace Stretches

variable {α : Type*} [LinearOrder α] (s : Stretches α)

/-- Where the stretch of an element begins. -/
def start (a : α) : α := s.first (s.index a)

/-- Where it ends, which is where the next one begins. -/
def stop (a : α) : α := s.first (s.index a + 1)

theorem first_lt_iff {i j : ℤ} : s.first i < s.first j ↔ i < j :=
  (strictMono_int_of_lt_succ s.first_lt).lt_iff_lt

theorem first_inj {i j : ℤ} : s.first i = s.first j ↔ i = j :=
  (strictMono_int_of_lt_succ s.first_lt).injective.eq_iff

theorem first_le_iff {i j : ℤ} : s.first i ≤ s.first j ↔ i ≤ j :=
  (strictMono_int_of_lt_succ s.first_lt).le_iff_le

/-- **An element stands in one stretch only.** -/
theorem index_eq_iff {a : α} {i : ℤ} : s.index a = i ↔ s.first i ≤ a ∧ a < s.first (i + 1) := by
  constructor
  · intro h
    rw [← h]
    exact ⟨s.first_le a, s.lt_first a⟩
  · intro ⟨hle, hlt⟩
    have habove := s.first_lt_iff.mp (lt_of_le_of_lt (s.first_le a) hlt)
    have hbelow := s.first_lt_iff.mp (lt_of_le_of_lt hle (s.lt_first a))
    omega

@[simp] theorem index_first (i : ℤ) : s.index (s.first i) = i :=
  s.index_eq_iff.mpr ⟨le_refl _, s.first_lt i⟩

theorem start_le (a : α) : s.start a ≤ a := s.first_le a

theorem lt_stop (a : α) : a < s.stop a := s.lt_first a

theorem start_start (a : α) : s.start (s.start a) = s.start a := by
  simp [start]

theorem start_stop (a : α) : s.start (s.stop a) = s.stop a := by
  simp [start, stop]

theorem index_mono {a b : α} (h : a ≤ b) : s.index a ≤ s.index b := by
  have hlt := s.first_lt_iff.mp (lt_of_le_of_lt (s.first_le a) (lt_of_le_of_lt h (s.lt_first b)))
  omega

theorem start_mono : Monotone s.start := by
  intro a b h
  exact s.first_le_iff.mpr (s.index_mono h)

theorem stop_le_iff {a b : α} : s.stop a ≤ b ↔ s.index a < s.index b := by
  constructor
  · intro h
    have hlt := s.first_lt_iff.mp (lt_of_le_of_lt h (s.lt_first b))
    omega
  · intro h
    exact (s.first_le_iff.mpr (show s.index a + 1 ≤ s.index b from h)).trans (s.first_le b)

/-- **Two elements share a stretch** exactly when neither is at or past the end of the other's. -/
theorem start_eq_iff {a b : α} : s.start a = s.start b ↔ ¬s.stop a ≤ b ∧ ¬s.stop b ≤ a := by
  rw [start, start, s.first_inj, stop_le_iff, stop_le_iff]
  omega

end Stretches

end IntelliPrism.Lib
