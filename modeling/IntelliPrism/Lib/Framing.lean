import Mathlib.Data.Nat.Notation
import Mathlib.Tactic.Common

/-!
# Framing: cutting a stream into pieces as it arrives

A stream is read in frames that say nothing about where its pieces end.  A `Splitter` finds the end of
the first piece of a buffer, and while more may come it names an end only when nothing that comes can
move it.  What has not ended yet is carried over and read again with the next frame.

* `Splitter.split` — every piece of a buffer that has ended, and what is left over;
* `Splitter.split_append` — **what is carried over loses nothing**: the pieces of a buffer that grows are
  those it had, followed by those of what was left over together with what came;
* `Splitter.flatten_split` — the pieces and what is left over are the buffer;
* `handEach`, `Splitter.drain` — pieces handed on one after the other until one stops it, and the loop that
  cuts and hands them on;
* `Splitter.drain_eq` — **the loop hands on the pieces of the split**.
-/

namespace IntelliPrism.Lib

/-- Says where the first piece of a buffer ends, given whether anything can still come. -/
structure Splitter (α : Type*) where
  cut : List α → Bool → Option ℕ
  pos : ∀ {buffer : List α} {atEnd : Bool} {n : ℕ}, cut buffer atEnd = some n → 0 < n
  le_length : ∀ {buffer : List α} {atEnd : Bool} {n : ℕ},
    cut buffer atEnd = some n → n ≤ buffer.length
  /-- An end that is named while more may come stays where it is, whatever comes. -/
  settled : ∀ {buffer : List α} {n : ℕ}, cut buffer false = some n →
    ∀ (more : List α) (atEnd : Bool), cut (buffer ++ more) atEnd = some n

/-- Hands pieces on one after the other, until one of them stops it. -/
def handEach {β τ : Type*} (hand : β → τ → Bool × τ) : List β → τ → Bool × τ
  | [], t => (true, t)
  | piece :: rest, t =>
    let answer := hand piece t
    if answer.1 then handEach hand rest answer.2 else (false, answer.2)

theorem handEach_append {β τ : Type*} (hand : β → τ → Bool × τ) (first second : List β) (t : τ) :
    handEach hand (first ++ second) t
      = if (handEach hand first t).1 then handEach hand second (handEach hand first t).2
        else (false, (handEach hand first t).2) := by
  induction first generalizing t with
  | nil => rfl
  | cons piece first ih =>
    simp only [List.cons_append, handEach]
    by_cases hgoes : (hand piece t).1 = true
    · simp only [if_pos hgoes]
      exact ih _
    · simp [if_neg hgoes]

namespace Splitter

variable {α : Type*} (s : Splitter α)

theorem length_drop_lt {buffer : List α} {atEnd : Bool} {n : ℕ} (h : s.cut buffer atEnd = some n) :
    (buffer.drop n).length < buffer.length := by
  have hpos := s.pos h
  have hle := s.le_length h
  rw [List.length_drop]
  omega

/-- Every piece of a buffer that has ended, and what is left over. -/
def split (atEnd : Bool) (buffer : List α) : List (List α) × List α :=
  match h : s.cut buffer atEnd with
  | none => ([], buffer)
  | some n =>
    have := s.length_drop_lt h
    (buffer.take n :: (split atEnd (buffer.drop n)).1, (split atEnd (buffer.drop n)).2)
termination_by buffer.length
decreasing_by all_goals exact this

theorem split_of_none {atEnd : Bool} {buffer : List α} (h : s.cut buffer atEnd = none) :
    s.split atEnd buffer = ([], buffer) := by
  rw [split]
  split
  · rfl
  · rename_i n hn
    rw [h] at hn
    cases hn

theorem split_of_some {atEnd : Bool} {buffer : List α} {n : ℕ} (h : s.cut buffer atEnd = some n) :
    s.split atEnd buffer
      = (buffer.take n :: (s.split atEnd (buffer.drop n)).1, (s.split atEnd (buffer.drop n)).2) := by
  rw [split]
  split
  · rename_i hn
    rw [h] at hn
    cases hn
  · rename_i m hm
    rw [h] at hm
    cases hm
    rfl

/-- An empty buffer holds no piece. -/
theorem split_nil (atEnd : Bool) : s.split atEnd [] = ([], []) := by
  apply split_of_none
  cases h : s.cut [] atEnd with
  | none => rfl
  | some n =>
    have hpos := s.pos h
    have hle := s.le_length h
    rw [List.length_nil] at hle
    omega

/-- Induction over the pieces of a buffer: it holds none, or it holds of what follows the first. -/
theorem split_induction {P : List α → Prop} (atEnd : Bool)
    (hnone : ∀ buffer, s.cut buffer atEnd = none → P buffer)
    (hsome : ∀ buffer n, s.cut buffer atEnd = some n → P (buffer.drop n) → P buffer)
    (buffer : List α) : P buffer := by
  cases h : s.cut buffer atEnd with
  | none => exact hnone buffer h
  | some n => exact hsome buffer n h (split_induction atEnd hnone hsome (buffer.drop n))
termination_by buffer.length
decreasing_by exact s.length_drop_lt h

/-- **What is carried over loses nothing.** -/
theorem split_append (buffer more : List α) (atEnd : Bool) :
    s.split atEnd (buffer ++ more)
      = ((s.split false buffer).1 ++ (s.split atEnd ((s.split false buffer).2 ++ more)).1,
        (s.split atEnd ((s.split false buffer).2 ++ more)).2) := by
  induction buffer using s.split_induction false with
  | hnone buffer h => rw [s.split_of_none h, List.nil_append]
  | hsome buffer n h ih =>
    have hle : n ≤ buffer.length := s.le_length h
    rw [s.split_of_some (s.settled h more atEnd), s.split_of_some h, List.take_append_of_le_length hle,
      List.drop_append_of_le_length hle, ih, List.cons_append]

/-- What is left over holds no piece yet. -/
theorem split_rest (buffer : List α) (atEnd : Bool) :
    s.split atEnd (s.split atEnd buffer).2 = ([], (s.split atEnd buffer).2) := by
  induction buffer using s.split_induction atEnd with
  | hnone buffer h => rw [s.split_of_none h, s.split_of_none h]
  | hsome buffer n h ih => rw [s.split_of_some h, ih]

/-- The pieces and what is left over are the buffer. -/
theorem flatten_split (buffer : List α) (atEnd : Bool) :
    (s.split atEnd buffer).1.flatten ++ (s.split atEnd buffer).2 = buffer := by
  induction buffer using s.split_induction atEnd with
  | hnone buffer h => rw [s.split_of_none h, List.flatten_nil, List.nil_append]
  | hsome buffer n h ih =>
    rw [s.split_of_some h, List.flatten_cons, List.append_assoc, ih, List.take_append_drop]

/-- Cuts the pieces that have ended off a buffer and hands each on, until one of them stops it.  What is left
of the buffer comes back with the answer. -/
def drain {τ : Type*} (hand : List α → τ → Bool × τ) (atEnd : Bool) (buffer : List α) (t : τ) :
    Bool × List α × τ :=
  match h : s.cut buffer atEnd with
  | none => (true, buffer, t)
  | some n =>
    have := s.length_drop_lt h
    let answer := hand (buffer.take n) t
    if answer.1 then drain hand atEnd (buffer.drop n) answer.2 else (false, buffer.drop n, answer.2)
termination_by buffer.length
decreasing_by exact this

theorem drain_of_none {τ : Type*} (hand : List α → τ → Bool × τ) {atEnd : Bool} {buffer : List α}
    (h : s.cut buffer atEnd = none) (t : τ) : s.drain hand atEnd buffer t = (true, buffer, t) := by
  rw [drain]
  split
  · rfl
  · rename_i n hn
    rw [h] at hn
    cases hn

theorem drain_of_some {τ : Type*} (hand : List α → τ → Bool × τ) {atEnd : Bool} {buffer : List α} {n : ℕ}
    (h : s.cut buffer atEnd = some n) (t : τ) :
    s.drain hand atEnd buffer t
      = if (hand (buffer.take n) t).1 then
          s.drain hand atEnd (buffer.drop n) (hand (buffer.take n) t).2
        else (false, buffer.drop n, (hand (buffer.take n) t).2) := by
  rw [drain]
  split
  · rename_i hn
    rw [h] at hn
    cases hn
  · rename_i m hm
    rw [h] at hm
    cases hm
    rfl

/-- **The loop hands on the pieces of the split**, and when nothing stops it keeps what is left over. -/
theorem drain_eq {τ : Type*} (hand : List α → τ → Bool × τ) (atEnd : Bool) (buffer : List α) (t : τ) :
    (s.drain hand atEnd buffer t).1 = (handEach hand (s.split atEnd buffer).1 t).1 ∧
      (s.drain hand atEnd buffer t).2.2 = (handEach hand (s.split atEnd buffer).1 t).2 ∧
      ((s.drain hand atEnd buffer t).1 = true →
        (s.drain hand atEnd buffer t).2.1 = (s.split atEnd buffer).2) := by
  induction buffer using s.split_induction atEnd generalizing t with
  | hnone buffer h =>
    rw [s.split_of_none h, s.drain_of_none hand h]
    exact ⟨rfl, rfl, fun _ => rfl⟩
  | hsome buffer n h ih =>
    rw [s.split_of_some h, s.drain_of_some hand h]
    simp only [handEach]
    by_cases hgoes : (hand (buffer.take n) t).1 = true
    · simp only [if_pos hgoes]
      exact ih _
    · simp [if_neg hgoes]

end Splitter

end IntelliPrism.Lib
