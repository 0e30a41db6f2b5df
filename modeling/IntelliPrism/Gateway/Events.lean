import IntelliPrism.Gateway.Sse

/-!
# Line endings, and the blank line that ends an event

Where the line endings of a buffer are is said of its bytes alone, whatever scans them: a carriage return
with a line feed behind it is one ending of two bytes, and each of them on its own is one of one byte.

* `LineEnding`, `BlankLine`, `FirstBlankLine` — the line endings of a buffer, two of them in a row, and the
  first two;
* `exists_lineEnding`, `lineEnding_eq_of_overlap` — every carriage return and every line feed is of one line
  ending, and of no other;
* `lineEnding_of_endingAt`, `endingAt_of_lineEnding` — at the start of a line ending the scanner sees it,
  and nowhere else, as long as it does not stand between the two bytes of one;
* `eventEnd_first_blank_line` — **an event ends at the first blank line and nowhere else**, and an end named
  before the stream is over stays where it is.
-/

namespace IntelliPrism.Gateway

open IntelliPrism.Lib

/-! ### Line endings -/

/-- A line ending of so many bytes starts at a position: the pair, a carriage return that starts no pair, or
a line feed that ends none. -/
inductive LineEnding (buffer : Bytes) : ℕ → ℕ → Prop where
  | pair {i : ℕ} : buffer[i]? = some cr → buffer[i + 1]? = some lf → LineEnding buffer i 2
  | loneCr {i : ℕ} : buffer[i]? = some cr → buffer[i + 1]? ≠ some lf → LineEnding buffer i 1
  | loneLf {i : ℕ} : buffer[i]? = some lf → (∀ j, i = j + 1 → buffer[j]? ≠ some cr) → LineEnding buffer i 1

/-- Two line endings follow each other directly, and take up so many bytes together. -/
def BlankLine (buffer : Bytes) (i length : ℕ) : Prop :=
  ∃ first second, LineEnding buffer i first ∧ LineEnding buffer (i + first) second ∧ length = first + second

/-- From a position on, the first blank line ends at another. -/
def FirstBlankLine (buffer : Bytes) (start stop : ℕ) : Prop :=
  ∃ i length, start ≤ i ∧ BlankLine buffer i length ∧ stop = i + length ∧
    ∀ j, start ≤ j → j < i → ∀ other, ¬ BlankLine buffer j other

/-- A position that cuts no line ending in two. -/
def Uncut (buffer : Bytes) (i : ℕ) : Prop :=
  ∀ j, i = j + 1 → buffer[j]? = some cr → buffer[i]? ≠ some lf

theorem lf_ne_cr : lf ≠ cr := by decide

variable {buffer : Bytes} {i n : ℕ}

theorem LineEnding.starts (h : LineEnding buffer i n) : buffer[i]? = some cr ∨ buffer[i]? = some lf := by
  cases h with
  | pair hcr hlf => exact .inl hcr
  | loneCr hcr hlf => exact .inl hcr
  | loneLf hlf hcr => exact .inr hlf

theorem LineEnding.uncut (h : LineEnding buffer i n) : Uncut buffer i := by
  intro j hj hcr hlf
  cases h with
  | pair hcr' hlf' => exact lf_ne_cr (Option.some.inj (hlf.symm.trans hcr'))
  | loneCr hcr' hlf' => exact lf_ne_cr (Option.some.inj (hlf.symm.trans hcr'))
  | loneLf hlf' hcr' => exact hcr' j hj hcr

theorem LineEnding.uncut_stop (h : LineEnding buffer i n) : Uncut buffer (i + n) := by
  intro j hj hcr hlf
  cases h with
  | pair hcr' hlf' =>
    obtain rfl : i + 1 = j := by omega
    exact lf_ne_cr (Option.some.inj (hlf'.symm.trans hcr))
  | loneCr hcr' hlf' => exact hlf' hlf
  | loneLf hlf' hcr' =>
    obtain rfl : i = j := by omega
    exact lf_ne_cr (Option.some.inj (hlf'.symm.trans hcr))

theorem not_lineEnding_inside (h : LineEnding buffer i n) {j m : ℕ} (hi : i < j) (hj : j < i + n) :
    ¬ LineEnding buffer j m := by
  intro hinside
  cases h with
  | pair hcr hlf =>
    obtain rfl : j = i + 1 := by omega
    exact hinside.uncut i rfl hcr hlf
  | loneCr hcr hlf => omega
  | loneLf hlf hcr => omega

theorem lineEnding_unique {m : ℕ} (h : LineEnding buffer i n) (h' : LineEnding buffer i m) : n = m := by
  cases h with
  | pair hcr hlf =>
    cases h' with
    | pair => rfl
    | loneCr _ hlf' => exact absurd hlf hlf'
    | loneLf hlf' _ => exact absurd (Option.some.inj (hlf'.symm.trans hcr)) lf_ne_cr
  | loneCr hcr hlf =>
    cases h' with
    | pair _ hlf' => exact absurd hlf' hlf
    | loneCr => rfl
    | loneLf => rfl
  | loneLf hlf hcr =>
    cases h' with
    | pair hcr' _ => exact absurd (Option.some.inj (hlf.symm.trans hcr')) lf_ne_cr
    | loneCr => rfl
    | loneLf => rfl

/-- **Every carriage return and every line feed is of a line ending.** -/
theorem exists_lineEnding (h : buffer[i]? = some cr ∨ buffer[i]? = some lf) :
    ∃ start n, LineEnding buffer start n ∧ start ≤ i ∧ i < start + n := by
  rcases h with hcr | hlf
  · by_cases hnext : buffer[i + 1]? = some lf
    · exact ⟨i, 2, .pair hcr hnext, Nat.le_refl _, by omega⟩
    · exact ⟨i, 1, .loneCr hcr hnext, Nat.le_refl _, by omega⟩
  · by_cases hbefore : ∀ j, i = j + 1 → buffer[j]? ≠ some cr
    · exact ⟨i, 1, .loneLf hlf hbefore, Nat.le_refl _, by omega⟩
    · push Not at hbefore
      obtain ⟨j, rfl, hcr⟩ := hbefore
      exact ⟨j, 2, .pair hcr hlf, by omega, by omega⟩

/-- **Line endings that overlap are the same one.** -/
theorem lineEnding_eq_of_overlap {j m k : ℕ} (h : LineEnding buffer i n) (h' : LineEnding buffer j m)
    (hk : i ≤ k ∧ k < i + n) (hk' : j ≤ k ∧ k < j + m) : i = j ∧ n = m := by
  rcases Nat.lt_trichotomy i j with hlt | rfl | hlt
  · exact absurd h' (not_lineEnding_inside h hlt (by omega))
  · exact ⟨rfl, lineEnding_unique h h'⟩
  · exact absurd h (not_lineEnding_inside h' hlt (by omega))

/-! ### What the scanner sees -/

theorem endingAt_ended_ne_unknown (buffer : Bytes) (i : ℕ) : endingAt buffer i true ≠ .unknown := by
  unfold endingAt
  simp only [if_true]
  repeat' split
  all_goals exact Ending.noConfusion

theorem lineEnding_of_endingAt (huncut : Uncut buffer i) (h : endingAt buffer i true = .line n) :
    LineEnding buffer i n := by
  unfold endingAt at h
  split at h
  · simp at h
  · rename_i b hb
    split at h
    · rename_i hlf
      cases h
      subst hlf
      exact .loneLf hb fun j hj hcr => huncut j hj hcr hb
    · split at h
      · rename_i hcr
        subst hcr
        split at h
        · rename_i hnone
          cases h
          exact .loneCr hb (by simp [hnone])
        · rename_i next hnext
          split at h
          · rename_i hlf
            cases h
            exact .pair hb (hlf ▸ hnext)
          · rename_i hlf
            cases h
            refine .loneCr hb ?_
            rw [hnext]
            exact fun heq => hlf (Option.some.inj heq)
      · cases h

theorem endingAt_of_lineEnding (h : LineEnding buffer i n) : endingAt buffer i true = .line n := by
  cases h with
  | pair hcr hlf => simp [endingAt, hcr, hlf, lf_ne_cr.symm]
  | loneCr hcr hlf =>
    unfold endingAt
    rw [hcr]
    simp only [lf_ne_cr.symm, if_false, if_true]
    cases hnext : buffer[i + 1]? with
    | none => rfl
    | some next =>
      have hne : next ≠ lf := fun heq => hlf (by rw [hnext, heq])
      simp [hne]
  | loneLf hlf hcr => simp [endingAt, hlf]

theorem not_lineEnding_of_not (h : endingAt buffer i true = .not) : ¬ LineEnding buffer i n := by
  intro hline
  rw [endingAt_of_lineEnding hline] at h
  cases h

theorem uncut_succ_of_not (h : endingAt buffer i true = .not) : Uncut buffer (i + 1) := by
  intro j hj hcr hlf
  obtain rfl : i = j := by omega
  exact not_lineEnding_of_not h (.pair hcr hlf)

/-! ### The first blank line -/

theorem not_blankLine (h : ∀ n, ¬ LineEnding buffer i n) (length : ℕ) : ¬ BlankLine buffer i length := by
  rintro ⟨first, second, hfirst, -, -⟩
  exact h first hfirst

/-- No blank line starts at a line ending that no other follows, nor inside it. -/
theorem not_blankLine_of_last (hfirst : LineEnding buffer i n) (hnext : ∀ m, ¬ LineEnding buffer (i + n) m)
    {j : ℕ} (hi : i ≤ j) (hj : j < i + n) (length : ℕ) : ¬ BlankLine buffer j length := by
  rcases Nat.eq_or_lt_of_le hi with rfl | hlt
  · rintro ⟨first, second, hfirst', hsecond, -⟩
    rw [← lineEnding_unique hfirst hfirst'] at hsecond
    exact hnext second hsecond
  · exact not_blankLine (fun m => not_lineEnding_inside hfirst hlt hj) length

/-- What the loop skips held no blank line, so the first one from where it goes on is the first one. -/
theorem FirstBlankLine.skip {start next stop : ℕ} (hle : start ≤ next)
    (hskip : ∀ j, start ≤ j → j < next → ∀ length, ¬ BlankLine buffer j length)
    (h : FirstBlankLine buffer next stop) : FirstBlankLine buffer start stop := by
  obtain ⟨i, length, hi, hblank, hstop, hfirst⟩ := h
  refine ⟨i, length, Nat.le_trans hle hi, hblank, hstop, ?_⟩
  intro j hj hji
  by_cases hnext : j < next
  · exact hskip j hj hnext
  · exact hfirst j (Nat.not_lt.mp hnext) hji

/-- **The loop finds the first blank line**, or there is none. -/
theorem eventEndFrom_ended (huncut : Uncut buffer i) :
    (∀ stop, eventEndFrom buffer true i = some stop → FirstBlankLine buffer i stop) ∧
      (eventEndFrom buffer true i = none → ∀ j, i ≤ j → ∀ length, ¬ BlankLine buffer j length) := by
  -- the loop never stands inside a line ending, and skips no place where two start
  fun_induction eventEndFrom buffer true i with
  | case1 i hi first hfirst second hsecond =>
    have hline := lineEnding_of_endingAt huncut hfirst
    have hnext := lineEnding_of_endingAt hline.uncut_stop hsecond
    refine ⟨?_, fun h => (by cases h)⟩
    intro stop hstop
    cases hstop
    exact ⟨i, first + second, Nat.le_refl _, ⟨first, second, hline, hnext, rfl⟩, by omega,
      fun j hj hji => by omega⟩
  | case2 i hi first hfirst hunknown => exact absurd hunknown (endingAt_ended_ne_unknown _ _)
  | case3 i hi first hfirst hnot hpos ih =>
    have hline := lineEnding_of_endingAt huncut hfirst
    have hlast : ∀ m, ¬ LineEnding buffer (i + first) m := fun m =>
      not_lineEnding_of_not hnot
    obtain ⟨hsome, hnone⟩ := ih hline.uncut_stop
    refine ⟨fun stop h => (hsome stop h).skip (by omega) fun j hj hji =>
      not_blankLine_of_last hline hlast hj hji, ?_⟩
    intro h j hj
    by_cases hji : j < i + first
    · exact not_blankLine_of_last hline hlast hj hji
    · exact hnone h j (Nat.not_lt.mp hji)
  | case4 i hi hunknown => exact absurd hunknown (endingAt_ended_ne_unknown _ _)
  | case5 i hi hnot ih =>
    have hlast : ∀ m, ¬ LineEnding buffer i m := fun m => not_lineEnding_of_not hnot
    obtain ⟨hsome, hnone⟩ := ih (uncut_succ_of_not hnot)
    refine ⟨fun stop h => (hsome stop h).skip (by omega) fun j hj hji => ?_, ?_⟩
    · obtain rfl : j = i := by omega
      exact not_blankLine hlast
    · intro h j hj
      rcases Nat.eq_or_lt_of_le hj with rfl | hlt
      · exact not_blankLine hlast
      · exact hnone h j hlt
  | case6 i hi =>
    refine ⟨fun stop h => (by cases h), ?_⟩
    intro _ j hj
    apply not_blankLine
    intro m hline
    have hout : buffer[j]? = none := List.getElem?_eq_none (by omega)
    rcases hline.starts with hcr | hlf
    · rw [hout] at hcr
      cases hcr
    · rw [hout] at hlf
      cases hlf

theorem FirstBlankLine.unique {start stop stop' : ℕ} (h : FirstBlankLine buffer start stop)
    (h' : FirstBlankLine buffer start stop') : stop = stop' := by
  obtain ⟨i, length, hi, hblank, rfl, hfirst⟩ := h
  obtain ⟨j, length', hj, hblank', rfl, hfirst'⟩ := h'
  rcases Nat.lt_trichotomy i j with hlt | rfl | hlt
  · exact absurd hblank (hfirst' i hi hlt length)
  · obtain ⟨first, second, hline, hnext, rfl⟩ := hblank
    obtain ⟨first', second', hline', hnext', rfl⟩ := hblank'
    obtain rfl := lineEnding_unique hline hline'
    rw [lineEnding_unique hnext hnext']
  · exact absurd hblank' (hfirst j hj hlt length')

/-- **An event ends at the first blank line and nowhere else.**  Of a complete buffer the scanner names the
end of the first two line endings that follow each other directly, and nothing when no two do; and what it
names of a buffer that still grows it names of every continuation, ended or not. -/
theorem eventEnd_first_blank_line (buffer : Bytes) :
    (∀ stop, eventEnd buffer true = some stop ↔ FirstBlankLine buffer 0 stop) ∧
      (eventEnd buffer true = none ↔ ∀ i length, ¬ BlankLine buffer i length) ∧
      ∀ stop, eventEnd buffer false = some stop →
        ∀ more atEnd, eventEnd (buffer ++ more) atEnd = some stop := by
  have hstart : Uncut buffer 0 := fun j hj => by omega
  obtain ⟨hsome, hnone⟩ := eventEndFrom_ended hstart
  refine ⟨fun stop => ⟨hsome stop, ?_⟩, ⟨?_, ?_⟩, ?_⟩
  · intro hfirst
    cases hend : eventEnd buffer true with
    | none =>
      obtain ⟨i, length, -, hblank, -, -⟩ := hfirst
      exact absurd hblank (hnone hend i (Nat.zero_le _) length)
    | some stop' => rw [(hsome stop' hend).unique hfirst]
  · intro hend i
    exact hnone hend i (Nat.zero_le _)
  · intro hblank
    cases hend : eventEnd buffer true with
    | none => rfl
    | some stop =>
      obtain ⟨i, length, -, hblank', -, -⟩ := hsome stop hend
      exact absurd hblank' (hblank i length)
  · intro stop hend more atEnd
    exact eventEndFrom_append hend more atEnd

/-- An event that CRLF ends twice is over with the second, whatever comes after it. -/
theorem eventEnd_of_two_crlf :
    eventEnd [100, cr, lf, cr, lf] false = some 5 ∧ eventEnd ([100, cr, lf, cr, lf] ++ [cr]) true = some 5 := by
  have hend : eventEnd [100, cr, lf, cr, lf] false = some 5 := by
    rw [eventEnd, eventEndFrom_eq _ _ (by decide)]
    show eventEndFrom [100, cr, lf, cr, lf] false 1 = some 5
    rw [eventEndFrom_eq _ _ (by decide)]
    rfl
  exact ⟨hend, (eventEnd_first_blank_line _).2.2 5 hend [cr] true⟩

end IntelliPrism.Gateway
