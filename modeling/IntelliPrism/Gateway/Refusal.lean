import IntelliPrism.Gateway.Events
import IntelliPrism.Lib.Lines

/-!
# The event that carries a refusal

A plugin's refusal reaches a streaming caller as an event of its own, with the reason spread over data
lines.  The reason is whatever text the plugin gave; no text of it ends the event early, adds a line that is
not data, or begins another event.

* `replaceCrlf`, `reasonLines_eq` — the source's replace and split, and what the model's one pass computes;
* `eventEndFrom_terminated` — the scanner takes lines that are not empty and a blank one behind them for one
  event;
* `fieldName`, `fieldValue`, `readData` — what a reader of server sent events makes of an event;
* `errorEvent_reads_back` — **a refusal is one event, and its data is the reason** with every line ending
  turned into LF.
-/

namespace IntelliPrism.Gateway

open IntelliPrism.Lib IntelliPrism.Cache

/-! ### The lines of a reason -/

/-- `replace("\r\n", "\n")`. -/
def replaceCrlf : List Char → List Char
  | '\r' :: '\n' :: rest => '\n' :: replaceCrlf rest
  | c :: rest => c :: replaceCrlf rest
  | [] => []

/-- **What the source computes**: the pairs replaced, and then a split at either of the two. -/
theorem reasonLines_eq (reason : List Char) :
    reasonLines reason = (replaceCrlf reason).splitOnP (fun c => c == '\n' || c == '\r') := by
  fun_induction reasonLines reason with
  | case1 => rfl
  | case2 rest ih => rw [replaceCrlf, List.splitOnP_cons_eq_if_modifyHead, if_pos (by decide), ih]
  | case3 rest ih =>
    rw [replaceCrlf.eq_2 _ _ (by simp), List.splitOnP_cons_eq_if_modifyHead, if_pos (by decide), ih]
  | case4 rest hlone ih =>
    rw [replaceCrlf.eq_2 _ _ fun after _ => hlone after, List.splitOnP_cons_eq_if_modifyHead,
      if_pos (by decide), ih]
  | case5 c rest hpair hlf hcr hnil ih =>
    rw [ih] at hnil
    exact absurd hnil (List.splitOnP_ne_nil _ _)
  | case6 c rest hpair hlf hcr line lines hlines ih =>
    have hplain : ¬(c == '\n' || c == '\r') = true := by
      simp only [Bool.or_eq_true, beq_iff_eq]
      exact fun h => h.elim hlf hcr
    rw [replaceCrlf.eq_2 _ _ hpair, List.splitOnP_cons_eq_if_modifyHead, if_neg hplain, ← ih, hlines]
    rfl

/-- They are the lines of the reason with every line ending turned into LF. -/
theorem reasonLines_eq_splitOn (reason : List Char) :
    reasonLines reason = (toLineFeeds '\r' '\n' reason).splitOn '\n' := by
  fun_induction reasonLines reason with
  | case1 => rfl
  | case2 rest ih => rw [toLineFeeds_pair, List.splitOn_cons_eq_if_modifyHead, if_pos (by decide), ih]
  | case3 rest ih =>
    rw [toLineFeeds_cons _ (by decide), List.splitOn_cons_eq_if_modifyHead, if_pos (by decide), ih]
  | case4 rest hlone ih =>
    have hnext : rest.head? ≠ some '\n' := by
      intro hhead
      obtain ⟨after, hafter⟩ := List.head?_eq_some_iff.mp hhead
      exact hlone after hafter
    rw [toLineFeeds_lone _ hnext, List.splitOn_cons_eq_if_modifyHead, if_pos (by decide), ih]
  | case5 c rest hpair hlf hcr hnil ih =>
    rw [ih] at hnil
    exact absurd hnil (List.splitOn_ne_nil _ _)
  | case6 c rest hpair hlf hcr line lines hlines ih =>
    rw [toLineFeeds_cons _ hcr, List.splitOn_cons_eq_if_modifyHead,
      if_neg (fun h => hlf (beq_iff_eq.mp h)), ← ih, hlines]
    rfl

theorem reasonLines_plain {reason line : List Char} (h : line ∈ reasonLines reason) :
    '\n' ∉ line ∧ '\r' ∉ line := by
  rw [reasonLines_eq_splitOn] at h
  refine ⟨fun hlf => (mem_of_mem_splitOn h hlf).2 rfl, ?_⟩
  intro hcr
  exact notMem_toLineFeeds (by decide) reason (mem_of_mem_splitOn h hcr).1

/-! ### The event -/

def Plain (line : Bytes) : Prop := ∀ b ∈ line, b ≠ lf ∧ b ≠ cr

theorem Plain.append {a b : Bytes} (ha : Plain a) (hb : Plain b) : Plain (a ++ b) := by
  intro byte hbyte
  rcases List.mem_append.mp hbyte with hmem | hmem
  · exact ha byte hmem
  · exact hb byte hmem

theorem plain_bytesOf {line : List Char} (h : '\n' ∉ line ∧ '\r' ∉ line) :
    Plain (bytesOf (String.ofList line)) := by
  intro b hb
  have hchar : ∀ c : Char, c ∉ line → c.toNat < 128 → b.toNat ≠ c.toNat := by
    intro c hc hascii heq
    rcases mem_bytes_ofList hb with hbig | ⟨d, hd, hsame⟩
    · omega
    · exact hc (Char.toNat_inj.mp (hsame.trans heq) ▸ hd)
  refine ⟨?_, ?_⟩
  · intro heq
    exact hchar '\n' h.1 (by decide) (congrArg UInt8.toNat heq)
  · intro heq
    exact hchar '\r' h.2 (by decide) (congrArg UInt8.toNat heq)

/-- The data line of a line of the reason. -/
def dataLine (line : List Char) : Bytes := bytesOf "data: " ++ bytesOf (String.ofList line)

/-- **The event, line by line.** -/
theorem errorEvent_eq (reason : String) :
    errorEvent reason
      = terminated lf (bytesOf "event: error" :: (reasonLines reason.toList).map dataLine) ++ [lf] := by
  have hjoin : ∀ lines : List (List Char),
      bytesOf (String.join (lines.map fun line => "data: " ++ String.ofList line ++ "\n"))
        = terminated lf (lines.map dataLine) := by
    intro lines
    induction lines with
    | nil => rfl
    | cons line lines ih =>
      rw [List.map_cons, String.join_cons, bytesOf_append, ih, List.map_cons, terminated_cons,
        bytesOf_append, bytesOf_append, dataLine]
      have hlf : bytesOf "\n" = [lf] := by decide
      simp [hlf]
  have hfirst : bytesOf "event: error\n" = bytesOf "event: error" ++ [lf] := by decide
  have hlf : bytesOf "\n" = [lf] := by decide
  rw [errorEvent, bytesOf_append, bytesOf_append, hjoin, hfirst, hlf, terminated_cons]
  simp

/-! ### What the scanner makes of it -/

theorem endingAt_of_plain {buffer : Bytes} {i : ℕ} {b : UInt8} (hget : buffer[i]? = some b)
    (hb : b ≠ lf ∧ b ≠ cr) (atEnd : Bool) : endingAt buffer i atEnd = .not := by
  simp [endingAt, hget, hb.1, hb.2]

theorem endingAt_of_lf {buffer : Bytes} {i : ℕ} (hget : buffer[i]? = some lf) (atEnd : Bool) :
    endingAt buffer i atEnd = .line 1 := by
  simp [endingAt, hget]

theorem eventEndFrom_plain {line : Bytes} (h : Plain line) (before rest : Bytes) (atEnd : Bool) :
    eventEndFrom (before ++ (line ++ rest)) atEnd before.length
      = eventEndFrom (before ++ (line ++ rest)) atEnd (before.length + line.length) := by
  induction line generalizing before with
  | nil => rfl
  | cons b line ih =>
    have hget : (before ++ (b :: line ++ rest))[before.length]? = some b := by simp
    have hin : before.length < (before ++ (b :: line ++ rest)).length := by simp
    have hnot := endingAt_of_plain hget (h b (List.mem_cons_self ..)) atEnd
    have hshift : before ++ (b :: line ++ rest) = (before ++ [b]) ++ (line ++ rest) := by simp
    have hlength : (before ++ [b]).length = before.length + 1 := by simp
    have hrest := ih (fun c hc => h c (List.mem_cons_of_mem _ hc)) (before ++ [b])
    rw [eventEndFrom_eq _ _ hin, hnot]
    simp only
    rw [hlength, ← hshift] at hrest
    rw [hrest, List.length_cons, Nat.add_assoc, Nat.add_comm 1]

/-- **Lines that are not empty, and a blank one behind them, are one event.** -/
theorem eventEndFrom_terminated {lines : List Bytes} (hsome : lines ≠ [])
    (h : ∀ line ∈ lines, line ≠ [] ∧ Plain line) (before : Bytes) (atEnd : Bool) :
    eventEndFrom (before ++ (terminated lf lines ++ [lf])) atEnd before.length
      = some (before ++ (terminated lf lines ++ [lf])).length := by
  induction lines generalizing before with
  | nil => exact absurd rfl hsome
  | cons line lines ih =>
    have hline := h line (List.mem_cons_self ..)
    have hbuffer : before ++ (terminated lf (line :: lines) ++ [lf])
        = before ++ (line ++ lf :: (terminated lf lines ++ [lf])) := by simp [terminated_cons]
    generalize hrest : terminated lf lines ++ [lf] = rest at hbuffer
    have hget : (before ++ (line ++ lf :: rest))[before.length + line.length]? = some lf := by
      rw [← List.append_assoc, ← List.length_append, List.getElem?_append_right (Nat.le_refl _)]
      simp
    have hin : before.length + line.length < (before ++ (line ++ lf :: rest)).length := by simp
    have hshift : before ++ (line ++ lf :: rest) = (before ++ line ++ [lf]) ++ rest := by simp
    have hlength : (before ++ line ++ [lf]).length = before.length + line.length + 1 := by
      simp only [List.length_append, List.length_singleton]
    have hnext : (before ++ (line ++ lf :: rest))[before.length + line.length + 1]? = rest.head? := by
      rw [hshift, ← hlength, List.getElem?_append_right (Nat.le_refl _), Nat.sub_self,
        List.head?_eq_getElem?]
    rw [hbuffer, eventEndFrom_plain hline.2, eventEndFrom_eq _ _ hin, endingAt_of_lf hget]
    simp only
    cases lines with
    | nil =>
      rw [terminated_nil, List.nil_append] at hrest
      rw [← hrest] at hnext ⊢
      rw [endingAt_of_lf hnext]
      simp only [List.length_append, List.length_cons, List.length_nil, Nat.add_assoc]
    | cons next lines =>
      -- the next line is not empty, so this one is not followed by a blank line
      obtain ⟨hne, hplain⟩ := h next (by simp)
      obtain ⟨b, tail, htail⟩ := List.exists_cons_of_ne_nil hne
      have hhead : rest.head? = some b := by
        rw [← hrest, terminated_cons, htail]
        rfl
      have hb : b ≠ lf ∧ b ≠ cr := hplain b (by simp [htail])
      rw [endingAt_of_plain (hnext.trans hhead) hb]
      simp only
      have hlater := ih (by simp) (fun other hother => h other (List.mem_cons_of_mem _ hother))
        (before ++ line ++ [lf])
      rw [hrest, hlength, ← hshift] at hlater
      exact hlater

/-! ### What a reader makes of it -/

/-- The name of a field: what stands before the first colon of a line. -/
def fieldName (line : Bytes) : Bytes := line.takeWhile (· != 58)

/-- Its value: what stands behind that colon, less one space. -/
def fieldValue (line : Bytes) : Bytes :=
  let behind := (line.dropWhile (· != 58)).drop 1
  if behind.head? = some 32 then behind.drop 1 else behind

/-- The lines of a stream, which LF, CR and CRLF end. -/
def readLines (bytes : Bytes) : List Bytes := (toLineFeeds cr lf bytes).splitOn lf

/-- The values of the fields of a name. -/
def readFields (name : String) (bytes : Bytes) : List Bytes :=
  ((readLines bytes).filter fun line => fieldName line == bytesOf name).map fieldValue

/-- What a reader hands on as the data of an event: its data lines, joined with LF. -/
def readData (bytes : Bytes) : Bytes := [lf].intercalate (readFields "data" bytes)

theorem fieldName_dataLine (line : List Char) : fieldName (dataLine line) = bytesOf "data" := by
  have hdata : bytesOf "data: " = bytesOf "data" ++ [58, 32] := by decide
  have hplain : ∀ b ∈ bytesOf "data", (b != 58) = true := by decide +kernel
  rw [dataLine, hdata, fieldName, List.append_assoc, List.takeWhile_append_of_pos hplain]
  simp

theorem fieldValue_dataLine (line : List Char) :
    fieldValue (dataLine line) = bytesOf (String.ofList line) := by
  have hdata : bytesOf "data: " = bytesOf "data" ++ [58, 32] := by decide
  have hplain : ∀ b ∈ bytesOf "data", (b != 58) = true := by decide +kernel
  rw [dataLine, hdata, fieldValue, List.append_assoc, List.dropWhile_append_of_pos hplain]
  simp

theorem bytesOf_intercalate (lines : List (List Char)) :
    bytesOf (String.ofList (['\n'].intercalate lines))
      = [lf].intercalate (lines.map fun line => bytesOf (String.ofList line)) := by
  induction lines with
  | nil => rfl
  | cons line lines ih =>
    cases lines with
    | nil => simp [List.intercalate]
    | cons next lines =>
      have hlf : bytesOf (String.ofList ['\n']) = [lf] := by decide
      have hcons : line ++ '\n' :: ['\n'].intercalate (next :: lines)
          = line ++ (['\n'] ++ ['\n'].intercalate (next :: lines)) := rfl
      rw [intercalate_cons_cons, hcons, String.ofList_append, bytesOf_append, String.ofList_append,
        bytesOf_append, ih, hlf]
      simp only [List.map_cons, intercalate_cons_cons]
      rfl

/-- The lines of the event are none of them empty, and end no line themselves. -/
theorem errorEvent_lines (reason : String) {line : Bytes}
    (h : line ∈ bytesOf "event: error" :: (reasonLines reason.toList).map dataLine) :
    line ≠ [] ∧ Plain line := by
  rcases List.mem_cons.mp h with hfirst | hdata
  · rw [hfirst]
    exact ⟨by decide, by unfold Plain; decide +kernel⟩
  · obtain ⟨text, htext, rfl⟩ := List.mem_map.mp hdata
    have hname : bytesOf "data: " ≠ [] ∧ Plain (bytesOf "data: ") :=
      ⟨by decide, by unfold Plain; decide +kernel⟩
    exact ⟨List.append_ne_nil_of_left_ne_nil hname.1 _,
      hname.2.append (plain_bytesOf (reasonLines_plain htext))⟩

theorem cr_notMem_errorEvent (reason : String) : cr ∉ errorEvent reason := by
  rw [errorEvent_eq, List.mem_append, not_or]
  refine ⟨?_, by decide⟩
  intro hmem
  rcases mem_terminated hmem with hlf | ⟨line, hline, hin⟩
  · exact absurd hlf lf_ne_cr.symm
  · exact ((errorEvent_lines reason hline).2 cr hin).2 rfl

/-- The fields a reader finds in it: those of its lines, as the blank lines behind them have none. -/
theorem readLines_errorEvent (reason : String) :
    readLines (errorEvent reason)
      = bytesOf "event: error" :: (reasonLines reason.toList).map dataLine ++ [[], []] := by
  have hlf : ∀ line ∈ bytesOf "event: error" :: (reasonLines reason.toList).map dataLine, lf ∉ line :=
    fun line hline hin => ((errorEvent_lines reason hline).2 lf hin).1 rfl
  have hblank : [lf].splitOn lf = [[], []] := by decide
  rw [readLines, toLineFeeds_of_notMem lf (cr_notMem_errorEvent reason), errorEvent_eq,
    splitOn_terminated hlf, hblank]

theorem readFields_event (reason : String) : readFields "event" (errorEvent reason) = [bytesOf "error"] := by
  have hnone : ((reasonLines reason.toList).map dataLine).filter
      (fun line => fieldName line == bytesOf "event") = [] := by
    refine List.filter_eq_nil_iff.mpr ?_
    intro line hline
    obtain ⟨text, -, rfl⟩ := List.mem_map.mp hline
    rw [fieldName_dataLine]
    decide
  have hfirst : (fieldName (bytesOf "event: error") == bytesOf "event") = true := by decide
  have hblank : List.filter (fun line => fieldName line == bytesOf "event") [[], []] = [] := by decide
  have hvalue : fieldValue (bytesOf "event: error") = bytesOf "error" := by decide
  rw [readFields, readLines_errorEvent, List.filter_append, List.filter_cons, if_pos hfirst, hnone,
    hblank]
  simp [hvalue]

theorem readFields_data (reason : String) :
    readFields "data" (errorEvent reason)
      = (reasonLines reason.toList).map fun line => bytesOf (String.ofList line) := by
  have hall : ((reasonLines reason.toList).map dataLine).filter
      (fun line => fieldName line == bytesOf "data") = (reasonLines reason.toList).map dataLine := by
    refine List.filter_eq_self.mpr ?_
    intro line hline
    obtain ⟨text, -, rfl⟩ := List.mem_map.mp hline
    exact beq_iff_eq.mpr (fieldName_dataLine text)
  have hfirst : ¬(fieldName (bytesOf "event: error") == bytesOf "data") = true := by decide
  have hblank : List.filter (fun line => fieldName line == bytesOf "data") [[], []] = [] := by decide
  rw [readFields, readLines_errorEvent, List.filter_append, List.filter_cons, if_neg hfirst, hall, hblank,
    List.append_nil, List.map_map]
  exact List.map_congr_left fun line _ => fieldValue_dataLine line

/-- **A refusal is one event, and its data is the reason.**  Whatever the reason, the event has no carriage
return in it; the scanner finds its end at its very end and no blank line before; its first line names the
event and every other is data; and a reader reads back the reason with every line ending turned into LF. -/
theorem errorEvent_reads_back (reason : String) :
    cr ∉ errorEvent reason ∧
    FirstBlankLine (errorEvent reason) 0 (errorEvent reason).length ∧
    (∀ atEnd, eventEnd (errorEvent reason) atEnd = some (errorEvent reason).length) ∧
    (∃ data, errorEvent reason = terminated lf (bytesOf "event: error" :: data) ++ [lf] ∧
      ∀ line ∈ data, fieldName line = bytesOf "data" ∧ lf ∉ line) ∧
    readFields "event" (errorEvent reason) = [bytesOf "error"] ∧
    readData (errorEvent reason)
      = bytesOf (String.ofList (toLineFeeds '\r' '\n' reason.toList)) := by
  have hend : ∀ atEnd, eventEnd (errorEvent reason) atEnd = some (errorEvent reason).length := by
    intro atEnd
    rw [errorEvent_eq]
    exact eventEndFrom_terminated (by simp) (fun line => errorEvent_lines reason) [] atEnd
  have hstart : Uncut (errorEvent reason) 0 := fun j hj => by omega
  refine ⟨cr_notMem_errorEvent reason, (eventEndFrom_ended hstart).1 _ (hend true), hend,
    ⟨(reasonLines reason.toList).map dataLine, errorEvent_eq reason, ?_⟩, readFields_event reason, ?_⟩
  · intro line hline
    have hplain := (errorEvent_lines reason (List.mem_cons_of_mem _ hline)).2
    refine ⟨?_, fun hlf => (hplain lf hlf).1 rfl⟩
    obtain ⟨text, -, rfl⟩ := List.mem_map.mp hline
    exact fieldName_dataLine text
  · rw [readData, readFields_data, ← bytesOf_intercalate, reasonLines_eq_splitOn, List.intercalate_splitOn]

end IntelliPrism.Gateway
