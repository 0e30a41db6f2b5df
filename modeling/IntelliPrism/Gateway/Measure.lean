import IntelliPrism.Core.Route
import IntelliPrism.Gateway.Limiter
import IntelliPrism.Gateway.Sse
import Mathlib.Data.List.Sublists

/-!
# What an answer says it cost

Every answer is read as it passes, frame by frame, for the model it names and the tokens it counts: a
frame that is a json text as a whole, or else the data of every event line in it.  The largest count seen is
kept, and one row is written when the last frame has passed or the body is dropped.

* `Measuring.read`, `Measuring.fold`, `Measuring.measured` — the source's functions;
* `Measuring.merge`, `read_eq_merge` — **a frame adds what it says alone**;
* `usageRows` — the rows a measured body writes, and `usageRows_received`: always one;
* `usageRows_lines` — an event stream cut at the ends of lines is measured as a whole;
* `measured_alike_iff` — **which answers are measured alike however they are cut**: those that say nothing.
-/

namespace IntelliPrism.Gateway

open IntelliPrism.Core IntelliPrism.Lib IntelliPrism.Cache

/-! ### Json -/

/-- A json number, by how it is held. -/
inductive Number where
  | posInt (n : UInt64)
  | negInt (n : ℤ)
  | float (text : String)

/-- A json value. -/
inductive Value where
  | null
  | bool (b : Bool)
  | number (n : Number)
  | string (s : String)
  | array (items : List Value)
  | object (fields : List (String × Value))

namespace Value

/-- What an object holds under a key. -/
def get (key : String) : Value → Option Value
  | .object fields => fields.lookup key
  | _ => none

/-- What an object holds under a key of an object it holds. -/
def pointer (outer inner : String) (value : Value) : Option Value := (value.get outer).bind (get inner)

def asStr : Value → Option String
  | .string s => some s
  | _ => none

def asU64 : Value → Option UInt64
  | .number (.posInt n) => some n
  | _ => none

def isNumber : Value → Bool
  | .number _ => true
  | _ => false

end Value

/-! ### Models and counts -/

def modelNameMaxBytes : ℕ := 128

/-- The name of a model as the upstream spells it.  The fields that are proofs are what is checked. -/
@[ext] structure ModelName where
  raw : String
  nonempty : raw ≠ ""
  short : raw.utf8ByteSize ≤ modelNameMaxBytes
  legal : raw.toList.find? (fun ch => !isAsciiGraphic ch) = none

instance : DecidableEq ModelName := fun _ _ => decidable_of_iff _ ModelName.ext_iff.symm

/-- Validates and wraps a raw model name. -/
def ModelName.new (raw : String) : Except CoreError ModelName :=
  if hempty : raw = "" then .error (.empty "model name")
  else if hlong : raw.utf8ByteSize > modelNameMaxBytes then
    .error (.tooLong "model name" raw.utf8ByteSize modelNameMaxBytes)
  else
    match hlegal : raw.toList.find? fun ch => !isAsciiGraphic ch with
    | some ch => .error (.illegalChar "model name" ch)
    | none => .ok ⟨raw, hempty, Nat.not_lt.mp hlong, hlegal⟩

/-- Where an answer says how many tokens it took in, by family. -/
def inputKeys : List String := ["input_tokens", "prompt_tokens", "promptTokenCount"]

/-- Where it says how many it answered with. -/
def outputKeys : List String := ["output_tokens", "completion_tokens", "candidatesTokenCount"]

/-- Where a body or an event holds its counts. -/
def usageOf (value : Value) : Option Value :=
  (value.get "usage").or ((value.pointer "message" "usage").or (value.get "usageMetadata"))

/-- The model an answer names, whichever key it names it under. -/
def modelOf (value : Value) : Option ModelName := do
  let named ← (value.get "model").or ((value.pointer "message" "model").or (value.get "modelVersion"))
  let raw ← named.asStr
  (ModelName.new raw).toOption

/-- One count, under whichever of the keys the family spells it. -/
def count (usage : Value) (keys : List String) : Option UInt32 :=
  (keys.findSome? fun key => (usage.get key).bind Value.asU64).map fun counted =>
    UInt32.ofNat (min counted.toNat (2 ^ 32 - 1))

/-- The larger of two counts, where none is less than any. -/
def maxCount : Option UInt32 → Option UInt32 → Option UInt32
  | none, b => b
  | some a, none => some a
  | some a, some b => some (if a < b then b else a)

/-! ### Measuring -/

/-- What was read so far. -/
structure Measuring where
  model : Option ModelName
  input : Option UInt32
  output : Option UInt32
  deriving DecidableEq

/-- The data an event line carries, without the word before it or the space after that. -/
def stripData (line : Bytes) : Option Bytes :=
  if (bytesOf "data:").isPrefixOf line then
    let data := line.drop 5
    if data.head? = some 32 then some data.tail else some data
  else none

namespace Measuring

def blank : Measuring := ⟨none, none, none⟩

/-- Takes whatever one json object carries, keeping the largest count seen. -/
def fold (measuring : Measuring) (value : Value) : Measuring :=
  let named := match measuring.model with
    | none => modelOf value
    | some model => some model
  match usageOf value with
  | none => { measuring with model := named }
  | some usage =>
    ⟨named, maxCount measuring.input (count usage inputKeys),
      maxCount measuring.output (count usage outputKeys)⟩

/-- Reads the data of one event line, when it is a line of data and the data is json. -/
def readLine (fromSlice : Bytes → Option Value) (measuring : Measuring) (line : Bytes) : Measuring :=
  match (stripData line).bind fromSlice with
  | none => measuring
  | some value => measuring.fold value

/-- Reads whatever passed: a json answer, or one or more events of a stream.  `fromSlice` is what
`serde_json` reads. -/
def read (fromSlice : Bytes → Option Value) (measuring : Measuring) (bytes : Bytes) : Measuring :=
  match fromSlice bytes with
  | some value => measuring.fold value
  | none => (bytes.splitOn lf).foldl (readLine fromSlice) measuring

/-- What a row says of an answer: the model and the tokens. -/
structure Row where
  model : Option ModelName
  tokens : Tokens
  deriving DecidableEq

/-- What the answer said it cost, or nothing when it said neither count. -/
def measured (measuring : Measuring) : Option Row :=
  if measuring.input = none ∧ measuring.output = none then none
  else some ⟨measuring.model, ⟨measuring.input.getD 0, measuring.output.getD 0⟩⟩

/-- The row of an answer that cost nothing anybody knows of. -/
def nothing : Row := ⟨none, ⟨0, 0⟩⟩

end Measuring

open Measuring

/-! ### The measuring body -/

/-- A body that measures what passes: whether its row is still to be written, and the rows written. -/
structure MeasuredBody where
  measuring : Measuring
  recording : Bool
  rows : List Row

namespace MeasuredBody

def done (body : MeasuredBody) : MeasuredBody :=
  if body.recording then ⟨blank, false, body.rows ++ [body.measuring.measured.getD nothing]⟩ else body

/-- What one poll of the body within leaves. -/
def polled (fromSlice : Bytes → Option Value) (body : MeasuredBody) :
    Option (Except BoxError Frame) → MeasuredBody
  | some (.ok (.data bytes)) => { body with measuring := body.measuring.read fromSlice bytes }
  | none => body.done
  | _ => body

/-- Polls a body until it is over or has failed, and drops it. -/
def passed (fromSlice : Bytes → Option Value) : Body → MeasuredBody → MeasuredBody
  | [], body => (body.polled fromSlice none).done
  | .error error :: _, body => (body.polled fromSlice (some (.error error))).done
  | .ok frame :: inner, body => passed fromSlice inner (body.polled fromSlice (some (.ok frame)))

end MeasuredBody

/-- The rows written for a body that passed. -/
def usageRows (fromSlice : Bytes → Option Value) (body : Body) : List Row :=
  (MeasuredBody.passed fromSlice body ⟨blank, true, []⟩).rows

/-! ### A frame adds what it says alone -/

namespace Measuring

/-- What two readings come to, the first one's model first. -/
def merge (first second : Measuring) : Measuring :=
  ⟨first.model.or second.model, maxCount first.input second.input, maxCount first.output second.output⟩

theorem none_maxCount (a : Option UInt32) : maxCount none a = a := rfl

theorem maxCount_none (a : Option UInt32) : maxCount a none = a := by
  cases a <;> rfl

theorem maxCount_assoc (a b c : Option UInt32) :
    maxCount (maxCount a b) c = maxCount a (maxCount b c) := by
  cases a with
  | none => cases b <;> cases c <;> rfl
  | some a =>
    cases b with
    | none => cases c <;> rfl
    | some b =>
      cases c with
      | none => rfl
      | some c =>
        simp only [maxCount, UInt32.lt_iff_toNat_lt]
        split_ifs <;> first | rfl | omega

theorem merge_blank (measuring : Measuring) : measuring.merge blank = measuring := by
  cases measuring
  simp [merge, blank, maxCount_none]

theorem merge_assoc (a b c : Measuring) : (a.merge b).merge c = a.merge (b.merge c) := by
  simp [merge, maxCount_assoc, Option.or_assoc]

theorem fold_eq_merge (measuring : Measuring) (value : Value) :
    measuring.fold value = measuring.merge (blank.fold value) := by
  cases hmodel : measuring.model with
  | none =>
    cases husage : usageOf value <;>
      simp [fold, merge, blank, hmodel, husage, maxCount_none, none_maxCount]
  | some model =>
    cases husage : usageOf value <;>
      simp [fold, merge, blank, hmodel, husage, maxCount_none, none_maxCount]

variable (fromSlice : Bytes → Option Value)

theorem readLine_eq_merge (measuring : Measuring) (line : Bytes) :
    measuring.readLine fromSlice line = measuring.merge (blank.readLine fromSlice line) := by
  rw [readLine, readLine]
  cases (stripData line).bind fromSlice with
  | none => exact measuring.merge_blank.symm
  | some value => exact measuring.fold_eq_merge value

theorem readLines_eq_merge (measuring : Measuring) (lines : List Bytes) :
    lines.foldl (readLine fromSlice) measuring
      = measuring.merge (lines.foldl (readLine fromSlice) blank) := by
  induction lines generalizing measuring with
  | nil => exact measuring.merge_blank.symm
  | cons line lines ih =>
    rw [List.foldl_cons, List.foldl_cons, ih, ih (blank.readLine fromSlice line),
      readLine_eq_merge, merge_assoc]

/-- What a frame says when it is read alone. -/
def alone (bytes : Bytes) : Measuring := blank.read fromSlice bytes

/-- **A frame adds what it says alone.** -/
theorem read_eq_merge (measuring : Measuring) (bytes : Bytes) :
    measuring.read fromSlice bytes = measuring.merge (alone fromSlice bytes) := by
  rw [alone, read, read]
  cases fromSlice bytes with
  | none => exact readLines_eq_merge fromSlice measuring _
  | some value => exact measuring.fold_eq_merge value

def together (frames : List Bytes) : Measuring := frames.foldl (Measuring.read fromSlice) blank

theorem foldl_read (measuring : Measuring) (frames : List Bytes) :
    frames.foldl (Measuring.read fromSlice) measuring = measuring.merge (together fromSlice frames) := by
  induction frames generalizing measuring with
  | nil => exact measuring.merge_blank.symm
  | cons bytes frames ih =>
    rw [together, List.foldl_cons, List.foldl_cons, ih, ih (blank.read fromSlice bytes), read_eq_merge,
      merge_assoc]
    rfl

theorem together_cons (bytes : Bytes) (frames : List Bytes) :
    together fromSlice (bytes :: frames) = (alone fromSlice bytes).merge (together fromSlice frames) :=
  foldl_read fromSlice (alone fromSlice bytes) frames

end Measuring

/-- **One row is written**, of what the frames say together, whether or not trailers follow them. -/
theorem usageRows_received (fromSlice : Bytes → Option Value) (frames : List Bytes)
    (trailers : Option HeaderMap) :
    usageRows fromSlice (received frames trailers)
      = [(together fromSlice frames).measured.getD nothing] := by
  have hrun : ∀ measuring : Measuring,
      (MeasuredBody.passed fromSlice (received frames trailers) ⟨measuring, true, []⟩).rows
        = [(frames.foldl (Measuring.read fromSlice) measuring).measured.getD nothing] := by
    induction frames with
    | nil =>
      intro measuring
      cases trailers <;> rfl
    | cons bytes frames ih =>
      intro measuring
      exact ih (measuring.read fromSlice bytes)
  exact hrun blank

/-! ### What readings say -/

namespace Measuring

def States (measuring : Measuring) : Prop := measuring.input ≠ none ∨ measuring.output ≠ none

def Spends (measuring : Measuring) : Prop :=
  (∃ n, n ≠ 0 ∧ measuring.input = some n) ∨ ∃ n, n ≠ 0 ∧ measuring.output = some n

def Names (measuring : Measuring) : Prop := measuring.model ≠ none

theorem maxCount_ne_none {a b : Option UInt32} : maxCount a b ≠ none ↔ a ≠ none ∨ b ≠ none := by
  cases a <;> cases b <;> simp [maxCount]

theorem maxCount_nonzero {a b : Option UInt32} :
    (∃ n, n ≠ 0 ∧ maxCount a b = some n) ↔ (∃ n, n ≠ 0 ∧ a = some n) ∨ ∃ n, n ≠ 0 ∧ b = some n := by
  cases a with
  | none => simp [maxCount]
  | some a =>
    cases b with
    | none => simp [maxCount]
    | some b =>
      have hzero : ∀ n : UInt32, n ≠ 0 ↔ n.toNat ≠ 0 := by
        intro n
        rw [ne_eq, ← UInt32.toNat_inj]
        rfl
      simp only [maxCount, Option.some.injEq, exists_eq_right', hzero]
      split
      · rename_i hlt
        rw [UInt32.lt_iff_toNat_lt] at hlt
        omega
      · rename_i hlt
        rw [UInt32.lt_iff_toNat_lt] at hlt
        omega

theorem states_merge {a b : Measuring} : (a.merge b).States ↔ a.States ∨ b.States := by
  simp only [States, merge, maxCount_ne_none]
  exact or_or_or_comm

theorem spends_merge {a b : Measuring} : (a.merge b).Spends ↔ a.Spends ∨ b.Spends := by
  simp only [Spends, merge, maxCount_nonzero]
  exact or_or_or_comm

theorem names_merge {a b : Measuring} : (a.merge b).Names ↔ a.Names ∨ b.Names := by
  simp only [Names, merge]
  cases a.model <;> simp

/-- A row is blank when nothing above zero was stated, and nothing was stated or no model was named. -/
theorem measured_eq_nothing {measuring : Measuring} :
    measuring.measured.getD nothing = nothing ↔
      ¬ measuring.Spends ∧ ¬ (measuring.States ∧ measuring.Names) := by
  obtain ⟨model, input, output⟩ := measuring
  cases input with
  | none =>
    cases output with
    | none => simp [measured, States, Spends]
    | some b => simp [measured, States, Spends, Names, nothing, and_comm]
  | some a =>
    cases output with
    | none => simp [measured, States, Spends, Names, nothing, and_comm]
    | some b =>
      simp only [measured, States, Spends, Names, nothing]
      simp
      tauto

variable (fromSlice : Bytes → Option Value)

/-- What holds of a reading when it holds of a part of it holds of frames when it holds of one. -/
theorem together_iff {P : Measuring → Prop} (hblank : ¬ P blank)
    (hmerge : ∀ {a b : Measuring}, P (a.merge b) ↔ P a ∨ P b) (frames : List Bytes) :
    P (together fromSlice frames) ↔ ∃ frame ∈ frames, P (alone fromSlice frame) := by
  induction frames with
  | nil => simpa [together] using hblank
  | cons bytes frames ih => simp [together_cons, hmerge, ih]

theorem not_states_blank : ¬ blank.States := by simp [States, blank]

theorem not_spends_blank : ¬ blank.Spends := by simp [Spends, blank]

theorem not_names_blank : ¬ blank.Names := by simp [Names, blank]

end Measuring

/-! ### Cutting an event stream at the ends of lines -/

section Lines

variable (fromSlice : Bytes → Option Value)

/-- What the event lines of a stretch of bytes say. -/
def lines (bytes : Bytes) : Measuring := (bytes.splitOn lf).foldl (readLine fromSlice) blank

theorem lines_append (front back : Bytes) :
    lines fromSlice (front ++ lf :: back) = (lines fromSlice front).merge (lines fromSlice back) := by
  rw [lines, List.splitOn_append_cons_self, List.foldl_append]
  exact readLines_eq_merge fromSlice (lines fromSlice front) (back.splitOn lf)

theorem lines_line (front : Bytes) : lines fromSlice (front ++ [lf]) = lines fromSlice front := by
  rw [lines_append]
  exact Measuring.merge_blank _

/-- Frames that are no json texts and end where lines end say what their lines do together. -/
theorem together_lines {frames : List Bytes} (hjson : ∀ frame ∈ frames, fromSlice frame = none)
    (hends : ∀ frame ∈ frames.dropLast, frame.getLast? = some lf) :
    together fromSlice frames = lines fromSlice frames.flatten := by
  have halone : ∀ frame ∈ frames, alone fromSlice frame = lines fromSlice frame := by
    intro frame hframe
    rw [alone, Measuring.read, hjson frame hframe]
    rfl
  induction frames with
  | nil => rfl
  | cons frame rest ih =>
    rw [together_cons, halone frame (List.mem_cons_self ..), List.flatten_cons]
    cases rest with
    | nil =>
      rw [List.flatten_nil, List.append_nil]
      exact Measuring.merge_blank _
    | cons next rest =>
      have hlast : frame.getLast? = some lf := hends frame (by simp)
      obtain ⟨front, hfront⟩ := List.getLast?_eq_some_iff.mp hlast
      rw [ih (fun other hother => hjson other (List.mem_cons_of_mem _ hother))
        (fun other hother => hends other (List.mem_cons_of_mem _ hother))
        (fun other hother => halone other (List.mem_cons_of_mem _ hother)),
        hfront, lines_line, List.append_assoc]
      exact (lines_append fromSlice front _).symm

/-- **An event stream cut at the ends of its lines is measured as a whole**, as long as neither it nor a
frame of it is one json text. -/
theorem usageRows_lines {frames : List Bytes} (hjson : ∀ frame ∈ frames, fromSlice frame = none)
    (hwhole : fromSlice frames.flatten = none)
    (hends : ∀ frame ∈ frames.dropLast, frame.getLast? = some lf) (trailers : Option HeaderMap) :
    usageRows fromSlice (received frames trailers)
      = usageRows fromSlice (received [frames.flatten] trailers) := by
  have hone : together fromSlice [frames.flatten] = lines fromSlice [frames.flatten].flatten := by
    apply together_lines
    · intro frame hframe
      rw [List.mem_singleton.mp hframe]
      exact hwhole
    · intro frame hframe
      cases hframe
  rw [usageRows_received, usageRows_received, together_lines fromSlice hjson hends, hone,
    List.flatten_singleton]

end Lines

/-! ### Cutting an answer up anyhow -/

section Cuts

variable (fromSlice : Bytes → Option Value)

/-- The row frames leave is blank when none of them spends, and none states a count that one names a model
for. -/
theorem row_eq_nothing (frames : List Bytes) :
    (together fromSlice frames).measured.getD nothing = nothing ↔
      (∀ frame ∈ frames, ¬ (alone fromSlice frame).Spends) ∧
        ∀ frame ∈ frames, ∀ other ∈ frames,
          ¬ ((alone fromSlice frame).States ∧ (alone fromSlice other).Names) := by
  rw [measured_eq_nothing, together_iff fromSlice not_spends_blank spends_merge,
    together_iff fromSlice not_states_blank states_merge,
    together_iff fromSlice not_names_blank names_merge]
  constructor
  · intro h
    refine ⟨fun frame hframe hspends => h.1 ⟨frame, hframe, hspends⟩, ?_⟩
    intro frame hframe other hother hboth
    exact h.2 ⟨⟨frame, hframe, hboth.1⟩, ⟨other, hother, hboth.2⟩⟩
  · intro h
    constructor
    · intro hspends
      obtain ⟨frame, hframe, hspends⟩ := hspends
      exact h.1 frame hframe hspends
    · intro hboth
      obtain ⟨⟨frame, hframe, hstates⟩, ⟨other, hother, hnames⟩⟩ := hboth
      exact h.2 frame hframe other hother ⟨hstates, hnames⟩

/-- **Nothing the body says can be measured.**  No stretch of it that is read alone states a count above
zero; and where a stretch states a count at all, neither it nor a stretch beside it names a model. -/
structure SaysNothing (body : Bytes) : Prop where
  spends : ∀ piece, piece <:+: body → ¬ (alone fromSlice piece).Spends
  names : ∀ piece, piece <:+: body →
    ¬ ((alone fromSlice piece).States ∧ (alone fromSlice piece).Names)
  beside : ∀ before piece between other after,
    body = before ++ piece ++ between ++ other ++ after →
      ¬ ((alone fromSlice piece).States ∧ (alone fromSlice other).Names) ∧
        ¬ ((alone fromSlice other).States ∧ (alone fromSlice piece).Names)

theorem readLine_short {line : Bytes} (h : line.length < 5) (measuring : Measuring) :
    measuring.readLine fromSlice line = measuring := by
  have hstrip : stripData line = none := by
    rw [stripData, if_neg]
    intro hdata
    have hle := (List.isPrefixOf_iff_prefix.mp hdata).length_le
    have hword : (bytesOf "data:").length = 5 := by decide
    omega
  rw [readLine, hstrip]
  rfl

/-- One byte says nothing, as long as the one byte texts of json are numbers. -/
theorem alone_byte (hone : ∀ b value, fromSlice [b] = some value → value.isNumber = true) (b : UInt8) :
    alone fromSlice [b] = blank := by
  rw [alone, Measuring.read]
  cases hvalue : fromSlice [b] with
  | some value =>
    have hnumber := hone b value hvalue
    cases value <;> first | rfl | cases hnumber
  | none =>
    have hlines : ∀ line ∈ [b].splitOn lf, line.length < 5 := by
      intro line hline
      have hle := length_le_of_mem_splitOn hline
      rw [List.length_singleton] at hle
      omega
    show ([b].splitOn lf).foldl (readLine fromSlice) blank = blank
    generalize [b].splitOn lf = lines at hlines
    induction lines with
    | nil => rfl
    | cons line lines ih =>
      rw [List.foldl_cons, readLine_short fromSlice (hlines line (List.mem_cons_self ..))]
      exact ih fun other hother => hlines other (List.mem_cons_of_mem _ hother)

/-- Two frames of a cut body are the same, or stand beside each other. -/
theorem beside_of_mem {frames : List Bytes} {frame other : Bytes} (hframe : frame ∈ frames)
    (hother : other ∈ frames) :
    frame = other ∨ (∃ before between after,
      frames.flatten = before ++ frame ++ between ++ other ++ after) ∨
      ∃ before between after, frames.flatten = before ++ other ++ between ++ frame ++ after := by
  obtain ⟨front, back, hfront⟩ := List.append_of_mem hframe
  rw [hfront] at hother ⊢
  rcases List.mem_append.mp hother with hleft | hright
  · obtain ⟨first, second, hleft⟩ := List.append_of_mem hleft
    refine .inr (.inr ⟨first.flatten, second.flatten, back.flatten, ?_⟩)
    simp [hleft]
  · rcases List.mem_cons.mp hright with hsame | hback
    · exact .inl hsame.symm
    · obtain ⟨first, second, hback⟩ := List.append_of_mem hback
      refine .inr (.inl ⟨front.flatten, first.flatten, second.flatten, ?_⟩)
      simp [hback]

theorem row_of_saysNothing {frames : List Bytes} (h : SaysNothing fromSlice frames.flatten) :
    (together fromSlice frames).measured.getD nothing = nothing := by
  apply (row_eq_nothing fromSlice frames).mpr
  have hwithin : ∀ frame ∈ frames, frame <:+: frames.flatten := fun frame hframe =>
    List.infix_of_mem_flatten hframe
  refine ⟨fun frame hframe => h.spends frame (hwithin frame hframe), ?_⟩
  intro frame hframe other hother hboth
  rcases beside_of_mem hframe hother with hsame | hbeside
  · rw [← hsame] at hboth
    exact h.names frame (hwithin frame hframe) hboth
  · rcases hbeside with hright | hleft
    · obtain ⟨before, between, after, hcut⟩ := hright
      exact (h.beside before frame between other after hcut).1 hboth
    · obtain ⟨before, between, after, hcut⟩ := hleft
      exact (h.beside before other between frame after hcut).2 hboth

theorem row_of_bytes (hone : ∀ b value, fromSlice [b] = some value → value.isNumber = true) (body : Bytes) :
    (together fromSlice (body.map fun b => [b])).measured.getD nothing = nothing := by
  apply (row_eq_nothing fromSlice _).mpr
  have hblank : ∀ frame ∈ body.map fun b => [b], alone fromSlice frame = blank := by
    intro frame hframe
    obtain ⟨b, -, hb⟩ := List.mem_map.mp hframe
    rw [← hb]
    exact alone_byte fromSlice hone b
  refine ⟨fun frame hframe => ?_, fun frame hframe other _ hboth => ?_⟩
  · rw [hblank frame hframe]
    exact not_spends_blank
  · rw [hblank frame hframe] at hboth
    exact not_states_blank hboth.1

theorem saysNothing_of_rows {body : Bytes} (h : ∀ frames : List Bytes, frames.flatten = body →
      (together fromSlice frames).measured.getD nothing = nothing) : SaysNothing fromSlice body := by
  refine ⟨?_, ?_, ?_⟩
  · intro piece hpiece
    obtain ⟨before, after, hcut⟩ := hpiece
    have hblank := h [before, piece, after] (by simpa using hcut)
    exact ((row_eq_nothing fromSlice _).mp hblank).1 piece (by simp)
  · intro piece hpiece
    obtain ⟨before, after, hcut⟩ := hpiece
    have hblank := h [before, piece, after] (by simpa using hcut)
    exact ((row_eq_nothing fromSlice _).mp hblank).2 piece (by simp) piece (by simp)
  · intro before piece between other after hcut
    have hblank := h [before, piece, between, other, after] (by simp [hcut])
    have hnone := ((row_eq_nothing fromSlice _).mp hblank).2
    exact ⟨hnone piece (by simp) other (by simp), hnone other (by simp) piece (by simp)⟩

/-- **Which answers are measured alike however they are cut**: exactly those that say nothing that can be
measured.  Cut into single bytes every answer leaves a blank row, so an answer that costs anything is
measured otherwise as a whole than it is in pieces. -/
theorem measured_alike_iff (hone : ∀ b value, fromSlice [b] = some value → value.isNumber = true)
    (body : Bytes) (trailers : Option HeaderMap) :
    (∀ frames : List Bytes, frames.flatten = body →
      usageRows fromSlice (received frames trailers) = usageRows fromSlice (received [body] trailers)) ↔
      SaysNothing fromSlice body := by
  constructor
  · intro halike
    -- the single bytes leave a blank row, so the whole does, and so does every other cut
    have hbytes : (body.map fun b => [b]).flatten = body := by
      rw [← List.flatMap_def, List.flatMap_singleton']
    apply saysNothing_of_rows
    intro frames hframes
    have hsame := (halike frames hframes).trans (halike _ hbytes).symm
    rw [usageRows_received, usageRows_received, row_of_bytes fromSlice hone] at hsame
    exact List.head_eq_of_cons_eq hsame
  · intro hsilent frames hframes
    rw [usageRows_received, usageRows_received, row_of_saysNothing fromSlice (hframes ▸ hsilent),
      row_of_saysNothing fromSlice (by simpa using hsilent)]

end Cuts

def usageText : Bytes := bytesOf "\x7b\"usage\":\x7b\"input_tokens\":5\x7d\x7d"

/-- What `serde_json` reads of the texts of the examples: that answer, and digits. -/
def usageJson (bytes : Bytes) : Option Value :=
  if bytes = usageText then
    some (.object [("usage", .object [("input_tokens", .number (.posInt 5))])])
  else
    match bytes with
    | [b] => if 48 ≤ b ∧ b ≤ 57 then some (.number (.posInt (b.toUInt64 - 48))) else none
    | _ => none

/-- **An answer cut in the middle costs nothing**: five tokens when it passes whole, none in two halves. -/
theorem cut_answer_is_not_measured :
    [usageText.take 12, usageText.drop 12].flatten = usageText ∧
      usageRows usageJson (received [usageText] none) = [⟨none, ⟨5, 0⟩⟩] ∧
      usageRows usageJson (received [usageText.take 12, usageText.drop 12] none)
        = [⟨none, ⟨0, 0⟩⟩] := by
  decide +kernel

/-- An answer that is no json at all says nothing, and is measured alike whole and byte by byte. -/
theorem plain_answer_measured_alike :
    SaysNothing usageJson (bytesOf "ok") ∧
      usageRows usageJson (received [[111], [107]] none)
        = usageRows usageJson (received [bytesOf "ok"] none) := by
  have hblank : ∀ piece, piece <:+: bytesOf "ok" → alone usageJson piece = blank := by
    intro piece hpiece
    have hpieces : ∀ part ∈ (bytesOf "ok").sublists, alone usageJson part = blank := by decide +kernel
    exact hpieces piece (List.mem_sublists.mpr hpiece.sublist)
  have hone : ∀ b value, usageJson [b] = some value → value.isNumber = true := by
    intro b value hvalue
    have hshort : [b] ≠ usageText := by
      intro h
      have hlength : 1 = usageText.length := congrArg List.length h
      exact absurd hlength (by decide +kernel)
    rw [usageJson, if_neg hshort] at hvalue
    split at hvalue
    · cases hvalue
      rfl
    · cases hvalue
  have hsilent : SaysNothing usageJson (bytesOf "ok") := by
    refine ⟨?_, ?_, ?_⟩
    · intro piece hpiece
      rw [hblank piece hpiece]
      exact not_spends_blank
    · intro piece hpiece hboth
      rw [hblank piece hpiece] at hboth
      exact not_states_blank hboth.1
    · intro before piece between other after hcut
      have hpiece : piece <:+: bytesOf "ok" := ⟨before, between ++ other ++ after, by simp [hcut]⟩
      have hother : other <:+: bytesOf "ok" := ⟨before ++ piece ++ between, after, hcut.symm⟩
      rw [hblank piece hpiece, hblank other hother]
      exact ⟨fun hboth => not_states_blank hboth.1, fun hboth => not_states_blank hboth.1⟩
  exact ⟨hsilent, (measured_alike_iff usageJson hone (bytesOf "ok") none).mpr hsilent _ (by decide +kernel)⟩

end IntelliPrism.Gateway
