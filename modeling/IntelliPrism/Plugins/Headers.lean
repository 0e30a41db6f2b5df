import IntelliPrism.Core.Plugin
import IntelliPrism.Gateway.Hops
import IntelliPrism.Gateway.ResponseCache
import IntelliPrism.Lib.Lines

/-!
# Headers, as a plugin reads them

A header plugin is given the headers as a block of lines and answers with one.  A value may hold colons,
blanks and bytes past ascii; what it may not hold is the end of a line, and what is lost on the way are the
blanks around it.

* `encodeHeaders`, `decodeHeaders`, `run`, `process` — the source's functions, with the line an error names;
* `decodeHeaders_encodeHeaders` — **what is written is read back**, field by field;
* `bare_of_decodeHeaders` — what is read has no blanks around it, whatever was read;
* `headers_survive` — **headers survive the trip through a plugin**, in whatever order the map gives them out.
-/

namespace IntelliPrism.Plugins

open IntelliPrism.Core IntelliPrism.Lib
open IntelliPrism.Cache (bytesOf)
open IntelliPrism.Gateway (HeaderName HeaderValue HeaderMap ProcessorError HeaderProcessor lf cr)

/-! ### Blanks -/

/-- The ascii whitespace: a space, a tab, a line feed, a form feed and a carriage return. -/
def isAsciiWhitespace (b : UInt8) : Bool := b == 32 || b == 9 || b == 10 || b == 12 || b == 13

/-- `<[u8]>::trim_ascii`. -/
def trimAscii (bytes : Bytes) : Bytes := trimBy isAsciiWhitespace bytes

/-- The value has no blank at either end. -/
def Bare (value : HeaderValue) : Prop :=
  Begins isAsciiWhitespace value.bytes ∧ Begins isAsciiWhitespace value.bytes.reverse

/-! ### Maps -/

/-- `HeaderName::from_bytes`. -/
def nameFromBytes (bytes : Bytes) : Option HeaderName :=
  HeaderName.fromText (String.ofList (bytes.map Gateway.byteChar))

/-- `HeaderMap::append`. -/
def append (headers : HeaderMap) (name : HeaderName) (value : HeaderValue) : HeaderMap :=
  ⟨headers.fields ++ [(name, value)]⟩

/-- Maps are equal when every name has the same values in the same order. -/
def Same (a b : HeaderMap) : Prop := ∀ name, a.getAll name = b.getAll name

/-- The order a map gives its fields out in.  A name that was removed leaves its place to another, so it is
not the order they were put in; the values of one name keep theirs. -/
structure Iteration where
  fields : HeaderMap → List (HeaderName × HeaderValue)
  same : ∀ headers, Same ⟨fields headers⟩ headers

def AllBare (headers : HeaderMap) : Prop := ∀ name, ∀ value ∈ headers.getAll name, Bare value

theorem mem_getAll {headers : HeaderMap} {name : HeaderName} {value : HeaderValue} :
    value ∈ headers.getAll name ↔ (name, value) ∈ headers.fields := by
  simp [HeaderMap.getAll]

theorem Iteration.bare (order : Iteration) {headers : HeaderMap} (h : AllBare headers) :
    ∀ field ∈ order.fields headers, Bare field.2 := by
  intro field hfield
  have hmem : field.2 ∈ HeaderMap.getAll ⟨order.fields headers⟩ field.1 := mem_getAll.mpr hfield
  rw [order.same] at hmem
  exact h field.1 field.2 hmem

/-! ### Writing and reading -/

/-- Writes headers as the block a header plugin reads: a line each, ended by CRLF. -/
def encodeHeaders (order : Iteration) (headers : HeaderMap) : Bytes :=
  (order.fields headers).flatMap fun field =>
    bytesOf field.1.raw ++ bytesOf ": " ++ field.2.bytes ++ bytesOf "\r\n"

/-- A header block a plugin returned that does not parse as headers. -/
structure HeaderBlockError where
  line : ℕ
  problem : String
  deriving DecidableEq

def HeaderBlockError.display (error : HeaderBlockError) : String :=
  "line " ++ toString error.line ++ " of the header block " ++ error.problem

/-- `strip_suffix` of a carriage return. -/
def stripReturn (raw : Bytes) : Bytes := if raw.getLast? = some cr then raw.dropLast else raw

def decodeLine (number : ℕ) (line : Bytes) : Except HeaderBlockError (HeaderName × HeaderValue) :=
  match line.findIdx? (· == 58) with
  | none => .error ⟨number, "has no colon"⟩
  | some colon =>
    match nameFromBytes (trimAscii (line.take colon)) with
    | none => .error ⟨number, "names no valid header"⟩
    | some name =>
      match HeaderValue.fromBytes (trimAscii (line.drop (colon + 1))) with
      | none => .error ⟨number, "carries a value a header cannot hold"⟩
      | some value => .ok (name, value)

/-- The loop over the lines, from an index on. -/
def decodeLines : ℕ → List Bytes → HeaderMap → Except HeaderBlockError HeaderMap
  | _, [], headers => .ok headers
  | index, raw :: rest, headers =>
    if stripReturn raw = [] then decodeLines (index + 1) rest headers
    else
      match decodeLine (index + 1) (stripReturn raw) with
      | .error error => .error error
      | .ok (name, value) => decodeLines (index + 1) rest (append headers name value)

/-- Reads a header block back.  A bare LF also ends a line and blank lines are skipped. -/
def decodeHeaders (block : Bytes) : Except HeaderBlockError HeaderMap :=
  decodeLines 0 (block.splitOn lf) .empty

/-! ### A line written and read -/

theorem name_facts {name : HeaderName} {b : UInt8} (hb : b ∈ bytesOf name.raw) :
    Gateway.textByte b = true ∧ Gateway.lowerByte b = b ∧ isAsciiWhitespace b = false ∧ b ≠ 58 := by
  rw [Gateway.bytesOf_name] at hb
  obtain ⟨c, hc, rfl⟩ := List.mem_map.mp hb
  have hlegal : Gateway.headerNameChar c = true := List.all_eq_true.mp name.legal c hc
  exact @forall_ascii (fun c => Gateway.headerNameChar c = true → Gateway.textByte c.val.toUInt8 = true ∧
    Gateway.lowerByte c.val.toUInt8 = c.val.toUInt8 ∧ isAsciiWhitespace c.val.toUInt8 = false ∧
    c.val.toUInt8 ≠ 58) (by decide +kernel) c (Gateway.ascii_of_headerNameChar hlegal) hlegal

theorem value_facts {value : HeaderValue} {b : UInt8} (hb : b ∈ value.bytes) : b ≠ lf ∧ b ≠ cr := by
  have hall : ∀ b : UInt8, Gateway.valueByte b = true → b ≠ lf ∧ b ≠ cr := by
    refine forall_byte ?_
    decide +kernel
  exact hall b (List.all_eq_true.mp value.legal b hb)

theorem nameFromBytes_name (name : HeaderName) : nameFromBytes (trimAscii (bytesOf name.raw)) = some name := by
  have hbare : trimAscii (bytesOf name.raw) = bytesOf name.raw := by
    refine trimBy_eq_self (begins_of_forall ?_) (begins_of_forall ?_)
    · intro b hb
      exact (name_facts hb).2.2.1
    · intro b hb
      exact (name_facts (List.mem_reverse.mp hb)).2.2.1
  have htext : (bytesOf name.raw).all Gateway.textByte = true :=
    List.all_eq_true.mpr fun b hb => (name_facts hb).1
  rw [hbare, nameFromBytes, Gateway.fromText_bytes_iff htext]
  refine (List.map_congr_left ?_).trans (List.map_id _)
  intro b hb
  exact (name_facts hb).2.1

theorem trimAscii_space {value : HeaderValue} (h : Bare value) :
    trimAscii (32 :: value.bytes) = value.bytes := by
  have hdrop : (32 :: value.bytes).dropWhile isAsciiWhitespace = value.bytes := by
    rw [List.dropWhile_cons_of_pos (by decide), dropWhile_eq_self h.1]
  rw [trimAscii, trimBy, hdrop, dropWhile_eq_self h.2, List.reverse_reverse]

/-- The line a field is written in, less its end. -/
def fieldLine (field : HeaderName × HeaderValue) : Bytes := bytesOf field.1.raw ++ 58 :: 32 :: field.2.bytes

theorem decodeLine_fieldLine {field : HeaderName × HeaderValue} (h : Bare field.2) (number : ℕ) :
    decodeLine number (fieldLine field) = .ok field := by
  have hcolon : (fieldLine field).findIdx? (· == 58) = some (bytesOf field.1.raw).length := by
    have hnone : (bytesOf field.1.raw).findIdx? (· == 58) = none := by
      rw [List.findIdx?_eq_none_iff]
      intro b hb
      simpa using (name_facts hb).2.2.2
    simp [fieldLine, List.findIdx?_append, hnone, List.findIdx?_cons]
  have htake : (fieldLine field).take (bytesOf field.1.raw).length = bytesOf field.1.raw :=
    List.take_left' rfl
  have hdrop : (fieldLine field).drop ((bytesOf field.1.raw).length + 1) = 32 :: field.2.bytes := by
    simp [fieldLine, ← List.drop_drop]
  rw [decodeLine, hcolon]
  simp only [htake, hdrop, nameFromBytes_name, trimAscii_space h, HeaderValue.fromBytes_bytes]

theorem encodeHeaders_eq (order : Iteration) (headers : HeaderMap) :
    encodeHeaders order headers
      = terminated lf ((order.fields headers).map fun field => fieldLine field ++ [cr]) := by
  rw [encodeHeaders, terminated, List.flatMap_map]
  refine congrArg List.flatten (List.map_congr_left ?_)
  intro field _
  show _ ++ _ ++ _ ++ [cr, lf] = _
  simp [fieldLine, show bytesOf ": " = [58, 32] from rfl]

theorem lf_notMem_fieldLine (field : HeaderName × HeaderValue) : lf ∉ fieldLine field ++ [cr] := by
  intro hmem
  simp only [fieldLine, List.mem_append, List.mem_cons, List.not_mem_nil, or_false] at hmem
  rcases hmem with (hname | hcolon | hspace | hvalue) | hcr
  · have hblank := (name_facts hname).2.2.1
    cases hblank
  · cases hcolon
  · cases hspace
  · exact (value_facts hvalue).1 rfl
  · cases hcr

theorem stripReturn_fieldLine (field : HeaderName × HeaderValue) :
    stripReturn (fieldLine field ++ [cr]) = fieldLine field := by
  simp [stripReturn]

theorem fieldLine_ne_nil (field : HeaderName × HeaderValue) : fieldLine field ≠ [] := by
  simp [fieldLine]

theorem decodeLines_fields {fields : List (HeaderName × HeaderValue)} (h : ∀ field ∈ fields, Bare field.2)
    (index : ℕ) (headers : HeaderMap) :
    decodeLines index (fields.map (fun field => fieldLine field ++ [cr]) ++ [[]]) headers
      = .ok ⟨headers.fields ++ fields⟩ := by
  induction fields generalizing index headers with
  | nil => simp [decodeLines, stripReturn]
  | cons field fields ih =>
    have hfirst := decodeLine_fieldLine (h field (List.mem_cons_self ..)) (index + 1)
    have hrest := ih (fun other hother => h other (List.mem_cons_of_mem _ hother)) (index + 1)
      (append headers field.1 field.2)
    rw [List.map_cons, List.cons_append, decodeLines, stripReturn_fieldLine, if_neg (fieldLine_ne_nil field),
      hfirst]
    refine hrest.trans ?_
    simp [append]

/-- **What is written is read back**, field by field. -/
theorem decodeHeaders_encodeHeaders (order : Iteration) {headers : HeaderMap} (h : AllBare headers) :
    decodeHeaders (encodeHeaders order headers) = .ok ⟨order.fields headers⟩ := by
  have hlines := @splitOn_terminated UInt8 _ _ lf
    ((order.fields headers).map fun field => fieldLine field ++ [cr]) (by
      intro line hline
      obtain ⟨field, _, rfl⟩ := List.mem_map.mp hline
      exact lf_notMem_fieldLine field) []
  rw [List.append_nil, List.splitOn_nil] at hlines
  rw [decodeHeaders, encodeHeaders_eq, hlines, decodeLines_fields (order.bare h)]
  rfl

/-! ### What is read has no blanks around it -/

theorem bare_of_fromBytes {bytes : Bytes} {value : HeaderValue}
    (h : HeaderValue.fromBytes (trimAscii bytes) = some value) : Bare value := by
  rw [HeaderValue.fromBytes] at h
  split at h
  · cases h
    exact ⟨begins_trimBy _ bytes, begins_reverse_trimBy _ bytes⟩
  · cases h

theorem bare_of_decodeLine {number : ℕ} {line : Bytes} {field : HeaderName × HeaderValue}
    (h : decodeLine number line = .ok field) : Bare field.2 := by
  unfold decodeLine at h
  split at h
  · cases h
  · split at h
    · cases h
    · split at h
      · cases h
      · rename_i value hvalue
        cases h
        exact bare_of_fromBytes hvalue

theorem bare_of_decodeLines {index : ℕ} {lines : List Bytes} {before headers : HeaderMap}
    (h : decodeLines index lines before = .ok headers) (hbefore : ∀ field ∈ before.fields, Bare field.2) :
    ∀ field ∈ headers.fields, Bare field.2 := by
  induction lines generalizing index before with
  | nil =>
    cases h
    exact hbefore
  | cons raw rest ih =>
    unfold decodeLines at h
    split at h
    · exact ih h hbefore
    · split at h
      · cases h
      · rename_i name value hline
        refine ih h ?_
        intro field hfield
        rcases List.mem_append.mp hfield with hold | hnew
        · exact hbefore field hold
        · rw [List.mem_singleton.mp hnew]
          exact bare_of_decodeLine hline

theorem bare_of_decodeHeaders {block : Bytes} {headers : HeaderMap} (h : decodeHeaders block = .ok headers) :
    AllBare headers := by
  intro name value hvalue
  exact bare_of_decodeLines h (by intro field hfield; cases hfield) (name, value) (mem_getAll.mp hvalue)

/-! ### The trip through a plugin -/

/-- What a plugin made of its input. -/
inductive Transformed where
  | output (bytes : Bytes)
  | refused (reason : String)
  deriving DecidableEq

/-- How a call into a plugin comes out: it did not finish, it ended in an error of the host, or the plugin
made something of its input. -/
inductive Outcome where
  | unfinished (error : String)
  | failed (error : String)
  | done (transformed : Transformed)
  deriving DecidableEq

/-- A deliberate refusal stays a refusal; every other way a call ends badly is a failure. -/
def run (checksum : Checksum) (call : Bytes → Outcome) (input : Bytes) : Except ProcessorError Bytes :=
  match call input with
  | .unfinished error =>
    .error (.failed ("plugin " ++ Gateway.hexEncode checksum.bytes ++ " did not finish: " ++ error))
  | .done (.output bytes) => .ok bytes
  | .done (.refused reason) => .error (.refused reason)
  | .failed error => .error (.failed error)

/-- A loaded plugin serving as a header processor. -/
def process (order : Iteration) (checksum : Checksum) (call : Bytes → Outcome) : HeaderProcessor :=
  fun headers =>
    match run checksum call (encodeHeaders order headers) with
    | .error error => .error error
    | .ok block =>
      match decodeHeaders block with
      | .error error => .error (.failed ("plugin " ++ Gateway.hexEncode checksum.bytes
          ++ " returned headers that do not parse: " ++ error.display))
      | .ok headers => .ok headers

/-- **Headers survive the trip through a plugin.**  In whatever order a map gives its fields out, what is
written of a map with bare values is read back as the same map, and so is what is written of any map a block
was read as; and a plugin that hands its block back leaves such headers as they are. -/
theorem headers_survive (order : Iteration) :
    (∀ headers, AllBare headers →
      ∃ back, decodeHeaders (encodeHeaders order headers) = .ok back ∧ Same back headers) ∧
    (∀ block headers, decodeHeaders block = .ok headers →
      ∃ back, decodeHeaders (encodeHeaders order headers) = .ok back ∧ Same back headers) ∧
    (∀ checksum call headers, AllBare headers →
      call (encodeHeaders order headers) = .done (.output (encodeHeaders order headers)) →
      ∃ back, process order checksum call headers = .ok back ∧ Same back headers) := by
  refine ⟨?_, ?_, ?_⟩
  · intro headers hbare
    exact ⟨_, decodeHeaders_encodeHeaders order hbare, order.same headers⟩
  · intro block headers hread
    exact ⟨_, decodeHeaders_encodeHeaders order (bare_of_decodeHeaders hread), order.same headers⟩
  · intro checksum call headers hbare hcall
    refine ⟨⟨order.fields headers⟩, ?_, order.same headers⟩
    rw [process, run, hcall]
    simp only [decodeHeaders_encodeHeaders order hbare]

/-- A map that gives its fields out as it stores them. -/
def stored : Iteration := ⟨HeaderMap.fields, fun _ _ => rfl⟩

/-- A value with a colon, a blank and a byte past ascii, and a second one that is empty. -/
def twoHosts : HeaderMap :=
  ⟨[(.host, ⟨[58, 32, 233], by decide⟩), (.host, ⟨[], by decide⟩)]⟩

theorem headers_survive_repeated :
    ∃ back, decodeHeaders (encodeHeaders stored twoHosts) = .ok back ∧ Same back twoHosts := by
  refine (headers_survive stored).1 twoHosts ?_
  intro name value hvalue
  have hfields := mem_getAll.mp hvalue
  simp only [twoHosts, List.mem_cons, Prod.mk.injEq, List.not_mem_nil, or_false] at hfields
  rcases hfields with ⟨_, rfl⟩ | ⟨_, rfl⟩
  · simp [Bare, Begins, isAsciiWhitespace]
  · simp [Bare, Begins]

end IntelliPrism.Plugins
