import IntelliPrism.Cache.Key

/-!
# What a request and a response are made of

The values of the `http` crate the gateway works on: names and values of headers with what their
constructors check, the map that holds them, and the parts of a request and of a response.

* `HeaderMap` — several values may stand under one name; `get` reads the first, `insert` leaves one;
* `Body` — the frames of a body, and `Body.collect`, what reading it to its end gives.
-/

namespace IntelliPrism.Gateway

open IntelliPrism.Lib IntelliPrism.Cache

/-! ### Headers -/

/-- The characters a header name is made of, once it is folded to lowercase. -/
def headerNameChar (c : Char) : Bool :=
  c.isLower || c.isDigit || "!#$%&'*+-.^_|~".toList.contains c || c.toNat == 0x60

/-- A header name, held in lowercase. -/
@[ext] structure HeaderName where
  raw : String
  nonempty : raw ≠ ""
  legal : raw.toList.all headerNameChar = true

instance : DecidableEq HeaderName := fun _ _ => decidable_of_iff _ HeaderName.ext_iff.symm

/-- `HeaderName::from_bytes`: a name in any case, or nothing when it is not one. -/
def HeaderName.fromText (text : String) : Option HeaderName :=
  let folded := text.map Char.toLower
  if hempty : folded = "" then none
  else if hlegal : folded.toList.all headerNameChar = true then some ⟨folded, hempty, hlegal⟩
  else none

/-- The bytes a header value is made of: everything visible, everything past ascii, and a tab. -/
def valueByte (b : UInt8) : Bool := (32 ≤ b && b != 127) || b == 9

/-- A header value. -/
@[ext] structure HeaderValue where
  bytes : Bytes
  legal : bytes.all valueByte = true

instance : DecidableEq HeaderValue := fun _ _ => decidable_of_iff _ HeaderValue.ext_iff.symm

/-- `HeaderValue::from_bytes`. -/
def HeaderValue.fromBytes (bytes : Bytes) : Option HeaderValue :=
  if h : bytes.all valueByte = true then some ⟨bytes, h⟩ else none

theorem HeaderValue.fromBytes_bytes (value : HeaderValue) : fromBytes value.bytes = some value := by
  rw [fromBytes, dif_pos value.legal]

/-- The bytes of a value that is read as text: visible ascii and tabs. -/
def textByte (b : UInt8) : Bool := (32 ≤ b && b < 127) || b == 9

/-- A byte as the character it is read as. -/
def byteChar (b : UInt8) : Char := Char.ofNat b.toNat

/-- `HeaderValue::to_str`: the value as text, when it holds visible ascii and tabs alone. -/
def HeaderValue.toStr (value : HeaderValue) : Option String :=
  if value.bytes.all textByte then some (String.ofList (value.bytes.map byteChar)) else none

/-- Header names with their values, those of one name in the order they were put. -/
structure HeaderMap where
  fields : List (HeaderName × HeaderValue)
  deriving DecidableEq

namespace HeaderMap

def empty : HeaderMap := ⟨[]⟩

def getAll (headers : HeaderMap) (name : HeaderName) : List HeaderValue :=
  (headers.fields.filter (·.1 == name)).map Prod.snd

def get (headers : HeaderMap) (name : HeaderName) : Option HeaderValue := (headers.getAll name).head?

def remove (headers : HeaderMap) (name : HeaderName) : HeaderMap :=
  ⟨headers.fields.filter (·.1 != name)⟩

/-- Puts one value under a name, in the place of every value it had. -/
def insert (headers : HeaderMap) (name : HeaderName) (value : HeaderValue) : HeaderMap :=
  ⟨(headers.remove name).fields ++ [(name, value)]⟩

theorem getAll_remove (headers : HeaderMap) (name other : HeaderName) :
    (headers.remove name).getAll other = if other = name then [] else headers.getAll other := by
  simp only [getAll, remove, List.filter_filter]
  split
  · rename_i h
    subst h
    have hnone : headers.fields.filter (fun field => field.1 == other && field.1 != other) = [] := by
      refine List.filter_eq_nil_iff.2 fun field _ => ?_
      by_cases hfield : field.1 = other <;> simp [hfield]
    rw [hnone, List.map_nil]
  · rename_i h
    refine congrArg (List.map Prod.snd) (List.filter_congr fun field _ => ?_)
    by_cases hfield : field.1 = other
    · simp [hfield, h]
    · simp [hfield]

/-- **An insert leaves one value** under its name, and every other name alone. -/
theorem getAll_insert (headers : HeaderMap) (name other : HeaderName) (value : HeaderValue) :
    (headers.insert name value).getAll other = if other = name then [value] else headers.getAll other := by
  have hsplit : (headers.insert name value).getAll other
      = (headers.remove name).getAll other ++ (if name = other then [value] else []) := by
    simp only [getAll, insert, List.filter_append, List.map_append]
    by_cases h : name = other <;> simp [h]
  rw [hsplit, getAll_remove]
  by_cases h : other = name
  · rw [if_pos h, if_pos h.symm, if_pos h, List.nil_append]
  · rw [if_neg h, if_neg (Ne.symm h), if_neg h, List.append_nil]

end HeaderMap

/-! ### Bodies, requests and responses -/

/-- Where a request goes: the parts of a uri. -/
structure Uri where
  scheme : Option String
  authority : Option String
  path : String
  query : Option String
  deriving DecidableEq

/-- How a plugin stops what it was given. -/
inductive ProcessorError where
  | refused (reason : String)
  | failed (detail : String)
  deriving Repr, DecidableEq

def ProcessorError.display : ProcessorError → String
  | .refused reason => "refused: " ++ reason
  | .failed detail => detail

/-- What a body stream fails with. -/
inductive BoxError where
  | stream (detail : String)
  | processor (error : ProcessorError)
  deriving Repr, DecidableEq

def BoxError.display : BoxError → String
  | .stream detail => detail
  | .processor error => error.display

/-- One frame of a body. -/
inductive Frame where
  | data (bytes : Bytes)
  | trailers (headers : HeaderMap)
  deriving DecidableEq

/-- A body, as polling it to its end gives it: frame after frame, until it is over or has failed. -/
abbrev Body := List (Except BoxError Frame)

def Body.fromBytes (bytes : Bytes) : Body := if bytes = [] then [] else [.ok (.data bytes)]

/-- The data of a body read to its end, or the failure it came to. -/
def Body.collect : Body → Except BoxError Bytes
  | [] => .ok []
  | .error error :: _ => .error error
  | .ok (.data bytes) :: body => (collect body).map (bytes ++ ·)
  | .ok (.trailers _) :: body => collect body

/-- A request part way through the dataflow. -/
structure HttpRequest where
  method : String
  uri : Uri
  headers : HeaderMap
  body : Body

/-- An answer part way through the dataflow. -/
structure HttpResponse where
  status : ℕ
  headers : HeaderMap
  body : Body

end IntelliPrism.Gateway
