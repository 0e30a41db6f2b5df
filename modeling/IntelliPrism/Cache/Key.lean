import IntelliPrism.Lib.Word64

/-!
# What a cache is asked with: keys, level limits and ttls

The value types of `ip-cache`, each carrying what its constructor checks, so that a key no backend
could hold, a limit of no bytes or a ttl of no time cannot be built.

* `CacheKey` — an id in one level, spelled `ip:<level>:<id>`; `CacheKey.new` is the only way in;
* `CacheKey.spells_bytes` — **the spelling tells the level**: the bytes of a key begin with the
  spelling of its own level and of no other, which is what lets one tree hold all three levels;
* `CacheKey.bytes_injective` — two keys stored under the same bytes are the same key;
* `LevelLimits`, `Ttl` — how much a level may hold, and how long an entry may stay.
-/

namespace IntelliPrism.Cache

open IntelliPrism.Lib

/-- The ways a cache call fails. -/
inductive CacheError where
  | emptyKey
  | unusableKey (id : String)
  | zeroLimit
  | zeroTtl
  | malformedPublication (detail : String)
  | malformedCount (detail : String)
  | backend
  deriving Repr, DecidableEq

/-! ### Keys -/

/-- Which cache an entry belongs to. -/
inductive CacheLevel where
  | response
  | semantic
  | system
  deriving Repr, DecidableEq

/-- The word every key of this level carries. -/
def CacheLevel.asStr : CacheLevel → String
  | .response => "resp"
  | .semantic => "sem"
  | .system => "sys"

/-- `char::is_whitespace`: the characters with the Unicode property White_Space. -/
def isWhitespace (c : Char) : Bool :=
  let n := c.toNat
  (9 ≤ n && n ≤ 13) || n == 0x20 || n == 0x85 || n == 0xA0 || n == 0x1680 ||
    (0x2000 ≤ n && n ≤ 0x200A) || n == 0x2028 || n == 0x2029 || n == 0x202F || n == 0x205F ||
    n == 0x3000

/-- `char::is_control`: the characters in the Unicode category Cc. -/
def isControl (c : Char) : Bool :=
  let n := c.toNat
  n < 0x20 || (0x7F ≤ n && n ≤ 0x9F)

/-- A key in one cache level.  The two fields that are proofs are what `CacheKey::new` checks. -/
@[ext] structure CacheKey where
  level : CacheLevel
  id : String
  nonempty : id ≠ ""
  usable : id.toList.any (fun c => isWhitespace c || isControl c) = false

instance : DecidableEq CacheKey := fun _ _ => decidable_of_iff _ CacheKey.ext_iff.symm

/-- Names an entry in a level, refusing an id a backend could not carry. -/
def CacheKey.new (level : CacheLevel) (id : String) : Except CacheError CacheKey :=
  if hempty : id = "" then .error .emptyKey
  else if husable : id.toList.any (fun c => isWhitespace c || isControl c) = false then
    .ok ⟨level, id, hempty, husable⟩
  else .error (.unusableKey id)

theorem CacheKey.level_of_new {level : CacheLevel} {id : String} {key : CacheKey}
    (h : CacheKey.new level id = .ok key) : key.level = level := by
  unfold CacheKey.new at h
  split_ifs at h
  obtain rfl := Except.ok.inj h
  rfl

def CacheKey.asStr (key : CacheKey) : String := "ip:" ++ key.level.asStr ++ ":" ++ key.id

/-- The bytes of a string, as `str::as_bytes` gives them. -/
def bytesOf (s : String) : Bytes := s.toByteArray.data.toList

/-- The key as the bytes a sled tree is asked with. -/
def CacheKey.bytes (key : CacheKey) : Bytes := bytesOf key.asStr

theorem bytesOf_append (s t : String) : bytesOf (s ++ t) = bytesOf s ++ bytesOf t := by
  simp only [bytesOf, String.toByteArray_append, ByteArray.data_append, Array.toList_append]

theorem bytesOf_injective : Function.Injective bytesOf := by
  intro s t h
  exact String.toByteArray_inj.mp (ByteArray.ext (Array.toList_inj.mp h))

/-- What the bytes of every key of a level begin with. -/
def CacheLevel.spelling (level : CacheLevel) : Bytes := bytesOf ("ip:" ++ level.asStr ++ ":")

/-- Whether a string of bytes is spelled as a key of this level. -/
def CacheLevel.spells (level : CacheLevel) (key : Bytes) : Bool := level.spelling.isPrefixOf key

theorem CacheKey.bytes_eq (key : CacheKey) : key.bytes = key.level.spelling ++ bytesOf key.id :=
  bytesOf_append _ _

/-- No level's spelling begins another's: after `ip:` the levels part at once. -/
theorem CacheLevel.spells_spelling_append (level other : CacheLevel) (rest : Bytes) :
    level.spells (other.spelling ++ rest) = decide (level = other) := by
  have hresp : CacheLevel.response.spelling = [105, 112, 58, 114, 101, 115, 112, 58] := by decide
  have hsem : CacheLevel.semantic.spelling = [105, 112, 58, 115, 101, 109, 58] := by decide
  have hsys : CacheLevel.system.spelling = [105, 112, 58, 115, 121, 115, 58] := by decide
  cases level <;> cases other <;> simp [CacheLevel.spells, hresp, hsem, hsys, List.isPrefixOf]

/-- **The spelling tells the level.** -/
theorem CacheKey.spells_bytes (level : CacheLevel) (key : CacheKey) :
    level.spells key.bytes = decide (level = key.level) := by
  rw [key.bytes_eq, CacheLevel.spells_spelling_append]

theorem CacheKey.bytes_injective : Function.Injective CacheKey.bytes := by
  intro a b h
  have hlevel : a.level = b.level := by
    have := CacheKey.spells_bytes a.level a
    rw [h, CacheKey.spells_bytes] at this
    simpa using this
  have hid : a.id = b.id := by
    rw [a.bytes_eq, b.bytes_eq, hlevel] at h
    exact bytesOf_injective (List.append_cancel_left h)
  exact CacheKey.ext hlevel hid

/-! ### Level limits -/

/-- How many bytes one cache level may hold, never none. -/
structure MaxBytes where
  get : UInt64
  nonzero : get ≠ 0
  deriving DecidableEq

/-- Wraps a limit, refusing one that leaves room for nothing. -/
def MaxBytes.new (bytes : UInt64) : Except CacheError MaxBytes :=
  if h : bytes = 0 then .error .zeroLimit else .ok ⟨bytes, h⟩

/-- What each level may hold before its least recently used entries go. -/
structure LevelLimits where
  response : Option MaxBytes := none
  semantic : Option MaxBytes := none
  system : Option MaxBytes := none
  deriving DecidableEq

def LevelLimits.none : LevelLimits := {}

/-- What this level may hold, if anything limits it. -/
def LevelLimits.of (limits : LevelLimits) : CacheLevel → Option MaxBytes
  | .response => limits.response
  | .semantic => limits.semantic
  | .system => limits.system

/-- Whether any level is limited at all. -/
def LevelLimits.any (limits : LevelLimits) : Bool :=
  limits.response.isSome || limits.semantic.isSome || limits.system.isSome

theorem LevelLimits.of_eq_none {limits : LevelLimits} (h : limits.any = false) (level : CacheLevel) :
    limits.of level = Option.none := by
  simp only [LevelLimits.any, Bool.or_eq_false_iff, Option.isSome_eq_false_iff,
    Option.isNone_iff_eq_none] at h
  cases level
  · exact h.1.1
  · exact h.1.2
  · exact h.2

/-! ### Ttls -/

/-- How long an entry stays before the cache drops it, to the nanosecond and never no time. -/
@[ext] structure Ttl where
  nanos : ℕ
  nonzero : nanos ≠ 0

instance : DecidableEq Ttl := fun _ _ => decidable_of_iff _ Ttl.ext_iff.symm

/-- Wraps a span, refusing one that would expire on arrival. -/
def Ttl.new (nanos : ℕ) : Except CacheError Ttl :=
  if h : nanos = 0 then .error .zeroTtl else .ok ⟨nanos, h⟩

/-- The span in whole milliseconds, as `Duration::as_millis` rounds it: down. -/
def Ttl.millis (ttl : Ttl) : ℕ := ttl.nanos / 1000000

end IntelliPrism.Cache
