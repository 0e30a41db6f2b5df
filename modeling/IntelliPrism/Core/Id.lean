import Mathlib.Data.Int.Notation
import Mathlib.Data.Nat.Notation

/-!
# Identifiers

The ids of `ip-core`: one kind of value under four names, each checked by `validate_id` as it is made.
An `Ident` carries what was checked, so whatever is built from ids needs no check of its own.
-/

namespace IntelliPrism.Core

/-- The ways a value of the core is refused. -/
inductive CoreError where
  | empty (kind : String)
  | tooLong (kind : String) (len max : ℕ)
  | illegalChar (kind : String) (ch : Char)
  | mustStartWith (kind : String) (expected : Char)
  | zeroPort
  | noEndpoint
  | orderOutOfScope (order : UInt8) (scope : String)
  | timestamp (seconds : ℤ)
  deriving Repr, DecidableEq

/-- `char::is_ascii_graphic`. -/
def isAsciiGraphic (ch : Char) : Bool := 0x21 ≤ ch.toNat && ch.toNat ≤ 0x7E

/-- What an id identifies. -/
inductive IdKind where
  | tenant
  | user
  | api
  | turn
  deriving Repr, DecidableEq

/-- Name of a kind, as it appears in errors. -/
def IdKind.name : IdKind → String
  | .tenant => "tenant id"
  | .user => "user id"
  | .api => "api id"
  | .turn => "turn id"

def idMaxBytes : ℕ := 64

def idChar (ch : Char) : Bool := ch.isAlphanum || ch == '-' || ch == '_' || ch == '.'

/-- An identifier.  The fields that are proofs are what `validate_id` checks. -/
@[ext] structure Ident (kind : IdKind) where
  raw : String
  nonempty : raw ≠ ""
  short : raw.utf8ByteSize ≤ idMaxBytes
  legal : raw.toList.find? (fun ch => !idChar ch) = none

instance {kind : IdKind} : DecidableEq (Ident kind) := fun _ _ => decidable_of_iff _ Ident.ext_iff.symm

/-- Validates and wraps a raw identifier. -/
def Ident.new (kind : IdKind) (raw : String) : Except CoreError (Ident kind) :=
  if hempty : raw = "" then .error (.empty kind.name)
  else if hlong : raw.utf8ByteSize > idMaxBytes then
    .error (.tooLong kind.name raw.utf8ByteSize idMaxBytes)
  else
    match hlegal : raw.toList.find? (fun ch => !idChar ch) with
    | some ch => .error (.illegalChar kind.name ch)
    | none => .ok ⟨raw, hempty, Nat.not_lt.mp hlong, hlegal⟩

theorem Ident.new_raw {kind : IdKind} (id : Ident kind) : Ident.new kind id.raw = .ok id := by
  rw [Ident.new, dif_neg id.nonempty, dif_neg (Nat.not_lt.mpr id.short)]
  split
  · rename_i ch hfound
    rw [id.legal] at hfound
    cases hfound
  · rfl

abbrev TenantId := Ident .tenant

abbrev UserId := Ident .user

abbrev ApiId := Ident .api

theorem Ident.idChar_of_mem {kind : IdKind} (id : Ident kind) {ch : Char} (h : ch ∈ id.raw.toList) :
    idChar ch = true := by
  have := List.find?_eq_none.mp id.legal ch h
  simpa using this

theorem Ident.colon_notMem {kind : IdKind} (id : Ident kind) : ':' ∉ id.raw.toList := fun hmem =>
  absurd (id.idChar_of_mem hmem) (by decide)

end IntelliPrism.Core
