import IntelliPrism.Core.Id

/-!
# Plugin rules

A plugin rule places one plugin in a chain, for every flow or for one tenant's.  The orders are split
between the two: the low ones belong to the plugins the system ships, the rest to the tenants.

* `Checksum.fromHex`, `PluginKind.fromStr` — a checksum and a kind as they are spelled;
* `checkOrder` — which orders a scope may use;
* `PluginRule` — a rule only ever has an order its scope may use;
* `PluginRule.new_self` — **a rule taken apart and rebuilt is the same rule**.
-/

namespace IntelliPrism.Core

def digestBytes : ℕ := 32

/-- The sha256 of a plugin's wasm, which is how a plugin is named and cached. -/
@[ext] structure Checksum where
  bytes : List UInt8
  full : bytes.length = digestBytes

instance : DecidableEq Checksum := fun _ _ => decidable_of_iff _ Checksum.ext_iff.symm

/-- The value of a hexadecimal digit, in either case. -/
def hexValue (c : Char) : Option ℕ :=
  if '0' ≤ c ∧ c ≤ '9' then some (c.toNat - '0'.toNat)
  else if 'a' ≤ c ∧ c ≤ 'f' then some (c.toNat - 'a'.toNat + 10)
  else if 'A' ≤ c ∧ c ≤ 'F' then some (c.toNat - 'A'.toNat + 10)
  else none

/-- The bytes that pairs of hexadecimal digits spell. -/
def hexDecode : List Char → Option (List UInt8)
  | [] => some []
  | [_] => none
  | high :: low :: rest => do
    let high ← hexValue high
    let low ← hexValue low
    let bytes ← hexDecode rest
    return UInt8.ofNat (high * 16 + low) :: bytes

/-- Parses the hex form a rule or a path carries.  What is wrong with it nobody is told. -/
def Checksum.fromHex (raw : String) : Option Checksum :=
  if raw.utf8ByteSize = digestBytes * 2 then do
    let bytes ← hexDecode raw.toList
    if full : bytes.length = digestBytes then some ⟨bytes, full⟩ else none
  else none

/-- Highest order reserved for the plugins the system ships. -/
def primaryOrderMax : UInt8 := 63

/-- Where a plugin sits in its chain. -/
structure PluginOrder where
  get : UInt8
  deriving Repr, DecidableEq

/-- Whether this order belongs to a plugin the system ships rather than a tenant's. -/
def PluginOrder.isPrimary (order : PluginOrder) : Bool := decide (order.get ≤ primaryOrderMax)

/-- Where in the dataflow a plugin runs. -/
inductive PluginKind where
  | reqHeader
  | reqBody
  | respHeader
  | respBody
  | respChunk
  deriving Repr, DecidableEq

/-- The kind's name, as a stored row holds it. -/
def PluginKind.name : PluginKind → String
  | .reqHeader => "req_header"
  | .reqBody => "req_body"
  | .respHeader => "resp_header"
  | .respBody => "resp_body"
  | .respChunk => "resp_chunk"

def PluginKind.fromStr (raw : String) : Option PluginKind :=
  match raw with
  | "req_header" => some .reqHeader
  | "req_body" => some .reqBody
  | "resp_header" => some .respHeader
  | "resp_body" => some .respBody
  | "resp_chunk" => some .respChunk
  | _ => none

/-- Who a plugin rule applies to. -/
inductive PluginScope where
  | global
  | tenant (tenant : TenantId) (user : Option UserId) (api : Option ApiId)
  deriving DecidableEq

namespace PluginScope

/-- The scope's name, as it appears in errors. -/
def name : PluginScope → String
  | .global => "global"
  | .tenant _ _ _ => "tenant"

def isGlobal : PluginScope → Bool
  | .global => true
  | .tenant _ _ _ => false

/-- The tenant the rule belongs to, when it belongs to one. -/
def tenant? : PluginScope → Option TenantId
  | .global => none
  | .tenant owner _ _ => some owner

/-- Whether a request by this user in this tenant, routed to this api, falls inside. -/
def contains (scope : PluginScope) (tenant : TenantId) (user : UserId) (api : ApiId) : Bool :=
  match scope with
  | .global => true
  | .tenant owner onlyUser onlyApi =>
    owner == tenant && onlyUser.all (· == user) && onlyApi.all (· == api)

end PluginScope

/-- Refuses an order the scope may not use: primary orders are global, the rest are a tenant's. -/
def checkOrder (order : PluginOrder) (scope : PluginScope) : Except CoreError Unit :=
  if order.isPrimary = scope.isGlobal then .ok ()
  else .error (.orderOutOfScope order.get scope.name)

/-- A plugin placed in a chain.  The field that is a proof is what `check_order` checks. -/
@[ext] structure PluginRule where
  checksum : Checksum
  kind : PluginKind
  order : PluginOrder
  scope : PluginScope
  checked : checkOrder order scope = .ok ()

instance : DecidableEq PluginRule := fun _ _ => decidable_of_iff _ PluginRule.ext_iff.symm

/-- Whether this rule joins the chain of a request by this user, routed to this api. -/
def PluginRule.appliesTo (rule : PluginRule) (tenant : TenantId) (user : UserId) (api : ApiId) : Bool :=
  rule.scope.contains tenant user api

/-- A plugin about to be placed in a chain, of the kind its wasm turns out to be stored as. -/
structure NewPluginRule where
  checksum : Checksum
  order : PluginOrder
  scope : PluginScope
  checked : checkOrder order scope = .ok ()

/-- Builds a rule to place, refusing an order its scope may not use. -/
def NewPluginRule.new (checksum : Checksum) (order : PluginOrder) (scope : PluginScope) :
    Except CoreError NewPluginRule :=
  match h : checkOrder order scope with
  | .error error => .error error
  | .ok () => .ok ⟨checksum, order, scope, h⟩

/-- Completes the rule with the kind the stored plugin was written as. -/
def NewPluginRule.withKind (rule : NewPluginRule) (kind : PluginKind) : PluginRule :=
  ⟨rule.checksum, kind, rule.order, rule.scope, rule.checked⟩

/-- Rebuilds a rule from its parts, refusing an order its scope may not use. -/
def PluginRule.new (checksum : Checksum) (kind : PluginKind) (order : PluginOrder)
    (scope : PluginScope) : Except CoreError PluginRule :=
  match h : checkOrder order scope with
  | .error error => .error error
  | .ok () => .ok ⟨checksum, kind, order, scope, h⟩

/-- **A rule taken apart and rebuilt is the same rule.** -/
theorem PluginRule.new_self (rule : PluginRule) :
    PluginRule.new rule.checksum rule.kind rule.order rule.scope = .ok rule := by
  unfold PluginRule.new
  split
  · rename_i error herror
    rw [rule.checked] at herror
    cases herror
  · rfl

end IntelliPrism.Core
