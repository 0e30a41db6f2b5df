import IntelliPrism.Manage.Calls

/-!
# Signed requests

How `ip-auth` establishes who a request is from: the account and the tenant it names are read, the
signature is checked against the tenant's key, and only then is its nonce spent, for that caller alone.
The digest is a parameter; nothing here depends on which one it is.

* `SignedRequest`, `nonceId` — what the four headers carry, and the cache entry its nonce is spent under;
* `verify`, `spend`, `authority` — the texts of `RequestVerifier`.
-/

namespace IntelliPrism.Auth

open IntelliPrism.Core IntelliPrism.Lib IntelliPrism.Cache IntelliPrism.Manage

/-- Where a call came from. -/
inductive IpAddr where
  | v4 (a b c d : UInt8)
  | v6 (bits : BitVec 128)
  deriving DecidableEq

/-- Whether an address is the machine's own. -/
def IpAddr.isLoopback : IpAddr → Bool
  | .v4 a _ _ _ => a == 127
  | .v6 bits => bits == 1

def nonceMinBytes : ℕ := 8

def nonceMaxBytes : ℕ := 128

/-- A nonce, which makes a signature single use.  The fields that are proofs are what `validate_nonce`
checks. -/
@[ext] structure Nonce where
  raw : String
  long : nonceMinBytes ≤ raw.utf8ByteSize
  short : raw.utf8ByteSize ≤ nonceMaxBytes
  graphic : raw.toList.find? (fun ch => !isAsciiGraphic ch) = none

instance : DecidableEq Nonce := fun _ _ => decidable_of_iff _ Nonce.ext_iff.symm

/-- What the four `X-Ip-*` headers carry. -/
structure SignedRequest where
  tenant : TenantId
  user : UserId
  nonce : Nonce
  signature : Bytes

/-- The ways authentication refuses. -/
inductive AuthError where
  | unknownUser (user : UserId)
  | unknownTenant (tenant : TenantId)
  | notAMember (user : UserId) (tenant : TenantId)
  | badSignature
  | adminOffLocalhost (origin : IpAddr)
  | spentNonce (nonce : Nonce)
  | loginRefused
  | sessionRejected
  | recheckRefused
  | recheckLocked
  | hashing
  | sessionIssue
  | random
  | storage (error : StorageError)
  | cache (error : CacheError)

/-- The id a nonce is spent under, which keeps one caller's nonce from burning another's. -/
def nonceId (request : SignedRequest) : String :=
  "nonce:" ++ request.tenant.raw ++ ":" ++ request.user.raw ++ ":" ++ request.nonce.raw

/-- The role an account kind and a standing add up to inside one tenant. -/
def roleOf (kind : AccountKind) (standing : Standing) (tenant : TenantId) : Role :=
  match kind, standing with
  | .systemAdministrator, _ => .sysAdmin
  | .regular, .owner => .tenantAdmin tenant
  | .regular, .member => .member

section Verifier

variable (sha256 : Bytes → Bytes) (nonceTtl : Ttl)

/-- The key of one user inside one tenant. -/
def utKey (user : UserId) (tnKey : TnKey) : Bytes := sha256 (bytesOf user.raw ++ tnKey.bytes)

/-- What an ordinary user signs a nonce with. -/
def signatureOfUser (key : Bytes) (nonce : Nonce) : Bytes := sha256 (key ++ bytesOf nonce.raw)

/-- What the tenant's owner may sign a nonce with instead. -/
def signatureOfTenantOwner (tnKey : TnKey) (nonce : Nonce) : Bytes :=
  sha256 (tnKey.bytes ++ bytesOf nonce.raw)

/-- Takes the nonce for this caller, refusing a request that spends it twice. -/
def spend (request : SignedRequest) : Action (Except AuthError Unit) :=
  match CacheKey.new .system (nonceId request) with
  | .error error => pure (.error (.cache error))
  | .ok key => do
    match ← ask (.claim key (some nonceTtl)) with
    | .error error => pure (.error (.cache error))
    | .ok false => pure (.error (.spentNonce request.nonce))
    | .ok true => pure (.ok ())

/-- Whether the signature is one that the stored key produces for this account. -/
def signs (user : User) (tenant : Tenant) (membership : Membership) (request : SignedRequest) : Bool :=
  let byUser := signatureOfUser sha256 (utKey sha256 user.id tenant.key) request.nonce == request.signature
  let byOwner := membership.standing == .owner &&
    signatureOfTenantOwner sha256 tenant.key request.nonce == request.signature
  byUser || byOwner

/-- Establishes who a request is from, or refuses it. -/
def verify (request : SignedRequest) (origin : IpAddr) : Action (Except AuthError Identity) := do
  match ← ask (.user request.user) with
  | .error error => pure (.error (.storage error))
  | .ok none => pure (.error (.unknownUser request.user))
  | .ok (some user) =>
    if user.kind = .systemAdministrator ∧ origin.isLoopback = false then
      pure (.error (.adminOffLocalhost origin))
    else
      -- The source waits for both reads before it looks at either.
      let tenant ← ask (.tenant request.tenant)
      let membership ← ask (.membership request.user request.tenant)
      match tenant, membership with
      | .error error, _ => pure (.error (.storage error))
      | .ok none, _ => pure (.error (.unknownTenant request.tenant))
      | .ok (some _), .error error => pure (.error (.storage error))
      | .ok (some _), .ok none => pure (.error (.notAMember request.user request.tenant))
      | .ok (some tenant), .ok (some membership) =>
        if signs sha256 user tenant membership request then
          match ← spend nonceTtl request with
          | .error error => pure (.error error)
          | .ok () =>
            pure (.ok ⟨user.id, tenant.id, roleOf user.kind membership.standing request.tenant⟩)
        else pure (.error .badSignature)

/-- Reads what an established identity was granted. -/
def authority (identity : Identity) : Action (Except AuthError Authority) := do
  match ← ask (.grantsOf identity.user) with
  | .error error => pure (.error (.storage error))
  | .ok grants => pure (.ok ⟨identity, grants⟩)

end Verifier

end IntelliPrism.Auth
