import IntelliPrism.Core.Id

/-!
# Capabilities, grants and roles

What a caller may do, as `ip-core` and `ip-auth` decide it: a capability is held at a scope, by what the
caller's role implies or by an explicit grant, and never at a scope of another user or another tenant.

* `Grants.holds`, `Role.implies` — the two ways a capability is held;
* `Authority.allows` — the decision.
-/

namespace IntelliPrism.Core

/-- A capability a subject may hold. -/
inductive Capability where
  | tenantMgr
  | userMgr
  | apiAccess
  | apiAdvMgr
  | limitMgr
  | sysAgent
  | observer
  deriving Repr, DecidableEq

/-- The tuple shape a capability is scoped by. -/
inductive ScopeKind where
  | user
  | tenant
  | api
  deriving Repr, DecidableEq

/-- The scope shape this capability must be granted at. -/
def Capability.scopeKind : Capability → ScopeKind
  | .tenantMgr => .user
  | .userMgr | .sysAgent | .observer => .tenant
  | .apiAccess | .apiAdvMgr | .limitMgr => .api

/-- A capability that only exists while its prerequisite is held at the same scope. -/
def Capability.prerequisite : Capability → Option Capability
  | .apiAdvMgr | .limitMgr => some .apiAccess
  | _ => none

/-- The subject and range one grant applies to. -/
inductive CapabilityScope where
  | user (user : UserId)
  | tenant (user : UserId) (tenant : TenantId)
  | api (user : UserId) (tenant : TenantId) (api : ApiId)
  deriving DecidableEq

namespace CapabilityScope

def kind : CapabilityScope → ScopeKind
  | .user _ => .user
  | .tenant _ _ => .tenant
  | .api _ _ _ => .api

def owner : CapabilityScope → UserId
  | .user subject | .tenant subject _ | .api subject _ _ => subject

/-- The tenant a scope sits inside, if any. -/
def inside : CapabilityScope → Option TenantId
  | .user _ => none
  | .tenant _ held | .api _ held _ => some held

end CapabilityScope

/-- One capability held at one scope, of the shape the capability asks for. -/
@[ext] structure Grant where
  capability : Capability
  scope : CapabilityScope
  shaped : capability.scopeKind = scope.kind

instance : DecidableEq Grant := fun _ _ => decidable_of_iff _ Grant.ext_iff.symm

/-- Everything explicitly granted to one subject. -/
structure Grants where
  held : List Grant

/-- Whether a capability itself is granted at a scope. -/
def Grants.granted (grants : Grants) (capability : Capability) (scope : CapabilityScope) : Bool :=
  grants.held.any fun grant => grant.capability == capability && grant.scope == scope

/-- Whether the capability is held at this scope, prerequisite included. -/
def Grants.holds (grants : Grants) (capability : Capability) (scope : CapabilityScope) : Bool :=
  if capability.scopeKind ≠ scope.kind then false
  else if capability.prerequisite.any fun prerequisite => !grants.granted prerequisite scope then false
  else grants.granted capability scope

/-- The standing a subject has before any explicit grant. -/
inductive Role where
  | sysAdmin
  | tenantAdmin (owned : TenantId)
  | member
  deriving DecidableEq

/-- Capabilities a role carries on its own. -/
def Role.implies (role : Role) (capability : Capability) (scope : CapabilityScope) : Bool :=
  match role with
  | .sysAdmin => capability.scopeKind == scope.kind
  | .tenantAdmin owned =>
    capability != .tenantMgr && capability.scopeKind == scope.kind && scope.inside == some owned
  | .member => false

/-- Who a verified request is from. -/
structure Identity where
  user : UserId
  tenant : TenantId
  role : Role
  deriving DecidableEq

/-- An identity together with everything it was granted. -/
structure Authority where
  identity : Identity
  grants : Grants

/-- Whether this request may do the thing, by role or by explicit grant. -/
def Authority.allows (authority : Authority) (capability : Capability) (scope : CapabilityScope) : Bool :=
  if scope.owner ≠ authority.identity.user then false
  else if scope.inside.any (· != authority.identity.tenant) then false
  else authority.identity.role.implies capability scope || authority.grants.holds capability scope

end IntelliPrism.Core
