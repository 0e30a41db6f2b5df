import IntelliPrism.Auth.Request
import IntelliPrism.Gateway.Limit

/-!
# The management handlers

The texts of the endpoints that manage tenants, accounts, members and grants, each as its source has it:
what it reads, in which order, what it refuses and in which words, and the one write it ends with.  A
handler is given its caller as a `Manager`, which the caller's own row is read for first.

* `Manager.allows` — whether a caller may do a thing, by role or by grant;
* `found` — what a caller may see of an account;
* `Request`, `serve` — the endpoints, and a request served from its caller's row to its answer.
-/

namespace IntelliPrism.Manage

open IntelliPrism.Core IntelliPrism.Lib IntelliPrism.Auth
open IntelliPrism.Gateway (acme alice)

/-! ### Answers -/

/-- The statuses the handlers answer with. -/
inductive Status where
  | ok
  | created
  | noContent
  | unauthorized
  | forbidden
  | notFound
  | conflict
  | unprocessableEntity
  | internalServerError
  deriving Repr, DecidableEq

/-- One tenant an account is in. -/
structure Attachment where
  tenant : String
  standing : String
  deriving Repr, DecidableEq

/-- What a handler answers: a status, alone, with a text or with one of the views. -/
inductive Reply where
  | status (status : Status)
  | text (status : Status) (text : String)
  | tenant (tenant : String) (createdAt : Timestamp)
  | createdTenant (tenant owner : String) (createdAt : Timestamp)
  | user (status : Status) (user kind : String) (createdAt : Timestamp) (tenants : List Attachment)
  | member (user standing : String)
  | detached (user tenant : String) (revoked : ℕ)
  deriving DecidableEq

/-- What a caller is told when the store refused a management request. -/
def storeRefusal (error : StorageError) : Reply :=
  match error with
  | .conflict _ _ | .inUse _ _ => .text .conflict error.display
  | .notFound _ _ => .status .notFound
  | .backend => .status .internalServerError

def standingName : Standing → String
  | .owner => "owner"
  | .member => "member"

def kindName : AccountKind → String
  | .systemAdministrator => "system_administrator"
  | .regular => "regular"

/-- The name the api spells a capability with. -/
def capabilityName : Capability → String
  | .tenantMgr => "tenant_mgr"
  | .userMgr => "user_mgr"
  | .apiAccess => "api_access"
  | .apiAdvMgr => "api_adv_mgr"
  | .limitMgr => "limit_mgr"
  | .sysAgent => "sys_agent"
  | .observer => "observer"

/-- Every capability, so a name can be read back into one. -/
def capabilities : List Capability :=
  [.tenantMgr, .userMgr, .apiAccess, .apiAdvMgr, .limitMgr, .sysAgent, .observer]

/-- The capability a name spells, if it spells one. -/
def capabilityNamed (name : String) : Option Capability :=
  capabilities.find? fun capability => capabilityName capability == name

def scopeKindDebug : ScopeKind → String
  | .user => "User"
  | .tenant => "Tenant"
  | .api => "Api"

/-- Pairs a capability with a scope of the shape it requires, or says why they do not fit. -/
def newGrant (capability : Capability) (scope : CapabilityScope) : Except String Grant :=
  if h : capability.scopeKind = scope.kind then .ok ⟨capability, scope, h⟩
  else .error (Store.capabilityDebug capability ++ " is scoped to " ++
    scopeKindDebug capability.scopeKind ++ ", not " ++ scopeKindDebug scope.kind)

theorem newGrant_scope {capability : Capability} {scope : CapabilityScope} {grant : Grant}
    (h : newGrant capability scope = .ok grant) : grant.scope = scope := by
  unfold newGrant at h
  split at h
  · cases h
    rfl
  · cases h

def passphraseMinBytes : ℕ := 12

def passphraseMaxBytes : ℕ := 1024

/-- Whether a passphrase is within the length policy. -/
def passphraseFits (raw : String) : Bool :=
  passphraseMinBytes ≤ raw.utf8ByteSize && raw.utf8ByteSize ≤ passphraseMaxBytes

/-! ### The caller -/

/-- A caller of the management api. -/
structure Manager where
  user : UserId
  kind : AccountKind
  deriving DecidableEq

def Manager.of (user : UserId) : Action (Except Status Manager) := do
  match ← ask (.user user) with
  | .error _ => pure (.error .internalServerError)
  | .ok none => pure (.error .unauthorized)
  | .ok (some stored) => pure (.ok ⟨stored.id, stored.kind⟩)

namespace Manager

variable (manager : Manager)

def isSystemAdministrator : Bool := manager.kind == .systemAdministrator

/-- Decides by the role and by the grants read for the caller. -/
def decideBy (role : Role) (capability : Capability) (scope : CapabilityScope) :
    Action (Except StorageError Bool) := do
  match ← ask (.grantsOf manager.user) with
  | .error error => pure (.error error)
  | .ok granted => pure (.ok (role.implies capability scope || granted.holds capability scope))

/-- Whether this caller may do `capability` at `scope`, by role or by explicit grant. -/
def allows (capability : Capability) (scope : CapabilityScope) : Action (Except StorageError Bool) :=
  if manager.isSystemAdministrator then pure (.ok true)
  else
    match scope.inside with
    | none => manager.decideBy .member capability scope
    | some tenant => do
      match ← ask (.membership manager.user tenant) with
      | .error error => pure (.error error)
      | .ok none => pure (.ok false)
      | .ok (some held) => manager.decideBy (roleOf manager.kind held.standing tenant) capability scope

/-- The only scope `TenantMgr` is asked for at. -/
def tenantMgrScope : CapabilityScope := .user manager.user

/-- `UserMgr` is held inside one tenant, so every question about it names one. -/
def userMgrScope (tenant : TenantId) : CapabilityScope := .tenant manager.user tenant

/-- Goes on when the caller may do the thing, and refuses it otherwise. -/
def unlessRefused (capability : Capability) (scope : CapabilityScope) (next : Action Reply) :
    Action Reply := do
  match ← manager.allows capability scope with
  | .ok true => next
  | .ok false => pure (.status .forbidden)
  | .error error => pure (storeRefusal error)

/-- Whether the caller administers the tenant: owns it, or is the system administrator. -/
def administers (tenant : TenantId) : Action (Except StorageError Bool) :=
  if manager.isSystemAdministrator then pure (.ok true)
  else do
    match ← ask (.membership manager.user tenant) with
    | .error error => pure (.error error)
    | .ok held => pure (.ok (held.any fun held => held.standing == .owner))

/-! ### Tenants -/

def createTenant (tenant owner passphrase : String) : Action Reply :=
  manager.unlessRefused .tenantMgr manager.tenantMgrScope <|
    match Ident.new .tenant tenant, Ident.new .user owner with
    | .ok tenant, .ok owner =>
      if passphraseFits passphrase then do
        let hashed ← ask (.hash passphrase)
        let drawn ← ask .generateKey
        match hashed, drawn with
        | some hashed, some drawn =>
          match ← ask (.createTenantWithOwner tenant drawn owner hashed) with
          | .ok (tenant, owner, _) =>
            pure (.createdTenant tenant.id.raw owner.id.raw tenant.createdAt)
          | .error error => pure (storeRefusal error)
        | _, _ => pure (.status .internalServerError)
      else pure (.status .unprocessableEntity)
    | _, _ => pure (.status .unprocessableEntity)

/-- Whether the caller may see one tenant at all, which being inside it is enough for. -/
def reaches (tenant : TenantId) : Action (Except StorageError Bool) := do
  match ← manager.allows .tenantMgr manager.tenantMgrScope with
  | .error error => pure (.error error)
  | .ok true => pure (.ok true)
  | .ok false =>
    match ← ask (.membership manager.user tenant) with
    | .error error => pure (.error error)
    | .ok held => pure (.ok held.isSome)

def readTenant (tenant : String) : Action Reply :=
  match Ident.new .tenant tenant with
  | .error _ => pure (.status .notFound)
  | .ok tenant => do
    match ← manager.reaches tenant with
    | .error error => pure (storeRefusal error)
    | .ok false => pure (.status .forbidden)
    | .ok true =>
      match ← ask (.tenant tenant) with
      | .error error => pure (storeRefusal error)
      | .ok none => pure (.status .notFound)
      | .ok (some tenant) => pure (.tenant tenant.id.raw tenant.createdAt)

def removeTenant (tenant : String) : Action Reply :=
  manager.unlessRefused .tenantMgr manager.tenantMgrScope <|
    match Ident.new .tenant tenant with
    | .error _ => pure (.status .notFound)
    | .ok tenant => do
      match ← ask (.deleteTenant tenant) with
      | .ok () => pure (.status .noContent)
      | .error error => pure (storeRefusal error)

/-! ### Accounts -/

/-- What one caller may be shown of one account, and how many attachments the account has in all. -/
structure Seen where
  shown : List Membership
  attached : ℕ

/-- The attachments in tenants the caller manages users of, found one by one. -/
def shownOf : List Membership → List Membership → Action (Except StorageError (List Membership))
  | [], shown => pure (.ok shown)
  | membership :: rest, shown => do
    match ← manager.allows .userMgr (manager.userMgrScope membership.tenant) with
    | .error error => pure (.error error)
    | .ok true => shownOf rest (shown ++ [membership])
    | .ok false => shownOf rest shown

/-- The account and what the caller may see of it, or nothing when it may see none of it. -/
def found (user : UserId) : Action (Except StorageError (Option (User × Seen))) := do
  match ← ask (.user user) with
  | .error error => pure (.error error)
  | .ok none => pure (.ok none)
  | .ok (some stored) =>
    match ← ask (.membershipsOfUser user) with
    | .error error => pure (.error error)
    | .ok attached =>
      if manager.isSystemAdministrator ∨ manager.user = user then
        pure (.ok (some (stored, ⟨attached, attached.length⟩)))
      else
        match ← manager.shownOf attached [] with
        | .error error => pure (.error error)
        | .ok [] => pure (.ok none)
        | .ok shown => pure (.ok (some (stored, ⟨shown, attached.length⟩)))

/-- One account with the attachments the caller may see. -/
def userView (status : Status) (user : User) (shown : List Membership) : Reply :=
  .user status user.id.raw (kindName user.kind) user.createdAt
    (shown.map fun m => ⟨m.tenant.raw, standingName m.standing⟩)

def createUser (user tenant passphrase : String) : Action Reply :=
  match Ident.new .user user, Ident.new .tenant tenant with
  | .ok user, .ok tenant =>
    manager.unlessRefused .userMgr (manager.userMgrScope tenant) <|
      if passphraseFits passphrase then do
        match ← ask (.hash passphrase) with
        | none => pure (.status .internalServerError)
        | some hashed =>
          match ← ask (.addMember user hashed tenant) with
          | .ok (user, membership) => pure (userView .created user [membership])
          | .error error => pure (storeRefusal error)
      else pure (.status .unprocessableEntity)
  | _, _ => pure (.status .unprocessableEntity)

def readUser (user : String) : Action Reply :=
  match Ident.new .user user with
  | .error _ => pure (.status .notFound)
  | .ok user => do
    match ← manager.found user with
    | .error error => pure (storeRefusal error)
    | .ok none => pure (.status .notFound)
    | .ok (some (stored, seen)) => pure (userView .ok stored seen.shown)

/-- The rest of a removal, once the account was found. -/
def removeFound (user : UserId) (stored : User) (seen : Seen) : Action Reply :=
  if stored.kind = .systemAdministrator then
    pure (.text .forbidden "a system administrator is not removed over the api")
  else if seen.shown.length ≠ seen.attached then
    pure (.text .forbidden "the account is in tenants the caller does not manage")
  else
    match seen.shown.find? fun m => m.standing == .owner with
    | some owned =>
      pure (.text .conflict ("the account owns " ++ owned.tenant.raw ++ ", which must go first"))
    | none => do
      match ← ask (.deleteUser user) with
      | .ok () => pure (.status .noContent)
      | .error error => pure (storeRefusal error)

def removeUser (user : String) : Action Reply :=
  match Ident.new .user user with
  | .error _ => pure (.status .notFound)
  | .ok user =>
    if manager.user = user then pure (.text .forbidden "an account does not remove itself")
    else do
      match ← manager.found user with
      | .error error => pure (storeRefusal error)
      | .ok none => pure (.status .notFound)
      | .ok (some (stored, seen)) => removeFound user stored seen

/-! ### Members -/

/-- Puts an account that was found into a tenant, as a member, unless it is in it already. -/
def attachFound (tenant : TenantId) (user : UserId) : Action Reply := do
  match ← ask (.membership user tenant) with
  | .error error => pure (storeRefusal error)
  | .ok (some held) =>
    if held.standing = .owner then pure (.text .conflict "the account owns this tenant")
    else pure (.status .noContent)
  | .ok none =>
    match ← ask (.attach ⟨user, tenant, .member⟩) with
    | .ok () => pure (.member user.raw (standingName .member))
    | .error error => pure (storeRefusal error)

def attach (tenant user : String) : Action Reply :=
  match Ident.new .tenant tenant, Ident.new .user user with
  | .ok tenant, .ok user =>
    manager.unlessRefused .userMgr (manager.userMgrScope tenant) do
      match ← ask (.user user) with
      | .error error => pure (storeRefusal error)
      | .ok none => pure (.status .notFound)
      | .ok (some account) =>
        if account.kind = .systemAdministrator then
          pure (.text .conflict "a system administrator holds every tenant already and joins none")
        else attachFound tenant user
  | _, _ => pure (.status .notFound)

def detach (tenant user : String) : Action Reply :=
  match Ident.new .tenant tenant, Ident.new .user user with
  | .ok tenant, .ok user =>
    manager.unlessRefused .userMgr (manager.userMgrScope tenant) do
      match ← ask (.membership user tenant) with
      | .error error => pure (storeRefusal error)
      | .ok none => pure (.status .notFound)
      | .ok (some held) =>
        if held.standing = .owner then pure (.text .conflict "an owner leaves only with its tenant")
        else
          match ← ask (.removeMember user tenant) with
          | .ok (membership, revoked) =>
            pure (.detached membership.user.raw membership.tenant.raw revoked)
          | .error error => pure (storeRefusal error)
  | _, _ => pure (.status .notFound)

/-! ### Grants -/

/-- Which grant a request names, before it is known whether the caller may touch it.  The grant is the
user's, inside the tenant. -/
structure Named where
  tenant : TenantId
  user : UserId
  grant : Grant
  owned : grant.scope.owner = user
  inside : grant.scope.inside = some tenant

/-- Puts the parts of a named grant together. -/
def namedAt (tenant : TenantId) (user : UserId) (capability : Capability) (api : Option ApiId) :
    Except Reply Named :=
  let scope := match api with
    | none => CapabilityScope.tenant user tenant
    | some api => .api user tenant api
  match h : newGrant capability scope with
  | .ok grant => .ok ⟨tenant, user, grant,
      by rw [newGrant_scope h]; cases api <;> rfl, by rw [newGrant_scope h]; cases api <;> rfl⟩
  | .error error => .error (.text .unprocessableEntity error)

/-- Reads the grant a path names, refusing one whose parts do not fit together. -/
def named (tenant user capability : String) (api : Option String) : Except Reply Named :=
  match Ident.new .tenant tenant, Ident.new .user user with
  | .ok tenant, .ok user =>
    match capabilityNamed capability with
    | none => .error (.status .notFound)
    | some capability =>
      match api with
      | none => namedAt tenant user capability none
      | some api =>
        match Ident.new .api api with
        | .ok api => namedAt tenant user capability (some api)
        | .error _ => .error (.status .notFound)
  | _, _ => .error (.status .notFound)

/-- What the member already holds inside the tenant, once the caller is known to administer it and the
member is known to be one grants mean something to. -/
def memberGrants (named : Named) : Action (Except Reply Grants) := do
  match ← manager.administers named.tenant with
  | .error error => pure (.error (storeRefusal error))
  | .ok false => pure (.error (.status .forbidden))
  | .ok true =>
    match ← ask (.membership named.user named.tenant) with
    | .error error => pure (.error (storeRefusal error))
    | .ok none => pure (.error (.status .notFound))
    | .ok (some held) =>
      if held.standing = .owner then
        pure (.error (.text .conflict "an owner holds every capability in its tenant already"))
      else
        match ← ask (.grantsInTenant named.user named.tenant) with
        | .error error => pure (.error (storeRefusal error))
        | .ok held => pure (.ok held)

/-- Records a grant for a member of the tenant, once its prerequisite is held. -/
def grant (named : Named) : Action Reply := do
  match ← manager.memberGrants named with
  | .error refusal => pure refusal
  | .ok held =>
    match named.grant.capability.prerequisite.filter fun prerequisite =>
        !held.holds prerequisite named.grant.scope with
    | some prerequisite =>
      pure (.text .conflict ("grant " ++ capabilityName prerequisite ++ " first"))
    | none =>
      match ← ask (.grant named.grant) with
      | .ok () => pure (.status .noContent)
      | .error error => pure (storeRefusal error)

/-- Removes a grant from a member of the tenant, once nothing held depends on it. -/
def revoke (named : Named) : Action Reply := do
  match ← manager.memberGrants named with
  | .error refusal => pure refusal
  | .ok held =>
    match held.held.find? fun other =>
        other.capability.prerequisite == some named.grant.capability &&
          other.scope == named.grant.scope with
    | some dependent =>
      pure (.text .conflict ("revoke " ++ capabilityName dependent.capability ++ " first"))
    | none =>
      match ← ask (.revoke named.grant) with
      | .ok () => pure (.status .noContent)
      | .error error => pure (storeRefusal error)

/-- Does one thing with a grant that a path names. -/
def withNamed (tenant user capability : String) (api : Option String) (next : Named → Action Reply) :
    Action Reply :=
  match named tenant user capability api with
  | .ok named => next named
  | .error refusal => pure refusal

/-- The account grant a path names, once the system administrator is the one asking and the account is
one a grant means something to. -/
def accountGrant (user capability : String) : Action (Except Reply Grant) :=
  if manager.isSystemAdministrator = false then pure (.error (.status .forbidden))
  else
    match Ident.new .user user, capabilityNamed capability with
    | .ok user, some capability =>
      match newGrant capability (.user user) with
      | .error error => pure (.error (.text .unprocessableEntity error))
      | .ok grant => do
        match ← ask (.user user) with
        | .error error => pure (.error (storeRefusal error))
        | .ok none => pure (.error (.status .notFound))
        | .ok (some account) =>
          if account.kind = .systemAdministrator then
            pure (.error (.text .conflict "a system administrator holds every capability already"))
          else pure (.ok grant)
    | _, _ => pure (.error (.status .notFound))

/-- Writes or removes an account grant, as the call says. -/
def onAccount (user capability : String) (call : Grant → Action (Except StorageError Unit)) :
    Action Reply := do
  match ← manager.accountGrant user capability with
  | .error refusal => pure refusal
  | .ok grant =>
    match ← call grant with
    | .ok () => pure (.status .noContent)
    | .error error => pure (storeRefusal error)

end Manager

/-! ### Requests -/

/-- The endpoints that manage tenants, accounts, members and grants, with what their path and body hold. -/
inductive Request where
  | createTenant (tenant owner passphrase : String)
  | readTenant (tenant : String)
  | removeTenant (tenant : String)
  | createUser (user tenant passphrase : String)
  | readUser (user : String)
  | removeUser (user : String)
  | attach (tenant user : String)
  | detach (tenant user : String)
  | grantInTenant (tenant user capability : String)
  | grantOnApi (tenant user capability api : String)
  | revokeInTenant (tenant user capability : String)
  | revokeOnApi (tenant user capability api : String)
  | grantOnAccount (user capability : String)
  | revokeOnAccount (user capability : String)
  deriving Repr, DecidableEq

def Request.handler (manager : Manager) : Request → Action Reply
  | .createTenant tenant owner passphrase => manager.createTenant tenant owner passphrase
  | .readTenant tenant => manager.readTenant tenant
  | .removeTenant tenant => manager.removeTenant tenant
  | .createUser user tenant passphrase => manager.createUser user tenant passphrase
  | .readUser user => manager.readUser user
  | .removeUser user => manager.removeUser user
  | .attach tenant user => manager.attach tenant user
  | .detach tenant user => manager.detach tenant user
  | .grantInTenant tenant user capability =>
    Manager.withNamed tenant user capability none manager.grant
  | .grantOnApi tenant user capability api =>
    Manager.withNamed tenant user capability (some api) manager.grant
  | .revokeInTenant tenant user capability =>
    Manager.withNamed tenant user capability none manager.revoke
  | .revokeOnApi tenant user capability api =>
    Manager.withNamed tenant user capability (some api) manager.revoke
  | .grantOnAccount user capability =>
    manager.onAccount user capability fun grant => ask (.grant grant)
  | .revokeOnAccount user capability =>
    manager.onAccount user capability fun grant => ask (.revoke grant)

/-- A request and who it was proved to come from. -/
structure Call where
  caller : UserId
  request : Request
  deriving DecidableEq

/-- A request served: the caller's row is read, and the handler runs. -/
def serve (call : Call) : Action Reply := do
  match ← Manager.of call.caller with
  | .error status => pure (.status status)
  | .ok manager => call.request.handler manager

/-- A store, and requests none of which has begun. -/
def waiting (s : Store) (calls : List Call) : Pool Store (Task Call Op Op.Res Reply) :=
  ⟨s, calls.map (Task.of serve)⟩

/-! ### Where the runs of the examples start -/

def root : UserId := ⟨"root", by decide, by decide, by decide⟩

/-- A store with one system administrator and nothing else. -/
def rootStore : Store where
  tenants := .empty
  users := ⟨[⟨root, ⟨"$argon2id$"⟩, .systemAdministrator, .epoch⟩], List.nodup_singleton _⟩
  memberships := .empty
  grants := .empty
  membershipsRefer := by intro m hm; cases hm
  grantsRefer := by intro g hg; cases hg

/-- A store with a system administrator, and a tenant with its owner. -/
def acmeStore : Store where
  tenants := ⟨[⟨acme, ⟨List.replicate 16 7, by decide⟩, .epoch⟩], List.nodup_singleton _⟩
  users := ⟨[⟨root, ⟨"$argon2id$"⟩, .systemAdministrator, .epoch⟩, ⟨alice, ⟨"$argon2id$"⟩, .regular, .epoch⟩],
    by decide⟩
  memberships := ⟨[⟨alice, acme, .owner⟩], List.nodup_singleton _⟩
  grants := .empty
  membershipsRefer := by
    intro m hm
    rw [List.mem_singleton.mp hm]
    exact ⟨⟨_, List.mem_cons_of_mem _ (List.mem_singleton_self _), rfl⟩, ⟨_, List.mem_singleton_self _, rfl⟩⟩
  grantsRefer := by intro g hg; cases hg

def turns (i n : ℕ) : List (ℕ × Option Supply) := List.replicate n (i, carriedOut)

end IntelliPrism.Manage
