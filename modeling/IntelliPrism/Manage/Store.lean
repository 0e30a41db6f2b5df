import Mathlib.Data.List.Sort
import IntelliPrism.Core.Capability
import IntelliPrism.Core.Timestamp
import IntelliPrism.Lib.Fallible
import IntelliPrism.Lib.Table

/-!
# Tenants, accounts, memberships and grants

The identity tables of `ip-storage`, keyed by the ids the rest of the server names their rows by.  A
`Store` carries what the schema enforces: the unique indexes, in its tables, and the foreign keys, as its
last two fields.  Each statement of the source is one function, and each transaction is the statements it
runs in order, of which a failure leaves nothing behind.

* `insertTenant`, `insertUser`, `insertMembership`, `deleteMembership`, `deleteGrantsInTenant` — the
  statements a transaction shares with the pool;
* `createTenantWithOwner`, `addMember`, `removeMember` — the transactions;
* `deleteTenant`, `deleteUser` — deletions, with what the schema cascades away;
* `…_ok` — what each of them leaves in every table.
-/

namespace IntelliPrism.Manage

open IntelliPrism.Core IntelliPrism.Lib

/-! ### What is stored -/

/-- What a storage error is about. -/
inductive Entity where
  | tenant
  | user
  | membership
  | grant
  | plugin
  | pluginRule
  deriving Repr, DecidableEq

/-- The entity's name, as it appears in errors. -/
def Entity.name : Entity → String
  | .tenant => "tenant"
  | .user => "user"
  | .membership => "membership"
  | .grant => "grant"
  | .plugin => "plugin"
  | .pluginRule => "plugin rule"

/-- The ways a storage call fails. -/
inductive StorageError where
  | notFound (entity : Entity) (id : String)
  | conflict (entity : Entity) (id : String)
  | inUse (entity : Entity) (id : String)
  | backend
  deriving Repr, DecidableEq

def StorageError.display : StorageError → String
  | .notFound entity id => "no such " ++ entity.name ++ ": " ++ id
  | .conflict entity id => entity.name ++ " already exists: " ++ id
  | .inUse entity id => entity.name ++ " is still in use: " ++ id
  | .backend => "storage backend failed"

def tnKeyBytes : ℕ := 16

/-- Root secret of a tenant. -/
@[ext] structure TnKey where
  bytes : List UInt8
  full : bytes.length = tnKeyBytes

instance : DecidableEq TnKey := fun _ _ => decidable_of_iff _ TnKey.ext_iff.symm

/-- Verifier of a passphrase, as the hasher wants it back. -/
structure PassphraseHash where
  phc : String
  deriving Repr, DecidableEq

/-- A tenant as it is stored. -/
structure Tenant where
  id : TenantId
  key : TnKey
  createdAt : Timestamp
  deriving DecidableEq

/-- Whether an account is the system administrator or an ordinary user. -/
inductive AccountKind where
  | systemAdministrator
  | regular
  deriving Repr, DecidableEq

/-- A user as it is stored. -/
structure User where
  id : UserId
  passphrase : PassphraseHash
  kind : AccountKind
  createdAt : Timestamp
  deriving DecidableEq

/-- What a user is within one tenant. -/
inductive Standing where
  | owner
  | member
  deriving Repr, DecidableEq

/-- One user's attachment to one tenant. -/
structure Membership where
  user : UserId
  tenant : TenantId
  standing : Standing
  deriving DecidableEq

def Membership.key (m : Membership) : UserId × TenantId := (m.user, m.tenant)

/-- What grants are unique by: all they are. -/
def grantKey (grant : Grant) : Grant := grant

/-- The identity tables.  The last fields are the foreign keys of the schema. -/
structure Store where
  tenants : Table Tenant.id
  users : Table User.id
  memberships : Table Membership.key
  grants : Table grantKey
  membershipsRefer : ∀ m ∈ memberships.rows, users.Has m.user ∧ tenants.Has m.tenant
  grantsRefer : ∀ g ∈ grants.rows, users.Has g.scope.owner ∧
    ∀ tenant, g.scope.inside = some tenant → tenants.Has tenant

namespace Store

variable (s : Store)

/-! ### Reads -/

def user (id : UserId) : Option User := s.users.find id

def tenant (id : TenantId) : Option Tenant := s.tenants.find id

def membership (user : UserId) (tenant : TenantId) : Option Membership :=
  s.memberships.find (user, tenant)

/-- The attachments of a user, in the order of the tenants' ids. -/
def membershipsOfUser (user : UserId) : List Membership :=
  (s.memberships.rows.filter fun m => m.user = user).insertionSort fun a b =>
    a.tenant.raw ≤ b.tenant.raw

def grantsOf (user : UserId) : Grants := ⟨s.grants.rows.filter fun g => g.scope.owner = user⟩

/-- Whether a grant is held by this user inside this tenant. -/
def heldInside (user : UserId) (tenant : TenantId) (grant : Grant) : Bool :=
  grant.scope.owner = user && grant.scope.inside = some tenant

def grantsInTenant (user : UserId) (tenant : TenantId) : Grants :=
  ⟨s.grants.rows.filter (heldInside user tenant)⟩

variable {s}

theorem membership_eq_some {user : UserId} {tenant : TenantId} {m : Membership} :
    s.membership user tenant = some m ↔ m ∈ s.memberships.rows ∧ m.user = user ∧ m.tenant = tenant := by
  rw [membership, Table.find_eq_some, Membership.key, Prod.mk.injEq]

/-- An account is attached to a tenant, in whatever standing. -/
def Member (s : Store) (user : UserId) (tenant : TenantId) : Prop :=
  ∃ m ∈ s.memberships.rows, m.user = user ∧ m.tenant = tenant

theorem member_of_membership {user : UserId} {tenant : TenantId} {held : Membership}
    (h : s.membership user tenant = some held) : s.Member user tenant :=
  ⟨held, membership_eq_some.mp h⟩

theorem mem_membershipsOfUser {user : UserId} {m : Membership} :
    m ∈ s.membershipsOfUser user ↔ m ∈ s.memberships.rows ∧ m.user = user := by
  simp [membershipsOfUser]

theorem mem_grantsOf {user : UserId} {g : Grant} :
    g ∈ (s.grantsOf user).held ↔ g ∈ s.grants.rows ∧ g.scope.owner = user := by
  simp [grantsOf]

theorem heldInside_iff {user : UserId} {tenant : TenantId} {g : Grant} :
    heldInside user tenant g = true ↔ g.scope.owner = user ∧ g.scope.inside = some tenant := by
  simp [heldInside]

/-! ### Statements -/

def insertTenant (s : Store) (new : Tenant) : Except StorageError Store :=
  match h : s.tenants.insert new with
  | none => .error (.conflict .tenant new.id.raw)
  | some tenants => .ok
    { s with
      tenants
      membershipsRefer := fun m hm =>
        ⟨(s.membershipsRefer m hm).1, Table.has_insert h (s.membershipsRefer m hm).2⟩
      grantsRefer := fun g hg =>
        ⟨(s.grantsRefer g hg).1, fun t ht => Table.has_insert h ((s.grantsRefer g hg).2 t ht)⟩ }

def insertUser (s : Store) (new : User) : Except StorageError Store :=
  match h : s.users.insert new with
  | none => .error (.conflict .user new.id.raw)
  | some users => .ok
    { s with
      users
      membershipsRefer := fun m hm =>
        ⟨Table.has_insert h (s.membershipsRefer m hm).1, (s.membershipsRefer m hm).2⟩
      grantsRefer := fun g hg =>
        ⟨Table.has_insert h (s.grantsRefer g hg).1, (s.grantsRefer g hg).2⟩ }

/-- Attaches a user to a tenant, or gives the attachment it has another standing. -/
def insertMembership (s : Store) (new : Membership) : Except StorageError Store :=
  if ht : s.tenants.Has new.tenant then
    if hu : s.users.Has new.user then .ok
      { s with
        memberships := s.memberships.upsert new
        membershipsRefer := by
          intro m hm
          rcases Table.mem_upsert.mp hm with rfl | hm
          · exact ⟨hu, ht⟩
          · exact s.membershipsRefer m hm.1 }
    else .error (.notFound .user new.user.raw)
  else .error (.notFound .tenant new.tenant.raw)

/-- Detaches a user from a tenant, handing back the attachment that was there. -/
def deleteMembership (s : Store) (user : UserId) (tenant : TenantId) :
    Except StorageError (Store × Membership) :=
  match s.membership user tenant with
  | none => .error (.notFound .membership (user.raw ++ "@" ++ tenant.raw))
  | some held => .ok
    ({ s with
      memberships := s.memberships.keep fun m => m.key != (user, tenant)
      membershipsRefer := fun m hm => s.membershipsRefer m (Table.mem_keep.mp hm).1 }, held)

/-- Revokes every grant one user holds inside one tenant, reporting how many it held. -/
def deleteGrantsInTenant (s : Store) (user : UserId) (tenant : TenantId) : Store × ℕ :=
  ({ s with
    grants := s.grants.keep fun g => !heldInside user tenant g
    grantsRefer := fun g hg => s.grantsRefer g (Table.mem_keep.mp hg).1 },
    s.grants.rows.countP (heldInside user tenant))

/-- Deletes a tenant row, and with it every attachment and grant that names it. -/
def deleteTenant (s : Store) (id : TenantId) : Except StorageError Store :=
  if s.tenants.Has id then .ok
    { s with
      tenants := s.tenants.keep fun t => t.id != id
      memberships := s.memberships.keep fun m => m.tenant != id
      grants := s.grants.keep fun g => g.scope.inside != some id
      membershipsRefer := by
        intro m hm
        obtain ⟨hm, hne⟩ := Table.mem_keep.mp hm
        exact ⟨(s.membershipsRefer m hm).1, Table.has_keep_ne (s.membershipsRefer m hm).2
          (by simpa using hne)⟩
      grantsRefer := by
        intro g hg
        obtain ⟨hg, hne⟩ := Table.mem_keep.mp hg
        refine ⟨(s.grantsRefer g hg).1, fun t ht =>
          Table.has_keep_ne ((s.grantsRefer g hg).2 t ht) ?_⟩
        intro heq
        rw [ht, heq] at hne
        simp at hne }
  else .error (.notFound .tenant id.raw)

/-- Deletes a user row, and with it every attachment and grant that names it. -/
def deleteUser (s : Store) (id : UserId) : Except StorageError Store :=
  if s.users.Has id then .ok
    { s with
      users := s.users.keep fun u => u.id != id
      memberships := s.memberships.keep fun m => m.user != id
      grants := s.grants.keep fun g => g.scope.owner != id
      membershipsRefer := by
        intro m hm
        obtain ⟨hm, hne⟩ := Table.mem_keep.mp hm
        exact ⟨Table.has_keep_ne (s.membershipsRefer m hm).1 (by simpa using hne),
          (s.membershipsRefer m hm).2⟩
      grantsRefer := by
        intro g hg
        obtain ⟨hg, hne⟩ := Table.mem_keep.mp hg
        exact ⟨Table.has_keep_ne (s.grantsRefer g hg).1 (by simpa using hne),
          (s.grantsRefer g hg).2⟩ }
  else .error (.notFound .user id.raw)

/-- The row a grant names as its tenant is there, or it names none. -/
def TenantThere (s : Store) (scope : CapabilityScope) : Prop :=
  ∀ tenant ∈ scope.inside, s.tenants.Has tenant

instance (s : Store) (scope : CapabilityScope) : Decidable (s.TenantThere scope) :=
  Option.decidableForallMem scope.inside

/-- The tenant a scope sits inside, as an error names it. -/
def insideName (scope : CapabilityScope) : String := (scope.inside.map Ident.raw).getD ""

/-- Records a grant; one that is held already is left as it is. -/
def grant (s : Store) (new : Grant) : Except StorageError Store :=
  if hu : s.users.Has new.scope.owner then
    if ht : s.TenantThere new.scope then
      match h : s.grants.insert new with
      | none => .ok s
      | some grants => .ok
        { s with
          grants
          grantsRefer := by
            intro g hg
            rw [(Table.insert_eq_some h).2, List.mem_append, List.mem_singleton] at hg
            rcases hg with hg | rfl
            · exact s.grantsRefer g hg
            · exact ⟨hu, ht⟩ }
    else .error (.notFound .tenant (insideName new.scope))
  else .error (.notFound .user new.scope.owner.raw)

/-- The name of a capability as the source's debug format writes it. -/
def capabilityDebug : Capability → String
  | .tenantMgr => "TenantMgr"
  | .userMgr => "UserMgr"
  | .apiAccess => "ApiAccess"
  | .apiAdvMgr => "ApiAdvMgr"
  | .limitMgr => "LimitMgr"
  | .sysAgent => "SysAgent"
  | .observer => "Observer"

def revoke (s : Store) (old : Grant) : Except StorageError Store :=
  if s.users.Has old.scope.owner then
    if s.TenantThere old.scope then
      if old ∈ s.grants.rows then .ok
        { s with
          grants := s.grants.keep fun g => g != old
          grantsRefer := fun g hg => s.grantsRefer g (Table.mem_keep.mp hg).1 }
      else .error (.notFound .grant (capabilityDebug old.capability))
    else .error (.notFound .tenant (insideName old.scope))
  else .error (.notFound .user old.scope.owner.raw)

/-! ### Transactions -/

/-- Creates a tenant together with the account that owns it. -/
def createTenantWithOwner (s : Store) (tenant : Tenant) (owner : User) :
    Except StorageError (Store × Membership) := do
  let s ← s.insertTenant tenant
  let s ← s.insertUser owner
  let membership := ⟨owner.id, tenant.id, .owner⟩
  let s ← s.insertMembership membership
  return (s, membership)

/-- Creates a user and attaches it to a tenant that is already there. -/
def addMember (s : Store) (new : User) (tenant : TenantId) :
    Except StorageError (Store × Membership) := do
  let s ← s.insertUser new
  let membership := ⟨new.id, tenant, .member⟩
  let s ← s.insertMembership membership
  return (s, membership)

/-- Detaches a user from a tenant, together with everything it held inside it. -/
def removeMember (s : Store) (user : UserId) (tenant : TenantId) :
    Except StorageError (Store × Membership × ℕ) := do
  let (s, membership) ← s.deleteMembership user tenant
  let (s, revoked) := s.deleteGrantsInTenant membership.user membership.tenant
  return (s, membership, revoked)

/-! ### What each of them leaves -/

section Left

variable {s s' : Store}

theorem insertTenant_ok {new : Tenant} (h : s.insertTenant new = .ok s') :
    ¬ s.tenants.Has new.id ∧ s'.tenants.rows = s.tenants.rows ++ [new] ∧ s'.users = s.users ∧
      s'.memberships = s.memberships ∧ s'.grants = s.grants := by
  unfold insertTenant at h
  split at h
  · cases h
  · rename_i tenants hinsert
    cases h
    exact ⟨(Table.insert_eq_some hinsert).1, (Table.insert_eq_some hinsert).2, rfl, rfl, rfl⟩

theorem insertUser_ok {new : User} (h : s.insertUser new = .ok s') :
    ¬ s.users.Has new.id ∧ s'.users.rows = s.users.rows ++ [new] ∧ s'.tenants = s.tenants ∧
      s'.memberships = s.memberships ∧ s'.grants = s.grants := by
  unfold insertUser at h
  split at h
  · cases h
  · rename_i users hinsert
    cases h
    exact ⟨(Table.insert_eq_some hinsert).1, (Table.insert_eq_some hinsert).2, rfl, rfl, rfl⟩

theorem insertMembership_ok {new : Membership} (h : s.insertMembership new = .ok s') :
    s'.memberships = s.memberships.upsert new ∧ s'.tenants = s.tenants ∧ s'.users = s.users ∧
      s'.grants = s.grants ∧ s.tenants.Has new.tenant ∧ s.users.Has new.user := by
  unfold insertMembership at h
  split_ifs at h with ht hu
  cases h
  exact ⟨rfl, rfl, rfl, rfl, ht, hu⟩

theorem deleteTenant_ok {id : TenantId} (h : s.deleteTenant id = .ok s') :
    s'.tenants = s.tenants.keep (fun t => t.id != id) ∧ s'.users = s.users ∧
      s'.memberships = s.memberships.keep (fun m => m.tenant != id) ∧
      s'.grants = s.grants.keep (fun g => g.scope.inside != some id) := by
  unfold deleteTenant at h
  split_ifs at h
  cases h
  exact ⟨rfl, rfl, rfl, rfl⟩

theorem deleteUser_ok {id : UserId} (h : s.deleteUser id = .ok s') :
    s'.users = s.users.keep (fun u => u.id != id) ∧ s'.tenants = s.tenants ∧
      s'.memberships = s.memberships.keep (fun m => m.user != id) ∧
      s'.grants = s.grants.keep (fun g => g.scope.owner != id) := by
  unfold deleteUser at h
  split_ifs at h
  cases h
  exact ⟨rfl, rfl, rfl, rfl⟩

theorem grant_ok {new : Grant} (h : s.grant new = .ok s') :
    s'.tenants = s.tenants ∧ s'.users = s.users ∧ s'.memberships = s.memberships ∧
      ∀ g, g ∈ s'.grants.rows ↔ g = new ∨ g ∈ s.grants.rows := by
  unfold grant at h
  split_ifs at h
  split at h
  · rename_i hinsert
    cases h
    obtain ⟨g, hg, hkey⟩ := Table.insert_eq_none.mp hinsert
    refine ⟨rfl, rfl, rfl, fun g' => ⟨.inr, ?_⟩⟩
    rintro (rfl | hg')
    · exact (show g = g' from hkey) ▸ hg
    · exact hg'
  · rename_i grants hinsert
    cases h
    refine ⟨rfl, rfl, rfl, fun g => ?_⟩
    show g ∈ grants.rows ↔ _
    rw [(Table.insert_eq_some hinsert).2, List.mem_append, List.mem_singleton, or_comm]

theorem revoke_ok {old : Grant} (h : s.revoke old = .ok s') :
    s'.tenants = s.tenants ∧ s'.users = s.users ∧ s'.memberships = s.memberships ∧
      s'.grants = s.grants.keep (fun g => g != old) := by
  unfold revoke at h
  split_ifs at h
  cases h
  exact ⟨rfl, rfl, rfl, rfl⟩

theorem not_mem_of_user_missing {m : Membership} (h : ¬ s.users.Has m.user) : m ∉ s.memberships.rows :=
  fun hm => h (s.membershipsRefer m hm).1

theorem not_mem_of_tenant_missing {m : Membership} (h : ¬ s.tenants.Has m.tenant) :
    m ∉ s.memberships.rows := fun hm => h (s.membershipsRefer m hm).2

/-- A new tenant has the new account as its owner, and nothing else is attached to either. -/
theorem createTenantWithOwner_ok {tenant : Tenant} {owner : User} {held : Membership}
    (h : s.createTenantWithOwner tenant owner = .ok (s', held)) :
    ¬ s.tenants.Has tenant.id ∧ ¬ s.users.Has owner.id ∧
      s'.tenants.rows = s.tenants.rows ++ [tenant] ∧ s'.users.rows = s.users.rows ++ [owner] ∧
      s'.grants = s.grants ∧
      ∀ m, m ∈ s'.memberships.rows ↔
        m = ⟨owner.id, tenant.id, .owner⟩ ∨ m ∈ s.memberships.rows := by
  rw [createTenantWithOwner] at h
  obtain ⟨s₁, h₁, h⟩ := ok_of_bind h
  obtain ⟨s₂, h₂, h⟩ := ok_of_bind h
  obtain ⟨s₃, h₃, h⟩ := ok_of_bind h
  cases h
  obtain ⟨htenant, htenants₁, husers₁, hmemberships₁, hgrants₁⟩ := insertTenant_ok h₁
  obtain ⟨huser, husers₂, htenants₂, hmemberships₂, hgrants₂⟩ := insertUser_ok h₂
  obtain ⟨hmemberships₃, htenants₃, husers₃, hgrants₃, -, -⟩ := insertMembership_ok h₃
  rw [husers₁] at huser husers₂
  refine ⟨htenant, huser, ?_, ?_, ?_, fun m => ?_⟩
  · rw [htenants₃, htenants₂, htenants₁]
  · rw [husers₃, husers₂]
  · rw [hgrants₃, hgrants₂, hgrants₁]
  · rw [hmemberships₃, hmemberships₂, hmemberships₁, Table.mem_upsert]
    -- Nothing was attached to an account that was not there.
    refine or_congr_right ⟨And.left, fun hm => ⟨hm, fun hkey => ?_⟩⟩
    have hsame : m.user = owner.id := (Prod.mk.inj hkey).1
    exact not_mem_of_user_missing (hsame ▸ huser) hm

/-- A new account is attached to its tenant as a member, and to nothing else. -/
theorem addMember_ok {new : User} {tenant : TenantId} {held : Membership}
    (h : s.addMember new tenant = .ok (s', held)) :
    ¬ s.users.Has new.id ∧ s'.tenants = s.tenants ∧ s'.users.rows = s.users.rows ++ [new] ∧
      s'.grants = s.grants ∧
      ∀ m, m ∈ s'.memberships.rows ↔ m = ⟨new.id, tenant, .member⟩ ∨ m ∈ s.memberships.rows := by
  rw [addMember] at h
  obtain ⟨s₁, h₁, h⟩ := ok_of_bind h
  obtain ⟨s₂, h₂, h⟩ := ok_of_bind h
  cases h
  obtain ⟨huser, husers₁, htenants₁, hmemberships₁, hgrants₁⟩ := insertUser_ok h₁
  obtain ⟨hmemberships₂, htenants₂, husers₂, hgrants₂, -, -⟩ := insertMembership_ok h₂
  refine ⟨huser, ?_, ?_, ?_, fun m => ?_⟩
  · rw [htenants₂, htenants₁]
  · rw [husers₂, husers₁]
  · rw [hgrants₂, hgrants₁]
  · rw [hmemberships₂, hmemberships₁, Table.mem_upsert]
    refine or_congr_right ⟨And.left, fun hm => ⟨hm, fun hkey => ?_⟩⟩
    have hsame : m.user = new.id := (Prod.mk.inj hkey).1
    exact not_mem_of_user_missing (hsame ▸ huser) hm

theorem removeMember_ok {user : UserId} {tenant : TenantId} {removed : Membership × ℕ}
    (h : s.removeMember user tenant = .ok (s', removed)) :
    s'.tenants = s.tenants ∧ s'.users = s.users ∧
      s'.memberships = s.memberships.keep (fun m => m.key != (user, tenant)) ∧
      s'.grants = s.grants.keep (fun g => !heldInside user tenant g) := by
  rw [removeMember] at h
  obtain ⟨⟨s₁, held⟩, h₁, h⟩ := ok_of_bind h
  unfold deleteMembership at h₁
  split at h₁
  · cases h₁
  · rename_i row hrow
    cases h₁
    cases h
    obtain ⟨-, huser, htenant⟩ := membership_eq_some.mp hrow
    rw [huser, htenant]
    exact ⟨rfl, rfl, rfl, rfl⟩

end Left

end Store

end IntelliPrism.Manage
