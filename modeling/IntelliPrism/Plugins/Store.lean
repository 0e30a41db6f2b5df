import IntelliPrism.Core.Plugin
import IntelliPrism.Gateway.ResponseCache
import IntelliPrism.Manage.Store

/-!
# Plugins, their owners and the rules that run them

The plugin tables of the sqlite store, row by row.  Wasm is stored once under its checksum, however many
chains own it; a rule runs one stored plugin in one chain and keeps the kind it was placed as.  Rows refer
to one another by row ids, and the id of a row that is gone may be given to another.

A `Store` carries what the schema enforces: the unique indexes and the row ids, in its tables, and the
foreign keys, as its last two fields.

* `insertWasm`, `insertOwner`, `deleteOwner`, `deleteUnowned` — the statements of the two transactions;
* `putPlugin`, `disownPlugin` — the transactions, of which a failure leaves nothing behind;
* `ownedPlugin`, `insertRule`, `removeRule` — what placing and removing a rule run.
-/

namespace IntelliPrism.Plugins

open IntelliPrism.Core IntelliPrism.Lib IntelliPrism.Manage
open IntelliPrism.Gateway (hexEncode)

/-! ### Rows -/

/-- A key the backend assigned to a row.  It assigns them from 1 on, so that none is the 0 an index over
`IFNULL(tenant_row_id, 0)` has for no tenant. -/
@[ext] structure RowId where
  get : ℕ
  assigned : 0 < get

instance : DecidableEq RowId := fun _ _ => decidable_of_iff _ RowId.ext_iff.symm

/-- A tenant's row, as far as the plugin tables refer to it. -/
structure TenantRow where
  rowId : RowId
  id : TenantId

/-- A user's row, as far as the plugin tables refer to it. -/
structure UserRow where
  rowId : RowId
  id : UserId

/-- A stored plugin. -/
structure PluginRow where
  rowId : RowId
  checksum : Checksum
  kind : PluginKind
  wasm : List UInt8
  createdAt : Timestamp

/-- The row a chain is kept under: its tenant's, or none for the global chain. -/
abbrev Chain := Option RowId

/-- One chain's hold on one plugin. -/
structure OwnerRow where
  plugin : RowId
  chain : Chain
  createdAt : Timestamp

def OwnerRow.key (o : OwnerRow) : Chain × RowId := (o.chain, o.plugin)

/-- A plugin placed in a chain.  The fields that are proofs are the `CHECK`s of the table. -/
structure RuleRow where
  plugin : RowId
  chain : Chain
  user : Option RowId
  api : Option ApiId
  kind : PluginKind
  order : PluginOrder
  createdAt : Timestamp
  narrowed : chain = none → user = none ∧ api = none
  ranged : chain.isNone = order.isPrimary

def RuleRow.key (r : RuleRow) : Chain × PluginKind × PluginOrder := (r.chain, r.kind, r.order)

/-- The plugin tables, and the two they refer to.  The last fields are the foreign keys of the schema. -/
structure Store where
  tenants : RowTable TenantRow.rowId TenantRow.id
  users : RowTable UserRow.rowId UserRow.id
  plugins : RowTable PluginRow.rowId PluginRow.checksum
  owners : Table OwnerRow.key
  rules : Table RuleRow.key
  ownersRefer : ∀ o ∈ owners.rows, plugins.HasRow o.plugin ∧
    ∀ tenant, o.chain = some tenant → tenants.HasRow tenant
  rulesRefer : ∀ r ∈ rules.rows, plugins.HasRow r.plugin ∧
    (∀ tenant, r.chain = some tenant → tenants.HasRow tenant) ∧
      ∀ user, r.user = some user → users.HasRow user

/-- Whose a stored plugin is: the global chain's, or one tenant's. -/
inductive PluginOwner where
  | global
  | tenant (id : TenantId)
  deriving DecidableEq

/-- The chain a rule in this scope belongs to. -/
def PluginOwner.ofScope : PluginScope → PluginOwner
  | .global => .global
  | .tenant id _ _ => .tenant id

/-- The digest in lowercase hexadecimal, which is how a plugin is shown. -/
def shown (checksum : Checksum) : String := hexEncode checksum.bytes

/-- How a rule is named in errors: by its kind and its order. -/
def ruleName (kind : PluginKind) (order : PluginOrder) : String :=
  kind.name ++ " " ++ toString order.get.toNat

/-- What is known about a stored plugin without reading its wasm. -/
structure PluginRecord where
  rowId : RowId
  checksum : Checksum
  kind : PluginKind
  size : ℕ
  createdAt : Timestamp

def PluginRow.record (p : PluginRow) : PluginRecord :=
  ⟨p.rowId, p.checksum, p.kind, p.wasm.length, p.createdAt⟩

/-- Wasm about to be stored, for one owner. -/
structure NewPlugin where
  kind : PluginKind
  wasm : List UInt8
  owner : PluginOwner

/-- What the backend and the clock supply a write with: the id for a new row, any that is free, and the
time as wasm and as its owner is written. -/
structure Supply where
  row : RowId
  storedAt : Timestamp
  ownedAt : Timestamp

namespace Store

def empty : Store where
  tenants := .empty
  users := .empty
  plugins := .empty
  owners := .empty
  rules := .empty
  ownersRefer := by intro o ho; cases ho
  rulesRefer := by intro r hr; cases hr

variable (s : Store)

/-! ### Reads -/

def tenantRowId (id : TenantId) : Except StorageError RowId :=
  match s.tenants.find id with
  | some found => .ok found.rowId
  | none => .error (.notFound .tenant id.raw)

def userRowId (id : UserId) : Except StorageError RowId :=
  match s.users.find id with
  | some found => .ok found.rowId
  | none => .error (.notFound .user id.raw)

/-- The row an owner's chain is kept under. -/
def ownerRowId : PluginOwner → Except StorageError Chain
  | .global => .ok none
  | .tenant id => (s.tenantRowId id).map some

def Owns (chain : Chain) (plugin : RowId) : Prop := s.owners.Has (chain, plugin)

instance (chain : Chain) (plugin : RowId) : Decidable (s.Owns chain plugin) :=
  inferInstanceAs (Decidable (s.owners.Has (chain, plugin)))

/-- The row and the kind of a plugin a chain owns, by its checksum. -/
def ownedPlugin (checksum : Checksum) (chain : Chain) : Option (RowId × PluginKind) :=
  match s.plugins.find checksum with
  | none => none
  | some found => if s.Owns chain found.rowId then some (found.rowId, found.kind) else none

/-! ### Rules -/

/-- Places a plugin.  The statement is refused for a `CHECK`, then for the unique index, then for a row it
refers to that is gone. -/
def insertRule (plugin : RowId) (chain : Chain) (user : Option RowId) (api : Option ApiId)
    (kind : PluginKind) (order : PluginOrder) (now : Timestamp) : Except StorageError Store :=
  if hnarrowed : chain = none → user = none ∧ api = none then
    if hranged : chain.isNone = order.isPrimary then
      let new : RuleRow := ⟨plugin, chain, user, api, kind, order, now, hnarrowed, hranged⟩
      if hkey : s.rules.Has new.key then .error (.conflict .pluginRule (ruleName kind order))
      else if hrefer : s.plugins.HasRow plugin ∧ (∀ tenant ∈ chain, s.tenants.HasRow tenant) ∧
          ∀ account ∈ user, s.users.HasRow account then
        .ok { s with
          rules := ⟨s.rules.rows ++ [new], s.rules.unique_append hkey⟩
          rulesRefer := by
            intro r hr
            rcases List.mem_append.mp hr with hr | hr
            · exact s.rulesRefer r hr
            · obtain rfl := List.mem_singleton.mp hr
              exact hrefer }
      else .error .backend
    else .error .backend
  else .error .backend

def keepRules (p : RuleRow → Bool) : Store :=
  { s with
    rules := s.rules.keep p
    rulesRefer := fun r hr => s.rulesRefer r (Table.mem_keep.mp hr).1 }

/-- Whether a rule is the one at this place in this chain. -/
def ruleAt (chain : Chain) (kind : PluginKind) (order : PluginOrder) (r : RuleRow) : Bool :=
  r.key == (chain, kind, order)

/-- Removes the rule at a place of a tenant's chain, or of the global one. -/
def removeRule (tenant : Option TenantId) (kind : PluginKind) (order : PluginOrder) :
    Except StorageError Store :=
  -- A tenant that is not there has the row `NULL`, which no row equals.
  let chain : Option Chain := match tenant with
    | none => some none
    | some id => (s.tenants.find id).map fun found => some found.rowId
  match chain with
  | none => .error (.notFound .pluginRule (ruleName kind order))
  | some chain =>
    if s.rules.rows.any (ruleAt chain kind order) then
      .ok (s.keepRules fun r => !ruleAt chain kind order r)
    else .error (.notFound .pluginRule (ruleName kind order))

/-! ### Plugins -/

/-- Stores wasm once under its checksum, refusing wasm stored already as another kind. -/
def insertWasm (checksum : Checksum) (x : Supply) (kind : PluginKind) (wasm : List UInt8) :
    Except StorageError (Store × PluginRecord) :=
  match s.plugins.find checksum with
  | some found =>
    if found.kind = kind then .ok (s, found.record)
    else .error (.conflict .plugin (shown checksum ++ " as a " ++ found.kind.name ++ " plugin"))
  | none =>
    let new : PluginRow := ⟨x.row, checksum, kind, wasm, x.storedAt⟩
    match hadd : s.plugins.add new with
    | none => .error .backend
    | some plugins =>
      .ok ({ s with
        plugins
        ownersRefer := fun o ho => (s.ownersRefer o ho).imp_left (RowTable.hasRow_add hadd)
        rulesRefer := fun r hr => (s.rulesRefer r hr).imp_left (RowTable.hasRow_add hadd) }, new.record)

/-- Records an owner's hold on a plugin, unless it is recorded already, and says since when. -/
def insertOwner (x : Supply) (plugin : PluginRecord) (owner : PluginOwner) :
    Except StorageError (Store × Timestamp) :=
  match s.ownerRowId owner with
  | .error error => .error error
  | .ok chain =>
    match s.owners.find (chain, plugin.rowId) with
    | some held => .ok (s, held.createdAt)
    | none =>
      let new : OwnerRow := ⟨plugin.rowId, chain, x.ownedAt⟩
      match hinsert : s.owners.insert new with
      | none => .error .backend
      | some owners =>
        if hrefer : s.plugins.HasRow plugin.rowId ∧ ∀ tenant ∈ chain, s.tenants.HasRow tenant then
          .ok ({ s with
            owners
            ownersRefer := by
              intro o ho
              rw [(Table.insert_eq_some hinsert).2] at ho
              rcases List.mem_append.mp ho with ho | ho
              · exact s.ownersRefer o ho
              · obtain rfl := List.mem_singleton.mp ho
                exact hrefer }, x.ownedAt)
        else .error .backend

def keepOwners (p : OwnerRow → Bool) : Store :=
  { s with
    owners := s.owners.keep p
    ownersRefer := fun o ho => s.ownersRefer o (Table.mem_keep.mp ho).1 }

/-- Ends an owner's hold on a plugin none of its rules runs. -/
def deleteOwner (checksum : Checksum) (owner : PluginOwner) :
    Except StorageError (Store × PluginRecord) :=
  match s.ownerRowId owner with
  | .error error => .error error
  | .ok chain =>
    match s.plugins.find checksum with
    | none => .error (.notFound .plugin (shown checksum))
    | some found =>
      if s.rules.rows.any fun r => r.plugin == found.rowId && r.chain == chain then
        .error (.inUse .plugin (shown checksum))
      else if s.Owns chain found.rowId then
        .ok (s.keepOwners fun o => o.key != (chain, found.rowId), found.record)
      else .error (.notFound .plugin (shown checksum))

/-- Removes a plugin's wasm once nobody owns it.  A rule that runs it all the same is a foreign key that
is in the way. -/
def deleteUnowned (plugin : PluginRecord) : Except StorageError (Store × Bool) :=
  if hheld : ∃ o ∈ s.owners.rows, o.plugin = plugin.rowId then .ok (s, false)
  else if hrun : ∃ r ∈ s.rules.rows, r.plugin = plugin.rowId then
    .error (.inUse .plugin (shown plugin.checksum))
  else
    .ok ({ s with
      plugins := s.plugins.without plugin.rowId
      ownersRefer := fun o ho => (s.ownersRefer o ho).imp_left fun h =>
        RowTable.hasRow_without h fun heq => hheld ⟨o, ho, heq⟩
      rulesRefer := fun r hr => (s.rulesRefer r hr).imp_left fun h =>
        RowTable.hasRow_without h fun heq => hrun ⟨r, hr, heq⟩ },
      decide (s.plugins.HasRow plugin.rowId))

/-- Stores a plugin's wasm together with the owner that stores it. -/
def putPlugin (checksumOf : List UInt8 → Checksum) (x : Supply) (new : NewPlugin) :
    Except StorageError (Store × PluginRecord) := do
  let (s, plugin) ← s.insertWasm (checksumOf new.wasm) x new.kind new.wasm
  let (s, _) ← s.insertOwner x plugin new.owner
  pure (s, plugin)

/-- Lets an owner's plugin go, and its wasm with the last of its owners; answers whether it went. -/
def disownPlugin (checksum : Checksum) (owner : PluginOwner) : Except StorageError (Store × Bool) := do
  let (s, plugin) ← s.deleteOwner checksum owner
  s.deleteUnowned plugin

/-! ### Tenants and users, as far as the plugin tables refer to them -/

def createTenant (x : Supply) (id : TenantId) : Except StorageError Store :=
  if s.tenants.Has id then .error (.conflict .tenant id.raw)
  else
    match hadd : s.tenants.add ⟨x.row, id⟩ with
    | none => .error .backend
    | some tenants => .ok { s with
      tenants
      ownersRefer := fun o ho => (s.ownersRefer o ho).imp_right
        fun h tenant ht => RowTable.hasRow_add hadd (h tenant ht)
      rulesRefer := fun r hr => (s.rulesRefer r hr).imp_right (And.imp_left
        fun h tenant ht => RowTable.hasRow_add hadd (h tenant ht)) }

/-- Removes a tenant, and the holds and the rules of its chain with it. -/
def deleteTenant (id : TenantId) : Except StorageError Store :=
  match s.tenants.find id with
  | none => .error (.notFound .tenant id.raw)
  | some found => .ok { s with
    tenants := s.tenants.without found.rowId
    owners := s.owners.keep fun o => o.chain != some found.rowId
    rules := s.rules.keep fun r => r.chain != some found.rowId
    ownersRefer := by
      intro o ho
      obtain ⟨ho, hne⟩ := Table.mem_keep.mp ho
      refine (s.ownersRefer o ho).imp_right fun h tenant ht => RowTable.hasRow_without (h tenant ht) ?_
      rintro rfl
      exact bne_iff_ne.mp hne ht
    rulesRefer := by
      intro r hr
      obtain ⟨hr, hne⟩ := Table.mem_keep.mp hr
      refine (s.rulesRefer r hr).imp_right (And.imp_left fun h tenant ht =>
        RowTable.hasRow_without (h tenant ht) ?_)
      rintro rfl
      exact bne_iff_ne.mp hne ht }

def createUser (x : Supply) (id : UserId) : Except StorageError Store :=
  if s.users.Has id then .error (.conflict .user id.raw)
  else
    match hadd : s.users.add ⟨x.row, id⟩ with
    | none => .error .backend
    | some users => .ok { s with
      users
      rulesRefer := fun r hr => (s.rulesRefer r hr).imp_right (And.imp_right
        fun h user hu => RowTable.hasRow_add hadd (h user hu)) }

/-- Removes a user, and the rules narrowed to it. -/
def deleteUser (id : UserId) : Except StorageError Store :=
  match s.users.find id with
  | none => .error (.notFound .user id.raw)
  | some found => .ok { s with
    users := s.users.without found.rowId
    rules := s.rules.keep fun r => r.user != some found.rowId
    rulesRefer := by
      intro r hr
      obtain ⟨hr, hne⟩ := Table.mem_keep.mp hr
      refine (s.rulesRefer r hr).imp_right (And.imp_right fun h user hu =>
        RowTable.hasRow_without (h user hu) ?_)
      rintro rfl
      exact bne_iff_ne.mp hne hu }

end Store

end IntelliPrism.Plugins
