import IntelliPrism.Plugins.Ownership
import IntelliPrism.Rules.Publication

/-!
# The tables rule sets are read from

Routes with their targets, plugin rules and limits, beside the tenants, users and plugins their rows refer
to.  A trigger on each of the first four moves one number on for every row that is inserted, updated or
deleted, whether a statement does it or a cascade.

A `Database` carries what the schema enforces: unique indexes and row ids, in its tables, and the foreign
keys of targets and limits, as its last two fields.

* `putRoute`, `removeRoute`, `putLimit`, `removeLimit` — the writes of routes and limits;
* `settle` — what a write of the other tables leaves, with its cascades;
* `route` — one rule, by its key;
* `readRoutes`, `readRules`, `readLimits`, `ruleSet` — what is read in one transaction;
* `Write` — one committed write, of any of the tables.
-/

namespace IntelliPrism.Rules

open IntelliPrism.Lib IntelliPrism.Core IntelliPrism.Gateway
open IntelliPrism.Manage (StorageError)
open IntelliPrism.Plugins (RowId Supply TenantRow UserRow PluginRow RuleRow)

/-! ### Rows -/

/-- A route, without the endpoints behind it. -/
structure RouteRow where
  rowId : RowId
  api : ApiId
  key : RouteKey
  strategy : Strategy

/-- One endpoint behind a route. -/
structure TargetRow where
  route : RowId
  position : ℕ
  weighted : Weighted

def TargetRow.key (t : TargetRow) : RowId × ℕ := (t.route, t.position)

/-- A limit. -/
structure LimitRow where
  rowId : RowId
  tenant : RowId
  user : Option RowId
  api : Option ApiId
  counted : Counted
  period : Period
  allowance : Allowance
  createdAt : Timestamp

abbrev LimitKey := RowId × Option RowId × Option ApiId × Counted × Period

def LimitRow.key (l : LimitRow) : LimitKey := (l.tenant, l.user, l.api, l.counted, l.period)

/-- Every way a call on these tables fails. -/
inductive RuleError where
  | storage (error : StorageError)
  | noRoute (id : String)
  | noLimit (id : String)
  | value (error : CoreError)
  | malformed (detail : String)

/-- The tables, and the number the triggers move on. -/
structure Database where
  base : Plugins.Store
  routes : RowTable RouteRow.rowId RouteRow.key
  targets : Table TargetRow.key
  limits : RowTable LimitRow.rowId LimitRow.key
  revision : ℕ
  targetsRefer : ∀ t ∈ targets.rows, routes.HasRow t.route
  limitsRefer : ∀ l ∈ limits.rows, base.tenants.HasRow l.tenant ∧ ∀ user ∈ l.user, base.users.HasRow user

namespace Database

/-- A database nothing was written to. -/
def empty : Database where
  base := .empty
  routes := .empty
  targets := .empty
  limits := .empty
  revision := 0
  targetsRefer := fun _ ht => nomatch ht
  limitsRefer := fun _ hl => nomatch hl

variable (db : Database)

/-! ### Routes -/

/-- Writes a route under its key, over the one that is there. -/
def upsertRoute (x : Supply) (rule : RouteRule) : Except RuleError (Database × RowId) :=
  match db.routes.find rule.key with
  | some found =>
    .ok ({ db with
      routes := db.routes.modify found.rowId (fun r => { r with api := rule.api, strategy := rule.strategy })
        (fun _ => rfl) fun _ => rfl
      revision := db.revision + 1
      targetsRefer := fun t ht => RowTable.hasRow_modify (db.targetsRefer t ht) }, found.rowId)
  | none =>
    match hadd : db.routes.add ⟨x.row, rule.api, rule.key, rule.strategy⟩ with
    | none => .error (.storage .backend)
    | some routes =>
      .ok ({ db with
        routes
        revision := db.revision + 1
        targetsRefer := fun t ht => RowTable.hasRow_add hadd (db.targetsRefer t ht) }, x.row)

/-- Whether a target is behind a route. -/
def behind (route : RowId) (t : TargetRow) : Bool := t.route == route

/-- Takes the targets behind a route, each of which fires its trigger. -/
def deleteTargets (route : RowId) : Database :=
  { db with
    targets := db.targets.keep fun t => !behind route t
    revision := db.revision + (db.targets.rows.countP (behind route))
    targetsRefer := fun t ht => db.targetsRefer t (Table.mem_keep.mp ht).1 }

def insertTarget (t : TargetRow) : Except RuleError Database :=
  match hinsert : db.targets.insert t with
  | none => .error (.storage .backend)
  | some targets =>
    if hroute : db.routes.HasRow t.route then
      .ok { db with
        targets
        revision := db.revision + 1
        targetsRefer := by
          intro other hother
          rw [(Table.insert_eq_some hinsert).2] at hother
          rcases List.mem_append.mp hother with hold | hnew
          · exact db.targetsRefer other hold
          · rw [List.mem_singleton.mp hnew]
            exact hroute }
    else .error (.storage .backend)

/-- Puts endpoints behind a route, from a position on. -/
def insertTargets (route : RowId) : ℕ → List Weighted → Database → Except RuleError Database
  | _, [], db => .ok db
  | position, weighted :: rest, db => do
    let db ← db.insertTarget ⟨route, position, weighted⟩
    insertTargets route (position + 1) rest db

/-- Writes a rule under its key, with the endpoints behind it, in one transaction. -/
def putRoute (x : Supply) (rule : RouteRule) : Except RuleError Database := do
  let (db, route) ← db.upsertRoute x rule
  insertTargets route 0 rule.target.weighted (db.deleteTargets route)

/-- Removes a route, and the endpoints behind it by the cascade. -/
def removeRoute (key : RouteKey) : Except RuleError Database :=
  match db.routes.find key with
  | none => .error (.noRoute key.endpoint.display)
  | some found => .ok { db with
    routes := db.routes.without found.rowId
    targets := db.targets.keep fun t => !behind found.rowId t
    revision := db.revision + 1 + db.targets.rows.countP (behind found.rowId)
    targetsRefer := by
      intro t ht
      obtain ⟨hmem, hother⟩ := Table.mem_keep.mp ht
      refine RowTable.hasRow_without (db.targetsRefer t hmem) fun heq => ?_
      rw [behind, heq, beq_self_eq_true] at hother
      cases hother }

/-! ### Limits -/

/-- The largest number the column of an allowance holds. -/
def columnMax : ℕ := 9223372036854775807

theorem stored_nonzero (allowance : Allowance) : min allowance.get columnMax ≠ 0 := by
  have h := allowance.nonzero
  unfold columnMax
  omega

def stored (allowance : Allowance) : Allowance := ⟨min allowance.get columnMax, stored_nonzero allowance⟩

/-- Writes a limit under what limits are unique by, over the allowance of the one that is there. -/
def upsertLimit (x : Supply) (tenant : RowId) (user : Option RowId) (api : Option ApiId) (counted : Counted)
    (period : Period) (allowance : Allowance) : Except RuleError Database :=
  match db.limits.find (tenant, user, api, counted, period) with
  | some found => .ok { db with
    limits := db.limits.modify found.rowId (fun l => { l with allowance }) (fun _ => rfl) fun _ => rfl
    revision := db.revision + 1
    limitsRefer := by
      intro l hl
      obtain ⟨old, hold, rfl⟩ := List.mem_map.mp hl
      have hrefer := db.limitsRefer old hold
      split
      · exact hrefer
      · exact hrefer }
  | none =>
    match hadd : db.limits.add ⟨x.row, tenant, user, api, counted, period, allowance, x.storedAt⟩ with
    | none => .error (.storage .backend)
    | some limits =>
      if hrefer : db.base.tenants.HasRow tenant ∧ ∀ account ∈ user, db.base.users.HasRow account then
        .ok { db with
          limits
          revision := db.revision + 1
          limitsRefer := by
            intro l hl
            rw [(RowTable.add_eq_some hadd).2] at hl
            rcases List.mem_append.mp hl with hold | hnew
            · exact db.limitsRefer l hold
            · rw [List.mem_singleton.mp hnew]
              exact hrefer }
      else .error (.storage .backend)

/-- Takes the limit under a key, which fires its trigger. -/
def deleteLimit (key : LimitKey) (id : String) : Except RuleError Database :=
  if db.limits.rows.countP (fun l => l.key == key) = 0 then .error (.noLimit id)
  else .ok { db with
    limits := db.limits.retain fun l => !(l.key == key)
    revision := db.revision + db.limits.rows.countP fun l => l.key == key
    limitsRefer := fun l hl => db.limitsRefer l (Table.mem_keep.mp hl).1 }

/-- The rows of a scope's tenant and account. -/
def scopeRows (scope : LimitScope) : Except RuleError (RowId × Option RowId) := do
  let tenant ← (db.base.tenantRowId scope.tenant).mapError .storage
  match scope.user with
  | none => return (tenant, none)
  | some user =>
    let account ← (db.base.userRowId user).mapError .storage
    return (tenant, some account)

def putLimit (x : Supply) (limit : Limit) : Except RuleError (Database × StoredLimit) := do
  let (tenant, user) ← db.scopeRows limit.scope
  let db ← db.upsertLimit x tenant user limit.scope.api limit.counted limit.period (stored limit.allowance)
  return (db, ⟨limit, x.storedAt⟩)

def removeLimit (scope : LimitScope) (counted : Counted) (period : Period) : Except RuleError Database := do
  let (tenant, user) ← db.scopeRows scope
  db.deleteLimit (tenant, user, scope.api, counted, period)
    (scope.display ++ " " ++ counted.name ++ " per " ++ period.name)

/-! ### The tables they refer to -/

/-- Whether the tenant and the account of a limit are there. -/
def refers (base : Plugins.Store) (l : LimitRow) : Bool :=
  decide (base.tenants.HasRow l.tenant) && l.user.all fun user => decide (base.users.HasRow user)

/-- How many triggers a statement fires that inserts rows or deletes rows. -/
def fired {α : Type} (before after : List α) : ℕ :=
  (after.length - before.length) + (before.length - after.length)

/-- What a write of the tenants, users, plugins or plugin rules leaves: the limits whose tenant or account
is gone go by the cascade, and every rule and limit that comes or goes fires its trigger. -/
def settle (base : Plugins.Store) : Database :=
  { db with
    base
    limits := db.limits.retain (refers base)
    revision := db.revision + fired db.base.rules.rows base.rules.rows +
      db.limits.rows.countP fun l => !refers base l
    limitsRefer := by
      intro l hl
      have hthere := (Table.mem_keep.mp hl).2
      obtain ⟨htenant, huser⟩ := Bool.and_eq_true_iff.mp hthere
      refine ⟨of_decide_eq_true htenant, fun user hmem => ?_⟩
      rw [Option.mem_def.mp hmem] at huser
      exact of_decide_eq_true huser }

/-! ### Reads -/

/-- Rows in an order, those that tie in the order of the table. -/
def orderBy {α : Type} (order : α → α → Ordering) (rows : List α) : List α :=
  rows.insertionSort fun a b => (order a b).isLE = true

/-- By host, path, protocol and port of the route, then by position. -/
def routeOrder (a b : RouteRow × TargetRow) : Ordering :=
  (compare a.1.key.endpoint.host.raw b.1.key.endpoint.host.raw).then <|
    (compare a.1.key.endpoint.path.raw b.1.key.endpoint.path.raw).then <|
      (compare a.1.key.endpoint.protocol.name b.1.key.endpoint.protocol.name).then <|
        (compare a.1.key.endpoint.port.get b.1.key.endpoint.port.get).then <|
          compare a.2.position b.2.position

/-- Each route with each of its targets. -/
def joined (routes : List RouteRow) (targets : List TargetRow) : List (RouteRow × TargetRow) :=
  routes.flatMap fun r => (targets.filter (behind r.rowId)).map fun t => (r, t)

/-- Gathers the rows of each route into its rule. -/
def gather : List (RouteRow × TargetRow) → Option RowId → List RouteRule → Except RuleError (List RouteRule)
  | [], _, rules => .ok rules
  | (route, target) :: rest, current, rules =>
    match if current = some route.rowId then rules.getLast? else none with
    | some last => do
      let target ← (RouteTarget.fromWeighted (last.target.weighted ++ [target.weighted])).mapError .value
      gather rest current (rules.dropLast ++ [{ last with target }])
    | none => do
      let target ← (RouteTarget.fromWeighted [target.weighted]).mapError .value
      gather rest (some route.rowId) (rules ++ [⟨route.api, route.key, target, route.strategy⟩])

def readRoutes : Except RuleError (List RouteRule) :=
  gather (orderBy routeOrder (joined db.routes.rows db.targets.rows)) none []

def positionOrder (a b : RouteRow × TargetRow) : Ordering := compare a.2.position b.2.position

/-- The rule under a key, or none where no row has it. -/
def route (key : RouteKey) : Except RuleError (Option RouteRule) :=
  match orderBy positionOrder
    ((joined db.routes.rows db.targets.rows).filter fun row => row.1.key == key) with
  | [] => .ok none
  | first :: rest => do
    let targets := (first :: rest).map fun row => row.2.weighted
    let target ← (RouteTarget.fromWeighted targets).mapError .value
    return some ⟨first.1.api, key, target, first.1.strategy⟩

/-- The scope a rule row was written for, refusing a global row that names a user or an api. -/
def pluginScope : Option TenantId → Option UserId → Option ApiId → Except RuleError PluginScope
  | none, none, none => .ok .global
  | none, _, _ => .error (.malformed "a global rule names a user or an api")
  | some tenant, user, api => .ok (.tenant tenant user api)

/-- By kind, then by position, the highest first. -/
def ruleOrder (a b : RuleRow) : Ordering :=
  (compare a.kind.name b.kind.name).then (compare b.order.get a.order.get)

def tenantId (row : RowId) : Option TenantId := (db.base.tenants.byRow.find row).map TenantRow.id

def userId (row : RowId) : Option UserId := (db.base.users.byRow.find row).map UserRow.id

/-- A rule rebuilt from its row and what is joined to it; no rule where there is no plugin to join. -/
def pluginRule (r : RuleRow) : Option (Except RuleError PluginRule) :=
  (db.base.plugins.byRow.find r.plugin).map fun plugin => do
    let scope ← pluginScope (r.chain.bind db.tenantId) (r.user.bind db.userId) r.api
    (PluginRule.new plugin.checksum r.kind r.order scope).mapError .value

def readRules : Except RuleError (List PluginRule) :=
  ((orderBy ruleOrder db.base.rules.rows).filterMap db.pluginRule).mapM id

def limitOrder (a b : LimitRow) : Ordering :=
  (compare b.createdAt.unixSeconds a.createdAt.unixSeconds).then (compare b.rowId.get a.rowId.get)

/-- A limit rebuilt from its row; none where there is no tenant to join. -/
def limitOf (l : LimitRow) : Option StoredLimit :=
  (db.tenantId l.tenant).map fun tenant =>
    ⟨⟨⟨tenant, l.user.bind db.userId, l.api⟩, l.counted, l.period, l.allowance⟩, l.createdAt⟩

def readLimits : List StoredLimit := (orderBy limitOrder db.limits.rows).filterMap db.limitOf

/-- The revision the rules stand at, where the column still holds it as a whole number. -/
def readRevision : Except RuleError RuleRevision :=
  if db.revision ≤ columnMax then .ok (.ofNat db.revision) else .error (.storage .backend)

/-- Every route, plugin rule and limit there is. -/
def tables : Except RuleError Tables := do
  let routes ← db.readRoutes
  let rules ← db.readRules
  return ⟨routes, rules, db.readLimits⟩

/-- Every route, plugin rule and limit with the revision they stand at, read in one transaction. -/
def ruleSet : Except RuleError RuleSet := do
  let revision ← db.readRevision
  let tables ← db.tables
  return ⟨tables, revision⟩

end Database

/-! ### Committed writes -/

/-- One committed write: a transaction, or a statement outside of one, with whatever row ids it was given. -/
inductive Write (checksumOf : List UInt8 → Checksum) : Database → Database → Prop where
  | putRoute {db db' : Database} (x : Supply) (rule : RouteRule) (h : db.putRoute x rule = .ok db') :
      Write checksumOf db db'
  | removeRoute {db db' : Database} (key : RouteKey) (h : db.removeRoute key = .ok db') :
      Write checksumOf db db'
  | upsertLimit {db db' : Database} (x : Supply) (tenant : RowId) (user : Option RowId) (api : Option ApiId)
      (counted : Counted) (period : Period) (allowance : Allowance)
      (h : db.upsertLimit x tenant user api counted period allowance = .ok db') : Write checksumOf db db'
  | deleteLimit {db db' : Database} (key : LimitKey) (id : String) (h : db.deleteLimit key id = .ok db') :
      Write checksumOf db db'
  | other {db : Database} {base : Plugins.Store} (x : Supply) (op : Plugins.Op) (value : op.Val)
      (h : Plugins.outcome checksumOf x op db.base = .ok (base, value)) : Write checksumOf db (db.settle base)

end IntelliPrism.Rules
