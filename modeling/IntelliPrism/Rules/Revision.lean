import IntelliPrism.Rules.Database
import Mathlib.Logic.Relation

/-!
# The revision tells rule sets apart

A node compares revisions instead of rules, so a write that changes what `ruleSet` reads has to move the
revision on, by whatever path it does so: a statement, an upsert, or a cascade into a joined table.  Rows of
the tenants, users and plugins that are joined in have no trigger; a row that is referred to cannot change
under the row that refers to it, and cannot go without it.

* `Leaves` — what one write of those tables leaves of what is joined, and of the plugin rules;
* `Tells` — the revision did not go back, and where it stands still so does what is read;
* `tells_write` — every committed write does that;
* `revision_tells_apart` — **so does every sequence of them**;
* `storage_of_writes` — such a sequence is a history of `Storage`, which moves on with every change.
-/

namespace IntelliPrism.Rules

open IntelliPrism.Lib IntelliPrism.Core IntelliPrism.Gateway
open IntelliPrism.Plugins (RowId Supply RuleRow plainChecksum)

/-! ### What a write leaves of what is joined -/

/-- The row ids both stores have are the same rows in both, and the rules are the same, or more, or some of
those that were there. -/
structure Leaves (s s' : Plugins.Store) : Prop where
  tenants : s.tenants.Agrees s'.tenants
  users : s.users.Agrees s'.users
  plugins : s.plugins.Agrees s'.plugins
  rules : s'.rules.rows = s.rules.rows ∨ s.rules.rows.length < s'.rules.rows.length ∨
    ∃ p, s'.rules.rows = s.rules.rows.filter p

namespace Leaves

variable {s s' : Plugins.Store}

theorem refl (s : Plugins.Store) : Leaves s s := ⟨.refl _, .refl _, .refl _, .inl rfl⟩

theorem insertRule {plugin : RowId} {chain : Plugins.Chain} {user : Option RowId} {api : Option ApiId}
    {kind : PluginKind} {order : PluginOrder} {now : Timestamp}
    (h : s.insertRule plugin chain user api kind order now = .ok s') : Leaves s s' := by
  unfold Plugins.Store.insertRule at h
  split at h
  · split at h
    · dsimp only at h
      split at h
      · cases h
      · split at h <;> cases h
        refine ⟨.refl _, .refl _, .refl _, .inr (.inl ?_)⟩
        rw [List.length_append]
        exact Nat.lt_succ_self _
    · cases h
  · cases h

theorem removeRule {tenant : Option TenantId} {kind : PluginKind} {order : PluginOrder}
    (h : s.removeRule tenant kind order = .ok s') : Leaves s s' := by
  unfold Plugins.Store.removeRule at h
  dsimp only at h
  split at h
  · cases h
  · split at h <;> cases h
    exact ⟨.refl _, .refl _, .refl _, .inr (.inr ⟨_, rfl⟩)⟩

theorem insertWasm {checksum : Checksum} {x : Supply} {kind : PluginKind} {wasm : List UInt8}
    {record : Plugins.PluginRecord} (h : s.insertWasm checksum x kind wasm = .ok (s', record)) :
    Leaves s s' := by
  unfold Plugins.Store.insertWasm at h
  split at h
  · split at h <;> cases h
    exact .refl s
  · dsimp only at h
    split at h
    · cases h
    · rename_i hadd
      cases h
      exact ⟨.refl _, .refl _, .add hadd, .inl rfl⟩

theorem insertOwner {x : Supply} {plugin : Plugins.PluginRecord} {owner : Plugins.PluginOwner}
    {since : Timestamp} (h : s.insertOwner x plugin owner = .ok (s', since)) :
    s'.tenants = s.tenants ∧ s'.users = s.users ∧ s'.plugins = s.plugins ∧ s'.rules = s.rules := by
  unfold Plugins.Store.insertOwner at h
  split at h
  · cases h
  · split at h
    · cases h
      exact ⟨rfl, rfl, rfl, rfl⟩
    · dsimp only at h
      split at h
      · cases h
      · split at h <;> cases h
        exact ⟨rfl, rfl, rfl, rfl⟩

theorem deleteOwner {checksum : Checksum} {owner : Plugins.PluginOwner} {record : Plugins.PluginRecord}
    (h : s.deleteOwner checksum owner = .ok (s', record)) :
    s'.tenants = s.tenants ∧ s'.users = s.users ∧ s'.plugins = s.plugins ∧ s'.rules = s.rules := by
  unfold Plugins.Store.deleteOwner at h
  split at h
  · cases h
  · split at h
    · cases h
    · split at h
      · cases h
      · split at h <;> cases h
        exact ⟨rfl, rfl, rfl, rfl⟩

theorem deleteUnowned {plugin : Plugins.PluginRecord} {swept : Bool}
    (h : s.deleteUnowned plugin = .ok (s', swept)) : Leaves s s' := by
  unfold Plugins.Store.deleteUnowned at h
  split at h
  · cases h
    exact .refl s
  · split at h <;> cases h
    exact ⟨.refl _, .refl _, .without _ _, .inl rfl⟩

theorem congr {s₁ s₂ : Plugins.Store} (h : Leaves s₁ s₂)
    (h₁ : s₁.tenants = s.tenants ∧ s₁.users = s.users ∧ s₁.plugins = s.plugins ∧ s₁.rules = s.rules)
    (h₂ : s'.tenants = s₂.tenants ∧ s'.users = s₂.users ∧ s'.plugins = s₂.plugins ∧ s'.rules = s₂.rules) :
    Leaves s s' := by
  refine ⟨?_, ?_, ?_, ?_⟩
  · rw [← h₁.1, h₂.1]
    exact h.tenants
  · rw [← h₁.2.1, h₂.2.1]
    exact h.users
  · rw [← h₁.2.2.1, h₂.2.2.1]
    exact h.plugins
  · rw [← h₁.2.2.2, h₂.2.2.2]
    exact h.rules

theorem putPlugin {checksumOf : List UInt8 → Checksum} {x : Supply} {new : Plugins.NewPlugin}
    {record : Plugins.PluginRecord} (h : s.putPlugin checksumOf x new = .ok (s', record)) : Leaves s s' := by
  obtain ⟨⟨s₁, plugin⟩, hwasm, h⟩ := ok_of_bind h
  obtain ⟨⟨s₂, since⟩, howner, h⟩ := ok_of_bind h
  cases h
  exact (insertWasm hwasm).congr ⟨rfl, rfl, rfl, rfl⟩ (insertOwner howner)

theorem disownPlugin {checksum : Checksum} {owner : Plugins.PluginOwner} {swept : Bool}
    (h : s.disownPlugin checksum owner = .ok (s', swept)) : Leaves s s' := by
  obtain ⟨⟨s₁, plugin⟩, howner, hsweep⟩ := ok_of_bind h
  exact (deleteUnowned hsweep).congr (deleteOwner howner) ⟨rfl, rfl, rfl, rfl⟩

theorem createTenant {x : Supply} {id : TenantId} (h : s.createTenant x id = .ok s') : Leaves s s' := by
  unfold Plugins.Store.createTenant at h
  split at h
  · cases h
  · split at h
    · cases h
    · rename_i hadd
      cases h
      exact ⟨.add hadd, .refl _, .refl _, .inl rfl⟩

theorem deleteTenant {id : TenantId} (h : s.deleteTenant id = .ok s') : Leaves s s' := by
  unfold Plugins.Store.deleteTenant at h
  split at h <;> cases h
  exact ⟨.without _ _, .refl _, .refl _, .inr (.inr ⟨_, rfl⟩)⟩

theorem createUser {x : Supply} {id : UserId} (h : s.createUser x id = .ok s') : Leaves s s' := by
  unfold Plugins.Store.createUser at h
  split at h
  · cases h
  · split at h
    · cases h
    · rename_i hadd
      cases h
      exact ⟨.refl _, .add hadd, .refl _, .inl rfl⟩

theorem deleteUser {id : UserId} (h : s.deleteUser id = .ok s') : Leaves s s' := by
  unfold Plugins.Store.deleteUser at h
  split at h <;> cases h
  exact ⟨.refl _, .without _ _, .refl _, .inr (.inr ⟨_, rfl⟩)⟩

/-- **Every write of those tables leaves what is joined.** -/
theorem outcome {checksumOf : List UInt8 → Checksum} {x : Supply} {op : Plugins.Op} {value : op.Val}
    (h : Plugins.outcome checksumOf x op s = .ok (s', value)) : Leaves s s' := by
  cases op with
  | tenantRowId _ | userRowId _ | ownedPlugin _ _ =>
    have hsame : s' = s := Plugins.outcome_reads h trivial
    rw [hsame]
    exact .refl s
  | insertRule plugin chain user api kind order => exact insertRule (Plugins.ok_of_left h)
  | removeRule tenant kind order => exact removeRule (Plugins.ok_of_left h)
  | putPlugin new => exact putPlugin h
  | disownPlugin checksum owner => exact disownPlugin h
  | createTenant id => exact createTenant (Plugins.ok_of_left h)
  | deleteTenant id => exact deleteTenant (Plugins.ok_of_left h)
  | createUser id => exact createUser (Plugins.ok_of_left h)
  | deleteUser id => exact deleteUser (Plugins.ok_of_left h)

theorem rules_eq (h : Leaves s s') (hfired : Database.fired s.rules.rows s'.rules.rows = 0) :
    s'.rules.rows = s.rules.rows := by
  unfold Database.fired at hfired
  rcases h.rules with hsame | hmore | ⟨p, hfewer⟩
  · exact hsame
  · omega
  · rw [hfewer] at hfired ⊢
    have hle := List.length_filter_le p s.rules.rows
    exact List.filter_eq_self.mpr (List.length_filter_eq_length_iff.mp (by omega))

end Leaves

/-! ### What the revision tells -/

/-- The revision did not go back, and where it stands still so does what is read. -/
structure Tells (db db' : Database) : Prop where
  le : db.revision ≤ db'.revision
  same : db'.revision = db.revision → db'.tables = db.tables

namespace Tells

variable {db db₁ db₂ : Database}

theorem refl (db : Database) : Tells db db := ⟨le_rfl, fun _ => rfl⟩

theorem trans (h₁ : Tells db db₁) (h₂ : Tells db₁ db₂) : Tells db db₂ := by
  refine ⟨h₁.le.trans h₂.le, fun heq => ?_⟩
  have hle₁ := h₁.le
  have hle₂ := h₂.le
  rw [h₂.same (by omega), h₁.same (by omega)]

theorem of_lt (h : db.revision < db₁.revision) : Tells db db₁ := ⟨h.le, fun heq => by omega⟩

end Tells

namespace Database

theorem mem_orderBy {α : Type} {order : α → α → Ordering} {rows : List α} {a : α} :
    a ∈ orderBy order rows ↔ a ∈ rows := (List.perm_insertionSort _ rows).mem_iff

variable {db db' : Database}

theorem upsertRoute_lt {x : Supply} {rule : RouteRule} {left : Database × RowId}
    (h : db.upsertRoute x rule = .ok left) : db.revision < left.1.revision := by
  unfold upsertRoute at h
  split at h
  · cases h
    exact Nat.lt_succ_self _
  · split at h <;> cases h
    exact Nat.lt_succ_self _

theorem insertTargets_le {route : RowId} {position : ℕ} {weighted : List Weighted}
    (h : insertTargets route position weighted db = .ok db') : db.revision ≤ db'.revision := by
  induction weighted generalizing db position with
  | nil =>
    cases h
    exact le_rfl
  | cons this rest ih =>
    obtain ⟨db₁, hinsert, h⟩ := ok_of_bind h
    refine Nat.le_trans ?_ (ih h)
    unfold insertTarget at hinsert
    split at hinsert
    · cases hinsert
    · split at hinsert <;> cases hinsert
      exact Nat.le_succ _

/-- Putting a route moves the revision on, whether it is new, changed or the same. -/
theorem putRoute_lt {x : Supply} {rule : RouteRule} (h : db.putRoute x rule = .ok db') :
    db.revision < db'.revision := by
  obtain ⟨⟨db₁, route⟩, hupsert, h⟩ := ok_of_bind h
  have hlt : db.revision < db₁.revision := upsertRoute_lt hupsert
  have hle : db₁.revision + _ ≤ db'.revision := insertTargets_le h
  omega

theorem removeRoute_lt {key : RouteKey} (h : db.removeRoute key = .ok db') :
    db.revision < db'.revision := by
  unfold removeRoute at h
  split at h <;> cases h
  show db.revision < db.revision + 1 + _
  omega

theorem upsertLimit_lt {x : Supply} {tenant : RowId} {user : Option RowId} {api : Option ApiId}
    {counted : Counted} {period : Period} {allowance : Allowance}
    (h : db.upsertLimit x tenant user api counted period allowance = .ok db') :
    db.revision < db'.revision := by
  unfold upsertLimit at h
  split at h
  · cases h
    exact Nat.lt_succ_self _
  · split at h
    · cases h
    · split at h <;> cases h
      exact Nat.lt_succ_self _

theorem deleteLimit_lt {key : LimitKey} {id : String} (h : db.deleteLimit key id = .ok db') :
    db.revision < db'.revision := by
  unfold deleteLimit at h
  split at h
  · cases h
  · rename_i hsome
    cases h
    exact Nat.lt_add_of_pos_right (Nat.pos_of_ne_zero hsome)

/-! ### The joined tables -/

theorem tenantId_settle {base : Plugins.Store} (h : Leaves db.base base) {row : RowId}
    (hrow : db.base.tenants.HasRow row) (hrow' : base.tenants.HasRow row) :
    (db.settle base).tenantId row = db.tenantId row :=
  congrArg (Option.map Plugins.TenantRow.id) (h.tenants.find_eq hrow hrow')

/-- The id of an account that is there before and after, or that none is named. -/
theorem userId_settle {base : Plugins.Store} (h : Leaves db.base base) {user : Option RowId}
    (huser : ∀ row, user = some row → db.base.users.HasRow row)
    (huser' : ∀ row, user = some row → base.users.HasRow row) :
    user.bind (db.settle base).userId = user.bind db.userId := by
  cases user with
  | none => rfl
  | some row =>
    exact congrArg (Option.map Plugins.UserRow.id) (h.users.find_eq (huser row rfl) (huser' row rfl))

/-- **Where no trigger fired, what is read of the rules is as it was**: what they refer to is there before
and after, and is the same row. -/
theorem readRules_settle {base : Plugins.Store} (h : Leaves db.base base)
    (hrules : base.rules.rows = db.base.rules.rows) : (db.settle base).readRules = db.readRules := by
  unfold readRules
  show ((orderBy ruleOrder base.rules.rows).filterMap (db.settle base).pluginRule).mapM id = _
  rw [hrules]
  refine congrArg (List.mapM id) (List.filterMap_congr fun r hr => ?_)
  have hmem : r ∈ db.base.rules.rows := mem_orderBy.mp hr
  have hmem' : r ∈ base.rules.rows := by
    rw [hrules]
    exact hmem
  obtain ⟨hplugin, htenant, huser⟩ := db.base.rulesRefer r hmem
  obtain ⟨hplugin', htenant', huser'⟩ := base.rulesRefer r hmem'
  have hchain : r.chain.bind (db.settle base).tenantId = r.chain.bind db.tenantId := by
    cases hr : r.chain with
    | none => rfl
    | some tenant => exact tenantId_settle h (htenant tenant hr) (htenant' tenant hr)
  unfold pluginRule
  rw [hchain, userId_settle h huser huser']
  show (base.plugins.byRow.find r.plugin).map _ = (db.base.plugins.byRow.find r.plugin).map _
  rw [h.plugins.find_eq hplugin hplugin']

theorem readLimits_settle {base : Plugins.Store} (h : Leaves db.base base)
    (hlimits : (db.settle base).limits.rows = db.limits.rows) :
    (db.settle base).readLimits = db.readLimits := by
  unfold readLimits
  rw [hlimits]
  refine List.filterMap_congr fun l hl => ?_
  have hmem : l ∈ db.limits.rows := mem_orderBy.mp hl
  obtain ⟨htenant, huser⟩ := db.limitsRefer l hmem
  obtain ⟨htenant', huser'⟩ := (db.settle base).limitsRefer l (by rw [hlimits]; exact hmem)
  rw [limitOf, limitOf, userId_settle h huser huser', tenantId_settle h htenant htenant']

/-- The limits that are left are all there were, where none fired its trigger. -/
theorem limits_settle {base : Plugins.Store}
    (h : db.limits.rows.countP (fun l => !refers base l) = 0) :
    (db.settle base).limits.rows = db.limits.rows := by
  show db.limits.rows.filter (refers base) = db.limits.rows
  refine List.filter_eq_self.mpr fun l hl => ?_
  have hnot := List.countP_eq_zero.mp h l hl
  simpa using hnot

/-- **A write of the joined tables tells**: it fires a trigger, or nothing that is read has changed. -/
theorem tells_settle {base : Plugins.Store} (h : Leaves db.base base) : Tells db (db.settle base) := by
  have hrevision : (db.settle base).revision = db.revision + fired db.base.rules.rows base.rules.rows +
    db.limits.rows.countP fun l => !refers base l := rfl
  refine ⟨by omega, fun heq => ?_⟩
  have hrules := readRules_settle h (h.rules_eq (by omega))
  have hlimits := readLimits_settle h (limits_settle (by omega))
  unfold tables
  rw [hrules, hlimits]
  rfl

end Database

/-- **Every committed write tells.** -/
theorem tells_write {checksumOf : List UInt8 → Checksum} {db db' : Database} (h : Write checksumOf db db') :
    Tells db db' := by
  cases h with
  | putRoute x rule h => exact .of_lt (Database.putRoute_lt h)
  | removeRoute key h => exact .of_lt (Database.removeRoute_lt h)
  | upsertLimit x tenant user api counted period allowance h => exact .of_lt (Database.upsertLimit_lt h)
  | deleteLimit key id h => exact .of_lt (Database.deleteLimit_lt h)
  | other x op value h => exact Database.tells_settle (.outcome h)

/-- **Every sequence of them tells.** -/
theorem tells_writes {checksumOf : List UInt8 → Checksum} {db db' : Database}
    (h : Relation.ReflTransGen (Write checksumOf) db db') : Tells db db' := by
  induction h with
  | refl => exact .refl db
  | tail _ hlast ih => exact ih.trans (tells_write hlast)

/-! ### What `ruleSet` returns -/

/-- What was read: the number as the revision, and what the tables hold. -/
theorem ruleSet_ok {db : Database} {set : RuleSet} (h : db.ruleSet = .ok set) :
    set.revision.toNat = db.revision ∧ db.revision ≤ Database.columnMax ∧ db.tables = .ok set.toTables := by
  obtain ⟨revision, hrevision, h⟩ := ok_of_bind h
  obtain ⟨tables, htables, h⟩ := ok_of_bind h
  cases h
  unfold Database.readRevision at hrevision
  split at hrevision
  · rename_i hle
    cases hrevision
    refine ⟨UInt64.toNat_ofNat_of_lt' ?_, hle, htables⟩
    exact Nat.lt_of_le_of_lt hle (by decide)
  · cases hrevision

/-- **The revision tells rule sets apart.**  Over every sequence of committed writes, from any database, the
revision never decreases; and when the routes, plugin rules or limits that are read differ between two
moments, the revision at the later is strictly greater. -/
theorem revision_tells_apart {checksumOf : List UInt8 → Checksum} {db db' : Database}
    (h : Relation.ReflTransGen (Write checksumOf) db db') :
    db.revision ≤ db'.revision ∧ (db'.tables ≠ db.tables → db.revision < db'.revision) ∧
      ∀ set set' : RuleSet, db.ruleSet = .ok set → db'.ruleSet = .ok set' →
        set.revision ≤ set'.revision ∧ (set'.toTables ≠ set.toTables → set.revision < set'.revision) := by
  have htells := tells_writes h
  have hle := htells.le
  have hlt : db'.tables ≠ db.tables → db.revision < db'.revision := fun hne =>
    Nat.lt_of_le_of_ne hle fun heq => hne (htells.same heq.symm)
  refine ⟨hle, hlt, fun set set' hset hset' => ?_⟩
  obtain ⟨hrevision, -, htables⟩ := ruleSet_ok hset
  obtain ⟨hrevision', -, htables'⟩ := ruleSet_ok hset'
  refine ⟨UInt64.le_iff_toNat_le.mpr (by omega), fun hne => UInt64.lt_iff_toNat_lt.mpr ?_⟩
  rw [hrevision, hrevision']
  refine hlt fun heq => hne ?_
  rw [htables, htables'] at heq
  exact Except.ok.inj heq

/-- The first row of a table, written at the epoch. -/
def firstRow : Supply := ⟨⟨1, Nat.one_pos⟩, .epoch, .epoch⟩

/-- A tenant's limit goes with the tenant: no statement touched the limits, and the revision moved on. -/
theorem revision_tells_of_cascade :
    ∃ db db' : Database, Relation.ReflTransGen (Write plainChecksum) db db' ∧
      db'.tables ≠ db.tables ∧ db.revision < db'.revision := by
  have hrun : ((Plugins.outcome plainChecksum firstRow (.createTenant acme) .empty).toOption.any fun left =>
      ((Database.empty.settle left.1).upsertLimit firstRow firstRow.row none none .tokens .month
        ⟨1000, by decide⟩).toOption.any fun db =>
          (Plugins.outcome plainChecksum firstRow (.deleteTenant acme) db.base).toOption.any fun left =>
            (db.tables.toOption.any fun tables => tables.limits.length == 1) &&
              (db.settle left.1).tables.toOption.any fun tables => tables.limits.length == 0) = true := by
    decide +kernel
  obtain ⟨⟨base, _⟩, -, hrun⟩ := (Option.any_eq_true _ _).mp hrun
  obtain ⟨db, -, hrun⟩ := (Option.any_eq_true _ _).mp hrun
  obtain ⟨⟨base', value⟩, hdelete, hrun⟩ := (Option.any_eq_true _ _).mp hrun
  obtain ⟨hbefore, hafter⟩ := Bool.and_eq_true_iff.mp hrun
  have hreach : Relation.ReflTransGen (Write plainChecksum) db (db.settle base') :=
    .single (.other firstRow (.deleteTenant acme) value (ok_of_toOption hdelete))
  have hne : (db.settle base').tables ≠ db.tables := by
    intro heq
    rw [heq] at hafter
    obtain ⟨tables, htables, hone⟩ := (Option.any_eq_true _ _).mp hbefore
    rw [htables] at hafter
    have hzero : tables.limits.length = 0 := beq_iff_eq.mp hafter
    rw [beq_iff_eq.mp hone] at hzero
    cases hzero
  exact ⟨db, db.settle base', hreach, hne, (revision_tells_apart hreach).2.1 hne⟩

/-! ### Storage, as the nodes see it -/

/-- **Such a sequence is a history of `Storage`**: what is read after it is what storage stood at, or is
committed to it. -/
theorem storage_of_writes {checksumOf : List UInt8 → Checksum} {db db' : Database}
    (h : Relation.ReflTransGen (Write checksumOf) db db') {store : Storage} {set' : RuleSet}
    (hset : db.ruleSet = .ok store.ruleSet) (hset' : db'.ruleSet = .ok set') :
    store.ruleSet = set' ∨
      ∃ store', store.commit set'.revision set'.toTables = some store' ∧ store'.ruleSet = set' := by
  have htells := tells_writes h
  obtain ⟨hrevision, -, htables⟩ := ruleSet_ok hset
  obtain ⟨hrevision', hmax, htables'⟩ := ruleSet_ok hset'
  rcases Nat.lt_or_eq_of_le htells.le with hlt | heq
  · have hforward : store.version < set'.revision ∧ set'.revision < Storage.revisionEnd := by
      refine ⟨UInt64.lt_iff_toNat_lt.mpr ?_, UInt64.lt_iff_toNat_lt.mpr ?_⟩
      · rw [hrevision']
        exact hrevision ▸ hlt
      · rw [hrevision']
        exact Nat.lt_succ_of_le hmax
    exact .inr ⟨store.move set'.revision set'.toTables hforward.1, dif_pos hforward, rfl⟩
  · left
    rw [htells.same heq.symm, htables] at htables'
    have hsame := UInt64.toNat_inj.mp ((hrevision.trans heq).trans hrevision'.symm)
    cases set'
    cases hsame
    cases htables'
    rfl

end IntelliPrism.Rules
