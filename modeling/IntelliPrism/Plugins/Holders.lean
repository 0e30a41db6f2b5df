import IntelliPrism.Plugins.Ownership
import Mathlib.Logic.Relation

/-!
# Stored wasm has an owner

A plugin's wasm is stored for an owner and goes with the last of its owners: disowning sweeps what nobody
holds any more, in the same transaction.  Deleting a tenant takes its holds by a cascade of the schema, and
nothing sweeps after that.

* `AllHeld` — every stored plugin is held by some chain;
* `LastHolder` — a tenant that alone holds some plugin;
* `plugins_held_of_spared` — **stored wasm has an owner**, over every sequence of completed requests that
  deletes no tenant while it is the last holder of a plugin;
* `orphaned_by_deleted_tenant` — a sequence that does.
-/

namespace IntelliPrism.Plugins

open IntelliPrism.Core IntelliPrism.Lib IntelliPrism.Manage
open IntelliPrism.Gateway (acme)

/-- Some chain holds the plugin in a row. -/
def Store.HasOwner (s : Store) (plugin : RowId) : Prop := ∃ o ∈ s.owners.rows, o.plugin = plugin

def AllHeld (s : Store) : Prop := ∀ p ∈ s.plugins.rows, s.HasOwner p.rowId

/-- A tenant whose chain alone holds some plugin. -/
def LastHolder (s : Store) (id : TenantId) : Prop :=
  ∃ tenant ∈ s.tenants.rows, tenant.id = id ∧
    ∃ p ∈ s.plugins.rows, ∀ o ∈ s.owners.rows, o.plugin = p.rowId → o.chain = some tenant.rowId

instance (s : Store) : Decidable (AllHeld s) :=
  inferInstanceAs (Decidable (∀ p ∈ s.plugins.rows, ∃ o ∈ s.owners.rows, o.plugin = p.rowId))

instance (s : Store) (id : TenantId) : Decidable (LastHolder s id) :=
  inferInstanceAs (Decidable (∃ tenant ∈ s.tenants.rows, tenant.id = id ∧
    ∃ p ∈ s.plugins.rows, ∀ o ∈ s.owners.rows, o.plugin = p.rowId → o.chain = some tenant.rowId))

/-! ### What each write leaves of the holds -/

section Writes

variable {s s' : Store}

/-- Storing wasm adds at most the plugin it answers with, and no hold changes. -/
theorem insertWasm_ok {checksum : Checksum} {x : Supply} {kind : PluginKind} {wasm : List UInt8}
    {record : PluginRecord} (hok : s.insertWasm checksum x kind wasm = .ok (s', record)) :
    s'.owners = s.owners ∧ ∀ p ∈ s'.plugins.rows, p ∈ s.plugins.rows ∨ p.rowId = record.rowId := by
  unfold Store.insertWasm at hok
  split at hok
  · split at hok <;> cases hok
    exact ⟨rfl, fun p hp => .inl hp⟩
  · dsimp only at hok
    split at hok
    · cases hok
    · rename_i plugins hadd
      cases hok
      refine ⟨rfl, fun p hp => ?_⟩
      have hrows : p ∈ plugins.rows := hp
      rw [(RowTable.add_eq_some hadd).2] at hrows
      rcases List.mem_append.mp hrows with hold | hnew
      · exact .inl hold
      · rw [List.mem_singleton.mp hnew]
        exact .inr rfl

/-- Recording an owner loses no hold, and the plugin is held after it. -/
theorem insertOwner_ok {x : Supply} {plugin : PluginRecord} {owner : PluginOwner} {since : Timestamp}
    (hok : s.insertOwner x plugin owner = .ok (s', since)) :
    s'.plugins = s.plugins ∧ (∀ o ∈ s.owners.rows, o ∈ s'.owners.rows) ∧ s'.HasOwner plugin.rowId := by
  unfold Store.insertOwner at hok
  split at hok
  · cases hok
  · rename_i chain hchain
    split at hok
    · rename_i held hheld
      cases hok
      obtain ⟨hmem, hkey⟩ := Table.find_eq_some.mp hheld
      exact ⟨rfl, fun o ho => ho, held, hmem, (Prod.mk.inj hkey).2⟩
    · dsimp only at hok
      split at hok
      · cases hok
      · rename_i owners hinsert
        split at hok <;> cases hok
        have hrows := (Table.insert_eq_some hinsert).2
        refine ⟨rfl, fun o ho => ?_, ⟨plugin.rowId, chain, x.ownedAt⟩, ?_, rfl⟩
        · show o ∈ owners.rows
          rw [hrows]
          exact List.mem_append_left _ ho
        · show _ ∈ owners.rows
          rw [hrows]
          exact List.mem_append_right _ (List.mem_singleton_self _)

theorem AllHeld.putPlugin (h : AllHeld s) {checksumOf : List UInt8 → Checksum} {x : Supply}
    {new : NewPlugin} {record : PluginRecord} (hok : s.putPlugin checksumOf x new = .ok (s', record)) :
    AllHeld s' := by
  obtain ⟨⟨s₁, plugin⟩, hwasm, hok⟩ := ok_of_bind hok
  obtain ⟨⟨s₂, since⟩, howner, hok⟩ := ok_of_bind hok
  cases hok
  obtain ⟨howners, hplugins⟩ := insertWasm_ok hwasm
  obtain ⟨hsame, hkept, hheld⟩ := insertOwner_ok howner
  intro p hp
  rw [hsame] at hp
  rcases hplugins p hp with hold | hnew
  · obtain ⟨o, ho, hplugin⟩ := h p hold
    refine ⟨o, hkept o ?_, hplugin⟩
    rw [howners]
    exact ho
  · rw [hnew]
    exact hheld

theorem deleteOwner_ok {checksum : Checksum} {owner : PluginOwner} {record : PluginRecord}
    (hok : s.deleteOwner checksum owner = .ok (s', record)) :
    s'.plugins = s.plugins ∧ ∀ o ∈ s.owners.rows, o.plugin ≠ record.rowId → o ∈ s'.owners.rows := by
  unfold Store.deleteOwner at hok
  split at hok
  · cases hok
  · split at hok
    · cases hok
    · split at hok
      · cases hok
      · split at hok <;> cases hok
        refine ⟨rfl, fun o ho hne => Table.mem_keep.mpr ⟨ho, bne_iff_ne.mpr fun hkey => hne ?_⟩⟩
        exact (Prod.mk.inj hkey).2

/-- The sweep takes the plugin it is for, or leaves it held; it takes no other, and no hold. -/
theorem deleteUnowned_ok {plugin : PluginRecord} {swept : Bool}
    (hok : s.deleteUnowned plugin = .ok (s', swept)) :
    s'.owners = s.owners ∧ (∀ p ∈ s'.plugins.rows, p ∈ s.plugins.rows) ∧
      ∀ p ∈ s'.plugins.rows, p.rowId = plugin.rowId → s'.HasOwner plugin.rowId := by
  unfold Store.deleteUnowned at hok
  split at hok
  · rename_i hheld
    cases hok
    exact ⟨rfl, fun p hp => hp, fun p hp hrow => hheld⟩
  · split at hok
    · cases hok
    · cases hok
      refine ⟨rfl, fun p hp => (RowTable.mem_without.mp hp).1, fun p hp hrow => ?_⟩
      exact absurd hrow (RowTable.mem_without.mp hp).2

theorem AllHeld.disownPlugin (h : AllHeld s) {checksum : Checksum} {owner : PluginOwner} {swept : Bool}
    (hok : s.disownPlugin checksum owner = .ok (s', swept)) : AllHeld s' := by
  obtain ⟨⟨s₁, plugin⟩, howner, hsweep⟩ := ok_of_bind hok
  obtain ⟨hplugins, hothers⟩ := deleteOwner_ok howner
  obtain ⟨howners, hkept, hthis⟩ := deleteUnowned_ok hsweep
  intro p hp
  by_cases hrow : p.rowId = plugin.rowId
  · rw [hrow]
    exact hthis p hp hrow
  · have hstored := hkept p hp
    rw [hplugins] at hstored
    obtain ⟨o, ho, hplugin⟩ := h p hstored
    refine ⟨o, ?_, hplugin⟩
    rw [howners]
    exact hothers o ho fun heq => hrow (hplugin.symm.trans heq)

theorem AllHeld.insertRule (h : AllHeld s) {plugin : RowId} {chain : Chain} {user : Option RowId}
    {api : Option ApiId} {kind : PluginKind} {order : PluginOrder} {now : Timestamp}
    (hok : s.insertRule plugin chain user api kind order now = .ok s') : AllHeld s' := by
  unfold Store.insertRule at hok
  split at hok
  · split at hok
    · dsimp only at hok
      split at hok
      · cases hok
      · split at hok <;> cases hok
        exact h
    · cases hok
  · cases hok

theorem AllHeld.removeRule (h : AllHeld s) {tenant : Option TenantId} {kind : PluginKind}
    {order : PluginOrder} (hok : s.removeRule tenant kind order = .ok s') : AllHeld s' := by
  unfold Store.removeRule at hok
  dsimp only at hok
  split at hok
  · cases hok
  · split at hok <;> cases hok
    exact h

theorem AllHeld.createTenant (h : AllHeld s) {x : Supply} {id : TenantId}
    (hok : s.createTenant x id = .ok s') : AllHeld s' := by
  unfold Store.createTenant at hok
  split at hok
  · cases hok
  · split at hok <;> cases hok
    exact h

theorem AllHeld.createUser (h : AllHeld s) {x : Supply} {id : UserId}
    (hok : s.createUser x id = .ok s') : AllHeld s' := by
  unfold Store.createUser at hok
  split at hok
  · cases hok
  · split at hok <;> cases hok
    exact h

theorem AllHeld.deleteUser (h : AllHeld s) {id : UserId} (hok : s.deleteUser id = .ok s') :
    AllHeld s' := by
  unfold Store.deleteUser at hok
  split at hok <;> cases hok
  exact h

/-- **Deleting a tenant leaves every plugin held exactly when the tenant is the last holder of none.** -/
theorem allHeld_deleteTenant_iff {id : TenantId} (hok : s.deleteTenant id = .ok s') :
    AllHeld s' ↔ ¬ LastHolder s id := by
  unfold Store.deleteTenant at hok
  split at hok
  · cases hok
  · rename_i found hfound
    cases hok
    obtain ⟨hmem, hid⟩ := Table.find_eq_some.mp hfound
    constructor
    · intro hheld hlast
      obtain ⟨tenant, htenant, hsame, p, hp, honly⟩ := hlast
      have heq : tenant = found := Table.eq_of_key htenant hmem (hsame.trans hid.symm)
      obtain ⟨o, ho, hplugin⟩ := hheld p hp
      obtain ⟨hrow, hother⟩ := Table.mem_keep.mp ho
      rw [← heq] at hother
      exact bne_iff_ne.mp hother (honly o hrow hplugin)
    · intro hspared p hp
      by_contra hnone
      refine hspared ⟨found, hmem, hid, p, hp, fun o ho hplugin => ?_⟩
      by_contra hother
      exact hnone ⟨o, Table.mem_keep.mpr ⟨ho, bne_iff_ne.mpr hother⟩, hplugin⟩

end Writes

/-! ### Requests, one after the other -/

section Runs

variable {checksumOf : List UInt8 → Checksum} {s s' : Store}

def Op.KeepsTenants : Op → Prop
  | .deleteTenant _ => False
  | _ => True

/-- **Every call that deletes no tenant keeps every plugin held.** -/
theorem AllHeld.handle (h : AllHeld s) {op : Op} (hop : op.KeepsTenants) (x : Option Supply) :
    AllHeld (handle checksumOf x op s).1 := by
  refine handle_left h fun x s' value hok => ?_
  cases op with
  | tenantRowId _ | userRowId _ | ownedPlugin _ _ =>
    have hsame : s' = s := outcome_reads hok trivial
    rw [hsame]
    exact h
  | insertRule plugin chain user api kind order => exact h.insertRule (ok_of_left hok)
  | removeRule tenant kind order => exact h.removeRule (ok_of_left hok)
  | putPlugin new => exact h.putPlugin hok
  | disownPlugin checksum owner => exact h.disownPlugin hok
  | createTenant id => exact h.createTenant (ok_of_left hok)
  | deleteTenant id => exact hop.elim
  | createUser id => exact h.createUser (ok_of_left hok)
  | deleteUser id => exact h.deleteUser (ok_of_left hok)

theorem calls_place (rule : NewPluginRule) (chain : Chain) (user : Option RowId) (api : Option ApiId) :
    (place rule chain user api).Calls Op.KeepsTenants := by
  refine .bind ⟨trivial, fun _ => trivial⟩ fun answer => ?_
  rcases answer with error | (_ | ⟨plugin, kind⟩)
  · exact trivial
  · exact trivial
  · refine .bind ⟨trivial, fun _ => trivial⟩ fun answer => ?_
    cases answer <;> exact trivial

theorem calls_putRule (rule : NewPluginRule) : (putRule rule).Calls Op.KeepsTenants := by
  unfold putRule
  split
  · exact calls_place ..
  · refine .bind ⟨trivial, fun _ => trivial⟩ fun answer => ?_
    cases answer with
    | error error => exact trivial
    | ok row =>
      dsimp only
      split
      · exact calls_place ..
      · refine .bind ⟨trivial, fun _ => trivial⟩ fun answer => ?_
        cases answer with
        | error error => exact trivial
        | ok account => exact calls_place ..

theorem calls_serve {request : Request} (h : ∀ id, request ≠ .deleteTenant id) :
    (serve request).Calls Op.KeepsTenants := by
  cases request with
  | deleteTenant id => exact absurd rfl (h id)
  | place rule => exact .bind (calls_putRule rule) fun _ => trivial
  | _ => exact ⟨trivial, fun _ => trivial⟩

/-- A request that deletes no tenant while it is the last holder of a plugin. -/
def Request.Spares (request : Request) (s : Store) : Prop :=
  ∀ id, request = .deleteTenant id → ¬ LastHolder s id

/-- A request is served alone, from one store to another, whatever each of its calls is supplied with. -/
def Served (checksumOf : List UInt8 → Checksum) (request : Request) (s s' : Store) : Prop :=
  ∃ answer, Process.Ends (handle checksumOf) (serve request) s s' answer

/-- Requests served one after the other, each in a store that admits it. -/
def Run (checksumOf : List UInt8 → Checksum) (C : Request → Store → Prop) : Store → Store → Prop :=
  Relation.ReflTransGen fun s s' => ∃ request, C request s ∧ Served checksumOf request s s'

/-- **One request that spares the last holders keeps every plugin held.** -/
theorem AllHeld.served (h : AllHeld s) {request : Request} (hspares : request.Spares s)
    (hserved : Served checksumOf request s s') : AllHeld s' := by
  obtain ⟨answer, hends⟩ := hserved
  by_cases hdelete : ∃ id, request = .deleteTenant id
  · obtain ⟨id, rfl⟩ := hdelete
    -- one call, and nothing after it
    obtain ⟨s₁, value₁, hcall, hrest⟩ := Process.ends_bind.mp hends
    rw [(Process.ends_pure.mp hrest).1]
    cases hcall with
    | call x hdone =>
      cases hdone
      refine handle_left h fun x s' value hok => ?_
      exact (allHeld_deleteTenant_iff (ok_of_left hok)).mpr (hspares id rfl)
  · have hcalls := calls_serve fun id heq => hdelete ⟨id, heq⟩
    exact hends.relate (R := fun s s' => AllHeld s → AllHeld s') hcalls (fun _ => id)
      (fun h₁ h₂ h => h₂ (h₁ h)) (fun op hop x s h => h.handle hop x) h

/-- **Stored wasm has an owner.**  From any store in which it does, the empty one for example, over every
finite sequence of completed uploads, disownings, placements and removals of rules, and creations and
deletions of tenants and users, in which no tenant is deleted while it is the last holder of a plugin, every
stored plugin has an owner. -/
theorem plugins_held_of_spared (hs : AllHeld s) (h : Run checksumOf Request.Spares s s') : AllHeld s' := by
  induction h with
  | refl => exact hs
  | tail _ hlast ih =>
    obtain ⟨request, hspares, hserved⟩ := hlast
    exact ih.served hspares hserved

end Runs

theorem allHeld_empty : AllHeld Store.empty := by
  intro p hp
  cases hp

/-- The store after one more request, its rows given this id. -/
def nextStore (s : Store) (row : ℕ) (request : Request) : Store :=
  (Process.exec (handle plainChecksum) (turn 0 row).2 (serve request) s).1

theorem Run.nextStore {C : Request → Store → Prop} {s s' : Store} (h : Run plainChecksum C s s') (row : ℕ)
    {request : Request} (hC : C request s') : Run plainChecksum C s (nextStore s' row request) :=
  h.tail ⟨request, hC, _, Process.ends_exec (handle plainChecksum) (turn 0 row).2 (serve request) s'⟩

/-- A store with a tenant, and a plugin stored for each of these owners. -/
def uploaded (owners : List PluginOwner) : Store :=
  owners.foldl (fun s owner => nextStore s 1 (.upload ⟨.reqBody, [7], owner⟩)) (nextStore .empty 1 (.createTenant acme))

theorem run_uploaded (owners : List PluginOwner) {C : Request → Store → Prop}
    (hC : ∀ request s, (∀ id, request ≠ .deleteTenant id) → C request s) :
    Run plainChecksum C .empty (uploaded owners) := by
  induction owners using List.reverseRecOn with
  | nil => exact Run.nextStore .refl 1 (hC _ _ nofun)
  | append_singleton owners owner ih =>
    rw [uploaded, List.foldl_append]
    exact Run.nextStore ih 1 (hC _ _ nofun)

/-- A tenant goes, and the wasm it stored stays with the global chain, which stored it too. -/
theorem plugins_held_of_shared :
    ∃ s', Run plainChecksum Request.Spares .empty s' ∧ s'.plugins.rows.length = 1 ∧
      s'.tenants.rows.length = 0 ∧ AllHeld s' := by
  have hshared : ¬ LastHolder (uploaded [.global, .tenant acme]) acme := by decide +kernel
  have hrun : Run plainChecksum Request.Spares .empty
      (nextStore (uploaded [.global, .tenant acme]) 1 (.deleteTenant acme)) := by
    refine (run_uploaded _ fun request s hkeeps id heq => absurd heq (hkeeps id)).nextStore 1 fun id heq => ?_
    cases heq
    exact hshared
  exact ⟨_, hrun, by decide +kernel, by decide +kernel, plugins_held_of_spared allHeld_empty hrun⟩

/-- **Wasm without an owner.**  A tenant stores a plugin and is deleted: its hold goes by the cascade, the
wasm stays, and nobody owns it. -/
theorem orphaned_by_deleted_tenant :
    ∃ s', Run plainChecksum (fun _ _ => True) .empty s' ∧ ∃ p ∈ s'.plugins.rows, ¬ s'.HasOwner p.rowId := by
  have hrun : Run plainChecksum (fun _ _ => True) .empty
      (nextStore (uploaded [.tenant acme]) 1 (.deleteTenant acme)) :=
    (run_uploaded _ fun _ _ _ => trivial).nextStore 1 trivial
  have hnot : ¬ AllHeld (nextStore (uploaded [.tenant acme]) 1 (.deleteTenant acme)) := by decide +kernel
  refine ⟨_, hrun, ?_⟩
  by_contra hall
  exact hnot fun p hp => by_contra fun hheld => hall ⟨p, hp, hheld⟩

end IntelliPrism.Plugins
