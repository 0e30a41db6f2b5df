import IntelliPrism.Gateway.Limit
import IntelliPrism.Lib.Rely
import IntelliPrism.Plugins.Store

/-!
# A chain runs only plugins it owns

Storing and disowning a plugin are transactions.  Placing one is not: it reads the row of its tenant, finds
the plugin among those the chain owns, and inserts the rule by the row ids it has read.  In between the
chain can let the plugin go, and the row it was found in can become another plugin's.

* `putRule`, `Request`, `serve` — the calls of the store, statement by statement;
* `RulesOwned` — every rule runs a plugin its own chain owns, as the kind it is stored as;
* `holding` — what a placement bears: its tenant stays, and its chain keeps the plugin it is to run;
* `rules_owned_of_undisturbed` — **a chain runs only plugins it owns**, along every interleaving that
  bears that;
* `placed_after_disowned` — schedules that do not.
-/

namespace IntelliPrism.Plugins

open IntelliPrism.Core IntelliPrism.Lib IntelliPrism.Manage
open IntelliPrism.Gateway (acme)

/-! ### Statements and transactions -/

/-- What is carried out at once: a statement outside a transaction, or a transaction. -/
inductive Op where
  | tenantRowId (id : TenantId)
  | userRowId (id : UserId)
  | ownedPlugin (checksum : Checksum) (chain : Chain)
  | insertRule (plugin : RowId) (chain : Chain) (user : Option RowId) (api : Option ApiId)
      (kind : PluginKind) (order : PluginOrder)
  | removeRule (tenant : Option TenantId) (kind : PluginKind) (order : PluginOrder)
  | putPlugin (new : NewPlugin)
  | disownPlugin (checksum : Checksum) (owner : PluginOwner)
  | createTenant (id : TenantId)
  | deleteTenant (id : TenantId)
  | createUser (id : UserId)
  | deleteUser (id : UserId)

/-- What each of them answers with when it succeeds. -/
abbrev Op.Val : Op → Type
  | .tenantRowId _ => RowId
  | .userRowId _ => RowId
  | .ownedPlugin _ _ => Option (RowId × PluginKind)
  | .insertRule _ _ _ _ _ _ => Unit
  | .removeRule _ _ _ => Unit
  | .putPlugin _ => PluginRecord
  | .disownPlugin _ _ => Bool
  | .createTenant _ => Unit
  | .deleteTenant _ => Unit
  | .createUser _ => Unit
  | .deleteUser _ => Unit

abbrev Op.Res (op : Op) : Type := Except StorageError op.Val

section Calls

variable (checksumOf : List UInt8 → Checksum)

/-- What a call leaves and answers, or why it fails. -/
def outcome (x : Supply) : (op : Op) → Store → Except StorageError (Store × op.Val)
  | .tenantRowId id, s => (s.tenantRowId id).map fun row => (s, row)
  | .userRowId id, s => (s.userRowId id).map fun row => (s, row)
  | .ownedPlugin checksum chain, s => .ok (s, s.ownedPlugin checksum chain)
  | .insertRule plugin chain user api kind order, s =>
    (s.insertRule plugin chain user api kind order x.storedAt).map fun s => (s, ())
  | .removeRule tenant kind order, s => (s.removeRule tenant kind order).map fun s => (s, ())
  | .putPlugin new, s => s.putPlugin checksumOf x new
  | .disownPlugin checksum owner, s => s.disownPlugin checksum owner
  | .createTenant id, s => (s.createTenant x id).map fun s => (s, ())
  | .deleteTenant id, s => (s.deleteTenant id).map fun s => (s, ())
  | .createUser id, s => (s.createUser x id).map fun s => (s, ())
  | .deleteUser id, s => (s.deleteUser id).map fun s => (s, ())

/-- One call: carried out with what it is supplied with, or failed, which leaves the store as it was. -/
def handle : Handler (Option Supply) Store Op Op.Res := fun x op s =>
  match x with
  | none => (s, .error .backend)
  | some x =>
    match outcome checksumOf x op s with
    | .error error => (s, .error error)
    | .ok (s', value) => (s', .ok value)

variable {checksumOf} {s : Store} {x : Option Supply} {op : Op}

/-- **What a call can do to the store**: nothing, or what it does when it succeeds. -/
theorem handle_left {P : Store → Prop} (hs : P s)
    (hok : ∀ x s' value, outcome checksumOf x op s = .ok (s', value) → P s') :
    P (handle checksumOf x op s).1 := by
  unfold handle
  split
  · exact hs
  · split
    · exact hs
    · rename_i houtcome
      exact hok _ _ _ houtcome

theorem ok_of_left {written : Except StorageError Store} {s' : Store} {value : Unit}
    (h : written.map (fun s => (s, ())) = .ok (s', value)) : written = .ok s' := by
  obtain ⟨left, hwritten, hleft⟩ := ok_of_map h
  rw [hwritten, (Prod.mk.inj hleft).1]

def Op.Reads : Op → Prop
  | .tenantRowId _ | .userRowId _ | .ownedPlugin _ _ => True
  | _ => False

theorem outcome_reads {x : Supply} {left : Store × op.Val} (h : outcome checksumOf x op s = .ok left)
    (hop : op.Reads) : left.1 = s := by
  cases op with
  | tenantRowId id =>
    obtain ⟨row, -, rfl⟩ := ok_of_map h
    rfl
  | userRowId id =>
    obtain ⟨row, -, rfl⟩ := ok_of_map h
    rfl
  | ownedPlugin checksum chain =>
    cases h
    rfl
  | _ => exact hop.elim

/-- **Reads leave the store alone**, and answer with what it holds. -/
theorem handle_reads (hop : op.Reads) : (handle checksumOf x op s).1 = s ∧
    ∀ value, (handle checksumOf x op s).2 = .ok value →
      ∃ x, outcome checksumOf x op s = .ok (s, value) := by
  cases x with
  | none => exact ⟨rfl, fun value h => by cases h⟩
  | some x =>
    cases houtcome : outcome checksumOf x op s with
    | error error =>
      simp only [handle, houtcome]
      exact ⟨trivial, fun value h => by cases h⟩
    | ok left =>
      obtain rfl := outcome_reads houtcome hop
      simp only [handle, houtcome]
      exact ⟨trivial, fun value h => ⟨x, by rw [houtcome, ← Except.ok.inj h]⟩⟩

end Calls

/-! ### The calls of the store -/

abbrev Action := Process Op Op.Res

def ask (op : Op) : Action op.Res := .call op .done

/-- Finds the plugin among those the chain owns, and inserts the rule. -/
def place (rule : NewPluginRule) (chain : Chain) (user : Option RowId) (api : Option ApiId) :
    Action (Except StorageError PluginRule) := do
  match ← ask (.ownedPlugin rule.checksum chain) with
  | .error error => pure (.error error)
  | .ok none => pure (.error (.notFound .plugin (shown rule.checksum)))
  | .ok (some (plugin, kind)) =>
    match ← ask (.insertRule plugin chain user api kind rule.order) with
    | .error error => pure (.error error)
    | .ok () => pure (.ok (rule.withKind kind))

/-- Places a plugin in the chain of its scope. -/
def putRule (rule : NewPluginRule) : Action (Except StorageError PluginRule) :=
  match rule.scope with
  | .global => place rule none none none
  | .tenant tenant user api => do
    match ← ask (.tenantRowId tenant) with
    | .error error => pure (.error error)
    | .ok row =>
      match user with
      | none => place rule (some row) none api
      | some user =>
        match ← ask (.userRowId user) with
        | .error error => pure (.error error)
        | .ok account => place rule (some row) (some account) api

/-- What is asked of the store. -/
inductive Request where
  | upload (new : NewPlugin)
  | disown (checksum : Checksum) (owner : PluginOwner)
  | place (rule : NewPluginRule)
  | removeRule (tenant : Option TenantId) (kind : PluginKind) (order : PluginOrder)
  | createTenant (id : TenantId)
  | deleteTenant (id : TenantId)
  | createUser (id : UserId)
  | deleteUser (id : UserId)

/-- What the store answers. -/
inductive Answer where
  | stored (plugin : PluginRecord)
  | disowned (swept : Bool)
  | placed (rule : PluginRule)
  | done

def serve : Request → Action (Except StorageError Answer)
  | .upload new => do return (← ask (.putPlugin new)).map .stored
  | .disown checksum owner => do return (← ask (.disownPlugin checksum owner)).map .disowned
  | .place rule => do return (← putRule rule).map .placed
  | .removeRule tenant kind order => do
    return (← ask (.removeRule tenant kind order)).map fun _ => .done
  | .createTenant id => do return (← ask (.createTenant id)).map fun _ => .done
  | .deleteTenant id => do return (← ask (.deleteTenant id)).map fun _ => .done
  | .createUser id => do return (← ask (.createUser id)).map fun _ => .done
  | .deleteUser id => do return (← ask (.deleteUser id)).map fun _ => .done

/-- Requests the store has not begun to serve. -/
def waiting (s : Store) (requests : List Request) :
    Pool Store (Task Request Op Op.Res (Except StorageError Answer)) :=
  ⟨s, requests.map (Task.of serve)⟩

/-! ### What each write leaves of the rules' ownership -/

/-- The plugin stored in a row is of this kind. -/
def Store.Stored (s : Store) (plugin : RowId) (kind : PluginKind) : Prop :=
  ∃ p ∈ s.plugins.rows, p.rowId = plugin ∧ p.kind = kind

/-- Every rule runs a plugin its own chain owns, and has the kind it is stored as. -/
def RulesOwned (s : Store) : Prop :=
  ∀ r ∈ s.rules.rows, s.Owns r.chain r.plugin ∧ s.Stored r.plugin r.kind

section Writes

variable {s s' : Store}

/-- No rule is new, and what the rules that are left run stays owned and stored. -/
theorem RulesOwned.of_kept (h : RulesOwned s) (hrules : ∀ r ∈ s'.rules.rows, r ∈ s.rules.rows)
    (howners : ∀ r ∈ s'.rules.rows, s.Owns r.chain r.plugin → s'.Owns r.chain r.plugin)
    (hplugins : ∀ r ∈ s'.rules.rows, ∀ p ∈ s.plugins.rows, p.rowId = r.plugin → p ∈ s'.plugins.rows) :
    RulesOwned s' := by
  intro r hr
  obtain ⟨howns, p, hp, hrow, hkind⟩ := h r (hrules r hr)
  exact ⟨howners r hr howns, p, hplugins r hr p hp hrow, hrow, hkind⟩

theorem RulesOwned.keepRules (h : RulesOwned s) (p : RuleRow → Bool) : RulesOwned (s.keepRules p) :=
  h.of_kept (fun _ hr => (Table.mem_keep.mp hr).1) (fun _ _ => id) fun _ _ _ hp _ => hp

theorem RulesOwned.removeRule (h : RulesOwned s) {tenant : Option TenantId} {kind : PluginKind}
    {order : PluginOrder} (hok : s.removeRule tenant kind order = .ok s') : RulesOwned s' := by
  unfold Store.removeRule at hok
  dsimp only at hok
  split at hok
  · cases hok
  · split at hok
    · cases hok
      exact h.keepRules _
    · cases hok

theorem RulesOwned.insertWasm (h : RulesOwned s) {checksum : Checksum} {x : Supply} {kind : PluginKind}
    {wasm : List UInt8} {record : PluginRecord}
    (hok : s.insertWasm checksum x kind wasm = .ok (s', record)) : RulesOwned s' := by
  unfold Store.insertWasm at hok
  split at hok
  · split at hok <;> cases hok
    exact h
  · dsimp only at hok
    split at hok
    · cases hok
    · rename_i hadd
      cases hok
      refine h.of_kept (fun _ => id) (fun _ _ => id) fun _ _ p hp _ => ?_
      show p ∈ (RowTable.toTable _).rows
      rw [(RowTable.add_eq_some hadd).2]
      exact List.mem_append_left _ hp

theorem RulesOwned.insertOwner (h : RulesOwned s) {x : Supply} {plugin : PluginRecord}
    {owner : PluginOwner} {since : Timestamp} (hok : s.insertOwner x plugin owner = .ok (s', since)) :
    RulesOwned s' := by
  unfold Store.insertOwner at hok
  split at hok
  · cases hok
  · split at hok
    · cases hok
      exact h
    · dsimp only at hok
      split at hok
      · cases hok
      · rename_i hinsert
        split at hok <;> cases hok
        exact h.of_kept (fun _ => id) (fun _ _ howns => Table.has_insert hinsert howns)
          fun _ _ _ hp _ => hp

theorem RulesOwned.putPlugin (h : RulesOwned s) {checksumOf : List UInt8 → Checksum} {x : Supply}
    {new : NewPlugin} {record : PluginRecord}
    (hok : s.putPlugin checksumOf x new = .ok (s', record)) : RulesOwned s' := by
  obtain ⟨⟨s₁, plugin⟩, hwasm, hok⟩ := ok_of_bind hok
  obtain ⟨⟨s₂, since⟩, howner, hok⟩ := ok_of_bind hok
  cases hok
  exact (h.insertWasm hwasm).insertOwner howner

theorem RulesOwned.deleteOwner (h : RulesOwned s) {checksum : Checksum} {owner : PluginOwner}
    {record : PluginRecord} (hok : s.deleteOwner checksum owner = .ok (s', record)) :
    RulesOwned s' := by
  unfold Store.deleteOwner at hok
  split at hok
  · cases hok
  · rename_i chain hchain
    split at hok
    · cases hok
    · rename_i found hfound
      split at hok
      · cases hok
      · rename_i hunused
        split at hok <;> cases hok
        refine h.of_kept (fun _ => id) (fun r hr howns => ?_) fun _ _ _ hp _ => hp
        obtain ⟨o, ho, hkey⟩ := howns
        refine ⟨o, Table.mem_keep.mpr ⟨ho, bne_iff_ne.mpr fun heq => hunused ?_⟩, hkey⟩
        obtain ⟨hin, hplugin⟩ := Prod.mk.inj (hkey.symm.trans heq)
        refine List.any_eq_true.mpr ⟨r, hr, ?_⟩
        rw [Bool.and_eq_true, beq_iff_eq, beq_iff_eq]
        exact ⟨hplugin, hin⟩

theorem RulesOwned.deleteUnowned (h : RulesOwned s) {plugin : PluginRecord} {swept : Bool}
    (hok : s.deleteUnowned plugin = .ok (s', swept)) : RulesOwned s' := by
  unfold Store.deleteUnowned at hok
  split at hok
  · cases hok
    exact h
  · split at hok
    · cases hok
    · rename_i hrun
      cases hok
      refine h.of_kept (fun _ => id) (fun _ _ => id) fun r hr p hp hrow => ?_
      refine RowTable.mem_without.mpr ⟨hp, fun heq => hrun ⟨r, hr, ?_⟩⟩
      exact hrow.symm.trans heq

theorem RulesOwned.disownPlugin (h : RulesOwned s) {checksum : Checksum} {owner : PluginOwner}
    {swept : Bool} (hok : s.disownPlugin checksum owner = .ok (s', swept)) : RulesOwned s' := by
  obtain ⟨⟨s₁, plugin⟩, howner, hok⟩ := ok_of_bind hok
  exact (h.deleteOwner howner).deleteUnowned hok

theorem RulesOwned.createTenant (h : RulesOwned s) {x : Supply} {id : TenantId}
    (hok : s.createTenant x id = .ok s') : RulesOwned s' := by
  unfold Store.createTenant at hok
  split at hok
  · cases hok
  · split at hok <;> cases hok
    exact h

theorem RulesOwned.deleteTenant (h : RulesOwned s) {id : TenantId} (hok : s.deleteTenant id = .ok s') :
    RulesOwned s' := by
  unfold Store.deleteTenant at hok
  split at hok
  · cases hok
  · cases hok
    refine h.of_kept (fun r hr => (Table.mem_keep.mp hr).1) (fun r hr howns => ?_) fun _ _ _ hp _ => hp
    obtain ⟨o, ho, hkey⟩ := howns
    have hchain : o.chain = r.chain := (Prod.mk.inj hkey).1
    refine ⟨o, Table.mem_keep.mpr ⟨ho, ?_⟩, hkey⟩
    rw [hchain]
    exact (Table.mem_keep.mp hr).2

theorem RulesOwned.createUser (h : RulesOwned s) {x : Supply} {id : UserId}
    (hok : s.createUser x id = .ok s') : RulesOwned s' := by
  unfold Store.createUser at hok
  split at hok
  · cases hok
  · split at hok <;> cases hok
    exact h

theorem RulesOwned.deleteUser (h : RulesOwned s) {id : UserId} (hok : s.deleteUser id = .ok s') :
    RulesOwned s' := by
  unfold Store.deleteUser at hok
  split at hok
  · cases hok
  · cases hok
    exact h.of_kept (fun _ hr => (Table.mem_keep.mp hr).1) (fun _ _ howns => howns) fun _ _ _ hp _ => hp

theorem RulesOwned.insertRule (h : RulesOwned s) {plugin : RowId} {chain : Chain} {user : Option RowId}
    {api : Option ApiId} {kind : PluginKind} {order : PluginOrder} {now : Timestamp}
    (howns : s.Owns chain plugin) (hstored : s.Stored plugin kind)
    (hok : s.insertRule plugin chain user api kind order now = .ok s') : RulesOwned s' := by
  unfold Store.insertRule at hok
  split at hok
  · split at hok
    · dsimp only at hok
      split at hok
      · cases hok
      · split at hok <;> cases hok
        intro r hr
        rcases List.mem_append.mp hr with hr | hr
        · exact h r hr
        · obtain rfl := List.mem_singleton.mp hr
          exact ⟨howns, hstored⟩
    · cases hok
  · cases hok

/-- What a chain is found to own it owns, as the kind it is found with. -/
theorem Store.ownedPlugin_eq_some {checksum : Checksum} {chain : Chain} {plugin : RowId}
    {kind : PluginKind} (h : s.ownedPlugin checksum chain = some (plugin, kind)) :
    s.Owns chain plugin ∧ s.Stored plugin kind := by
  unfold Store.ownedPlugin at h
  split at h
  · cases h
  · rename_i found hfound
    split at h
    · rename_i howns
      cases h
      exact ⟨howns, found, (Table.find_eq_some.mp hfound).1, rfl, rfl⟩
    · cases h

end Writes

/-! ### The discipline -/

section Discipline

variable {checksumOf : List UInt8 → Checksum}

/-- The calls that place only what the chain owns. -/
def PlacesOwned (s : Store) : Op → Prop
  | .insertRule plugin chain _ _ kind _ => s.Owns chain plugin ∧ s.Stored plugin kind
  | _ => True

/-- What a placement found out stays so: its tenant is kept under the same row, and the plugin it is to
run is owned by its chain, in the same row and as the same kind. -/
def Request.Bears (request : Request) (s s' : Store) : Prop :=
  match request with
  | .place rule => ∀ chain, s.ownerRowId (.ofScope rule.scope) = .ok chain →
      s'.ownerRowId (.ofScope rule.scope) = .ok chain ∧
        ∀ found, s.ownedPlugin rule.checksum chain = some found →
          s'.ownedPlugin rule.checksum chain = some found
  | _ => True

/-- Every rule is owned; a placement under way bears every step but one that takes its tenant or the
plugin it is to run. -/
def holding (checksumOf : List UInt8 → Checksum) : Discipline (handle checksumOf) Request where
  holds := RulesOwned
  bears := Request.Bears
  may _ := PlacesOwned
  bears_refl request s := by
    cases request with
    | place rule => exact fun chain hchain => ⟨hchain, fun _ => id⟩
    | _ => trivial
  bears_trans := by
    intro request s₁ s₂ s₃ h₁ h₂
    cases request with
    | place rule =>
      intro chain hchain
      obtain ⟨hchain₂, hfound₂⟩ := h₁ chain hchain
      obtain ⟨hchain₃, hfound₃⟩ := h₂ chain hchain₂
      exact ⟨hchain₃, fun found h => hfound₃ found (hfound₂ found h)⟩
    | _ => trivial
  keeps := by
    intro _ _ op s hs hmay
    refine handle_left hs fun x s' value hok => ?_
    cases op with
    | tenantRowId _ | userRowId _ | ownedPlugin _ _ =>
      obtain rfl : s' = s := outcome_reads hok trivial
      exact hs
    | insertRule plugin chain user api kind order => exact hs.insertRule hmay.1 hmay.2 (ok_of_left hok)
    | removeRule tenant kind order => exact hs.removeRule (ok_of_left hok)
    | putPlugin new => exact hs.putPlugin hok
    | disownPlugin checksum owner => exact hs.disownPlugin hok
    | createTenant id => exact hs.createTenant (ok_of_left hok)
    | deleteTenant id => exact hs.deleteTenant (ok_of_left hok)
    | createUser id => exact hs.createUser (ok_of_left hok)
    | deleteUser id => exact hs.deleteUser (ok_of_left hok)

variable {s : Store} {rule : NewPluginRule}

/-- A read of a placement, and the rest of the text given what it answers. -/
theorem always_read {α : Type} {Q : α → Store → Prop} {request : Request} {op : Op}
    {next : op.Res → Action α} (hop : op.Reads)
    (hnext : ∀ s', request.Bears s s' → ∀ answer : op.Res,
      (∀ value, answer = .ok value → ∃ x, outcome checksumOf x op s' = .ok (s', value)) →
        (holding checksumOf).Always request Q (next answer) s') :
    (holding checksumOf).Always request Q (ask op >>= next) s := by
  intro s' hb _
  have hmay : PlacesOwned s' op := by cases op <;> trivial
  refine ⟨hmay, fun x => ?_⟩
  obtain ⟨hleft, hanswer⟩ := @handle_reads checksumOf s' x op hop
  show (holding checksumOf).Always request Q (next (handle checksumOf x op s').2)
    (handle checksumOf x op s').1
  rw [hleft]
  exact hnext s' hb _ hanswer

/-- From the row of its chain on, a placement inserts only what the chain still owns. -/
theorem holding_place {chain : Chain} {user : Option RowId} {api : Option ApiId}
    (hchain : s.ownerRowId (.ofScope rule.scope) = .ok chain) :
    (holding checksumOf).Always (.place rule) (fun _ _ => True) (place rule chain user api) s := by
  refine always_read trivial fun s hb answer hanswer => ?_
  obtain ⟨hchain, -⟩ := hb chain hchain
  rcases answer with error | (_ | ⟨plugin, kind⟩)
  · exact Discipline.always_true_pure _
  · exact Discipline.always_true_pure _
  · obtain ⟨x, hx⟩ := hanswer _ rfl
    have hfound : s.ownedPlugin rule.checksum chain = some (plugin, kind) :=
      (Prod.mk.inj (Except.ok.inj hx)).2
    -- The insertion comes after whatever the placement bears, which leaves what it found as it was.
    intro s' hb' _
    refine ⟨Store.ownedPlugin_eq_some ((hb' chain hchain).2 _ hfound), fun x => ?_⟩
    refine Discipline.always_of_calls (Process.Calls.bind (Process.calls_pure _ _) fun answer => ?_)
    cases answer <;> trivial

/-- **Placing a rule** inserts only what its chain owns. -/
theorem holding_putRule : (holding checksumOf).Always (.place rule) (fun _ _ => True) (putRule rule) s := by
  unfold putRule
  split
  · rename_i hscope
    refine holding_place ?_
    rw [hscope]
    rfl
  · rename_i tenant user api hscope
    refine always_read trivial fun s hb answer hanswer => ?_
    cases answer with
    | error error => exact Discipline.always_true_pure _
    | ok row =>
      obtain ⟨x, hx⟩ := hanswer row rfl
      obtain ⟨row', hrow, h⟩ := ok_of_map hx
      cases h
      have hchain : s.ownerRowId (.ofScope rule.scope) = .ok (some row) := by
        rw [hscope]
        show (s.tenantRowId tenant).map some = _
        rw [hrow]
        rfl
      cases user with
      | none => exact holding_place hchain
      | some user =>
        refine always_read trivial fun s hb answer _ => ?_
        cases answer with
        | error error => exact Discipline.always_true_pure _
        | ok account => exact holding_place (hb _ hchain).1

/-- **Every request keeps it.** -/
theorem holding_serve (request : Request) (s : Store) (hs : RulesOwned s) :
    (holding checksumOf).Always request (fun _ _ => True) (serve request) s := by
  cases request with
  | place rule => exact Discipline.Always.bind hs holding_putRule fun _ _ _ _ =>
      Discipline.always_true_pure _
  | _ => exact fun _ _ _ => ⟨trivial, fun _ => Discipline.always_true_pure _⟩

/-- **A chain runs only plugins it owns.**  From any store in which it does, along every interleaving of
any requests in which no step takes the tenant of a placement under way, or the plugin it is to run from
its chain, every rule runs a plugin owned by the rule's own chain and stored as the rule's kind. -/
theorem rules_owned_of_undisturbed (hs : RulesOwned s) {requests : List Request}
    {q : Pool Store (Task Request Op Op.Res (Except StorageError Answer))}
    (h : Pool.Reach (Task.step (handle checksumOf)) (holding checksumOf).Undisturbed
      (waiting s requests) q) : RulesOwned q.shared :=
  (Discipline.reach holding_serve hs h).1

end Discipline

/-! ### Runs -/

theorem rulesOwned_empty : RulesOwned Store.empty := by
  intro r hr
  cases hr

/-- A digest that is the wasm itself, cut or filled up to its length. -/
def plainChecksum (wasm : List UInt8) : Checksum :=
  ⟨(wasm ++ List.replicate digestBytes 0).take digestBytes, by simp⟩

/-- A rule of a tenant's chain at the first order a tenant may use. -/
def acmeRule (wasm : List UInt8) : NewPluginRule :=
  ⟨plainChecksum wasm, ⟨64⟩, .tenant acme none none, by decide⟩

/-- One turn of a request, with the row id it is given should it write a row. -/
def turn (i row : ℕ) : ℕ × Option Supply := (i, some ⟨⟨row + 1, Nat.succ_pos row⟩, .epoch, .epoch⟩)

/-- A plugin is stored for the global chain and for a tenant, placed by the tenant, and let go by it. -/
def sharedRequests : List Request :=
  [.createTenant acme, .upload ⟨.reqBody, [7], .global⟩, .upload ⟨.reqBody, [7], .tenant acme⟩,
    .place (acmeRule [7]), .disown (plainChecksum [7]) (.tenant acme)]

/-- Served one at a time, the plugin is placed and then is in use. -/
theorem rules_owned_of_shared :
    ∃ q, RulesOwned Store.empty ∧
      Pool.Reach (Task.step (handle plainChecksum)) (holding plainChecksum).Undisturbed
        (waiting .empty sharedRequests) q ∧
      q.shared.rules.rows.length = 1 ∧ RulesOwned q.shared := by
  have hrun : (Pool.run (Task.step (handle plainChecksum)) Unshared (waiting .empty sharedRequests)
      [turn 0 1, turn 1 1, turn 2 2, turn 3 0, turn 3 0, turn 3 1, turn 4 0]).any
      (fun q => q.shared.rules.rows.length == 1) = true := by
    decide +kernel
  obtain ⟨q, hreach, htest⟩ := Pool.exists_reach_of_run hrun
  have hundisturbed := (holding plainChecksum).reach_undisturbed_of_unshared hreach
  exact ⟨q, rulesOwned_empty, hundisturbed, beq_iff_eq.mp htest,
    rules_owned_of_undisturbed rulesOwned_empty hundisturbed⟩

/-- A plugin is stored for a tenant, placed by it and let go by it, and another of another kind stored. -/
def reusedRequests : List Request :=
  [.createTenant acme, .upload ⟨.reqBody, [7], .tenant acme⟩, .place (acmeRule [7]),
    .disown (plainChecksum [7]) (.tenant acme), .upload ⟨.reqHeader, [8], .tenant acme⟩]

/-- **A rule is placed for a plugin its chain let go of.**  Found before it was disowned and inserted
after, a rule runs a plugin only another chain owns; and where its wasm went with it and its row id came
to another, a plugin of another kind. -/
theorem placed_after_disowned :
    (∃ q, Pool.Reach (Task.step (handle plainChecksum)) Pool.anyStep (waiting .empty sharedRequests) q ∧
      ∃ r ∈ q.shared.rules.rows, ¬ q.shared.Owns r.chain r.plugin) ∧
    ∃ q, Pool.Reach (Task.step (handle plainChecksum)) Pool.anyStep (waiting .empty reusedRequests) q ∧
      ∃ r ∈ q.shared.rules.rows, ¬ q.shared.Stored r.plugin r.kind := by
  constructor
  · have hrun : (Pool.run (Task.step (handle plainChecksum)) Pool.anyStep
        (waiting .empty sharedRequests)
        [turn 0 1, turn 1 1, turn 2 2, turn 3 0, turn 3 0, turn 4 0, turn 3 1]).any
        (fun q => q.shared.rules.rows.any fun r => decide (¬ q.shared.Owns r.chain r.plugin)) = true := by
      decide +kernel
    obtain ⟨q, hreach, htest⟩ := Pool.exists_reach_of_run hrun
    obtain ⟨r, hr, hnot⟩ := List.any_eq_true.mp htest
    exact ⟨q, hreach, r, hr, of_decide_eq_true hnot⟩
  · have hrun : (Pool.run (Task.step (handle plainChecksum)) Pool.anyStep
        (waiting .empty reusedRequests)
        [turn 0 1, turn 1 1, turn 2 0, turn 2 0, turn 3 0, turn 4 1, turn 2 1]).any
        (fun q => q.shared.rules.rows.any fun r => q.shared.plugins.rows.all fun p =>
          p.kind != r.kind) = true := by
      decide +kernel
    obtain ⟨q, hreach, htest⟩ := Pool.exists_reach_of_run hrun
    obtain ⟨r, hr, hall⟩ := List.any_eq_true.mp htest
    refine ⟨q, hreach, r, hr, ?_⟩
    rintro ⟨p, hp, -, hkind⟩
    exact bne_iff_ne.mp (List.all_eq_true.mp hall p hp) hkind

end IntelliPrism.Plugins
