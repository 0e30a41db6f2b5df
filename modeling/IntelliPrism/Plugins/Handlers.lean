import IntelliPrism.Lib.Twin
import IntelliPrism.Manage.Handlers
import IntelliPrism.Plugins.Ownership
import Mathlib.Data.List.Sort

/-!
# The plugin endpoints

What the owner of a chain asks of its plugins and is told: it stores wasm, lists what it holds a page at a
time, places what it holds in its chain and lets it go again.  Who calls decides whose chain it is, and is
settled before; the handlers here are given the owner.

* `Page`, `Store.listPlugins` — the list, newest first, each plugin dated by when this owner stored it;
* `upload`, `listPlugins`, `placeRule`, `disown` — the handlers, each with what it refuses and in which words;
* `Call`, `serveCall` — one call at one moment, on the store as it is.
-/

namespace IntelliPrism.Plugins

open IntelliPrism.Core IntelliPrism.Lib
open IntelliPrism.Manage (StorageError Status storeRefusal)

/-! ### Pages -/

/-- How many records a page holds when the caller names no size. -/
def defaultPageLimit : UInt32 := 20

/-- The most records one page holds, whatever the caller asks for. -/
def maxPageLimit : UInt32 := 100

/-- One slice of a list ordered newest first.  It holds one record at least and a hundred at most. -/
structure Page where
  limit : UInt32
  offset : UInt32
  after : Option Timestamp
  bounded : 1 ≤ limit ∧ limit ≤ maxPageLimit

/-- A page of up to so many records, a size outside what a page holds brought inside. -/
def Page.new (limit offset : UInt32) (after : Option Timestamp) : Page :=
  if hfew : limit < 1 then ⟨1, offset, after, by decide⟩
  else if hmany : maxPageLimit < limit then ⟨maxPageLimit, offset, after, by decide⟩
  else ⟨limit, offset, after, UInt32.not_lt.mp hfew, UInt32.not_lt.mp hmany⟩

/-- What the store compares a date with where no moment was named: no date is before it. -/
def i64Min : ℤ := -9223372036854775808

/-- The seconds a query compares `created_at` against. -/
def Page.afterSeconds (page : Page) : ℤ := page.after.elim i64Min Timestamp.unixSeconds

/-- Which page of a list a request asks for.  Every part may be left out. -/
structure PageQuery where
  limit : Option UInt32
  offset : Option UInt32
  after : Option ℤ

def Page.ofQuery (query : PageQuery) (after : Option Timestamp) : Page :=
  .new (query.limit.getD defaultPageLimit) (query.offset.getD 0) after

/-- The page a query asks for, or what its caller is told. -/
def paged (query : PageQuery) : Except Manage.Reply Page :=
  match query.after with
  | none => .ok (.ofQuery query none)
  | some seconds =>
    match Timestamp.fromUnixSeconds seconds with
    | .error _ => .error (.text .unprocessableEntity (toString seconds ++ " is not a moment in time"))
    | .ok after => .ok (.ofQuery query (some after))

/-! ### The list -/

/-- One record of a list, with when it was created. -/
structure Listed (α : Type) where
  item : α
  createdAt : Timestamp

/-- The order of the list: newest first, and of one second the row that was given out last first. -/
def NewerFirst (a b : PluginRecord) : Prop :=
  b.createdAt.unixSeconds < a.createdAt.unixSeconds ∨
    a.createdAt.unixSeconds = b.createdAt.unixSeconds ∧ b.rowId.get ≤ a.rowId.get

instance : DecidableRel NewerFirst := fun _ _ => inferInstanceAs (Decidable (_ ∨ _))

/-- What a chain holds, each plugin with the date of the hold. -/
def Store.holdings (s : Store) (chain : Chain) : List PluginRecord :=
  s.owners.rows.filterMap fun o =>
    if o.chain = chain then
      (s.plugins.byRow.find o.plugin).map fun p => { p.record with createdAt := o.createdAt }
    else none

/-- The plugins one owner holds, each dated by when that owner stored it. -/
def Store.listPlugins (s : Store) (owner : PluginOwner) (page : Page) :
    Except StorageError (List (Listed PluginRecord)) :=
  match s.ownerRowId owner with
  | .error error => .error error
  | .ok chain =>
    let rows := (s.holdings chain).filter fun record => page.afterSeconds < record.createdAt.unixSeconds
    let ordered := rows.insertionSort NewerFirst
    .ok (((ordered.drop page.offset.toNat).take page.limit.toNat).map fun record =>
      ⟨record, record.createdAt⟩)

/-- The row id the backend gives out next: one above the largest in use. -/
def Store.nextRow (s : Store) : RowId :=
  ⟨(s.plugins.rows.map fun p => p.rowId.get).foldr max 0 + 1, Nat.succ_pos _⟩

/-! ### Views -/

/-- A plugin as its owner sees it. -/
structure PluginView where
  checksum : String
  kind : String
  size : ℕ
  createdAt : Timestamp
  deriving DecidableEq

def PluginView.of (record : PluginRecord) : PluginView :=
  ⟨shown record.checksum, record.kind.name, record.size, record.createdAt⟩

def PluginView.ofListed (listed : Listed PluginRecord) : PluginView :=
  { PluginView.of listed.item with createdAt := listed.createdAt }

/-- A plugin placed in a chain, as the management api shows it. -/
structure RuleView where
  checksum : String
  kind : String
  order : UInt8
  user : Option String
  api : Option String
  createdAt : Option Timestamp
  deriving DecidableEq

def RuleView.of (rule : PluginRule) : RuleView where
  checksum := shown rule.checksum
  kind := rule.kind.name
  order := rule.order.get
  user := match rule.scope with
    | .global => none
    | .tenant _ user _ => user.map Ident.raw
  api := match rule.scope with
    | .global => none
    | .tenant _ _ api => api.map Ident.raw
  createdAt := none

/-- What the plugin handlers answer: what any handler may, or a view. -/
inductive Reply where
  | plain (reply : Manage.Reply)
  | created (plugin : PluginView)
  | listed (plugins : List PluginView)
  | placed (rule : RuleView)
  deriving DecidableEq

/-! ### The handlers -/

/-- What the handlers reach beside the plugin tables: the digest of wasm, what its uploader is told when
it does not load, and who is in a tenant. -/
structure Server where
  checksumOf : List UInt8 → Checksum
  compileRefusal : List UInt8 → Option Manage.Reply
  membership : UserId → TenantId → Except StorageError Bool

/-- When a call is made: as its wasm or its rule is written, and as its hold is. -/
structure Moment where
  storedAt : Timestamp
  ownedAt : Timestamp

/-- Where a plugin is placed in the caller's chain. -/
structure Placement where
  checksum : String
  order : UInt8
  user : Option String
  api : Option String

/-- What a store supplies its writes with at a moment. -/
def Store.supply (s : Store) (now : Moment) : Supply := ⟨s.nextRow, now.storedAt, now.ownedAt⟩

/-- Runs a text of the store on the store as it is. -/
def execute {α : Type} (server : Server) (now : Moment) (text : Action α) (s : Store) : Store × α :=
  Process.exec (handle server.checksumOf) (some (s.supply now)) text s

section Handlers

variable (server : Server) (owner : PluginOwner) (now : Moment)

/-- What an uploader is told once its wasm was handed to the store. -/
def uploadReply : Except StorageError PluginRecord → Reply
  | .ok record => .created (.of record)
  | .error error => .plain (storeRefusal error)

/-- Stores wasm for one kind of chain on the caller's behalf, once it has compiled. -/
def upload (kind : Option String) (wasm : List UInt8) (s : Store) : Store × Reply :=
  match kind.bind PluginKind.fromStr with
  | none => (s, .plain (.text .unprocessableEntity "name the plugin's kind as ?kind="))
  | some kind =>
    match server.compileRefusal wasm with
    | some refusal => (s, .plain refusal)
    | none =>
      let stored := execute server now (ask (.putPlugin ⟨kind, wasm, owner⟩)) s
      (stored.1, uploadReply stored.2)

/-- The plugins the caller's chain owns, newest first. -/
def listPlugins (query : PageQuery) (s : Store) : Reply :=
  match paged query with
  | .error refusal => .plain refusal
  | .ok page =>
    match s.listPlugins owner page with
    | .ok listed => .listed (listed.map PluginView.ofListed)
    | .error error => .plain (storeRefusal error)

/-- What is answered to an owner that lets a plugin go.  Whether its wasm went too is not said. -/
def disownReply : Except StorageError Bool → Reply
  | .ok _ => .plain (.status .noContent)
  | .error error => .plain (storeRefusal error)

/-- Lets go of one of the caller's plugins. -/
def disown (checksum : String) (s : Store) : Store × Reply :=
  match Checksum.fromHex checksum with
  | none => (s, .plain (.status .notFound))
  | some checksum =>
    let disowned := execute server now (ask (.disownPlugin checksum owner)) s
    (disowned.1, disownReply disowned.2)

/-- The scope of a rule its owner places, or what the owner is told. -/
def placementScope (placement : Placement) : Except Manage.Reply PluginScope :=
  match owner with
  | .global =>
    if placement.user.isSome || placement.api.isSome then
      .error (.text .unprocessableEntity
        "a global rule runs for every flow, so it names no user and no api")
    else .ok .global
  | .tenant tenant =>
    match placement.user.mapM (Ident.new .user), placement.api.mapM (Ident.new .api) with
    | .ok none, .ok api => .ok (.tenant tenant none api)
    | .ok (some user), .ok api =>
      match server.membership user tenant with
      | .ok true => .ok (.tenant tenant (some user) api)
      | .ok false =>
        .error (.text .unprocessableEntity (user.raw ++ " is not in " ++ tenant.raw))
      | .error error => .error (storeRefusal error)
    | _, _ => .error (.status .unprocessableEntity)

/-- A plugin the caller's chain does not own reads as one that is not there. -/
def unknownPlugin : Reply :=
  .plain (.text .unprocessableEntity "your chain holds no plugin under that checksum")

/-- What is answered to an owner that places a plugin. -/
def placeReply : Except StorageError PluginRule → Reply
  | .ok placed => .placed (.of placed)
  | .error (.notFound .plugin _) => unknownPlugin
  | .error error => .plain (storeRefusal error)

/-- What a caller is told whose rule has an order its scope may not use. -/
def orderRefusal (order : PluginOrder) (scope : PluginScope) : String :=
  "order " ++ toString order.get.toNat ++ " is not available to a " ++ scope.name ++ " plugin rule"

/-- Places one of the caller's plugins in the caller's chain. -/
def placeRule (placement : Placement) (s : Store) : Store × Reply :=
  match placementScope server owner placement with
  | .error refusal => (s, .plain refusal)
  | .ok scope =>
    match Checksum.fromHex placement.checksum with
    | none => (s, unknownPlugin)
    | some checksum =>
      match NewPluginRule.new checksum ⟨placement.order⟩ scope with
      | .error _ => (s, .plain (.text .unprocessableEntity (orderRefusal ⟨placement.order⟩ scope)))
      | .ok rule =>
        let placed := execute server now (putRule rule) s
        (placed.1, placeReply placed.2)

/-- What the owner of a chain asks. -/
inductive Call where
  | upload (kind : Option String) (wasm : List UInt8)
  | list (query : PageQuery)
  | place (placement : Placement)
  | disown (checksum : String)

def serveCall (timed : Moment × Call) (s : Store) : Store × Reply :=
  match timed.2 with
  | .upload kind wasm => upload server owner timed.1 kind wasm s
  | .list query => (s, listPlugins owner query s)
  | .place placement => placeRule server owner timed.1 placement s
  | .disown checksum => disown server owner timed.1 checksum s

end Handlers

end IntelliPrism.Plugins
