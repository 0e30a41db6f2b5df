import IntelliPrism.Core.Plugin
import IntelliPrism.Gateway.Limit
import IntelliPrism.Gateway.Table
import IntelliPrism.Lib.History

/-!
# Rule sets, and how they are published

Storage is the truth: it holds the routes, the plugin rules and the limits, under a revision that moves on
with every committed change.  The cache carries a copy of them, written out as a snapshot and published
under the revision storage stamped it with.

* `Storage` — what storage has held, revision by revision;
* `Snapshot`, `Snapshot.tables_of` — the rules on the wire, and that they are rebuilt as they were;
* `Codec` — the json a snapshot is written as and read from, of which only that is asked;
* `Topic` — what is published, as sled and as redis store it;
* `readBack`, `readBack_written` — **what was written from a rule set reads back as that rule set**.
-/

namespace IntelliPrism.Rules

open IntelliPrism.Lib IntelliPrism.Core IntelliPrism.Cache IntelliPrism.Gateway

/-! ### What storage holds -/

/-- A count that moves on with every change to the rules, and never goes back. -/
abbrev RuleRevision := UInt64

/-- A limit as it is stored: what it says, and when it was set. -/
structure StoredLimit where
  limit : Limit
  createdAt : Timestamp
  deriving DecidableEq

/-- Every route, plugin rule and limit. -/
structure Tables where
  routes : List RouteRule
  rules : List PluginRule
  limits : List StoredLimit
  deriving DecidableEq

/-- Every route, plugin rule and limit, as they stood at one revision. -/
structure RuleSet extends Tables where
  revision : RuleRevision
  deriving DecidableEq

/-- What storage has held at each revision it stood at. -/
abbrev Storage := History RuleRevision Tables

namespace Storage

/-- A database nothing was written to yet. -/
def opened : Storage := .start 0 ⟨[], [], []⟩

/-- The revision the rules stand at now. -/
def ruleRevision (store : Storage) : RuleRevision := store.version

/-- Every route, plugin rule and limit with the revision they stand at, read in one transaction. -/
def ruleSet (store : Storage) : RuleSet := ⟨store.value, store.version⟩

/-- The revisions the column they are kept in can hold are those below this one. -/
def revisionEnd : RuleRevision := 0x8000000000000000

/-- A transaction that changes the rules moves the revision on with them. -/
def commit (store : Storage) (revision : RuleRevision) (tables : Tables) : Option Storage :=
  if h : store.version < revision ∧ revision < revisionEnd then some (store.move revision tables h.1)
  else none

theorem commit_eq_some {store store' : Storage} {revision : RuleRevision} {tables : Tables}
    (h : store.commit revision tables = some store') :
    ∃ hlt : store.version < revision, store' = store.move revision tables hlt := by
  unfold commit at h
  split at h
  · rename_i hlt
    exact ⟨hlt.1, (Option.some.inj h).symm⟩
  · cases h

theorem commit_continues {store store' : Storage} {revision : RuleRevision} {tables : Tables}
    (h : store.commit revision tables = some store') : store.Continues store' := by
  obtain ⟨hlt, rfl⟩ := commit_eq_some h
  exact store.move_continues revision tables hlt

end Storage

/-! ### The rules on the wire -/

/-- One plugin rule on the wire, rebuilt through its own checks when read back. -/
structure Placed where
  checksum : Checksum
  kind : PluginKind
  order : PluginOrder
  scope : PluginScope
  deriving DecidableEq

def Placed.of (rule : PluginRule) : Placed := ⟨rule.checksum, rule.kind, rule.order, rule.scope⟩

def Placed.rule (placed : Placed) : Except CoreError PluginRule :=
  PluginRule.new placed.checksum placed.kind placed.order placed.scope

@[simp] theorem Placed.rule_of (rule : PluginRule) : (Placed.of rule).rule = .ok rule := rule.new_self

/-- The rules as the cache carries them, without the revision the publication already holds. -/
structure Snapshot where
  routes : List RouteRule
  rules : List Placed
  limits : List StoredLimit
  deriving DecidableEq

/-- Writes the rules out for the cache. -/
def Snapshot.of (tables : Tables) : Snapshot := ⟨tables.routes, tables.rules.map Placed.of, tables.limits⟩

/-- The rules of a snapshot, or the first that its own type refuses. -/
def placedRules : List Placed → Except CoreError (List PluginRule)
  | [] => .ok []
  | placed :: rest =>
    match placed.rule, placedRules rest with
    | .error error, _ => .error error
    | .ok _, .error error => .error error
    | .ok rule, .ok rules => .ok (rule :: rules)

def Snapshot.tables (snapshot : Snapshot) : Except CoreError Tables :=
  (placedRules snapshot.rules).map fun rules => ⟨snapshot.routes, rules, snapshot.limits⟩

theorem placedRules_map_of (rules : List PluginRule) : placedRules (rules.map Placed.of) = .ok rules := by
  induction rules with
  | nil => rfl
  | cons rule rules ih => simp only [List.map_cons, placedRules, Placed.rule_of, ih]

theorem Snapshot.tables_of (tables : Tables) : (Snapshot.of tables).tables = .ok tables := by
  simp only [Snapshot.tables, Snapshot.of, placedRules_map_of]
  rfl

/-- How a snapshot is written as json and read from it: what was written reads back. -/
structure Codec where
  toVec : Snapshot → Option Bytes
  fromSlice : Bytes → Option Snapshot
  reads : ∀ snapshot bytes, toVec snapshot = some bytes → fromSlice bytes = some snapshot

/-! ### What is published -/

/-- What is published under a topic, and the revision it was published at. -/
structure Published where
  revision : RuleRevision
  value : Bytes
  deriving DecidableEq

/-- Bytes a revision takes in front of a value. -/
def revisionBytes : ℕ := 8

/-- A published value as sled stores it: the revision, then the value. -/
def encode (revision : RuleRevision) (value : Bytes) : Bytes := toBeBytes revision ++ value

/-- Reads back what `encode` wrote. -/
def decode (stored : Bytes) : Except CacheError Published :=
  match fromBeBytes (stored.take revisionBytes) with
  | none => .error (.malformedPublication (toString stored.length ++ " bytes cannot hold a revision"))
  | some revision => .ok ⟨revision, stored.drop revisionBytes⟩

theorem decode_encode (revision : RuleRevision) (value : Bytes) :
    decode (encode revision value) = .ok ⟨revision, value⟩ := by
  have hlength : revisionBytes = (toBeBytes revision).length := (toBeBytes_length revision).symm
  have htake : (encode revision value).take revisionBytes = toBeBytes revision := by
    rw [hlength, encode, List.take_left]
  have hdrop : (encode revision value).drop revisionBytes = value := by
    rw [hlength, encode, List.drop_left]
  simp only [decode, htake, hdrop, fromBeBytes_toBeBytes]

/-- Where the rules are published: a key of a sled tree, or a redis hash that holds the revision and the
value side by side. -/
inductive Topic where
  | sled (stored : Option Bytes)
  | redis (hash : Option Published)
  deriving DecidableEq

/-- What is published under a topic now. -/
def Topic.published : Topic → Except CacheError (Option Published)
  | .sled none => .ok none
  | .sled (some stored) => (decode stored).map some
  | .redis hash => .ok hash

@[simp] theorem Topic.published_sled_encode (revision : RuleRevision) (value : Bytes) :
    (Topic.sled (some (encode revision value))).published = .ok (some ⟨revision, value⟩) := by
  rw [Topic.published, decode_encode]
  rfl

/-! ### Reading the rules back -/

/-- Every way publishing the rules, or putting them in force, can fail. -/
inductive FeedError where
  | storage
  | cache (error : CacheError)
  | encode
  | decode
  | table (error : RouteError)
  | chains
  | rule (error : CoreError)
  deriving DecidableEq

variable (codec : Codec)

/-- The rule set a publication carries. -/
def readBack (published : Published) : Except FeedError RuleSet :=
  match codec.fromSlice published.value with
  | none => .error .decode
  | some snapshot =>
    match snapshot.tables with
    | .error error => .error (.rule error)
    | .ok tables => .ok ⟨tables, published.revision⟩

/-- The rules published now, or none when nothing has been. -/
def publishedRules (topic : Topic) : Except FeedError (Option RuleSet) :=
  match topic.published with
  | .error error => .error (.cache error)
  | .ok none => .ok none
  | .ok (some published) => (readBack codec published).map some

/-- **What was written from a rule set reads back as that rule set.** -/
theorem readBack_written {tables : Tables} {value : Bytes} (revision : RuleRevision)
    (h : codec.toVec (Snapshot.of tables) = some value) :
    readBack codec ⟨revision, value⟩ = .ok ⟨tables, revision⟩ := by
  simp only [readBack, codec.reads _ _ h, Snapshot.tables_of]

end IntelliPrism.Rules
