import IntelliPrism.Gateway.Dispatch
import IntelliPrism.Lib.Fallible
import IntelliPrism.Lib.Ranking
import IntelliPrism.Lib.Text

/-!
# The routing table

Every rule in force, from the configuration file and from the database, grouped by the part of a key
that is matched exactly and searched longest path first.

* `RoutingTable.assemble` — what a start and a reload build: the configured rules, and of the stored
  ones those whose key nobody holds yet;
* `RoutingTable.resolve` — the rule that carries a request, with the endpoints it may go to;
* `resolve_fromRules` — **the search as one**: the first of the longest rules that claim the request,
  whatever group it stands in;
* `location_eq_iff` — **every resolution of a rule shares the one plan** the table made for it;
* `find?_addStored` — leaving out a stored rule whose key is held changes no search;
* `assemble_keeps_configured` — when a stored rule may stand in front of a configured one.
-/

namespace IntelliPrism.Gateway

open IntelliPrism.Core IntelliPrism.Lib

/-! ### The table -/

/-- The exactly matched part of a key: everything but the path. -/
abbrev Authority := Protocol × Host × Port

def authority (endpoint : Endpoint) : Authority := (endpoint.protocol, endpoint.host, endpoint.port)

/-- A rule and what a dispatcher needs to know about its endpoints.  The plan is held by reference: what is
counted on it stands at its location, for whoever holds a copy of the reference. -/
structure Planned where
  rule : RouteRule
  plan : Plan
  location : ℕ
  deriving DecidableEq

/-- A rule with a plan made for it, at a location that is free. -/
def Planned.ofRule (rule : RouteRule) (free : ℕ) : Planned := ⟨rule, Plan.of rule.target.weighted, free⟩

/-- Where a matched request may be sent, and the rule that sent it. -/
structure Resolution where
  rule : RouteRule
  targets : List Weighted
  plan : Plan
  location : ℕ
  deriving DecidableEq

/-- What a resolution says, whichever plan it counts on. -/
def Resolution.said (resolution : Resolution) : RouteRule × List Weighted × Plan :=
  (resolution.rule, resolution.targets, resolution.plan)

/-- Every routing rule in force.  An authority no rule is under has the empty group. -/
structure RoutingTable where
  byAuthority : Authority → List Planned

/-- What keeps a table from being built. -/
inductive RouteError where
  | reservedPath (path : AbsPath)
  deriving DecidableEq

/-- The bytes a rule's path is sorted by. -/
def pathLength (rule : RouteRule) : ℕ := rule.path.raw.utf8ByteSize

/-- The rules under each authority, in the order they came, each with a plan at the next free location. -/
def groupRules (rules : List RouteRule) (free : ℕ) (groups : Authority → List Planned) :
    Authority → List Planned :=
  match rules with
  | [] => groups
  | rule :: rest =>
    let held := authority rule.key.endpoint
    groupRules rest (free + 1) (Function.update groups held (groups held ++ [Planned.ofRule rule free]))

/-- Groups the rules and sorts each group longest path first, rules of one length in their order. -/
def RoutingTable.fromRules (rules : List RouteRule) : RoutingTable :=
  ⟨fun held => heaviestFirst (fun planned => pathLength planned.rule)
    (groupRules rules 0 (fun _ => []) held)⟩

/-- Adds each stored rule whose key no rule before it holds. -/
def addStored (rules : List RouteRule) : List RouteRule → List RouteRule
  | [] => rules
  | rule :: dynamic =>
    addStored (if rules.any fun held => held.key == rule.key then rules else rules ++ [rule]) dynamic

/-- Builds the table from the rules the configuration contributed and the stored ones. -/
def RoutingTable.assemble (configured dynamic : List RouteRule) : Except RouteError RoutingTable :=
  let rules := addStored configured dynamic
  match rules.find? fun rule => rule.path.isReserved with
  | some rule => .error (.reservedPath rule.path)
  | none => .ok (fromRules rules)

/-! ### Resolving a request -/

/-- A path without its trailing slash. -/
def stripSlash (path : List Char) : List Char :=
  if path.getLast? = some '/' then path.dropLast else path

/-- The part of the request path the rule did not claim.  A rule only matches on a segment boundary. -/
def remainderOf (rule requested : List Char) : Option (List Char) :=
  if rule = ['/'] then some requested
  else if requested = stripSlash rule then some []
  else if (stripSlash rule).isPrefixOf requested then
    let rest := requested.drop (stripSlash rule).length
    if rest.head? = some '/' then some rest else none
  else none

/-- A target's path with the remainder behind it. -/
def join (target remainder : List Char) : List Char :=
  if remainder = [] then target else stripSlash target ++ remainder

/-- One endpoint behind a rule with the remainder appended, when the path that makes is still one. -/
def Weighted.joined (remainder : List Char) (target : Weighted) : Option Weighted :=
  (AbsPath.new (String.ofList (join target.endpoint.path.chars remainder))).toOption.map fun path =>
    ⟨{ target.endpoint with path }, target.weight⟩

/-- Where a rule sends a request whose path it left this much of, with a copy of its plan's reference. -/
def Planned.send (planned : Planned) (remainder : List Char) : Option Resolution :=
  (planned.rule.target.weighted.mapM (Weighted.joined remainder)).map fun targets =>
    ⟨planned.rule, targets, planned.plan, planned.location⟩

/-- The first rule of a group that claims the path.  A path that gets too long behind it ends the
search with nothing. -/
def resolveIn (requested : AbsPath) : List Planned → Option Resolution
  | [] => none
  | planned :: group =>
    match remainderOf planned.rule.path.chars requested.chars with
    | none => resolveIn requested group
    | some remainder => planned.send remainder

/-- The rule that carries this request, if any. -/
def RoutingTable.resolve (table : RoutingTable) (key : RouteKey) : Option Resolution :=
  resolveIn key.endpoint.path (table.byAuthority (authority key.endpoint))

/-! ### Paths -/

theorem ascii_of_pathChar {ch : Char} (h : pathChar ch = true) : ch.toNat < 128 := by
  simp only [pathChar, isAsciiGraphic, Bool.and_eq_true, decide_eq_true_eq] at h
  omega

theorem pathLength_eq (rule : RouteRule) : pathLength rule = rule.path.chars.length := by
  have hbytes := utf8ByteSize_ofList (l := rule.path.chars) fun ch hch =>
    ascii_of_pathChar (rule.path.pathChar_of_mem hch)
  rwa [String.ofList_toList] at hbytes

theorem stripSlash_subset (path : List Char) : stripSlash path ⊆ path := by
  intro ch hch
  rw [stripSlash] at hch
  split at hch
  · exact List.dropLast_subset path hch
  · exact hch

theorem length_stripSlash (path : List Char) :
    (stripSlash path).length ≤ path.length ∧ path.length ≤ (stripSlash path).length + 1 := by
  rw [stripSlash]
  split
  · rw [List.length_dropLast]
    omega
  · omega

/-- `part` is made of whole segments of `whole`, from its start. -/
def SegmentPrefix (part whole : List Char) : Prop :=
  ∃ rest, whole = part ++ rest ∧ (rest = [] ∨ rest.head? = some '/')

/-- **A rule claims a path when it is a segment prefix of it**, and leaves what follows. -/
theorem remainderOf_eq_some {rule requested : AbsPath} {remainder : List Char} :
    remainderOf rule.chars requested.chars = some remainder ↔
      requested.chars = stripSlash rule.chars ++ remainder ∧
        (remainder = [] ∨ remainder.head? = some '/') := by
  have hrooted : requested.chars.head? = some '/' := requested.rooted
  rw [remainderOf]
  split_ifs with hroot hexact hbefore
  · rw [hroot]
    show some requested.chars = some remainder ↔ requested.chars = remainder ∧ _
    constructor
    · intro h
      cases h
      exact ⟨rfl, .inr hrooted⟩
    · intro h
      rw [h.1]
  · rw [hexact, Option.some_inj]
    constructor
    · intro h
      exact ⟨by rw [← h, List.append_nil], .inl h.symm⟩
    · intro h
      exact (List.self_eq_append_right.mp h.1).symm
  · obtain ⟨rest, hrest⟩ := List.isPrefixOf_iff_prefix.mp hbefore
    rw [← hrest, List.drop_left]
    show (if rest.head? = some '/' then some rest else none) = some remainder ↔ _
    split
    · rename_i hslash
      simp only [Option.some_inj, List.append_cancel_left_eq]
      exact ⟨fun h => ⟨h, .inr (h ▸ hslash)⟩, fun h => h.1⟩
    · rename_i hslash
      simp only [List.append_cancel_left_eq, reduceCtorEq, false_iff, not_and_or, not_or]
      by_cases hsame : rest = remainder
      · refine .inr ⟨fun hempty => hexact ?_, hsame ▸ hslash⟩
        rw [← hrest, hsame, hempty, List.append_nil]
      · exact .inl hsame
  · simp only [false_iff]
    intro h
    apply hbefore
    rw [List.isPrefixOf_iff_prefix, h.1]
    exact List.prefix_append ..

theorem isSome_remainderOf {rule requested : AbsPath} :
    (remainderOf rule.chars requested.chars).isSome = true ↔
      SegmentPrefix (stripSlash rule.chars) requested.chars := by
  simp only [Option.isSome_iff_exists, remainderOf_eq_some, SegmentPrefix]

/-- Legal characters behind a slash are a path, so long as they are short enough. -/
theorem isSome_newPath {chars : List Char} (hrooted : chars.head? = some '/')
    (hlegal : ∀ ch ∈ chars, pathChar ch = true) :
    (AbsPath.new (String.ofList chars)).toOption.isSome = true ↔ chars.length ≤ pathMaxBytes := by
  have hnew : String.ofList chars ≠ "" := by
    intro hempty
    have hnil := congrArg String.toList hempty
    rw [String.toList_ofList] at hnil
    rw [hnil] at hrooted
    cases hrooted
  have hsize := utf8ByteSize_ofList fun ch hch => ascii_of_pathChar (hlegal ch hch)
  have hfind : (String.ofList chars).toList.find? (fun ch => !pathChar ch) = none := by
    rw [String.toList_ofList]
    apply List.find?_eq_none.mpr
    intro ch hch
    simp [hlegal ch hch]
  rw [AbsPath.new, if_neg hnew, dif_pos (by rw [String.toList_ofList]; exact hrooted)]
  by_cases hlong : chars.length ≤ pathMaxBytes
  · rw [dif_neg (by rw [hsize]; omega)]
    split
    · rename_i hbad
      rw [hfind] at hbad
      cases hbad
    · simp [hlong, Except.toOption]
  · rw [dif_pos (by rw [hsize]; omega)]
    simp [hlong, Except.toOption]

theorem pathChar_of_mem_join {path : AbsPath} {remainder : List Char}
    (hlegal : ∀ ch ∈ remainder, pathChar ch = true) :
    ∀ ch ∈ join path.chars remainder, pathChar ch = true := by
  intro ch hch
  rw [join] at hch
  split at hch
  · exact path.pathChar_of_mem hch
  · rcases List.mem_append.mp hch with hbase | hrest
    · exact path.pathChar_of_mem (stripSlash_subset _ hbase)
    · exact hlegal ch hrest

theorem head?_join {path : AbsPath} {remainder : List Char}
    (hslash : remainder = [] ∨ remainder.head? = some '/') :
    (join path.chars remainder).head? = some '/' := by
  have hrooted : path.chars.head? = some '/' := path.rooted
  rw [join]
  split
  · exact hrooted
  · rename_i hrest
    rw [stripSlash]
    split
    · -- the slash at the end may be the slash at the start
      cases hpath : path.chars with
      | nil => simp [hpath] at hrooted
      | cons ch rest =>
        rw [hpath] at hrooted
        cases rest with
        | nil => exact hslash.resolve_left hrest
        | cons => exact hrooted
    · rw [List.head?_append, hrooted]
      rfl

theorem isSome_joined {target : Weighted} {remainder : List Char}
    (hlegal : ∀ ch ∈ remainder, pathChar ch = true)
    (hslash : remainder = [] ∨ remainder.head? = some '/') :
    (Weighted.joined remainder target).isSome = true ↔
      (join target.endpoint.path.chars remainder).length ≤ pathMaxBytes := by
  rw [Weighted.joined, Option.isSome_map]
  exact isSome_newPath (head?_join hslash) (pathChar_of_mem_join hlegal)

/-! ### What a search finds -/

def claims (key : RouteKey) (rule : RouteRule) : Bool :=
  authority rule.key.endpoint == authority key.endpoint &&
    (remainderOf rule.path.chars key.endpoint.path.chars).isSome

/-- Where a rule whose plan is at a location sends a request it claims. -/
def sendTo (key : RouteKey) (location : ℕ) (rule : RouteRule) : Option Resolution :=
  (remainderOf rule.path.chars key.endpoint.path.chars).bind (Planned.ofRule rule location).send

theorem groupRules_eq (rules : List RouteRule) (free : ℕ) (groups : Authority → List Planned)
    (held : Authority) :
    groupRules rules free groups held
      = groups held ++ ((rules.zipIdx free).filter fun placed =>
          authority placed.1.key.endpoint == held).map fun placed => Planned.ofRule placed.1 placed.2 := by
  induction rules generalizing free groups with
  | nil => simp [groupRules]
  | cons rule rest ih =>
    rw [groupRules, ih, List.zipIdx_cons]
    by_cases h : authority rule.key.endpoint = held
    · simp [h]
    · simp [h, Function.update_of_ne (Ne.symm h)]

theorem byAuthority_fromRules (rules : List RouteRule) (held : Authority) :
    (RoutingTable.fromRules rules).byAuthority held
      = (heaviestFirst (fun placed : RouteRule × ℕ => pathLength placed.1) (rules.zipIdx.filter fun placed =>
          authority placed.1.key.endpoint == held)).map fun placed => Planned.ofRule placed.1 placed.2 := by
  show heaviestFirst _ (groupRules rules 0 (fun _ => []) held) = _
  rw [groupRules_eq, List.nil_append, heaviestFirst_map]
  rfl

theorem resolveIn_eq (requested : AbsPath) (group : List Planned) :
    resolveIn requested group
      = (group.find? fun planned => (remainderOf planned.rule.path.chars requested.chars).isSome).bind
          fun planned => (remainderOf planned.rule.path.chars requested.chars).bind planned.send := by
  induction group with
  | nil => rfl
  | cons planned group ih =>
    rw [resolveIn, List.find?_cons]
    cases h : remainderOf planned.rule.path.chars requested.chars with
    | none => exact ih
    | some remainder => simp [h]

/-- **The search as one**: the first of the longest rules that claim the request, and the plan made for it
where it first stands. -/
theorem resolve_fromRules (rules : List RouteRule) (key : RouteKey) :
    (RoutingTable.fromRules rules).resolve key
      = ((heaviestFirst pathLength rules).find? (claims key)).bind
          fun rule => sendTo key (rules.idxOf rule) rule := by
  have hplaced : ((heaviestFirst (fun placed : RouteRule × ℕ => pathLength placed.1) rules.zipIdx).find?
      fun placed => claims key placed.1).bind (fun placed => sendTo key placed.2 placed.1)
        = ((heaviestFirst pathLength rules).find? (claims key)).bind
          fun rule => sendTo key (rules.idxOf rule) rule := by
    rw [find?_heaviestFirst_zipIdx, Option.bind_map]
    rfl
  rw [RoutingTable.resolve, resolveIn_eq, byAuthority_fromRules, List.find?_map, Option.bind_map, ← hplaced]
  exact congrArg (Option.bind · _) (find?_heaviestFirst_filter _ _ _ rules.zipIdx)

/-- Leaving out a stored rule whose key is held changes no search for what a key decides. -/
theorem find?_addStored {p : RouteRule → Bool} (hp : ∀ a b, a.key = b.key → p a = p b)
    (rules dynamic : List RouteRule) :
    (addStored rules dynamic).find? p = (rules ++ dynamic).find? p := by
  induction dynamic generalizing rules with
  | nil => rw [addStored, List.append_nil]
  | cons rule dynamic ih =>
    rw [addStored, ih]
    split
    · rename_i hheld
      obtain ⟨held, hmem, hkey⟩ := List.any_eq_true.mp hheld
      rw [List.find?_append, List.find?_append, List.find?_cons]
      cases hrule : p rule with
      | false => rfl
      | true =>
        -- the rule left out matches, so the one that holds its key does and comes first
        have hsome : (rules.find? p).isSome = true := by
          apply List.find?_isSome.mpr
          exact ⟨held, hmem, (hp held rule (beq_iff_eq.mp hkey)).trans hrule⟩
        obtain ⟨first, hfirst⟩ := Option.isSome_iff_exists.mp hsome
        rw [hfirst]
        rfl
    · rw [List.append_assoc]
      rfl

theorem claims_of_key (key : RouteKey) {a b : RouteRule} (h : a.key = b.key) :
    claims key a = claims key b := by
  rw [claims, claims, RouteRule.path, RouteRule.path, h]

theorem assemble_ok {configured stored : List RouteRule} {table : RoutingTable}
    (h : RoutingTable.assemble configured stored = .ok table) :
    (addStored configured stored).find? (fun rule => rule.path.isReserved) = none ∧
      table = .fromRules (addStored configured stored) := by
  rw [RoutingTable.assemble] at h
  split at h
  · cases h
  · rename_i hnone
    cases h
    exact ⟨hnone, rfl⟩

/-- An assembled table is searched as the configured rules followed by the stored ones.  Only where the
plans are made depends on which stored rules were left out. -/
theorem resolve_assemble {configured stored : List RouteRule} {table : RoutingTable}
    (h : RoutingTable.assemble configured stored = .ok table) (key : RouteKey) :
    table.resolve key
      = ((heaviestFirst pathLength (configured ++ stored)).find? (claims key)).bind
          fun rule => sendTo key ((addStored configured stored).idxOf rule) rule := by
  rw [(assemble_ok h).2, resolve_fromRules]
  refine congrArg (Option.bind · _) (find?_heaviestFirst_congr pathLength fun w => ?_)
  apply find?_addStored
  intro a b hkey
  rw [claims_of_key key hkey, pathLength, pathLength, RouteRule.path, RouteRule.path, hkey]

theorem placed_of_sendTo {key : RouteKey} {location : ℕ} {rule : RouteRule} {resolution : Resolution}
    (h : sendTo key location rule = some resolution) :
    resolution.rule = rule ∧ resolution.location = location := by
  obtain ⟨remainder, -, hsend⟩ := Option.bind_eq_some_iff.mp h
  obtain ⟨targets, -, hresolution⟩ := Option.map_eq_some_iff.mp hsend
  rw [← hresolution]
  exact ⟨rfl, rfl⟩

theorem rule_of_sendTo {key : RouteKey} {location : ℕ} {rule : RouteRule} {resolution : Resolution}
    (h : sendTo key location rule = some resolution) : resolution.rule = rule := (placed_of_sendTo h).1

/-- Wherever its plan is, a rule sends a request to the same endpoints. -/
theorem sendTo_elsewhere {key : RouteKey} {location : ℕ} {rule : RouteRule} {resolution : Resolution}
    (h : sendTo key location rule = some resolution) (other : ℕ) :
    sendTo key other rule = some { resolution with location := other } := by
  obtain ⟨remainder, hremainder, hsend⟩ := Option.bind_eq_some_iff.mp h
  obtain ⟨targets, htargets, rfl⟩ := Option.map_eq_some_iff.mp hsend
  rw [sendTo, hremainder, Option.bind_some]
  exact Option.map_eq_some_iff.mpr ⟨targets, htargets, rfl⟩

theorem location_of_fromRules {rules : List RouteRule} {key : RouteKey} {resolution : Resolution}
    (h : (RoutingTable.fromRules rules).resolve key = some resolution) :
    resolution.rule ∈ rules ∧ resolution.location = rules.idxOf resolution.rule := by
  rw [resolve_fromRules] at h
  obtain ⟨rule, hfound, hsend⟩ := Option.bind_eq_some_iff.mp h
  obtain ⟨rfl, hlocation⟩ := placed_of_sendTo hsend
  exact ⟨(mem_heaviestFirst pathLength).mp (List.mem_of_find?_eq_some hfound), hlocation⟩

theorem placed_alone {rule : RouteRule} {key : RouteKey} {resolution : Resolution}
    (h : (RoutingTable.fromRules [rule]).resolve key = some resolution) :
    resolution.rule = rule ∧ resolution.location = 0 := by
  obtain ⟨hmem, hlocation⟩ := location_of_fromRules h
  rw [List.mem_singleton.mp hmem, List.idxOf_cons_self] at hlocation
  exact ⟨List.mem_singleton.mp hmem, hlocation⟩

/-- **Every resolution of a rule shares the one plan** the table made for it, and no other rule's does. -/
theorem location_eq_iff {rules : List RouteRule} {key key' : RouteKey} {resolution other : Resolution}
    (h : (RoutingTable.fromRules rules).resolve key = some resolution)
    (h' : (RoutingTable.fromRules rules).resolve key' = some other) :
    resolution.location = other.location ↔ resolution.rule = other.rule := by
  obtain ⟨hmem, hlocation⟩ := location_of_fromRules h
  rw [hlocation, (location_of_fromRules h').2]
  exact List.idxOf_inj hmem

/-- Where a rule sends a request holds the rule's plan, and as many endpoints as the rule. -/
theorem plan_of_sendTo {key : RouteKey} {location : ℕ} {rule : RouteRule} {resolution : Resolution}
    (h : sendTo key location rule = some resolution) :
    resolution.plan = Plan.of resolution.rule.target.weighted ∧
      resolution.targets.length = resolution.rule.target.weighted.length := by
  obtain ⟨remainder, -, hsend⟩ := Option.bind_eq_some_iff.mp h
  obtain ⟨targets, htargets, hresolution⟩ := Option.map_eq_some_iff.mp hsend
  rw [← hresolution]
  exact ⟨rfl, length_mapM htargets⟩

theorem plan_of_fromRules {rules : List RouteRule} {key : RouteKey} {resolution : Resolution}
    (h : (RoutingTable.fromRules rules).resolve key = some resolution) :
    resolution.plan = Plan.of resolution.rule.target.weighted ∧
      resolution.targets.length = resolution.rule.target.weighted.length := by
  rw [resolve_fromRules] at h
  obtain ⟨rule, -, hsend⟩ := Option.bind_eq_some_iff.mp h
  exact plan_of_sendTo hsend

/-- What an assembled table resolves to holds its rule's plan, and as many endpoints as the rule. -/
theorem plan_of_resolve {configured stored : List RouteRule} {table : RoutingTable} {key : RouteKey}
    {resolution : Resolution} (htable : RoutingTable.assemble configured stored = .ok table)
    (h : table.resolve key = some resolution) :
    resolution.plan = Plan.of resolution.rule.target.weighted ∧
      resolution.targets.length = resolution.rule.target.weighted.length := by
  rw [(assemble_ok htable).2] at h
  exact plan_of_fromRules h

/-! ### Stored rules in front of configured ones -/

/-- The paths a rule would send a request on to are all short enough to be paths. -/
def Fits (key : RouteKey) (rule : RouteRule) : Prop :=
  ∀ remainder, remainderOf rule.path.chars key.endpoint.path.chars = some remainder →
    ∀ target ∈ rule.target.weighted,
      (join target.endpoint.path.chars remainder).length ≤ pathMaxBytes

theorem isSome_sendTo {key : RouteKey} (location : ℕ) {rule : RouteRule} (h : claims key rule = true) :
    (sendTo key location rule).isSome = true ↔ Fits key rule := by
  simp only [claims, Bool.and_eq_true] at h
  obtain ⟨remainder, hremainder⟩ := Option.isSome_iff_exists.mp h.2
  obtain ⟨hwhole, hslash⟩ := remainderOf_eq_some.mp hremainder
  have hlegal : ∀ ch ∈ remainder, pathChar ch = true := fun ch hch =>
    key.endpoint.path.pathChar_of_mem (by rw [hwhole]; exact List.mem_append_right _ hch)
  rw [sendTo, hremainder, Option.bind_some, Planned.send, Option.isSome_map, isSome_mapM]
  constructor
  · intro hall other hother target htarget
    have hsame : remainder = other := Option.some.inj (hremainder.symm.trans hother)
    rw [← hsame]
    exact (isSome_joined hlegal hslash).mp (hall target htarget)
  · intro hfits target htarget
    exact (isSome_joined hlegal hslash).mpr (hfits remainder hremainder target htarget)

/-- A longer path that claims what another claims is a longer segment prefix, unless the two are one
path but for a trailing slash. -/
theorem longer_iff_ne {key : RouteKey} {rule other : RouteRule} (hrule : claims key rule = true)
    (hother : claims key other = true) (hlt : pathLength rule < pathLength other) :
    (stripSlash rule.path.chars).length < (stripSlash other.path.chars).length ↔
      stripSlash other.path.chars ≠ stripSlash rule.path.chars := by
  simp only [claims, Bool.and_eq_true, isSome_remainderOf] at hrule hother
  obtain ⟨rest, hrest, -⟩ := hrule.2
  obtain ⟨rest', hrest', -⟩ := hother.2
  rw [pathLength_eq, pathLength_eq] at hlt
  have hshort := (length_stripSlash rule.path.chars).1
  have hlong := (length_stripSlash other.path.chars).2
  constructor
  · intro hless heq
    rw [heq] at hless
    omega
  · intro hne
    have hdiffer : (stripSlash rule.path.chars).length ≠ (stripSlash other.path.chars).length := by
      intro hlen
      exact hne (List.append_inj (hrest'.symm.trans hrest) hlen.symm).1
    omega

/-- What a search may come to when the configured rules alone resolve the request to `rule`: a configured
rule, or a stored one whose path is a longer segment prefix of the requested path. -/
def KeepsConfigured (configured stored : List RouteRule) (key : RouteKey) (rule : RouteRule)
    (found : Option Resolution) : Prop :=
  ∃ resolution, found = some resolution ∧
    (resolution.rule ∈ configured ∨
      resolution.rule ∈ stored ∧
        SegmentPrefix (stripSlash resolution.rule.path.chars) key.endpoint.path.chars ∧
        (stripSlash rule.path.chars).length < (stripSlash resolution.rule.path.chars).length)

/-- **When a stored rule stands in front of a configured one only by a longer path.**  The condition is on
the first of the longest stored rules that claim the request, and asks something of it only when its path
has more bytes than the configured rule's: it is not that path with a slash behind it, and the paths it
sends to stay short enough. -/
theorem assemble_keeps_configured {configured stored : List RouteRule} {alone full : RoutingTable}
    {key : RouteKey} {resolution : Resolution}
    (halone : RoutingTable.assemble configured [] = .ok alone)
    (hfull : RoutingTable.assemble configured stored = .ok full)
    (hresolved : alone.resolve key = some resolution) :
    KeepsConfigured configured stored key resolution.rule (full.resolve key) ↔
      ∀ other, Heaviest pathLength (claims key) stored other → pathLength resolution.rule < pathLength other →
        stripSlash other.path.chars ≠ stripSlash resolution.rule.path.chars ∧ Fits key other := by
  rw [resolve_assemble halone, List.append_nil] at hresolved
  rw [resolve_assemble hfull]
  obtain ⟨rule, hrule, hsent⟩ := Option.bind_eq_some_iff.mp hresolved
  have hmax := ((find?_heaviestFirst pathLength).mp hrule).1
  have hclaims : claims key rule = true := List.find?_some hrule
  have hmem : rule ∈ configured := (mem_heaviestFirst pathLength).mp (List.mem_of_find?_eq_some hrule)
  rw [rule_of_sendTo hsent]
  rcases find?_heaviestFirst_append pathLength stored hrule with hsame | hother
  · obtain ⟨hbound, hfound⟩ := hsame
    constructor
    · intro _ other hlongest hlt
      have hle := hbound other hlongest.mem.1 hlongest.mem.2
      omega
    · intro _
      refine ⟨_, by rw [hfound]; exact sendTo_elsewhere hsent _, .inl ?_⟩
      show resolution.rule ∈ configured
      rw [rule_of_sendTo hsent]
      exact hmem
  · obtain ⟨other, hlt, hlongest, hfound⟩ := hother
    have hclaims' : claims key other = true := List.find?_some hfound
    have hnot : other ∉ configured := by
      intro hconfigured
      have := hmax other hconfigured hclaims'
      omega
    have hstored : other ∈ stored :=
      (mem_heaviestFirst pathLength).mp (List.mem_of_find?_eq_some hlongest)
    rw [hfound]
    constructor
    · intro hkeeps other' hlongest' _
      obtain ⟨sent, hsend, hwhich⟩ := hkeeps
      have hunique : other = other' :=
        Option.some.inj (hlongest.symm.trans ((find?_heaviestFirst pathLength).mpr hlongest'))
      rw [Option.bind_some] at hsend
      rw [rule_of_sendTo hsend] at hwhich
      rw [← hunique]
      rcases hwhich with hconfigured | hlonger
      · exact absurd hconfigured hnot
      · exact ⟨(longer_iff_ne hclaims hclaims' hlt).mp hlonger.2.2,
          (isSome_sendTo _ hclaims').mp (Option.isSome_iff_exists.mpr ⟨sent, hsend⟩)⟩
    · intro hcond
      obtain ⟨hne, hfits⟩ := hcond other ((find?_heaviestFirst pathLength).mp hlongest) hlt
      obtain ⟨sent, hsend⟩ := Option.isSome_iff_exists.mp ((isSome_sendTo _ hclaims').mpr hfits)
      refine ⟨sent, hsend, .inr ?_⟩
      rw [rule_of_sendTo hsend]
      simp only [claims, Bool.and_eq_true, isSome_remainderOf] at hclaims'
      refine ⟨hstored, hclaims'.2, ?_⟩
      apply (longer_iff_ne hclaims _ hlt).mpr hne
      simp only [claims, Bool.and_eq_true, isSome_remainderOf]
      exact hclaims'

def listener : Endpoint where
  protocol := .http
  host := ⟨"127.0.0.1", by decide, by decide⟩
  port := ⟨8080, by decide⟩
  path := ⟨"/anthropic", by decide, by decide, by decide⟩

/-- A rule of the examples: what arrives at the listener under a path goes to one host. -/
def carrying (path : AbsPath) (host : Host) : RouteRule where
  api := ⟨"claude", by decide, by decide, by decide⟩
  key := ⟨{ listener with path }⟩
  target := ⟨[⟨⟨.https, host, ⟨443, by decide⟩, ⟨"/v1", by decide, by decide, by decide⟩⟩, ⟨1⟩⟩],
    List.cons_ne_nil _ _⟩
  strategy := .roundRobin

/-- The rule the configuration contributes. -/
def configuredRule : RouteRule :=
  carrying ⟨"/anthropic", by decide, by decide, by decide⟩
    ⟨"api.anthropic.com", by decide, by decide⟩

/-- A stored rule under the same path with a slash behind it. -/
def slashedRule : RouteRule :=
  carrying ⟨"/anthropic/", by decide, by decide, by decide⟩ ⟨"api.example.com", by decide, by decide⟩

/-- A stored rule one segment below the configured one. -/
def deeperRule : RouteRule :=
  carrying ⟨"/anthropic/beta", by decide, by decide, by decide⟩
    ⟨"api.example.com", by decide, by decide⟩

/-- A request one segment below the configured path. -/
def messagesKey : RouteKey :=
  ⟨{ listener with path := ⟨"/anthropic/messages", by decide, by decide, by decide⟩ }⟩

/-- **A stored rule with a slash behind it takes what a configured rule claims**: the two paths claim the
same requests, and the stored one is a byte longer. -/
theorem slashed_rule_takes_over :
    ∃ alone full resolution,
      RoutingTable.assemble [configuredRule] [] = .ok alone ∧
      RoutingTable.assemble [configuredRule] [slashedRule] = .ok full ∧
      alone.resolve messagesKey = some resolution ∧ resolution.rule = configuredRule ∧
      ¬ KeepsConfigured [configuredRule] [slashedRule] messagesKey resolution.rule
        (full.resolve messagesKey) := by
  have hfound : ((RoutingTable.fromRules [configuredRule, slashedRule]).resolve messagesKey).map
      Resolution.rule = some slashedRule := by decide
  refine ⟨.fromRules [configuredRule], .fromRules [configuredRule, slashedRule], _, rfl, rfl, rfl,
    rfl, ?_⟩
  intro hkeeps
  obtain ⟨sent, hsent, hwhich⟩ := hkeeps
  rw [hsent] at hfound
  have hrule : sent.rule = slashedRule := Option.some.inj hfound
  rw [hrule] at hwhich
  rcases hwhich with hconfigured | hlonger
  · exact absurd hconfigured (by decide)
  · exact absurd hlonger.2.2 (by decide)

/-- A stored rule one segment deeper takes its own requests and no more. -/
theorem deeper_rule_keeps_configured :
    ∃ alone full resolution,
      RoutingTable.assemble [configuredRule] [] = .ok alone ∧
      RoutingTable.assemble [configuredRule] [deeperRule] = .ok full ∧
      alone.resolve deeperRule.key = some resolution ∧
      (full.resolve deeperRule.key).map Resolution.rule = some deeperRule ∧
      KeepsConfigured [configuredRule] [deeperRule] deeperRule.key resolution.rule
        (full.resolve deeperRule.key) := by
  refine ⟨.fromRules [configuredRule], .fromRules [configuredRule, deeperRule], _, rfl, rfl, rfl,
    by decide, (assemble_keeps_configured rfl rfl rfl).mpr ?_⟩
  intro other hlongest _
  have hother : other = deeperRule := List.mem_singleton.mp hlongest.mem.1
  rw [hother]
  refine ⟨by decide, fun remainder hremainder target htarget => ?_⟩
  have hnone : [] = remainder := Option.some.inj hremainder
  have hone : target = _ := List.mem_singleton.mp htarget
  rw [← hnone, hone]
  decide

end IntelliPrism.Gateway
