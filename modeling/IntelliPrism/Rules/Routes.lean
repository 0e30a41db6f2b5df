import IntelliPrism.Lib.Grouping
import IntelliPrism.Rules.Revision

/-!
# The route store is a map

A rule is kept as a row and the rows of the endpoints behind it.  A put writes the row under the rule's key
and replaces the others in one transaction; a removal takes the row, and the others go by the cascade.
`routes` joins the two tables, sorts them, and gathers the rows of each rule again, for which the sort has
to keep them together.

* `RouteMap`, `RouteCall.apply` — what the store is for: a rule under each key, written and removed;
* `Holds` — a database holds a map: each row of a route, with what is behind it, is the rule of its key;
* `Holds.put`, `Holds.remove`, `Holds.calls` — **every call does to the map what it is for**, and so does
  every sequence;
* `Holds.route_eq`, `Holds.readRoutes_eq` — **what is read is the map**, where `Holds.orderBy_joined` says
  that the sort keeps the rows of each route together;
* `routes_are_the_last_put` — so a sequence of calls leaves the last rule put under each key.
-/

namespace IntelliPrism.Rules

open IntelliPrism.Lib IntelliPrism.Core
open IntelliPrism.Plugins (RowId Supply)

/-! ### What the store is for -/

abbrev RouteMap := RouteKey → Option RouteRule

/-- One call, a put with the row id its insert is given. -/
inductive RouteCall where
  | put (x : Supply) (rule : RouteRule)
  | remove (key : RouteKey)

namespace RouteCall

def key : RouteCall → RouteKey
  | put _ rule => rule.key
  | remove key => key

/-- The rule a call leaves under its key. -/
def rule : RouteCall → Option RouteRule
  | put _ rule => some rule
  | remove _ => none

def apply (map : RouteMap) (call : RouteCall) : RouteMap :=
  fun key => if call.key = key then call.rule else map key

end RouteCall

/-- The rule of the last call under a key, where that was a put. -/
def lastPut (calls : List RouteCall) (key : RouteKey) : Option RouteRule :=
  (calls.reverse.find? fun call => call.key = key).bind RouteCall.rule

/-- A map to which calls are applied in turn has what the last of each key left. -/
theorem foldl_apply (calls : List RouteCall) :
    calls.foldl RouteCall.apply (fun _ => none) = lastPut calls := by
  induction calls using List.reverseRecOn with
  | nil => rfl
  | append_singleton calls call ih =>
    funext key
    rw [List.foldl_append, List.foldl_cons, List.foldl_nil, ih]
    simp only [RouteCall.apply, lastPut, List.reverse_append, List.reverse_singleton,
      List.singleton_append, List.find?_cons]
    by_cases hkey : call.key = key
    · simp [hkey]
    · simp [hkey]

namespace Database

variable {db db' : Database}

/-! ### The endpoints behind a route -/

/-- The rows of endpoints put behind a route from a position on. -/
def placed (route : RowId) : ℕ → List Weighted → List TargetRow
  | _, [] => []
  | position, weighted :: rest => ⟨route, position, weighted⟩ :: placed route (position + 1) rest

theorem mem_placed {route : RowId} {position : ℕ} {weighted : List Weighted} {t : TargetRow}
    (h : t ∈ placed route position weighted) : t.route = route ∧ position ≤ t.position := by
  induction weighted generalizing position with
  | nil => cases h
  | cons this rest ih =>
    rcases List.mem_cons.mp h with rfl | hrest
    · exact ⟨rfl, Nat.le_refl _⟩
    · obtain ⟨hroute, hle⟩ := ih hrest
      exact ⟨hroute, by omega⟩

theorem map_weighted_placed (route : RowId) (position : ℕ) (weighted : List Weighted) :
    (placed route position weighted).map TargetRow.weighted = weighted := by
  induction weighted generalizing position with
  | nil => rfl
  | cons this rest ih =>
    show this :: (placed route (position + 1) rest).map TargetRow.weighted = this :: rest
    rw [ih]

theorem pairwise_placed (route : RowId) (position : ℕ) (weighted : List Weighted) :
    (placed route position weighted).Pairwise fun a b => a.position < b.position := by
  induction weighted generalizing position with
  | nil => exact .nil
  | cons this rest ih => exact .cons (fun t ht => (mem_placed ht).2) (ih _)

theorem filter_placed_self (route : RowId) (position : ℕ) (weighted : List Weighted) :
    (placed route position weighted).filter (behind route) = placed route position weighted := by
  refine List.filter_eq_self.mpr ?_
  intro t ht
  show (t.route == route) = true
  rw [(mem_placed ht).1, beq_self_eq_true]

theorem filter_placed_of_ne {route other : RowId} (h : route ≠ other) (position : ℕ)
    (weighted : List Weighted) : (placed route position weighted).filter (behind other) = [] := by
  refine List.filter_eq_nil_iff.mpr ?_
  intro t ht hbehind
  have hother : t.route = other := by simpa [behind] using hbehind
  exact h ((mem_placed ht).1.symm.trans hother)

/-! ### What a put and a removal leave -/

theorem insertTarget_ok {t : TargetRow} (hfree : ¬db.targets.Has t.key)
    (hroute : db.routes.HasRow t.route) :
    ∃ db', db.insertTarget t = .ok db' ∧ db'.routes = db.routes ∧
      db'.targets.rows = db.targets.rows ++ [t] := by
  unfold insertTarget
  split
  · rename_i hinsert
    exact absurd (Table.insert_eq_none.mp hinsert) hfree
  · rename_i targets hinsert
    exact ⟨_, dif_pos hroute, rfl, (Table.insert_eq_some hinsert).2⟩

/-- Endpoints are put from a position on that none behind the route has reached. -/
theorem insertTargets_ok {route : RowId} {position : ℕ} (weighted : List Weighted)
    (hroute : db.routes.HasRow route)
    (hbefore : ∀ t ∈ db.targets.rows, t.route = route → t.position < position) :
    ∃ db', insertTargets route position weighted db = .ok db' ∧ db'.routes = db.routes ∧
      db'.targets.rows = db.targets.rows ++ placed route position weighted := by
  induction weighted generalizing db position with
  | nil => exact ⟨db, rfl, rfl, (List.append_nil _).symm⟩
  | cons this rest ih =>
    have hfree : ¬db.targets.Has (TargetRow.key ⟨route, position, this⟩) := by
      intro ⟨t, ht, hkey⟩
      obtain ⟨hsame, hposition⟩ := Prod.mk.inj hkey
      have hlt := hbefore t ht hsame
      simp only at hposition
      omega
    obtain ⟨db₁, hinsert, hroutes, htargets⟩ := insertTarget_ok hfree hroute
    have hbefore₁ : ∀ t ∈ db₁.targets.rows, t.route = route → t.position < position + 1 := by
      intro t ht hsame
      rw [htargets] at ht
      rcases List.mem_append.mp ht with hold | hnew
      · exact Nat.lt_succ_of_lt (hbefore t hold hsame)
      · rw [List.mem_singleton.mp hnew]
        exact Nat.lt_succ_self _
    have hroute₁ : db₁.routes.HasRow route := by
      rw [hroutes]
      exact hroute
    obtain ⟨db₂, hrest, hroutes₂, htargets₂⟩ := ih hroute₁ hbefore₁
    refine ⟨db₂, ?_, hroutes₂.trans hroutes, ?_⟩
    · show (db.insertTarget ⟨route, position, this⟩ >>= insertTargets route (position + 1) rest)
        = .ok db₂
      rw [hinsert]
      exact hrest
    · rw [htargets₂, htargets, List.append_assoc]
      rfl

/-- The row id an insert is given is one no route has, unless the key is there already and none is
taken. -/
def Unused (db : Database) (x : Supply) (rule : RouteRule) : Prop :=
  db.routes.find rule.key = none → ¬db.routes.HasRow x.row

instance (db : Database) (x : Supply) (rule : RouteRule) : Decidable (db.Unused x rule) :=
  inferInstanceAs (Decidable (_ → _))

/-- A route is written under its key, and the others stay as they are. -/
theorem upsertRoute_ok {x : Supply} {rule : RouteRule} (hunused : db.Unused x rule) :
    ∃ db' row, db.upsertRoute x rule = .ok (db', row) ∧ db'.targets = db.targets ∧
      ∀ r, r ∈ db'.routes.rows ↔
        r = ⟨row, rule.api, rule.key, rule.strategy⟩ ∨ r ∈ db.routes.rows ∧ r.key ≠ rule.key := by
  unfold upsertRoute
  split
  · rename_i found hfound
    obtain ⟨hmem, hkey⟩ := Table.find_eq_some.mp hfound
    refine ⟨_, _, rfl, rfl, ?_⟩
    intro r
    refine (RowTable.mem_modify (t := db.routes)
      (f := fun r : RouteRow => { r with api := rule.api, strategy := rule.strategy }) (fun _ => rfl)
      (fun _ => rfl)).trans ?_
    constructor
    · intro h
      rcases h with ⟨old, hold, hrow, rfl⟩ | ⟨hr, hrow⟩
      · have hsame : old = found := Table.eq_of_key (t := db.routes.byRow) hold hmem hrow
        rw [hsame, ← hkey]
        exact .inl rfl
      · rw [Ne, RowTable.row_eq_iff hr hmem, hkey] at hrow
        exact .inr ⟨hr, hrow⟩
    · intro h
      rcases h with rfl | ⟨hr, hne⟩
      · exact .inl ⟨found, hmem, rfl, by rw [← hkey]⟩
      · rw [← hkey, Ne, ← RowTable.row_eq_iff hr hmem] at hne
        exact .inr ⟨hr, hne⟩
  · rename_i hnone
    have hnew := Table.find_eq_none.mp hnone
    split
    · rename_i hadd
      rcases RowTable.add_eq_none.mp hadd with htaken | htaken
      · exact absurd htaken hnew
      · exact absurd htaken (hunused hnone)
    · rename_i routes hadd
      refine ⟨_, _, rfl, rfl, ?_⟩
      intro r
      show r ∈ routes.rows ↔ _
      rw [(RowTable.add_eq_some hadd).2, List.mem_append, List.mem_singleton]
      constructor
      · intro h
        rcases h with hr | rfl
        · exact .inr ⟨hr, fun heq => hnew ⟨r, hr, heq⟩⟩
        · exact .inl rfl
      · intro h
        rcases h with rfl | ⟨hr, -⟩
        · exact .inr rfl
        · exact .inl hr

/-- **A put** writes the row and replaces what is behind it. -/
theorem putRoute_ok {x : Supply} {rule : RouteRule} (hunused : db.Unused x rule) :
    ∃ db' row, db.putRoute x rule = .ok db' ∧
      (∀ r, r ∈ db'.routes.rows ↔
        r = ⟨row, rule.api, rule.key, rule.strategy⟩ ∨ r ∈ db.routes.rows ∧ r.key ≠ rule.key) ∧
      db'.targets.rows =
        (db.targets.rows.filter fun t => !behind row t) ++ placed row 0 rule.target.weighted := by
  obtain ⟨db₁, row, hupsert, htargets, hroutes⟩ := upsertRoute_ok hunused
  have hrow : (db₁.deleteTargets row).routes.HasRow row := ⟨_, (hroutes _).mpr (.inl rfl), rfl⟩
  have hnone : ∀ t ∈ (db₁.deleteTargets row).targets.rows, t.route = row → t.position < 0 := by
    intro t ht hsame
    have hother := (Table.mem_keep.mp ht).2
    rw [behind, hsame, beq_self_eq_true] at hother
    cases hother
  obtain ⟨db₂, hinsert, hroutes₂, htargets₂⟩ := insertTargets_ok rule.target.weighted hrow hnone
  refine ⟨db₂, row, ?_, ?_, ?_⟩
  · show (db.upsertRoute x rule >>= fun left =>
      insertTargets left.2 0 rule.target.weighted (left.1.deleteTargets left.2)) = .ok db₂
    rw [hupsert]
    exact hinsert
  · intro r
    rw [hroutes₂]
    exact hroutes r
  · rw [htargets₂, ← htargets]
    rfl

/-- **A removal** takes the row and what is behind it, where there is one. -/
theorem removeRoute_ok {key : RouteKey} {found : RouteRow} (h : db.routes.find key = some found) :
    ∃ db', db.removeRoute key = .ok db' ∧
      (∀ r, r ∈ db'.routes.rows ↔ r ∈ db.routes.rows ∧ r.key ≠ key) ∧
      db'.targets.rows = db.targets.rows.filter fun t => !behind found.rowId t := by
  obtain ⟨hmem, hkey⟩ := Table.find_eq_some.mp h
  unfold removeRoute
  split
  · rename_i hnone
    rw [h] at hnone
    cases hnone
  · rename_i found' hfound
    rw [h] at hfound
    cases hfound
    refine ⟨_, rfl, ?_, rfl⟩
    intro r
    refine RowTable.mem_without.trans (and_congr_right fun hr => ?_)
    rw [Ne, RowTable.row_eq_iff hr hmem, hkey]

/-! ### Calls -/

/-- What a call leaves; one that fails is rolled back. -/
def call (db : Database) : RouteCall → Database
  | .put x rule => (db.putRoute x rule).toOption.getD db
  | .remove key => (db.removeRoute key).toOption.getD db

def calls (db : Database) (calls : List RouteCall) : Database := calls.foldl call db

/-- Every put in a sequence is given a row id that is not in use. -/
def AllUnused (db : Database) : List RouteCall → Prop
  | [] => True
  | .put x rule :: rest => db.Unused x rule ∧ AllUnused (db.call (.put x rule)) rest
  | .remove key :: rest => AllUnused (db.call (.remove key)) rest

instance decidableAllUnused : (db : Database) → (calls : List RouteCall) → Decidable (db.AllUnused calls)
  | _, [] => inferInstanceAs (Decidable True)
  | db, .put x rule :: rest =>
    have := decidableAllUnused (db.call (.put x rule)) rest
    inferInstanceAs (Decidable (_ ∧ _))
  | db, .remove key :: rest => decidableAllUnused (db.call (.remove key)) rest

/-- A row and what is behind it are a rule. -/
structure Stands (db : Database) (r : RouteRow) (rule : RouteRule) : Prop where
  api : r.api = rule.api
  key : r.key = rule.key
  strategy : r.strategy = rule.strategy
  targets : db.targets.rows.filter (behind r.rowId) = placed r.rowId 0 rule.target.weighted

/-- The database holds a map: every row is the rule of its key, and every rule has a row. -/
structure Holds (db : Database) (map : RouteMap) : Prop where
  stands : ∀ r ∈ db.routes.rows, ∃ rule, map r.key = some rule ∧ Stands db r rule
  has : ∀ key rule, map key = some rule → db.routes.Has key

theorem Holds.key_eq {map : RouteMap} (h : db.Holds map) {key : RouteKey} {rule : RouteRule}
    (hrule : map key = some rule) : rule.key = key := by
  obtain ⟨r, hr, rfl⟩ := h.has key rule hrule
  obtain ⟨rule', hrule', hstands⟩ := h.stands r hr
  rw [hrule] at hrule'
  rw [Option.some.inj hrule', ← hstands.key]

theorem Holds.map_of_find_none {map : RouteMap} (h : db.Holds map) {key : RouteKey}
    (hfind : db.routes.find key = none) : map key = none := by
  cases hrule : map key with
  | none => rfl
  | some rule => exact absurd (h.has key rule hrule) (Table.find_eq_none.mp hfind)

/-- Another route stands where the endpoints behind one are taken and put. -/
theorem Stands.of_ne {r : RouteRow} {rule : RouteRule} {row : RowId} {more : List TargetRow}
    (h : db.Stands r rule) (hne : r.rowId ≠ row) (hmore : more.filter (behind r.rowId) = [])
    (htargets : db'.targets.rows = (db.targets.rows.filter fun t => !behind row t) ++ more) :
    db'.Stands r rule := by
  refine ⟨h.api, h.key, h.strategy, ?_⟩
  rw [htargets, List.filter_append, hmore, List.append_nil, List.filter_filter, ← h.targets]
  refine List.filter_congr ?_
  intro t _
  by_cases hbehind : behind r.rowId t = true
  · have hother : t.route = r.rowId := by simpa [behind] using hbehind
    simp [behind, hother, hne]
  · simp [Bool.eq_false_iff.mpr hbehind]

theorem Holds.put {map : RouteMap} (h : db.Holds map) {x : Supply} {rule : RouteRule}
    (hunused : db.Unused x rule) : (db.call (.put x rule)).Holds (RouteCall.apply map (.put x rule)) := by
  obtain ⟨db', row, hput, hroutes, htargets⟩ := putRoute_ok hunused
  have hcall : db.call (.put x rule) = db' := by
    rw [call, hput]
    rfl
  rw [hcall]
  constructor
  · intro r hr
    rcases (hroutes r).mp hr with rfl | ⟨hold, hne⟩
    · refine ⟨rule, if_pos rfl, rfl, rfl, rfl, ?_⟩
      show db'.targets.rows.filter (behind row) = placed row 0 rule.target.weighted
      rw [htargets, List.filter_append, filter_placed_self, List.filter_filter]
      simp
    · obtain ⟨rule', hrule', hstands⟩ := h.stands r hold
      have hrow : r.rowId ≠ row := fun heq =>
        hne ((RowTable.row_eq_iff hr ((hroutes _).mpr (.inl rfl))).mp heq)
      refine ⟨rule', (if_neg (Ne.symm hne)).trans hrule', ?_⟩
      exact hstands.of_ne hrow (filter_placed_of_ne (Ne.symm hrow) _ _) htargets
  · intro key rule' hrule'
    by_cases hkey : rule.key = key
    · exact ⟨_, (hroutes _).mpr (.inl rfl), hkey⟩
    · obtain ⟨r, hr, rfl⟩ := h.has key rule' ((if_neg hkey).symm.trans hrule')
      exact ⟨r, (hroutes r).mpr (.inr ⟨hr, Ne.symm hkey⟩), rfl⟩

theorem Holds.remove {map : RouteMap} (h : db.Holds map) (key : RouteKey) :
    (db.call (.remove key)).Holds (RouteCall.apply map (.remove key)) := by
  cases hfind : db.routes.find key with
  | none =>
    -- nothing is under the key, in the database or in the map
    have hcall : db.call (.remove key) = db := by
      rw [call, removeRoute]
      simp only [hfind]
      rfl
    have hnone := h.map_of_find_none hfind
    have hsame : RouteCall.apply map (.remove key) = map := by
      funext other
      show (if key = other then none else map other) = map other
      split
      · rename_i heq
        rw [← heq, hnone]
      · rfl
    rw [hcall, hsame]
    exact h
  | some found =>
    obtain ⟨db', hremove, hroutes, htargets⟩ := removeRoute_ok hfind
    obtain ⟨hmem, hkey⟩ := Table.find_eq_some.mp hfind
    have hcall : db.call (.remove key) = db' := by
      rw [call, hremove]
      rfl
    rw [hcall]
    constructor
    · intro r hr
      obtain ⟨hold, hne⟩ := (hroutes r).mp hr
      obtain ⟨rule, hrule, hstands⟩ := h.stands r hold
      have hrow : r.rowId ≠ found.rowId := by
        rw [Ne, RowTable.row_eq_iff hold hmem, hkey]
        exact hne
      refine ⟨rule, (if_neg (Ne.symm hne)).trans hrule, ?_⟩
      exact hstands.of_ne hrow List.filter_nil (htargets.trans (List.append_nil _).symm)
    · intro other rule hrule
      by_cases heq : key = other
      · cases (if_pos heq).symm.trans hrule
      · obtain ⟨r, hr, rfl⟩ := h.has other rule ((if_neg heq).symm.trans hrule)
        exact ⟨r, (hroutes r).mpr ⟨hr, Ne.symm heq⟩, rfl⟩

theorem Holds.removeRoute_refused_iff {map : RouteMap} (h : db.Holds map) (key : RouteKey) :
    db.removeRoute key = .error (.noRoute key.endpoint.display) ↔ map key = none := by
  cases hfind : db.routes.find key with
  | none =>
    have hrefused : db.removeRoute key = .error (.noRoute key.endpoint.display) := by
      rw [removeRoute]
      simp only [hfind]
    exact ⟨fun _ => h.map_of_find_none hfind, fun _ => hrefused⟩
  | some found =>
    obtain ⟨db', hremove, -⟩ := removeRoute_ok hfind
    obtain ⟨hmem, hkey⟩ := Table.find_eq_some.mp hfind
    obtain ⟨rule, hrule, -⟩ := h.stands found hmem
    rw [hremove, ← hkey, hrule]
    exact ⟨fun hrefused => (by cases hrefused), fun hnone => (by cases hnone)⟩

/-- **Every sequence of calls does to the map what it is for.** -/
theorem Holds.calls {map : RouteMap} (h : db.Holds map) {calls : List RouteCall}
    (hunused : db.AllUnused calls) : (db.calls calls).Holds (calls.foldl RouteCall.apply map) := by
  induction calls generalizing db map with
  | nil => exact h
  | cons call rest ih =>
    cases call with
    | put x rule => exact ih (h.put hunused.1) hunused.2
    | remove key => exact ih (h.remove key) hunused

/-! ### Reads -/

/-- By host, path, protocol and port of the route: `routeOrder` without the position. -/
def keyOrder (a b : RouteRow) : Ordering :=
  (compare a.key.endpoint.host.raw b.key.endpoint.host.raw).then <|
    (compare a.key.endpoint.path.raw b.key.endpoint.path.raw).then <|
      (compare a.key.endpoint.protocol.name b.key.endpoint.protocol.name).then <|
        compare a.key.endpoint.port.get b.key.endpoint.port.get

instance : Std.TransCmp keyOrder :=
  inferInstanceAs (Std.TransCmp <| compareLex (compareOn fun r : RouteRow => r.key.endpoint.host.raw) <|
    compareLex (compareOn fun r : RouteRow => r.key.endpoint.path.raw) <|
      compareLex (compareOn fun r : RouteRow => r.key.endpoint.protocol.name) <|
        compareOn fun r : RouteRow => r.key.endpoint.port.get)

instance : Std.TransCmp routeOrder :=
  inferInstanceAs (Std.TransCmp <|
    compareLex (compareOn fun row : RouteRow × TargetRow => row.1.key.endpoint.host.raw) <|
      compareLex (compareOn fun row : RouteRow × TargetRow => row.1.key.endpoint.path.raw) <|
        compareLex (compareOn fun row : RouteRow × TargetRow => row.1.key.endpoint.protocol.name) <|
          compareLex (compareOn fun row : RouteRow × TargetRow => row.1.key.endpoint.port.get) <|
            compareOn fun row : RouteRow × TargetRow => row.2.position)

theorem routeOrder_eq (a b : RouteRow × TargetRow) :
    routeOrder a b = (keyOrder a.1 b.1).then (positionOrder a b) := by
  simp only [routeOrder, keyOrder, positionOrder, Ordering.then_assoc]

theorem key_of_keyOrder {a b : RouteRow} (h : keyOrder a b = .eq) : a.key = b.key := by
  simp only [keyOrder, Ordering.then_eq_eq, Std.compare_eq_iff_eq] at h
  obtain ⟨hhost, hpath, hprotocol, hport⟩ := h
  exact RouteKey.eq_of_endpoint (Endpoint.eq_iff.mpr ⟨Protocol.name_injective hprotocol, Host.ext hhost,
    Port.eq_of_get hport, AbsPath.ext hpath⟩)

/-- A route with each of the endpoints behind it. -/
def block (db : Database) (r : RouteRow) : List (RouteRow × TargetRow) :=
  (db.targets.rows.filter (behind r.rowId)).map fun t => (r, t)

theorem joined_eq : joined db.routes.rows db.targets.rows = db.routes.rows.flatMap db.block := rfl

theorem mem_block {r : RouteRow} {row : RouteRow × TargetRow} (h : row ∈ db.block r) :
    row.1 = r ∧ row.2 ∈ db.targets.rows ∧ row.2.route = r.rowId := by
  obtain ⟨t, ht, rfl⟩ := List.mem_map.mp h
  obtain ⟨hmem, hbehind⟩ := List.mem_filter.mp ht
  exact ⟨rfl, hmem, by simpa [behind] using hbehind⟩

namespace Stands

variable {r : RouteRow} {rule : RouteRule}

theorem block_eq (h : db.Stands r rule) :
    db.block r = (placed r.rowId 0 rule.target.weighted).map fun t => (r, t) :=
  congrArg (List.map fun t => (r, t)) h.targets

theorem pairwise_block (h : db.Stands r rule) : (db.block r).Pairwise (AtMost positionOrder) := by
  rw [h.block_eq, List.pairwise_map]
  refine (pairwise_placed ..).imp ?_
  intro a b hlt
  exact Nat.isLE_compare.mpr (Nat.le_of_lt hlt)

theorem rule_eq (h : db.Stands r rule) : rule = ⟨r.api, r.key, rule.target, r.strategy⟩ := by
  rw [h.api, h.key, h.strategy]

end Stands

theorem fromWeighted_weighted (target : RouteTarget) :
    RouteTarget.fromWeighted target.weighted = .ok target := dif_neg target.nonempty

/-- **What is read under a key is what the map has there.** -/
theorem Holds.route_eq {map : RouteMap} (h : db.Holds map) (key : RouteKey) :
    db.route key = .ok (map key) := by
  have hrows : ((joined db.routes.rows db.targets.rows).filter fun row => row.1.key == key)
      = (db.routes.find key).toList.flatMap db.block := by
    rw [joined_eq, ← Table.filter_key]
    refine filter_flatMap_of_owner ?_
    intro r _ row hrow
    rw [(mem_block hrow).1]
    rfl
  rw [route, hrows]
  cases hfind : db.routes.find key with
  | none =>
    rw [h.map_of_find_none hfind]
    rfl
  | some r =>
    obtain ⟨hr, rfl⟩ := Table.find_eq_some.mp hfind
    obtain ⟨rule, hrule, hstands⟩ := h.stands r hr
    have hsorted : orderBy positionOrder ((some r).toList.flatMap db.block) = db.block r := by
      show (db.block r ++ []).insertionSort (AtMost positionOrder) = db.block r
      rw [List.append_nil]
      exact hstands.pairwise_block.insertionSort_eq
    have hweighted : (db.block r).map (fun row => row.2.weighted) = rule.target.weighted := by
      rw [hstands.block_eq, List.map_map]
      exact map_weighted_placed ..
    rw [hsorted, hrule]
    cases hblock : db.block r with
    | nil =>
      rw [hblock] at hweighted
      exact absurd hweighted.symm rule.target.nonempty
    | cons first rest =>
      rw [hblock] at hweighted
      have hfirst : first.1 = r := (mem_block (hblock ▸ List.mem_cons_self ..)).1
      simp only [hweighted, fromWeighted_weighted, hfirst]
      exact congrArg (fun rule => Except.ok (some rule)) hstands.rule_eq.symm

/-! ### Gathering -/

/-- A target with more endpoints behind it. -/
def more (target : RouteTarget) (weighted : List Weighted) : RouteTarget where
  weighted := target.weighted ++ weighted
  nonempty := List.append_ne_nil_of_left_ne_nil target.nonempty weighted

theorem gather_more (r : RouteRow) (weighted : List Weighted) (position : ℕ)
    (rest : List (RouteRow × TargetRow)) (rules : List RouteRule) (last : RouteRule) :
    gather ((placed r.rowId position weighted).map (fun t => (r, t)) ++ rest) (some r.rowId)
        (rules ++ [last])
      = gather rest (some r.rowId) (rules ++ [{ last with target := more last.target weighted }]) := by
  induction weighted generalizing position last with
  | nil =>
    have hsame : more last.target [] = last.target := RouteTarget.ext (List.append_nil _)
    rw [hsame]
    rfl
  | cons this weighted ih =>
    have hone : RouteTarget.fromWeighted (last.target.weighted ++ [this])
        = .ok (more last.target [this]) :=
      fromWeighted_weighted (more last.target [this])
    have hboth : more (more last.target [this]) weighted = more last.target (this :: weighted) :=
      RouteTarget.ext (List.append_assoc ..)
    show gather ((r, ⟨r.rowId, position, this⟩) ::
      ((placed r.rowId (position + 1) weighted).map (fun t => (r, t)) ++ rest)) _ _ = _
    rw [gather, if_pos rfl, List.getLast?_concat]
    simp only [hone, List.dropLast_concat]
    rw [← hboth]
    exact ih (position + 1) { last with target := more last.target [this] }

/-- **The rows of a route are gathered into its rule**, when those before them were of another. -/
theorem Stands.gather_block {r : RouteRow} {rule : RouteRule} (h : db.Stands r rule)
    {current : Option RowId} (hcurrent : current ≠ some r.rowId) (rest : List (RouteRow × TargetRow))
    (rules : List RouteRule) :
    gather (db.block r ++ rest) current rules = gather rest (some r.rowId) (rules ++ [rule]) := by
  obtain ⟨first, weighted, hweighted⟩ := List.exists_cons_of_ne_nil rule.target.nonempty
  let begun : RouteTarget := ⟨[first], List.cons_ne_nil _ _⟩
  have hone : RouteTarget.fromWeighted [first] = .ok begun := fromWeighted_weighted begun
  have htarget : more begun weighted = rule.target := RouteTarget.ext hweighted.symm
  rw [h.block_eq, hweighted]
  show gather ((r, ⟨r.rowId, 0, first⟩) ::
    ((placed r.rowId 1 weighted).map (fun t => (r, t)) ++ rest)) _ _ = _
  rw [gather, if_neg hcurrent]
  simp only [hone]
  refine (gather_more r weighted 1 rest rules ⟨r.api, r.key, begun, r.strategy⟩).trans ?_
  simp only [htarget]
  rw [← h.rule_eq]

theorem gather_blocks {map : RouteMap} {rs : List RouteRow}
    (hstands : ∀ r ∈ rs, ∃ rule, map r.key = some rule ∧ db.Stands r rule)
    (hnodup : (rs.map RouteRow.rowId).Nodup) {current : Option RowId}
    (hcurrent : ∀ r ∈ rs, current ≠ some r.rowId) (rules : List RouteRule) :
    gather (rs.flatMap db.block) current rules = .ok (rules ++ rs.filterMap fun r => map r.key) := by
  induction rs generalizing current rules with
  | nil =>
    rw [List.filterMap_nil, List.append_nil]
    rfl
  | cons r rs ih =>
    obtain ⟨rule, hrule, hthis⟩ := hstands r (List.mem_cons_self ..)
    rw [List.map_cons, List.nodup_cons] at hnodup
    have hother : ∀ r' ∈ rs, some r.rowId ≠ some r'.rowId := by
      intro r' hr' heq
      exact hnodup.1 (List.mem_map.mpr ⟨r', hr', (Option.some.inj heq).symm⟩)
    rw [List.flatMap_cons, hthis.gather_block (hcurrent r (List.mem_cons_self ..)),
      ih (fun r' hr' => hstands r' (List.mem_cons_of_mem _ hr')) hnodup.2 hother,
      List.filterMap_cons, hrule, List.append_assoc]
    rfl

/-- The routes in the order they are read in. -/
def sortedRoutes (db : Database) : List RouteRow := orderBy keyOrder db.routes.rows

/-- **The sort keeps the rows of each route together.** -/
theorem Holds.orderBy_joined {map : RouteMap} (h : db.Holds map) :
    orderBy routeOrder (joined db.routes.rows db.targets.rows) = db.sortedRoutes.flatMap db.block := by
  have hkey : ∀ a ∈ db.routes.rows, ∀ b ∈ db.routes.rows, keyOrder a b = .eq → a = b := by
    intro a ha b hb heq
    exact Table.eq_of_key ha hb (key_of_keyOrder heq)
  refine sorted_flatMap keyOrder db.routes.unique.of_map hkey ?_ ?_ ?_
  · intro r hr
    obtain ⟨rule, -, hstands⟩ := h.stands r hr
    have hself : keyOrder r r = .eq := Std.ReflCmp.compare_self
    refine hstands.pairwise_block.imp_of_mem ?_
    intro a b ha hb hle
    rw [AtMost, routeOrder_eq, (mem_block ha).1, (mem_block hb).1, hself]
    exact hle
  · intro a _ b _ hlt x hx y hy
    rw [AtMost, routeOrder_eq, (mem_block hx).1, (mem_block hy).1, hlt]
    rfl
  · intro x hx y hy heq
    obtain ⟨a, ha, hx⟩ := List.mem_flatMap.mp hx
    obtain ⟨b, hb, hy⟩ := List.mem_flatMap.mp hy
    obtain ⟨hxa, hxt, hxroute⟩ := mem_block hx
    obtain ⟨hyb, hyt, hyroute⟩ := mem_block hy
    rw [routeOrder_eq, Ordering.then_eq_eq, hxa, hyb] at heq
    have hroute : a = b := hkey a ha b hb heq.1
    have hposition : x.2.position = y.2.position := Std.compare_eq_iff_eq.mp heq.2
    -- one route and one position, one row
    have hrow : x.2.route = y.2.route := by rw [hxroute, hyroute, hroute]
    have htarget : x.2.key = y.2.key := Prod.ext hrow hposition
    exact Prod.ext (by rw [hxa, hyb, hroute]) (Table.eq_of_key hxt hyt htarget)

/-- **What is read is the map**: the rules of the routes, in order. -/
theorem Holds.readRoutes_eq {map : RouteMap} (h : db.Holds map) :
    db.readRoutes = .ok (db.sortedRoutes.filterMap fun r => map r.key) := by
  have hperm : db.sortedRoutes.Perm db.routes.rows := List.perm_insertionSort _ _
  rw [readRoutes, h.orderBy_joined]
  refine gather_blocks ?_ ?_ (fun _ _ hnone => by cases hnone) []
  · intro r hr
    exact h.stands r (hperm.mem_iff.mp hr)
  · exact (hperm.map _).nodup_iff.mpr db.routes.rowUnique

theorem Holds.rules_read {map : RouteMap} (h : db.Holds map) :
    ∃ rules, db.readRoutes = .ok rules ∧ (rules.map RouteRule.key).Nodup ∧
      ∀ rule, rule ∈ rules ↔ map rule.key = some rule := by
  have hperm : db.sortedRoutes.Perm db.routes.rows := List.perm_insertionSort _ _
  refine ⟨_, h.readRoutes_eq, ?_, ?_⟩
  · have hkeys : ((db.sortedRoutes.filterMap fun r => map r.key).map RouteRule.key)
        = db.sortedRoutes.map RouteRow.key := by
      rw [List.map_filterMap, ← List.filterMap_eq_map]
      refine List.filterMap_congr ?_
      intro r hr
      obtain ⟨rule, hrule, hstands⟩ := h.stands r (hperm.mem_iff.mp hr)
      show (map r.key).map RouteRule.key = some r.key
      rw [hrule, hstands.key]
      rfl
    rw [hkeys]
    exact (hperm.map _).nodup_iff.mpr db.routes.unique
  · intro rule
    rw [List.mem_filterMap]
    constructor
    · intro ⟨r, hr, hrule⟩
      rw [h.key_eq hrule]
      exact hrule
    · intro hrule
      obtain ⟨r, hr, hkey⟩ := h.has _ rule hrule
      exact ⟨r, hperm.mem_iff.mpr hr, by rw [hkey, hrule]⟩

theorem holds_none (h : db.routes.rows = []) : db.Holds fun _ => none := by
  constructor
  · intro r hr
    rw [h] at hr
    cases hr
  · intro key rule hrule
    cases hrule

end Database

/-- **The route store is a map from key to rule**: after any sequence of calls there is exactly one rule
under each key whose last call was a put, the rule that was put, and none under any other, whether all the
rules are read or the one of a key. -/
theorem routes_are_the_last_put {db : Database} (hempty : db.routes.rows = []) {calls : List RouteCall}
    (hunused : db.AllUnused calls) :
    (∃ rules, (db.calls calls).readRoutes = .ok rules ∧ (rules.map RouteRule.key).Nodup ∧
      ∀ rule, rule ∈ rules ↔ lastPut calls rule.key = some rule) ∧
    ∀ key, (db.calls calls).route key = .ok (lastPut calls key) := by
  have hholds := (Database.holds_none hempty).calls hunused
  rw [foldl_apply] at hholds
  exact ⟨hholds.rules_read, hholds.route_eq⟩

/-- The deeper rule with two endpoints behind it, the second of which takes twice as much. -/
def sharedRule : RouteRule :=
  { Gateway.deeperRule with
    target := ⟨[⟨Gateway.listener, ⟨1⟩⟩, ⟨Gateway.slashedRule.key.endpoint, ⟨2⟩⟩], List.cons_ne_nil _ _⟩
    strategy := .ratio }

/-- Two rules are put, one of them again, and the other is removed. -/
def fourCalls : List RouteCall :=
  [.put firstRow Gateway.slashedRule, .put ⟨⟨2, Nat.two_pos⟩, .epoch, .epoch⟩ Gateway.deeperRule,
    .put firstRow sharedRule, .remove Gateway.slashedRule.key]

theorem allUnused_fourCalls : Database.empty.AllUnused fourCalls := by decide +kernel

theorem routes_are_the_last_put_of_four :
    (Database.empty.calls fourCalls).route sharedRule.key = .ok (some sharedRule) ∧
      (Database.empty.calls fourCalls).route Gateway.slashedRule.key = .ok none ∧
      ∃ rules, (Database.empty.calls fourCalls).readRoutes = .ok rules ∧ sharedRule ∈ rules ∧
        Gateway.deeperRule ∉ rules := by
  have hput : lastPut fourCalls sharedRule.key = some sharedRule := by decide
  have hremoved : lastPut fourCalls Gateway.slashedRule.key = none := by decide
  have hreplaced : lastPut fourCalls Gateway.deeperRule.key ≠ some Gateway.deeperRule := by decide
  obtain ⟨⟨rules, hread, -, hmem⟩, hroute⟩ := routes_are_the_last_put rfl allUnused_fourCalls
  exact ⟨(hroute _).trans (congrArg Except.ok hput), (hroute _).trans (congrArg Except.ok hremoved), rules,
    hread, (hmem _).mpr hput, fun hold => hreplaced ((hmem _).mp hold)⟩

end IntelliPrism.Rules
