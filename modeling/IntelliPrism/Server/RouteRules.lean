import IntelliPrism.Gateway.Table
import IntelliPrism.Manage.Handlers
import IntelliPrism.Rules.Routes

/-!
# The routing rules over the management api

What is stored here is read back by every start, and a rule the table would not take would keep the server
from starting.

* `put`, `remove` — the endpoints;
* `RouteRequest`, `history` — calls in any order, each under whatever configuration the server had then;
* `stored_rules_never_keep_a_start` — **no sequence of calls leaves a rule that keeps a table from being
  built**, under whatever configuration the server is started next.
-/

namespace IntelliPrism.Server.Route

open IntelliPrism.Core IntelliPrism.Lib IntelliPrism.Rules
open IntelliPrism.Gateway (RoutingTable addStored find?_addStored)
open IntelliPrism.Manage (Reply Status storeRefusal)
open IntelliPrism.Plugins (Supply)

/-! ### Endpoints -/

/-- Whether one of these rules routes the key. -/
def claims (rules : List RouteRule) (key : RouteKey) : Bool := rules.any fun rule => rule.key == key

/-- What a caller is told when the store refused a request about rules. -/
def ruleRefusal : RuleError → Reply
  | .storage error => storeRefusal error
  | .noRoute _ | .noLimit _ => .status .notFound
  | .value _ | .malformed _ => .status .internalServerError

/-- Stores a rule, replacing whatever its key routed to before.  The body is what it parses as, or what its
caller is told. -/
def put (configured : List RouteRule) (db : Database) (administrator : Bool) (x : Supply)
    (body : Except Reply RouteRule) : Database × Reply :=
  if !administrator then (db, .status .forbidden)
  else
    match body with
    | .error rejection => (db, rejection)
    | .ok rule =>
      if rule.path.isReserved then
        (db, .text .unprocessableEntity (rule.path.raw ++ " belongs to the gateway itself"))
      else if claims configured rule.key then
        (db, .text .conflict ("the configuration routes " ++ rule.key.endpoint.display ++ " already"))
      else
        match db.putRoute x rule with
        | .ok db => (db, .status .noContent)
        | .error error => (db, ruleRefusal error)

/-- Removes the stored rule under a key. -/
def remove (db : Database) (administrator : Bool) (body : Except Reply RouteKey) : Database × Reply :=
  if !administrator then (db, .status .forbidden)
  else
    match body with
    | .error rejection => (db, rejection)
    | .ok key =>
      match db.removeRoute key with
      | .ok db => (db, .status .noContent)
      | .error error => (db, ruleRefusal error)

/-! ### Calls in any order -/

/-- A call that may change the rules, from the administrator or from anyone else. -/
inductive RouteRequest where
  | put (administrator : Bool) (x : Supply) (body : Except Reply RouteRule)
  | remove (administrator : Bool) (body : Except Reply RouteKey)

def RouteRequest.serve (configured : List RouteRule) (db : Database) : RouteRequest → Database × Reply
  | .put administrator x body => Route.put configured db administrator x body
  | .remove administrator body => Route.remove db administrator body

/-- What calls leave, each under the configuration the server had then. -/
def history (db : Database) : List (List RouteRule × RouteRequest) → Database
  | [] => db
  | (configured, request) :: rest => history (request.serve configured db).1 rest

/-- The database holds rules, none of them on a path of the server's own. -/
def HoldsOpen (db : Database) : Prop :=
  ∃ map, db.Holds map ∧ ∀ key rule, map key = some rule → rule.path.isReserved = false

theorem unused_of_putRoute {db db' : Database} {x : Supply} {rule : RouteRule}
    (h : db.putRoute x rule = .ok db') : db.Unused x rule := by
  intro hnone htaken
  obtain ⟨⟨db₁, row⟩, hupsert, -⟩ := ok_of_bind h
  rw [Database.upsertRoute] at hupsert
  split at hupsert
  · rename_i hfound
    rw [hnone] at hfound
    cases hfound
  · split at hupsert
    · cases hupsert
    · rename_i routes hadd
      rw [RowTable.add_eq_none.mpr (.inr htaken)] at hadd
      cases hadd

theorem HoldsOpen.apply {db db' : Database} (h : HoldsOpen db) (call : RouteCall)
    (hcall : ∀ map, db.Holds map → db'.Holds (call.apply map))
    (hopen : ∀ rule, call.rule = some rule → rule.path.isReserved = false) : HoldsOpen db' := by
  obtain ⟨map, hholds, hnone⟩ := h
  refine ⟨_, hcall map hholds, fun key rule hrule => ?_⟩
  rw [RouteCall.apply] at hrule
  split at hrule
  · exact hopen rule hrule
  · exact hnone key rule hrule

/-- A put does nothing, or stores a rule on a path that is not reserved. -/
theorem HoldsOpen.put {db : Database} (h : HoldsOpen db) (configured : List RouteRule) (administrator : Bool)
    (x : Supply) (body : Except Reply RouteRule) :
    HoldsOpen (Route.put configured db administrator x body).1 := by
  unfold Route.put
  split
  · exact h
  split
  · exact h
  rename_i rule
  split
  · exact h
  rename_i hopen
  split
  · exact h
  split
  · rename_i db' hput
    refine h.apply (.put x rule) (fun map hholds => ?_) fun _ hrule => ?_
    · have hcall := hholds.put (unused_of_putRoute hput)
      rwa [Database.call, hput] at hcall
    · cases hrule
      exact Bool.eq_false_iff.mpr hopen
  · exact h

theorem HoldsOpen.remove {db : Database} (h : HoldsOpen db) (administrator : Bool)
    (body : Except Reply RouteKey) : HoldsOpen (Route.remove db administrator body).1 := by
  unfold Route.remove
  split
  · exact h
  split
  · exact h
  rename_i key
  split
  · rename_i db' hremove
    refine h.apply (.remove key) (fun map hholds => ?_) fun _ hrule => by cases hrule
    have hcall := hholds.remove key
    rwa [Database.call, hremove] at hcall
  · exact h

theorem HoldsOpen.serve {db : Database} (h : HoldsOpen db) (configured : List RouteRule)
    (request : RouteRequest) : HoldsOpen (request.serve configured db).1 := by
  cases request with
  | put administrator x body => exact h.put configured administrator x body
  | remove administrator body => exact h.remove administrator body

theorem HoldsOpen.history {db : Database} (h : HoldsOpen db)
    (calls : List (List RouteRule × RouteRequest)) : HoldsOpen (Route.history db calls) := by
  induction calls generalizing db with
  | nil => exact h
  | cons call rest ih => exact ih (h.serve call.1 call.2)

theorem assemble_open (configured : List RouteRule) {stored : List RouteRule}
    (hopen : ∀ rule ∈ stored, rule.path.isReserved = false) :
    (RoutingTable.assemble configured stored).isOk = (RoutingTable.assemble configured []).isOk := by
  have hnone : stored.find? (fun rule => rule.path.isReserved) = none :=
    List.find?_eq_none.mpr fun rule hrule => by rw [hopen rule hrule]; exact Bool.false_ne_true
  have hsame := @find?_addStored (fun rule => rule.path.isReserved)
    (fun a b hkey => by rw [RouteRule.path, RouteRule.path, hkey]) configured stored
  rw [List.find?_append, hnone, Option.or_none] at hsame
  rw [RoutingTable.assemble, RoutingTable.assemble, addStored]
  simp only [hsame]
  cases configured.find? fun rule => rule.path.isReserved <;> rfl

/-- **No sequence of calls leaves a rule that keeps a table from being built**, whoever calls and whatever
the configuration was at each call: under the configuration of the day, whatever it is, the stored rules are
read back, and a table is built of both whenever one is built of the configured rules alone. -/
theorem stored_rules_never_keep_a_start (calls : List (List RouteRule × RouteRequest))
    (configured : List RouteRule) :
    ∃ stored, (history .empty calls).readRoutes = .ok stored ∧
      (RoutingTable.assemble configured stored).isOk = (RoutingTable.assemble configured []).isOk := by
  have hempty : HoldsOpen .empty := ⟨_, Database.holds_none rfl, fun _ _ hnone => by cases hnone⟩
  obtain ⟨map, hholds, hopen⟩ := hempty.history calls
  obtain ⟨stored, hread, -, hmem⟩ := hholds.rules_read
  refine ⟨stored, hread, assemble_open configured ?_⟩
  intro rule hrule
  exact hopen rule.key rule ((hmem rule).mp hrule)

end IntelliPrism.Server.Route
