import IntelliPrism.Gateway.Flow

/-!
# What a cached answer is an answer to

The response cache is asked with a key that hashes three parts: the key the request would be looked up by
after its header plugins ran, the tenant and the processed body.  A hit answers whoever asks with that key.

* `Named` — a request that was taken in under a table and named in the response cache;
* `SameQuestion` — two of them ask the same: one tenant, one rule with one unmatched path, and one method,
  query and body sent on;
* `ArriveAlike` — no header plugin gives one of two requests the authority of the other;
* `Named.asking` — **the same request with another method and query has the same name**;
* `responseKey_same_question` — **when a hit answers the same question**: the key says nothing of the
  method and the query, nor of the host the request arrived at when a plugin named another.
-/

namespace IntelliPrism.Gateway

open IntelliPrism.Core IntelliPrism.Lib IntelliPrism.Cache

variable {sha256 : Bytes → Bytes} {table : RoutingTable}

/-- A request taken in under a table by some chains, and named in the response cache. -/
structure Named (sha256 : Bytes → Bytes) (table : RoutingTable) where
  context : RequestContext
  request : HttpRequest
  headerChain : List HeaderProcessor
  bodyChain : List BodyProcessor
  flow : Flow .bodyProcessed
  route : RouteKey
  body : Bytes
  key : CacheKey
  keyed : Flow .bodyProcessed
  taken : Flow.takenIn context request table headerChain bodyChain = .ok flow
  routed : keyOf flow.context flow.held.request = .ok route
  read : flow.held.request.body.collect = .ok body
  named : flow.responseKey sha256 = .ok (key, keyed)

namespace Named

/-- The tenant the request was made inside. -/
def tenant (asked : Named sha256 table) : TenantId := asked.context.authority.identity.tenant

/-- The rule the request was authorized against. -/
def rule (asked : Named sha256 table) : RouteRule := asked.flow.held.resolution.rule

/-- The part of the request path that rule did not claim. -/
def unmatched (asked : Named sha256 table) : Option (List Char) :=
  remainderOf asked.rule.path.chars asked.request.uri.path.toList

/-- What is hashed to name the request. -/
def hashed (asked : Named sha256 table) : Bytes := keyedBytes asked.route asked.tenant asked.body

theorem key_eq (asked : Named sha256 table) :
    Gateway.responseKey sha256 asked.route asked.tenant asked.body = .ok asked.key := by
  obtain ⟨route, body, hroute, hbody, hkey, -⟩ := responseKey_ok asked.named
  have hr : route = asked.route := Except.ok.inj (hroute.symm.trans asked.routed)
  have hb : body = asked.body := Except.ok.inj (hbody.symm.trans asked.read)
  rw [hr, hb, (takenIn_ok asked.taken).1] at hkey
  exact hkey

/-- What would be sent on has the method and the query the request came with, and the processed body. -/
theorem keyed_request (asked : Named sha256 table) :
    asked.keyed.held.request.method = asked.request.method ∧
      asked.keyed.held.request.uri.query = asked.request.uri.query ∧
      asked.keyed.held.request.body = .fromBytes asked.body := by
  obtain ⟨route, body, -, hbody, -, hkeyed⟩ := responseKey_ok asked.named
  obtain ⟨-, hmethod, huri, -⟩ := takenIn_ok asked.taken
  have hb : body = asked.body := Except.ok.inj (hbody.symm.trans asked.read)
  rw [hkeyed]
  refine ⟨hmethod, ?_, ?_⟩
  · show asked.flow.held.request.uri.query = asked.request.uri.query
    rw [huri]
  · show Body.fromBytes body = .fromBytes asked.body
    rw [hb]

end Named

/-- The key a request is named by carries the path it came with: no plugin changes a uri. -/
theorem Named.path_route (asked : Named sha256 table) :
    asked.route.endpoint.path.raw = asked.request.uri.path := by
  have hpath := path_of_keyOf asked.routed
  rw [(takenIn_ok asked.taken).2.2.1] at hpath
  exact hpath

def SameQuestion (a b : Named sha256 table) : Prop :=
  a.tenant = b.tenant ∧ a.rule = b.rule ∧ a.unmatched = b.unmatched ∧
    a.keyed.held.request.method = b.keyed.held.request.method ∧
    a.keyed.held.request.uri.query = b.keyed.held.request.uri.query ∧
    a.keyed.held.request.body = b.keyed.held.request.body

/-! ### Where a request arrived -/

/-- The header plugins leave the authority the request arrived for. -/
def Named.LeavesAuthority (asked : Named sha256 table) : Prop :=
  ∀ headers, runHeaders .headerProcess asked.headerChain asked.request.headers = .ok headers →
    authorityOf { asked.request with headers } asked.context.listen
      = authorityOf asked.request asked.context.listen

/-- No header plugin gives one of two requests the authority of the other: both leave theirs, or the two
arrived for one. -/
def ArriveAlike (a b : Named sha256 table) : Prop :=
  a.LeavesAuthority ∧ b.LeavesAuthority ∨
    a.context.protocol = b.context.protocol ∧ a.context.listen = b.context.listen ∧
      authorityOf a.request a.context.listen = authorityOf b.request b.context.listen

/-- Where the authority is left alone, a request is named by the key it was authorized by. -/
theorem Named.LeavesAuthority.keyOf {asked : Named sha256 table} (h : asked.LeavesAuthority) :
    keyOf asked.context asked.request = .ok asked.route := by
  obtain ⟨headers, hheaders, hhost⟩ := host_of_takenIn asked.taken
  obtain ⟨hcontext, -, huri, -⟩ := takenIn_ok asked.taken
  have hauthority : authorityOf asked.flow.held.request asked.context.listen
      = authorityOf asked.request asked.context.listen := by
    rw [← h headers hheaders, authorityOf, authorityOf, huri, hhost]
  have hrouted := asked.routed
  rw [hcontext, Gateway.keyOf, hauthority, huri] at hrouted
  exact hrouted

/-- **Requests that arrive alike and are named by one key were authorized against one rule.** -/
theorem rule_eq_of_route {a b : Named sha256 table} (h : ArriveAlike a b) (hroute : a.route = b.route) :
    a.rule = b.rule := by
  obtain ⟨-, -, -, key, hkey, hresolved, -⟩ := takenIn_ok a.taken
  obtain ⟨-, -, -, key', hkey', hresolved', -⟩ := takenIn_ok b.taken
  have hsame : keyOf a.context a.request = keyOf b.context b.request := by
    rcases h with ⟨ha, hb⟩ | ⟨hprotocol, hlisten, hauthority⟩
    · rw [ha.keyOf, hb.keyOf, hroute]
    · have hpath : a.request.uri.path = b.request.uri.path := by
        rw [← a.path_route, ← b.path_route, hroute]
      rw [keyOf, keyOf, hprotocol, hauthority, hlisten, hpath]
  rw [hkey, hkey', Except.ok.injEq] at hsame
  rw [hsame, hresolved', Option.some.injEq] at hresolved
  rw [Named.rule, Named.rule, hresolved]

/-- Equal keys, by digests that do not collide: one tenant, one key looked up after the header plugins ran,
and one processed body. -/
theorem parts_of_key {a b : Named sha256 table}
    (hsha : sha256 a.hashed = sha256 b.hashed → a.hashed = b.hashed) (hkeys : a.key = b.key) :
    a.route = b.route ∧ a.tenant = b.tenant ∧ a.body = b.body := by
  have hb := b.key_eq
  rw [← hkeys] at hb
  exact keyedBytes_injective (hsha (keyedBytes_of_responseKey a.key_eq hb))

/-! ### Another method, another query -/

/-- The request with another method and another query. -/
def HttpRequest.asking (request : HttpRequest) (method : String) (query : Option String) : HttpRequest :=
  { request with method, uri := { request.uri with query } }

def Flow.asking (flow : Flow .bodyProcessed) (method : String) (query : Option String) :
    Flow .bodyProcessed :=
  ⟨flow.context, { flow.held with request := flow.held.request.asking method query }⟩

/-- **Nothing up to the upstream reads the method or the query.** -/
theorem takenIn_asking {context : RequestContext} {request : HttpRequest}
    {headerChain : List HeaderProcessor} {bodyChain : List BodyProcessor} {flow : Flow .bodyProcessed}
    (h : Flow.takenIn context request table headerChain bodyChain = .ok flow) (method : String)
    (query : Option String) :
    Flow.takenIn context (request.asking method query) table headerChain bodyChain
      = .ok (flow.asking method query) := by
  obtain ⟨authorized, hauthorized, h⟩ := ok_of_bind h
  obtain ⟨processed, hprocessed, h⟩ := ok_of_bind h
  obtain ⟨key, hkey, hauthorized⟩ := ok_of_bind hauthorized
  obtain ⟨resolution, hresolution, hauthorized⟩ := ok_of_bind hauthorized
  obtain ⟨⟨⟩, hallow, hauthorized⟩ := ok_of_bind hauthorized
  cases hauthorized
  obtain ⟨headers, hheaders, hprocessed⟩ := ok_of_bind hprocessed
  cases hprocessed
  obtain ⟨body, hbody, h⟩ := ok_of_bind h
  have hasked : keyOf context (request.asking method query) = .ok key := hkey
  rw [Flow.takenIn, authorize_eq hasked hresolution hallow]
  show (Flow.processHeaders ⟨context, ⟨request.asking method query, resolution⟩⟩ headerChain >>= _) = _
  have hprocess : Flow.processHeaders ⟨context, ⟨request.asking method query, resolution⟩⟩ headerChain
      = .ok ⟨context, ⟨{ request.asking method query with headers }, resolution⟩⟩ := by
    rw [Flow.processHeaders]
    show (runHeaders .headerProcess headerChain request.headers >>= _) = _
    rw [hheaders]
    rfl
  rw [hprocess]
  show (runBody .bodyProcess bodyChain request.body >>= _) = _
  rw [hbody]
  cases body with
  | none =>
    cases h
    rfl
  | some bytes =>
    cases h
    rfl

/-- **The name of a request is the name of every request that differs from it in method and query.** -/
def Named.asking (asked : Named sha256 table) (method : String) (query : Option String) :
    Named sha256 table where
  context := asked.context
  request := asked.request.asking method query
  headerChain := asked.headerChain
  bodyChain := asked.bodyChain
  flow := asked.flow.asking method query
  route := asked.route
  body := asked.body
  key := asked.key
  keyed := _
  taken := takenIn_asking asked.taken method query
  routed := asked.routed
  read := asked.read
  named := responseKey_eq asked.routed asked.read <| by
    have hkey := asked.key_eq
    rw [Named.tenant, ← (takenIn_ok asked.taken).1] at hkey
    exact hkey

/-- A request asks what another with its own method and query does, and nothing else. -/
theorem sameQuestion_asking (asked : Named sha256 table) (method : String) (query : Option String) :
    SameQuestion asked (asked.asking method query) ↔
      asked.request.method = method ∧ asked.request.uri.query = query := by
  obtain ⟨hmethod, hquery, hbody⟩ := asked.keyed_request
  obtain ⟨hmethod', hquery', hbody'⟩ := (asked.asking method query).keyed_request
  rw [SameQuestion, hmethod, hmethod', hquery, hquery', hbody, hbody']
  constructor
  · rintro ⟨-, -, -, hmethods, hqueries, -⟩
    exact ⟨hmethods, hqueries⟩
  · rintro ⟨hmethods, hqueries⟩
    exact ⟨rfl, rfl, rfl, hmethods, hqueries, rfl⟩

/-- **When a hit answers the same question.**  With digests that do not collide, requests of one method and
one query that arrive alike ask the same whenever their keys are equal.  Of method and query neither can be
left out, for any table and any request it names: the request with another method or query has the same key
and asks something else, so that no table that names a request gives its answers to one question alone. -/
theorem responseKey_same_question (a b : Named sha256 table)
    (hsha : sha256 a.hashed = sha256 b.hashed → a.hashed = b.hashed) :
    (a.request.method = b.request.method → a.request.uri.query = b.request.uri.query →
        ArriveAlike a b → a.key = b.key → SameQuestion a b) ∧
      (∀ method query, (a.asking method query).key = a.key ∧
        (SameQuestion a (a.asking method query) ↔
          a.request.method = method ∧ a.request.uri.query = query)) ∧
      ∃ other : Named sha256 table, other.key = a.key ∧ ¬ SameQuestion a other := by
  refine ⟨?_, fun method query => ⟨rfl, sameQuestion_asking a method query⟩, ?_⟩
  · intro hmethods hqueries halike hkeys
    obtain ⟨hmethod, hquery, hbody⟩ := a.keyed_request
    obtain ⟨hmethod', hquery', hbody'⟩ := b.keyed_request
    obtain ⟨hroute, htenant, hbodies⟩ := parts_of_key hsha hkeys
    have hrule := rule_eq_of_route halike hroute
    refine ⟨htenant, hrule, ?_, ?_, ?_, ?_⟩
    · rw [Named.unmatched, Named.unmatched, hrule, ← a.path_route, ← b.path_route, hroute]
    · rw [hmethod, hmethod', hmethods]
    · rw [hquery, hquery', hqueries]
    · rw [hbody, hbody', hbodies]
  · -- a query the request did not come with
    obtain ⟨query, hne⟩ := exists_ne a.request.uri.query
    refine ⟨a.asking a.request.method query, rfl, ?_⟩
    rw [sameQuestion_asking]
    exact fun hsame => hne hsame.2.symm

/-! ### Requests of the examples -/

/-- SHA-256 at the one input the examples hash. -/
def messagesDigest (bytes : Bytes) : Bytes :=
  if bytes = keyedBytes messagesKey grantedContext.authority.identity.tenant [] then
    [208, 96, 5, 146, 236, 55, 71, 149, 127, 67, 224, 94, 248, 168, 210, 247, 99, 28, 27, 107, 82, 164,
      246, 121, 158, 66, 160, 126, 183, 187, 229, 180]
  else []

/-- The name the examples' requests have. -/
def messagesName : Except CacheError CacheKey :=
  responseKey messagesDigest messagesKey grantedContext.authority.identity.tenant []

theorem messagesName_isSome : messagesName.toOption.isSome = true := by decide +kernel

/-- A request of the examples that passes through is named by the path and the tenant alone. -/
theorem exists_named (request : HttpRequest) (chains : ProcessorChain)
    (h : (Flow.takenIn grantedContext request (.fromRules [configuredRule]) chains.requestHeaders
      chains.requestBody).toOption.any (fun flow =>
        (keyOf flow.context flow.held.request).toOption = some messagesKey ∧
          flow.held.request.body.collect.toOption = some []) = true) :
    ∃ asked : Named messagesDigest (.fromRules [configuredRule]),
      asked.context = grantedContext ∧ asked.request = request ∧
        asked.headerChain = chains.requestHeaders ∧ messagesName.toOption = some asked.key := by
  obtain ⟨key, hkey⟩ := Option.isSome_iff_exists.mp messagesName_isSome
  obtain ⟨flow, hflow, hnames⟩ := (Option.any_eq_true _ _).mp h
  obtain ⟨hroute, hbody⟩ := of_decide_eq_true hnames
  have htaken := ok_of_toOption hflow
  have hname : Gateway.responseKey messagesDigest messagesKey flow.context.authority.identity.tenant []
      = .ok key := by
    rw [(takenIn_ok htaken).1]
    exact ok_of_toOption hkey
  exact ⟨⟨grantedContext, request, chains.requestHeaders, chains.requestBody, flow, messagesKey, [], key,
    _, htaken, ok_of_toOption hroute, ok_of_toOption hbody,
    responseKey_eq (ok_of_toOption hroute) (ok_of_toOption hbody) hname⟩, rfl, rfl, rfl, hkey⟩

theorem exists_named_beta : ∃ asked : Named messagesDigest (.fromRules [configuredRule]),
    asked.context = grantedContext ∧ asked.request = messagesRequest "POST" "beta=1" ∧
      asked.headerChain = noChains.requestHeaders ∧ messagesName.toOption = some asked.key :=
  exists_named (messagesRequest "POST" "beta=1") noChains (by decide +kernel)

theorem hashed_eq (asked : Named messagesDigest table) :
    asked.hashed = keyedBytes messagesKey grantedContext.authority.identity.tenant [] := by
  by_contra hother
  have hempty : messagesDigest asked.hashed = [] := if_neg hother
  have hkey := asked.key_eq
  rw [Gateway.responseKey] at hkey
  rw [Named.hashed] at hempty
  rw [hempty] at hkey
  cases hkey

/-- **A hit may answer another question**: two requests that differ in their query have one key. -/
theorem query_is_not_in_the_key :
    ∃ a b : Named messagesDigest (.fromRules [configuredRule]),
      a.request = messagesRequest "POST" "beta=1" ∧ b.request = messagesRequest "POST" "beta=2" ∧
        a.key = b.key ∧ ¬ SameQuestion a b := by
  obtain ⟨a, -, ha, -, hakey⟩ := exists_named_beta
  obtain ⟨b, -, hb, -, hbkey⟩ := exists_named (messagesRequest "POST" "beta=2") noChains
    (by decide +kernel)
  refine ⟨a, b, ha, hb, Option.some.inj (hakey.symm.trans hbkey), ?_⟩
  intro hsame
  have hquery := hsame.2.2.2.2.1
  rw [a.keyed_request.2.1, b.keyed_request.2.1, ha, hb] at hquery
  exact absurd hquery (by decide)

/-- Chains whose header plugin lists `te` as a header of the connection. -/
def harmlessChains : ProcessorChain :=
  { noChains with
    requestHeaders := [fun headers =>
      match HeaderValue.fromText "te" with
      | some listed => .ok (headers.insert .connection listed)
      | none => .error (.failed "not a header")] }

/-- One request taken in twice, by other plugins, asks the same and has one key. -/
theorem repeated_request_same_question :
    ∃ a b : Named messagesDigest (.fromRules [configuredRule]),
      a.headerChain = noChains.requestHeaders ∧ b.headerChain = harmlessChains.requestHeaders ∧
        a.key = b.key ∧ SameQuestion a b := by
  obtain ⟨a, hac, ha, hachain, hakey⟩ := exists_named_beta
  obtain ⟨b, hbc, hb, hbchain, hbkey⟩ := exists_named (messagesRequest "POST" "beta=1") harmlessChains
    (by decide +kernel)
  have hkeys : a.key = b.key := Option.some.inj (hakey.symm.trans hbkey)
  have hrequest : a.request = b.request := by rw [ha, hb]
  refine ⟨a, b, hachain, hbchain, hkeys, (responseKey_same_question a b ?_).1 ?_ ?_ (.inr ?_) hkeys⟩
  · intro _
    rw [hashed_eq a, hashed_eq b]
  · rw [hrequest]
  · rw [hrequest]
  · rw [hac, hbc, hrequest]
    exact ⟨rfl, rfl, rfl⟩

end IntelliPrism.Gateway
