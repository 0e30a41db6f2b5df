import IntelliPrism.Gateway.ResponseCache
import IntelliPrism.Gateway.Sse
import IntelliPrism.Gateway.Table

/-!
# One request, stage by stage

The typestate machine a request moves through: each transition takes a flow at one stage and gives one at
the next, so a plugin runs only on what was routed and authorized.

* `Flow.authorize`, `Flow.processHeaders`, `Flow.processBody`, `Flow.responseKey`, `Flow.forward`,
  `Flow.processResponseHeaders`, `Flow.processResponseBody` — the transitions of the source;
* `Flow.takenIn` — the stages before the upstream, one after the other;
* `authorize_ok`, `takenIn_ok` — **what a flow that got through is made of**: plugins change headers and
  body, and nothing else;
* `Resolution.choose_mem` — a dispatcher always chooses, among the rule's own endpoints;
* `plugins_cannot_steer` — where a request goes does not depend on the plugins it ran.
-/

namespace IntelliPrism.Gateway

open IntelliPrism.Core IntelliPrism.Lib IntelliPrism.Cache

/-! ### Stages -/

/-- What the dataflow needs about a request beyond the request itself. -/
structure RequestContext where
  authority : Core.Authority
  protocol : Protocol
  listen : SocketAddr

/-- A request and the rule that carries it. -/
structure Routed where
  request : HttpRequest
  resolution : Resolution

/-- What an upstream answered, and which endpoint gave it. -/
structure Answered where
  response : HttpResponse
  served : Replica

/-- The stages a flow can have reached. -/
inductive FlowStage where
  | received
  | authorized
  | headersProcessed
  | bodyProcessed
  | forwarded
  | responseHeadersProcessed
  | responseBodyProcessed
  deriving Repr, DecidableEq

abbrev FlowStage.Held : FlowStage → Type
  | .received => HttpRequest
  | .authorized | .headersProcessed | .bodyProcessed => Routed
  | .forwarded | .responseHeadersProcessed | .responseBodyProcessed => Answered

/-- A request part way through the dataflow, with the stage it reached in its type. -/
structure Flow (stage : FlowStage) where
  context : RequestContext
  held : stage.Held

abbrev HeaderProcessor := HeaderMap → Except ProcessorError HeaderMap

/-- The plugin chains of one flow, one per point the dataflow can act at. -/
structure ProcessorChain where
  requestHeaders : List HeaderProcessor
  requestBody : List BodyProcessor
  responseHeaders : List HeaderProcessor
  responseBody : List BodyProcessor
  responseChunk : List BodyProcessor

/-! ### Routing and authorization -/

/-- The key a request is looked up by, as it stands. -/
def keyOf (context : RequestContext) (request : HttpRequest) : Except GatewayError RouteKey :=
  (requestKey context.protocol (authorityOf request context.listen) context.listen
    request.uri.path).mapError fun error => ⟨.headerRead, .value error⟩

/-- The rule that carries the key, when this build carries what it sends to. -/
def resolveKey (table : RoutingTable) (key : RouteKey) : Except GatewayError Resolution :=
  match table.resolve key with
  | none => .error ⟨.authorization, .noRoute key⟩
  | some resolution =>
    match resolution.targets.find? fun target => !target.endpoint.protocol.isForwarded with
    | some target => .error ⟨.authorization, .protocolNotServed target.endpoint.protocol⟩
    | none => .ok resolution

/-- The scope a caller uses an api at. -/
def apiScope (context : RequestContext) (resolution : Resolution) : CapabilityScope :=
  .api context.authority.identity.user context.authority.identity.tenant resolution.rule.api

/-- Checks the caller may use the api a rule names. -/
def allow (context : RequestContext) (resolution : Resolution) : Except GatewayError Unit :=
  if context.authority.allows .apiAccess (apiScope context resolution) then .ok ()
  else .error ⟨.authorization, .forbidden .apiAccess⟩

/-- Resolves the route and checks the caller may use it, before any plugin runs. -/
def Flow.authorize (flow : Flow .received) (table : RoutingTable) :
    Except GatewayError (Flow .authorized) := do
  let key ← keyOf flow.context flow.held
  let resolution ← resolveKey table key
  allow flow.context resolution
  return ⟨flow.context, ⟨flow.held, resolution⟩⟩

/-! ### Plugins -/

/-- Runs a header chain in order, reporting a refusal as the stage it happened in. -/
def runHeaders (stage : StageName) :
    List HeaderProcessor → HeaderMap → Except GatewayError HeaderMap
  | [], headers => .ok headers
  | processor :: chain, headers =>
    match processor headers with
    | .error error => .error ⟨stage, .processor error⟩
    | .ok headers => runHeaders stage chain headers

/-- Reads a whole body, reporting a stream that failed part way as the stage that read it. -/
def collectBody (stage : StageName) (body : Body) : Except GatewayError Bytes :=
  body.collect.mapError fun error => ⟨stage, .malformed error.display⟩

/-- The stage a body is read in for a chain that runs in this one. -/
def readStage : StageName → StageName
  | .bodyProcess => .bodyRead
  | _ => .responseBodyRead

/-- Runs a body chain, or hands back nothing when the body may pass through untouched. -/
def runBody (stage : StageName) (chain : List BodyProcessor) (body : Body) :
    Except GatewayError (Option Bytes) :=
  if chain.isEmpty then .ok none
  else do
    let bytes ← collectBody (readStage stage) body
    let bytes ← (runChain chain bytes).mapError fun error => ⟨stage, .processor error⟩
    return some bytes

def Flow.processHeaders (flow : Flow .authorized) (chain : List HeaderProcessor) :
    Except GatewayError (Flow .headersProcessed) := do
  let headers ← runHeaders .headerProcess chain flow.held.request.headers
  return ⟨flow.context, { flow.held with request := { flow.held.request with headers } }⟩

/-- Runs the request body chain, or leaves the body untouched when there is none. -/
def Flow.processBody (flow : Flow .headersProcessed) (chain : List BodyProcessor) :
    Except GatewayError (Flow .bodyProcessed) := do
  match ← runBody .bodyProcess chain flow.held.request.body with
  | none => return ⟨flow.context, flow.held⟩
  | some bytes =>
    let request : HttpRequest :=
      { flow.held.request with
        headers := setLength flow.held.request.headers bytes.length
        body := .fromBytes bytes }
    return ⟨flow.context, { flow.held with request }⟩

/-- The stages before the upstream, one after the other. -/
def Flow.takenIn (context : RequestContext) (request : HttpRequest) (table : RoutingTable)
    (headerChain : List HeaderProcessor) (bodyChain : List BodyProcessor) :
    Except GatewayError (Flow .bodyProcessed) := do
  let authorized ← Flow.authorize ⟨context, request⟩ table
  let processed ← authorized.processHeaders headerChain
  processed.processBody bodyChain

/-! ### The response cache, and the upstream -/

/-- Names this request in the response cache, buffering the body it is keyed by. -/
def Flow.responseKey (sha256 : Bytes → Bytes) (flow : Flow .bodyProcessed) :
    Except GatewayError (CacheKey × Flow .bodyProcessed) := do
  let route ← keyOf flow.context flow.held.request
  let bytes ← collectBody .bodyRead flow.held.request.body
  let key ← (Gateway.responseKey sha256 route flow.context.authority.identity.tenant bytes).mapError
    fun error => ⟨.bodyProcess, .cache error⟩
  let request : HttpRequest := { flow.held.request with body := .fromBytes bytes }
  return (key, ⟨flow.context, { flow.held with request }⟩)

/-- The flow as it goes to the upstream: buffered on the way when there is a response cache to ask. -/
def Flow.keyed (responses : Option (Bytes → Bytes)) (flow : Flow .bodyProcessed) :
    Except GatewayError (Flow .bodyProcessed) :=
  match responses with
  | none => .ok flow
  | some sha256 => (flow.responseKey sha256).map Prod.snd

/-- What is counted on every plan, by the location the plan is at. -/
abbrev DispatcherState := ℕ → Plan.Counts

/-- The endpoint a dispatcher chooses. -/
def Resolution.choose (resolution : Resolution) (counts : DispatcherState) (draw : Option UInt64) :
    Option Endpoint := do
  let i ← resolution.plan.choose resolution.rule.strategy (counts resolution.location) draw
  let target ← resolution.targets[i]?
  return target.endpoint

/-- The request handed to the upstream, and the endpoint it goes to. -/
def Flow.outgoing (uris : UriRules) (counts : DispatcherState) (draw : Option UInt64)
    (flow : Flow .bodyProcessed) : Option (Except GatewayError (HttpRequest × Replica)) :=
  (flow.held.resolution.choose counts draw).map fun endpoint =>
    (rewrite uris flow.held.request endpoint).map fun request => (request, Replica.of endpoint)

/-- A request carried up to the upstream: the flow it was sent from, and the request that was sent. -/
def carried (uris : UriRules) (responses : Option (Bytes → Bytes)) (counts : DispatcherState)
    (draw : Option UInt64) (table : RoutingTable) (context : RequestContext) (request : HttpRequest)
    (chains : ProcessorChain) : Option (Except GatewayError (Flow .bodyProcessed × HttpRequest)) :=
  match Flow.takenIn context request table chains.requestHeaders chains.requestBody >>=
    Flow.keyed responses with
  | .error error => some (.error error)
  | .ok flow =>
    (flow.outgoing uris counts draw).map fun outgoing => outgoing.map fun sent => (flow, sent.1)

/-- Sends the request to the endpoint the dispatcher chose. -/
def Flow.forward (uris : UriRules) (upstream : HttpRequest → Except String HttpResponse)
    (counts : DispatcherState) (draw : Option UInt64) (flow : Flow .bodyProcessed) :
    Option (Except GatewayError (Flow .forwarded)) :=
  (flow.outgoing uris counts draw).map fun outgoing => do
    let (request, served) ← outgoing
    let response ← (upstream request).mapError fun detail => ⟨.route, .upstream detail⟩
    return ⟨flow.context, { response := { response with headers := stripHopByHop response.headers }
                            served }⟩

def Flow.processResponseHeaders (flow : Flow .forwarded) (chain : List HeaderProcessor) :
    Except GatewayError (Flow .responseHeadersProcessed) := do
  let headers ← runHeaders .responseHeaderProcess chain flow.held.response.headers
  return ⟨flow.context, { flow.held with response := { flow.held.response with headers } }⟩

/-- Runs the response body chain, or the chunk chain over a stream of events, or leaves the body as it is
when there is nothing to run. -/
def Flow.processResponseBody (flow : Flow .responseHeadersProcessed) (chains : ProcessorChain)
    (caller : Caller) : Except GatewayError (Flow .responseBodyProcessed) :=
  let response := flow.held.response
  if isEventStream response.headers && !chains.responseChunk.isEmpty then
    let streaming : HttpResponse :=
      { response with
        headers := response.headers.remove .contentLength
        body := (streamed chains.responseChunk caller response.body).sent }
    .ok ⟨flow.context, { flow.held with response := streaming }⟩
  else do
    match ← runBody .responseBodyProcess chains.responseBody response.body with
    | none => return ⟨flow.context, flow.held⟩
    | some bytes =>
      let response : HttpResponse :=
        { response with headers := setLength response.headers bytes.length, body := .fromBytes bytes }
      return ⟨flow.context, { flow.held with response }⟩

/-! ### What a flow that got through is made of -/

theorem allow_ok {context : RequestContext} {resolution : Resolution}
    (h : allow context resolution = .ok ()) :
    context.authority.allows .apiAccess (apiScope context resolution) = true := by
  rw [allow] at h
  split at h
  · assumption
  · cases h

theorem resolveKey_ok {table : RoutingTable} {key : RouteKey} {resolution : Resolution}
    (h : resolveKey table key = .ok resolution) : table.resolve key = some resolution := by
  rw [resolveKey] at h
  split at h
  · cases h
  · rename_i found hfound
    split at h
    · cases h
    · cases h
      exact hfound

/-- An authorized flow holds the request as it came and the rule its key resolved to, which the caller
is allowed to use. -/
theorem authorize_ok {flow : Flow .received} {table : RoutingTable} {authorized : Flow .authorized}
    (h : flow.authorize table = .ok authorized) :
    authorized.context = flow.context ∧ authorized.held.request = flow.held ∧
      ∃ key, keyOf flow.context flow.held = .ok key ∧
        table.resolve key = some authorized.held.resolution ∧
        flow.context.authority.allows .apiAccess
          (apiScope flow.context authorized.held.resolution) = true := by
  obtain ⟨key, hkey, h⟩ := ok_of_bind h
  obtain ⟨resolution, hresolved, h⟩ := ok_of_bind h
  obtain ⟨_, hallow, h⟩ := ok_of_bind h
  cases h
  exact ⟨rfl, rfl, key, hkey, resolveKey_ok hresolved, allow_ok hallow⟩

theorem authorize_eq {context : RequestContext} {request : HttpRequest} {table : RoutingTable}
    {key : RouteKey} {resolution : Resolution} (hkey : keyOf context request = .ok key)
    (hresolved : resolveKey table key = .ok resolution) (hallowed : allow context resolution = .ok ()) :
    Flow.authorize ⟨context, request⟩ table = .ok ⟨context, ⟨request, resolution⟩⟩ := by
  show keyOf context request >>= _ = _
  rw [hkey]
  show resolveKey table key >>= _ = _
  rw [hresolved]
  show allow context resolution >>= _ = _
  rw [hallowed]
  rfl

theorem processHeaders_ok {flow : Flow .authorized} {chain : List HeaderProcessor}
    {processed : Flow .headersProcessed} (h : flow.processHeaders chain = .ok processed) :
    processed.context = flow.context ∧ processed.held.resolution = flow.held.resolution ∧
      processed.held.request.method = flow.held.request.method ∧
      processed.held.request.uri = flow.held.request.uri := by
  obtain ⟨headers, -, h⟩ := ok_of_bind h
  cases h
  exact ⟨rfl, rfl, rfl, rfl⟩

theorem processBody_ok {flow : Flow .headersProcessed} {chain : List BodyProcessor}
    {processed : Flow .bodyProcessed} (h : flow.processBody chain = .ok processed) :
    processed.context = flow.context ∧ processed.held.resolution = flow.held.resolution ∧
      processed.held.request.method = flow.held.request.method ∧
      processed.held.request.uri = flow.held.request.uri := by
  obtain ⟨body, -, h⟩ := ok_of_bind h
  cases body with
  | none =>
    cases h
    exact ⟨rfl, rfl, rfl, rfl⟩
  | some bytes =>
    cases h
    exact ⟨rfl, rfl, rfl, rfl⟩

/-- **Plugins change headers and body, and nothing else.**  A flow that ran them holds the method and the
uri the request came with, and the rule it was authorized against before any of them ran. -/
theorem takenIn_ok {context : RequestContext} {request : HttpRequest} {table : RoutingTable}
    {headerChain : List HeaderProcessor} {bodyChain : List BodyProcessor} {flow : Flow .bodyProcessed}
    (h : Flow.takenIn context request table headerChain bodyChain = .ok flow) :
    flow.context = context ∧ flow.held.request.method = request.method ∧
      flow.held.request.uri = request.uri ∧
      ∃ key, keyOf context request = .ok key ∧ table.resolve key = some flow.held.resolution ∧
        context.authority.allows .apiAccess (apiScope context flow.held.resolution) = true := by
  obtain ⟨authorized, hauthorized, h⟩ := ok_of_bind h
  obtain ⟨processed, hprocessed, h⟩ := ok_of_bind h
  obtain ⟨hcontext, hrequest, hrouted⟩ := authorize_ok hauthorized
  obtain ⟨hcontext₁, hresolution₁, hmethod₁, huri₁⟩ := processHeaders_ok hprocessed
  obtain ⟨hcontext₂, hresolution₂, hmethod₂, huri₂⟩ := processBody_ok h
  rw [hcontext₂, hcontext₁, hcontext, hmethod₂, hmethod₁, huri₂, huri₁, hrequest, hresolution₂,
    hresolution₁]
  exact ⟨rfl, rfl, rfl, hrouted⟩

theorem path_of_keyOf {context : RequestContext} {request : HttpRequest} {key : RouteKey}
    (h : keyOf context request = .ok key) : key.endpoint.path.raw = request.uri.path := by
  obtain ⟨host, -, h⟩ := ok_of_bind (ok_of_mapError h)
  obtain ⟨port, -, h⟩ := ok_of_bind h
  obtain ⟨path, hpath, h⟩ := ok_of_bind h
  cases h
  exact AbsPath.raw_of_new hpath

/-- The `Host` header of a flow is what its header chain made of it: the length a body is given is written
under another name. -/
theorem host_of_takenIn {context : RequestContext} {request : HttpRequest} {table : RoutingTable}
    {headerChain : List HeaderProcessor} {bodyChain : List BodyProcessor} {flow : Flow .bodyProcessed}
    (h : Flow.takenIn context request table headerChain bodyChain = .ok flow) :
    ∃ headers, runHeaders .headerProcess headerChain request.headers = .ok headers ∧
      flow.held.request.headers.get .host = headers.get .host := by
  obtain ⟨authorized, hauthorized, h⟩ := ok_of_bind h
  obtain ⟨processed, hprocessed, h⟩ := ok_of_bind h
  obtain ⟨headers, hheaders, hprocessed⟩ := ok_of_bind hprocessed
  rw [(authorize_ok hauthorized).2.1] at hheaders
  cases hprocessed
  obtain ⟨body, -, h⟩ := ok_of_bind h
  refine ⟨headers, hheaders, ?_⟩
  cases body with
  | none =>
    cases h
    rfl
  | some bytes =>
    cases h
    show ((headers.insert .contentLength _).getAll .host).head? = (headers.getAll .host).head?
    rw [HeaderMap.getAll_insert, if_neg (by decide)]

/-- A key names the route looked up as the request stands, the tenant and the body, which is buffered;
nothing else of the flow changes. -/
theorem responseKey_ok {sha256 : Bytes → Bytes} {flow keyed : Flow .bodyProcessed} {key : CacheKey}
    (h : flow.responseKey sha256 = .ok (key, keyed)) :
    ∃ route body, keyOf flow.context flow.held.request = .ok route ∧
      flow.held.request.body.collect = .ok body ∧
      Gateway.responseKey sha256 route flow.context.authority.identity.tenant body = .ok key ∧
      keyed = ⟨flow.context, ⟨{ flow.held.request with body := .fromBytes body },
        flow.held.resolution⟩⟩ := by
  obtain ⟨route, hroute, h⟩ := ok_of_bind h
  obtain ⟨body, hbody, h⟩ := ok_of_bind h
  obtain ⟨named, hnamed, h⟩ := ok_of_bind h
  cases h
  exact ⟨route, body, hroute, ok_of_mapError hbody, ok_of_mapError hnamed, rfl⟩

theorem responseKey_eq {sha256 : Bytes → Bytes} {flow : Flow .bodyProcessed} {route : RouteKey}
    {body : Bytes} {key : CacheKey} (hroute : keyOf flow.context flow.held.request = .ok route)
    (hbody : flow.held.request.body.collect = .ok body)
    (hkey : Gateway.responseKey sha256 route flow.context.authority.identity.tenant body = .ok key) :
    flow.responseKey sha256 = .ok (key, ⟨flow.context,
      ⟨{ flow.held.request with body := .fromBytes body }, flow.held.resolution⟩⟩) := by
  rw [Flow.responseKey, hroute, collectBody, hbody]
  show (Gateway.responseKey sha256 route _ body).mapError _ >>= _ = _
  rw [hkey]
  rfl

theorem keyed_ok {responses : Option (Bytes → Bytes)} {flow keyed : Flow .bodyProcessed}
    (h : flow.keyed responses = .ok keyed) :
    keyed.held.resolution = flow.held.resolution ∧
      keyed.held.request.method = flow.held.request.method ∧
      keyed.held.request.uri = flow.held.request.uri := by
  cases responses with
  | none =>
    cases h
    exact ⟨rfl, rfl, rfl⟩
  | some sha256 =>
    obtain ⟨⟨key, ready⟩, hkey, hready⟩ := ok_of_map h
    obtain ⟨route, body, -, -, -, heq⟩ := responseKey_ok hkey
    rw [← hready, heq]
    exact ⟨rfl, rfl, rfl⟩

/-- What is handed to the upstream is the request as it was taken in, rewritten for the endpoint that the
dispatcher chose among those of the rule the request was authorized against. -/
theorem carried_ok {uris : UriRules} {responses : Option (Bytes → Bytes)} {counts : DispatcherState}
    {draw : Option UInt64} {table : RoutingTable} {context : RequestContext} {request : HttpRequest}
    {chains : ProcessorChain} {flow : Flow .bodyProcessed} {sent : HttpRequest}
    (h : carried uris responses counts draw table context request chains = some (.ok (flow, sent))) :
    ∃ key endpoint, keyOf context request = .ok key ∧
      table.resolve key = some flow.held.resolution ∧
      context.authority.allows .apiAccess (apiScope context flow.held.resolution) = true ∧
      flow.held.resolution.choose counts draw = some endpoint ∧
      flow.held.request.uri = request.uri ∧ flow.held.request.method = request.method ∧
      rewrite uris flow.held.request endpoint = .ok sent := by
  unfold carried at h
  split at h
  · cases h
  · rename_i ready hready
    obtain ⟨taken, htaken, hkeyed⟩ := ok_of_bind hready
    obtain ⟨outgoing, hout, houtgoing⟩ := Option.map_eq_some_iff.mp h
    obtain ⟨⟨rewritten, served⟩, hsent, hflow⟩ := ok_of_map houtgoing
    cases hflow
    obtain ⟨endpoint, hchosen, hrewritten⟩ := Option.map_eq_some_iff.mp hout
    rw [hsent] at hrewritten
    obtain ⟨again, hrewrite, hagain⟩ := ok_of_map hrewritten
    cases hagain
    obtain ⟨-, hmethod, huri, key, hkey, hresolved, hallowed⟩ := takenIn_ok htaken
    obtain ⟨hresolution, hmethod', huri'⟩ := keyed_ok hkeyed
    rw [hresolution, huri', huri, hmethod', hmethod]
    rw [hresolution] at hchosen
    exact ⟨key, endpoint, hkey, hresolved, hallowed, hchosen, rfl, rfl, hrewrite⟩

/-- A dispatcher chooses among the endpoints of what holds its rule's plan and as many endpoints as it. -/
theorem exists_chosen {resolution : Resolution} (hplan : resolution.plan = .of resolution.rule.target.weighted)
    (hlength : resolution.targets.length = resolution.rule.target.weighted.length)
    (counts : DispatcherState) (draw : Option UInt64) :
    ∃ target ∈ resolution.targets, resolution.choose counts draw = some target.endpoint := by
  obtain ⟨hlive, hbound⟩ := Plan.live_of resolution.rule.target.nonempty
  rw [← hplan] at hlive hbound
  obtain ⟨i, hi, hchosen⟩ :=
    Plan.choose_mem hlive resolution.rule.strategy (counts resolution.location) draw
  have hlt : i < resolution.targets.length := by
    rw [hlength]
    exact hbound i hi
  refine ⟨resolution.targets[i], List.getElem_mem hlt, ?_⟩
  rw [Resolution.choose, hchosen]
  show (resolution.targets[i]?).bind _ = _
  rw [List.getElem?_eq_getElem hlt]
  rfl

/-- **A dispatcher always chooses**, and among the endpoints of the rule: nothing an assembled table
resolves to leaves a request without somewhere to go. -/
theorem Resolution.exists_choose {configured stored : List RouteRule} {table : RoutingTable}
    {key : RouteKey} {resolution : Resolution}
    (htable : RoutingTable.assemble configured stored = .ok table)
    (h : table.resolve key = some resolution) (counts : DispatcherState) (draw : Option UInt64) :
    ∃ target ∈ resolution.targets, resolution.choose counts draw = some target.endpoint := by
  obtain ⟨hplan, hlength⟩ := plan_of_resolve htable h
  exact exists_chosen hplan hlength counts draw

theorem exists_choose_configured :
    ∃ table resolution, RoutingTable.assemble [configuredRule] [] = .ok table ∧
      table.resolve configuredRule.key = some resolution ∧
      ∃ target ∈ resolution.targets, resolution.choose (fun _ => ⟨0, []⟩) none = some target.endpoint :=
  ⟨_, _, rfl, rfl, @Resolution.exists_choose [configuredRule] [] _ configuredRule.key _ rfl rfl _ _⟩

/-- **No plugin can steer a request.**  Two runs of one request, under one table and one state of the
dispatcher and with one draw, that differ in the plugins they ran and both reach the upstream send the same
uri, the same method and the same `Host` header; and they were sent by one rule, whose api the caller may
use inside the tenant it signed for. -/
theorem plugins_cannot_steer {uris : UriRules} {responses : Option (Bytes → Bytes)}
    {counts : DispatcherState} {draw : Option UInt64} {table : RoutingTable} {context : RequestContext}
    {request : HttpRequest} {chains chains' : ProcessorChain} {flow flow' : Flow .bodyProcessed}
    {sent sent' : HttpRequest}
    (h : carried uris responses counts draw table context request chains = some (.ok (flow, sent)))
    (h' : carried uris responses counts draw table context request chains'
      = some (.ok (flow', sent'))) :
    sent.uri = sent'.uri ∧ sent.method = sent'.method ∧
      sent.headers.getAll .host = sent'.headers.getAll .host ∧
      flow.held.resolution.rule = flow'.held.resolution.rule ∧
      context.authority.allows .apiAccess
        (.api context.authority.identity.user context.authority.identity.tenant
          flow.held.resolution.rule.api) = true := by
  obtain ⟨key, endpoint, hkey, hresolved, hallowed, hchosen, huri, hmethod, hrewrite⟩ := carried_ok h
  obtain ⟨key', endpoint', hkey', hresolved', -, hchosen', huri', hmethod', hrewrite'⟩ := carried_ok h'
  -- both runs were routed by the request as it came, before any plugin ran
  have hkeys : key = key' := Except.ok.inj (hkey.symm.trans hkey')
  rw [← hkeys] at hresolved'
  have hresolution : flow.held.resolution = flow'.held.resolution :=
    Option.some.inj (hresolved.symm.trans hresolved')
  rw [← hresolution] at hchosen'
  have hendpoint : endpoint = endpoint' := Option.some.inj (hchosen.symm.trans hchosen')
  rw [← hendpoint] at hrewrite'
  obtain ⟨hto, ⟨host, hhost, hhosts⟩, hsame, -⟩ := rewrite_ok hrewrite
  obtain ⟨hto', ⟨host', hhost', hhosts'⟩, hsame', -⟩ := rewrite_ok hrewrite'
  refine ⟨?_, ?_, ?_, by rw [hresolution], hallowed⟩
  · rw [huri] at hto
    rw [huri'] at hto'
    exact Except.ok.inj (hto.symm.trans hto')
  · rw [hsame, hmethod, hsame', hmethod']
  · rw [hhosts, hhosts', Option.some.inj (hhost.symm.trans hhost')]

/-! ### A request of the examples -/

/-- A member of a tenant that was granted the api of the examples' rules. -/
def grantedContext : RequestContext where
  authority :=
    ⟨⟨⟨"carol", by decide, by decide, by decide⟩, ⟨"globex", by decide, by decide, by decide⟩, .member⟩,
      ⟨[⟨.apiAccess, .api ⟨"carol", by decide, by decide, by decide⟩
        ⟨"globex", by decide, by decide, by decide⟩ configuredRule.api, rfl⟩]⟩⟩
  protocol := .http
  listen := ⟨"127.0.0.1", false, 8080⟩

/-- A request one segment below the configured path, by this method and with this query. -/
def messagesRequest (method query : String) : HttpRequest where
  method := method
  uri := ⟨none, none, "/anthropic/messages", some query⟩
  headers := .empty
  body := []

/-- What the `http` crate makes of the uris of the examples. -/
def plainUris : UriRules where
  scheme := fun scheme => scheme == "https"
  authority := fun authority => authority == "api.anthropic.com:443"
  build := fun scheme authority path =>
    match splitOnce '?' path.toList with
    | some (path, query) =>
      .ok ⟨some scheme, some authority, String.ofList path, some (String.ofList query)⟩
    | none => .ok ⟨some scheme, some authority, path, none⟩

def noChains : ProcessorChain := ⟨[], [], [], [], []⟩

/-- Chains whose header plugin names another host, and lists `Host` as a header of the connection. -/
def hostileChains : ProcessorChain :=
  { noChains with
    requestHeaders := [fun headers =>
      match HeaderValue.fromText "api.example.com", HeaderValue.fromText "host, te" with
      | some other, some listed => .ok ((headers.insert .host other).insert .connection listed)
      | _, _ => .error (.failed "not a header")] }

def idleDispatcher : DispatcherState := fun _ => ⟨0, []⟩

theorem exists_of_any_isOk {ε α : Type} {x : Option (Except ε α)} (h : x.any Except.isOk = true) :
    ∃ a, x = some (.ok a) := by
  cases x with
  | none => cases h
  | some y =>
    cases y with
    | error error => cases h
    | ok a => exact ⟨a, rfl⟩

/-- A plugin that names another host changes nothing of where the request goes. -/
theorem hostile_plugin_cannot_steer :
    ∃ flow flow' sent sent',
      carried plainUris none idleDispatcher none (.fromRules [configuredRule]) grantedContext
        (messagesRequest "POST" "beta=1") noChains = some (.ok (flow, sent)) ∧
      carried plainUris none idleDispatcher none (.fromRules [configuredRule]) grantedContext
        (messagesRequest "POST" "beta=1") hostileChains = some (.ok (flow', sent')) ∧
      sent.uri = sent'.uri ∧ sent.method = sent'.method ∧
      sent.headers.getAll .host = sent'.headers.getAll .host := by
  obtain ⟨⟨flow, sent⟩, h⟩ := exists_of_any_isOk (x := carried plainUris none idleDispatcher none
    (.fromRules [configuredRule]) grantedContext (messagesRequest "POST" "beta=1") noChains)
    (by decide +kernel)
  obtain ⟨⟨flow', sent'⟩, h'⟩ := exists_of_any_isOk (x := carried plainUris none idleDispatcher none
    (.fromRules [configuredRule]) grantedContext (messagesRequest "POST" "beta=1") hostileChains)
    (by decide +kernel)
  obtain ⟨huri, hmethod, hhost, -, -⟩ := plugins_cannot_steer h h'
  exact ⟨flow, flow', sent, sent', h, h', huri, hmethod, hhost⟩

end IntelliPrism.Gateway
