import IntelliPrism.Gateway.Answers
import IntelliPrism.Gateway.Question
import IntelliPrism.Plugins.Chains

/-!
# What a body was processed by before it was sent

A request is processed by the rules that apply to its account, tenant and api.  Its answer is put in the
response cache after its response rules ran, under a key that says nothing of the account; whoever is named
by that key later is answered from there, and no response rule runs.

* `Serving.handle` — one request, from the rules that apply to it to the answer, past the response cache;
* `Kept` — what every entry of the cache is: a body an upstream answered with, after the response rules of
  the request it was asked for;
* `sent_through_own_rules` — **a body was through exactly the response rules of whom it is sent to**, as
  long as requests that are named alike run the same ones;
* `responseBody_of_unnarrowed` — which they do where no such rule is narrowed to an account or an api;
* `sent_through_others_rules` — a run in which one is.
-/

namespace IntelliPrism.Plugins

open IntelliPrism.Core IntelliPrism.Lib IntelliPrism.Cache
open IntelliPrism.Gateway (RequestContext HttpRequest HttpResponse Flow GatewayError HeaderProcessor BodyProcessor
  CachedResponse RoutingTable UriRules DispatcherState SystemTime Caller answerWith isEventStream
  runChain)

/-! ### One request -/

/-- A gateway with a response cache, as it stands: the rules in force, what the plugins they load do, and
what the stages rest on. -/
structure Serving where
  loader : Loader
  rules : List PluginRule
  chains : PluginChains
  filed : PluginChains.fromRules loader rules = .ok chains
  header : Checksum → HeaderProcessor
  body : Checksum → BodyProcessor
  table : RoutingTable
  uris : UriRules
  sha256 : Bytes → Bytes
  parseDate : String → Option SystemTime
  ttl : Ttl

/-- One request, with what it meets on its way: what its limits say, whether the cache still has what was
put under its key and whether it takes what is put, and the upstream. -/
structure Arrival where
  context : RequestContext
  request : HttpRequest
  refusal : Option GatewayError
  remembers : Bool
  keeps : Bool
  counts : DispatcherState
  draw : Option UInt64
  upstream : HttpRequest → Except String HttpResponse
  caller : Caller
  now : SystemTime

abbrev Responses := CacheKey → Option Bytes

namespace Serving

variable (g : Serving) (arrival : Arrival)

/-- Takes a request in: routes it, picks its chains, and runs those of the request. -/
def taken : Except GatewayError (Flow .bodyProcessed × ProcessorChain) := do
  let authorized ← Flow.authorize ⟨arrival.context, arrival.request⟩ g.table
  let chain := g.chains.chainsFor authorized.context.authority.identity authorized.held.resolution.rule.api
  let running := chain.running g.header g.body
  let processed ← authorized.processHeaders running.requestHeaders
  let processed ← processed.processBody running.requestBody
  return (processed, chain)

/-- Sends the request on and processes the answer. -/
def upstreamAnswer (processed : Flow .bodyProcessed) (chain : ProcessorChain) :
    Option (Except GatewayError (Flow .responseBodyProcessed)) :=
  (processed.forward g.uris arrival.upstream arrival.counts arrival.draw).map fun forwarded => do
    let forwarded ← forwarded
    let running := chain.running g.header g.body
    let headed ← forwarded.processResponseHeaders running.responseHeaders
    headed.processResponseBody running arrival.caller

/-- What the cache holds once an answer from upstream may have been put in it. -/
def putAnswer (key : CacheKey) (kept : Option (CachedResponse × Ttl)) (responses : Responses) : Responses :=
  match kept with
  | some (answer, _) => if arrival.keeps then Function.update responses key (some answer.encode) else responses
  | none => responses

/-- Answers a named request: with what the cache holds for it, or with what the upstream says. -/
def answer (key : CacheKey) (processed : Flow .bodyProcessed) (chain : ProcessorChain)
    (responses : Responses) : Responses × Option (Except GatewayError HttpResponse) :=
  match (if arrival.remembers then responses key else none).bind CachedResponse.decode with
  | some hit => (responses, some (.ok (answerWith hit)))
  | none =>
    match g.upstreamAnswer arrival processed chain with
    | none => (responses, none)
    | some (.error error) => (responses, some (.error error))
    | some (.ok done) =>
      match done.cacheable g.parseDate arrival.now g.ttl with
      | .error error => (responses, some (.error error))
      | .ok (kept, done) => (putAnswer arrival key kept responses, some (.ok done.held.response))

/-- Carries one request through every stage.  There is no answer when the dispatcher has no endpoint. -/
def handle (responses : Responses) : Responses × Option (Except GatewayError HttpResponse) :=
  match g.taken arrival with
  | .error error => (responses, some (.error error))
  | .ok (processed, chain) =>
    match arrival.refusal with
    | some error => (responses, some (.error error))
    | none =>
      match processed.responseKey g.sha256 with
      | .error error => (responses, some (.error error))
      | .ok (key, processed) => g.answer arrival key processed chain responses

/-- What the cache holds after a sequence of requests, when it held nothing. -/
def responsesAfter (arrivals : List Arrival) : Responses :=
  arrivals.foldl (fun responses arrival => (g.handle arrival responses).1) fun _ => none

/-! ### What a body was through -/

/-- A request that was taken in and named, with the chains it was given. -/
def Named (key : CacheKey) (processed : Flow .bodyProcessed) (chain : ProcessorChain) : Prop :=
  ∃ before, g.taken arrival = .ok (before, chain) ∧ before.responseKey g.sha256 = .ok (key, processed)

/-- The response body rules of a chain, as they run. -/
def responseRules (chain : ProcessorChain) : List BodyProcessor :=
  chain.responseBody.map fun processor => g.body processor.checksum

/-- The upstream answered a request that is named so, and was given this chain, with a body. -/
def Answered (key : CacheKey) (chain : ProcessorChain) (raw : Bytes) : Prop :=
  ∃ processed, g.Named arrival key processed chain ∧
    ∃ forwarded, processed.forward g.uris arrival.upstream arrival.counts arrival.draw
      = some (.ok forwarded) ∧ forwarded.held.response.body.collect = .ok raw

end Serving

/-! ### The response stages -/

theorem collect_fromBytes (bytes : Bytes) : (Gateway.Body.fromBytes bytes).collect = .ok bytes := by
  unfold Gateway.Body.fromBytes
  split
  · rename_i hempty
    rw [hempty]
    rfl
  · exact congrArg Except.ok (List.append_nil bytes)

theorem isEventStream_remove (headers : Gateway.HeaderMap) :
    isEventStream (headers.remove .contentLength) = isEventStream headers := by
  have hne : Gateway.HeaderName.contentType ≠ .contentLength := by decide
  unfold isEventStream Gateway.HeaderMap.get
  rw [Gateway.HeaderMap.getAll_remove, if_neg hne]

/-- A chain that was run turned the bytes it read into those that go on. -/
theorem runBody_ok {stage : Gateway.StageName} {chain : List BodyProcessor} {body : Gateway.Body}
    {processed : Option Bytes} (h : Gateway.runBody stage chain body = .ok processed) :
    (processed = none ∧ chain = []) ∨
      ∃ raw bytes, processed = some bytes ∧ body.collect = .ok raw ∧ runChain chain raw = .ok bytes := by
  unfold Gateway.runBody at h
  split at h
  · rename_i hempty
    cases h
    exact .inl ⟨rfl, List.isEmpty_iff.mp hempty⟩
  · obtain ⟨raw, hraw, h⟩ := ok_of_bind h
    obtain ⟨bytes, hbytes, h⟩ := ok_of_bind h
    cases h
    exact .inr ⟨raw, bytes, rfl, ok_of_mapError hraw, ok_of_mapError hbytes⟩

/-- **What the response body stage sends**, where it is no stream: what its chain makes of what it read. -/
theorem processResponseBody_ok {flow : Flow .responseHeadersProcessed} {chains : Gateway.ProcessorChain}
    {caller : Caller} {done : Flow .responseBodyProcessed}
    (h : flow.processResponseBody chains caller = .ok done)
    (hplain : isEventStream done.held.response.headers = false) {bytes : Bytes}
    (hsent : done.held.response.body.collect = .ok bytes) :
    ∃ raw, flow.held.response.body.collect = .ok raw ∧ runChain chains.responseBody raw = .ok bytes := by
  unfold Flow.processResponseBody at h
  dsimp only at h
  split at h
  · -- chunks are only sent of a stream, and without its length it is still one
    rename_i hstream
    have hstill := isEventStream_remove flow.held.response.headers
    rw [(Bool.and_eq_true_iff.mp hstream).1] at hstill
    cases h
    exact absurd (hstill.symm.trans hplain) (by decide)
  · obtain ⟨processed, hprocessed, h⟩ := ok_of_bind h
    rcases runBody_ok hprocessed with ⟨rfl, hempty⟩ | ⟨raw, bytes', rfl, hraw, hrun⟩
    · cases h
      rw [hempty]
      exact ⟨bytes, hsent, rfl⟩
    · cases h
      rw [show _ = Except.ok bytes' from collect_fromBytes bytes'] at hsent
      cases hsent
      exact ⟨raw, hraw, hrun⟩

theorem cacheable_sent {parseDate : String → Option SystemTime} {now : SystemTime} {default : Ttl}
    {flow sent : Flow .responseBodyProcessed} {kept : Option (CachedResponse × Ttl)}
    (h : flow.cacheable parseDate now default = .ok (kept, sent)) :
    sent.held.response.headers = flow.held.response.headers ∧
      (∀ bytes, sent.held.response.body.collect = .ok bytes → flow.held.response.body.collect = .ok bytes) ∧
      ∀ answer ttl, kept = some (answer, ttl) →
        isEventStream flow.held.response.headers = false ∧
          flow.held.response.body.collect = .ok answer.body := by
  simp only [Flow.cacheable] at h
  split at h
  · cases h
    exact ⟨rfl, fun _ hbytes => hbytes, fun _ _ hkept => by cases hkept⟩
  · rename_i hplain
    split at h
    · cases h
      exact ⟨rfl, fun _ hbytes => hbytes, fun _ _ hkept => by cases hkept⟩
    · obtain ⟨collected, hcollected, h⟩ := ok_of_bind h
      have hread := ok_of_mapError hcollected
      cases h
      refine ⟨rfl, fun bytes hbytes => ?_, fun answer ttl hkept => ?_⟩
      · rw [← hbytes]
        exact hread.trans (collect_fromBytes collected).symm
      · cases hkept
        simp only [Bool.or_eq_true, Bool.not_eq_true', not_or, Bool.not_eq_true] at hplain
        exact ⟨hplain.2, hread⟩

/-! ### One request, by its outcomes -/

namespace Serving

variable {g : Serving} {arrival : Arrival}

/-- **What the upstream sends, where it is no stream**: what the response rules make of its answer. -/
theorem upstreamAnswer_ok {key : CacheKey} {processed : Flow .bodyProcessed} {chain : ProcessorChain}
    {done : Flow .responseBodyProcessed} (hnamed : g.Named arrival key processed chain)
    (h : g.upstreamAnswer arrival processed chain = some (.ok done))
    (hplain : isEventStream done.held.response.headers = false) {bytes : Bytes}
    (hsent : done.held.response.body.collect = .ok bytes) :
    ∃ raw, g.Answered arrival key chain raw ∧ runChain (g.responseRules chain) raw = .ok bytes := by
  obtain ⟨outcome, hforward, hrest⟩ := Option.map_eq_some_iff.mp h
  obtain ⟨forwarded, hforwarded, hstages⟩ := ok_of_bind hrest
  obtain ⟨headed, hheaded, hdone⟩ := ok_of_bind hstages
  obtain ⟨raw, hraw, hrun⟩ := processResponseBody_ok hdone hplain hsent
  obtain ⟨headers, -, hheaded⟩ := ok_of_bind hheaded
  rw [hforwarded] at hforward
  cases hheaded
  exact ⟨raw, ⟨processed, hnamed, forwarded, hforward, hraw⟩, hrun⟩

theorem handle_cases (g : Serving) (arrival : Arrival) (responses : Responses) :
    ((g.handle arrival responses).1 = responses ∧
        ∀ response, (g.handle arrival responses).2 ≠ some (.ok response)) ∨
      ∃ key processed chain, g.Named arrival key processed chain ∧
        g.handle arrival responses = g.answer arrival key processed chain responses := by
  unfold handle
  split
  · exact .inl ⟨rfl, nofun⟩
  · rename_i processed chain htaken
    split
    · exact .inl ⟨rfl, nofun⟩
    · split
      · exact .inl ⟨rfl, nofun⟩
      · rename_i key keyed hkey
        exact .inr ⟨key, keyed, chain, ⟨processed, htaken, hkey⟩, rfl⟩

/-- A named request fails and changes nothing, is answered with what the cache holds for it, or with what
the upstream sent, which may be put in the cache. -/
theorem answer_cases (g : Serving) (arrival : Arrival) (key : CacheKey) (processed : Flow .bodyProcessed)
    (chain : ProcessorChain) (responses : Responses) :
    ((g.answer arrival key processed chain responses).1 = responses ∧
        ∀ response, (g.answer arrival key processed chain responses).2 ≠ some (.ok response)) ∨
      (∃ entry hit, responses key = some entry ∧ CachedResponse.decode entry = some hit ∧
        g.answer arrival key processed chain responses = (responses, some (.ok (answerWith hit)))) ∨
      ∃ done kept sent, g.upstreamAnswer arrival processed chain = some (.ok done) ∧
        done.cacheable g.parseDate arrival.now g.ttl = .ok (kept, sent) ∧
        g.answer arrival key processed chain responses =
          (putAnswer arrival key kept responses, some (.ok sent.held.response)) := by
  unfold answer
  split
  · rename_i hit hhit
    obtain ⟨entry, hentry, hdecode⟩ := Option.bind_eq_some_iff.mp hhit
    refine .inr (.inl ⟨entry, hit, ?_, hdecode, rfl⟩)
    cases hremembers : arrival.remembers with
    | true => simpa [hremembers] using hentry
    | false => simp [hremembers] at hentry
  · split
    · exact .inl ⟨rfl, nofun⟩
    · exact .inl ⟨rfl, nofun⟩
    · rename_i done hdone
      split
      · exact .inl ⟨rfl, nofun⟩
      · rename_i kept sent hkept
        exact .inr (.inr ⟨done, kept, sent, hdone, hkept, rfl⟩)

/-! ### What the cache holds over a run -/

/-- What every entry of the cache is, after these requests: an answer to one of them that was named so,
after the response rules of that one. -/
def Kept (g : Serving) (before : List Arrival) (responses : Responses) : Prop :=
  ∀ key entry, responses key = some entry →
    ∃ answer : CachedResponse, entry = answer.encode ∧
      ∃ asked ∈ before, ∃ chain raw, g.Answered asked key chain raw ∧
        runChain (g.responseRules chain) raw = .ok answer.body

theorem Kept.mono {before after : List Arrival} {responses : Responses} (h : g.Kept before responses)
    (hsub : ∀ asked ∈ before, asked ∈ after) : g.Kept after responses := by
  intro key entry hentry
  obtain ⟨answer, hanswer, asked, hasked, hbody⟩ := h key entry hentry
  exact ⟨answer, hanswer, asked, hsub asked hasked, hbody⟩

/-- Putting an answer keeps it so, when the answer was through its own request's rules. -/
theorem Kept.put {before : List Arrival} {responses : Responses} (h : g.Kept before responses)
    (harrival : arrival ∈ before) {key : CacheKey} (chain : ProcessorChain)
    {kept : Option (CachedResponse × Ttl)}
    (hkept : ∀ answer ttl, kept = some (answer, ttl) →
      ∃ raw, g.Answered arrival key chain raw ∧ runChain (g.responseRules chain) raw = .ok answer.body) :
    g.Kept before (putAnswer arrival key kept responses) := by
  unfold putAnswer
  split
  · rename_i answer ttl
    split
    · intro other entry hentry
      by_cases heq : other = key
      · subst heq
        rw [Function.update_self] at hentry
        obtain ⟨raw, hraw, hrun⟩ := hkept answer ttl rfl
        exact ⟨answer, (Option.some.inj hentry).symm, arrival, harrival, chain, raw, hraw, hrun⟩
      · rw [Function.update_of_ne heq] at hentry
        exact h other entry hentry
    · exact h
  · exact h

theorem Kept.handle {before : List Arrival} {responses : Responses} (h : g.Kept before responses)
    (arrival : Arrival) : g.Kept (before ++ [arrival]) (g.handle arrival responses).1 := by
  have hmore : g.Kept (before ++ [arrival]) responses :=
    h.mono fun asked hasked => List.mem_append_left _ hasked
  have hlast : arrival ∈ before ++ [arrival] := List.mem_append_right _ (List.mem_singleton_self _)
  rcases handle_cases g arrival responses with ⟨hsame, -⟩ | ⟨key, processed, chain, hnamed, heq⟩
  · rw [hsame]
    exact hmore
  · rw [heq]
    rcases answer_cases g arrival key processed chain responses with
      ⟨hsame, -⟩ | ⟨entry, hit, -, -, hanswer⟩ | ⟨done, kept, sent, hdone, hcacheable, hanswer⟩
    · rw [hsame]
      exact hmore
    · rw [hanswer]
      exact hmore
    · rw [hanswer]
      refine hmore.put hlast chain fun answer ttl hkept => ?_
      obtain ⟨hplain, hbody⟩ := (cacheable_sent hcacheable).2.2 answer ttl hkept
      exact upstreamAnswer_ok hnamed hdone hplain hbody

/-- **What the cache holds after any run**: answers to requests of the run, after those requests' rules. -/
theorem kept_responsesAfter (g : Serving) (arrivals : List Arrival) :
    g.Kept arrivals (g.responsesAfter arrivals) := by
  induction arrivals using List.reverseRecOn with
  | nil => exact nofun
  | append_singleton before arrival ih =>
    rw [responsesAfter, List.foldl_append]
    exact ih.handle arrival

/-- A body that is sent to one request was made by the rules of it, or by those of an earlier one that is
named alike. -/
theorem sent_cases {before : List Arrival} {responses : Responses} (h : g.Kept before responses)
    {response : HttpResponse} (hsent : (g.handle arrival responses).2 = some (.ok response))
    (hplain : isEventStream response.headers = false) {bytes : Bytes}
    (hbytes : response.body.collect = .ok bytes) :
    ∃ key processed chain, g.Named arrival key processed chain ∧
      ∃ asked chain' raw, g.Answered asked key chain' raw ∧
        runChain (g.responseRules chain') raw = .ok bytes ∧
        (asked ∈ before ∨ asked = arrival ∧ chain' = chain) := by
  rcases handle_cases g arrival responses with ⟨-, hfails⟩ | ⟨key, processed, chain, hnamed, heq⟩
  · exact absurd hsent (hfails response)
  · refine ⟨key, processed, chain, hnamed, ?_⟩
    rw [heq] at hsent
    rcases answer_cases g arrival key processed chain responses with
      ⟨-, hfails⟩ | ⟨entry, hit, hentry, hdecode, hanswer⟩ | ⟨done, kept, sent, hdone, hcacheable, hanswer⟩
    · exact absurd hsent (hfails response)
    · obtain ⟨answer, rfl, asked, hasked, chain', raw, hraw, hrun⟩ := h key entry hentry
      rw [CachedResponse.decode_encode] at hdecode
      cases hdecode
      rw [hanswer] at hsent
      cases hsent
      cases (collect_fromBytes answer.body).symm.trans hbytes
      exact ⟨asked, chain', raw, hraw, hrun, .inl hasked⟩
    · rw [hanswer] at hsent
      cases hsent
      obtain ⟨hheaders, hsame, -⟩ := cacheable_sent hcacheable
      rw [hheaders] at hplain
      obtain ⟨raw, hraw, hrun⟩ := upstreamAnswer_ok hnamed hdone hplain (hsame bytes hbytes)
      exact ⟨arrival, chain, raw, hraw, hrun, .inr ⟨rfl, rfl⟩⟩

/-- The chains a request is given are those of its account, its tenant and the api it is routed to. -/
theorem Named.chainsFor {key : CacheKey} {processed : Flow .bodyProcessed} {chain : ProcessorChain}
    (h : g.Named arrival key processed chain) :
    ∃ authorized, Flow.authorize ⟨arrival.context, arrival.request⟩ g.table = .ok authorized ∧
      chain = g.chains.chainsFor arrival.context.authority.identity authorized.held.resolution.rule.api := by
  obtain ⟨taken, htaken, -⟩ := h
  obtain ⟨authorized, hauthorized, htaken⟩ := ok_of_bind htaken
  obtain ⟨headed, -, htaken⟩ := ok_of_bind htaken
  obtain ⟨processed, -, htaken⟩ := ok_of_bind htaken
  cases htaken
  refine ⟨authorized, hauthorized, ?_⟩
  rw [(Gateway.authorize_ok hauthorized).1]

/-- A body was through exactly the response rules of a request: those in force whose scope has its account,
its tenant and the api it is routed to, in their order, on what the upstream answered to it or to an earlier
request that is named alike. -/
def ThroughOwnRules (g : Serving) (before : List Arrival) (arrival : Arrival) (bytes : Bytes) : Prop :=
  ∃ authorized, Flow.authorize ⟨arrival.context, arrival.request⟩ g.table = .ok authorized ∧
    ∃ key processed chain, g.Named arrival key processed chain ∧
      ∃ asked ∈ before ++ [arrival], ∃ chain' raw, g.Answered asked key chain' raw ∧
        ∃ placed : List Processor,
          placed.Perm ((PluginChains.running g.loader g.rules arrival.context.authority.identity
            authorized.held.resolution.rule.api .respBody).map Processor.new) ∧
          placed.Pairwise (fun a b => b.rank ≤ a.rank) ∧
          runChain (placed.map fun processor => g.body processor.checksum) raw = .ok bytes

end Serving

/-- **A body was through the rules of whom it is sent to.**  For any rules in force, after any sequence of
requests: a body that is no stream and is sent to a request was through exactly the response rules that
apply to its account, tenant and api, whether it came from the upstream or from the cache, when the earlier
requests that are named alike run the same response rules. -/
theorem sent_through_own_rules {g : Serving} {before : List Arrival} {arrival : Arrival}
    (hsame : ∀ asked ∈ before, ∀ key processed chain processed' chain',
      g.Named asked key processed' chain' → g.Named arrival key processed chain →
        chain'.responseBody = chain.responseBody)
    {response : HttpResponse}
    (hsent : (g.handle arrival (g.responsesAfter before)).2 = some (.ok response))
    (hplain : isEventStream response.headers = false) {bytes : Bytes}
    (hbytes : response.body.collect = .ok bytes) : g.ThroughOwnRules before arrival bytes := by
  obtain ⟨key, processed, chain, hnamed, asked, chain', raw, hraw, hrun, hasked⟩ :=
    Serving.sent_cases (g.kept_responsesAfter before) hsent hplain hbytes
  obtain ⟨authorized, hauthorized, hchain⟩ := hnamed.chainsFor
  -- the rules the body was through are the request's own, also where another one asked for it
  have hrules : chain'.responseBody = chain.responseBody := by
    rcases hasked with hbefore | ⟨-, rfl⟩
    · obtain ⟨processed', hnamed', -⟩ := hraw
      exact hsame asked hbefore key processed chain processed' chain' hnamed' hnamed
    · rfl
  have hmem : asked ∈ before ++ [arrival] := by
    rcases hasked with hbefore | ⟨rfl, -⟩
    · exact List.mem_append_left _ hbefore
    · exact List.mem_append_right _ (List.mem_singleton_self _)
  obtain ⟨hperm, hsorted⟩ := PluginChains.slot_chainsFor g.filed arrival.context.authority.identity
    authorized.held.resolution.rule.api .respBody
  rw [← hchain] at hperm hsorted
  rw [Serving.responseRules, hrules] at hrun
  exact ⟨authorized, hauthorized, key, processed, chain, hnamed, asked, hmem, chain', raw, hraw, _, hperm,
    hsorted, hrun⟩

/-! ### Rules for a whole tenant -/

/-- No response rule is narrowed to an account or to an api. -/
def Unnarrowed (rules : List PluginRule) : Prop :=
  ∀ rule ∈ rules, rule.kind = .respBody → ∀ tenant user api, rule.scope = .tenant tenant user api →
    user = none ∧ api = none

/-- A rule for a whole tenant applies to each of its accounts alike, and to each api. -/
theorem appliesTo_of_unnarrowed {rule : PluginRule}
    (h : ∀ tenant user api, rule.scope = .tenant tenant user api → user = none ∧ api = none)
    (tenant : TenantId) (user user' : UserId) (api api' : ApiId) :
    rule.appliesTo tenant user api = rule.appliesTo tenant user' api' := by
  unfold PluginRule.appliesTo
  cases hscope : rule.scope with
  | global => rfl
  | tenant owner onlyUser onlyApi =>
    obtain ⟨rfl, rfl⟩ := h owner onlyUser onlyApi hscope
    rfl

theorem rule_mem_of_filed {g : Serving} (tenant : Option TenantId) {placed : Placed}
    (h : placed ∈ g.chains.filed tenant) : placed.rule ∈ g.rules := by
  have hmem := (PluginChains.filed_fromRules g.filed tenant).mem_iff.mp h
  obtain ⟨rule, hrule, rfl⟩ := List.mem_map.mp hmem
  exact (List.mem_filter.mp hrule).1

/-- Where no response rule is narrowed, the accounts of a tenant run the same ones, whatever the api. -/
theorem responseBody_of_unnarrowed {g : Serving} (h : Unnarrowed g.rules) {identity identity' : Identity}
    (htenant : identity.tenant = identity'.tenant) (api api' : ApiId) :
    (g.chains.chainsFor identity api).responseBody = (g.chains.chainsFor identity' api').responseBody := by
  show (g.chains.chainsFor identity api).slot .respBody = (g.chains.chainsFor identity' api').slot .respBody
  rw [PluginChains.chainsFor, PluginChains.chainsFor, PluginChains.slot_foldl_join,
    PluginChains.slot_foldl_join, List.filter_filter, List.filter_filter, ← htenant]
  congr 2
  refine List.filter_congr fun placed hplaced => ?_
  by_cases hkind : placed.rule.kind = .respBody
  · have hrule : placed.rule ∈ g.rules := by
      rcases List.mem_append.mp hplaced with hglobal | htenant
      · exact rule_mem_of_filed none hglobal
      · exact rule_mem_of_filed (some identity.tenant) htenant
    rw [appliesTo_of_unnarrowed (h placed.rule hrule hkind) identity.tenant identity.user identity'.user api api']
  · rw [decide_eq_false hkind]
    rfl

/-- So the requests of one tenant's accounts that are named alike run the same response rules. -/
theorem Unnarrowed.named_alike {g : Serving} (h : Unnarrowed g.rules) {asked arrival : Arrival}
    (htenant : asked.context.authority.identity.tenant = arrival.context.authority.identity.tenant)
    {key key' : CacheKey} {processed processed' : Flow .bodyProcessed} {chain chain' : ProcessorChain}
    (hasked : g.Named asked key' processed' chain') (harrival : g.Named arrival key processed chain) :
    chain'.responseBody = chain.responseBody := by
  obtain ⟨authorized', -, hchain'⟩ := hasked.chainsFor
  obtain ⟨authorized, -, hchain⟩ := harrival.chainsFor
  rw [hchain', hchain]
  exact responseBody_of_unnarrowed h htenant authorized'.held.resolution.rule.api
    authorized.held.resolution.rule.api

/-! ### A tenant of the examples -/

def dora : UserId := ⟨"dora", by decide, by decide, by decide⟩

theorem shaped_access (user : UserId) (tenant : TenantId) (api : ApiId) :
    Capability.apiAccess.scopeKind = (CapabilityScope.api user tenant api).kind := rfl

def grantsAccess (user : UserId) (tenant : TenantId) (api : ApiId) : Grant :=
  ⟨.apiAccess, .api user tenant api, shaped_access user tenant api⟩

/-- Another member of the tenant of the examples, granted the same api. -/
def colleagueContext : RequestContext where
  authority :=
    ⟨⟨dora, Gateway.grantedContext.authority.identity.tenant, .member⟩,
      ⟨[grantsAccess dora Gateway.grantedContext.authority.identity.tenant Gateway.configuredRule.api]⟩⟩
  protocol := .http
  listen := ⟨"127.0.0.1", false, 8080⟩

/-- What the upstream says to everyone. -/
def greeting : HttpResponse := ⟨200, .empty, [.ok (.data [104, 105])]⟩

/-- The same request, by one account or another. -/
def asks (context : RequestContext) : Arrival where
  context := context
  request := Gateway.messagesRequest "POST" "beta=1"
  refusal := none
  remembers := true
  keeps := true
  counts := Gateway.idleDispatcher
  draw := none
  upstream := fun _ => .ok greeting
  caller := Gateway.keepsReading
  now := 0

/-- One response rule of the tenant, for one of its accounts or for all. -/
def marking (user : Option UserId) : PluginRule :=
  ⟨⟨List.replicate 32 3, rfl⟩, .respBody, ⟨100⟩,
    .tenant Gateway.grantedContext.authority.identity.tenant user none, rfl⟩

/-- A gateway with that rule alone, whose plugin puts a mark behind what it is given. -/
def markingGateway (user : Option UserId) : Serving where
  loader := everyPlugin
  rules := [marking user]
  chains := ⟨[], Function.update (fun _ => []) Gateway.grantedContext.authority.identity.tenant
    [.new (marking user)]⟩
  filed := rfl
  header := fun _ headers => .ok headers
  body := fun _ bytes => .ok (bytes ++ [33])
  table := .fromRules [Gateway.configuredRule]
  uris := Gateway.plainUris
  sha256 := Gateway.messagesDigest
  parseDate := fun _ => none
  ttl := Gateway.fiveMinutes

theorem exists_sent {g : Serving} {responses : Responses} {arrival : Arrival} {bytes : Bytes}
    (h : ((g.handle arrival responses).2.any fun sent => sent.toOption.any fun response =>
      !isEventStream response.headers && decide (response.body.collect.toOption = some bytes)) = true) :
    ∃ response, (g.handle arrival responses).2 = some (.ok response) ∧
      isEventStream response.headers = false ∧ response.body.collect = .ok bytes := by
  obtain ⟨sent, hsent, h⟩ := (Option.any_eq_true _ _).mp h
  obtain ⟨response, hresponse, h⟩ := (Option.any_eq_true _ _).mp h
  obtain ⟨hplain, hbytes⟩ := Bool.and_eq_true_iff.mp h
  refine ⟨response, ?_, by simpa using hplain, ok_of_toOption (of_decide_eq_true hbytes)⟩
  rw [hsent, ok_of_toOption hresponse]

theorem raw_of_answered {g : Serving} {context : RequestContext} {key : CacheKey} {chain : ProcessorChain}
    {raw : Bytes} (h : g.Answered (asks context) key chain raw) : raw = [104, 105] := by
  obtain ⟨processed, -, forwarded, hforward, hraw⟩ := h
  obtain ⟨outgoing, -, hforward⟩ := Option.map_eq_some_iff.mp hforward
  obtain ⟨⟨request, served⟩, -, hforward⟩ := ok_of_bind hforward
  obtain ⟨response, hresponse, hforward⟩ := ok_of_bind hforward
  cases hresponse
  cases hforward
  cases hraw
  rfl

/-- **A rule narrowed to one account acts for another.**  The one account is sent a body its own rule
marked; the other, which asks the same next, is sent the marked body from the cache, and no rule in force
applies to it. -/
theorem sent_through_others_rules :
    ∃ (g : Serving) (before : List Arrival) (arrival : Arrival) (response : HttpResponse) (bytes : Bytes),
      (∀ asked ∈ before, asked.context.authority.identity.tenant =
        arrival.context.authority.identity.tenant) ∧
      (g.handle arrival (g.responsesAfter before)).2 = some (.ok response) ∧
      isEventStream response.headers = false ∧ response.body.collect = .ok bytes ∧
      ¬ g.ThroughOwnRules before arrival bytes := by
  obtain ⟨response, hsent, hplain, hbytes⟩ := @exists_sent
    (markingGateway (some Gateway.grantedContext.authority.identity.user))
    ((markingGateway (some Gateway.grantedContext.authority.identity.user)).responsesAfter
      [asks Gateway.grantedContext])
    (asks colleagueContext) [104, 105, 33] (by decide +kernel)
  refine ⟨_, [asks Gateway.grantedContext], asks colleagueContext, response, _, ?_, hsent, hplain, hbytes, ?_⟩
  · intro asked hasked
    rw [List.mem_singleton.mp hasked]
    rfl
  · intro hown
    obtain ⟨authorized, -, key, processed, chain, -, asked, hasked, chain', raw, hraw, placed, hperm, -, hrun⟩ :=
      hown
    have hraw : raw = [104, 105] := by
      rcases List.mem_append.mp hasked with hasked | hasked
      · rw [List.mem_singleton.mp hasked] at hraw
        exact raw_of_answered hraw
      · rw [List.mem_singleton.mp hasked] at hraw
        exact raw_of_answered hraw
    -- the only rule in force is the other account's
    have hnone : placed = [] := hperm.eq_nil
    rw [hnone, hraw] at hrun
    cases hrun

/-- The same two accounts under a rule for their whole tenant: the cached body was through the second's. -/
theorem sent_through_own_rules_shared :
    ∃ response, ((markingGateway none).handle (asks colleagueContext)
        ((markingGateway none).responsesAfter [asks Gateway.grantedContext])).2 = some (.ok response) ∧
      (markingGateway none).ThroughOwnRules [asks Gateway.grantedContext] (asks colleagueContext)
        [104, 105, 33] := by
  obtain ⟨response, hsent, hplain, hbytes⟩ := @exists_sent (markingGateway none)
    ((markingGateway none).responsesAfter [asks Gateway.grantedContext]) (asks colleagueContext)
    [104, 105, 33] (by decide +kernel)
  have hunnarrowed : Unnarrowed (markingGateway none).rules := by
    intro rule hrule _ tenant user api hscope
    rw [List.mem_singleton.mp hrule] at hscope
    cases hscope
    exact ⟨rfl, rfl⟩
  refine ⟨response, hsent, sent_through_own_rules ?_ hsent hplain hbytes⟩
  intro asked hasked key processed chain processed' chain' hnamed' hnamed
  refine hunnarrowed.named_alike ?_ hnamed' hnamed
  rw [List.mem_singleton.mp hasked]
  rfl

end IntelliPrism.Plugins
