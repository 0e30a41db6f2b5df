import IntelliPrism.Gateway.Flow

/-!
# The server's router

The server's own endpoints sit under a reserved prefix, with one that matches whatever follows it behind
them; every other path is proxied.  The routing table refuses a rule under the prefix, and a path is
reserved when it is the prefix or lies below it.  The three do not draw one line: the router's last
pattern wants something after the slash, so the prefix itself, with or without a slash, goes to the proxy.

* `endpoints`, `dispatch` — the router's patterns, and where it takes a path;
* `dispatch_reserved` — **the reserved paths that are proxied**: the prefix itself, and the prefix with a
  slash;
* `resolve_reserved` — a table resolves a reserved path to what its first rule at the root makes of it;
* `reserved_is_never_sent` — nothing reserved is sent to an upstream, but for those two under a rule at
  the root;
* `prefix_is_sent` — and where that rule sends them somewhere, both are (`prefix_is_sent_to_the_root`).
-/

namespace IntelliPrism.Server

open IntelliPrism.Core IntelliPrism.Lib IntelliPrism.Gateway

/-! ### Patterns -/

/-- A segment of a router's pattern. -/
inductive Segment where
  /-- This text. -/
  | text (name : String)
  /-- One segment that is not empty. -/
  | param (name : String)
  /-- All that follows, which is not empty. -/
  | rest (name : String)
  deriving Repr, DecidableEq

/-- Whether a path is made of these segments. -/
def fits : List Segment → List Char → Bool
  | [], path => path.isEmpty
  | .text name :: segments, path =>
    ('/' :: name.toList).isPrefixOf path && fits segments (path.drop (name.toList.length + 1))
  | .param _ :: segments, '/' :: path =>
    !(path.takeWhile (· != '/')).isEmpty && fits segments (path.dropWhile (· != '/'))
  | .rest _ :: _, '/' :: path => !path.isEmpty
  | _, _ => false

/-- The server's own endpoints. -/
inductive OwnEndpoint where
  | healthz | login | logout | session | whoami
  | tenants | tenant
  | members | member
  | memberGrants | memberGrant | memberApiGrant
  | users | user
  | accountGrants | accountGrant
  | routes
  | userKey | tenantKey
  | plugins | plugin
  | pluginRules | pluginRule
  | limits
  | usage
  | reserved
  deriving Repr, DecidableEq

/-- The patterns the router registers, nested ones written out.  None but the last matches what another
matches, and the last is the least specific, which a router tries last. -/
def endpoints : List (List Segment × OwnEndpoint) :=
  [([.text "_ip", .text "healthz"], .healthz),
    ([.text "_ip", .text "login"], .login),
    ([.text "_ip", .text "logout"], .logout),
    ([.text "_ip", .text "session"], .session),
    ([.text "_ip", .text "tenants"], .tenants),
    ([.text "_ip", .text "tenants", .param "tenant"], .tenant),
    ([.text "_ip", .text "tenants", .param "tenant", .text "members"], .members),
    ([.text "_ip", .text "tenants", .param "tenant", .text "members", .param "user"], .member),
    ([.text "_ip", .text "tenants", .param "tenant", .text "members", .param "user", .text "grants"],
      .memberGrants),
    ([.text "_ip", .text "tenants", .param "tenant", .text "members", .param "user", .text "grants",
      .param "capability"], .memberGrant),
    ([.text "_ip", .text "tenants", .param "tenant", .text "members", .param "user", .text "grants",
      .param "capability", .param "api"], .memberApiGrant),
    ([.text "_ip", .text "users"], .users),
    ([.text "_ip", .text "users", .param "user"], .user),
    ([.text "_ip", .text "users", .param "user", .text "grants"], .accountGrants),
    ([.text "_ip", .text "users", .param "user", .text "grants", .param "capability"], .accountGrant),
    ([.text "_ip", .text "routes"], .routes),
    ([.text "_ip", .text "keys", .text "user"], .userKey),
    ([.text "_ip", .text "keys", .text "tenant"], .tenantKey),
    ([.text "_ip", .text "plugins"], .plugins),
    ([.text "_ip", .text "plugins", .param "checksum"], .plugin),
    ([.text "_ip", .text "plugin-rules"], .pluginRules),
    ([.text "_ip", .text "plugin-rules", .param "kind", .param "order"], .pluginRule),
    ([.text "_ip", .text "limits"], .limits),
    ([.text "_ip", .text "usage"], .usage),
    ([.text "_ip", .text "whoami"], .whoami),
    ([.text "_ip", .rest "rest"], .reserved)]

/-- The endpoint a path is taken to, or none where it is proxied. -/
def dispatch (path : List Char) : Option OwnEndpoint :=
  (endpoints.find? fun endpoint => fits endpoint.1 path).map Prod.snd

/-- What becomes of a request. -/
inductive Served where
  | own (endpoint : OwnEndpoint)
  | proxied (result : Option (Except GatewayError (Flow .bodyProcessed × HttpRequest)))

/-- The router in front of the gateway: a request is one of the server's own endpoints', or it is carried
to where the table says. -/
def served (uris : UriRules) (responses : Option (Bytes → Bytes)) (counts : DispatcherState)
    (draw : Option UInt64) (table : RoutingTable) (chains : ProcessorChain) (context : RequestContext)
    (request : HttpRequest) : Served :=
  match dispatch request.uri.path.toList with
  | some endpoint => .own endpoint
  | none => .proxied (carried uris responses counts draw table context request chains)

/-! ### Reserved paths -/

/-- A reserved path is the prefix and what follows, which is nothing or begins with a slash. -/
theorem chars_of_isReserved {path : AbsPath} (h : path.isReserved = true) :
    ∃ rest, path.chars = reservedPathPrefix.toList ++ rest ∧ (rest = [] ∨ rest.head? = some '/') := by
  simp only [AbsPath.isReserved, Bool.and_eq_true, Bool.or_eq_true, List.isEmpty_iff, beq_iff_eq] at h
  obtain ⟨rest, hrest⟩ := List.isPrefixOf_iff_prefix.mp h.1
  have hlength : reservedPathPrefix.toList.length = 4 := by decide
  refine ⟨rest, hrest.symm, ?_⟩
  rw [← hrest, ← hlength, List.drop_left] at h
  exact h.2

theorem isReserved_of_chars {path : AbsPath} {rest : List Char}
    (h : path.chars = reservedPathPrefix.toList ++ rest) (hrest : rest = [] ∨ rest.head? = some '/') :
    path.isReserved = true := by
  have hlength : reservedPathPrefix.toList.length = 4 := by decide
  simp only [AbsPath.isReserved, Bool.and_eq_true, Bool.or_eq_true, List.isEmpty_iff, beq_iff_eq]
  rw [h, ← hlength, List.drop_left]
  exact ⟨List.isPrefixOf_iff_prefix.mpr (List.prefix_append ..), hrest⟩

/-- What lies below the prefix is taken to some endpoint, at the least to the one that answers for all. -/
theorem dispatch_below (ch : Char) (rest : List Char) :
    (dispatch ("/_ip/".toList ++ ch :: rest)).isSome = true := by
  rw [dispatch, Option.isSome_map]
  exact List.find?_isSome.mpr ⟨([.text "_ip", .rest "rest"], .reserved), by decide, rfl⟩

/-- **The reserved paths that are proxied.** -/
theorem dispatch_reserved {path : AbsPath} (h : path.isReserved = true) :
    dispatch path.chars = none ↔ path.raw = "/_ip" ∨ path.raw = "/_ip/" := by
  constructor
  · intro hnone
    obtain ⟨rest, hchars, hrest⟩ := chars_of_isReserved h
    rcases hrest with rfl | hslash
    · exact .inl (String.toList_inj.mp hchars)
    · obtain ⟨tail, rfl⟩ := List.head?_eq_some_iff.mp hslash
      cases tail with
      | nil => exact .inr (String.toList_inj.mp hchars)
      | cons ch tail =>
        have hsome := dispatch_below ch tail
        rw [show "/_ip/".toList ++ ch :: tail = path.chars from hchars.symm, hnone] at hsome
        cases hsome
  · rintro (hraw | hraw) <;> rw [AbsPath.chars, hraw] <;> decide

theorem raw_of_stripSlash_eq_nil {path : AbsPath} (h : stripSlash path.chars = []) : path.raw = "/" := by
  have hchars := path.chars_eq
  rw [hchars, stripSlash] at h
  split at h
  · have htail : path.chars.tail = [] := by
      cases htail : path.chars.tail with
      | nil => rfl
      | cons ch rest =>
        rw [htail] at h
        cases h
    rw [htail] at hchars
    exact String.toList_inj.mp hchars
  · cases h

theorem isReserved_of_stripSlash {path : AbsPath} {rest : List Char}
    (h : stripSlash path.chars = reservedPathPrefix.toList ++ rest)
    (hrest : rest = [] ∨ rest.head? = some '/') : path.isReserved = true := by
  rw [stripSlash] at h
  split at h
  · rename_i hlast
    have hchars : path.chars = reservedPathPrefix.toList ++ (rest ++ ['/']) := by
      rw [← List.append_assoc, ← h]
      exact (List.dropLast_append_getLast? _ hlast).symm
    refine isReserved_of_chars hchars (.inr ?_)
    rcases hrest with rfl | hslash
    · rfl
    · rw [List.head?_append, hslash]
      rfl
  · exact isReserved_of_chars h hrest

/-- **A rule claims a reserved path only from the root or from inside the prefix.** -/
theorem root_or_reserved_of_claims {rule requested : AbsPath} (hreserved : requested.isReserved = true)
    (h : (remainderOf rule.chars requested.chars).isSome = true) :
    rule.raw = "/" ∨ rule.isReserved = true := by
  obtain ⟨remainder, hwhole, hremainder⟩ := isSome_remainderOf.mp h
  obtain ⟨rest, hchars, hrest⟩ := chars_of_isReserved hreserved
  rw [hchars] at hwhole
  rcases List.append_eq_append_iff.mp hwhole with ⟨more, hstrip, hmore⟩ | ⟨more, hstrip, hmore⟩
  · -- The rule reaches past the prefix, so it goes on with what the request goes on with.
    refine .inr (isReserved_of_stripSlash hstrip ?_)
    rcases hrest with rfl | hslash
    · exact .inl (List.append_eq_nil_iff.mp hmore.symm).1
    · cases more with
      | nil => exact .inl rfl
      | cons ch more =>
        rw [hmore] at hslash
        exact .inr hslash
  · -- The rule ends inside the prefix, whose only slash is its first character.
    cases hrule : stripSlash rule.chars with
    | nil => exact .inl (raw_of_stripSlash_eq_nil hrule)
    | cons ch part =>
      rw [hrule] at hstrip
      cases more with
      | nil =>
        have hwhole : stripSlash rule.chars = reservedPathPrefix.toList ++ [] := by
          rw [hrule, hstrip, List.append_nil, List.append_nil]
        exact .inr (isReserved_of_stripSlash hwhole (.inl rfl))
      | cons next more =>
        have htail : "_ip".toList = part ++ next :: more := (List.cons.inj hstrip).2
        have hnext : next ∈ "_ip".toList := htail ▸ List.mem_append_right _ (List.mem_cons_self ..)
        rw [hmore] at hremainder
        rcases hremainder with hnil | hslash
        · cases hnil
        · obtain rfl : next = '/' := Option.some.inj hslash
          exact absurd hnext (by decide)

theorem not_reserved_of_assemble {configured stored : List RouteRule} {table : RoutingTable}
    (htable : RoutingTable.assemble configured stored = .ok table) {rule : RouteRule}
    (hrule : rule ∈ configured ++ stored) : rule.path.isReserved = false := by
  have hnone := (assemble_ok htable).1
  rw [find?_addStored fun a b hkey => by rw [RouteRule.path, RouteRule.path, hkey]] at hnone
  simpa using List.find?_eq_none.mp hnone rule hrule

/-- A rule for an authority that stands at the root. -/
def atRoot (held : Gateway.Authority) (rule : RouteRule) : Bool :=
  authority rule.key.endpoint == held && rule.path.raw == "/"

theorem claims_reserved {key : RouteKey} (hreserved : key.endpoint.path.isReserved = true)
    {rule : RouteRule} (hrule : rule.path.isReserved = false) :
    claims key rule = atRoot (authority key.endpoint) rule := by
  refine congrArg (authority rule.key.endpoint == authority key.endpoint && ·) (Bool.eq_iff_iff.mpr ?_)
  rw [beq_iff_eq]
  constructor
  · intro hclaims
    rcases root_or_reserved_of_claims hreserved hclaims with hroot | hinside
    · exact hroot
    · rw [hrule] at hinside
      cases hinside
  · intro hroot
    rw [remainderOf, AbsPath.chars, hroot]
    rfl

/-- **A table resolves a reserved path to what its first rule at the root makes of it.** -/
theorem resolve_reserved {configured stored : List RouteRule} {table : RoutingTable}
    (htable : RoutingTable.assemble configured stored = .ok table) {key : RouteKey}
    (hreserved : key.endpoint.path.isReserved = true) :
    table.resolve key = ((configured ++ stored).find? (atRoot (authority key.endpoint))).bind
      fun rule => sendTo key ((addStored configured stored).idxOf rule) rule := by
  have hclaims : ∀ rule ∈ configured ++ stored, claims key rule = atRoot (authority key.endpoint) rule :=
    fun rule hrule => claims_reserved hreserved (not_reserved_of_assemble htable hrule)
  rw [resolve_assemble htable, find?_heaviestFirst_of_even, List.find?_congr hclaims]
  intro a ha b hb hclaimsA hclaimsB
  rw [hclaims a ha, atRoot, Bool.and_eq_true, beq_iff_eq, beq_iff_eq] at hclaimsA
  rw [hclaims b hb, atRoot, Bool.and_eq_true, beq_iff_eq, beq_iff_eq] at hclaimsB
  rw [pathLength, pathLength, hclaimsA.2, hclaimsB.2]

/-! ### What is sent -/

/-- **Nothing reserved is sent to an upstream**, but for the prefix itself, with or without a slash, under
a rule at the root: whatever the rules of the table are, and whatever the request, a request whose path
lies inside the reserved prefix does not leave the server, when its path is more than the prefix and a
slash, or no rule for what it was asked at has the root path. -/
theorem reserved_is_never_sent {configured stored : List RouteRule} {table : RoutingTable}
    (htable : RoutingTable.assemble configured stored = .ok table) {context : RequestContext}
    {request : HttpRequest} {path : AbsPath} (hpath : request.uri.path = path.raw)
    (hreserved : path.isReserved = true)
    (hsafe : path.raw ≠ "/_ip" ∧ path.raw ≠ "/_ip/" ∨
      ∀ key, keyOf context request = .ok key → ∀ rule ∈ configured ++ stored,
        authority rule.key.endpoint = authority key.endpoint → rule.path.raw ≠ "/")
    (uris : UriRules) (responses : Option (Bytes → Bytes)) (counts : DispatcherState)
    (draw : Option UInt64) (chains : ProcessorChain) (flow : Flow .bodyProcessed) (sent : HttpRequest) :
    served uris responses counts draw table chains context request
      ≠ .proxied (some (.ok (flow, sent))) := by
  intro h
  unfold served at h
  split at h
  · cases h
  · rename_i hnone
    rw [hpath] at hnone
    obtain ⟨key, endpoint, hkey, hresolved, -⟩ := carried_ok (Served.proxied.inj h)
    rcases hsafe with ⟨hbare, hslash⟩ | hroot
    · rcases (dispatch_reserved hreserved).mp hnone with hraw | hraw
      · exact hbare hraw
      · exact hslash hraw
    · have hsame : key.endpoint.path = path := AbsPath.ext ((path_of_keyOf hkey).trans hpath)
      rw [resolve_reserved htable (hsame ▸ hreserved)] at hresolved
      obtain ⟨rule, hfound, -⟩ := Option.bind_eq_some_iff.mp hresolved
      have hmatch := List.find?_some hfound
      rw [atRoot, Bool.and_eq_true, beq_iff_eq, beq_iff_eq] at hmatch
      exact hroot key hkey rule (List.mem_of_find?_eq_some hfound) hmatch.1 hmatch.2

/-- A rule that takes every path of the listener. -/
def rootRule : RouteRule :=
  { configuredRule with key := ⟨{ listener with path := ⟨"/", by decide, by decide, by decide⟩ }⟩ }

/-- A request for a path and nothing else. -/
def plainRequest (path : String) : HttpRequest := ⟨"GET", ⟨none, none, path, none⟩, .empty, []⟩

/-- The reserved paths of the examples. -/
def prefixPath : AbsPath := ⟨"/_ip", by decide, by decide, by decide⟩

def healthPath : AbsPath := ⟨"/_ip/healthz", by decide, by decide, by decide⟩

/-- Below the prefix a rule at the root changes nothing; at the prefix a rule elsewhere does not. -/
theorem reserved_is_never_sent_examples :
    RoutingTable.assemble [rootRule] [] = .ok (.fromRules [rootRule]) ∧
      (∀ flow sent, served plainUris none idleDispatcher none (.fromRules [rootRule]) noChains
        grantedContext (plainRequest "/_ip/healthz") ≠ .proxied (some (.ok (flow, sent)))) ∧
      RoutingTable.assemble [configuredRule] [] = .ok (.fromRules [configuredRule]) ∧
      ∀ flow sent, served plainUris none idleDispatcher none (.fromRules [configuredRule]) noChains
        grantedContext (plainRequest "/_ip") ≠ .proxied (some (.ok (flow, sent))) := by
  have hroot : RoutingTable.assemble [rootRule] [] = .ok (.fromRules [rootRule]) := rfl
  have helsewhere : RoutingTable.assemble [configuredRule] [] = .ok (.fromRules [configuredRule]) := rfl
  have hhealth : (plainRequest "/_ip/healthz").uri.path = healthPath.raw := rfl
  have hbare : (plainRequest "/_ip").uri.path = prefixPath.raw := rfl
  refine ⟨hroot, fun flow sent => ?_, helsewhere, fun flow sent => ?_⟩
  · exact reserved_is_never_sent hroot hhealth (by decide) (.inl ⟨by decide, by decide⟩) _ _ _ _ _
      flow sent
  · refine reserved_is_never_sent helsewhere hbare (by decide) (.inr fun key _ rule hrule _ => ?_)
      _ _ _ _ _ flow sent
    obtain rfl := List.mem_singleton.mp hrule
    decide

/-- **The prefix is sent to where the root goes.**  A request for the prefix itself, with or without a
slash, is sent by every table that resolves it, which it does where the first rule at the root sends it
somewhere (`resolve_reserved`): as long as the caller is allowed the rule's api, no plugin runs, and the
uris of the rule's endpoints are none that are refused. -/
theorem prefix_is_sent {configured stored : List RouteRule} {table : RoutingTable}
    (htable : RoutingTable.assemble configured stored = .ok table) {context : RequestContext}
    {request : HttpRequest} (hpath : request.uri.path = "/_ip" ∨ request.uri.path = "/_ip/")
    {key : RouteKey} (hkey : keyOf context request = .ok key) {resolution : Resolution}
    (hresolved : resolveKey table key = .ok resolution) (hallowed : allow context resolution = .ok ())
    {uris : UriRules}
    (huris : ∀ target ∈ resolution.targets, ∃ sent, rewrite uris request target.endpoint = .ok sent)
    (counts : DispatcherState) (draw : Option UInt64) :
    ∃ flow sent, served uris none counts draw table noChains context request
      = .proxied (some (.ok (flow, sent))) := by
  have hnone : dispatch request.uri.path.toList = none := by
    rcases hpath with h | h <;> rw [h] <;> decide
  obtain ⟨hplan, hlength⟩ := plan_of_resolve htable (resolveKey_ok hresolved)
  obtain ⟨target, htarget, hchosen⟩ := exists_chosen hplan hlength counts draw
  obtain ⟨sent, hsent⟩ := huris target htarget
  refine ⟨⟨context, ⟨request, resolution⟩⟩, sent, ?_⟩
  have hready : Flow.takenIn context request table noChains.requestHeaders noChains.requestBody >>=
      Flow.keyed none = .ok ⟨context, ⟨request, resolution⟩⟩ := by
    rw [Flow.takenIn, authorize_eq hkey hresolved hallowed]
    rfl
  have hout : Flow.outgoing uris counts draw ⟨context, ⟨request, resolution⟩⟩
      = some (.ok (sent, Replica.of target.endpoint)) := by
    rw [Flow.outgoing, hchosen, Option.map_some, hsent]
    rfl
  rw [served, hnone]
  show Served.proxied (carried uris none counts draw table context request noChains) = _
  unfold carried
  rw [hready]
  show Served.proxied ((Flow.outgoing uris counts draw ⟨context, ⟨request, resolution⟩⟩).map _) = _
  rw [hout]
  rfl

/-- One rule at the root: a request for the prefix itself, with or without a slash, reaches the upstream. -/
theorem prefix_is_sent_to_the_root :
    RoutingTable.assemble [rootRule] [] = .ok (.fromRules [rootRule]) ∧
      prefixPath.isReserved = true ∧
      ∀ path ∈ ["/_ip", "/_ip/"], ∃ flow sent,
        served plainUris none idleDispatcher none (.fromRules [rootRule]) noChains grantedContext
          (plainRequest path) = .proxied (some (.ok (flow, sent))) := by
  have hsent : ∀ path ∈ ["/_ip", "/_ip/"], dispatch (plainRequest path).uri.path.toList = none ∧
      (carried plainUris none idleDispatcher none (.fromRules [rootRule]) grantedContext
        (plainRequest path) noChains).any Except.isOk = true := by
    decide +kernel
  refine ⟨rfl, by decide, fun path hpath => ?_⟩
  obtain ⟨hnone, hany⟩ := hsent path hpath
  obtain ⟨⟨flow, sent⟩, hcarried⟩ := exists_of_any_isOk hany
  refine ⟨flow, sent, ?_⟩
  rw [served, hnone]
  exact congrArg Served.proxied hcarried

end IntelliPrism.Server
