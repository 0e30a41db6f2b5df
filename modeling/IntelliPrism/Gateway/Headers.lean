import IntelliPrism.Core.Capability
import IntelliPrism.Core.Route
import IntelliPrism.Gateway.Http

/-!
# Header and uri surgery

What a proxy does to the head of a request: which authority it names, which key it is looked up by, and
what is rewritten before it goes to the next hop.

* `authorityOf`, `splitAuthority`, `requestKey` — the key a request is looked up by;
* `stripHopByHop`, `targetUri`, `rewrite` — the request as it is sent on;
* `rewrite_ok` — **what a rewritten request is made of**: the target decides its uri and its `Host`, and
  the request its method, its query and its body.
-/

namespace IntelliPrism.Gateway

open IntelliPrism.Core IntelliPrism.Lib IntelliPrism.Cache

/-! ### Errors -/

/-- Where in the dataflow a request had got to. -/
inductive StageName where
  | receive
  | authentication
  | headerRead
  | headerProcess
  | authorization
  | bodyRead
  | bodyProcess
  | route
  | responseHeaderRead
  | responseHeaderProcess
  | responseBodyRead
  | responseBodyProcess
  | send
  deriving Repr, DecidableEq

/-- Why a request did not make it through the stages. -/
inductive GatewayErrorKind where
  | forbidden (capability : Capability)
  | noRoute (key : RouteKey)
  | protocolNotServed (protocol : Protocol)
  | malformed (detail : String)
  | value (error : CoreError)
  | processor (error : ProcessorError)
  | upstream (detail : String)
  | cache (error : CacheError)
  deriving DecidableEq

/-- A request that did not make it through the dataflow, and how far it got. -/
structure GatewayError where
  stage : StageName
  kind : GatewayErrorKind
  deriving DecidableEq

/-! ### Header names -/

namespace HeaderName

def host : HeaderName := ⟨"host", by decide, by decide⟩

def connection : HeaderName := ⟨"connection", by decide, by decide⟩

def contentLength : HeaderName := ⟨"content-length", by decide, by decide⟩

def contentType : HeaderName := ⟨"content-type", by decide, by decide⟩

def te : HeaderName := ⟨"te", by decide, by decide⟩

/-- Headers that describe one connection, which a proxy must not pass on to the next. -/
def hopByHop : List HeaderName :=
  [connection, ⟨"keep-alive", by decide, by decide⟩, ⟨"proxy-connection", by decide, by decide⟩,
    ⟨"proxy-authenticate", by decide, by decide⟩, ⟨"proxy-authorization", by decide, by decide⟩,
    ⟨"trailer", by decide, by decide⟩, ⟨"transfer-encoding", by decide, by decide⟩,
    ⟨"upgrade", by decide, by decide⟩]

end HeaderName

/-- The characters of a header that is text: visible ascii and tabs. -/
def headerChar (c : Char) : Bool := (32 ≤ c.toNat && c.toNat < 127) || c.toNat == 9

/-- `HeaderValue::from_str`: text of visible ascii and tabs as a value. -/
def HeaderValue.fromText (text : String) : Option HeaderValue :=
  if text.toList.all headerChar then fromBytes (bytesOf text) else none

def digitByte (c : Char) : UInt8 := UInt8.ofNat c.toNat

theorem valueByte_digitByte {c : Char} (h : c.isDigit = true) : valueByte (digitByte c) = true := by
  have hlow : 48 ≤ c.toNat ∧ c.toNat ≤ 57 := by
    simp only [Char.isDigit, Bool.and_eq_true, decide_eq_true_eq] at h
    exact ⟨h.1, h.2⟩
  have hall : ∀ n, 48 ≤ n → n ≤ 57 → valueByte (UInt8.ofNat n) = true := by decide +kernel
  exact hall c.toNat hlow.1 hlow.2

/-- `HeaderValue::from` of a number: the number in decimal. -/
def HeaderValue.ofNat (n : ℕ) : HeaderValue where
  bytes := (toString n).toList.map digitByte
  legal := by
    simp only [List.all_map, List.all_eq_true, Function.comp_apply]
    intro c hc
    exact valueByte_digitByte (isDigit_of_mem_toString hc)

/-! ### The key a request is looked up by -/

/-- An address the gateway listens at. -/
structure SocketAddr where
  ip : String
  isV6 : Bool
  port : UInt16

/-- The address as it is written, brackets around an ipv6 literal. -/
def SocketAddr.display (listen : SocketAddr) : String :=
  (if listen.isV6 then "[" ++ listen.ip ++ "]" else listen.ip) ++ ":" ++ toString listen.port.toNat

/-- The authority a request names: its uri's, else its `Host` header's, else where the gateway listens. -/
def authorityOf (request : HttpRequest) (listen : SocketAddr) : String :=
  match request.uri.authority with
  | some authority => authority
  | none => ((request.headers.get .host).bind HeaderValue.toStr).getD listen.display

/-- `str::split_once` at a character. -/
def splitOnce (sep : Char) (text : List Char) : Option (List Char × List Char) :=
  match text.dropWhile (· != sep) with
  | [] => none
  | _ :: after => some (text.takeWhile (· != sep), after)

/-- `str::rsplit_once` at a character. -/
def rsplitOnce (sep : Char) (text : List Char) : Option (List Char × List Char) :=
  (splitOnce sep text.reverse).map fun halves => (halves.2.reverse, halves.1.reverse)

/-- `str::strip_prefix` of a character. -/
def stripStart (first : Char) : List Char → Option (List Char)
  | [] => none
  | c :: rest => if c = first then some rest else none

/-- `from_str` of an unsigned number below a bound: digits, with a plus before them or without. -/
def parseBelow (bound : ℕ) (text : List Char) : Option ℕ :=
  let digits := (stripStart '+' text).getD text
  let value := digits.foldl (fun value digit => value * 10 + (digit.toNat - '0'.toNat)) 0
  if digits ≠ [] ∧ digits.all Char.isDigit ∧ value < bound then some value else none

def parsePort (text : List Char) : Option UInt16 := (parseBelow (2 ^ 16) text).map UInt16.ofNat

/-- Splits a `Host` header, which brackets an ipv6 literal and may omit the port. -/
def splitAuthority (raw : List Char) (defaultPort : UInt16) : List Char × UInt16 :=
  match (stripStart '[' raw).bind (splitOnce ']') with
  | some (inside, after) => (inside, ((stripStart ':' after).bind parsePort).getD defaultPort)
  | none =>
    match rsplitOnce ':' raw with
    | some (name, port) =>
      if ':' ∈ name then (raw, defaultPort) else (name, (parsePort port).getD defaultPort)
    | none => (raw, defaultPort)

/-- The key a request arriving at `listen` for `host` and `path` is looked up by. -/
def requestKey (protocol : Protocol) (host : String) (listen : SocketAddr) (path : String) :
    Except CoreError RouteKey := do
  let (host, port) := splitAuthority host.toList listen.port
  let host ← Host.new (String.ofList host)
  let port ← Port.new port
  let path ← AbsPath.new path
  return ⟨⟨protocol, host, port, path⟩⟩

/-! ### The request as it is sent on -/

/-- `str::trim`. -/
def trimText (text : List Char) : List Char :=
  ((text.dropWhile isWhitespace).reverse.dropWhile isWhitespace).reverse

/-- The names the `Connection` headers list. -/
def listedNames (headers : HeaderMap) : List HeaderName :=
  (((headers.getAll .connection).filterMap HeaderValue.toStr).flatMap fun value =>
    value.toList.splitOn ',').filterMap fun name => HeaderName.fromText (String.ofList (trimText name))

/-- A letter in lowercase, and every other byte as it is. -/
def lowerByte (b : UInt8) : UInt8 := if 65 ≤ b && b ≤ 90 then b + 32 else b

/-- Whether bytes spell a lowercase word, whatever case they are in. -/
def spellsAnyCase (word : String) (bytes : Bytes) : Bool := bytes.map lowerByte == bytesOf word

/-- Drops every hop by hop header, including any the `Connection` header names. -/
def stripHopByHop (headers : HeaderMap) : HeaderMap :=
  let headers := (listedNames headers ++ HeaderName.hopByHop).foldl HeaderMap.remove headers
  if (headers.getAll .te).all fun value => spellsAnyCase "trailers" value.bytes then headers
  else headers.remove .te

/-- What the `http` crate makes of the parts of a uri: which schemes and authorities it takes, and the uri
it builds of them and a path with its query, or why it does not. -/
structure UriRules where
  scheme : String → Bool
  authority : String → Bool
  build : (scheme authority pathAndQuery : String) → Except String Uri

/-- A target's host and port, as a header and a uri spell them. -/
def hostAndPort (target : Endpoint) : String :=
  target.host.raw ++ ":" ++ toString target.port.get.toNat

def targetUri (uris : UriRules) (target : Endpoint) (query : Option String) : Except String Uri :=
  if !uris.scheme target.protocol.name then .error (target.protocol.asStr ++ " is not a uri scheme")
  else if !uris.authority (hostAndPort target) then
    .error (hostAndPort target ++ " is not a uri authority")
  else
    let path := match query with
      | some query => target.path.raw ++ "?" ++ query
      | none => target.path.raw
    uris.build target.protocol.name (hostAndPort target) path

/-- Points the request at the endpoint it was routed to, carrying its query across. -/
def rewrite (uris : UriRules) (request : HttpRequest) (target : Endpoint) :
    Except GatewayError HttpRequest :=
  match targetUri uris target request.uri.query with
  | .error detail => .error ⟨.route, .malformed detail⟩
  | .ok uri =>
    match HeaderValue.fromText (hostAndPort target) with
    | none => .error ⟨.route, .malformed (hostAndPort target ++ " is not a host header")⟩
    | some host =>
      .ok { request with uri, headers := (stripHopByHop request.headers).insert .host host }

/-- Makes `Content-Length` match a body a plugin rewrote. -/
def setLength (headers : HeaderMap) (length : ℕ) : HeaderMap :=
  headers.insert .contentLength (HeaderValue.ofNat length)

/-- Whether a response is a stream of server sent events. -/
def isEventStream (headers : HeaderMap) : Bool :=
  match (headers.get .contentType).bind HeaderValue.toStr with
  | none => false
  | some value =>
    ((value.toList.splitOn ';').head?).any fun mime =>
      (trimText mime).map Char.toLower == "text/event-stream".toList

/-- **What a rewritten request is made of.**  Its uri and its one `Host` are the target's, whatever its
headers were; its method, its query and its body are the request's. -/
theorem rewrite_ok {uris : UriRules} {request sent : HttpRequest} {target : Endpoint}
    (h : rewrite uris request target = .ok sent) :
    targetUri uris target request.uri.query = .ok sent.uri ∧
      (∃ host, HeaderValue.fromText (hostAndPort target) = some host ∧
        sent.headers.getAll .host = [host]) ∧
      sent.method = request.method ∧ sent.body = request.body := by
  rw [rewrite] at h
  cases huri : targetUri uris target request.uri.query with
  | error detail =>
    rw [huri] at h
    cases h
  | ok uri =>
    rw [huri] at h
    cases hhost : HeaderValue.fromText (hostAndPort target) with
    | none =>
      rw [hhost] at h
      cases h
    | some host =>
      rw [hhost] at h
      cases h
      refine ⟨rfl, ⟨host, rfl, ?_⟩, rfl, rfl⟩
      rw [HeaderMap.getAll_insert, if_pos rfl]

end IntelliPrism.Gateway
