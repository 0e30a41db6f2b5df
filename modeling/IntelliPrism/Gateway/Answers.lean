import IntelliPrism.Cache.Standalone
import IntelliPrism.Gateway.Flow

/-!
# Answers kept, and answers given again

A response that may be kept is put in the cache as its content type and its body, and a later request that
is named the same is answered from that entry alone.

* `Flow.cacheable` — the decision to keep a response, and what is kept of it;
* `answerWith`, `answerFrom` — the answer rebuilt from an entry;
* `hit_repeats` — **when a hit repeats the answer it stands for**: an entry holds no status and no content
  encoding, and cannot tell an empty content type from none.
-/

namespace IntelliPrism.Gateway

open IntelliPrism.Core IntelliPrism.Lib IntelliPrism.Cache

def HeaderName.contentEncoding : HeaderName := ⟨"content-encoding", by decide, by decide⟩

/-- `StatusCode::is_success`. -/
def isSuccess (status : ℕ) : Bool := 200 ≤ status && status < 300

/-- The answer to keep and how long to keep it, buffering the body so it can still be sent, or nothing when
this response may not be kept at all. -/
def Flow.cacheable (parseDate : String → Option SystemTime) (now : SystemTime) (default : Ttl)
    (flow : Flow .responseBodyProcessed) :
    Except GatewayError (Option (CachedResponse × Ttl) × Flow .responseBodyProcessed) :=
  let response := flow.held.response
  -- a stream is answered as it arrives and an error is not an answer to repeat
  if !isSuccess response.status || isEventStream response.headers then .ok (none, flow)
  else
    let ttl := match freshness parseDate response.headers now with
      | .keep ttl => some ttl
      | .unsaid => some default
      | .never => none
    match ttl with
    | none => .ok (none, flow)
    | some ttl => do
      let bytes ← collectBody .responseBodyRead response.body
      let kept : CachedResponse := ⟨response.headers.get .contentType, bytes⟩
      let buffered : HttpResponse := { response with body := .fromBytes bytes }
      return (some (kept, ttl), ⟨flow.context, { flow.held with response := buffered }⟩)

/-- Answers from what the cache held, without any stage after the request body running. -/
def answerWith (hit : CachedResponse) : HttpResponse where
  status := 200
  headers :=
    let headers := match hit.contentType with
      | none => HeaderMap.empty
      | some contentType => HeaderMap.empty.insert .contentType contentType
    setLength headers hit.body.length
  body := .fromBytes hit.body

/-- The answer an entry of the cache gives, when the bytes are one. -/
def answerFrom (entry : Bytes) : Option HttpResponse := (CachedResponse.decode entry).map answerWith

/-- One answer repeats another, as far as a caller reads it: status, kind, encoding and bytes. -/
def Repeats (again answer : HttpResponse) : Prop :=
  again.status = answer.status ∧
    again.headers.getAll .contentType = answer.headers.getAll .contentType ∧
    again.headers.getAll .contentEncoding = answer.headers.getAll .contentEncoding ∧
    again.body.collect = answer.body.collect

/-- What is kept is the first content type and the body, and the first caller is sent the response with
its body buffered. -/
theorem cacheable_ok {parseDate : String → Option SystemTime} {now : SystemTime} {default ttl : Ttl}
    {flow sent : Flow .responseBodyProcessed} {kept : CachedResponse}
    (h : flow.cacheable parseDate now default = .ok (some (kept, ttl), sent)) :
    kept.contentType = flow.held.response.headers.get .contentType ∧
      sent.held.response = { flow.held.response with body := .fromBytes kept.body } := by
  simp only [Flow.cacheable] at h
  split at h
  · cases h
  · split at h
    · cases h
    · obtain ⟨bytes, -, h⟩ := ok_of_bind h
      cases h
      exact ⟨rfl, rfl⟩

theorem getAll_contentType_answerWith (hit : CachedResponse) :
    (answerWith hit).headers.getAll .contentType = hit.contentType.toList := by
  have hne : HeaderName.contentType ≠ .contentLength := by decide
  simp only [answerWith, setLength]
  rw [HeaderMap.getAll_insert, if_neg hne]
  cases hit.contentType with
  | none => rfl
  | some value =>
    rw [HeaderMap.getAll_insert, if_pos rfl]
    rfl

theorem getAll_contentEncoding_answerWith (hit : CachedResponse) :
    (answerWith hit).headers.getAll .contentEncoding = [] := by
  have hne : HeaderName.contentEncoding ≠ .contentLength := by decide
  have hne' : HeaderName.contentEncoding ≠ .contentType := by decide
  simp only [answerWith, setLength]
  rw [HeaderMap.getAll_insert, if_neg hne]
  cases hit.contentType with
  | none => rfl
  | some value =>
    rw [HeaderMap.getAll_insert, if_neg hne']
    rfl

/-- An entry gives back one content type that is not empty, and nothing of any other list of them. -/
theorem filter_head?_eq_self {values : List HeaderValue}
    (hfits : ∀ value ∈ values.head?, value.bytes.length ≤ typeMax) :
    (values.head?.filter fun value => value.bytes ≠ [] ∧ value.bytes.length ≤ typeMax).toList = values ↔
      values = [] ∨ ∃ value, values = [value] ∧ value.bytes ≠ [] := by
  cases values with
  | nil => simp
  | cons value values =>
    have hvalue : value.bytes.length ≤ typeMax := hfits value rfl
    by_cases hempty : value.bytes = []
    · simp [Option.filter, hempty]
    · simp [Option.filter, hempty, hvalue, eq_comm]

/-- A cache that stamps its entries gives the same answer, for as long as it gives any. -/
theorem answerFrom_stamped {kept : CachedResponse} {ttl : Option Ttl} {stored later : UInt64}
    {value : Bytes} (h : valueOf (entry kept.encode ttl stored) later = some value) :
    answerFrom value = answerFrom kept.encode := by
  obtain ⟨expiresAt, hentry⟩ : ∃ expiresAt, entry kept.encode ttl stored
      = toBeBytes expiresAt ++ kept.encode := ⟨_, rfl⟩
  rw [hentry, valueOf_stamped] at h
  split at h
  · rw [Option.some.inj h]
  · cases h

/-- **When a hit repeats the answer it stands for.**  Every response the gateway keeps can be answered from
its entry, and a cache that stamps its entries gives that answer for as long as it gives any; it repeats
what the first caller was sent exactly when the status was 200, there was no `Content-Type` or a single one
that is not empty, and there was no `Content-Encoding`. -/
theorem hit_repeats {parseDate : String → Option SystemTime} {now : SystemTime} {default ttl : Ttl}
    {flow sent : Flow .responseBodyProcessed} {kept : CachedResponse}
    (h : flow.cacheable parseDate now default = .ok (some (kept, ttl), sent))
    (hfits : ∀ value ∈ flow.held.response.headers.get .contentType, value.bytes.length ≤ typeMax) :
    ∃ again, answerFrom kept.encode = some again ∧
      (∀ lifetime stored later value, valueOf (entry kept.encode lifetime stored) later = some value →
        answerFrom value = some again) ∧
      (Repeats again sent.held.response ↔
        flow.held.response.status = 200 ∧
          (flow.held.response.headers.getAll .contentType = [] ∨
            ∃ value, flow.held.response.headers.getAll .contentType = [value] ∧ value.bytes ≠ []) ∧
          flow.held.response.headers.getAll .contentEncoding = []) := by
  obtain ⟨hkept, hsent⟩ := cacheable_ok h
  obtain ⟨again, hagain⟩ : ∃ again, answerFrom kept.encode = some again := by
    rw [answerFrom, CachedResponse.decode_encode]
    exact ⟨_, rfl⟩
  refine ⟨again, hagain, fun _ _ _ _ hvalue => (answerFrom_stamped hvalue).trans hagain, ?_⟩
  rw [answerFrom, CachedResponse.decode_encode] at hagain
  cases hagain
  rw [Repeats, hsent, getAll_contentType_answerWith, getAll_contentEncoding_answerWith, hkept]
  rw [← filter_head?_eq_self hfits]
  constructor
  · intro hrepeats
    exact ⟨hrepeats.1.symm, hrepeats.2.1, hrepeats.2.2.1.symm⟩
  · intro hcond
    exact ⟨hcond.1.symm, hcond.2.1, hcond.2.2.symm, rfl⟩

/-! ### Answers of the examples -/

/-- What was answered to a request of the examples with these headers. -/
def upstreamAnswer (headers : List (HeaderName × HeaderValue)) : Flow .responseBodyProcessed :=
  ⟨grantedContext, ⟨⟨200, ⟨headers⟩, [.ok (.data [31, 139])]⟩, .of configuredRule.key.endpoint⟩⟩

def jsonType : HeaderName × HeaderValue :=
  (.contentType, ⟨bytesOf "application/json", by decide +kernel⟩)

def gzipEncoding : HeaderName × HeaderValue := (.contentEncoding, ⟨bytesOf "gzip", by decide +kernel⟩)

/-- How long the examples keep an answer that says nothing: five minutes. -/
def fiveMinutes : Ttl := ⟨300000000000, by decide⟩

/-- What is kept of it, whatever else its headers say. -/
def keptJson : CachedResponse := ⟨some jsonType.2, [31, 139]⟩

/-- **A hit drops the content encoding**: the caller gets the compressed bytes and is not told they are. -/
theorem hit_drops_encoding :
    ∃ sent again,
      (upstreamAnswer [jsonType, gzipEncoding]).cacheable (fun _ => none) 0 fiveMinutes
        = .ok (some (keptJson, fiveMinutes), sent) ∧
      answerFrom keptJson.encode = some again ∧ ¬ Repeats again sent.held.response := by
  have hkept : ((upstreamAnswer [jsonType, gzipEncoding]).cacheable (fun _ => none) 0
      fiveMinutes).map Prod.fst = .ok (some (keptJson, fiveMinutes)) := by decide +kernel
  obtain ⟨⟨kept, sent⟩, hcacheable, hfst⟩ := ok_of_map hkept
  cases hfst
  refine ⟨sent, _, hcacheable, by rw [answerFrom, CachedResponse.decode_encode]; rfl, ?_⟩
  intro hrepeats
  have hencoding := hrepeats.2.2.1
  rw [getAll_contentEncoding_answerWith, (cacheable_ok hcacheable).2] at hencoding
  exact absurd hencoding (by decide +kernel)

/-- A plain answer is repeated as it was. -/
theorem hit_repeats_json :
    ∃ sent again,
      (upstreamAnswer [jsonType]).cacheable (fun _ => none) 0 fiveMinutes
        = .ok (some (keptJson, fiveMinutes), sent) ∧
      answerFrom keptJson.encode = some again ∧ Repeats again sent.held.response := by
  have hkept : ((upstreamAnswer [jsonType]).cacheable (fun _ => none) 0 fiveMinutes).map Prod.fst
      = .ok (some (keptJson, fiveMinutes)) := by decide +kernel
  obtain ⟨⟨kept, sent⟩, hcacheable, hfst⟩ := ok_of_map hkept
  cases hfst
  obtain ⟨again, hagain, -, hiff⟩ := hit_repeats hcacheable (by decide +kernel)
  exact ⟨sent, again, hcacheable, hagain,
    hiff.mpr ⟨rfl, .inr ⟨jsonType.2, by decide +kernel, by decide +kernel⟩, by decide +kernel⟩⟩

end IntelliPrism.Gateway
