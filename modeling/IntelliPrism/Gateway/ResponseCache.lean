import IntelliPrism.Gateway.Headers

/-!
# What the response cache keeps, and under which key

A repeated request is answered out of the cache.  Its key hashes the route it was looked up by, the tenant
it was made inside and its body, each with its length before it; an entry is the content type with its
length before it, and the body.

* `responseKey` — the key, with `keyedBytes_injective`, **what is hashed tells its three parts apart**, and
  `keyed_says_what_was_asked`, so it says what was asked;
* `freshness` — how long a response says it may be kept;
* `CachedResponse.encode` / `CachedResponse.decode` — an entry, and `decode_encode`, what is read back.
-/

namespace IntelliPrism.Gateway

open IntelliPrism.Core IntelliPrism.Lib IntelliPrism.Cache

/-! ### Hexadecimal -/

/-- A number below sixteen as its digit. -/
def hexDigit (n : ℕ) : Char := Char.ofNat (if n < 10 then 48 + n else 87 + n)

/-- `hex::encode`: two lowercase digits for each byte. -/
def hexEncode (bytes : Bytes) : String :=
  String.ofList (bytes.flatMap fun b => [hexDigit (b.toNat / 16), hexDigit (b.toNat % 16)])

theorem hexDigit_inj : ∀ m < 16, ∀ n < 16, hexDigit m = hexDigit n → m = n := by decide

theorem hexEncode_injective : Function.Injective hexEncode := by
  intro a b h
  have hlist := congrArg String.toList h
  rw [hexEncode, hexEncode, String.toList_ofList, String.toList_ofList] at hlist
  clear h
  induction a generalizing b with
  | nil =>
    cases b with
    | nil => rfl
    | cons y b => cases hlist
  | cons x a ih =>
    cases b with
    | nil => cases hlist
    | cons y b =>
      simp only [List.flatMap_cons, List.cons_append, List.nil_append, List.cons.injEq] at hlist
      obtain ⟨hhigh, hlow, hrest⟩ := hlist
      have hx := x.toNat_lt
      have hy := y.toNat_lt
      have hdiv := hexDigit_inj (x.toNat / 16) (by omega) (y.toNat / 16) (by omega) hhigh
      have hmod := hexDigit_inj (x.toNat % 16) (by omega) (y.toNat % 16) (by omega) hlow
      have hxy : x = y := UInt8.toNat_inj.mp (by omega)
      rw [hxy, ih hrest]

/-! ### Keys -/

/-- A part with its length before it. -/
def framed (part : Bytes) : Bytes := toBeBytes (UInt64.ofNat part.length) ++ part

/-- What is hashed to name a response. -/
def keyedBytes (route : RouteKey) (tenant : TenantId) (body : Bytes) : Bytes :=
  [bytesOf route.endpoint.display, bytesOf tenant.raw, body].flatMap framed

def responseKey (sha256 : Bytes → Bytes) (route : RouteKey) (tenant : TenantId) (body : Bytes) :
    Except CacheError CacheKey :=
  CacheKey.new .response (hexEncode (sha256 (keyedBytes route tenant body)))

theorem framed_append_inj {a b : Bytes} (ha : a.length < 2 ^ 64) (hb : b.length < 2 ^ 64)
    {rest rest' : Bytes} (h : framed a ++ rest = framed b ++ rest') : a = b ∧ rest = rest' := by
  rw [framed, framed, List.append_assoc, List.append_assoc] at h
  obtain ⟨hlength, htail⟩ := List.append_inj h (by rw [toBeBytes_length, toBeBytes_length])
  have hword := congrArg fromBeBytes hlength
  rw [fromBeBytes_toBeBytes, fromBeBytes_toBeBytes] at hword
  have hnat := congrArg UInt64.toNat (Option.some.inj hword)
  rw [UInt64.toNat_ofNat_of_lt' ha, UInt64.toNat_ofNat_of_lt' hb] at hnat
  exact List.append_inj htail hnat

/-- **What is hashed tells its three parts apart.** -/
theorem keyedBytes_injective {route route' : RouteKey} {tenant tenant' : TenantId} {body body' : Bytes}
    (h : keyedBytes route tenant body = keyedBytes route' tenant' body') :
    route = route' ∧ tenant = tenant' ∧ body = body' := by
  have hroute : ∀ key : RouteKey, (bytesOf key.endpoint.display).length < 2 ^ 64 := fun key =>
    lt_trans key.endpoint.display_short (by decide)
  have htenant : ∀ id : TenantId, (bytesOf id.raw).length < 2 ^ 64 := fun id =>
    lt_of_le_of_lt id.short (by decide)
  simp only [keyedBytes, List.flatMap_cons, List.flatMap_nil, List.append_nil] at h
  obtain ⟨hr, h⟩ := framed_append_inj (hroute route) (hroute route') h
  obtain ⟨ht, h⟩ := framed_append_inj (htenant tenant) (htenant tenant') h
  refine ⟨?_, ?_, ?_⟩
  · exact RouteKey.eq_of_endpoint (Endpoint.display_injective (bytesOf_injective hr))
  · exact Ident.ext (bytesOf_injective ht)
  · exact (List.append_inj h (by rw [toBeBytes_length, toBeBytes_length])).2

/-- **What is hashed says what was asked**: the bytes are the same exactly when every part of the route key,
the tenant and the body are. -/
theorem keyed_says_what_was_asked (route route' : RouteKey) (tenant tenant' : TenantId)
    (body body' : Bytes) :
    keyedBytes route tenant body = keyedBytes route' tenant' body' ↔
      route.endpoint.protocol = route'.endpoint.protocol ∧ route.endpoint.host = route'.endpoint.host ∧
        route.endpoint.port = route'.endpoint.port ∧ route.endpoint.path = route'.endpoint.path ∧
        tenant = tenant' ∧ body = body' := by
  constructor
  · intro h
    obtain ⟨hroute, htenant, hbody⟩ := keyedBytes_injective h
    subst hroute
    exact ⟨rfl, rfl, rfl, rfl, htenant, hbody⟩
  · intro ⟨hprotocol, hhost, hport, hpath, htenant, hbody⟩
    have hendpoint := Endpoint.eq_iff.mpr ⟨hprotocol, hhost, hport, hpath⟩
    rw [RouteKey.eq_of_endpoint hendpoint, htenant, hbody]

theorem keyedBytes_of_responseKey {sha256 : Bytes → Bytes} {route route' : RouteKey}
    {tenant tenant' : TenantId} {body body' : Bytes} {key : CacheKey}
    (h : responseKey sha256 route tenant body = .ok key)
    (h' : responseKey sha256 route' tenant' body' = .ok key) :
    sha256 (keyedBytes route tenant body) = sha256 (keyedBytes route' tenant' body') := by
  have hid : ∀ {id : String}, CacheKey.new .response id = .ok key → key.id = id := by
    intro id hnew
    rw [CacheKey.new] at hnew
    split at hnew
    · cases hnew
    · split at hnew
      · cases hnew
        rfl
      · cases hnew
  exact hexEncode_injective ((hid h).symm.trans (hid h'))

/-! ### How long a response may be kept -/

/-- What a response's own headers say about keeping it. -/
inductive Freshness where
  | keep (ttl : Ttl)
  | unsaid
  | never
  deriving DecidableEq

/-- A moment, in nanoseconds since the epoch. -/
abbrev SystemTime := ℤ

def HeaderName.cacheControl : HeaderName := ⟨"cache-control", by decide, by decide⟩

def HeaderName.expires : HeaderName := ⟨"expires", by decide, by decide⟩

/-- A span as a ttl, keeping nothing when it rounds away to no time at all. -/
def span (nanos : ℕ) : Freshness :=
  match Ttl.new nanos with
  | .ok ttl => .keep ttl
  | .error _ => .never

/-- What the directives of a `Cache-Control` header say, or nothing when they leave it to `Expires`. -/
def controlled (directives : List (List Char)) : Option Freshness :=
  if directives.any fun directive =>
      ["no-store".toList, "no-cache".toList, "private".toList].contains directive then some .never
  else
    match directives.findSome? fun directive =>
      if "max-age=".toList.isPrefixOf directive then some (directive.drop 8) else none with
    | none => none
    | some seconds =>
      match parseBelow (2 ^ 64) (trimText seconds) with
      | some 0 => some .never
      | some seconds => some (span (seconds * 1000000000))
      | none => some .unsaid

/-- Reads how long a response says its answer is good for.  `parseDate` is what `httpdate` reads. -/
def freshness (parseDate : String → Option SystemTime) (headers : HeaderMap) (now : SystemTime) :
    Freshness :=
  let control := (headers.get .cacheControl).bind HeaderValue.toStr
  match control.bind fun value => controlled ((value.toList.splitOn ',').map trimText) with
  | some said => said
  | none =>
    match ((headers.get .expires).bind HeaderValue.toStr).bind parseDate with
    | none => .unsaid
    | some expires => if now ≤ expires then span (expires - now).toNat else .never

/-! ### Entries -/

/-- A response the cache holds: what it answered with, and what kind of body that was. -/
structure CachedResponse where
  contentType : Option HeaderValue
  body : Bytes
  deriving DecidableEq

/-- The largest length an entry's length field holds. -/
def typeMax : ℕ := 2 ^ 16 - 1

namespace CachedResponse

/-- The content type as an entry holds it, one too long for the length field as none at all. -/
def typeBytes (response : CachedResponse) : Bytes :=
  match response.contentType with
  | none => []
  | some value => if value.bytes.length > typeMax then [] else value.bytes

/-- The entry as the cache stores it: the content type's length, the content type, the body. -/
def encode (response : CachedResponse) : Bytes :=
  beDigits 2 response.typeBytes.length ++ response.typeBytes ++ response.body

/-- `split_at_checked`. -/
def splitAtChecked (n : ℕ) (bytes : Bytes) : Option (Bytes × Bytes) :=
  if n ≤ bytes.length then some (bytes.take n, bytes.drop n) else none

/-- Reads an entry back, or nothing when the bytes are not one. -/
def decode (entry : Bytes) : Option CachedResponse := do
  let (len, rest) ← splitAtChecked 2 entry
  let (contentType, body) ← splitAtChecked (ofBeDigits len) rest
  if contentType = [] then some ⟨none, body⟩
  else (HeaderValue.fromBytes contentType).map fun value => ⟨some value, body⟩

theorem splitAtChecked_append (front back : Bytes) :
    splitAtChecked front.length (front ++ back) = some (front, back) := by
  rw [splitAtChecked, if_pos (by rw [List.length_append]; omega), List.take_left, List.drop_left]

theorem length_typeBytes (response : CachedResponse) : response.typeBytes.length ≤ typeMax := by
  rw [typeBytes]
  split
  · exact Nat.zero_le _
  · split
    · exact Nat.zero_le _
    · omega

/-- **What is read back of an entry**: the body as it was, and the content type unless it was empty or too
long for its length field. -/
theorem decode_encode (response : CachedResponse) :
    decode response.encode
      = some ⟨response.contentType.filter fun value =>
          value.bytes ≠ [] ∧ value.bytes.length ≤ typeMax, response.body⟩ := by
  have hlen : ofBeDigits (beDigits 2 response.typeBytes.length) = response.typeBytes.length := by
    have := response.length_typeBytes
    rw [ofBeDigits_beDigits, Nat.mod_eq_of_lt]
    rw [typeMax] at this
    omega
  have htwo : splitAtChecked 2 (beDigits 2 response.typeBytes.length ++
      (response.typeBytes ++ response.body)) = some (beDigits 2 response.typeBytes.length,
        response.typeBytes ++ response.body) := by
    have := splitAtChecked_append (beDigits 2 response.typeBytes.length)
      (response.typeBytes ++ response.body)
    rwa [beDigits_length] at this
  rw [encode, List.append_assoc, decode, htwo]
  simp only [Option.bind_eq_bind, Option.bind_some, hlen, splitAtChecked_append]
  cases hvalue : response.contentType with
  | none => simp [typeBytes, hvalue]
  | some value =>
    by_cases hlong : value.bytes.length > typeMax
    · have : ¬ value.bytes.length ≤ typeMax := by omega
      simp [typeBytes, hvalue, hlong, this, Option.filter]
    · have hfits : value.bytes.length ≤ typeMax := by omega
      by_cases hempty : value.bytes = []
      · simp [typeBytes, hvalue, hempty, Option.filter]
      · simp [typeBytes, hvalue, hlong, hempty, hfits, HeaderValue.fromBytes_bytes, Option.filter]

end CachedResponse

end IntelliPrism.Gateway
