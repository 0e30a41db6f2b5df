import IntelliPrism.Gateway.Flow
import IntelliPrism.Lib.Trim

/-!
# The authority the gateway writes and the one it reads

A rewritten request names its target as the host, a colon and the port, both in its uri and in its `Host`
header.  A gateway that receives such a header splits it at the colon.

* `toStr_of_fromText` — a header value written as text is read as that text;
* `parsePort_toString` — a port is read back from its digits;
* `splitAuthority_hostAndPort` — what is written of a host without a colon is split into that host and the
  port;
* `ReadsAuthorities` — what is assumed of the `http` crate;
* `authority_reads_back` — **the authority written is the one read for every host but an ipv6 address**;
* `ipv6_authority_refused` — an ipv6 address is written without its brackets, and the request to it is
  refused.
-/

namespace IntelliPrism.Gateway

open IntelliPrism.Core IntelliPrism.Lib IntelliPrism.Cache

/-! ### Header values as text -/

theorem ascii_of_headerChar {c : Char} (h : headerChar c = true) : c.toNat < 128 := by
  simp only [headerChar, Bool.or_eq_true, Bool.and_eq_true, decide_eq_true_eq, beq_iff_eq] at h
  omega

/-- A character of header text as a byte: one a value holds, that is read as text, and as that character. -/
theorem byte_of_headerChar {c : Char} (h : headerChar c = true) :
    valueByte c.val.toUInt8 = true ∧ textByte c.val.toUInt8 = true ∧ byteChar c.val.toUInt8 = c :=
  @forall_ascii (fun c => headerChar c = true → valueByte c.val.toUInt8 = true ∧
    textByte c.val.toUInt8 = true ∧ byteChar c.val.toUInt8 = c) (by decide +kernel) c
    (ascii_of_headerChar h) h

theorem bytesOf_of_headerChars {text : String} (h : text.toList.all headerChar = true) :
    bytesOf text = text.toList.map fun c => c.val.toUInt8 := by
  have hascii := toByteArray_ofList_of_ascii fun c hc =>
    ascii_of_headerChar (List.all_eq_true.mp h c hc)
  rwa [String.ofList_toList] at hascii

/-- **Visible text is a header value**, and is read as the text it was written as. -/
theorem toStr_of_fromText {text : String} (h : text.toList.all headerChar = true) :
    ∃ value, HeaderValue.fromText text = some value ∧ value.toStr = some text := by
  have hbytes := bytesOf_of_headerChars h
  have hlegal : (bytesOf text).all valueByte = true := by
    rw [hbytes, List.all_map]
    apply List.all_eq_true.mpr
    intro c hc
    exact (byte_of_headerChar (List.all_eq_true.mp h c hc)).1
  refine ⟨⟨bytesOf text, hlegal⟩, ?_, ?_⟩
  · rw [HeaderValue.fromText]
    exact (if_pos h).trans (dif_pos hlegal)
  · have htext : (bytesOf text).all textByte = true := by
      rw [hbytes, List.all_map]
      apply List.all_eq_true.mpr
      intro c hc
      exact (byte_of_headerChar (List.all_eq_true.mp h c hc)).2.1
    have hchars : (bytesOf text).map byteChar = text.toList := by
      rw [hbytes, List.map_map]
      refine (List.map_congr_left ?_).trans (List.map_id _)
      intro c hc
      exact (byte_of_headerChar (List.all_eq_true.mp h c hc)).2.2
    rw [HeaderValue.toStr]
    refine (if_pos htext).trans ?_
    rw [hchars, String.ofList_toList]

/-! ### A host and a port read back -/

theorem parsePort_toString (port : UInt16) : parsePort (toString port.toNat).toList = some port := by
  have hdigits : ∀ c ∈ (toString port.toNat).toList, c.isDigit = true := fun c hc =>
    isDigit_of_mem_toString hc
  have hsome : (toString port.toNat).toList ≠ [] := by
    rw [Nat.toString_eq_repr, Nat.repr, String.toList_ofList]
    exact Nat.toDigits_ne_nil
  have hplus : stripStart '+' (toString port.toNat).toList = none := by
    cases htext : (toString port.toNat).toList with
    | nil => rfl
    | cons c rest =>
      rw [stripStart, if_neg]
      intro hc
      have := hdigits c (by rw [htext]; exact List.mem_cons_self ..)
      rw [hc] at this
      exact absurd this (by decide)
  have hvalue := foldl_digits_toString port.toNat
  have hread : parseBelow (2 ^ 16) (toString port.toNat).toList = some port.toNat := by
    rw [parseBelow, hplus, Option.getD_none, hvalue]
    exact if_pos ⟨hsome, List.all_eq_true.mpr hdigits, port.toNat_lt⟩
  rw [parsePort, hread]
  exact congrArg some (UInt16.ofNat_toNat)

theorem bne_of_notMem {sep : Char} {text : List Char} (h : sep ∉ text) : ∀ c ∈ text, (c != sep) = true := by
  intro c hc
  rw [bne_iff_ne]
  intro heq
  exact h (heq ▸ hc)

theorem splitOnce_of_notMem {sep : Char} {text : List Char} (h : sep ∉ text) : splitOnce sep text = none := by
  have hnone : text.dropWhile (· != sep) = [] := by
    rw [← List.append_nil text, List.dropWhile_append_of_pos (bne_of_notMem h), List.dropWhile_nil]
  rw [splitOnce, hnone]

/-- The first of a separator splits where what stands before it holds none. -/
theorem splitOnce_append {sep : Char} {front : List Char} (h : sep ∉ front) (back : List Char) :
    splitOnce sep (front ++ sep :: back) = some (front, back) := by
  have hother := bne_of_notMem h
  rw [splitOnce, List.dropWhile_append_of_pos hother, List.takeWhile_append_of_pos hother]
  simp

theorem rsplitOnce_append {sep : Char} (front : List Char) {back : List Char} (h : sep ∉ back) :
    rsplitOnce sep (front ++ sep :: back) = some (front, back) := by
  have hback : sep ∉ back.reverse := fun hmem => h (List.mem_reverse.mp hmem)
  have hreverse : (front ++ sep :: back).reverse = back.reverse ++ sep :: front.reverse := by simp
  rw [rsplitOnce, hreverse, splitOnce_append hback]
  simp

theorem toList_hostAndPort (target : Endpoint) :
    (hostAndPort target).toList = target.host.raw.toList ++ ':' :: (toString target.port.get.toNat).toList := by
  simp [hostAndPort]

theorem colon_notMem_toString (n : ℕ) : ':' ∉ (toString n).toList := by
  intro hmem
  exact absurd (isDigit_of_mem_toString hmem) (by decide)

/-- **What is written of a host without a colon is split into that host and the port**, whatever the
default port is. -/
theorem splitAuthority_hostAndPort {target : Endpoint} (h : ':' ∉ target.host.raw.toList)
    (defaultPort : UInt16) :
    splitAuthority (hostAndPort target).toList defaultPort = (target.host.raw.toList, target.port.get) := by
  have hbracket : stripStart '[' (hostAndPort target).toList = none := by
    rw [toList_hostAndPort]
    cases hhost : target.host.raw.toList with
    | nil => rfl
    | cons c rest =>
      rw [List.cons_append, stripStart, if_neg]
      intro hc
      have := target.host.hostChar_of_mem (by rw [hhost]; exact List.mem_cons_self ..)
      rw [hc] at this
      exact absurd this (by decide)
  rw [splitAuthority, hbracket, toList_hostAndPort, rsplitOnce_append _ (colon_notMem_toString _)]
  show (if ':' ∈ target.host.raw.toList then _ else _) = _
  rw [if_neg h, parsePort_toString]
  rfl

/-! ### What the `http` crate makes of it -/

/-- A text without what stands in its first pair of brackets. -/
def outsideBrackets (text : List Char) : List Char :=
  match splitOnce '[' text with
  | none => text
  | some (front, rest) =>
    match splitOnce ']' rest with
    | none => text
    | some (_, back) => front ++ back

/-- No host has a bracket in it, so nothing of what is written of it stands in brackets. -/
theorem outsideBrackets_hostAndPort (host : Host) (port : UInt16) :
    outsideBrackets (host.raw ++ ":" ++ toString port.toNat).toList
      = host.raw.toList ++ ':' :: (toString port.toNat).toList := by
  have hlist : (host.raw ++ ":" ++ toString port.toNat).toList
      = host.raw.toList ++ ':' :: (toString port.toNat).toList := by simp
  have hopen : '[' ∉ host.raw.toList ++ ':' :: (toString port.toNat).toList := by
    intro hmem
    rcases List.mem_append.mp hmem with hhost | hport
    · exact absurd (host.hostChar_of_mem hhost) (by decide)
    · rcases List.mem_cons.mp hport with hcolon | hdigit
      · exact absurd hcolon (by decide)
      · exact absurd (isDigit_of_mem_toString hdigit) (by decide)
  rw [hlist, outsideBrackets, splitOnce_of_notMem hopen]

theorem count_colon_hostAndPort (host : Host) (port : UInt16) :
    (outsideBrackets (host.raw ++ ":" ++ toString port.toNat).toList).count ':'
      = host.raw.toList.count ':' + 1 := by
  rw [outsideBrackets_hostAndPort, List.count_append, List.count_cons_self,
    List.count_eq_zero.mpr (colon_notMem_toString _)]

/-- What is assumed of how the `http` crate reads the parts of a uri. -/
structure ReadsAuthorities (uris : UriRules) : Prop where
  http : uris.scheme Protocol.http.name = true
  named : ∀ (host : Host) (port : UInt16), isIpv6 host.raw.toList = false →
    uris.authority (host.raw ++ ":" ++ toString port.toNat) = true
  bracketed : ∀ (host : Host) (port : UInt16), isIpv6 host.raw.toList = true →
    uris.authority ("[" ++ host.raw ++ "]:" ++ toString port.toNat) = true
  refuses : ∀ text : String, 1 < (outsideBrackets text.toList).count ':' → uris.authority text = false

/-- The path of a target with the query a request carries across. -/
def pathAndQuery (target : Endpoint) (query : Option String) : String :=
  query.elim target.path.raw fun query => target.path.raw ++ "?" ++ query

/-- A target whose scheme and authority are not refused has the uri the builder makes of it. -/
theorem targetUri_eq_build {uris : UriRules} {target : Endpoint}
    (hscheme : uris.scheme target.protocol.name = true) (hauthority : uris.authority (hostAndPort target) = true)
    (query : Option String) :
    targetUri uris target query
      = uris.build target.protocol.name (hostAndPort target) (pathAndQuery target query) := by
  unfold targetUri
  rw [hscheme, hauthority]
  cases query <;> rfl

/-- A request to a target carries the target's authority: the authority is not refused, so that only the
builder of the uri still may, and once it does not, the one `Host` that is sent is split into the target's
host and port. -/
def CarriesAuthority (uris : UriRules) (request : HttpRequest) (target : Endpoint)
    (defaultPort : UInt16) : Prop :=
  uris.authority (hostAndPort target) = true ∧
    (∀ detail, uris.build target.protocol.name (hostAndPort target)
        (pathAndQuery target request.uri.query) = .error detail →
      rewrite uris request target = .error ⟨.route, .malformed detail⟩) ∧
    ∀ uri, uris.build target.protocol.name (hostAndPort target)
        (pathAndQuery target request.uri.query) = .ok uri →
      ∃ sent host text, rewrite uris request target = .ok sent ∧ sent.uri = uri ∧
        sent.headers.getAll .host = [host] ∧ host.toStr = some text ∧
        splitAuthority text.toList defaultPort = (target.host.raw.toList, target.port.get)

theorem headerChar_of_hostChar {c : Char} (h : hostChar c = true) : headerChar c = true := by
  have halnum : c.isAlphanum = (c.isUpper || c.isLower || c.isDigit) := rfl
  have hrange : 32 ≤ c.toNat ∧ c.toNat < 127 := by
    simp only [hostChar, halnum, Bool.or_eq_true, beq_iff_eq] at h
    rcases h with (((((hupper | hlower) | hdigit) | rfl) | rfl) | rfl)
    · have hletter := of_decide_eq_true hupper
      exact ⟨Nat.le_trans (by decide) hletter.1, Nat.lt_of_le_of_lt hletter.2 (by decide)⟩
    · obtain ⟨hge, hle⟩ := Bool.and_eq_true_iff.mp hlower
      exact ⟨Nat.le_trans (by decide) (of_decide_eq_true hge),
        Nat.lt_of_le_of_lt (of_decide_eq_true hle) (by decide)⟩
    · obtain ⟨hge, hle⟩ := Bool.and_eq_true_iff.mp hdigit
      exact ⟨Nat.le_trans (by decide) (of_decide_eq_true hge),
        Nat.lt_of_le_of_lt (of_decide_eq_true hle) (by decide)⟩
    all_goals decide
  simp [headerChar, hrange]

theorem all_headerChar_hostAndPort (target : Endpoint) :
    (hostAndPort target).toList.all headerChar = true := by
  rw [toList_hostAndPort]
  apply List.all_eq_true.mpr
  intro c hc
  apply headerChar_of_hostChar
  rcases List.mem_append.mp hc with hhost | hport
  · exact target.host.hostChar_of_mem hhost
  · rcases List.mem_cons.mp hport with rfl | hdigit
    · decide
    · have halnum : c.isAlphanum = (c.isAlpha || c.isDigit) := rfl
      simp [hostChar, halnum, isDigit_of_mem_toString hdigit]

/-- A target that is an ipv6 address has one colon too many, and every request to it is refused. -/
theorem rewrite_of_isIpv6 {uris : UriRules} (huris : ReadsAuthorities uris) {target : Endpoint}
    (hhttp : target.protocol = .http) (hv6 : isIpv6 target.host.raw.toList = true) (request : HttpRequest) :
    uris.authority (hostAndPort target) = false ∧ rewrite uris request target
      = .error ⟨.route, .malformed (hostAndPort target ++ " is not a uri authority")⟩ := by
  have hauthority : uris.authority (hostAndPort target) = false := by
    apply huris.refuses
    have hcolon := List.count_pos_iff.mpr ((target.host.colon_mem_iff).mpr hv6)
    have hcount := count_colon_hostAndPort target.host target.port.get
    rw [hostAndPort, hcount]
    omega
  have hscheme : uris.scheme target.protocol.name = true := by rw [hhttp]; exact huris.http
  have huri : targetUri uris target request.uri.query
      = .error (hostAndPort target ++ " is not a uri authority") := by
    unfold targetUri
    rw [hscheme, hauthority]
    rfl
  refine ⟨hauthority, ?_⟩
  rw [rewrite, huri]

/-- **The authority the gateway writes is the one it reads for every host but an ipv6 address.**  Of an
http target with any port, every request carries the authority, whatever port the reader takes for a
missing one, exactly when the host is not an ipv6 address. -/
theorem authority_reads_back {uris : UriRules} (huris : ReadsAuthorities uris) {target : Endpoint}
    (hhttp : target.protocol = .http) (request : HttpRequest) (defaultPort : UInt16) :
    CarriesAuthority uris request target defaultPort ↔ isIpv6 target.host.raw.toList = false := by
  constructor
  · intro hcarries
    cases hv6 : isIpv6 target.host.raw.toList with
    | false => rfl
    | true =>
      have hrefused := (rewrite_of_isIpv6 huris hhttp hv6 request).1
      rw [hcarries.1] at hrefused
      cases hrefused
  · intro hname
    have hauthority : uris.authority (hostAndPort target) = true := huris.named _ _ hname
    have hscheme : uris.scheme target.protocol.name = true := by rw [hhttp]; exact huris.http
    have huri := targetUri_eq_build hscheme hauthority request.uri.query
    have hcolon : ':' ∉ target.host.raw.toList := by
      rw [target.host.colon_mem_iff, hname]
      exact Bool.false_ne_true
    refine ⟨hauthority, ?_, ?_⟩
    · intro detail hbuild
      rw [rewrite, huri, hbuild]
    · intro uri hbuild
      obtain ⟨host, hhost, htext⟩ := toStr_of_fromText (all_headerChar_hostAndPort target)
      have hsent : ∃ sent, rewrite uris request target = .ok sent := by
        rw [rewrite, huri, hbuild, hhost]
        exact ⟨_, rfl⟩
      obtain ⟨sent, hsent⟩ := hsent
      obtain ⟨huri', ⟨host', hhost', hhosts⟩, -, -⟩ := rewrite_ok hsent
      cases hhost.symm.trans hhost'
      cases (hbuild.symm.trans huri.symm).trans huri'
      exact ⟨sent, host, hostAndPort target, hsent, rfl, hhosts, htext,
        splitAuthority_hostAndPort hcolon defaultPort⟩

/-! ### Uris that are read so -/

/-- The http uris whose authority has one colon outside brackets at most. -/
def oneColonUris : UriRules where
  scheme := fun scheme => scheme == Protocol.http.name
  authority := fun authority => (outsideBrackets authority.toList).count ':' ≤ 1
  build := fun scheme authority path => .ok ⟨some scheme, some authority, path, none⟩

theorem readsAuthorities_oneColonUris : ReadsAuthorities oneColonUris where
  http := by decide
  named := by
    intro host port hname
    have hcolon : ':' ∉ host.raw.toList := by
      rw [host.colon_mem_iff, hname]
      exact Bool.false_ne_true
    apply decide_eq_true
    rw [count_colon_hostAndPort, List.count_eq_zero.mpr hcolon]
  bracketed := by
    intro host port _
    have hclose : ']' ∉ host.raw.toList := fun hmem => absurd (host.hostChar_of_mem hmem) (by decide)
    have hlist : ("[" ++ host.raw ++ "]:" ++ toString port.toNat).toList
        = [] ++ '[' :: (host.raw.toList ++ ']' :: ':' :: (toString port.toNat).toList) := by simp
    have houtside : outsideBrackets ("[" ++ host.raw ++ "]:" ++ toString port.toNat).toList
        = ':' :: (toString port.toNat).toList := by
      rw [hlist, outsideBrackets, splitOnce_append List.not_mem_nil]
      dsimp only
      rw [splitOnce_append hclose]
      rfl
    apply decide_eq_true
    rw [houtside, List.count_cons_self, List.count_eq_zero.mpr (colon_notMem_toString _)]
  refuses := by
    intro text hcount
    exact decide_eq_false (Nat.not_le.mpr hcount)

/-- The loopback of ipv6 as a target. -/
def loopback6 : Endpoint := { listener with host := ⟨"::1", by decide, by decide⟩ }

/-- **A request to an ipv6 address is refused for the authority the gateway built of it.** -/
theorem ipv6_authority_refused :
    ReadsAuthorities oneColonUris ∧ loopback6.protocol = .http ∧
      rewrite oneColonUris (messagesRequest "GET" "beta=1") loopback6
        = .error ⟨.route, .malformed "::1:8080 is not a uri authority"⟩ ∧
      ¬ CarriesAuthority oneColonUris (messagesRequest "GET" "beta=1") loopback6 80 := by
  have hrefused := @rewrite_of_isIpv6 _ readsAuthorities_oneColonUris loopback6 rfl (by decide)
    (messagesRequest "GET" "beta=1")
  refine ⟨readsAuthorities_oneColonUris, rfl, ?_, ?_⟩
  · exact hrefused.2
  · intro hcarries
    rw [hcarries.1] at hrefused
    cases hrefused.1

/-- A request to the listener's ipv4 address carries its authority. -/
theorem listener_reads_back :
    isIpv6 listener.host.raw.toList = false ∧
      CarriesAuthority oneColonUris (messagesRequest "GET" "beta=1") listener 80 :=
  ⟨by decide, (authority_reads_back readsAuthorities_oneColonUris rfl _ _).mpr (by decide)⟩

end IntelliPrism.Gateway
