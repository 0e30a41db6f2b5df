import IntelliPrism.Core.Id
import IntelliPrism.Lib.Text
import Mathlib.Tactic.SplitIfs
import Mathlib.Tactic.Tauto

/-!
# Routing rules

The values of `ip-core` a rule is made of: a protocol, a host, a port and a path make an endpoint, and a
rule says which endpoint a request arrives at and which endpoints it may be sent to.  Each value carries
what its constructor checks.

* `Host`, `Port`, `AbsPath` — a host held in lowercase, a port that is not zero, a path that starts with
  a slash and is written in visible ascii without a query or a fragment;
* `Endpoint.display` — how an endpoint is written: scheme, host, port and path one after the other, and
  `Endpoint.display_injective`, that two endpoints are never written alike;
* `RouteTarget`, `RouteRule` — where a rule sends a request, always somewhere.
-/

namespace IntelliPrism.Core

open IntelliPrism.Lib

/-! ### Protocols -/

/-- The wire protocol one end of a route speaks. -/
inductive Protocol where
  | http
  | https
  | ws
  | wss
  | tcp
  deriving Repr, DecidableEq

def Protocol.name : Protocol → String
  | .http => "http"
  | .https => "https"
  | .ws => "ws"
  | .wss => "wss"
  | .tcp => "tcp"

/-- The scheme as a routing rule spells it. -/
def Protocol.asStr : Protocol → String
  | .http => "http://"
  | .https => "https://"
  | .ws => "ws://"
  | .wss => "wss://"
  | .tcp => "tcp"

theorem Protocol.name_injective : Function.Injective Protocol.name := by
  intro p q
  cases p <;> cases q <;> decide

/-- Whether this build carries requests of this protocol. -/
def Protocol.isForwarded : Protocol → Bool
  | .http | .https => true
  | _ => false

/-! ### Hosts -/

def hostMaxBytes : ℕ := 253

def hostLabelMaxBytes : ℕ := 63

/-- One part of an ipv4 address: a number below 256 that is written without a leading zero. -/
def isOctet (part : List Char) : Bool :=
  !part.isEmpty && part.length ≤ 3 && part.all Char.isDigit &&
    (part.length == 1 || part.head? != some '0') &&
    part.foldl (fun value digit => value * 10 + (digit.toNat - '0'.toNat)) 0 < 256

/-- `Ipv4Addr`: four numbers with dots between them. -/
def isIpv4 (raw : List Char) : Bool :=
  (raw.splitOn '.').length == 4 && (raw.splitOn '.').all isOctet

/-- One part of an ipv6 address: up to four hexadecimal digits. -/
def isGroup (part : List Char) : Bool :=
  !part.isEmpty && part.length ≤ 4 &&
    part.all fun c => c.isDigit || ('a' ≤ c && c ≤ 'f') || ('A' ≤ c && c ≤ 'F')

/-- How many groups parts stand for, when the last of them may be an ipv4 address and stand for two. -/
def groupsOf : List (List Char) → Option ℕ
  | [] => some 0
  | [last] => if isGroup last then some 1 else if isIpv4 last then some 2 else none
  | part :: rest => if isGroup part then (groupsOf rest).map (· + 1) else none

/-- What stands before and after the first double colon. -/
def splitDouble : List Char → Option (List Char × List Char)
  | ':' :: ':' :: rest => some ([], rest)
  | c :: rest => (splitDouble rest).map fun halves => (c :: halves.1, halves.2)
  | [] => none

/-- The parts of half an address, of which an empty half has none. -/
def partsOf (half : List Char) : List (List Char) := if half = [] then [] else half.splitOn ':'

/-- `Ipv6Addr`: eight groups with colons between them, or fewer around one double colon. -/
def isIpv6 (raw : List Char) : Bool :=
  match splitDouble raw with
  | none => groupsOf (raw.splitOn ':') == some 8
  | some (front, back) =>
    (partsOf front).all isGroup &&
      (groupsOf (partsOf back)).any fun width => (partsOf front).length + width ≤ 7

def validateLabel (label : List Char) : Except CoreError Unit :=
  if label = [] then .error (.empty "host label")
  else if (String.ofList label).utf8ByteSize > hostLabelMaxBytes then
    .error (.tooLong "host label" (String.ofList label).utf8ByteSize hostLabelMaxBytes)
  else if label.head? = some '-' ∨ label.getLast? = some '-' then .error (.illegalChar "host label" '-')
  else
    match label.find? fun ch => !(ch.isAlphanum || ch == '-') with
    | some ch => .error (.illegalChar "host label" ch)
    | none => .ok ()

def validateHost (raw : String) : Except CoreError Unit :=
  if raw = "" then .error (.empty "host")
  else if raw.utf8ByteSize > hostMaxBytes then .error (.tooLong "host" raw.utf8ByteSize hostMaxBytes)
  else if isIpv4 raw.toList || isIpv6 raw.toList then .ok ()
  else (raw.toList.splitOn '.').forM validateLabel

/-- A hostname or ip address, held in lowercase. -/
@[ext] structure Host where
  raw : String
  lower : raw.toList.all (fun c => !c.isUpper) = true
  valid : (validateHost raw).isOk = true

instance : DecidableEq Host := fun _ _ => decidable_of_iff _ Host.ext_iff.symm

theorem isUpper_toLower (c : Char) : c.toLower.isUpper = false := by
  unfold Char.toLower Char.isUpper
  split
  · rename_i h
    have hlow : 65 ≤ c.val.toNat := h.1
    have hhigh : c.val.toNat ≤ 90 := h.2
    simp only [decide_eq_false_iff_not, ge_iff_le, UInt32.le_iff_toNat_le, UInt32.toNat_add]
    show ¬(65 ≤ (c.val.toNat + 32) % 2 ^ 32 ∧ (c.val.toNat + 32) % 2 ^ 32 ≤ 90)
    omega
  · rename_i h
    exact decide_eq_false h

theorem lower_map_toLower (raw : String) :
    (raw.map Char.toLower).toList.all (fun c => !c.isUpper) = true := by
  rw [String.toList_map, List.all_map]
  apply List.all_eq_true.mpr
  intro c _
  show (!c.toLower.isUpper) = true
  rw [isUpper_toLower]
  rfl

/-- Validates a hostname or ip address and folds it to lowercase. -/
def Host.new (raw : String) : Except CoreError Host :=
  let folded := raw.map Char.toLower
  match h : validateHost folded with
  | .error error => .error error
  | .ok () => .ok ⟨folded, lower_map_toLower raw, by rw [h]; rfl⟩

/-! ### How a host is written -/

/-- The characters a host is written in. -/
def hostChar (c : Char) : Bool := c.isAlphanum || c == '-' || c == '.' || c == ':'

/-- The characters of a host that is no ipv6 address. -/
def nameChar (c : Char) : Bool := c.isAlphanum || c == '-' || c == '.'

theorem hostChar_of_nameChar {c : Char} (h : nameChar c = true) : hostChar c = true := by
  rw [hostChar, show (c.isAlphanum || c == '-' || c == '.') = true from h, Bool.true_or]

theorem nameChar_of_isIpv4 {raw : List Char} (h : isIpv4 raw = true) : ∀ c ∈ raw, nameChar c = true := by
  intro c hc
  simp only [isIpv4, Bool.and_eq_true, List.all_eq_true] at h
  rcases mem_splitOn '.' hc with hdot | hpart
  · simp [nameChar, hdot]
  · obtain ⟨part, hmem, hin⟩ := hpart
    have hoctet := h.2 part hmem
    simp only [isOctet, Bool.and_eq_true, List.all_eq_true] at hoctet
    have halnum : c.isAlphanum = (c.isUpper || c.isLower || c.isDigit) := rfl
    simp [nameChar, halnum, hoctet.1.1.2 c hin]

theorem hostChar_of_isGroup {part : List Char} (h : isGroup part = true) :
    ∀ c ∈ part, hostChar c = true := by
  intro c hc
  simp only [isGroup, Bool.and_eq_true, List.all_eq_true] at h
  have hdigit := h.2 c hc
  have hletter : c.isDigit = true ∨ c.isLower = true ∨ c.isUpper = true := by
    simp only [Bool.or_eq_true, Bool.and_eq_true, decide_eq_true_eq] at hdigit
    rcases hdigit with (hdigit | hlower) | hupper
    · exact .inl hdigit
    · exact .inr (.inl (Bool.and_eq_true_iff.mpr
        ⟨decide_eq_true hlower.1, decide_eq_true (Char.le_trans hlower.2 (by decide))⟩))
    · exact .inr (.inr (decide_eq_true ⟨hupper.1, Char.le_trans hupper.2 (by decide)⟩))
  have halnum : c.isAlphanum = (c.isUpper || c.isLower || c.isDigit) := rfl
  simp only [hostChar, halnum, Bool.or_eq_true]
  tauto

theorem hostChar_of_groupsOf {parts : List (List Char)} {width : ℕ} (h : groupsOf parts = some width) :
    ∀ part ∈ parts, ∀ c ∈ part, hostChar c = true := by
  induction parts generalizing width with
  | nil => intro part hpart; cases hpart
  | cons part rest ih =>
    cases rest with
    | nil =>
      intro last hlast
      rw [List.mem_singleton.mp hlast]
      rw [groupsOf] at h
      split at h
      · rename_i hgroup
        exact hostChar_of_isGroup hgroup
      · split at h
        · rename_i hv4
          exact fun c hc => hostChar_of_nameChar (nameChar_of_isIpv4 hv4 c hc)
        · cases h
    | cons next rest =>
      rw [groupsOf] at h
      · split at h
        · rename_i hgroup
          obtain ⟨later, hlater, -⟩ := Option.map_eq_some_iff.mp h
          intro one hone
          rcases List.mem_cons.mp hone with hfirst | hrest
          · rw [hfirst]
            exact hostChar_of_isGroup hgroup
          · exact ih hlater one hrest
        · cases h
      · intro hnil
        cases hnil

theorem splitDouble_eq {raw front back : List Char} (h : splitDouble raw = some (front, back)) :
    raw = front ++ ':' :: ':' :: back := by
  fun_induction splitDouble raw generalizing front with
  | case1 rest =>
    cases h
    rfl
  | case2 c rest _ ih =>
    obtain ⟨halves, hhalves, heq⟩ := Option.map_eq_some_iff.mp h
    cases heq
    rw [ih hhalves]
    rfl
  | case3 => cases h

/-- Parts with colons between them are written as a host is when each part is. -/
theorem hostChar_of_parts {half : List Char}
    (h : ∀ part ∈ half.splitOn ':', ∀ c ∈ part, hostChar c = true) : ∀ c ∈ half, hostChar c = true := by
  intro c hc
  rcases mem_splitOn ':' hc with hcolon | hpart
  · simp [hostChar, hcolon]
  · obtain ⟨part, hmem, hin⟩ := hpart
    exact h part hmem c hin

theorem hostChar_of_isIpv6 {raw : List Char} (h : isIpv6 raw = true) : ∀ c ∈ raw, hostChar c = true := by
  have hhalf : ∀ half : List Char, (∀ part ∈ partsOf half, ∀ c ∈ part, hostChar c = true) →
      ∀ c ∈ half, hostChar c = true := by
    intro half hparts c hc
    have hne : half ≠ [] := List.ne_nil_of_mem hc
    rw [partsOf, if_neg hne] at hparts
    exact hostChar_of_parts hparts c hc
  rw [isIpv6] at h
  split at h
  · exact hostChar_of_parts (hostChar_of_groupsOf (beq_iff_eq.mp h))
  · rename_i front back hsplit
    simp only [Bool.and_eq_true, List.all_eq_true] at h
    have hfront := hhalf front fun part hpart => hostChar_of_isGroup (h.1 part hpart)
    have hback := hhalf back <| by
      obtain ⟨width, hwidth, -⟩ := (Option.any_eq_true _ _).mp h.2
      exact hostChar_of_groupsOf hwidth
    intro c hc
    rw [splitDouble_eq hsplit] at hc
    simp only [List.mem_append, List.mem_cons] at hc
    rcases hc with hc | hc | hc | hc
    · exact hfront c hc
    · simp [hostChar, hc]
    · simp [hostChar, hc]
    · exact hback c hc

/-- An ipv6 address has a colon in it: its groups are eight, or stand around a double colon. -/
theorem colon_mem_of_isIpv6 {raw : List Char} (h : isIpv6 raw = true) : ':' ∈ raw := by
  rw [isIpv6] at h
  split at h
  · apply Classical.byContradiction
    intro hcolon
    rw [List.splitOn_eq_singleton hcolon, groupsOf] at h
    split_ifs at h <;> simp at h
  · rename_i front back hsplit
    rw [splitDouble_eq hsplit]
    simp

theorem forM_isOk {ε α : Type} {f : α → Except ε Unit} {l : List α}
    (h : (l.forM f).isOk = true) : ∀ a ∈ l, (f a).isOk = true := by
  induction l with
  | nil => intro a ha; cases ha
  | cons b l ih =>
    cases hb : f b with
    | error e => simp only [List.forM, hb] at h; cases h
    | ok u =>
      simp only [List.forM, hb] at h
      intro a ha
      rcases List.mem_cons.mp ha with rfl | ha
      · rw [hb]; rfl
      · exact ih h a ha

theorem Host.written (host : Host) :
    isIpv6 host.raw.toList = true ∨ ∀ c ∈ host.raw.toList, nameChar c = true := by
  have hvalid := host.valid
  rw [validateHost] at hvalid
  split at hvalid
  · cases hvalid
  · split at hvalid
    · cases hvalid
    · split at hvalid
      · rename_i hip
        rcases Bool.or_eq_true_iff.mp hip with hv4 | hv6
        · exact .inr (nameChar_of_isIpv4 hv4)
        · exact .inl hv6
      · refine .inr fun c hc => ?_
        rcases mem_splitOn '.' hc with hdot | hpart
        · simp [nameChar, hdot]
        · obtain ⟨part, hmem, hin⟩ := hpart
          have hlabel := forM_isOk hvalid part hmem
          rw [validateLabel] at hlabel
          split_ifs at hlabel
          · cases hlabel
          · cases hlabel
          · cases hlabel
          · split at hlabel
            · cases hlabel
            · rename_i hnone
              have := List.find?_eq_none.mp hnone c hin
              simp only [Bool.not_eq_true', Bool.not_eq_false, Bool.or_eq_true] at this
              simp only [nameChar, Bool.or_eq_true]
              exact .inl this

/-- **A host is written in letters, digits, hyphens, dots and colons**, whichever kind of host it is. -/
theorem Host.hostChar_of_mem (host : Host) {c : Char} (h : c ∈ host.raw.toList) : hostChar c = true := by
  rcases host.written with hv6 | hname
  · exact hostChar_of_isIpv6 hv6 c h
  · exact hostChar_of_nameChar (hname c h)

/-- **The hosts with a colon in them are the ipv6 addresses.** -/
theorem Host.colon_mem_iff (host : Host) : ':' ∈ host.raw.toList ↔ isIpv6 host.raw.toList = true := by
  constructor
  · intro hcolon
    rcases host.written with hv6 | hname
    · exact hv6
    · exact absurd (hname ':' hcolon) (by decide)
  · exact colon_mem_of_isIpv6

theorem Host.short (host : Host) : host.raw.utf8ByteSize ≤ hostMaxBytes := by
  have hvalid := host.valid
  rw [validateHost] at hvalid
  split at hvalid
  · cases hvalid
  · split at hvalid
    · cases hvalid
    · rename_i hlong
      exact Nat.not_lt.mp hlong

/-! ### Ports and paths -/

/-- A tcp port, which is never zero. -/
structure Port where
  get : UInt16
  nonzero : get ≠ 0
  deriving DecidableEq

theorem Port.eq_of_get {p q : Port} (h : p.get = q.get) : p = q := by
  cases p
  cases q
  simp only at h
  subst h
  rfl

/-- Wraps a port after refusing zero. -/
def Port.new (value : UInt16) : Except CoreError Port :=
  if h : value = 0 then .error .zeroPort else .ok ⟨value, h⟩

def pathMaxBytes : ℕ := 2048

/-- The characters a path is made of. -/
def pathChar (ch : Char) : Bool := isAsciiGraphic ch && ch != '?' && ch != '#'

/-- An absolute path.  The fields that are proofs are what `validate_path` checks. -/
@[ext] structure AbsPath where
  raw : String
  rooted : raw.toList.head? = some '/'
  short : raw.utf8ByteSize ≤ pathMaxBytes
  legal : raw.toList.find? (fun ch => !pathChar ch) = none

instance : DecidableEq AbsPath := fun _ _ => decidable_of_iff _ AbsPath.ext_iff.symm

/-- Validates a path that must be absolute and carry no query or fragment. -/
def AbsPath.new (raw : String) : Except CoreError AbsPath :=
  if raw = "" then .error (.empty "path")
  else if hrooted : raw.toList.head? = some '/' then
    if hlong : raw.utf8ByteSize > pathMaxBytes then
      .error (.tooLong "path" raw.utf8ByteSize pathMaxBytes)
    else
      match hlegal : raw.toList.find? fun ch => !pathChar ch with
      | some ch => .error (.illegalChar "path" ch)
      | none => .ok ⟨raw, hrooted, Nat.not_lt.mp hlong, hlegal⟩
  else .error (.mustStartWith "path" '/')

theorem AbsPath.raw_of_new {raw : String} {path : AbsPath} (h : AbsPath.new raw = .ok path) :
    path.raw = raw := by
  rw [AbsPath.new] at h
  split_ifs at h
  split at h
  · cases h
  · cases h
    rfl

theorem AbsPath.new_raw (path : AbsPath) : AbsPath.new path.raw = .ok path := by
  have hne : path.raw ≠ "" := by
    intro hempty
    have hrooted := path.rooted
    rw [hempty] at hrooted
    cases hrooted
  rw [AbsPath.new, if_neg hne, dif_pos path.rooted, dif_neg (Nat.not_lt.mpr path.short)]
  split
  · rename_i ch hfound
    rw [path.legal] at hfound
    cases hfound
  · rfl

abbrev AbsPath.chars (path : AbsPath) : List Char := path.raw.toList

/-- The path prefix the gateway keeps for its own endpoints. -/
def reservedPathPrefix : String := "/_ip"

/-- Whether this path lies inside the prefix the gateway keeps for itself. -/
def AbsPath.isReserved (path : AbsPath) : Bool :=
  reservedPathPrefix.toList.isPrefixOf path.chars &&
    ((path.chars.drop 4).isEmpty || (path.chars.drop 4).head? == some '/')

theorem AbsPath.pathChar_of_mem (path : AbsPath) {ch : Char} (h : ch ∈ path.chars) :
    pathChar ch = true := by
  have := List.find?_eq_none.mp path.legal ch h
  simpa using this

/-! ### Endpoints and rules -/

/-- One end of a route: what to speak, where, and at what path. -/
structure Endpoint where
  protocol : Protocol
  host : Host
  port : Port
  path : AbsPath
  deriving DecidableEq

theorem Endpoint.eq_iff {a b : Endpoint} :
    a = b ↔ a.protocol = b.protocol ∧ a.host = b.host ∧ a.port = b.port ∧ a.path = b.path := by
  cases a
  cases b
  exact Endpoint.mk.injEq .. ▸ Iff.rfl

def Endpoint.display (endpoint : Endpoint) : String :=
  endpoint.protocol.asStr ++ endpoint.host.raw ++ ":" ++ toString endpoint.port.get.toNat ++
    endpoint.path.raw

/-- Which endpoint behind a rule answered. -/
structure Replica where
  host : Host
  port : Port
  deriving DecidableEq

/-- Names the endpoint a request was sent to. -/
def Replica.of (endpoint : Endpoint) : Replica := ⟨endpoint.host, endpoint.port⟩

/-- The endpoint a request arrives at, which a rule is looked up by. -/
structure RouteKey where
  endpoint : Endpoint
  deriving DecidableEq

theorem RouteKey.eq_of_endpoint {a b : RouteKey} (h : a.endpoint = b.endpoint) : a = b := by
  cases a
  cases b
  exact congrArg RouteKey.mk h

/-- How much of a rule's traffic one endpoint takes. -/
structure Weight where
  get : UInt32
  deriving DecidableEq

/-- Whether this endpoint is to be sent nothing. -/
def Weight.isDrained (weight : Weight) : Bool := weight.get == 0

/-- One endpoint behind a target, and the share of the rule's traffic it takes. -/
structure Weighted where
  endpoint : Endpoint
  weight : Weight
  deriving DecidableEq

/-- How a request is dispatched across the endpoints behind one target. -/
inductive Strategy where
  | roundRobin
  | leastLoad
  | ratio
  deriving Repr, DecidableEq

/-- The endpoints a matched request may be sent to, of which there is always at least one. -/
@[ext] structure RouteTarget where
  weighted : List Weighted
  nonempty : weighted ≠ []

instance : DecidableEq RouteTarget := fun _ _ => decidable_of_iff _ RouteTarget.ext_iff.symm

/-- Wraps every endpoint standing behind one target, refusing an empty list. -/
def RouteTarget.fromWeighted (weighted : List Weighted) : Except CoreError RouteTarget :=
  if h : weighted = [] then .error .noEndpoint else .ok ⟨weighted, h⟩

/-- A routing rule: what arrives, and where it goes. -/
structure RouteRule where
  api : ApiId
  key : RouteKey
  target : RouteTarget
  strategy : Strategy
  deriving DecidableEq

abbrev RouteRule.path (rule : RouteRule) : AbsPath := rule.key.endpoint.path

/-! ### How an endpoint is written -/

theorem Protocol.asStr_append_inj {p q : Protocol} {a b : List Char}
    (h : p.asStr.toList ++ a = q.asStr.toList ++ b) : p = q ∧ a = b := by
  by_cases hsame : p = q
  · rw [hsame] at h
    exact ⟨hsame, List.append_cancel_left h⟩
  · exfalso
    cases p <;> cases q <;> simp [Protocol.asStr] at h hsame

theorem AbsPath.chars_eq (path : AbsPath) : path.chars = '/' :: path.chars.tail := by
  obtain ⟨rest, hrest⟩ := List.head?_eq_some_iff.mp path.rooted
  show path.raw.toList = '/' :: path.raw.toList.tail
  rw [hrest]
  rfl

/-- The host and the port of an endpoint, as it is written. -/
def Endpoint.authorityChars (endpoint : Endpoint) : List Char :=
  endpoint.host.raw.toList ++ ':' :: (toString endpoint.port.get.toNat).toList

theorem Endpoint.slash_notMem_authorityChars (endpoint : Endpoint) :
    '/' ∉ endpoint.authorityChars := by
  intro hslash
  rcases List.mem_append.mp hslash with hhost | hport
  · exact absurd (endpoint.host.hostChar_of_mem hhost) (by decide)
  · rcases List.mem_cons.mp hport with hcolon | hdigit
    · exact absurd hcolon (by decide)
    · exact absurd (isDigit_of_mem_toString hdigit) (by decide)

theorem Endpoint.toList_display (endpoint : Endpoint) :
    endpoint.display.toList
      = endpoint.protocol.asStr.toList ++ (endpoint.authorityChars ++ '/' :: endpoint.path.chars.tail) := by
  rw [← AbsPath.chars_eq]
  simp [Endpoint.display, Endpoint.authorityChars]

theorem Endpoint.authorityChars_inj {a b : Endpoint} (h : a.authorityChars = b.authorityChars) :
    a.host = b.host ∧ a.port = b.port := by
  have hcolon : ∀ n : ℕ, ':' ∉ (toString n).toList.reverse := by
    intro n hmem
    exact absurd (isDigit_of_mem_toString (List.mem_reverse.mp hmem)) (by decide)
  have hreverse := congrArg List.reverse h
  simp only [Endpoint.authorityChars, List.reverse_append, List.reverse_cons, List.append_assoc,
    List.singleton_append] at hreverse
  obtain ⟨hport, hhost⟩ := append_cons_inj (hcolon _) (hcolon _) hreverse
  constructor
  · exact Host.ext (String.toList_inj.mp (List.reverse_inj.mp hhost))
  · have hget : a.port.get.toNat = b.port.get.toNat :=
      toString_injective (String.toList_inj.mp (List.reverse_inj.mp hport))
    exact Port.eq_of_get (UInt16.toNat_inj.mp hget)

/-- **Endpoints written alike are the same.** -/
theorem Endpoint.display_injective : Function.Injective Endpoint.display := by
  intro a b h
  have hlist := congrArg String.toList h
  rw [a.toList_display, b.toList_display] at hlist
  obtain ⟨hprotocol, hlist⟩ := Protocol.asStr_append_inj hlist
  obtain ⟨hauthority, htail⟩ :=
    append_cons_inj a.slash_notMem_authorityChars b.slash_notMem_authorityChars hlist
  obtain ⟨hhost, hport⟩ := Endpoint.authorityChars_inj hauthority
  have hpath : a.path = b.path := by
    apply AbsPath.ext
    apply String.toList_inj.mp
    show a.path.chars = b.path.chars
    rw [a.path.chars_eq, b.path.chars_eq, htail]
  exact Endpoint.eq_iff.mpr ⟨hprotocol, hhost, hport, hpath⟩

theorem Endpoint.display_short (endpoint : Endpoint) : endpoint.display.utf8ByteSize < 4096 := by
  have hprotocol : endpoint.protocol.asStr.utf8ByteSize ≤ 8 := by
    cases endpoint.protocol <;> decide
  have hport : (toString endpoint.port.get.toNat).utf8ByteSize ≤ 5 := by
    rw [Nat.toString_eq_repr, Nat.repr, utf8ByteSize_ofList]
    · exact (Nat.length_toDigits_le_iff (by decide) (by decide)).mpr
        (Nat.lt_of_lt_of_le endpoint.port.get.toNat_lt (by decide))
    · intro ch hch
      have hdigit := Nat.isDigit_of_mem_toDigits (by decide) (by decide) hch
      simp only [Char.isDigit, Bool.and_eq_true, decide_eq_true_eq] at hdigit
      have : ch.val.toNat ≤ 57 := hdigit.2
      show ch.val.toNat < 128
      omega
  have hhost : endpoint.host.raw.utf8ByteSize ≤ 253 := endpoint.host.short
  have hpath : endpoint.path.raw.utf8ByteSize ≤ 2048 := endpoint.path.short
  have hcolon : ":".utf8ByteSize = 1 := rfl
  simp only [Endpoint.display, String.utf8ByteSize_append, hcolon]
  omega

end IntelliPrism.Core
