import IntelliPrism.Gateway.Table

/-!
# Routing is longest segment prefix

A table sorts the rules of one protocol, host and port by the bytes of their paths and takes the first that
claims a request.  A rule's path without its trailing slash is its prefix; what the request has behind it
is appended to the endpoints the rule sends to.

* `Matches` — a rule's prefix is the requested path, or is followed in it by a slash;
* `path_eq_of_tie` — two rules that match one request are never of the same length, unless they are of one
  path;
* `resolve_eq_some_iff` — **what a search finds**: the longest match, and where it sends the request;
* `resolve_longest_prefix` — the whole of it: found or not, which rule, which targets, in any order;
* `exact_match_untouched` — **when an exact match goes to its targets untouched**, and
  `exact_match_changed`: a path with a slash behind it does not.
-/

namespace IntelliPrism.Gateway

open IntelliPrism.Core IntelliPrism.Lib

/-! ### Which rules match -/

/-- A rule is for the protocol, host and port of the request, and its prefix is the requested path or is
followed in it by a slash. -/
def Matches (key : RouteKey) (rule : RouteRule) : Prop :=
  authority rule.key.endpoint = authority key.endpoint ∧
    SegmentPrefix (stripSlash rule.path.chars) key.endpoint.path.chars

theorem claims_iff {key : RouteKey} {rule : RouteRule} : claims key rule = true ↔ Matches key rule := by
  rw [claims, Bool.and_eq_true, beq_iff_eq, isSome_remainderOf]
  rfl

theorem eq_stripSlash (path : List Char) :
    path.getLast? = some '/' ∧ path = stripSlash path ++ ['/'] ∨
      path.getLast? ≠ some '/' ∧ path = stripSlash path := by
  rw [stripSlash]
  split
  · rename_i hslash
    exact .inl ⟨hslash, (List.dropLast_append_getLast? _ hslash).symm⟩
  · rename_i hslash
    exact .inr ⟨hslash, rfl⟩

/-- What stands at the front of a path that matches: the whole of the rule's path, unless the request is
the rule's prefix alone. -/
theorem take_of_segmentPrefix {path requested : List Char} (h : SegmentPrefix (stripSlash path) requested) :
    requested.take path.length = path ∨
      path = requested ++ ['/'] := by
  obtain ⟨rest, hrest, hslash⟩ := h
  rcases eq_stripSlash path with ⟨-, hpath⟩ | ⟨-, hpath⟩
  · rcases hslash with hnil | hslash
    · rw [hnil, List.append_nil] at hrest
      exact .inr (by rw [hrest]; exact hpath)
    · obtain ⟨tail, htail⟩ := List.head?_eq_some_iff.mp hslash
      left
      rw [hrest, htail, ← List.singleton_append, ← List.append_assoc, ← hpath, List.take_left]
  · left
    rw [hrest, ← hpath, List.take_left]

/-- **Two rules that match one request and are of one length are of one path.**  Where one has a slash at
its end that the other has not, the request would have to have that slash there too. -/
theorem path_eq_of_tie {key : RouteKey} {rule other : RouteRule} (hrule : Matches key rule)
    (hother : Matches key other) (hlength : pathLength rule = pathLength other) :
    rule.path = other.path := by
  apply AbsPath.ext
  apply String.toList_inj.mp
  show rule.path.chars = other.path.chars
  rw [pathLength_eq, pathLength_eq] at hlength
  rcases take_of_segmentPrefix hrule.2 with htake | hnext
  · rcases take_of_segmentPrefix hother.2 with htake' | hnext'
    · rw [← htake, ← htake', hlength]
    · exfalso
      have hlong := congrArg List.length hnext'
      have hshort := congrArg List.length htake
      rw [List.length_append, List.length_singleton] at hlong
      rw [List.length_take] at hshort
      omega
  · rcases take_of_segmentPrefix hother.2 with htake' | hnext'
    · exfalso
      have hlong := congrArg List.length hnext
      have hshort := congrArg List.length htake'
      rw [List.length_append, List.length_singleton] at hlong
      rw [List.length_take] at hshort
      omega
    · rw [hnext, hnext']

theorem key_eq_of_tie {key : RouteKey} {rule other : RouteRule} (hrule : Matches key rule)
    (hother : Matches key other) (hlength : pathLength rule = pathLength other) :
    rule.key = other.key := by
  have hpath := path_eq_of_tie hrule hother hlength
  have hauthority := hrule.1.trans hother.1.symm
  simp only [authority, Prod.mk.injEq] at hauthority
  obtain ⟨hprotocol, hhost, hport⟩ := hauthority
  have hendpoint : rule.key.endpoint = other.key.endpoint := by
    cases hr : rule.key.endpoint
    cases ho : other.key.endpoint
    simp_all [RouteRule.path]
  cases hr : rule.key
  cases ho : other.key
  simp_all

theorem stripSlash_le_of_length_le {key : RouteKey} {rule other : RouteRule} (hrule : Matches key rule)
    (hother : Matches key other) (hlength : pathLength other ≤ pathLength rule) :
    (stripSlash other.path.chars).length ≤ (stripSlash rule.path.chars).length := by
  rcases Nat.lt_or_eq_of_le hlength with hlt | heq
  · rw [pathLength_eq, pathLength_eq] at hlt
    have hshort := (length_stripSlash other.path.chars).1
    have hlong := (length_stripSlash rule.path.chars).2
    omega
  · rw [path_eq_of_tie hother hrule heq]

/-! ### Where a rule sends a request -/

/-- An endpoint as it is sent to: with the rest of the requested path behind its own, less a slash at the
end of that, and as it is when no rest is left. -/
def SentOn (rest : List Char) (target sent : Weighted) : Prop :=
  sent.weight = target.weight ∧ authority sent.endpoint = authority target.endpoint ∧
    sent.endpoint.path.chars = if rest = [] then target.endpoint.path.chars
      else stripSlash target.endpoint.path.chars ++ rest

theorem sentOn_of_joined {rest : List Char} {target sent : Weighted}
    (h : Weighted.joined rest target = some sent) : SentOn rest target sent := by
  obtain ⟨path, hpath, rfl⟩ := Option.map_eq_some_iff.mp h
  refine ⟨rfl, rfl, ?_⟩
  have hnew : AbsPath.new (String.ofList (join target.endpoint.path.chars rest)) = .ok path := by
    cases hcase : AbsPath.new (String.ofList (join target.endpoint.path.chars rest)) with
    | error error =>
      rw [hcase] at hpath
      cases hpath
    | ok new =>
      rw [hcase] at hpath
      exact congrArg Except.ok (Option.some.inj hpath)
  show path.raw.toList = _
  rw [AbsPath.raw_of_new hnew, String.toList_ofList, join]

/-- Where a rule sends a request: to its own endpoints in their order, each with the rest behind it. -/
theorem sentOn_of_sendTo {key : RouteKey} {location : ℕ} {rule : RouteRule} {resolution : Resolution}
    (h : sendTo key location rule = some resolution) : resolution.rule = rule ∧
      ∃ rest, key.endpoint.path.chars = stripSlash rule.path.chars ++ rest ∧
        List.Forall₂ (SentOn rest) rule.target.weighted resolution.targets := by
  refine ⟨rule_of_sendTo h, ?_⟩
  obtain ⟨rest, hrest, hsend⟩ := Option.bind_eq_some_iff.mp h
  obtain ⟨targets, htargets, hresolution⟩ := Option.map_eq_some_iff.mp hsend
  rw [← hresolution]
  refine ⟨rest, (remainderOf_eq_some.mp hrest).1, ?_⟩
  exact (forall₂_of_mapM htargets).imp fun _ _ => sentOn_of_joined

/-- What a rule says of a request does not depend on where its plan is. -/
theorem said_sendTo (key : RouteKey) (location other : ℕ) (rule : RouteRule) :
    (sendTo key location rule).map Resolution.said = (sendTo key other rule).map Resolution.said := by
  cases hsend : sendTo key location rule with
  | some resolution =>
    rw [sendTo_elsewhere hsend other]
    rfl
  | none =>
    cases hother : sendTo key other rule with
    | none => rfl
    | some resolution =>
      rw [sendTo_elsewhere hother location] at hsend
      cases hsend

/-! ### What a search finds -/

/-- **What a search finds**, where no two rules have one key: a match none is longer than, and where that
rule sends the request. -/
theorem resolve_eq_some_iff {rules : List RouteRule} (hdistinct : (rules.map RouteRule.key).Nodup)
    {key : RouteKey} {resolution : Resolution} :
    (RoutingTable.fromRules rules).resolve key = some resolution ↔
      ∃ rule ∈ rules, Matches key rule ∧
        (∀ other ∈ rules, Matches key other → pathLength other ≤ pathLength rule) ∧
        sendTo key (rules.idxOf rule) rule = some resolution := by
  rw [resolve_fromRules, Option.bind_eq_some_iff]
  constructor
  · rintro ⟨rule, hfound, hsend⟩
    have hclaims := List.find?_some hfound
    have hmem := (mem_heaviestFirst pathLength).mp (List.mem_of_find?_eq_some hfound)
    refine ⟨rule, hmem, claims_iff.mp hclaims, ?_, hsend⟩
    intro other hother hmatches
    exact ((find?_heaviestFirst pathLength).mp hfound).1 other hother (claims_iff.mpr hmatches)
  · rintro ⟨rule, hmem, hmatches, hlongest, hsend⟩
    refine ⟨rule, (find?_heaviestFirst pathLength).mpr ⟨?_, ?_⟩, hsend⟩
    · intro other hother hclaims
      exact hlongest other hother (claims_iff.mp hclaims)
    · -- what is found first is of the same length, so of the same key
      cases hfirst : rules.find? fun other => claims key other && pathLength other == pathLength rule with
      | none =>
        have hnot := List.find?_eq_none.mp hfirst rule hmem
        rw [claims_iff.mpr hmatches, beq_self_eq_true] at hnot
        exact absurd rfl hnot
      | some first =>
        have hboth := List.find?_some hfirst
        simp only [Bool.and_eq_true, beq_iff_eq] at hboth
        have hkey := key_eq_of_tie (claims_iff.mp hboth.1) hmatches hboth.2
        rw [List.inj_on_of_nodup_map hdistinct (List.mem_of_find?_eq_some hfirst) hmem hkey]

theorem exists_longest {rules : List RouteRule} {key : RouteKey}
    (h : ∃ rule ∈ rules, Matches key rule) : ∃ rule ∈ rules, Matches key rule ∧
      ∀ other ∈ rules, Matches key other → pathLength other ≤ pathLength rule := by
  obtain ⟨rule, hrule, hmatches⟩ := h
  cases hfound : (heaviestFirst pathLength rules).find? (claims key) with
  | none =>
    have hnot := List.find?_eq_none.mp hfound rule ((mem_heaviestFirst pathLength).mpr hrule)
    exact absurd (claims_iff.mpr hmatches) hnot
  | some longest =>
    refine ⟨longest, (mem_heaviestFirst pathLength).mp (List.mem_of_find?_eq_some hfound),
      claims_iff.mp (List.find?_some hfound), ?_⟩
    intro other hother hother'
    exact ((find?_heaviestFirst pathLength).mp hfound).1 other hother (claims_iff.mpr hother')

/-- **Routing is longest segment prefix.**  For rules of distinct keys: a rule is found exactly when one
matches and the longest match sends to paths that are short enough, so that where every match does a rule
is found exactly when one matches; the rule found has a prefix at least as long as every other match's; its
targets are its endpoints in their order and with their shares, each with the rest of the requested path
behind it; and the order of the rules does not matter to what is resolved, though each table makes plans of
its own. -/
theorem resolve_longest_prefix {rules : List RouteRule} (hdistinct : (rules.map RouteRule.key).Nodup)
    (key : RouteKey) :
    (((RoutingTable.fromRules rules).resolve key).isSome = true ↔
        ∃ rule ∈ rules, Matches key rule ∧
          (∀ other ∈ rules, Matches key other → pathLength other ≤ pathLength rule) ∧ Fits key rule) ∧
      ((∀ rule ∈ rules, Matches key rule → Fits key rule) →
        (((RoutingTable.fromRules rules).resolve key).isSome = true ↔ ∃ rule ∈ rules, Matches key rule)) ∧
      (∀ resolution, (RoutingTable.fromRules rules).resolve key = some resolution →
        resolution.rule ∈ rules ∧ Matches key resolution.rule ∧
          (∀ other ∈ rules, Matches key other →
            (stripSlash other.path.chars).length ≤ (stripSlash resolution.rule.path.chars).length) ∧
          ∃ rest, key.endpoint.path.chars = stripSlash resolution.rule.path.chars ++ rest ∧
            List.Forall₂ (SentOn rest) resolution.rule.target.weighted resolution.targets) ∧
      ∀ reordered : List RouteRule, reordered.Perm rules →
        ((RoutingTable.fromRules reordered).resolve key).map Resolution.said
          = ((RoutingTable.fromRules rules).resolve key).map Resolution.said := by
  have hfound : ((RoutingTable.fromRules rules).resolve key).isSome = true ↔
      ∃ rule ∈ rules, Matches key rule ∧
        (∀ other ∈ rules, Matches key other → pathLength other ≤ pathLength rule) ∧ Fits key rule := by
    rw [Option.isSome_iff_exists]
    constructor
    · rintro ⟨resolution, hresolved⟩
      obtain ⟨rule, hmem, hmatches, hlongest, hsend⟩ := (resolve_eq_some_iff hdistinct).mp hresolved
      exact ⟨rule, hmem, hmatches, hlongest,
        (isSome_sendTo _ (claims_iff.mpr hmatches)).mp (Option.isSome_iff_exists.mpr ⟨resolution, hsend⟩)⟩
    · rintro ⟨rule, hmem, hmatches, hlongest, hfits⟩
      obtain ⟨resolution, hsend⟩ :=
        Option.isSome_iff_exists.mp ((isSome_sendTo _ (claims_iff.mpr hmatches)).mpr hfits)
      exact ⟨resolution, (resolve_eq_some_iff hdistinct).mpr ⟨rule, hmem, hmatches, hlongest, hsend⟩⟩
  refine ⟨hfound, ?_, ?_, ?_⟩
  · intro hfits
    rw [hfound]
    constructor
    · rintro ⟨rule, hmem, hmatches, -⟩
      exact ⟨rule, hmem, hmatches⟩
    · intro hsome
      obtain ⟨rule, hmem, hmatches, hlongest⟩ := exists_longest hsome
      exact ⟨rule, hmem, hmatches, hlongest, hfits rule hmem hmatches⟩
  · intro resolution hresolved
    obtain ⟨rule, hmem, hmatches, hlongest, hsend⟩ := (resolve_eq_some_iff hdistinct).mp hresolved
    obtain ⟨rfl, hsent⟩ := sentOn_of_sendTo hsend
    refine ⟨hmem, hmatches, ?_, hsent⟩
    intro other hother hmatches'
    exact stripSlash_le_of_length_le hmatches hmatches' (hlongest other hother hmatches')
  · intro reordered hperm
    have hsearch : (heaviestFirst pathLength reordered).find? (claims key)
        = (heaviestFirst pathLength rules).find? (claims key) := by
      apply find?_heaviestFirst_perm pathLength hperm
      intro a ha b hb hclaims hclaims' hlength
      have hkey := key_eq_of_tie (claims_iff.mp hclaims) (claims_iff.mp hclaims') hlength
      exact List.inj_on_of_nodup_map hdistinct (hperm.mem_iff.mp ha) (hperm.mem_iff.mp hb) hkey
    rw [resolve_fromRules, resolve_fromRules, hsearch, Option.map_bind, Option.map_bind]
    exact congrArg (Option.bind _) (funext fun rule => said_sendTo ..)

/-- Two rules one below the other, in either order. -/
theorem resolve_longest_prefix_of_two :
    ([configuredRule, deeperRule].map RouteRule.key).Nodup ∧
      ((RoutingTable.fromRules [deeperRule, configuredRule]).resolve messagesKey).map Resolution.said
        = ((RoutingTable.fromRules [configuredRule, deeperRule]).resolve messagesKey).map Resolution.said ∧
      ∀ resolution, (RoutingTable.fromRules [configuredRule, deeperRule]).resolve messagesKey
          = some resolution →
        ∃ rest, messagesKey.endpoint.path.chars = stripSlash resolution.rule.path.chars ++ rest ∧
          List.Forall₂ (SentOn rest) resolution.rule.target.weighted resolution.targets := by
  have hdistinct : ([configuredRule, deeperRule].map RouteRule.key).Nodup := by decide +kernel
  obtain ⟨-, -, hsent, horder⟩ := resolve_longest_prefix hdistinct messagesKey
  refine ⟨hdistinct, horder _ (List.Perm.swap ..), ?_⟩
  intro resolution hresolved
  exact (hsent resolution hresolved).2.2.2

/-! ### Exact matches -/

/-- A rule matches its own key, with a slash left over when its path ends in one. -/
theorem remainderOf_self (path : AbsPath) : remainderOf path.chars path.chars
    = some (if path.chars.getLast? = some '/' then ['/'] else []) := by
  apply remainderOf_eq_some.mpr
  rcases eq_stripSlash path.chars with ⟨hslash, hpath⟩ | ⟨hslash, hpath⟩
  · rw [if_pos hslash]
    exact ⟨hpath, .inr rfl⟩
  · rw [if_neg hslash, List.append_nil]
    exact ⟨hpath, .inl rfl⟩

theorem matches_self (rule : RouteRule) : Matches rule.key rule := by
  refine ⟨rfl, isSome_remainderOf.mp ?_⟩
  rw [remainderOf_self]
  rfl

/-- A rule longer than the path it matches is that path with a slash behind it. -/
theorem longer_matches_iff {rule other : RouteRule} :
    Matches rule.key other ∧ pathLength rule < pathLength other ↔
      authority other.key.endpoint = authority rule.key.endpoint ∧
        other.path.chars = rule.path.chars ++ ['/'] := by
  rw [pathLength_eq, pathLength_eq]
  constructor
  · rintro ⟨hmatches, hlt⟩
    refine ⟨hmatches.1, ?_⟩
    rcases take_of_segmentPrefix hmatches.2 with htake | hnext
    · exfalso
      have hshort := congrArg List.length htake
      rw [List.length_take] at hshort
      have hmin := Nat.min_le_right other.path.chars.length rule.path.chars.length
      have hlt : rule.path.chars.length < other.path.chars.length := hlt
      have heq : min other.path.chars.length rule.path.chars.length = other.path.chars.length := hshort
      omega
    · exact hnext
  · rintro ⟨hauthority, hnext⟩
    have hstrip : stripSlash other.path.chars = rule.path.chars := by
      rw [hnext, stripSlash, if_pos List.getLast?_concat, List.dropLast_concat]
    refine ⟨⟨hauthority, [], ?_, .inl rfl⟩, ?_⟩
    · rw [hstrip, List.append_nil]
    · rw [hnext, List.length_append]
      exact Nat.lt_succ_self _

/-- **When a rule is the one found for its own key**: no rule has its path with a slash behind it, and it
is the first of its key. -/
theorem find?_self_iff {rules : List RouteRule} {rule : RouteRule} :
    (heaviestFirst pathLength rules).find? (claims rule.key) = some rule ↔
      rules.find? (fun other => other.key == rule.key) = some rule ∧
        ∀ other ∈ rules, authority other.key.endpoint = authority rule.key.endpoint →
          other.path.chars ≠ rule.path.chars ++ ['/'] := by
  have hsame : (fun other => claims rule.key other && pathLength other == pathLength rule)
      = fun other => other.key == rule.key := by
    funext other
    apply Bool.eq_iff_iff.mpr
    rw [Bool.and_eq_true, beq_iff_eq, beq_iff_eq, claims_iff]
    constructor
    · rintro ⟨hmatches, hlength⟩
      exact key_eq_of_tie hmatches (matches_self rule) hlength
    · intro hkey
      refine ⟨claims_iff.mp ?_, ?_⟩
      · rw [claims_of_key rule.key hkey]
        exact claims_iff.mpr (matches_self rule)
      · rw [pathLength, pathLength, RouteRule.path, RouteRule.path, hkey]
  rw [find?_heaviestFirst, Heaviest, hsame, and_comm]
  refine and_congr_right fun _ => forall₂_congr fun other _ => ?_
  rw [claims_iff]
  constructor
  · intro hle hauthority hnext
    obtain ⟨hmatches, hlt⟩ := longer_matches_iff.mpr ⟨hauthority, hnext⟩
    exact absurd (hle hmatches) (Nat.not_le.mpr hlt)
  · intro hnot hmatches
    apply Nat.not_lt.mp
    intro hlt
    obtain ⟨hauthority, hnext⟩ := longer_matches_iff.mp ⟨hmatches, hlt⟩
    exact hnot hauthority hnext

/-- An endpoint is sent to as it is exactly when joining leaves its path alone. -/
theorem joined_self_iff {rest : List Char} {target : Weighted} :
    Weighted.joined rest target = some target ↔
      join target.endpoint.path.chars rest = target.endpoint.path.chars := by
  constructor
  · intro h
    exact (sentOn_of_joined h).2.2.symm
  · intro h
    rw [Weighted.joined, h, String.ofList_toList, AbsPath.new_raw]
    rfl

/-- Where a rule sends its own key: to its endpoints untouched, unless the slash its path ends in is one
that an endpoint's path does not end in. -/
theorem sendTo_self_iff {rule : RouteRule} (location : ℕ) :
    (∃ resolution, sendTo rule.key location rule = some resolution ∧
        resolution.targets = rule.target.weighted) ↔
      (rule.path.chars.getLast? = some '/' →
        ∀ target ∈ rule.target.weighted, target.endpoint.path.chars.getLast? = some '/') := by
  have hsend : ∀ rest, (∃ resolution, (Planned.ofRule rule location).send rest = some resolution ∧
      resolution.targets = rule.target.weighted) ↔
        ∀ target ∈ rule.target.weighted,
          join target.endpoint.path.chars rest = target.endpoint.path.chars := by
    intro rest
    simp only [← joined_self_iff]
    rw [← mapM_self_iff]
    constructor
    · rintro ⟨resolution, hresolution, htargets⟩
      obtain ⟨targets, hmapped, rfl⟩ := Option.map_eq_some_iff.mp hresolution
      exact hmapped.trans (congrArg some htargets)
    · intro hmapped
      exact ⟨⟨rule, rule.target.weighted, _, location⟩, Option.map_eq_some_iff.mpr ⟨_, hmapped, rfl⟩, rfl⟩
  rw [sendTo, remainderOf_self, Option.bind_some, hsend]
  by_cases hslash : rule.path.chars.getLast? = some '/'
  · rw [if_pos hslash]
    simp only [hslash, true_implies]
    refine forall₂_congr fun target _ => ?_
    rw [join, if_neg (List.cons_ne_nil _ _)]
    rcases eq_stripSlash target.endpoint.path.chars with ⟨hends, hpath⟩ | ⟨hends, hpath⟩
    · exact iff_of_true hpath.symm hends
    · refine iff_of_false ?_ hends
      intro heq
      rw [← hpath] at heq
      exact absurd (congrArg List.length heq) (by simp)
  · rw [if_neg hslash]
    simp only [hslash, false_implies, iff_true]
    intro target _
    rfl

/-- **When an exact match goes to its targets untouched.**  A request for a rule's own key resolves to that
rule with its endpoints as they are exactly when it is the first rule of its key, no rule beside it has its
path with a slash behind it, and, where its path ends in a slash, so do the paths of its endpoints. -/
theorem exact_match_untouched {rules : List RouteRule} {rule : RouteRule} :
    (∃ resolution, (RoutingTable.fromRules rules).resolve rule.key = some resolution ∧
        resolution.rule = rule ∧ resolution.targets = rule.target.weighted) ↔
      (rules.find? (fun other => other.key == rule.key) = some rule ∧
        ∀ other ∈ rules, authority other.key.endpoint = authority rule.key.endpoint →
          other.path.chars ≠ rule.path.chars ++ ['/']) ∧
      (rule.path.chars.getLast? = some '/' →
        ∀ target ∈ rule.target.weighted, target.endpoint.path.chars.getLast? = some '/') := by
  rw [← find?_self_iff, ← sendTo_self_iff (rules.idxOf rule), resolve_fromRules]
  constructor
  · rintro ⟨resolution, hresolved, hrule, htargets⟩
    obtain ⟨found, hfound, hsend⟩ := Option.bind_eq_some_iff.mp hresolved
    rw [rule_of_sendTo hsend] at hrule
    rw [hrule] at hfound hsend
    exact ⟨hfound, resolution, hsend, htargets⟩
  · rintro ⟨hfound, resolution, hsend, htargets⟩
    refine ⟨resolution, ?_, rule_of_sendTo hsend, htargets⟩
    rw [hfound]
    exact hsend

/-- **An exact match is not always untouched.**  A rule whose path ends in a slash adds that slash to the
path of its endpoint; and beside such a rule, the rule without the slash does not get its own requests. -/
theorem exact_match_changed :
    (∃ resolution, (RoutingTable.fromRules [slashedRule]).resolve slashedRule.key = some resolution ∧
        resolution.rule = slashedRule ∧
        slashedRule.target.weighted.map (fun target => target.endpoint.path.raw) = ["/v1"] ∧
        resolution.targets.map (fun target => target.endpoint.path.raw) = ["/v1/"]) ∧
      ∃ resolution, (RoutingTable.fromRules [configuredRule, slashedRule]).resolve configuredRule.key
          = some resolution ∧ resolution.rule = slashedRule ∧ slashedRule ≠ configuredRule := by
  have hadded : ((RoutingTable.fromRules [slashedRule]).resolve slashedRule.key).any (fun resolution =>
      resolution.rule == slashedRule &&
        resolution.targets.map (fun target => target.endpoint.path.raw) == ["/v1/"]) = true := by
    decide +kernel
  have hbeside : ((RoutingTable.fromRules [configuredRule, slashedRule]).resolve configuredRule.key).any
      (fun resolution => resolution.rule == slashedRule) = true := by decide +kernel
  obtain ⟨sent, hsent, htest⟩ := (Option.any_eq_true _ _).mp hadded
  obtain ⟨hrule, hpaths⟩ := Bool.and_eq_true_iff.mp htest
  obtain ⟨taken, htaken, hother⟩ := (Option.any_eq_true _ _).mp hbeside
  exact ⟨⟨sent, hsent, beq_iff_eq.mp hrule, rfl, beq_iff_eq.mp hpaths⟩,
    taken, htaken, beq_iff_eq.mp hother, by decide +kernel⟩

/-- Beside a rule one segment below it, a rule gets its own requests and passes them on untouched. -/
theorem exact_match_untouched_configured :
    ∃ resolution, (RoutingTable.fromRules [configuredRule, deeperRule]).resolve configuredRule.key
        = some resolution ∧ resolution.rule = configuredRule ∧
      resolution.targets = configuredRule.target.weighted :=
  exact_match_untouched.mpr ⟨by decide +kernel, by decide +kernel⟩

end IntelliPrism.Gateway
