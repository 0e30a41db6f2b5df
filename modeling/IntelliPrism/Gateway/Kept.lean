import IntelliPrism.Cache.Eviction
import IntelliPrism.Gateway.Answers
import IntelliPrism.Gateway.Hops

/-!
# Answers that may not be kept

A response says in its `Cache-Control` lines that it may not be kept: `no-store`, `no-cache` or `private`,
in any case, on any of the lines and anywhere in the list a line spells.  The gateway reads the first line
alone, and only when it is text, and compares its directives letter by letter.

* `Forbids` — what a response says of being kept, byte by byte;
* `Flow.keep` — the one call the gateway makes on the response cache for an answer from upstream;
* `controlled_eq_never` — which directives the gateway takes to forbid it;
* `never_kept_iff` — **an answer is never kept** exactly when its first line says so in lowercase, or names
  an age of nothing.
-/

namespace IntelliPrism.Gateway

open IntelliPrism.Core IntelliPrism.Lib IntelliPrism.Cache

/-- The directives that let no shared cache keep a response. -/
def forbidding : List String := ["no-store", "no-cache", "private"]

/-- A `Cache-Control` line carries one of them, in some case. -/
def Forbids (headers : HeaderMap) : Prop :=
  ∃ value ∈ headers.getAll .cacheControl, ∃ element ∈ elements value.bytes, ∃ word ∈ forbidding,
    spellsAnyCase word element = true

instance (headers : HeaderMap) : Decidable (Forbids headers) :=
  inferInstanceAs (Decidable (∃ value ∈ headers.getAll .cacheControl, _))

/-- What the gateway asks of the response cache once upstream has answered: to put what may be kept, under
the key the request was looked up by, and nothing else. -/
def Flow.keep (parseDate : String → Option SystemTime) (now : SystemTime) (default : Ttl) (key : CacheKey)
    (flow : Flow .responseBodyProcessed) : Option Call :=
  match flow.cacheable parseDate now default with
  | .ok (some (answer, ttl), _) => some (.put key answer.encode (some ttl))
  | _ => none

/-! ### What the gateway takes to forbid keeping -/

/-- The directives the gateway reads: those of the first line, when it is text. -/
def directives (headers : HeaderMap) : Option (List (List Char)) :=
  ((headers.get .cacheControl).bind HeaderValue.toStr).map fun text => (text.toList.splitOn ',').map trimText

/-- What follows the first `max-age=`. -/
def maxAge (directives : List (List Char)) : Option (List Char) :=
  directives.findSome? fun directive =>
    if "max-age=".toList.isPrefixOf directive then some (directive.drop 8) else none

/-- The directives forbid keeping, in lowercase, or the first age they name is nothing. -/
def SaysNever (directives : List (List Char)) : Prop :=
  (∃ directive ∈ directives, ∃ word ∈ forbidding, directive = word.toList) ∨
    ∃ seconds, maxAge directives = some seconds ∧ parseBelow (2 ^ 64) (trimText seconds) = some 0

theorem span_eq_never {nanos : ℕ} : span nanos = .never ↔ nanos = 0 := by
  by_cases h : nanos = 0
  · simp [span, Ttl.new, h]
  · simp [span, Ttl.new, h]

/-- **Which directives the gateway takes to forbid keeping.** -/
theorem controlled_eq_never {directives : List (List Char)} :
    controlled directives = some .never ↔ SaysNever directives := by
  have hwords : (directives.any fun directive =>
      ["no-store".toList, "no-cache".toList, "private".toList].contains directive) = true ↔
      ∃ directive ∈ directives, ∃ word ∈ forbidding, directive = word.toList := by
    rw [List.any_eq_true]
    refine exists_congr fun directive => and_congr_right fun _ => ?_
    rw [List.contains_iff_mem]
    simp only [forbidding, List.mem_cons, List.not_mem_nil, or_false, exists_eq_or_imp, exists_eq_left]
  unfold controlled
  split
  · rename_i hany
    exact ⟨fun _ => .inl (hwords.mp hany), fun _ => rfl⟩
  · rename_i hnone
    simp only [SaysNever, mt hwords.mpr hnone, false_or]
    unfold maxAge
    split
    · rename_i hage
      rw [hage]
      constructor
      · intro h
        cases h
      · intro ⟨seconds, hseconds, _⟩
        cases hseconds
    · rename_i seconds hage
      rw [hage]
      simp only [Option.some.injEq, exists_eq_left']
      generalize parseBelow (2 ^ 64) (trimText seconds) = read
      cases read with
      | none => simp
      | some age =>
        cases age with
        | zero => simp
        | succ age => simp [span_eq_never]

def FirstForbids (headers : HeaderMap) : Prop := ∃ said ∈ directives headers, SaysNever said

theorem bind_directives (headers : HeaderMap) :
    (((headers.get .cacheControl).bind HeaderValue.toStr).bind fun value =>
      controlled ((value.toList.splitOn ',').map trimText)) = (directives headers).bind controlled := by
  rw [directives, Option.bind_map]
  rfl

/-- **At every time**: what says never at all times is the first line, as `Expires` lets a response be kept
until it comes. -/
theorem freshness_never_iff (parseDate : String → Option SystemTime) (headers : HeaderMap) :
    (∀ now, freshness parseDate headers now = .never) ↔ FirstForbids headers := by
  simp only [freshness, bind_directives]
  constructor
  · intro hall
    cases hsaid : (directives headers).bind controlled with
    | some said =>
      have hnever := hall 0
      simp only [hsaid] at hnever
      rw [hnever] at hsaid
      obtain ⟨read, hread, hcontrolled⟩ := Option.bind_eq_some_iff.mp hsaid
      exact ⟨read, hread, controlled_eq_never.mp hcontrolled⟩
    | none =>
      cases hdate : ((headers.get .expires).bind HeaderValue.toStr).bind parseDate with
      | none =>
        have hnever := hall 0
        simp only [hsaid, hdate] at hnever
        cases hnever
      | some expires =>
        -- a moment before it expires a response may still be kept
        have hnever := hall (expires - 1)
        have hbefore : expires - 1 ≤ expires := Int.sub_le_self expires (by decide)
        have hleft : expires - (expires - 1) = 1 := Int.sub_sub_self expires 1
        simp only [hsaid, hdate, if_pos hbefore, span_eq_never, hleft] at hnever
        cases hnever
  · intro ⟨said, hsaid, hnever⟩ now
    have hread : (directives headers).bind controlled = some .never := by
      rw [Option.mem_def.mp hsaid]
      exact controlled_eq_never.mpr hnever
    simp only [hread]

theorem keep_of_never {parseDate : String → Option SystemTime} {now : SystemTime} {default : Ttl}
    {key : CacheKey} {flow : Flow .responseBodyProcessed}
    (h : freshness parseDate flow.held.response.headers now = .never) :
    flow.keep parseDate now default key = none := by
  unfold Flow.keep Flow.cacheable
  simp only [h]
  split
  · rename_i answer ttl rest heq
    split at heq <;> cases heq
  · rfl

/-- **An answer is never kept** exactly when its first `Cache-Control` line, read as text, forbids it in
lowercase or names an age of nothing: then it is not fresh at any time, and the gateway puts nothing in the
cache for it, whatever its status and its body. -/
theorem never_kept_iff (parseDate : String → Option SystemTime) (headers : HeaderMap) :
    ((∀ now, freshness parseDate headers now = .never) ∧
      ∀ flow : Flow .responseBodyProcessed, flow.held.response.headers = headers →
        ∀ now default key, flow.keep parseDate now default key = none) ↔
      FirstForbids headers := by
  rw [← freshness_never_iff parseDate headers]
  constructor
  · intro h
    exact h.1
  · intro hnever
    refine ⟨hnever, ?_⟩
    intro flow hheaders now default key
    refine keep_of_never ?_
    rw [hheaders]
    exact hnever now

/-! ### Lines that forbid and are not read -/

def ageOfOne : HeaderName × HeaderValue := (.cacheControl, ⟨bytesOf "max-age=1", by decide +kernel⟩)

def noStore : HeaderName × HeaderValue := (.cacheControl, ⟨bytesOf "private, no-store", by decide +kernel⟩)

def capitals : HeaderName × HeaderValue := (.cacheControl, ⟨bytesOf "No-Store", by decide +kernel⟩)

/-- A first line that forbids keeps the answer out, whatever follows it. -/
theorem never_kept_of_first_line :
    FirstForbids ⟨[noStore, ageOfOne]⟩ ∧
      ∀ now, freshness (fun _ => none) ⟨[noStore, ageOfOne]⟩ now = .never := by
  have hforbids : FirstForbids ⟨[noStore, ageOfOne]⟩ := by
    refine ⟨["private".toList, "no-store".toList], by decide +kernel, .inl ?_⟩
    decide +kernel
  exact ⟨hforbids, ((never_kept_iff (fun _ => none) _).mpr hforbids).1⟩

/-- An answer of these fields forbids it, and is kept. -/
def KeptAnyway (fields : List (HeaderName × HeaderValue)) : Prop :=
  Forbids ⟨fields⟩ ∧ (∃ now, freshness (fun _ => none) ⟨fields⟩ now ≠ .never) ∧
    ∃ flow : Flow .responseBodyProcessed, flow.held.response.headers = ⟨fields⟩ ∧
      ∃ now default key, flow.keep (fun _ => none) now default key ≠ none

theorem keptAnyway_of_kept {fields : List (HeaderName × HeaderValue)} (hforbids : Forbids ⟨fields⟩)
    (hfresh : freshness (fun _ => none) ⟨fields⟩ 0 ≠ .never)
    (hput : (upstreamAnswer fields).keep (fun _ => none) 0 fiveMinutes keyA ≠ none) : KeptAnyway fields :=
  ⟨hforbids, ⟨0, hfresh⟩, upstreamAnswer fields, rfl, 0, fiveMinutes, keyA, hput⟩

/-- **Answers that forbid it are kept**: what the second line says is not read, nor what is said in
capitals. -/
theorem forbidden_answers_kept : KeptAnyway [ageOfOne, noStore] ∧ KeptAnyway [capitals] := by
  constructor
  · exact keptAnyway_of_kept (by decide +kernel) (by decide +kernel) (by decide +kernel)
  · exact keptAnyway_of_kept (by decide +kernel) (by decide +kernel) (by decide +kernel)

end IntelliPrism.Gateway
