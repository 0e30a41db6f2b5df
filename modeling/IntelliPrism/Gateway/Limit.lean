import IntelliPrism.Cache.Key
import IntelliPrism.Core.Limit
import IntelliPrism.Lib.Text
import Mathlib.Data.List.Induction

/-!
# Limits, the one that decides, and where it counts

A limit is a scope, a thing counted, a period and an allowance.  Of the limits for one thing counted over
one period whose scopes hold a request, the narrowest decides, and it counts under a key that spells its
scope, what it counts and the stretch.

* `counterKey`, `counterKey_new` — the key is one `CacheKey::new` accepts, whatever the scope is;
* `counterKey_inj`, `counter_eq_iff` — **different limits count under different keys**;
* `deciding`, `applyingTo` — the source's loop over the limits, with a hash map's order left open;
* `Decides`, `mem_deciding` — **what the loop keeps**: of the narrowest, the first;
* `deciding_pairwise` — one limit decides for each pair;
* `exists_decides_counter_iff` — whose count moves with those that decide.
-/

namespace IntelliPrism.Gateway

open IntelliPrism.Lib IntelliPrism.Core IntelliPrism.Cache

/-- What one scope may spend of one thing over one period. -/
structure Limit where
  scope : LimitScope
  counted : Counted
  period : Period
  allowance : Allowance
  deriving DecidableEq

/-- Who is asking, which is what a limit's scope is matched against. -/
structure Asking where
  tenant : TenantId
  user : UserId
  api : ApiId
  deriving DecidableEq

/-! ### Where a limit counts -/

/-- What a limit's count for a stretch is kept under. -/
def counterId (limit : Limit) (began : Timestamp) : String :=
  "limit:" ++ limit.scope.display ++ ":" ++ limit.counted.name ++ ":" ++ limit.period.name ++ ":"
    ++ toString began.unixSeconds

/-- Neither white nor a control character. -/
def plainChar (c : Char) : Bool := !(isWhitespace c || isControl c)

theorem idChar_ascii {c : Char} (h : idChar c = true) : 33 ≤ c.toNat ∧ c.toNat ≤ 126 := by
  have hunfold : idChar c = (decide (c.val ≥ 'A'.val ∧ c.val ≤ 'Z'.val)
      || (c.val ≥ 'a'.val && c.val ≤ 'z'.val) || (c.val ≥ '0'.val && c.val ≤ '9'.val)
      || c == '-' || c == '_' || c == '.') := rfl
  simp only [hunfold, Bool.or_eq_true, Bool.and_eq_true, decide_eq_true_eq, beq_iff_eq, ge_iff_le,
    UInt32.le_iff_toNat_le] at h
  have hchar : c.toNat = c.val.toNat := rfl
  rcases h with (((((hupper | hlower) | hdigit) | rfl) | rfl) | rfl)
  · have hbounds : 65 ≤ c.val.toNat ∧ c.val.toNat ≤ 90 := hupper
    omega
  · have hbounds : 97 ≤ c.val.toNat ∧ c.val.toNat ≤ 122 := hlower
    omega
  · have hbounds : 48 ≤ c.val.toNat ∧ c.val.toNat ≤ 57 := hdigit
    omega
  · decide
  · decide
  · decide

theorem plainChar_of_ascii {c : Char} (hlow : 33 ≤ c.toNat) (hhigh : c.toNat ≤ 126) :
    plainChar c = true := by
  have hwhite : isWhitespace c = false := by
    unfold isWhitespace
    simp only [Bool.or_eq_false_iff, Bool.and_eq_false_iff, decide_eq_false_iff_not, beq_eq_false_iff_ne]
    omega
  have hcontrol : isControl c = false := by
    unfold isControl
    simp only [Bool.or_eq_false_iff, Bool.and_eq_false_iff, decide_eq_false_iff_not]
    omega
  rw [plainChar, hwhite, hcontrol]
  rfl

theorem plainChar_of_idChar {c : Char} (h : idChar c = true) : plainChar c = true := by
  obtain ⟨hlow, hhigh⟩ := idChar_ascii h
  exact plainChar_of_ascii hlow hhigh

theorem plain_raw {kind : IdKind} (id : Ident kind) : id.raw.toList.all plainChar = true :=
  List.all_eq_true.mpr fun _ hc => plainChar_of_idChar (id.idChar_of_mem hc)

theorem usable_of_plain {id : String} (h : id.toList.all plainChar = true) :
    id.toList.any (fun c => isWhitespace c || isControl c) = false := by
  simpa [List.all_eq_true, plainChar] using h

/-- `CacheKey::new` refuses only the empty id and one with white or control characters. -/
theorem new_of_plain {level : CacheLevel} {id : String} (hempty : id ≠ "")
    (hplain : id.toList.all plainChar = true) :
    CacheKey.new level id = .ok ⟨level, id, hempty, usable_of_plain hplain⟩ := by
  rw [CacheKey.new, dif_neg hempty, dif_pos (usable_of_plain hplain)]

theorem plainChar_of_named {kind : IdKind} (named : Option (Ident kind)) :
    ((named.map Ident.raw).getD "*").toList.all plainChar = true := by
  cases named with
  | none =>
    show "*".toList.all plainChar = true
    decide
  | some id => exact plain_raw id

theorem plain_append {s t : String} (hs : s.toList.all plainChar = true)
    (ht : t.toList.all plainChar = true) : (s ++ t).toList.all plainChar = true := by
  rw [String.toList_append, List.all_append, hs, ht]
  rfl

theorem counterId_plain (limit : Limit) (began : Timestamp) :
    (counterId limit began).toList.all plainChar = true := by
  have htenant : limit.scope.tenant.raw.toList.all plainChar = true := plain_raw _
  have hcounted : limit.counted.name.toList.all plainChar = true := by
    cases limit.counted <;> decide
  have hperiod : limit.period.name.toList.all plainChar = true := by
    cases limit.period <;> decide
  have hbegan : (toString began.unixSeconds).toList.all plainChar = true := by
    refine List.all_eq_true.mpr ?_
    intro c hc
    refine plainChar_of_idChar ?_
    rcases digit_of_mem_toString hc with hdigit | rfl
    · simp [idChar, Char.isAlphanum, hdigit]
    · decide
  have hslash : "/".toList.all plainChar = true := by decide
  have hcolon : ":".toList.all plainChar = true := by decide
  have hlimit : "limit:".toList.all plainChar = true := by decide
  have hscope : limit.scope.display.toList.all plainChar = true :=
    plain_append (plain_append (plain_append (plain_append htenant hslash) (plainChar_of_named _)) hslash)
      (plainChar_of_named _)
  have hnamed := plain_append (plain_append (plain_append hlimit hscope) hcolon) hcounted
  exact plain_append (plain_append (plain_append (plain_append hnamed hcolon) hperiod) hcolon) hbegan

/-- The key a limit's count for a stretch is kept under.  A scope carries nothing a key refuses. -/
def counterKey (limit : Limit) (began : Timestamp) : CacheKey where
  level := .system
  id := counterId limit began
  nonempty := by
    intro h
    -- what comes before the stretch's start ends in a colon
    have hcolon := (String.append_eq_empty_iff.mp (String.append_eq_empty_iff.mp h).1).2
    exact absurd hcolon (by decide)
  usable := by
    have := counterId_plain limit began
    simpa [List.all_eq_true, plainChar] using this

/-- `CacheKey::new` does not refuse it. -/
theorem counterKey_new (limit : Limit) (began : Timestamp) :
    CacheKey.new .system (counterId limit began) = .ok (counterKey limit began) :=
  new_of_plain (counterKey limit began).nonempty (counterId_plain limit began)

/-- Where this limit's count for the stretch holding `now` is kept, and how long it lives. -/
def counter (limit : Limit) (now : Timestamp) : CacheKey × Ttl :=
  let left := (limit.period.ends now).unixSeconds - now.unixSeconds
  (counterKey limit (limit.period.began now),
    ⟨max left.toNat 1 * 1000000000, Nat.mul_ne_zero (by omega) (by decide)⟩)

theorem counter_fst {limit : Limit} {began now : Timestamp} (h : limit.period.began now = began) :
    (counter limit now).1 = counterKey limit began := by
  rw [← h]
  rfl

theorem notMem_named {kind : IdKind} (named : Option (Ident kind)) {sep : Char} (h : idChar sep = false)
    (hstar : sep ≠ '*') : sep ∉ ((named.map Ident.raw).getD "*").toList := by
  cases named with
  | none =>
    show sep ∉ "*".toList
    simpa using hstar
  | some id =>
    intro hmem
    rw [id.idChar_of_mem hmem] at h
    cases h

theorem named_inj {kind : IdKind} {a b : Option (Ident kind)}
    (h : ((a.map Ident.raw).getD "*").toList = ((b.map Ident.raw).getD "*").toList) : a = b := by
  have hstar : ∀ id : Ident kind, id.raw ≠ "*" := by
    intro id hid
    have hmem : '*' ∈ id.raw.toList := by
      rw [hid]
      decide
    have := id.idChar_of_mem hmem
    revert this
    decide
  rw [String.toList_inj] at h
  cases a with
  | none =>
    cases b with
    | none => rfl
    | some id => exact absurd h.symm (hstar id)
  | some id =>
    cases b with
    | none => exact absurd h (hstar id)
    | some id' => exact congrArg some (Ident.ext h)

theorem toList_joined (fixed tenant slash user api colon counted period began : String) :
    (fixed ++ (tenant ++ slash ++ user ++ slash ++ api) ++ colon ++ counted ++ colon ++ period ++ colon
        ++ began).toList
      = fixed.toList ++ (tenant.toList ++ (slash.toList ++ (user.toList ++ (slash.toList ++ (api.toList
        ++ (colon.toList ++ (counted.toList ++ (colon.toList ++ (period.toList ++ (colon.toList
        ++ began.toList)))))))))) := by
  simp only [String.toList_append, List.append_assoc]

/-- What a count is kept under tells the scope, what is counted, over what period and since when. -/
theorem counterId_inj {a b : Limit} {began began' : Timestamp}
    (hid : counterId a began = counterId b began') :
    a.scope = b.scope ∧ a.counted = b.counted ∧ a.period = b.period ∧ began = began' := by
  have hlist := (toList_joined ..).symm.trans ((congrArg String.toList hid).trans (toList_joined ..))
  have hslash : "/".toList = ['/'] := by decide
  have hcolon : ":".toList = [':'] := by decide
  simp only [hslash, hcolon, List.cons_append, List.nil_append, List.append_cancel_left_eq] at hlist
  have hid' : ∀ {kind : IdKind} (id : Ident kind), '/' ∉ id.raw.toList := by
    intro kind id hmem
    have := id.idChar_of_mem hmem
    revert this
    decide
  obtain ⟨htenant, hlist⟩ := append_cons_inj (hid' _) (hid' _) hlist
  obtain ⟨huser, hlist⟩ := append_cons_inj (notMem_named _ (by decide) (by decide))
    (notMem_named _ (by decide) (by decide)) hlist
  obtain ⟨hapi, hlist⟩ := append_cons_inj (notMem_named _ (by decide) (by decide))
    (notMem_named _ (by decide) (by decide)) hlist
  have hc : ∀ counted : Counted, ':' ∉ counted.name.toList := by
    intro counted
    cases counted <;> decide
  have hp : ∀ period : Period, ':' ∉ period.name.toList := by
    intro period
    cases period <;> decide
  obtain ⟨hcounted, hlist⟩ := append_cons_inj (hc _) (hc _) hlist
  obtain ⟨hperiod, hbegan⟩ := append_cons_inj (hp _) (hp _) hlist
  refine ⟨?_, ?_, ?_, ?_⟩
  · obtain ⟨⟨ta, ua, aa⟩, _, _, _⟩ := a
    obtain ⟨⟨tb, ub, ab⟩, _, _, _⟩ := b
    simp only [LimitScope.mk.injEq]
    exact ⟨Ident.ext (String.toList_inj.mp htenant), named_inj huser, named_inj hapi⟩
  · revert hcounted
    cases a.counted <;> cases b.counted <;> decide
  · revert hperiod
    cases a.period <;> cases b.period <;> decide
  · exact Timestamp.eq_iff.mpr (toString_int_injective (String.toList_inj.mp hbegan))

/-- **Different limits count under different keys**: the key tells the scope, what is counted and over
what period. -/
theorem counterKey_inj {a b : Limit} {began began' : Timestamp}
    (h : counterKey a began = counterKey b began') :
    a.scope = b.scope ∧ a.counted = b.counted ∧ a.period = b.period := by
  obtain ⟨hscope, hcounted, hperiod, -⟩ := counterId_inj (congrArg CacheKey.id h)
  exact ⟨hscope, hcounted, hperiod⟩

/-! ### The limit that decides -/

namespace Limit

/-- Whether the request falls inside the limit's scope. -/
def holds (limit : Limit) (asking : Asking) : Bool :=
  limit.scope.holds asking.tenant asking.user asking.api

def narrowness (limit : Limit) : ℕ := limit.scope.narrowness

/-- What is counted, and over what stretch: one limit decides for each such pair. -/
def pair (limit : Limit) : Counted × Period := (limit.counted, limit.period)

end Limit

/-- Limits count together exactly when they have one scope and one pair. -/
theorem counter_eq_iff {a b : Limit} {now : Timestamp} :
    (counter a now).1 = (counter b now).1 ↔ a.scope = b.scope ∧ a.pair = b.pair := by
  constructor
  · intro h
    obtain ⟨hscope, hcounted, hperiod⟩ := counterKey_inj h
    exact ⟨hscope, Prod.ext hcounted hperiod⟩
  · obtain ⟨_, _, _, _⟩ := a
    obtain ⟨_, _, _, _⟩ := b
    rintro ⟨hscope, hpair⟩
    obtain ⟨hcounted, hperiod⟩ := Prod.mk.inj hpair
    simp only at hscope hcounted hperiod
    subst hscope hcounted hperiod
    rfl

/-- The map of deciding limits after one more: a pair nothing decides for yet is taken, and one that is
decided for changes hands only for a narrower scope. -/
def put (deciding : List Limit) (limit : Limit) : List Limit :=
  if deciding.any (fun held => held.pair == limit.pair) then
    deciding.map fun held =>
      if held.pair == limit.pair && limit.narrowness > held.narrowness then limit else held
  else deciding ++ [limit]

/-- The map of deciding limits, as its values in some order. -/
def deciding (limits : List Limit) (asking : Asking) : List Limit :=
  limits.foldl (fun held limit => if limit.holds asking then put held limit else held) []

/-- An order a hash map may give its values in. -/
structure HashOrder where
  arrange : List Limit → List Limit
  perm : ∀ values, (arrange values).Perm values

/-- The one limit that decides for each thing counted over each stretch: of the scopes this request
falls inside, the narrowest. -/
def applyingTo (order : HashOrder) (limits : List Limit) (asking : Asking) : List Limit :=
  order.arrange (deciding limits asking)

/-- **What deciding means**: of the limits for one pair whose scopes hold the request, the first of the
narrowest. -/
def Decides (limits : List Limit) (asking : Asking) (limit : Limit) : Prop :=
  limit.holds asking = true ∧ ∃ before after, limits = before ++ limit :: after ∧
    (∀ other ∈ before, other.holds asking = true → other.pair = limit.pair →
      other.narrowness < limit.narrowness) ∧
    ∀ other ∈ after, other.holds asking = true → other.pair = limit.pair →
      other.narrowness ≤ limit.narrowness

/-- The limit's scope holds the request, and nothing narrower does for its pair. -/
def Narrowest (limits : List Limit) (asking : Asking) (limit : Limit) : Prop :=
  limit.holds asking = true ∧ ∀ other ∈ limits, other.holds asking = true →
    other.pair = limit.pair → other.narrowness ≤ limit.narrowness

section Deciding

variable {limits : List Limit} {asking : Asking} {limit : Limit}

theorem Decides.mem (h : Decides limits asking limit) : limit ∈ limits := by
  obtain ⟨_, before, after, rfl, _⟩ := h
  simp

/-- No limit for the same pair whose scope holds the request is narrower. -/
theorem Decides.narrowest (h : Decides limits asking limit) {other : Limit} (hother : other ∈ limits)
    (hholds : other.holds asking = true) (hpair : other.pair = limit.pair) :
    other.narrowness ≤ limit.narrowness := by
  obtain ⟨_, before, after, rfl, hbefore, hafter⟩ := h
  rcases List.mem_append.mp hother with hmem | hmem
  · exact Nat.le_of_lt (hbefore other hmem hholds hpair)
  · rcases List.mem_cons.mp hmem with rfl | hmem
    · exact Nat.le_refl _
    · exact hafter other hmem hholds hpair

theorem decides_concat {last : Limit} :
    Decides (limits ++ [last]) asking limit ↔
      (Decides limits asking limit ∧ (last.holds asking = true → last.pair = limit.pair →
        last.narrowness ≤ limit.narrowness)) ∨
      (limit = last ∧ last.holds asking = true ∧ ∀ other ∈ limits, other.holds asking = true →
        other.pair = last.pair → other.narrowness < last.narrowness) := by
  constructor
  · rintro ⟨hholds, before, after, hsplit, hbefore, hafter⟩
    rcases List.eq_nil_or_concat after with rfl | ⟨init, final, rfl⟩
    · obtain ⟨rfl, hlast⟩ := List.append_inj' hsplit rfl
      obtain rfl := List.singleton_inj.mp hlast
      exact .inr ⟨rfl, hholds, hbefore⟩
    · rw [List.concat_eq_append, ← List.cons_append, ← List.append_assoc] at hsplit
      obtain ⟨rfl, hlast⟩ := List.append_inj' hsplit rfl
      obtain rfl := List.singleton_inj.mp hlast
      refine .inl ⟨⟨hholds, before, init, rfl, hbefore, ?_⟩, ?_⟩
      · intro other hother
        exact hafter other (by simp [hother])
      · exact hafter last (by simp)
  · rintro (⟨⟨hholds, before, after, rfl, hbefore, hafter⟩, hlast⟩ | ⟨rfl, hholds, hall⟩)
    · refine ⟨hholds, before, after ++ [last], by simp, hbefore, ?_⟩
      intro other hother
      rcases List.mem_append.mp hother with hmem | hmem
      · exact hafter other hmem
      · obtain rfl := List.mem_singleton.mp hmem
        exact hlast
    · exact ⟨hholds, limits, [], rfl, hall, by simp⟩

/-- **Some limit decides** for every pair with a limit whose scope holds the request. -/
theorem exists_decides (hmem : limit ∈ limits) (hholds : limit.holds asking = true) :
    ∃ other, Decides limits asking other ∧ other.pair = limit.pair := by
  induction limits using List.reverseRecOn generalizing limit with
  | nil => cases hmem
  | append_singleton init last ih =>
    by_cases hany : ∃ other, Decides init asking other ∧ other.pair = limit.pair
    · obtain ⟨other, hdecides, hpair⟩ := hany
      by_cases hnarrow : last.holds asking = true ∧ last.pair = other.pair ∧
          other.narrowness < last.narrowness
      · obtain ⟨hlast, hsame, hlt⟩ := hnarrow
        refine ⟨last, decides_concat.mpr (.inr ⟨rfl, hlast, ?_⟩), hsame.trans hpair⟩
        intro third hthird hth hpair'
        exact Nat.lt_of_le_of_lt (hdecides.narrowest hthird hth (hpair'.trans hsame)) hlt
      · refine ⟨other, decides_concat.mpr (.inl ⟨hdecides, ?_⟩), hpair⟩
        intro hlast hsame
        by_contra hlt
        exact hnarrow ⟨hlast, hsame, Nat.lt_of_not_le hlt⟩
    · rcases List.mem_append.mp hmem with hinit | hlast
      · exact absurd (ih hinit hholds) hany
      · obtain rfl := List.mem_singleton.mp hlast
        refine ⟨limit, decides_concat.mpr (.inr ⟨rfl, hholds, ?_⟩), rfl⟩
        intro other hother hoth hpair
        obtain ⟨third, hdecides, hpair'⟩ := ih hother hoth
        exact absurd ⟨third, hdecides, hpair'.trans hpair⟩ hany

/-- **Whose count moves**: a limit counts with one that decides exactly when it is the narrowest. -/
theorem exists_decides_counter_iff (now : Timestamp) (hmem : limit ∈ limits) :
    (∃ other, Decides limits asking other ∧ (counter other now).1 = (counter limit now).1) ↔
      Narrowest limits asking limit := by
  constructor
  · rintro ⟨other, hdecides, hkey⟩
    obtain ⟨hscope, hpair⟩ := counter_eq_iff.mp hkey
    have hnarrow : limit.narrowness = other.narrowness := by
      rw [Limit.narrowness, Limit.narrowness, hscope]
    refine ⟨?_, ?_⟩
    · have := hdecides.1
      rwa [Limit.holds, hscope] at this
    · intro third hthird hholds hsame
      rw [hnarrow]
      exact hdecides.narrowest hthird hholds (hsame.trans hpair.symm)
  · rintro ⟨hholds, hnarrowest⟩
    obtain ⟨other, hdecides, hpair⟩ := exists_decides hmem hholds
    refine ⟨other, hdecides, counter_eq_iff.mpr ⟨?_, hpair⟩⟩
    exact LimitScope.eq_of_holds hdecides.1 hholds (Nat.le_antisymm
      (hnarrowest other hdecides.mem hdecides.1 hpair) (hdecides.narrowest hmem hholds hpair.symm))

theorem deciding_concat (limits : List Limit) (last : Limit) (asking : Asking) :
    deciding (limits ++ [last]) asking
      = if last.holds asking then put (deciding limits asking) last else deciding limits asking := by
  simp only [deciding, List.foldl_append, List.foldl_cons, List.foldl_nil]

theorem mem_put {held : List Limit} {last : Limit} :
    limit ∈ put held last ↔
      (limit ∈ held ∧ ¬(limit.pair = last.pair ∧ limit.narrowness < last.narrowness)) ∨
      (limit = last ∧ ((∃ other ∈ held, other.pair = last.pair ∧ other.narrowness < last.narrowness) ∨
        ∀ other ∈ held, other.pair ≠ last.pair)) := by
  unfold put
  split
  · rename_i hany
    obtain ⟨third, hthird, hpair⟩ := List.any_eq_true.mp hany
    simp only [List.mem_map, Bool.and_eq_true, beq_iff_eq, decide_eq_true_eq, gt_iff_lt]
    constructor
    · rintro ⟨other, hother, rfl⟩
      split
      · rename_i hlt
        exact .inr ⟨rfl, .inl ⟨other, hother, hlt⟩⟩
      · rename_i hlt
        exact .inl ⟨hother, hlt⟩
    · rintro (⟨hmem, hlt⟩ | ⟨rfl, ⟨other, hother, hlt⟩ | hnone⟩)
      · exact ⟨limit, hmem, if_neg hlt⟩
      · exact ⟨other, hother, if_pos hlt⟩
      · exact absurd (by simpa using hpair) (hnone third hthird)
  · rename_i hnone
    simp only [List.any_eq_true, beq_iff_eq, not_exists, not_and] at hnone
    rw [List.mem_append, List.mem_singleton]
    constructor
    · rintro (hmem | rfl)
      · exact .inl ⟨hmem, fun h => hnone limit hmem h.1⟩
      · exact .inr ⟨rfl, .inr hnone⟩
    · rintro (⟨hmem, -⟩ | ⟨rfl, -⟩)
      · exact .inl hmem
      · exact .inr rfl

/-- A further limit finds what decides for its pair to be wider, or nothing deciding, exactly when it is
narrower than every limit for that pair whose scope holds the request. -/
theorem displaced_or_free_iff {last : Limit} :
    ((∃ other, Decides limits asking other ∧ other.pair = last.pair ∧
          other.narrowness < last.narrowness) ∨
        ∀ other, Decides limits asking other → other.pair ≠ last.pair) ↔
      ∀ other ∈ limits, other.holds asking = true → other.pair = last.pair →
        other.narrowness < last.narrowness := by
  constructor
  · rintro (⟨other, hdecides, hpair, hlt⟩ | hnone) third hthird hholds hpair'
    · exact Nat.lt_of_le_of_lt (hdecides.narrowest hthird hholds (hpair'.trans hpair.symm)) hlt
    · obtain ⟨other, hdecides, hpair⟩ := exists_decides hthird hholds
      exact absurd (hpair.trans hpair') (hnone other hdecides)
  · intro hall
    by_cases hany : ∃ other, Decides limits asking other ∧ other.pair = last.pair
    · obtain ⟨other, hdecides, hpair⟩ := hany
      exact .inl ⟨other, hdecides, hpair, hall other hdecides.mem hdecides.1 hpair⟩
    · exact .inr fun other hdecides hpair => hany ⟨other, hdecides, hpair⟩

/-- **The map holds exactly the limits that decide.** -/
theorem mem_deciding : limit ∈ deciding limits asking ↔ Decides limits asking limit := by
  induction limits using List.reverseRecOn generalizing limit with
  | nil =>
    constructor
    · intro h
      cases h
    · rintro ⟨_, before, after, hnil, _⟩
      simp at hnil
  | append_singleton init last ih =>
    rw [deciding_concat, decides_concat]
    split
    · rename_i hlast
      rw [mem_put, ih]
      refine or_congr ?_ ?_
      · refine and_congr_right ?_
        intro _
        constructor
        · intro h _ hpair
          by_contra hlt
          exact h ⟨hpair.symm, Nat.lt_of_not_le hlt⟩
        · rintro h ⟨hpair, hlt⟩
          exact absurd (h hlast hpair.symm) (Nat.not_le_of_lt hlt)
      · refine and_congr_right ?_
        intro _
        simp only [ih, hlast, true_and]
        exact displaced_or_free_iff
    · rename_i hlast
      rw [ih]
      constructor
      · intro h
        exact .inl ⟨h, fun hholds => absurd hholds hlast⟩
      · rintro (⟨h, -⟩ | ⟨-, hholds, -⟩)
        · exact h
        · exact absurd hholds hlast

/-- **One limit decides for each pair.** -/
theorem deciding_pairwise (limits : List Limit) (asking : Asking) :
    (deciding limits asking).Pairwise fun a b => a.pair ≠ b.pair := by
  induction limits using List.reverseRecOn with
  | nil => exact .nil
  | append_singleton init last ih =>
    rw [deciding_concat]
    split
    · unfold put
      split
      · -- what takes another's place has its pair
        have hpair : ∀ held : Limit, (if held.pair == last.pair && last.narrowness > held.narrowness
            then last else held).pair = held.pair := by
          intro held
          split
          · rename_i h
            simp only [Bool.and_eq_true, beq_iff_eq] at h
            exact h.1.symm
          · rfl
        rw [List.pairwise_map]
        exact ih.imp fun h => by rw [hpair, hpair]; exact h
      · rename_i hnone
        simp only [List.any_eq_true, beq_iff_eq, not_exists, not_and] at hnone
        rw [List.pairwise_append]
        exact ⟨ih, List.pairwise_singleton _ _, fun a ha b hb => by
          rw [List.mem_singleton.mp hb]
          exact hnone a ha⟩
    · exact ih

end Deciding

/-! ### A tenant to try limits on -/

def acme : TenantId := ⟨"acme", by decide, by decide, by decide⟩

def alice : UserId := ⟨"alice", by decide, by decide, by decide⟩

def bob : UserId := ⟨"bob", by decide, by decide, by decide⟩

def anthropic : ApiId := ⟨"anthropic", by decide, by decide, by decide⟩

/-- An account of the tenant asks the api. -/
def Asking.of (user : UserId) : Asking := ⟨acme, user, anthropic⟩

/-- A limit over the whole tenant, by the minute. -/
def tenantWide (counted : Counted) (allowance : Allowance) : Limit :=
  ⟨.ofTenant acme, counted, .minute, allowance⟩

/-- A limit on one account of it, by the minute. -/
def onAccount (user : UserId) (counted : Counted) (allowance : Allowance) : Limit :=
  ⟨(LimitScope.ofTenant acme).ofUser user, counted, .minute, allowance⟩

/-- The values in the order they were put in. -/
def HashOrder.asPut : HashOrder := ⟨id, fun values => .refl values⟩

end IntelliPrism.Gateway
