import IntelliPrism.Auth.Recheck
import IntelliPrism.Auth.Sessions

/-!
# What authentication remembers

A nonce that was spent, a session that was ended and a wrong passphrase are each remembered by an empty
entry on the system level of the cache, with a ttl.  The level is shared and may be limited, and what it
drops to keep to its limit is whatever was used least recently.

* `Remembers` — the three calls that write such an entry;
* `OnCache` — a text of the server that calls only the cache, carried through on it;
* `remembered_until_it_runs_out` — **in a level that is not limited, what was written is found** by every
  later claim and get until its ttl has passed, so that no nonce is spent twice and no ended session comes
  back;
* `remembered_no_longer` — in a limited one a logout is enough to have a nonce spent again.
-/

namespace IntelliPrism.Auth

open IntelliPrism.Core IntelliPrism.Lib IntelliPrism.Cache
open IntelliPrism.Manage (Action)

/-- The calls that write what authentication remembers: under this key, for this long. -/
inductive Remembers (key : CacheKey) : Ttl → Call → Prop where
  | nonce (request : SignedRequest) (ttl : Ttl) :
      CacheKey.new .system (nonceId request) = .ok key → Remembers key ttl (.claim key (some ttl))
  | ended (session : Session) (now : SystemTime) (left : Ttl) :
      endedKey session.id = .ok key → remaining session now = some left →
      Remembers key left (.put key [] (some left))
  | failed (limit : RecheckLimit) (user : UserId) (slot : ℕ) :
      slot < limit.attempts → recheckKey user slot = .ok key →
      Remembers key limit.window (.claim key (some limit.window))

namespace Remembers

variable {key : CacheKey} {ttl : Ttl} {call : Call}

theorem marks (h : Remembers key ttl call) : call.Marks key (some ttl) := by
  cases h with
  | nonce request ttl _ => exact .inr rfl
  | ended session now left _ _ => exact .inl rfl
  | failed limit user slot _ _ => exact .inr rfl

theorem level (h : Remembers key ttl call) : key.level = .system := by
  cases h with
  | nonce request ttl hkey => exact CacheKey.level_of_new hkey
  | ended session now left hkey _ => exact endedKey_level hkey
  | failed limit user slot _ hkey => exact CacheKey.level_of_new hkey

end Remembers

/-- The call reads the clock at this moment as it begins. -/
def StartsAt (now : UInt64) : Guard Clock SledCache Thread := fun _ t clock =>
  t.pc = .start → clock.millis = now

instance (now : UInt64) (p : Pool SledCache Thread) (t : Thread) (clock : Clock) :
    Decidable (StartsAt now p t clock) := inferInstanceAs (Decidable (_ → _))

/-- A text that calls nothing but the cache, carried through on it. -/
def OnCache (C : Guard Clock SledCache Thread) {α : Type} :
    Action α → SledCache → SledCache → α → Prop
  | .done value, s, s', result => s' = s ∧ result = value
  | .call (.claim key ttl) next, s, s', result => ∃ won s₁,
      Carried C (.claim key ttl) s s₁ (.claimed won) ∧ OnCache C (next (.ok won)) s₁ s' result
  | .call _ _, _, _, _ => False

section Spending

variable {C : Guard Clock SledCache Thread} {nonceTtl : Ttl} {request : SignedRequest} {key : CacheKey}
  {s s' : SledCache} {result : Except AuthError Unit}

/-- **Spending a nonce is claiming its key.** -/
theorem onCache_spend (hkey : CacheKey.new .system (nonceId request) = .ok key) :
    OnCache C (spend nonceTtl request) s s' result ↔
      ∃ won, Carried C (.claim key (some nonceTtl)) s s' (.claimed won) ∧
        result = if won then .ok () else .error (.spentNonce request.nonce) := by
  unfold spend
  rw [hkey]
  constructor
  · rintro ⟨won, s₁, hclaim, hrest⟩
    cases won with
    | false =>
      obtain ⟨rfl, rfl⟩ := hrest
      exact ⟨false, hclaim, rfl⟩
    | true =>
      obtain ⟨rfl, rfl⟩ := hrest
      exact ⟨true, hclaim, rfl⟩
  · rintro ⟨won, hclaim, rfl⟩
    cases won with
    | false => exact ⟨false, s', hclaim, rfl, rfl⟩
    | true => exact ⟨true, s', hclaim, rfl, rfl⟩

end Spending

/-- **What authentication remembers is found until it runs out**, in a system level that is not limited: by
every later claim and get made before then, so that the nonce is refused and the session stays ended.  In
the meantime there is any history of calls that do not remove the key, or put under it what runs out
sooner. -/
theorem remembered_until_it_runs_out {limits : LevelLimits} {s s' s'' : SledCache} {key : CacheKey}
    {ttl : Ttl} {call : Call} {answer : Answer} {now : UInt64} (hlimit : limits.of .system = none)
    (hbefore : History Pool.anyStep (.opened limits) s) (hcall : Remembers key ttl call)
    (hwritten : Carried (StartsAt now) call s s' answer) (hwon : answer ≠ .claimed false)
    (hsince : History (Spares key (expiryOf (some ttl) now)) s' s'') :
    (∀ again s₃ found, Carried (Spares key (expiryOf (some ttl) now)) (.claim key again) s'' s₃ found →
      found = .claimed false) ∧
    (∀ s₃ found, Carried (Spares key (expiryOf (some ttl) now)) (.get key) s'' s₃ found →
      found = .value (some [])) ∧
    (∀ request nonceTtl s₃ result, CacheKey.new .system (nonceId request) = .ok key →
      OnCache (Spares key (expiryOf (some ttl) now)) (spend nonceTtl request) s'' s₃ result →
      result = .error (.spentNonce request.nonce)) ∧
    ∀ codec tokens token verified read session s₃ result,
      SessionTokens.verifyAt codec tokens token verified = .ok session → endedKey session.id = .ok key →
      millisSinceEpoch read < expiryOf (some ttl) now →
      Asked codec tokens token verified read s'' s₃ result → result = .error .sessionRejected := by
  obtain ⟨hopened, hindexed⟩ := history_indexed (indexed_opened limits) hbefore
  have hunlimited : s.limits.of key.level = none := by
    rw [hcall.level, hopened]
    exact hlimit
  have hheld : Holds key (expiryOf (some ttl) now) s' := by
    refine holds_of_carried hunlimited hcall.marks (fun p t clock hstart hpc => ?_) hwritten hwon
    rw [hstart hpc]
    exact UInt64.le_refl _
  obtain ⟨hcalled, hindexed⟩ := carried_indexed hindexed hwritten
  rw [← hcalled] at hunlimited
  obtain ⟨hlater, hindexed, hheld⟩ := history_keeps hunlimited hindexed hheld hsince
  rw [← hlater] at hunlimited
  have hclaims : ∀ again s₃ found,
      Carried (Spares key (expiryOf (some ttl) now)) (.claim key again) s'' s₃ found →
        found = .claimed false := fun again s₃ found h => claim_loses hunlimited hindexed hheld h
  refine ⟨hclaims, fun s₃ found h => get_finds hunlimited hindexed hheld h, ?_, ?_⟩
  · intro request nonceTtl s₃ result hkey hspend
    obtain ⟨won, hclaim, rfl⟩ := (onCache_spend hkey).mp hspend
    obtain rfl := Answer.claimed.inj (hclaims _ _ _ hclaim)
    rfl
  · intro codec tokens token verified read session s₃ result hsession hkey hread hasked
    simp only [Asked, hsession, hkey] at hasked
    obtain ⟨found, hget, rfl⟩ := hasked
    obtain rfl := Answer.value.inj (get_finds hunlimited hindexed hheld (spares_of_get hread hget))
    rfl

/-! ### A nonce beside a logout -/

def erinSigned : SignedRequest where
  tenant := Gateway.acme
  user := erin
  nonce := ⟨"1234567890", by decide, by decide, by decide⟩
  signature := []

def erinNonce : CacheKey := ⟨.system, "nonce:acme:erin:1234567890", by decide, by decide⟩

theorem erinNonce_eq : CacheKey.new .system (nonceId erinSigned) = .ok erinNonce := by decide

def tenMinutes : Ttl := ⟨600000000000, by decide⟩

/-- What the first session has left at ten seconds and a fraction. -/
def leftAtTen : Ttl := ⟨90000000000, by decide⟩

def leftAtEleven : Ttl := ⟨89000000000, by decide⟩

/-- The moment a nonce spent at ten seconds may be spent again. -/
def nonceExpiry : UInt64 := expiryOf (some tenMinutes) 10000

/-- Spends the nonce at ten seconds, ends the first session at eleven and spends the nonce again at twelve,
in so many steps; what the two claims answered. -/
def spentAround (limits : LevelLimits) (ending again : ℕ) : Option (Answer × Answer) := do
  let (s₁, first) ← answered (StartsAt 10000) (.opened limits) (.claim erinNonce (some tenMinutes))
    (List.replicate 5 ⟨10000, 10000000⟩)
  let (s₂, _) ← answered (Spares erinNonce nonceExpiry) s₁ (.put firstKey [] (some leftAtEleven))
    (List.replicate ending ⟨11000, 11000000⟩)
  let (_, second) ← answered (Spares erinNonce nonceExpiry) s₂ (.claim erinNonce (some tenMinutes))
    (List.replicate again ⟨12000, 12000000⟩)
  pure (first, second)

theorem carried_of_spentAround {limits : LevelLimits} {ending again : ℕ} {first second : Answer}
    (h : spentAround limits ending again = some (first, second)) :
    ∃ s₁ s₂ s₃, Carried (StartsAt 10000) (.claim erinNonce (some tenMinutes)) (.opened limits) s₁ first ∧
      History (Spares erinNonce nonceExpiry) s₁ s₂ ∧
      Carried (Spares erinNonce nonceExpiry) (.claim erinNonce (some tenMinutes)) s₂ s₃ second := by
  obtain ⟨⟨s₁, answer⟩, hfirst, h⟩ := Option.bind_eq_some_iff.mp h
  obtain ⟨⟨s₂, put⟩, hput, h⟩ := Option.bind_eq_some_iff.mp h
  obtain ⟨⟨s₃, answer'⟩, hsecond, h⟩ := Option.bind_eq_some_iff.mp h
  cases h
  exact ⟨s₁, s₂, s₃, carried_of_answered hfirst, .single (carried_of_answered hput).completed,
    carried_of_answered hsecond⟩

/-- A level that is not limited keeps the nonce beside the logout. -/
theorem remembered_beside_a_logout :
    ∃ s₁ s₂ s₃, Carried (StartsAt 10000) (.claim erinNonce (some tenMinutes)) (.opened .none) s₁
        (.claimed true) ∧
      History (Spares erinNonce nonceExpiry) s₁ s₂ ∧
      OnCache (Spares erinNonce nonceExpiry) (spend tenMinutes erinSigned) s₂ s₃
        (.error (.spentNonce erinSigned.nonce)) := by
  obtain ⟨s₁, s₂, s₃, hfirst, hsince, hsecond⟩ := carried_of_spentAround
    (show spentAround .none 3 2 = some (.claimed true, .claimed false) by decide)
  have hspend := (onCache_spend erinNonce_eq).mpr ⟨false, hsecond, rfl⟩
  have hkept := remembered_until_it_runs_out rfl .refl (.nonce erinSigned tenMinutes erinNonce_eq) hfirst
    nofun hsince
  have hrefused := hkept.2.2.1 erinSigned tenMinutes s₃ _ erinNonce_eq hspend
  exact ⟨s₁, s₂, s₃, hfirst, hsince, hrefused ▸ hspend⟩

/-- A hundred bytes for the system level. -/
def hundredBytes : LevelLimits := ⟨none, none, some ⟨100, by decide⟩⟩

/-- Ends the first session at ten seconds and a fraction, ends it again at eleven, and looks for it at a
hundred and a fraction; what was found. -/
def endedTwice : Option (Answer × Answer × Answer) := do
  let (s₁, first) ← answered (Within 10700000000 10700000000) (.opened .none)
    (.put firstKey [] (some leftAtTen)) (List.replicate 3 ⟨10700, 10700000⟩)
  let (s₂, second) ← answered (Within 11000000000 11000000000) s₁
    (.put firstKey [] (some leftAtEleven)) (List.replicate 3 ⟨11000, 11000000⟩)
  let (_, found) ← answered (Within 100300000000 100300000000) s₂ (.get firstKey)
    (List.replicate 2 ⟨100300, 100300000⟩)
  pure (first, second, found)

/-- **What is remembered can be lost.**  In a limited system level a logout makes room by dropping a nonce,
and the request that spent it is accepted again within its ttl.  In any level a second logout puts an entry
that may run out sooner than the first. -/
theorem remembered_no_longer :
    (∃ s₁ s₂ s₃, OnCache (StartsAt 10000) (spend tenMinutes erinSigned) (.opened hundredBytes) s₁
        (.ok ()) ∧
      History (Spares erinNonce (expiryOf (some tenMinutes) 10000)) s₁ s₂ ∧
      OnCache (Spares erinNonce (expiryOf (some tenMinutes) 10000)) (spend tenMinutes erinSigned) s₂ s₃
        (.ok ())) ∧
    ∃ s₁ s₂ s₃, remaining firstSession 10700000000 = some leftAtTen ∧
      Ended firstSession 10700000000 10700000000 (.opened .none) s₁ ∧
      Ended firstSession 11000000000 11000000000 s₁ s₂ ∧
      millisSinceEpoch 100300000000 < expiryOf (some leftAtTen) (millisSinceEpoch 10700000000) ∧
      Carried (Within 100300000000 100300000000) (.get firstKey) s₂ s₃ (.value none) := by
  constructor
  · obtain ⟨s₁, s₂, s₃, hfirst, hsince, hsecond⟩ := carried_of_spentAround
      (show spentAround hundredBytes 6 5 = some (.claimed true, .claimed true) by decide)
    exact ⟨s₁, s₂, s₃, (onCache_spend erinNonce_eq).mpr ⟨true, hfirst, rfl⟩, hsince,
      (onCache_spend erinNonce_eq).mpr ⟨true, hsecond, rfl⟩⟩
  · have hrun : endedTwice = some (.wrote, .wrote, .value none) := by decide
    unfold endedTwice at hrun
    obtain ⟨⟨s₁, first⟩, hfirst, h⟩ := Option.bind_eq_some_iff.mp hrun
    obtain ⟨⟨s₂, second⟩, hsecond, h⟩ := Option.bind_eq_some_iff.mp h
    obtain ⟨⟨s₃, found⟩, hfound, h⟩ := Option.bind_eq_some_iff.mp h
    cases h
    exact ⟨s₁, s₂, s₃, by decide, ⟨firstKey, endedKey_first, carried_of_answered hfirst⟩,
      ⟨firstKey, endedKey_first, carried_of_answered hsecond⟩, by decide, carried_of_answered hfound⟩

end IntelliPrism.Auth
