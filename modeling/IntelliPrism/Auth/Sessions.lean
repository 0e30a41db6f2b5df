import IntelliPrism.Auth.Request
import IntelliPrism.Cache.Keeping
import IntelliPrism.Gateway.ResponseCache

/-!
# Sessions and logging out of them

A session is a token this server signed, good until the second it names.  Logging out cannot take the token
back, so the cache remembers the session as ended for as long as the token has left.  The token's time is
in whole seconds, the cache's in milliseconds, and each reads the clock for itself.

* `issueAt`, `verifyAt`, `remaining` — the texts of `SessionTokens` and `Logins`, with the base64, json and
  hmac of the libraries as a `TokenCodec`;
* `verifyAt_issued` — an issued token reads back as its session until its second comes;
* `Ended`, `Asked` — what `end` and `session` do to a cache, with their readings of the clock;
* `expiry_of_remaining` — **what `end` remembers outlasts the token**, to the millisecond;
* `ended_session_stays_ended` — a session that was ended is not accepted again, as long as the cache is
  read before the token's second comes;
* `ended_session_comes_back` — a call that begins before it and reads the cache after it.
-/

namespace IntelliPrism.Auth

open IntelliPrism.Core IntelliPrism.Lib IntelliPrism.Cache
open IntelliPrism.Gateway (hexEncode)

/-! ### The clock -/

/-- A moment, in nanoseconds since the unix epoch; before it, a negative number. -/
abbrev SystemTime := ℤ

/-- `duration_since(UNIX_EPOCH)`, in nanoseconds. -/
def sinceEpoch (moment : SystemTime) : Option ℕ := if 0 ≤ moment then some moment.toNat else none

def asSecs (nanos : ℕ) : UInt64 := saturate (nanos / 1000000000)

def secondsSinceEpoch (moment : SystemTime) : UInt64 := ((sinceEpoch moment).map asSecs).getD 0

/-- The moment as the cache reads it. -/
def millisSinceEpoch (moment : SystemTime) : UInt64 :=
  ((sinceEpoch moment).map fun since => saturate (since / 1000000)).getD 0

theorem getD_sinceEpoch {f : ℕ → UInt64} (hf : f 0 = 0) (moment : SystemTime) :
    ((sinceEpoch moment).map f).getD 0 = f (Int.toNat moment) := by
  unfold sinceEpoch
  split
  · rfl
  · rename_i hneg
    rw [Int.toNat_of_nonpos (Int.le_of_not_le hneg), hf]
    rfl

theorem secondsSinceEpoch_toNat (moment : SystemTime) :
    (secondsSinceEpoch moment).toNat = min (Int.toNat moment / 1000000000) wordMax := by
  rw [secondsSinceEpoch, getD_sinceEpoch (by decide)]
  exact saturate_toNat _

theorem millisSinceEpoch_toNat (moment : SystemTime) :
    (millisSinceEpoch moment).toNat = min (Int.toNat moment / 1000000) wordMax := by
  rw [millisSinceEpoch, getD_sinceEpoch (by decide)]
  exact saturate_toNat _

theorem secondsSinceEpoch_mono {a b : SystemTime} (h : a ≤ b) :
    secondsSinceEpoch a ≤ secondsSinceEpoch b := by
  rw [UInt64.le_iff_toNat_le, secondsSinceEpoch_toNat, secondsSinceEpoch_toNat]
  exact min_le_min_right _ (Nat.div_le_div_right (Int.toNat_le_toNat h))

/-! ### Tokens -/

/-- The id one session is known by. -/
structure SessionId where
  raw : String
  deriving DecidableEq

/-- Bytes a session id is drawn from. -/
def idBytes : ℕ := 16

/-- What `getrandom` fills a session id with. -/
abbrev IdDraw := {bytes : Bytes // bytes.length = idBytes}

/-- Draws an id no one can guess, or reports that nothing could be drawn. -/
def SessionId.generate (drawn : Option IdDraw) : Except AuthError SessionId :=
  match drawn with
  | none => .error .random
  | some bytes => .ok ⟨hexEncode bytes⟩

/-- Who a checked token belongs to, and which session it is. -/
structure Session where
  user : UserId
  id : SessionId
  expiresAt : UInt64
  deriving DecidableEq

/-- What a session token carries. -/
structure Claims where
  sub : String
  iss : String
  jti : String
  iat : UInt64
  exp : UInt64
  deriving DecidableEq

/-- What the libraries do for a token: base64, which writes no dot and is read back, json, which is read
back as what was written, and the hmac. -/
structure TokenCodec where
  encode : Bytes → String
  decode : String → Option Bytes
  write : Claims → Option Bytes
  read : Bytes → Option Claims
  mac : Bytes → Bytes → Bytes
  undotted : ∀ bytes, '.' ∉ (encode bytes).toList
  decode_encode : ∀ bytes, decode (encode bytes) = some bytes
  read_write : ∀ claims bytes, write claims = some bytes → read bytes = some claims

/-- The only header this server writes or accepts. -/
def tokenHeader : String := "eyJhbGciOiJIUzI1NiIsInR5cCI6IkpXVCJ9"

/-- What tokens are signed for and with, and how long each is good for, in nanoseconds. -/
structure SessionTokens where
  issuer : String
  secret : Bytes
  ttl : ℕ

namespace SessionTokens

variable (codec : TokenCodec) (tokens : SessionTokens)

/-- What is signed of a token: its header and its claims. -/
def signed (payload : String) : String := tokenHeader ++ "." ++ payload

/-- Issues a token for a user who has just proved who they are. -/
def issueAt (user : UserId) (drawn : Option IdDraw) (now : SystemTime) : Except AuthError String :=
  match SessionId.generate drawn with
  | .error error => .error error
  | .ok id =>
    let issuedAt := secondsSinceEpoch now
    let expiresAt := saturatingAdd issuedAt (asSecs tokens.ttl)
    match codec.write ⟨user.raw, tokens.issuer, id.raw, issuedAt, expiresAt⟩ with
    | none => .error .sessionIssue
    | some claims =>
      let signed := signed (codec.encode claims)
      .ok (signed ++ "." ++ codec.encode (codec.mac tokens.secret (bytesOf signed)))

/-- Reads a token back, refusing one this server did not issue or that has run out. -/
def verifyAt (token : String) (now : SystemTime) : Except AuthError Session :=
  match token.toList.splitOn '.' with
  | [header, payload, signature] =>
    if String.ofList header ≠ tokenHeader then .error .sessionRejected
    else
      match codec.decode (String.ofList signature) with
      | none => .error .sessionRejected
      | some signature =>
        if codec.mac tokens.secret (bytesOf (signed (String.ofList payload))) ≠ signature then
          .error .sessionRejected
        else
          match (codec.decode (String.ofList payload)).bind codec.read with
          | none => .error .sessionRejected
          | some claims =>
            if claims.iss ≠ tokens.issuer ∨ claims.exp ≤ secondsSinceEpoch now then
              .error .sessionRejected
            else
              match Ident.new .user claims.sub with
              | .error _ => .error .sessionRejected
              | .ok user => .ok ⟨user, ⟨claims.jti⟩, claims.exp⟩
  | _ => .error .sessionRejected

variable {codec tokens}

theorem splitOn_token {payload signature : String} (hpayload : '.' ∉ payload.toList)
    (hsignature : '.' ∉ signature.toList) :
    (signed payload ++ "." ++ signature).toList.splitOn '.'
      = [tokenHeader.toList, payload.toList, signature.toList] := by
  have hparts : ∀ part ∈ [tokenHeader.toList, payload.toList, signature.toList], '.' ∉ part := by
    intro part hpart
    simp only [List.mem_cons, List.not_mem_nil, or_false] at hpart
    rcases hpart with rfl | rfl | rfl
    · decide
    · exact hpayload
    · exact hsignature
  have hwhole : (signed payload ++ "." ++ signature).toList
      = ['.'].intercalate [tokenHeader.toList, payload.toList, signature.toList] := by
    rw [signed, intercalate_cons_cons, intercalate_cons_cons, String.toList_append, String.toList_append,
      String.toList_append, String.toList_append]
    simp [List.intercalate]
  rw [hwhole]
  exact List.splitOn_intercalate '.' hparts (List.cons_ne_nil _ _)

/-- **An issued token reads back as its session until its second comes.** -/
theorem verifyAt_issued {user : UserId} {drawn : IdDraw} {issued : SystemTime} {token : String}
    (h : tokens.issueAt codec user (some drawn) issued = .ok token) (now : SystemTime) :
    tokens.verifyAt codec token now
      = if saturatingAdd (secondsSinceEpoch issued) (asSecs tokens.ttl) ≤ secondsSinceEpoch now then
          .error .sessionRejected
        else
          .ok ⟨user, ⟨hexEncode drawn⟩, saturatingAdd (secondsSinceEpoch issued) (asSecs tokens.ttl)⟩ := by
  simp only [issueAt, SessionId.generate] at h
  split at h
  · cases h
  · rename_i claims hclaims
    obtain rfl := Except.ok.inj h
    simp only [verifyAt, splitOn_token (codec.undotted _) (codec.undotted _), String.ofList_toList,
      codec.decode_encode, codec.read_write _ _ hclaims, Option.bind_some, ne_eq, not_true, if_false,
      false_or, Ident.new_raw]

theorem verifyAt_eq {user : UserId} {drawn : Option IdDraw} {issued now : SystemTime} {token : String}
    {session : Session} (h : tokens.issueAt codec user drawn issued = .ok token)
    (hsession : tokens.verifyAt codec token now = .ok session) (later : SystemTime) :
    tokens.verifyAt codec token later
      = if session.expiresAt ≤ secondsSinceEpoch later then .error .sessionRejected else .ok session := by
  cases drawn with
  | none => cases h
  | some drawn =>
    rw [verifyAt_issued h] at hsession ⊢
    split at hsession
    · cases hsession
    · obtain rfl := Except.ok.inj hsession
      rfl

theorem user_of_verifyAt {user : UserId} {drawn : Option IdDraw} {issued now : SystemTime} {token : String}
    {session : Session} (h : tokens.issueAt codec user drawn issued = .ok token)
    (hsession : tokens.verifyAt codec token now = .ok session) : session.user = user := by
  cases drawn with
  | none => cases h
  | some drawn =>
    rw [verifyAt_issued h] at hsession
    split at hsession
    · cases hsession
    · obtain rfl := Except.ok.inj hsession
      rfl

end SessionTokens

/-! ### Ending a session, and asking for it -/

/-- How long a session has left, or nothing when its token has run out already. -/
def remaining (session : Session) (now : SystemTime) : Option Ttl :=
  match sinceEpoch now with
  | none => none
  | some since =>
    if asSecs since ≤ session.expiresAt then
      (Ttl.new ((session.expiresAt.toNat - (asSecs since).toNat) * 1000000000)).toOption
    else none

/-- Where a session that was logged out is remembered. -/
def endedKey (session : SessionId) : Except CacheError CacheKey :=
  CacheKey.new .system ("session-ended:" ++ session.raw)

theorem endedKey_level {session : SessionId} {key : CacheKey} (h : endedKey session = .ok key) :
    key.level = .system := CacheKey.level_of_new h

/-- The cache reads its clock between two moments. -/
def Within (earliest latest : SystemTime) : Guard Clock SledCache Thread := fun _ _ clock =>
  millisSinceEpoch earliest ≤ clock.millis ∧ clock.millis ≤ millisSinceEpoch latest

instance (earliest latest : SystemTime) (p : Pool SledCache Thread) (t : Thread) (clock : Clock) :
    Decidable (Within earliest latest p t clock) := instDecidableAnd

/-- `end` read the clock at `now`, was done by `latest`, and returned without an error. -/
def Ended (session : Session) (now latest : SystemTime) (s s' : SledCache) : Prop :=
  match remaining session now with
  | none => s' = s
  | some left => ∃ key, endedKey session.id = .ok key ∧
      Carried (Within now latest) (.put key [] (some left)) s s' .wrote

/-- `session` read the clock for the token at `verified`, and the cache read its own by `latest`; it
answered this. -/
def Asked (codec : TokenCodec) (tokens : SessionTokens) (token : String) (verified latest : SystemTime)
    (s s' : SledCache) (result : Except AuthError Session) : Prop :=
  match tokens.verifyAt codec token verified with
  | .error error => s' = s ∧ result = .error error
  | .ok session =>
    match endedKey session.id with
    | .error error => s' = s ∧ result = .error (.cache error)
    | .ok key => ∃ found, Carried (Within verified latest) (.get key) s s' (.value found) ∧
        result = if found.isSome then .error .sessionRejected else .ok session

/-- What goes on in the meantime: any call that has nothing to do with the session, a look at whether it
was ended, or another `end` of it. -/
def Meanwhile (session : Session) (latest : SystemTime) (s s' : SledCache) : Prop :=
  (∃ call answer, (endedKey session.id = .ok call.key → call = .get call.key) ∧
    Carried (fun _ _ clock => clock.millis ≤ millisSinceEpoch latest) call s s' answer) ∨
  ∃ now, Ended session now latest s s'

/-- A get whose readings are all before a moment spares what runs out no sooner. -/
theorem spares_of_get {earliest latest : SystemTime} {key : CacheKey} {moment : UInt64} {s s' : SledCache}
    {answer : Answer} (hlatest : millisSinceEpoch latest < moment)
    (h : Carried (Within earliest latest) (.get key) s s' answer) :
    Carried (Spares key moment) (.get key) s s' answer := by
  refine h.weaken fun p t clock htext hC => ⟨UInt64.lt_of_le_of_lt hC.2 hlatest, fun _ => ?_⟩
  rw [htext]
  trivial

/-- The millisecond at which the session's second comes, as far as the cache can count. -/
def Session.runsOut (session : Session) : UInt64 := saturate (1000 * session.expiresAt.toNat)

section Logout

variable {session : Session} {key : CacheKey} {s s' : SledCache} {latest : SystemTime}

/-- **What `end` remembers outlasts the token**, whatever fraction of a second it is called at. -/
theorem expiry_of_remaining {now : SystemTime} {left : Ttl} {reading : UInt64}
    (h : remaining session now = some left) (hreading : millisSinceEpoch now ≤ reading) :
    session.runsOut ≤ expiryOf (some left) reading := by
  have hseconds := secondsSinceEpoch_toNat now
  rw [UInt64.le_iff_toNat_le, millisSinceEpoch_toNat] at hreading
  rw [UInt64.le_iff_toNat_le, Session.runsOut, saturate_toNat, expiryOf, saturatingAdd_toNat,
    saturate_toNat]
  unfold remaining at h
  unfold secondsSinceEpoch at hseconds
  split at h
  · cases h
  · rename_i since hsince
    rw [hsince, Option.map_some, Option.getD_some] at hseconds
    split at h
    · rename_i hle
      rw [UInt64.le_iff_toNat_le] at hle
      unfold Ttl.new at h
      split at h
      · cases h
      · obtain rfl := Option.some.inj h
        simp only [Ttl.millis]
        omega
    · cases h

theorem expired_of_remaining {now : SystemTime} (hepoch : 0 ≤ now) (h : remaining session now = none) :
    session.expiresAt ≤ secondsSinceEpoch now := by
  have hsince : sinceEpoch now = some now.toNat := if_pos hepoch
  rw [UInt64.le_iff_toNat_le, secondsSinceEpoch, hsince, Option.map_some, Option.getD_some]
  simp only [remaining, hsince] at h
  split at h
  · unfold Ttl.new at h
    split at h
    · omega
    · cases h
  · rename_i hlt
    exact Nat.le_of_lt (UInt64.lt_iff_toNat_lt.mp (UInt64.not_le.mp hlt))

/-- **A session that was ended is held as ended** until its second comes. -/
theorem Ended.holds {now : SystemTime} (hlimit : s.limits.of .system = none)
    (hkey : endedKey session.id = .ok key) (hepoch : 0 ≤ now)
    (hrunning : secondsSinceEpoch now < session.expiresAt) (h : Ended session now latest s s') :
    Holds key session.runsOut s' := by
  unfold Ended at h
  split at h
  · rename_i hnone
    exact absurd hrunning (UInt64.not_lt.mpr (expired_of_remaining hepoch hnone))
  · rename_i left hleft
    obtain ⟨key', hkey', hput⟩ := h
    obtain rfl := Except.ok.inj (hkey.symm.trans hkey')
    rw [← endedKey_level hkey] at hlimit
    exact holds_of_carried hlimit (.inl rfl)
      (fun p t clock hC _ => expiry_of_remaining hleft hC.1) hput nofun

theorem Ended.indexed {now : SystemTime} (hindexed : Indexed s) (h : Ended session now latest s s') :
    s'.limits = s.limits ∧ Indexed s' := by
  unfold Ended at h
  split at h
  · subst h
    exact ⟨rfl, hindexed⟩
  · obtain ⟨key, -, hput⟩ := h
    exact carried_indexed hindexed hput

/-- **What goes on in the meantime keeps it.** -/
theorem Meanwhile.keeps (hkey : endedKey session.id = .ok key)
    (hlatest : millisSinceEpoch latest < session.runsOut) (hlimit : s.limits.of .system = none)
    (hindexed : Indexed s) (hs : Holds key session.runsOut s) (h : Meanwhile session latest s s') :
    s'.limits = s.limits ∧ Indexed s' ∧ Holds key session.runsOut s' := by
  rw [← endedKey_level hkey] at hlimit
  rcases h with ⟨call, answer, hcall, hcarried⟩ | ⟨now, hended⟩
  · have hspares : Carried (Spares key session.runsOut) call s s' answer := by
      refine hcarried.weaken fun p t clock htext hC => ⟨UInt64.lt_of_le_of_lt hC hlatest, ?_⟩
      rintro rfl
      rw [htext, hcall (htext ▸ hkey)]
      trivial
    exact carried_holds hlimit hindexed hs hspares
  · unfold Ended at hended
    split at hended
    · subst hended
      exact ⟨rfl, hindexed, hs⟩
    · rename_i left hleft
      obtain ⟨key', hkey', hput⟩ := hended
      obtain rfl := Except.ok.inj (hkey.symm.trans hkey')
      have hspares : Carried (Spares key session.runsOut) (.put key [] (some left)) s s' .wrote := by
        refine hput.weaken fun p t clock htext hC => ⟨UInt64.lt_of_le_of_lt hC.2 hlatest, fun _ => ?_⟩
        rw [htext]
        exact ⟨rfl, fun _ => expiry_of_remaining hleft hC.1⟩
      exact carried_holds hlimit hindexed hs hspares

theorem Meanwhile.run_keeps (hkey : endedKey session.id = .ok key)
    (hlatest : millisSinceEpoch latest < session.runsOut) (hlimit : s.limits.of .system = none)
    (hindexed : Indexed s) (hs : Holds key session.runsOut s)
    (h : Relation.ReflTransGen (Meanwhile session latest) s s') :
    s'.limits = s.limits ∧ Indexed s' ∧ Holds key session.runsOut s' := by
  induction h with
  | refl => exact ⟨rfl, hindexed, hs⟩
  | tail _ hlast ih =>
    obtain ⟨hlimits, hindexed, hholds⟩ := ih
    rw [← hlimits] at hlimit
    obtain ⟨hlimits', hindexed', hholds'⟩ := Meanwhile.keeps hkey hlatest hlimit hindexed hholds hlast
    exact ⟨hlimits'.trans hlimits, hindexed', hholds'⟩

end Logout

/-- A token is issued, read as a session, the session is ended, and the token is shown again: with a cache
whose system level evicts nothing, and a clock that never runs backwards. -/
structure Logout (codec : TokenCodec) (tokens : SessionTokens) where
  user : UserId
  drawn : Option IdDraw
  issued : SystemTime
  token : String
  issue : tokens.issueAt codec user drawn issued = .ok token
  looked : SystemTime
  session : Session
  look : tokens.verifyAt codec token looked = .ok session
  limits : LevelLimits
  unlimited : limits.of .system = none
  before : SledCache
  earlier : History Pool.anyStep (.opened limits) before
  ended : SystemTime
  endedBy : SystemTime
  after : SledCache
  logout : Ended session ended endedBy before after
  verified : SystemTime
  read : SystemTime
  found : SledCache
  meanwhile : Relation.ReflTransGen (Meanwhile session read) after found
  left : SledCache
  result : Except AuthError Session
  ask : Asked codec tokens token verified read found left result
  forward : ended ≤ endedBy ∧ endedBy ≤ verified ∧ verified ≤ read

/-- **A session that was ended is not accepted again**, provided the clock was not before the epoch when it
was ended, and a call that finds the token still good reads the cache before the token's second comes. -/
theorem ended_session_stays_ended {codec : TokenCodec} {tokens : SessionTokens}
    (l : Logout codec tokens) (hepoch : 0 ≤ l.ended)
    (hread : secondsSinceEpoch l.verified < l.session.expiresAt →
      millisSinceEpoch l.read < l.session.runsOut) (accepted : Session) : l.result ≠ .ok accepted := by
  obtain ⟨hended, hverified, -⟩ := l.forward
  have hask := l.ask
  rw [Asked, SessionTokens.verifyAt_eq l.issue l.look] at hask
  split at hask
  · rename_i error heq
    rw [hask.2]
    nofun
  · rename_i session hsession
    split at hsession
    · cases hsession
    · rename_i hgood
      obtain rfl := Except.ok.inj hsession
      split at hask
      · rw [hask.2]
        nofun
      · rename_i key hkey
        obtain ⟨found, hget, hresult⟩ := hask
        have hrunning := UInt64.not_le.mp hgood
        have hlatest := hread hrunning
        have hrunningThen : secondsSinceEpoch l.ended < l.session.expiresAt :=
          UInt64.lt_of_le_of_lt (secondsSinceEpoch_mono (hended.trans hverified)) hrunning
        obtain ⟨hlimits, hindexed⟩ := history_indexed (indexed_opened l.limits) l.earlier
        have hlimit : l.before.limits.of .system = none := by
          rw [hlimits]
          exact l.unlimited
        have hheld := l.logout.holds hlimit hkey hepoch hrunningThen
        obtain ⟨hafter, hindexed⟩ := l.logout.indexed hindexed
        rw [← hafter] at hlimit
        obtain ⟨hfound, hindexed, hheld⟩ :=
          Meanwhile.run_keeps hkey hlatest hlimit hindexed hheld l.meanwhile
        rw [← hfound, ← endedKey_level hkey] at hlimit
        obtain rfl := Answer.value.inj (get_finds hlimit hindexed hheld (spares_of_get hlatest hget))
        rw [hresult]
        nofun

/-! ### A logout, and the ways round one -/

/-- A letter for each byte, none of them a dot. -/
def letterOf (byte : UInt8) : Char := Char.ofNat (byte.toNat + 256)

theorem letterOf_toNat (byte : UInt8) : (letterOf byte).toNat = byte.toNat + 256 := by
  have hvalid : (byte.toNat + 256).isValidChar := .inl (by have := byte.toNat_lt; omega)
  rw [letterOf, Char.ofNat, dif_pos hvalid]
  rfl

/-- Reads and writes one set of claims only. -/
def codecOf (claims : Claims) : TokenCodec where
  encode bytes := String.ofList (bytes.map letterOf)
  decode text := some (text.toList.map fun letter => UInt8.ofNat (letter.toNat - 256))
  write written := if written = claims then some [] else none
  read _ := some claims
  mac _ _ := []
  undotted bytes hdot := by
    rw [String.toList_ofList] at hdot
    obtain ⟨byte, -, hbyte⟩ := List.mem_map.mp hdot
    have := congrArg Char.toNat hbyte
    rw [letterOf_toNat] at this
    have hvalue : '.'.toNat = 46 := rfl
    omega
  decode_encode bytes := by
    rw [String.toList_ofList, List.map_map]
    refine congrArg some ((List.map_congr_left fun byte _ => ?_).trans (List.map_id bytes))
    rw [Function.comp_apply, letterOf_toNat, Nat.add_sub_cancel]
    exact UInt8.ofNat_toNat
  read_write written bytes h := by
    split_ifs at h with heq
    rw [heq]

def erin : UserId := ⟨"erin", by decide, by decide, by decide⟩

/-- Tokens good for a hundred seconds. -/
def hundredSeconds : SessionTokens := ⟨"intelli-prism", [], 100000000000⟩

def zeros : IdDraw := ⟨List.replicate 16 0, rfl⟩

/-- The session of a token issued at the epoch. -/
def firstSession : Session := ⟨erin, ⟨hexEncode zeros⟩, 100⟩

def firstClaims : Claims := ⟨"erin", "intelli-prism", hexEncode zeros, 0, 100⟩

def firstToken : String := SessionTokens.signed "" ++ "." ++ ""

def firstKey : CacheKey :=
  ⟨.system, "session-ended:00000000000000000000000000000000", by decide, by decide⟩

theorem issueAt_first :
    hundredSeconds.issueAt (codecOf firstClaims) erin (some zeros) 0 = .ok firstToken := by
  have hclaims : (⟨erin.raw, hundredSeconds.issuer, hexEncode zeros, secondsSinceEpoch 0,
      saturatingAdd (secondsSinceEpoch 0) (asSecs hundredSeconds.ttl)⟩ : Claims) = firstClaims := by decide
  simp only [SessionTokens.issueAt, SessionId.generate, hclaims, codecOf, if_true]
  rfl

theorem endedKey_first : endedKey firstSession.id = .ok firstKey := by decide

theorem verifyAt_first (now : SystemTime) (h : secondsSinceEpoch now < 100) :
    hundredSeconds.verifyAt (codecOf firstClaims) firstToken now = .ok firstSession := by
  have hexpires : saturatingAdd (secondsSinceEpoch 0) (asSecs hundredSeconds.ttl) = 100 := by decide
  rw [SessionTokens.verifyAt_issued issueAt_first, hexpires, if_neg (UInt64.not_le.mpr h)]
  rfl

/-- Shows the token at `verified`, with the cache read at `read` in this many steps, after it was ended at
`ended`. -/
def shownAfter (ended verified read : SystemTime) (steps : ℕ) (found : Option Bytes) : Bool :=
  match remaining firstSession ended with
  | none => (answered (Within verified read) (.opened .none) (.get firstKey)
      (List.replicate steps ⟨millisSinceEpoch read, 0⟩)).any fun asked => asked.2 = .value found
  | some left => (answered (Within ended ended) (.opened .none) (.put firstKey [] (some left))
      (List.replicate 3 ⟨millisSinceEpoch ended, 0⟩)).any fun put => put.2 = .wrote &&
        (answered (Within verified read) put.1 (.get firstKey)
          (List.replicate steps ⟨millisSinceEpoch read, 0⟩)).any fun asked => asked.2 = .value found

theorem exists_logout {ended verified read : SystemTime} {found : Option Bytes} (steps : ℕ)
    (hforward : ended ≤ verified ∧ verified ≤ read) (hgood : secondsSinceEpoch verified < 100)
    (h : shownAfter ended verified read steps found = true) :
    ∃ l : Logout (codecOf firstClaims) hundredSeconds, l.session = firstSession ∧ l.ended = ended ∧
      l.verified = verified ∧ l.read = read ∧
      l.result = if found.isSome then .error .sessionRejected else .ok firstSession := by
  have hask : ∀ {s s' : SledCache}, Carried (Within verified read) (.get firstKey) s s' (.value found) →
      Asked (codecOf firstClaims) hundredSeconds firstToken verified read s s'
        (if found.isSome then .error .sessionRejected else .ok firstSession) := by
    intro s s' hget
    rw [Asked, verifyAt_first _ hgood]
    exact ⟨found, hget, rfl⟩
  have hrun : ∃ after left, Ended firstSession ended ended (.opened .none) after ∧
      Carried (Within verified read) (.get firstKey) after left (.value found) := by
    unfold shownAfter at h
    unfold Ended
    split at h
    · obtain ⟨⟨left, answer⟩, hasked, hanswer⟩ := (Option.any_eq_true _ _).mp h
      obtain rfl := of_decide_eq_true hanswer
      exact ⟨.opened .none, left, rfl, carried_of_answered hasked⟩
    · obtain ⟨⟨after, reply⟩, hput, hthen⟩ := (Option.any_eq_true _ _).mp h
      obtain ⟨hwrote, hget⟩ := Bool.and_eq_true_iff.mp hthen
      obtain rfl := of_decide_eq_true hwrote
      obtain ⟨⟨left, answer⟩, hasked, hanswer⟩ := (Option.any_eq_true _ _).mp hget
      obtain rfl := of_decide_eq_true hanswer
      exact ⟨after, left, ⟨firstKey, endedKey_first, carried_of_answered hput⟩, carried_of_answered hasked⟩
  obtain ⟨after, left, hended, hget⟩ := hrun
  exact ⟨{
    user := erin, drawn := some zeros, issued := 0, token := firstToken, issue := issueAt_first
    looked := 0, session := firstSession, look := verifyAt_first 0 (by decide)
    limits := .none, unlimited := rfl, before := .opened .none, earlier := .refl
    ended := ended, endedBy := ended, after := after, logout := hended
    verified := verified, read := read, found := after, meanwhile := .refl, left := left
    result := _, ask := hask hget, forward := ⟨le_refl _, hforward⟩ }, rfl, rfl, rfl, rfl, rfl⟩

/-- Ended at ten seconds and a fraction, and shown in the last millisecond of its hundredth. -/
theorem ended_session_stays_ended_late :
    ∃ l : Logout (codecOf firstClaims) hundredSeconds, l.session = firstSession ∧ l.ended = 10700000000 ∧
      l.read = 99999000000 ∧ ∀ accepted, l.result ≠ .ok accepted := by
  obtain ⟨l, hsession, hended, hverified, hread, -⟩ := exists_logout 1
    (show (10700000000 : SystemTime) ≤ 99999000000 ∧ (99999000000 : SystemTime) ≤ 99999000000 by decide)
    (by decide) (show shownAfter _ _ _ 1 (some []) = true by decide)
  exact ⟨l, hsession, hended, hread, ended_session_stays_ended l (by rw [hended]; decide)
    (fun _ => by rw [hread, hsession]; decide)⟩

/-- **An ended session comes back** when the token is checked in the last millisecond of its time and the
cache is read in the next; and when the clock was before the epoch as it was ended. -/
theorem ended_session_comes_back :
    (∃ l : Logout (codecOf firstClaims) hundredSeconds, l.ended = 10000000000 ∧
      l.verified = 99999000000 ∧ l.read = 100000000000 ∧ l.result = .ok l.session) ∧
    ∃ l : Logout (codecOf firstClaims) hundredSeconds, l.ended = -1 ∧
      l.verified = 10000000000 ∧ l.read = 10000000000 ∧ l.result = .ok l.session := by
  constructor
  · obtain ⟨l, hsession, hended, hverified, hread, hresult⟩ := exists_logout 2
      (show (10000000000 : SystemTime) ≤ 99999000000 ∧ (99999000000 : SystemTime) ≤ 100000000000 by decide)
      (by decide) (show shownAfter _ _ _ 2 none = true by decide)
    exact ⟨l, hended, hverified, hread, by rw [hresult, hsession]; rfl⟩
  · obtain ⟨l, hsession, hended, hverified, hread, hresult⟩ := exists_logout 1
      (show (-1 : SystemTime) ≤ 10000000000 ∧ (10000000000 : SystemTime) ≤ 10000000000 by decide)
      (by decide) (show shownAfter _ _ _ 1 none = true by decide)
    exact ⟨l, hended, hverified, hread, by rw [hresult, hsession]; rfl⟩

end IntelliPrism.Auth
