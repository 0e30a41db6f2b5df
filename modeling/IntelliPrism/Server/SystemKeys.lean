import IntelliPrism.Auth.Recheck
import IntelliPrism.Auth.Sessions

/-!
# What the system level keeps, and under which ids

Nonces, wrong passphrases, ended sessions, counts and the published rules share one level of the cache.
Each kind writes its id as a tag and its parts with colons between them.  A nonce may hold colons of its
own, and stands last; an id of `ip-core` holds neither a colon nor a slash nor a star, which is what a
scope writes for a part it does not name.

* `SystemEntry.id` — an entry and its id, as each of the five is asked for;
* `SystemEntry.kind_of_id` — **the first colon ends the tag**, so two kinds never share an id;
* `nonceId_inj`, `endedId_inj`, and `recheckId_inj` and `counterId_inj` of the modules they belong to — the
  id tells the parts;
* `system_keys_never_collide` — so no two entries share an id, and `CacheKey::new` accepts each of them.
-/

namespace IntelliPrism.Server

open IntelliPrism.Core IntelliPrism.Lib IntelliPrism.Cache IntelliPrism.Auth
open IntelliPrism.Gateway (counterId counterId_inj counterId_plain hexDigit hexEncode new_of_plain
  plainChar plainChar_of_ascii plain_append plain_raw)

/-- The id of a session this server issued. -/
abbrev IssuedId := {session : SessionId // ∃ drawn, SessionId.generate drawn = .ok session}

/-- The kinds of entry in the system level. -/
inductive SystemKind where
  | nonce
  | wrongPassphrase
  | endedSession
  | count
  | rules
  deriving Repr, DecidableEq

/-- What the id of every entry of a kind begins with. -/
def SystemKind.tag : SystemKind → String
  | .nonce => "nonce"
  | .wrongPassphrase => "recheck-failed"
  | .endedSession => "session-ended"
  | .count => "limit"
  | .rules => "rules"

theorem SystemKind.colon_notMem_tag (kind : SystemKind) : ':' ∉ kind.tag.toList := by
  cases kind <;> decide

theorem SystemKind.tag_ne_empty (kind : SystemKind) : kind.tag.toList ≠ [] := by
  cases kind <;> decide

theorem SystemKind.tag_injective : Function.Injective SystemKind.tag := by
  intro a b
  cases a <;> cases b <;> decide

/-- What is kept in the system level. -/
inductive SystemEntry where
  | nonce (tenant : TenantId) (user : UserId) (spent : Nonce)
  | wrongPassphrase (user : UserId) (slot : ℕ)
  | endedSession (session : IssuedId)
  | count (scope : LimitScope) (counted : Core.Counted) (period : Period) (began : Timestamp)
  | rules

/-- The id a session that was logged out is remembered under. -/
def endedId (session : SessionId) : String := "session-ended:" ++ session.raw

/-- A limit that counts in this scope, whose allowance is no part of where it counts. -/
def countedBy (scope : LimitScope) (counted : Core.Counted) (period : Period) : Gateway.Limit :=
  ⟨scope, counted, period, ⟨1, Nat.one_ne_zero⟩⟩

namespace SystemEntry

/-- The id an entry is kept under.  Neither the signature of a request nor the allowance of a limit is
part of it. -/
def id : SystemEntry → String
  | nonce tenant user spent => nonceId ⟨tenant, user, spent, []⟩
  | wrongPassphrase user slot => recheckId user slot
  | endedSession session => endedId session.val
  | count scope counted period began => counterId (countedBy scope counted period) began
  | rules => "rules"

theorem asked_under_id :
    (∀ request : SignedRequest,
      nonceId request = (nonce request.tenant request.user request.nonce).id) ∧
    (∀ user slot, recheckKey user slot = CacheKey.new .system (wrongPassphrase user slot).id) ∧
    (∀ session : IssuedId, endedKey session.val = CacheKey.new .system (endedSession session).id) ∧
    ∀ (limit : Gateway.Limit) (began : Timestamp),
      (Gateway.counterKey limit began).id = (count limit.scope limit.counted limit.period began).id :=
  ⟨fun _ => rfl, fun _ _ => rfl, fun _ => rfl, fun _ _ => rfl⟩

def kind : SystemEntry → SystemKind
  | nonce _ _ _ => .nonce
  | wrongPassphrase _ _ => .wrongPassphrase
  | endedSession _ => .endedSession
  | count _ _ _ _ => .count
  | rules => .rules

/-- The id of an entry that has parts begins with the tag of its kind and a colon. -/
theorem begins_id (entry : SystemEntry) (h : entry ≠ rules) :
    ∃ rest, entry.id.toList = (entry.kind.tag.toList ++ [':']) ++ rest := by
  cases entry with
  | nonce tenant user spent =>
    have htag : ∃ rest, "nonce:".toList = (SystemKind.nonce.tag.toList ++ [':']) ++ rest := ⟨[], by decide⟩
    exact begins_append (begins_append (begins_append (begins_append (begins_append htag _) _) _) _) _
  | wrongPassphrase user slot =>
    have htag : ∃ rest, "recheck-failed:".toList =
        (SystemKind.wrongPassphrase.tag.toList ++ [':']) ++ rest := ⟨[], by decide⟩
    exact begins_append (begins_append (begins_append htag _) _) _
  | endedSession session =>
    have htag : ∃ rest, "session-ended:".toList =
        (SystemKind.endedSession.tag.toList ++ [':']) ++ rest := ⟨[], by decide⟩
    exact begins_append htag _
  | count scope counted period began =>
    have htag : ∃ rest, "limit:".toList = (SystemKind.count.tag.toList ++ [':']) ++ rest := ⟨[], by decide⟩
    refine begins_append (begins_append (begins_append (begins_append ?_ _) _) _) _
    exact begins_append (begins_append (begins_append htag _) _) _
  | rules => exact absurd rfl h

theorem toList_id (entry : SystemEntry) :
    ∃ rest, entry.id.toList ++ [':'] = entry.kind.tag.toList ++ ':' :: rest := by
  by_cases hrules : entry = rules
  · rw [hrules]
    exact ⟨[], rfl⟩
  · obtain ⟨rest, hrest⟩ := entry.begins_id hrules
    refine ⟨rest ++ [':'], ?_⟩
    rw [hrest, List.append_assoc, List.append_assoc]
    rfl

/-- **The first colon ends the tag**, so an id tells the kind of its entry. -/
theorem kind_of_id {a b : SystemEntry} (h : a.id = b.id) : a.kind = b.kind := by
  obtain ⟨rest, hrest⟩ := a.toList_id
  obtain ⟨rest', hrest'⟩ := b.toList_id
  rw [h, hrest'] at hrest
  have htag := append_cons_inj b.kind.colon_notMem_tag a.kind.colon_notMem_tag hrest
  exact SystemKind.tag_injective (String.toList_inj.mp htag.1.symm)

end SystemEntry

/-! ### What an id tells -/

/-- Whatever colons a nonce holds stand behind the two that end the tenant and the account. -/
theorem nonceId_inj {a b : SignedRequest} (h : nonceId a = nonceId b) :
    a.tenant = b.tenant ∧ a.user = b.user ∧ a.nonce = b.nonce := by
  have hid : ∀ r : SignedRequest, nonceId r =
      "nonce:" ++ (r.tenant.raw ++ (":" ++ (r.user.raw ++ (":" ++ r.nonce.raw)))) := fun r =>
    (append_four (_ ++ _ ++ _) _ _ _).trans (append_four ..)
  have hparts := (hid a).symm.trans (h.trans (hid b))
  obtain ⟨htenant, hrest⟩ := append_colon_inj a.tenant.colon_notMem b.tenant.colon_notMem
    ((String.append_right_inj _).mp hparts)
  obtain ⟨huser, hnonce⟩ := append_colon_inj a.user.colon_notMem b.user.colon_notMem hrest
  exact ⟨Ident.ext htenant, Ident.ext huser, Nonce.ext hnonce⟩

theorem endedId_inj {a b : SessionId} (h : endedId a = endedId b) : a = b := by
  have hraw : a.raw = b.raw := (String.append_right_inj _).mp h
  cases a
  cases b
  exact congrArg SessionId.mk hraw

theorem SystemEntry.id_injective : Function.Injective SystemEntry.id := by
  intro a b h
  have hkind := kind_of_id h
  -- only entries of one kind are left to tell apart
  cases a <;> cases b <;> cases hkind
  case nonce.nonce =>
    obtain ⟨htenant, huser, hspent⟩ := nonceId_inj h
    exact congr (congr (congrArg SystemEntry.nonce htenant) huser) hspent
  case wrongPassphrase.wrongPassphrase =>
    obtain ⟨huser, hslot⟩ := recheckId_inj h
    exact congr (congrArg SystemEntry.wrongPassphrase huser) hslot
  case endedSession.endedSession => exact congrArg SystemEntry.endedSession (Subtype.ext (endedId_inj h))
  case count.count =>
    obtain ⟨hscope, hcounted, hperiod, hbegan⟩ := counterId_inj h
    exact congr (congr (congr (congrArg SystemEntry.count hscope) hcounted) hperiod) hbegan
  case rules.rules => rfl

/-! ### What a key takes -/

theorem nonceId_plain (request : SignedRequest) : (nonceId request).toList.all plainChar = true := by
  have hnonce : request.nonce.raw.toList.all plainChar = true := by
    refine List.all_eq_true.mpr ?_
    intro c hc
    have hgraphic := List.find?_eq_none.mp request.nonce.graphic c hc
    simp only [isAsciiGraphic, Bool.not_eq_true', Bool.not_eq_false, Bool.and_eq_true,
      decide_eq_true_eq] at hgraphic
    exact plainChar_of_ascii hgraphic.1 hgraphic.2
  have hcolon : ":".toList.all plainChar = true := by decide
  have htenant := plain_append (plain_append (by decide : "nonce:".toList.all plainChar = true)
    (plain_raw request.tenant)) hcolon
  exact plain_append (plain_append (plain_append htenant (plain_raw request.user)) hcolon) hnonce

theorem plainChar_hexDigit : ∀ n < 16, plainChar (hexDigit n) = true := by decide

theorem hexEncode_plain (bytes : Bytes) : (hexEncode bytes).toList.all plainChar = true := by
  rw [hexEncode, String.toList_ofList, List.all_flatMap]
  refine List.all_eq_true.mpr ?_
  intro byte _
  have hbyte := byte.toNat_lt
  simp only [List.all_cons, List.all_nil, Bool.and_true, Bool.and_eq_true]
  exact ⟨plainChar_hexDigit _ (by omega), plainChar_hexDigit _ (by omega)⟩

theorem endedId_plain (session : IssuedId) : (endedId session.val).toList.all plainChar = true := by
  obtain ⟨session, drawn, hdrawn⟩ := session
  refine plain_append (by decide) ?_
  cases drawn with
  | none => cases hdrawn
  | some bytes =>
    cases hdrawn
    exact hexEncode_plain _

namespace SystemEntry

theorem id_plain (entry : SystemEntry) : entry.id.toList.all plainChar = true := by
  cases entry with
  | nonce tenant user spent => exact nonceId_plain _
  | wrongPassphrase user slot => exact recheckId_plain user slot
  | endedSession session => exact endedId_plain session
  | count scope counted period began => exact counterId_plain _ began
  | rules => decide

theorem id_ne_empty (entry : SystemEntry) : entry.id ≠ "" := by
  intro hempty
  obtain ⟨rest, hrest⟩ := entry.toList_id
  have hlength := congrArg List.length hrest
  have htag := List.length_pos_iff.mpr entry.kind.tag_ne_empty
  rw [hempty] at hlength
  simp only [String.toList_empty, List.nil_append, List.length_append, List.length_cons,
    List.length_nil] at hlength
  -- the colon that was added would be all there is
  omega

end SystemEntry

/-- **System cache keys never collide**: entries of different kinds, and entries of one kind any of whose
parts differ, are kept under different ids, `CacheKey::new` accepts every one of them, and it is under these
that nonces, wrong passphrases, ended sessions and counts are asked for. -/
theorem system_keys_never_collide :
    (∀ a b : SystemEntry, a ≠ b → a.id ≠ b.id) ∧
      (∀ entry : SystemEntry, ∃ key, CacheKey.new .system entry.id = .ok key ∧ key.level = .system ∧
        key.id = entry.id) ∧
      (∀ request : SignedRequest,
        nonceId request = (SystemEntry.nonce request.tenant request.user request.nonce).id) ∧
      (∀ user slot,
        recheckKey user slot = CacheKey.new .system (SystemEntry.wrongPassphrase user slot).id) ∧
      (∀ session : IssuedId,
        endedKey session.val = CacheKey.new .system (SystemEntry.endedSession session).id) ∧
      ∀ (limit : Gateway.Limit) (began : Timestamp), (Gateway.counterKey limit began).id
        = (SystemEntry.count limit.scope limit.counted limit.period began).id := by
  refine ⟨?_, ?_, SystemEntry.asked_under_id⟩
  · intro a b hdiffer hsame
    exact hdiffer (SystemEntry.id_injective hsame)
  · intro entry
    exact ⟨_, new_of_plain entry.id_ne_empty entry.id_plain, rfl, rfl⟩

end IntelliPrism.Server
