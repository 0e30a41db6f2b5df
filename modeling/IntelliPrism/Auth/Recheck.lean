import Mathlib.Data.Finset.Card
import Mathlib.Data.Finset.Range
import IntelliPrism.Auth.Request
import IntelliPrism.Gateway.Limit

/-!
# Asking for a passphrase again

A logged in user is asked for its passphrase again before a key is shown.  Each wrong one takes a slot in
the cache for the limit's window; once every slot is taken, none is checked.  The slots are counted before
a passphrase is verified and one is taken after it.

* `recheck` — the text of `Logins::recheck`, call by call, on a cache whose calls are atomic;
* `Counted` — what the slots account for: at any later moment, those verified less than a window before
  hold as many slots as they are, but for one that is about to take its slot;
* `along_recheck` — a recheck run alone keeps that, and at most the limit in any window;
* `guesses_bounded` — **rechecks that do not overlap verify at most the limit in any window**;
* `guesses_overlap` — rechecks that do can verify as many as there are.
-/

namespace IntelliPrism.Auth

open IntelliPrism.Core IntelliPrism.Lib IntelliPrism.Cache IntelliPrism.Manage

/-! ### The limit -/

def minRecheckAttempts : ℕ := 2

def maxRecheckAttempts : ℕ := 5

/-- How many wrong passphrases may be given before asking again is locked, and how long each counts. -/
structure RecheckLimit where
  attempts : ℕ
  window : Ttl
  atLeast : minRecheckAttempts ≤ attempts
  atMost : attempts ≤ maxRecheckAttempts

/-- Locks after so many wrong passphrases, within the least and the most a limit allows. -/
def RecheckLimit.new (attempts : ℕ) (window : Ttl) : RecheckLimit :=
  ⟨max (min attempts maxRecheckAttempts) minRecheckAttempts, window, Nat.le_max_right _ _,
    Nat.max_le.mpr ⟨Nat.min_le_right _ _, by decide⟩⟩

/-- Where one wrong passphrase given again is remembered while it counts. -/
def recheckId (user : UserId) (slot : ℕ) : String :=
  "recheck-failed:" ++ user.raw ++ ":" ++ toString slot

theorem recheckId_plain (user : UserId) (slot : ℕ) :
    (recheckId user slot).toList.all Gateway.plainChar = true := by
  have huser : user.raw.toList.all Gateway.plainChar = true := Gateway.plain_raw user
  have hslot : (toString slot).toList.all Gateway.plainChar = true := by
    refine List.all_eq_true.mpr fun c hc => Gateway.plainChar_of_idChar ?_
    simp [idChar, Char.isAlphanum, isDigit_of_mem_toString hc]
  exact Gateway.plain_append (Gateway.plain_append (Gateway.plain_append (by decide) huser) (by decide))
    hslot

/-- The key of a slot.  An account's id carries nothing a key refuses. -/
def slotKey (user : UserId) (slot : ℕ) : CacheKey where
  level := .system
  id := recheckId user slot
  nonempty := by
    intro h
    have hcolon := (String.append_eq_empty_iff.mp (String.append_eq_empty_iff.mp h).1).2
    exact absurd hcolon (by decide)
  usable := by
    have := recheckId_plain user slot
    simpa [List.all_eq_true, Gateway.plainChar] using this

def recheckKey (user : UserId) (slot : ℕ) : Except CacheError CacheKey :=
  CacheKey.new .system (recheckId user slot)

theorem recheckKey_eq (user : UserId) (slot : ℕ) : recheckKey user slot = .ok (slotKey user slot) :=
  Gateway.new_of_plain (slotKey user slot).nonempty (recheckId_plain user slot)

/-- What a wrong passphrase is remembered under tells the account and the slot. -/
theorem recheckId_inj {user user' : UserId} {slot slot' : ℕ}
    (h : recheckId user slot = recheckId user' slot') : user = user' ∧ slot = slot' := by
  have hparts := (append_four ..).symm.trans (h.trans (append_four ..))
  obtain ⟨huser, hslot⟩ := append_colon_inj user.colon_notMem user'.colon_notMem
    ((String.append_right_inj _).mp hparts)
  exact ⟨Ident.ext huser, toString_injective hslot⟩

theorem slotKey_injective (user : UserId) : Function.Injective (slotKey user) := by
  intro a b h
  exact (recheckId_inj (congrArg CacheKey.id h)).2

/-! ### The calls -/

/-- What a recheck calls. -/
inductive RecheckOp where
  | get (key : CacheKey)
  | claim (key : CacheKey) (ttl : Ttl)
  | remove (key : CacheKey)
  | user (id : UserId)
  | verify (passphrase : String) (verifier : PassphraseHash)

/-- What each call answers; of what `get` finds only whether it is there matters. -/
abbrev RecheckOp.Res : RecheckOp → Type
  | .get _ => Bool
  | .claim _ _ => Bool
  | .remove _ => Bool
  | .user _ => Except StorageError (Option User)
  | .verify _ _ => Except AuthError Bool

/-- The clock, what an atomic cache remembers until when, and, for the record, when passphrases were
verified. -/
structure Memory where
  now : ℕ
  expires : CacheKey → Option ℕ
  verified : List ℕ

/-- Whether something is remembered under a key at a moment. -/
def Memory.live (s : Memory) (key : CacheKey) (moment : ℕ) : Bool := (s.expires key).any (moment < ·)

namespace Memory

abbrev after (s : Memory) (elapsed : ℕ) : Memory := { s with now := s.now + elapsed }

/-- Remembers something under a key until a moment, or forgets what is under it. -/
abbrev set (s : Memory) (key : CacheKey) (expires : Option ℕ) : Memory :=
  { s with expires := Function.update s.expires key expires }

/-- Records that a passphrase is verified now. -/
abbrev log (s : Memory) : Memory := { s with verified := s.verified ++ [s.now] }

end Memory

/-- What a call is supplied with: how long since the one before, in milliseconds, and whether the store
answers. -/
structure Tick where
  elapsed : ℕ
  reachable : Bool
  deriving Repr, DecidableEq

section Recheck

variable (check : String → PassphraseHash → Except AuthError Bool) (stored : Option User)
  (absent : PassphraseHash) (limit : RecheckLimit) (user : UserId)

/-- Time passes, and a call is carried out. -/
def recheckHandle : Handler Tick Memory RecheckOp RecheckOp.Res := fun x op s =>
  let s := s.after x.elapsed
  match op with
  | .get key => (s, s.live key s.now)
  | .claim key ttl =>
    if s.live key s.now then (s, false) else (s.set key (some (s.now + ttl.millis)), true)
  | .remove key => (s.set key none, s.live key s.now)
  | .user _ => (s, if x.reachable then .ok stored else .error .backend)
  | .verify passphrase verifier =>
    match check passphrase verifier with
    | .error error => (s, .error error)
    | .ok matched => (s.log, .ok matched)

abbrev RecheckAction := Process RecheckOp RecheckOp.Res

def consult (op : RecheckOp) : RecheckAction op.Res := .call op .done

/-- How many of these slots are taken. -/
def countTaken : List ℕ → RecheckAction (Except AuthError ℕ)
  | [] => pure (.ok 0)
  | slot :: slots =>
    match recheckKey user slot with
    | .error error => pure (.error (.cache error))
    | .ok key => do
      let found ← consult (.get key)
      match ← countTaken slots with
      | .error error => pure (.error error)
      | .ok failed => pure (.ok (found.toNat + failed))

/-- How many wrong passphrases still count against a user. -/
def failedRechecks : RecheckAction (Except AuthError ℕ) := countTaken user (List.range limit.attempts)

def removeSlots : List ℕ → RecheckAction (Except AuthError Unit)
  | [] => pure (.ok ())
  | slot :: slots =>
    match recheckKey user slot with
    | .error error => pure (.error (.cache error))
    | .ok key => do
      let _ ← consult (.remove key)
      removeSlots slots

/-- Takes the first of these slots that is free. -/
def claimSlot : List ℕ → RecheckAction (Except AuthError Unit)
  | [] => pure (.ok ())
  | slot :: slots =>
    match recheckKey user slot with
    | .error error => pure (.error (.cache error))
    | .ok key => do
      if ← consult (.claim key limit.window) then pure (.ok ())
      else claimSlot slots

/-- What is done once a passphrase was verified. -/
def afterVerified (right : Bool) : RecheckAction (Except AuthError Unit) := do
  if right then removeSlots user (List.range limit.attempts)
  else
    match ← claimSlot limit user (List.range limit.attempts) with
    | .error error => pure (.error error)
    | .ok () =>
      match ← failedRechecks limit user with
      | .error error => pure (.error error)
      | .ok failed =>
        if limit.attempts ≤ failed then pure (.error .recheckLocked) else pure (.error .recheckRefused)

/-- Verifies a passphrase against what was found of the account, or against nobody's. -/
def verifyAgainst (passphrase : String) (found : Option User) :
    RecheckAction (Except AuthError Unit) := do
  match ← consult (.verify passphrase ((found.map User.passphrase).getD absent)) with
  | .error error => pure (.error error)
  | .ok matched => afterVerified limit user (found.isSome && matched)

/-- Asks a user who is logged in already for its passphrase again. -/
def recheck (passphrase : String) : RecheckAction (Except AuthError Unit) := do
  match ← failedRechecks limit user with
  | .error error => pure (.error error)
  | .ok failed =>
    if limit.attempts ≤ failed then pure (.error .recheckLocked)
    else
      match ← consult (.user user) with
      | .error error => pure (.error (.storage error))
      | .ok found => verifyAgainst absent limit user passphrase found

/-! ### What the slots account for -/

def taken (s : Memory) (moment : ℕ) : Finset ℕ :=
  (Finset.range limit.attempts).filter fun slot => s.live (slotKey user slot) moment = true

/-- How many of these moments are less than a window before a moment. -/
def recent (moments : List ℕ) (moment : ℕ) : ℕ :=
  moments.countP fun v => moment < v + limit.window.millis

/-- How many passphrases were verified within the window from a moment on. -/
def verifiedWithin (s : Memory) (moment : ℕ) : ℕ :=
  s.verified.countP fun v => moment ≤ v ∧ v < moment + limit.window.millis

/-- No window holds more than the limit. -/
def Bounded (s : Memory) : Prop := ∀ moment, verifiedWithin limit s moment ≤ limit.attempts

/-- From now on those verified less than a window before hold as many slots as they are, but for those
about to take theirs. -/
structure Counted (pending : List ℕ) (s : Memory) : Prop where
  past : ∀ v ∈ s.verified, v ≤ s.now
  waiting : ∀ v ∈ pending, v ≤ s.now
  covered : ∀ moment, s.now ≤ moment →
    recent limit s.verified moment ≤ (taken limit user s moment).card + recent limit pending moment
  bounded : Bounded limit s

variable {check stored absent limit user} {s : Memory} {pending : List ℕ}

theorem Memory.live_later {key : CacheKey} {moment later : ℕ} (h : s.live key moment = false)
    (hle : moment ≤ later) : s.live key later = false := by
  unfold Memory.live at h ⊢
  cases hexpires : s.expires key with
  | none => rfl
  | some expires =>
    rw [hexpires] at h
    simp only [Option.any_some, decide_eq_false_iff_not, not_lt] at h ⊢
    omega

theorem Counted.after (h : Counted limit user pending s) (elapsed : ℕ) :
    Counted limit user pending (s.after elapsed) where
  past v hv := (h.past v hv).trans (Nat.le_add_right _ _)
  waiting v hv := (h.waiting v hv).trans (Nat.le_add_right _ _)
  covered moment hle := h.covered moment ((Nat.le_add_right _ _).trans hle)
  bounded := h.bounded

theorem card_taken_lt {slot moment : ℕ} (hslot : slot < limit.attempts)
    (hfree : s.live (slotKey user slot) moment = false) :
    (taken limit user s moment).card < limit.attempts := by
  have hnot : slot ∉ taken limit user s moment := by simp [taken, hfree]
  have hsub : insert slot (taken limit user s moment) ⊆ Finset.range limit.attempts := by
    intro other hother
    rcases Finset.mem_insert.mp hother with rfl | hother
    · exact Finset.mem_range.mpr hslot
    · exact (Finset.mem_filter.mp hother).1
  have hcard := Finset.card_le_card hsub
  rw [Finset.card_insert_of_notMem hnot, Finset.card_range] at hcard
  omega

theorem verifiedWithin_le_recent {moment : ℕ} (h : s.now < moment + limit.window.millis) :
    verifiedWithin limit s moment ≤ recent limit s.verified s.now := by
  refine List.countP_mono_left fun v _ hv => ?_
  simp only [decide_eq_true_eq] at hv ⊢
  omega

/-- **A passphrase is verified while a slot is free.** -/
theorem Counted.verify (h : Counted limit user [] s) {slot : ℕ} (hslot : slot < limit.attempts)
    (hfree : s.live (slotKey user slot) s.now = false) :
    Counted limit user [s.now] s.log where
  past v hv := by
    rcases List.mem_append.mp hv with hv | hv
    · exact h.past v hv
    · exact (List.mem_singleton.mp hv).le
  waiting v hv := (List.mem_singleton.mp hv).le
  covered moment hle := by
    have hcovered := h.covered moment hle
    show recent limit (s.verified ++ [s.now]) moment ≤ (taken limit user s moment).card + _
    simp only [recent, List.countP_append, List.countP_nil] at hcovered ⊢
    omega
  bounded moment := by
    have hbounded := h.bounded moment
    show (s.verified ++ [s.now]).countP _ ≤ _
    rw [List.countP_append, List.countP_singleton]
    by_cases hin : moment ≤ s.now ∧ s.now < moment + limit.window.millis
    · have hrecent := verifiedWithin_le_recent hin.2
      have hcovered := h.covered s.now (Nat.le_refl _)
      have hroom := card_taken_lt hslot hfree
      rw [if_pos (decide_eq_true hin)]
      simp only [recent, List.countP_nil, verifiedWithin] at hrecent hcovered
      omega
    · rw [if_neg (by simpa using hin)]
      exact hbounded

/-- **A wrong passphrase takes a slot** that is free. -/
theorem Counted.claim {v : ℕ} (h : Counted limit user [v] s) {slot : ℕ} (hslot : slot < limit.attempts)
    (hfree : s.live (slotKey user slot) s.now = false) :
    Counted limit user [] (s.set (slotKey user slot) (some (s.now + limit.window.millis))) where
  past := h.past
  waiting v hv := by cases hv
  covered moment hle := by
    set s' := s.set (slotKey user slot) (some (s.now + limit.window.millis)) with hs'
    have hlive : ∀ other, other ≠ slot →
        s'.live (slotKey user other) moment = s.live (slotKey user other) moment := by
      intro other hne
      have hkeys : slotKey user other ≠ slotKey user slot := fun heq => hne (slotKey_injective user heq)
      simp only [hs', Memory.live, Function.update_of_ne hkeys]
    have hnot : slot ∉ taken limit user s moment := by
      simp [taken, Memory.live_later hfree hle]
    have hsub : taken limit user s moment ⊆ taken limit user s' moment := by
      intro other hother
      have hne : other ≠ slot := fun heq => hnot (heq ▸ hother)
      simp only [taken, Finset.mem_filter] at hother ⊢
      exact ⟨hother.1, (hlive other hne).trans hother.2⟩
    have hcovered := h.covered moment hle
    have hv := h.waiting v (List.mem_singleton_self v)
    show recent limit s.verified moment ≤ (taken limit user s' moment).card + recent limit [] moment
    by_cases hin : moment < s.now + limit.window.millis
    · have hmem : slot ∈ taken limit user s' moment := by
        simp [taken, hs', Memory.live, hslot, hin]
      have hcard := Finset.card_le_card (Finset.insert_subset hmem hsub)
      rw [Finset.card_insert_of_notMem hnot] at hcard
      have hone : recent limit [v] moment ≤ 1 := List.countP_le_length
      omega
    · have hnone : recent limit [v] moment = 0 := by
        rw [recent, List.countP_singleton, if_neg]
        simp only [decide_eq_true_eq]
        omega
      have hcard := Finset.card_le_card hsub
      omega
  bounded := h.bounded

/-! ### A recheck run alone -/

theorem along_countTaken (slots : List ℕ) (h : Counted limit user pending s) :
    (countTaken user slots).Along (recheckHandle check stored) (Bounded limit) (fun answer s' =>
      Counted limit user pending s' ∧
        (∀ key, s.live key s.now = false → s'.live key s'.now = false) ∧
        ∀ failed, answer = .ok failed → failed < slots.length →
          ∃ slot ∈ slots, s'.live (slotKey user slot) s'.now = false) s := by
  induction slots generalizing s with
  | nil => exact ⟨h.bounded, h, fun _ => id, fun failed _ hlt => absurd hlt (Nat.not_lt_zero _)⟩
  | cons slot slots ih =>
    unfold countTaken
    rw [recheckKey_eq]
    refine ⟨h.bounded, fun x => ?_⟩
    show ((countTaken user slots >>= fun counted => _ : RecheckAction (Except AuthError ℕ))).Along
      _ _ _ (s.after x.elapsed)
    refine (ih (h.after x.elapsed)).bind fun counted s' hpost => ?_
    obtain ⟨hcounted, hkeeps, hsome⟩ := hpost
    have hlater : ∀ key, s.live key s.now = false → s'.live key s'.now = false := fun key hdead =>
      hkeeps key (Memory.live_later (s := s) hdead (Nat.le_add_right _ _))
    cases counted with
    | error error => exact ⟨hcounted.bounded, hcounted, hlater, fun failed hok => by cases hok⟩
    | ok rest =>
      refine ⟨hcounted.bounded, hcounted, hlater, fun failed hok hlt => ?_⟩
      cases hfound : (s.after x.elapsed).live (slotKey user slot) (s.after x.elapsed).now with
      | false => exact ⟨slot, List.mem_cons_self .., hkeeps _ hfound⟩
      | true =>
        have htotal : failed = 1 + rest := by
          have hfailed := Except.ok.inj hok
          rw [← hfailed]
          exact congrArg (fun b : Bool => b.toNat + rest) hfound
        rw [List.length_cons] at hlt
        obtain ⟨other, hother, hdead⟩ := hsome rest rfl (by omega)
        exact ⟨other, List.mem_cons_of_mem _ hother, hdead⟩

theorem along_claimSlot {v : ℕ} (slots : List ℕ) (hslots : ∀ slot ∈ slots, slot < limit.attempts)
    (h : Counted limit user [v] s) (hfree : ∃ slot ∈ slots, s.live (slotKey user slot) s.now = false) :
    (claimSlot limit user slots).Along (recheckHandle check stored) (Bounded limit)
      (fun _ s' => Counted limit user [] s') s := by
  induction slots generalizing s with
  | nil =>
    obtain ⟨slot, hmem, -⟩ := hfree
    cases hmem
  | cons slot slots ih =>
    unfold claimSlot
    rw [recheckKey_eq]
    refine ⟨h.bounded, fun x => ?_⟩
    have hafter := h.after x.elapsed
    cases hlive : (s.after x.elapsed).live (slotKey user slot) (s.after x.elapsed).now with
    | true =>
      have hhandle : recheckHandle check stored x (.claim (slotKey user slot) limit.window) s
          = (s.after x.elapsed, false) := if_pos hlive
      rw [hhandle]
      refine ih (fun other hother => hslots other (List.mem_cons_of_mem _ hother)) hafter ?_
      obtain ⟨free, hmem, hdead⟩ := hfree
      have hdead' : (s.after x.elapsed).live (slotKey user free) (s.after x.elapsed).now = false :=
        Memory.live_later (s := s) hdead (Nat.le_add_right _ _)
      rcases List.mem_cons.mp hmem with rfl | hmem
      · rw [hlive] at hdead'
        cases hdead'
      · exact ⟨free, hmem, hdead'⟩
    | false =>
      have hhandle : recheckHandle check stored x (.claim (slotKey user slot) limit.window) s
          = ((s.after x.elapsed).set (slotKey user slot)
              (some ((s.after x.elapsed).now + limit.window.millis)), true) :=
        if_neg (by rw [hlive]; exact Bool.false_ne_true)
      rw [hhandle]
      have hclaimed := hafter.claim (hslots slot (List.mem_cons_self ..)) hlive
      exact ⟨hclaimed.bounded, hclaimed⟩

/-- A wrong passphrase takes its slot, and the slots are counted again. -/
theorem along_afterVerified {v : ℕ} (h : Counted limit user [v] s)
    (hfree : ∃ slot ∈ List.range limit.attempts, s.live (slotKey user slot) s.now = false) :
    (afterVerified limit user false).Along (recheckHandle check stored) (Bounded limit)
      (fun _ => Counted limit user []) s := by
  refine (along_claimSlot _ (fun slot hslot => List.mem_range.mp hslot) h hfree).bind fun answer s h => ?_
  cases answer with
  | error error => exact ⟨h.bounded, h⟩
  | ok done =>
    refine (along_countTaken _ h).bind fun counted s hpost => ?_
    cases counted with
    | error error => exact ⟨hpost.1.bounded, hpost.1⟩
    | ok failed =>
      dsimp only
      split <;> exact ⟨hpost.1.bounded, hpost.1⟩

/-- A wrong passphrase matches no account, whatever it is verified against. -/
theorem not_matched_of_wrong {passphrase : String} {matched : Bool}
    (hwrong : ∀ account ∈ stored, check passphrase account.passphrase ≠ .ok true)
    (hcheck : check passphrase ((stored.map User.passphrase).getD absent) = .ok matched) :
    (stored.isSome && matched) = false := by
  cases stored with
  | none => rfl
  | some account =>
    cases matched with
    | false => rfl
    | true => exact absurd hcheck (hwrong account rfl)

/-- A wrong passphrase is verified while a slot is free, and takes it. -/
theorem along_verifyAgainst {passphrase : String}
    (hwrong : ∀ account ∈ stored, check passphrase account.passphrase ≠ .ok true)
    (h : Counted limit user [] s)
    (hfree : ∃ slot ∈ List.range limit.attempts, s.live (slotKey user slot) s.now = false) :
    (verifyAgainst absent limit user passphrase stored).Along (recheckHandle check stored) (Bounded limit)
      (fun _ => Counted limit user []) s := by
  refine ⟨h.bounded, fun x => ?_⟩
  have h := h.after x.elapsed
  obtain ⟨slot, hslot, hdead⟩ := hfree
  have hdead : (s.after x.elapsed).live (slotKey user slot) (s.after x.elapsed).now = false :=
    Memory.live_later (s := s) hdead (Nat.le_add_right _ _)
  cases hcheck : check passphrase ((stored.map User.passphrase).getD absent) with
  | error error =>
    simp only [recheckHandle, hcheck]
    exact ⟨h.bounded, h⟩
  | ok matched =>
    simp only [recheckHandle, hcheck]
    show (afterVerified limit user (stored.isSome && matched)).Along _ _ _ _
    rw [not_matched_of_wrong hwrong hcheck]
    exact along_afterVerified (h.verify (List.mem_range.mp hslot) hdead) ⟨slot, hslot, hdead⟩

/-- **A recheck of a wrong passphrase run alone** leaves every one verified counted for. -/
theorem along_recheck {passphrase : String}
    (hwrong : ∀ account ∈ stored, check passphrase account.passphrase ≠ .ok true)
    (h : Counted limit user [] s) :
    (recheck absent limit user passphrase).Along (recheckHandle check stored) (Bounded limit)
      (fun _ => Counted limit user []) s := by
  refine (along_countTaken _ h).bind fun counted s hpost => ?_
  obtain ⟨h, -, hsome⟩ := hpost
  cases counted with
  | error error => exact ⟨h.bounded, h⟩
  | ok failed =>
    dsimp only
    split
    · exact ⟨h.bounded, h⟩
    · rename_i hlow
      rw [List.length_range] at hsome
      obtain ⟨slot, hslot, hdead⟩ := hsome failed rfl (Nat.not_le.mp hlow)
      refine ⟨h.bounded, fun x => ?_⟩
      have h := h.after x.elapsed
      cases hreachable : x.reachable with
      | false =>
        simp only [recheckHandle, hreachable]
        exact ⟨h.bounded, h⟩
      | true =>
        simp only [recheckHandle, hreachable]
        exact along_verifyAgainst hwrong h
          ⟨slot, hslot, Memory.live_later (s := s) hdead (Nat.le_add_right _ _)⟩

/-! ### Rechecks of one account -/

/-- **Guessing again is bounded** when rechecks do not overlap: whatever the limit, however many wrong
passphrases are given and however long each call takes, no window holds more verifications than the limit
allows, as long as the rechecks of the account are served one at a time. -/
theorem guesses_bounded {guesses : List String}
    (hwrong : ∀ guess ∈ guesses, ∀ account ∈ stored, check guess account.passphrase ≠ .ok true)
    (hs : s.verified = []) {q : Pool Memory (Task String RecheckOp RecheckOp.Res (Except AuthError Unit))}
    (h : Pool.Reach (Task.step (recheckHandle check stored)) Unshared
      ⟨s, guesses.map (Task.of (recheck absent limit user))⟩ q) (moment : ℕ) :
    verifiedWithin limit q.shared moment ≤ limit.attempts := by
  have hstart : Counted limit user [] s := by
    refine ⟨fun v hv => ?_, fun v hv => (List.not_mem_nil hv).elim, fun moment _ => ?_, fun moment => ?_⟩
    · rw [hs] at hv
      cases hv
    · rw [hs]
      exact Nat.zero_le _
    · rw [verifiedWithin, hs]
      exact Nat.zero_le _
  exact along_of_unshared (fun s h => Counted.bounded h)
    (fun guess hguess s h => along_recheck (hwrong guess hguess) h) hstart h moment

end Recheck

/-- An account, and a hasher that takes the verifier for the passphrase. -/
def guessedUser : User :=
  ⟨⟨"dave", by decide, by decide, by decide⟩, ⟨"correct horse staple"⟩, .regular, .epoch⟩

def plainCheck (passphrase : String) (verifier : PassphraseHash) : Except AuthError Bool :=
  .ok (passphrase == verifier.phc)

/-- Two wrong passphrases in a quarter of an hour. -/
def twoAttempts : RecheckLimit := .new 2 ⟨900000000000, by decide⟩

/-- Three rechecks of wrong passphrases on a cache that remembers nothing. -/
def threeGuesses : Pool Memory (Task String RecheckOp RecheckOp.Res (Except AuthError Unit)) :=
  ⟨⟨0, fun _ => none, []⟩, ["battery battery", "staple staple", "horse horse"].map
    (Task.of (recheck ⟨""⟩ twoAttempts guessedUser.id))⟩

/-- So many turns of one recheck, a millisecond each. -/
def guessTurns (i n : ℕ) : List (ℕ × Tick) := List.replicate n (i, ⟨1, true⟩)

theorem threeGuesses_wrong : ∀ guess ∈ ["battery battery", "staple staple", "horse horse"],
    ∀ account ∈ some guessedUser, plainCheck guess account.passphrase ≠ .ok true := by
  intro guess hguess account haccount
  obtain rfl : guessedUser = account := Option.some.inj haccount
  simp only [List.mem_cons, List.not_mem_nil, or_false] at hguess
  rcases hguess with rfl | rfl | rfl <;> exact fun h => absurd (Except.ok.inj h) (by decide)

/-- One after the other, the third is refused unchecked. -/
theorem guesses_bounded_three :
    ∃ q, Pool.Reach (Task.step (recheckHandle plainCheck (some guessedUser))) Unshared threeGuesses q ∧
      q.shared.verified.length = 2 ∧ verifiedWithin twoAttempts q.shared 0 ≤ 2 := by
  have hrun : (Pool.run (Task.step (recheckHandle plainCheck (some guessedUser))) Unshared threeGuesses
      (guessTurns 0 7 ++ guessTurns 1 8 ++ guessTurns 2 2)).any
      (fun q => q.shared.verified.length == 2) = true := by
    decide +kernel
  obtain ⟨q, hreach, htest⟩ := Pool.exists_reach_of_run hrun
  exact ⟨q, hreach, beq_iff_eq.mp htest, guesses_bounded threeGuesses_wrong rfl hreach 0⟩

/-- **Rechecks that overlap are not bounded.**  All three count before any of them takes a slot, and all
three passphrases are verified within one window of a limit of two. -/
theorem guesses_overlap :
    ∃ q, Pool.Reach (Task.step (recheckHandle plainCheck (some guessedUser))) Pool.anyStep threeGuesses q ∧
      twoAttempts.attempts < verifiedWithin twoAttempts q.shared 0 := by
  have hrun : (Pool.run (Task.step (recheckHandle plainCheck (some guessedUser))) Pool.anyStep threeGuesses
      (guessTurns 0 2 ++ guessTurns 1 2 ++ guessTurns 2 2 ++ guessTurns 0 2 ++ guessTurns 1 2 ++
        guessTurns 2 2)).any
      (fun q => decide (twoAttempts.attempts < verifiedWithin twoAttempts q.shared 0)) = true := by
    decide +kernel
  obtain ⟨q, hreach, htest⟩ := Pool.exists_reach_of_run hrun
  exact ⟨q, hreach, of_decide_eq_true htest⟩

end IntelliPrism.Auth
