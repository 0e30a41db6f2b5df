import IntelliPrism.Auth.Recheck
import IntelliPrism.Auth.Sessions
import IntelliPrism.Manage.Handlers

/-!
# Sessions of accounts that were removed

A session token names an account by its id.  A request shown one is served for whatever account has that
id when the caller's row is read, so a session ends with its account only for as long as the id is nobody's.

* `Logins.logIn`, `Phase.step` — a login, and a request shown a token: the token is read, the cache is
  asked whether its session was ended, the caller's row is read, a write needs its header;
* `Visit.step` — what the server does next for any of those it serves, one call at a time;
* `Barred`, `barred_step` — while the account is missing, no request that shows its token comes through;
* `session_ends_with_account` — **a token issued to an account admits no request made after the account was
  removed**, as long as no account of that id is created;
* `session_outlives_account` — a run in which one is.
-/

namespace IntelliPrism.Manage

open IntelliPrism.Core IntelliPrism.Lib IntelliPrism.Cache IntelliPrism.Auth

/-! ### Logging in -/

/-- What logins are checked with, and tokens issued and read. -/
structure Logins where
  codec : TokenCodec
  tokens : SessionTokens
  check : String → PassphraseHash → Except AuthError Bool
  /-- What a login of nobody is checked against. -/
  absent : PassphraseHash

/-- Checks a passphrase against what was found of an account and issues a session, or refuses without
saying which half was wrong. -/
def Logins.logIn (logins : Logins) (passphrase : String) (stored : Option User) (drawn : Option IdDraw)
    (now : SystemTime) : Except AuthError String :=
  match logins.check passphrase ((stored.map User.passphrase).getD logins.absent) with
  | .error error => .error error
  | .ok matched =>
    match stored, matched with
    | some stored, true => logins.tokens.issueAt logins.codec stored.id drawn now
    | _, _ => .error .loginRefused

/-! ### Requests shown a token -/

/-- What the extractor of the caller reads of a request: what is asked, and whether the header is there
that only a page of this server sends. -/
structure Parts where
  request : Request
  csrf : Bool
  deriving DecidableEq

/-- Whether the method of an endpoint changes something, and so needs more than a cookie behind it. -/
def Request.changesSomething : Request → Bool
  | .readTenant _ | .readUser _ => false
  | _ => true

/-- Refuses a write that no page of this server asked for. -/
def Parts.guardCsrf (parts : Parts) : Except Status Unit :=
  if parts.request.changesSomething && !parts.csrf then .error .forbidden else .ok ()

/-- How far a request shown a token has come. -/
inductive Phase where
  | waiting
  | verified (session : Session)
  | live (session : Session)
  | refused (status : Status)
  | admitted (manager : Manager) (rest : Action Reply)

/-- What a step is supplied with: the store's own supply or its failure, the clock, the random source, and
what the cache finds. -/
structure Surroundings where
  supply : Option Supply
  now : SystemTime
  drawn : Option IdDraw
  found : Except CacheError (Option Bytes)

/-- Whether a session was ended, by what the cache finds; a failure to tell refuses as well. -/
def stillLive (session : Session) (found : Except CacheError (Option Bytes)) : Bool :=
  match endedKey session.id, found with
  | .ok _, .ok none => true
  | _, _ => false

/-- What is done next for a request shown a token. -/
def Phase.step (logins : Logins) (token : String) (parts : Parts) : Program Surroundings Store Phase :=
  fun x s phase =>
    match phase with
    | .waiting =>
      match logins.tokens.verifyAt logins.codec token x.now with
      | .error _ => some (s, .refused .unauthorized)
      | .ok session => some (s, .verified session)
    | .verified session =>
      some (s, if stillLive session x.found then .live session else .refused .unauthorized)
    | .live session =>
      match (Process.exec handle x.supply (Manager.of session.user) s).2 with
      | .error status => some (s, .refused status)
      | .ok manager =>
        match parts.guardCsrf with
        | .error status => some (s, .refused status)
        | .ok () => some (s, .admitted manager (parts.request.handler manager))
    | .refused _ => none
    | .admitted manager rest =>
      (Process.step handle x.supply s rest).map fun moved => (moved.1, .admitted manager moved.2)

/-! ### The server -/

/-- Something the server was asked: a login, a request that was signed, a request shown a token. -/
inductive Visit where
  | login (user : UserId) (passphrase : String)
  | looked (user : UserId) (passphrase : String) (stored : Option User)
  | loggedIn (user : UserId) (result : Except AuthError String)
  | signed (rest : Action Reply)
  | shown (token : String) (parts : Parts) (phase : Phase)

def Visit.step (logins : Logins) : Program Surroundings Store Visit := fun x s visit =>
  match visit with
  | .login user passphrase =>
    match (handle x.supply (.user user) s).2 with
    | .error error => some (s, .loggedIn user (.error (.storage error)))
    | .ok stored => some (s, .looked user passphrase stored)
  | .looked user passphrase stored =>
    some (s, .loggedIn user (logins.logIn passphrase stored x.drawn x.now))
  | .loggedIn _ _ => none
  | .signed rest => (Process.step handle x.supply s rest).map fun moved => (moved.1, .signed moved.2)
  | .shown token parts phase =>
    (Phase.step logins token parts x s phase).map fun moved => (moved.1, .shown token parts moved.2)

def Visit.Fresh : Visit → Prop
  | .login _ _ => True
  | .signed rest => ∃ call, rest = serve call
  | .shown _ _ phase => phase = .waiting
  | _ => False

/-- A step that creates no account of an id. -/
def Unrevived (logins : Logins) (user : UserId) : Guard Surroundings Store Visit := fun p visit x =>
  ∀ s' visit', Visit.step logins x p.shared visit = some (s', visit') → ¬ p.shared.users.Has user →
    ¬ s'.users.Has user

instance (logins : Logins) (user : UserId) (p : Pool Store Visit) (visit : Visit) (x : Surroundings) :
    Decidable (Unrevived logins user p visit x) :=
  decidable_of_iff (∀ moved ∈ Visit.step logins x p.shared visit,
    ¬ p.shared.users.Has user → ¬ moved.1.users.Has user)
    ⟨fun h s' visit' hstep => h (s', visit') hstep, fun h moved hstep => h moved.1 moved.2 hstep⟩

/-! ### What a token shows -/

section Tokens

variable {logins : Logins} {s s' : Store} {x : Surroundings}

/-- A login that went through issued its token to the account that was found. -/
theorem logIn_ok {passphrase token : String} {stored : Option User} {drawn : Option IdDraw}
    {now : SystemTime} (h : logins.logIn passphrase stored drawn now = .ok token) :
    ∃ account, stored = some account ∧
      logins.tokens.issueAt logins.codec account.id drawn now = .ok token := by
  unfold Logins.logIn at h
  split at h
  · cases h
  · split at h
    · exact ⟨_, rfl, h⟩
    · cases h

/-- What a login has found out: an account of the id it asked for, a token issued to that id. -/
def Visit.Truthful (logins : Logins) : Visit → Prop
  | .looked user _ stored => ∀ account, stored = some account → account.id = user
  | .loggedIn user result => ∀ token, result = .ok token →
      ∃ drawn issued, logins.tokens.issueAt logins.codec user drawn issued = .ok token
  | _ => True

theorem Visit.Fresh.truthful {visit : Visit} (h : visit.Fresh) : visit.Truthful logins := by
  cases visit with
  | looked user passphrase stored => exact h.elim
  | loggedIn user result => exact h.elim
  | login _ _ | signed _ | shown _ _ _ => trivial

theorem Visit.Truthful.step {visit visit' : Visit} (h : visit.Truthful logins)
    (hstep : Visit.step logins x s visit = some (s', visit')) : visit'.Truthful logins := by
  cases visit with
  | login user passphrase =>
    simp only [Visit.step] at hstep
    split at hstep
    · cases hstep
      exact fun token htoken => by cases htoken
    · rename_i stored hread
      cases hstep
      intro account haccount
      rw [haccount] at hread
      exact (Table.find_eq_some.mp (handle_user hread).symm).2
  | looked user passphrase stored =>
    cases hstep
    intro token htoken
    obtain ⟨account, rfl, hissue⟩ := logIn_ok htoken
    rw [h account rfl] at hissue
    exact ⟨x.drawn, x.now, hissue⟩
  | loggedIn user result => cases hstep
  | signed rest =>
    obtain ⟨moved, -, hmoved⟩ := Option.map_eq_some_iff.mp hstep
    cases hmoved
    trivial
  | shown token parts phase =>
    obtain ⟨moved, -, hmoved⟩ := Option.map_eq_some_iff.mp hstep
    cases hmoved
    trivial

/-- **A token a login returned was issued to the account it logged in to.** -/
theorem issued_of_reach {p q : Pool Store Visit} (hfresh : ∀ visit ∈ p.threads, visit.Fresh)
    (h : Pool.Reach (Visit.step logins) Pool.anyStep p q) {user : UserId} {token : String}
    (hreturned : .loggedIn user (.ok token) ∈ q.threads) :
    ∃ drawn issued, logins.tokens.issueAt logins.codec user drawn issued = .ok token := by
  have htruthful := h.local_invariant (S := fun _ => True) (T := fun _ visit => visit.Truthful logins)
    ⟨trivial, fun visit hvisit => (hfresh visit hvisit).truthful⟩
    (fun s pre t post x s' t' hlocal _ hstep =>
      ⟨trivial, (hlocal.2 t (List.mem_append_right _ List.mem_cons_self)).step hstep, fun _ hu => hu⟩)
  exact htruthful.2 _ hreturned token rfl

/-! ### Requests of nobody -/

theorem exec_of_missing {user : UserId} (hmissing : ¬ s.users.Has user) (x : Option Supply) :
    ∃ status, (Process.exec handle x (Manager.of user) s).2 = .error status := by
  cases x with
  | none => exact ⟨.internalServerError, rfl⟩
  | some x =>
    refine ⟨.unauthorized, ?_⟩
    have hnone : s.user user = none := Table.find_eq_none.mpr hmissing
    simp only [Manager.of, ask, Process.exec_bind, Process.exec_call, handle, answer, hnone]
    rfl

/-- A request that shows a token of an account has not come through. -/
def Barred (user : UserId) : Phase → Prop
  | .waiting | .refused _ => True
  | .verified session | .live session => session.user = user
  | .admitted _ _ => False

/-- **No step admits a request for an account that is missing.** -/
theorem barred_step {user : UserId} {token : String} {parts : Parts} {phase phase' : Phase}
    {drawn : Option IdDraw} {issued : SystemTime}
    (hissued : logins.tokens.issueAt logins.codec user drawn issued = .ok token)
    (hmissing : ¬ s.users.Has user) (hbarred : Barred user phase)
    (hstep : Phase.step logins token parts x s phase = some (s', phase')) :
    s' = s ∧ Barred user phase' := by
  cases phase with
  | waiting =>
    simp only [Phase.step] at hstep
    split at hstep
    · cases hstep
      exact ⟨rfl, trivial⟩
    · rename_i session hsession
      cases hstep
      exact ⟨rfl, SessionTokens.user_of_verifyAt hissued hsession⟩
  | verified session =>
    cases hstep
    refine ⟨rfl, ?_⟩
    split
    · exact hbarred
    · trivial
  | live session =>
    obtain rfl : session.user = user := hbarred
    obtain ⟨status, hstatus⟩ := exec_of_missing hmissing x.supply
    simp only [Phase.step, hstatus] at hstep
    cases hstep
    exact ⟨rfl, trivial⟩
  | refused status => cases hstep
  | admitted manager rest => exact hbarred.elim

end Tokens

/-! ### Runs -/

/-- A run of the server in which an account is removed and a request is made after that, which shows a
token that a login to the account returned. -/
structure Lifetime (logins : Logins) where
  start : Pool Store Visit
  fresh : ∀ visit ∈ start.threads, visit.Fresh
  before : Pool Store Visit
  earlier : Pool.Reach (Visit.step logins) Pool.anyStep start before
  user : UserId
  stored : before.shared.users.Has user
  after : Pool Store Visit
  removal : Pool.Steps (Visit.step logins) Pool.anyStep before after
  removed : ¬ after.shared.users.Has user
  place : ℕ
  token : String
  parts : Parts
  made : after.threads[place]? = some (.shown token parts .waiting)
  later : Pool Store Visit
  meanwhile : Pool.Reach (Visit.step logins) Pool.anyStep after later
  issued : .loggedIn user (.ok token) ∈ later.threads

def Lifetime.Admits {logins : Logins} (l : Lifetime logins) (manager : Manager) : Prop :=
  ∃ rest, l.later.threads[l.place]? = some (.shown l.token l.parts (.admitted manager rest))

/-- **A session ends with its account**, as long as no account of the same id is created between the
removal and the request: whoever else is served meanwhile, the request is never admitted. -/
theorem session_ends_with_account {logins : Logins} (l : Lifetime logins)
    (hunrevived : Pool.Reach (Visit.step logins) (Unrevived logins l.user) l.after l.later)
    (manager : Manager) : ¬ l.Admits manager := by
  intro hadmits
  obtain ⟨rest, hrest⟩ := hadmits
  obtain ⟨drawn, issued, hissued⟩ :=
    issued_of_reach l.fresh ((l.earlier.tail l.removal).trans l.meanwhile) l.issued
  have hbarred := hunrevived.thread_invariant
    (A := fun s visit => ¬ s.users.Has l.user ∧
      ∃ phase, visit = .shown l.token l.parts phase ∧ Barred l.user phase)
    l.made ⟨l.removed, .waiting, rfl, trivial⟩ ?_ ?_
  · obtain ⟨visit, hvisit, -, phase, rfl, hphase⟩ := hbarred
    rw [hrest] at hvisit
    cases hvisit
    exact hphase
  · intro p visit x s' visit' hA _ hstep
    obtain ⟨hmissing, phase, rfl, hphase⟩ := hA
    obtain ⟨⟨s'', phase'⟩, hmoved, heq⟩ := Option.map_eq_some_iff.mp hstep
    cases heq
    obtain ⟨rfl, hphase'⟩ := barred_step hissued hmissing hphase hmoved
    exact ⟨hmissing, phase', rfl, hphase'⟩
  · intro p visit x s' visit' other hA hguard hstep
    exact ⟨hguard s' visit' hstep hA.1, hA.2⟩

/-! ### One account after another -/

/-- Logins whose tokens are good for a hundred seconds, by passphrases that are compared. -/
def comparing : Logins := ⟨codecOf firstClaims, hundredSeconds, plainCheck, ⟨""⟩⟩

/-- The request that shows the token. -/
def asksAfterErin : Parts := ⟨.readUser "erin", false⟩

/-- An account is created, logged in to, removed and created again for someone else; then the token is
shown. -/
def visits : List Visit :=
  [.signed (serve ⟨root, .createUser "erin" "acme" "correct horse staple"⟩),
    .login erin "correct horse staple",
    .signed (serve ⟨root, .removeUser "erin"⟩),
    .signed (serve ⟨root, .createUser "erin" "acme" "battery battery"⟩),
    .shown firstToken asksAfterErin .waiting]

/-- A turn of a visit at the epoch, with what a passphrase is hashed to, and a cache that remembers
nothing. -/
def atEpoch (hashed : String) : Surroundings :=
  ⟨some ⟨.epoch, .epoch, some ⟨hashed⟩, none, .ok true⟩, 0, some zeros, .ok none⟩

def visitTurns (i n : ℕ) (hashed : String) : List (ℕ × Surroundings) := List.replicate n (i, atEpoch hashed)

/-- The visit is the login, and it returned the token. -/
def Visit.hasToken : Visit → Bool
  | .loggedIn user (.ok token) => user = erin && token = firstToken
  | _ => false

/-- The visit is the request, and this can be said of how far it has come. -/
def Visit.stands (test : Phase → Bool) : Visit → Bool
  | .shown token parts phase => token = firstToken && parts = asksAfterErin && test phase
  | _ => false

theorem mem_of_hasToken {threads : List Visit} (h : threads.any Visit.hasToken = true) :
    .loggedIn erin (.ok firstToken) ∈ threads := by
  obtain ⟨visit, hvisit, htoken⟩ := List.any_eq_true.mp h
  unfold Visit.hasToken at htoken
  split at htoken
  · simp only [Bool.and_eq_true, decide_eq_true_eq] at htoken
    obtain ⟨rfl, rfl⟩ := htoken
    exact hvisit
  · cases htoken

theorem shown_of_stands {visit : Option Visit} {test : Phase → Bool}
    (h : visit.any (Visit.stands test) = true) :
    ∃ phase, visit = some (.shown firstToken asksAfterErin phase) ∧ test phase = true := by
  obtain ⟨visit, rfl, hstands⟩ := (Option.any_eq_true _ _).mp h
  unfold Visit.stands at hstands
  split at hstands
  · rename_i phase
    simp only [Bool.and_eq_true, decide_eq_true_eq] at hstands
    obtain ⟨⟨rfl, rfl⟩, htest⟩ := hstands
    exact ⟨phase, rfl, htest⟩
  · cases hstands

def Phase.isWaiting : Phase → Bool
  | .waiting => true
  | _ => false

def Phase.isRefused : Phase → Bool
  | .refused status => status == .unauthorized
  | _ => false

def Phase.isAdmitted : Phase → Bool
  | .admitted manager _ => manager == ⟨erin, .regular⟩
  | _ => false

/-- The account is created, logged in to and removed; then this goes on, each step under a guard, and at
its end the test says how far the request has come. -/
def removedThen (C : Guard Surroundings Store Visit) [∀ p t x, Decidable (C p t x)]
    (rest : List (ℕ × Surroundings)) (test : Phase → Bool) : Bool :=
  (Pool.run (Visit.step comparing) Pool.anyStep ⟨acmeStore, visits⟩
      (visitTurns 0 3 "correct horse staple" ++ visitTurns 1 2 "" ++ visitTurns 2 3 "")).any fun before =>
    before.shared.users.Has erin && before.threads.any Visit.hasToken &&
      (Pool.fire (Visit.step comparing) Pool.anyStep before 2 (atEpoch "")).any fun after =>
        !after.shared.users.Has erin && after.threads[4]?.any (Visit.stands Phase.isWaiting) &&
          (Pool.run (Visit.step comparing) C after rest).any fun later =>
            later.threads.any Visit.hasToken && later.threads[4]?.any (Visit.stands test)

theorem visits_fresh : ∀ visit ∈ visits, visit.Fresh := by
  intro visit hvisit
  simp only [visits, List.mem_cons, List.not_mem_nil, or_false] at hvisit
  rcases hvisit with rfl | rfl | rfl | rfl | rfl
  · exact ⟨_, rfl⟩
  · trivial
  · exact ⟨_, rfl⟩
  · exact ⟨_, rfl⟩
  · rfl

theorem exists_lifetime {C : Guard Surroundings Store Visit} [∀ p t x, Decidable (C p t x)]
    {rest : List (ℕ × Surroundings)} {test : Phase → Bool} (h : removedThen C rest test = true) :
    ∃ l : Lifetime comparing, l.user = erin ∧ .loggedIn l.user (.ok l.token) ∈ l.before.threads ∧
      Pool.Reach (Visit.step comparing) C l.after l.later ∧
      ∃ phase, l.later.threads[l.place]? = some (.shown l.token l.parts phase) ∧ test phase = true := by
  obtain ⟨before, hbefore, h⟩ := (Option.any_eq_true _ _).mp h
  simp only [Bool.and_eq_true, decide_eq_true_eq] at h
  obtain ⟨⟨hstored, htoken⟩, h⟩ := h
  obtain ⟨after, hafter, h⟩ := (Option.any_eq_true _ _).mp h
  simp only [Bool.and_eq_true, Bool.not_eq_true', decide_eq_false_iff_not] at h
  obtain ⟨⟨hremoved, hwaiting⟩, h⟩ := h
  obtain ⟨later, hlater, h⟩ := (Option.any_eq_true _ _).mp h
  obtain ⟨hissued, hstands⟩ := Bool.and_eq_true_iff.mp h
  obtain ⟨phase, hmade, hphase⟩ := shown_of_stands hwaiting
  have hmade : after.threads[4]? = some (.shown firstToken asksAfterErin .waiting) := by
    cases phase <;> first | exact hmade | cases hphase
  have hreach := Pool.reach_of_run hlater
  have hany := hreach.strengthen (D := Pool.anyStep) (I := fun _ => True) trivial
    (fun _ _ _ _ _ _ _ _ _ _ => ⟨trivial, trivial⟩)
  exact ⟨{
    start := ⟨acmeStore, visits⟩, fresh := visits_fresh, before := before
    earlier := Pool.reach_of_run hbefore, user := erin, stored := hstored, after := after
    removal := Pool.steps_of_fire hafter, removed := hremoved, place := 4, token := firstToken
    parts := asksAfterErin, made := hmade, later := later, meanwhile := hany
    issued := mem_of_hasToken hissued }, rfl, mem_of_hasToken htoken, hreach, shown_of_stands hstands⟩

/-- Removed and not created again: the request is refused. -/
theorem session_ends_with_account_erin :
    ∃ l : Lifetime comparing, l.user = erin ∧ .loggedIn l.user (.ok l.token) ∈ l.before.threads ∧
      l.later.threads[l.place]? = some (.shown l.token l.parts (.refused .unauthorized)) ∧
      ∀ manager, ¬ l.Admits manager := by
  have hrun : removedThen (Unrevived comparing erin) (visitTurns 4 3 "") Phase.isRefused = true := by
    decide +kernel
  obtain ⟨l, huser, htoken, hreach, phase, hphase, htest⟩ := exists_lifetime hrun
  refine ⟨l, huser, htoken, ?_, session_ends_with_account l (huser ▸ hreach)⟩
  cases phase with
  | refused status =>
    obtain rfl := beq_iff_eq.mp htest
    exact hphase
  | waiting | verified _ | live _ | admitted _ _ => cases htest

/-- **A session outlives its account**: the token of an account that was removed admits whoever has it as
the account created under the same id after it. -/
theorem session_outlives_account :
    ∃ l : Lifetime comparing, l.user = erin ∧ .loggedIn l.user (.ok l.token) ∈ l.before.threads ∧
      l.Admits ⟨erin, .regular⟩ := by
  have hrun : removedThen Pool.anyStep (visitTurns 3 3 "battery battery" ++ visitTurns 4 3 "")
      Phase.isAdmitted = true := by
    decide +kernel
  obtain ⟨l, huser, htoken, -, phase, hphase, htest⟩ := exists_lifetime hrun
  refine ⟨l, huser, htoken, ?_⟩
  cases phase with
  | admitted manager rest =>
    obtain rfl := beq_iff_eq.mp htest
    exact ⟨rest, hphase⟩
  | waiting | verified _ | live _ | refused _ => cases htest

end IntelliPrism.Manage
