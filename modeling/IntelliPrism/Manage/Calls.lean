import IntelliPrism.Cache.Key
import IntelliPrism.Lib.Rely
import IntelliPrism.Manage.Store

/-!
# The calls a request makes

A handler of the server is a text that reads and writes the store, hashes a passphrase, draws a key and
spends a nonce, one call at a time.  `Op` is what it can call, `handle` what each call does to the store
and what it answers.  A call of the store is one atomic step, a transaction as well as a statement, and
any call can fail, which leaves the store as it was.

* `Op`, `Op.Res`, `handle` — the calls;
* `handle_reads` — **reads leave the store alone**, and `handle_user` and the others say what they answer;
* `handle_written` — what holds of the store before a write, and of what each outcome leaves, holds after;
* `always_read`, `always_after_reads`, `always_last` — a text that keeps a discipline, call by call.
-/

namespace IntelliPrism.Manage

open IntelliPrism.Core IntelliPrism.Lib IntelliPrism.Cache

/-- What a request calls. -/
inductive Op where
  | user (id : UserId)
  | tenant (id : TenantId)
  | membership (user : UserId) (tenant : TenantId)
  | membershipsOfUser (user : UserId)
  | grantsOf (user : UserId)
  | grantsInTenant (user : UserId) (tenant : TenantId)
  | attach (new : Membership)
  | deleteTenant (id : TenantId)
  | deleteUser (id : UserId)
  | grant (new : Grant)
  | revoke (old : Grant)
  | createTenantWithOwner (tenant : TenantId) (key : TnKey) (owner : UserId) (passphrase : PassphraseHash)
  | addMember (user : UserId) (passphrase : PassphraseHash) (tenant : TenantId)
  | removeMember (user : UserId) (tenant : TenantId)
  | hash (passphrase : String)
  | generateKey
  | claim (key : CacheKey) (ttl : Option Ttl)

abbrev Op.Res : Op → Type
  | .user _ => Except StorageError (Option User)
  | .tenant _ => Except StorageError (Option Tenant)
  | .membership _ _ => Except StorageError (Option Membership)
  | .membershipsOfUser _ => Except StorageError (List Membership)
  | .grantsOf _ => Except StorageError Grants
  | .grantsInTenant _ _ => Except StorageError Grants
  | .attach _ => Except StorageError Unit
  | .deleteTenant _ => Except StorageError Unit
  | .deleteUser _ => Except StorageError Unit
  | .grant _ => Except StorageError Unit
  | .revoke _ => Except StorageError Unit
  | .createTenantWithOwner _ _ _ _ => Except StorageError (Tenant × User × Membership)
  | .addMember _ _ _ => Except StorageError (User × Membership)
  | .removeMember _ _ => Except StorageError (Membership × ℕ)
  | .hash _ => Option PassphraseHash
  | .generateKey => Option TnKey
  | .claim _ _ => Except CacheError Bool

/-- What a call is supplied with from outside the store: the clock as a tenant's and a user's row are
written, the hasher, the random source and the cache. -/
structure Supply where
  tenantAt : Timestamp
  userAt : Timestamp
  hashed : Option PassphraseHash
  drawn : Option TnKey
  claimed : Except CacheError Bool

/-- What a call that is carried out may be supplied with. -/
def carriedOut : Option Supply :=
  some ⟨.epoch, .epoch, some ⟨"$argon2id$"⟩, some ⟨List.replicate 16 0, by decide⟩, .ok true⟩

/-- The store after a write and what the write answers; a failure leaves the store as it was. -/
def commit {α : Type} (s : Store) (written : Except StorageError (Store × α)) :
    Store × Except StorageError α :=
  match written with
  | .error error => (s, .error error)
  | .ok (s', value) => (s', .ok value)

def plain (written : Except StorageError Store) : Except StorageError (Store × Unit) :=
  written.map fun s => (s, ())

/-- What a call does and answers when it is carried out. -/
def answer (x : Supply) : (op : Op) → Store → Store × op.Res
  | .user id, s => (s, .ok (s.user id))
  | .tenant id, s => (s, .ok (s.tenant id))
  | .membership user tenant, s => (s, .ok (s.membership user tenant))
  | .membershipsOfUser user, s => (s, .ok (s.membershipsOfUser user))
  | .grantsOf user, s => (s, .ok (s.grantsOf user))
  | .grantsInTenant user tenant, s => (s, .ok (s.grantsInTenant user tenant))
  | .attach new, s => commit s (plain (s.insertMembership new))
  | .deleteTenant id, s => commit s (plain (s.deleteTenant id))
  | .deleteUser id, s => commit s (plain (s.deleteUser id))
  | .grant new, s => commit s (plain (s.grant new))
  | .revoke old, s => commit s (plain (s.revoke old))
  | .createTenantWithOwner tenant key owner passphrase, s =>
    let tenant : Tenant := ⟨tenant, key, x.tenantAt⟩
    let owner : User := ⟨owner, passphrase, .regular, x.userAt⟩
    commit s ((s.createTenantWithOwner tenant owner).map fun r => (r.1, tenant, owner, r.2))
  | .addMember user passphrase tenant, s =>
    let user : User := ⟨user, passphrase, .regular, x.userAt⟩
    commit s ((s.addMember user tenant).map fun r => (r.1, user, r.2))
  | .removeMember user tenant, s => commit s (s.removeMember user tenant)
  | .hash _, s => (s, x.hashed)
  | .generateKey, s => (s, x.drawn)
  | .claim _ _, s => (s, x.claimed)

/-- What a call answers when what it calls is out of reach. -/
def failed : (op : Op) → op.Res
  | .user _ | .tenant _ | .membership _ _ | .membershipsOfUser _ | .grantsOf _ | .grantsInTenant _ _
  | .attach _ | .deleteTenant _ | .deleteUser _ | .grant _ | .revoke _
  | .createTenantWithOwner _ _ _ _ | .addMember _ _ _ | .removeMember _ _ => .error .backend
  | .hash _ => none
  | .generateKey => none
  | .claim _ _ => .error .backend

/-- One call: carried out with what it is supplied with, or failed. -/
def handle : Handler (Option Supply) Store Op Op.Res := fun x op s =>
  match x with
  | none => (s, failed op)
  | some x => answer x op s

abbrev Action := Process Op Op.Res

def ask (op : Op) : Action op.Res := .call op .done

/-- Whether a call writes to the store. -/
def Op.writes : Op → Bool
  | .attach _ | .deleteTenant _ | .deleteUser _ | .grant _ | .revoke _
  | .createTenantWithOwner _ _ _ _ | .addMember _ _ _ | .removeMember _ _ => true
  | _ => false

def Op.Reads (op : Op) : Prop := op.writes = false

/-! ### What the calls do -/

variable {s : Store} {x : Option Supply}

/-- **Reads leave the store alone.** -/
theorem handle_reads {op : Op} (h : op.Reads) : (handle x op s).1 = s := by
  cases x with
  | none => rfl
  | some x => cases op <;> first | rfl | cases h

theorem handle_user {id : UserId} {found : Option User}
    (h : (handle x (.user id) s).2 = .ok found) : found = s.user id := by
  cases x with
  | none => cases h
  | some x => exact (Except.ok.inj h).symm

theorem handle_membership {user : UserId} {tenant : TenantId} {found : Option Membership}
    (h : (handle x (.membership user tenant) s).2 = .ok found) : found = s.membership user tenant := by
  cases x with
  | none => cases h
  | some x => exact (Except.ok.inj h).symm

theorem handle_membershipsOfUser {user : UserId} {found : List Membership}
    (h : (handle x (.membershipsOfUser user) s).2 = .ok found) : found = s.membershipsOfUser user := by
  cases x with
  | none => cases h
  | some x => exact (Except.ok.inj h).symm

theorem handle_grantsOf {user : UserId} {found : Grants}
    (h : (handle x (.grantsOf user) s).2 = .ok found) : found = s.grantsOf user := by
  cases x with
  | none => cases h
  | some x => exact (Except.ok.inj h).symm

theorem handle_grantsInTenant {user : UserId} {tenant : TenantId} {found : Grants}
    (h : (handle x (.grantsInTenant user tenant) s).2 = .ok found) :
    found = s.grantsInTenant user tenant := by
  cases x with
  | none => cases h
  | some x => exact (Except.ok.inj h).symm

/-- What holds of the store and of what a write that succeeds leaves holds after it. -/
theorem commit_left {α : Type} {P : Store → Prop} {written : Except StorageError (Store × α)} (hs : P s)
    (hwritten : ∀ s' value, written = .ok (s', value) → P s') : P (commit s written).1 := by
  unfold commit
  split
  · exact hs
  · exact hwritten _ _ rfl

theorem commit_plain {P : Store → Prop} {written : Except StorageError Store} (hs : P s)
    (hwritten : ∀ s', written = .ok s' → P s') : P (commit s (plain written)).1 := by
  cases written with
  | error error => exact hs
  | ok s' => exact hwritten s' rfl

/-- What each write leaves when it succeeds. -/
def Written (s : Store) : Op → Store → Prop
  | .attach new, s' => s.insertMembership new = .ok s'
  | .deleteTenant id, s' => s.deleteTenant id = .ok s'
  | .deleteUser id, s' => s.deleteUser id = .ok s'
  | .grant new, s' => s.grant new = .ok s'
  | .revoke old, s' => s.revoke old = .ok s'
  | .createTenantWithOwner tenant _ owner _, s' => ∃ (new : Tenant) (account : User) (held : Membership),
      new.id = tenant ∧ account.id = owner ∧ account.kind = .regular ∧
        s.createTenantWithOwner new account = .ok (s', held)
  | .addMember user _ tenant, s' => ∃ (account : User) (held : Membership),
      account.id = user ∧ account.kind = .regular ∧ s.addMember account tenant = .ok (s', held)
  | .removeMember user tenant, s' => ∃ removed, s.removeMember user tenant = .ok (s', removed)
  | _, _ => False

/-- **What a call can do to the store**: nothing, or what its write does. -/
theorem handle_written {P : Store → Prop} {op : Op} (hs : P s)
    (hwritten : ∀ s', Written s op s' → P s') : P (handle x op s).1 := by
  cases x with
  | none => exact hs
  | some x =>
    cases op with
    | attach new => exact commit_plain hs hwritten
    | deleteTenant id => exact commit_plain hs hwritten
    | deleteUser id => exact commit_plain hs hwritten
    | grant new => exact commit_plain hs hwritten
    | revoke old => exact commit_plain hs hwritten
    | createTenantWithOwner tenant key owner passphrase =>
      refine commit_left hs fun s' value h => hwritten s' ?_
      obtain ⟨⟨s'', held⟩, hcreate, h⟩ := ok_of_map h
      cases h
      exact ⟨_, _, held, rfl, rfl, rfl, hcreate⟩
    | addMember user passphrase tenant =>
      refine commit_left hs fun s' value h => hwritten s' ?_
      obtain ⟨⟨s'', held⟩, hadd, h⟩ := ok_of_map h
      cases h
      exact ⟨_, held, rfl, rfl, hadd⟩
    | removeMember user tenant => exact commit_left hs fun s' value h => hwritten s' ⟨value, h⟩
    | user _ | tenant _ | membership _ _ | membershipsOfUser _ | grantsOf _ | grantsInTenant _ _
    | hash _ | generateKey | claim _ _ => exact hs

/-! ### Texts that keep a discipline -/

@[simp] theorem calls_ask {P : Op → Prop} {op : Op} : (ask op).Calls P ↔ P op :=
  ⟨And.left, fun h => ⟨h, fun _ => trivial⟩⟩

/-- A read ends nothing: the rest of the text goes on from the same store. -/
theorem ends_read_bind {α : Type} {op : Op} (hop : op.Reads) {next : op.Res → Action α} {s' : Store}
    {value : α} : (ask op >>= next).Ends handle s s' value ↔
      ∃ x, (next (handle x op s).2).Ends handle s s' value := by
  constructor
  · intro h
    cases h with
    | call x rest =>
      have hrest : (next (handle x op s).2).Ends handle (handle x op s).1 s' value := rest
      rw [handle_reads hop] at hrest
      exact ⟨x, hrest⟩
  · rintro ⟨x, h⟩
    refine .call x ?_
    show (next (handle x op s).2).Ends handle (handle x op s).1 s' value
    rwa [handle_reads hop]

theorem ends_reads {α : Type} {p : Action α} {s' : Store} {value : α} (hp : p.Calls Op.Reads)
    (h : p.Ends handle s s' value) : s' = s :=
  h.relate (R := fun s s' => s' = s) hp (fun _ => rfl) (fun h₁ h₂ => h₂.trans h₁)
    fun _ hop _ _ => handle_reads hop

section Always

variable {κ α β : Type} {D : Discipline handle κ} {k : κ} {Q : α → Store → Prop}

theorem always_read {op : Op} {next : op.Res → Action α} (hop : op.Reads) (hmay : ∀ s, D.may k s op)
    (hnext : ∀ s', D.bears k s s' → D.holds s' → ∀ x, D.Always k Q (next (handle x op s').2) s') :
    D.Always k Q (ask op >>= next) s := by
  intro s' hb hh
  refine ⟨hmay s', fun x => ?_⟩
  show D.Always k Q (next (handle x op s').2) (handle x op s').1
  rw [handle_reads hop]
  exact hnext s' hb hh x

theorem always_after_reads {p : Action β} {next : β → Action α} (hp : p.Calls Op.Reads)
    (hmay : ∀ op : Op, op.Reads → ∀ s, D.may k s op) (hs : D.holds s)
    (hnext : ∀ value s', D.holds s' → D.Always k Q (next value) s') : D.Always k Q (p >>= next) s :=
  Discipline.Always.bind hs (Discipline.always_of_calls (hp.mono fun op hop s _ => hmay op hop s))
    fun value s' hs' _ => hnext value s' hs'

/-- Reads leave standing what the request bears, and return what their text yields. -/
theorem always_reads {p : Action β} {Y : β → Prop} {F : Store → Prop} (hp : p.Calls Op.Reads)
    (hy : p.Yields Y) (hmay : ∀ op : Op, op.Reads → ∀ s, D.may k s op)
    (hstable : ∀ {s s'}, D.bears k s s' → F s → F s') (hs : F s) :
    D.Always k (fun value s => Y value ∧ F s) p s := by
  induction p generalizing s with
  | done value => exact fun s' hb _ => ⟨hy, hstable hb hs⟩
  | call op next ih =>
    intro s' hb _
    refine ⟨hmay op hp.1 s', fun x => ih _ (hp.2 _) (hy _) ?_⟩
    rw [handle_reads hp.1]
    exact hstable hb hs

theorem always_last {op : Op} {next : op.Res → Action α}
    (hmay : ∀ s', D.bears k s s' → D.holds s' → D.may k s' op)
    (hnext : ∀ answer, (next answer).Calls fun _ => False) :
    D.Always k (fun _ _ => True) (ask op >>= next) s := by
  intro s' hb hh
  exact ⟨hmay s' hb hh, fun x =>
    Discipline.always_of_calls ((hnext _).mono fun _ hfalse => hfalse.elim)⟩

end Always

end IntelliPrism.Manage
