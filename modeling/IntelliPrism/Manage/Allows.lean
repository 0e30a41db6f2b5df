import IntelliPrism.Manage.Writes

/-!
# What a caller may do

`Manager::allows` reads the caller's membership in the tenant its scope names and then the caller's
grants.  On a store nobody else writes to, it answers with `Store.allowed`.  The proxy decides by an
`Authority` instead, built from a signed request; the two agree.

* `ends_allows` — **what `allows` answers**, read off its text once;
* `Store.Accepts` — a call by an account is found to be allowed;
* `management_agrees_with_proxy` — **the management api and the proxy agree**.
-/

namespace IntelliPrism.Manage

open IntelliPrism.Core IntelliPrism.Lib IntelliPrism.Auth
open IntelliPrism.Gateway (acme alice)

/-- Whether a caller may do a thing, as the store stands. -/
def Store.allowed (s : Store) (manager : Manager) (capability : Capability) (scope : CapabilityScope) :
    Bool :=
  let byRole (role : Role) :=
    role.implies capability scope || (s.grantsOf manager.user).holds capability scope
  if manager.isSystemAdministrator then true
  else
    match scope.inside with
    | none => byRole .member
    | some tenant =>
      match s.membership manager.user tenant with
      | none => false
      | some held => byRole (roleOf manager.kind held.standing tenant)

section Ends

variable {s s' : Store} {manager : Manager} {capability : Capability} {scope : CapabilityScope}

theorem ends_decideBy {role : Role} {b : Bool} :
    (manager.decideBy role capability scope).Ends handle s s' (.ok b) ↔
      s' = s ∧ b = (role.implies capability scope || (s.grantsOf manager.user).holds capability scope) := by
  refine Iff.trans (ends_read_bind (by rfl)) ?_
  constructor
  · rintro ⟨x, hrest⟩
    cases x with
    | none =>
      obtain ⟨-, hvalue⟩ := Process.ends_pure.mp hrest
      cases hvalue
    | some x =>
      obtain ⟨hs', hvalue⟩ := Process.ends_pure.mp hrest
      exact ⟨hs', Except.ok.inj hvalue⟩
  · rintro ⟨rfl, rfl⟩
    exact ⟨carriedOut, Process.ends_pure.mpr ⟨rfl, rfl⟩⟩

/-- **What `allows` answers**: the decision on the store as it stands. -/
theorem ends_allows {b : Bool} :
    (manager.allows capability scope).Ends handle s s' (.ok b) ↔
      s' = s ∧ b = s.allowed manager capability scope := by
  unfold Manager.allows Store.allowed
  dsimp only
  split
  · exact Process.ends_pure.trans (and_congr_right fun _ => ⟨Except.ok.inj, congrArg _⟩)
  · cases scope.inside with
    | none => exact ends_decideBy
    | some tenant =>
      dsimp only
      refine Iff.trans (ends_read_bind (by rfl)) ?_
      constructor
      · rintro ⟨x, hrest⟩
        split at hrest
        · obtain ⟨-, hvalue⟩ := Process.ends_pure.mp hrest
          cases hvalue
        · rename_i hheld
          rw [← handle_membership hheld]
          obtain ⟨hs', hvalue⟩ := Process.ends_pure.mp hrest
          exact ⟨hs', Except.ok.inj hvalue⟩
        · rename_i held hheld
          rw [← handle_membership hheld]
          exact ends_decideBy.mp hrest
      · rintro ⟨rfl, hb⟩
        refine ⟨carriedOut, ?_⟩
        have hanswer : (handle carriedOut (.membership manager.user tenant) s').2
            = .ok (s'.membership manager.user tenant) := rfl
        rw [hanswer]
        cases hheld : s'.membership manager.user tenant with
        | none =>
          rw [hheld] at hb
          exact Process.ends_pure.mpr ⟨rfl, congrArg _ hb⟩
        | some held =>
          rw [hheld] at hb
          exact ends_decideBy.mpr ⟨rfl, hb⟩

theorem ends_of {user : UserId} :
    (Manager.of user).Ends handle s s' (.ok manager) ↔
      s' = s ∧ ∃ stored, s.user user = some stored ∧ manager = ⟨stored.id, stored.kind⟩ := by
  refine Iff.trans (ends_read_bind (by rfl)) ?_
  constructor
  · rintro ⟨x, hrest⟩
    split at hrest
    · obtain ⟨-, hvalue⟩ := Process.ends_pure.mp hrest
      cases hvalue
    · obtain ⟨-, hvalue⟩ := Process.ends_pure.mp hrest
      cases hvalue
    · rename_i stored hstored
      obtain ⟨hs', hvalue⟩ := Process.ends_pure.mp hrest
      exact ⟨hs', stored, (handle_user hstored).symm, Except.ok.inj hvalue⟩
  · rintro ⟨rfl, stored, hstored, rfl⟩
    refine ⟨carriedOut, ?_⟩
    have hanswer : (handle carriedOut (.user user) s').2 = .ok (some stored) := congrArg Except.ok hstored
    rw [hanswer]
    exact Process.ends_pure.mpr ⟨rfl, rfl⟩

end Ends

/-- A call by an account is found to be allowed: its row is read, and `allows` answers yes. -/
def Store.Accepts (s : Store) (user : UserId) (capability : Capability) (scope : CapabilityScope) : Prop :=
  ∃ manager, (Manager.of user).Ends handle s s (.ok manager) ∧
    (manager.allows capability scope).Ends handle s s (.ok true)

theorem accepts_iff {s : Store} {user : UserId} {capability : Capability} {scope : CapabilityScope} :
    s.Accepts user capability scope ↔
      ∃ stored, s.user user = some stored ∧
        s.allowed ⟨stored.id, stored.kind⟩ capability scope = true := by
  constructor
  · rintro ⟨manager, hmanager, hallows⟩
    obtain ⟨-, stored, hstored, rfl⟩ := ends_of.mp hmanager
    exact ⟨stored, hstored, (ends_allows.mp hallows).2.symm⟩
  · rintro ⟨stored, hstored, hallowed⟩
    exact ⟨_, ends_of.mpr ⟨rfl, stored, hstored, rfl⟩, ends_allows.mpr ⟨rfl, hallowed.symm⟩⟩

/-- **What it takes to manage the users of a tenant** without being the administrator: to own it, or to
be a member that was granted it. -/
theorem allowed_userMgr {s : Store} {user : UserId} {tenant : TenantId} :
    s.allowed ⟨user, .regular⟩ .userMgr (.tenant user tenant) = true ↔
      ∃ held, s.membership user tenant = some held ∧ (held.standing = .owner ∨
        ∃ g ∈ s.grants.rows, g.capability = .userMgr ∧ g.scope = .tenant user tenant) := by
  have hholds : (s.grantsOf user).holds .userMgr (.tenant user tenant) = true ↔
      ∃ g ∈ s.grants.rows, g.capability = .userMgr ∧ g.scope = .tenant user tenant := by
    simp only [Grants.holds, Grants.granted, Capability.scopeKind, CapabilityScope.kind,
      Capability.prerequisite, ne_eq, not_true_eq_false, if_false, Option.any_none, Bool.false_eq_true,
      List.any_eq_true, Store.mem_grantsOf, Bool.and_eq_true, beq_iff_eq]
    constructor
    · rintro ⟨g, ⟨hg, -⟩, hmatch⟩
      exact ⟨g, hg, hmatch⟩
    · rintro ⟨g, hg, hmatch⟩
      exact ⟨g, ⟨hg, by rw [hmatch.2]; rfl⟩, hmatch⟩
  have hrole : ∀ standing, (roleOf .regular standing tenant).implies .userMgr (.tenant user tenant) = true ↔
      standing = .owner := by
    intro standing
    cases standing with
    | owner => simp [roleOf, Role.implies, Capability.scopeKind, CapabilityScope.kind,
        CapabilityScope.inside]
    | member => simp [roleOf, Role.implies]
  cases hheld : s.membership user tenant with
  | none => simp [Store.allowed, Manager.isSystemAdministrator, CapabilityScope.inside, hheld]
  | some held =>
    simp only [Store.allowed, Manager.isSystemAdministrator, CapabilityScope.inside, hheld, beq_iff_eq,
      reduceCtorEq, if_false, Bool.or_eq_true, hrole, hholds, Option.some.injEq, exists_eq_left']

/-! ### The proxy's decision -/

section Proxy

variable {sha256 : Bytes → Bytes} {nonceTtl : Cache.Ttl} {s s' : Store} {request : SignedRequest}
  {origin : IpAddr} {identity : Identity}

theorem calls_spend : (spend nonceTtl request).Calls Op.Reads := by
  unfold spend
  split
  · trivial
  · refine .bind (calls_ask.mpr rfl) fun claimed => ?_
    rcases claimed with _ | (_ | _) <;> trivial

theorem calls_verify : (verify sha256 nonceTtl request origin).Calls Op.Reads := by
  refine .bind (calls_ask.mpr rfl) fun user => ?_
  rcases user with _ | (_ | user)
  · trivial
  · trivial
  · dsimp only
    split
    · trivial
    · refine .bind (calls_ask.mpr rfl) fun tenant => ?_
      refine .bind (calls_ask.mpr rfl) fun membership => ?_
      split
      · trivial
      · trivial
      · trivial
      · trivial
      · split
        · -- the text of `spend` is set aside, so that no step computes the nonce's key
          have hspend := @calls_spend nonceTtl request
          generalize spend nonceTtl request = spending at hspend ⊢
          refine .bind hspend fun spent => ?_
          cases spent <;> trivial
        · trivial

/-- Whoever a request is found to be from is stored, and a member of the tenant it signed for. -/
theorem ends_verify (h : (verify sha256 nonceTtl request origin).Ends handle s s' (.ok identity)) :
    ∃ user held, s.user request.user = some user ∧
      s.membership request.user request.tenant = some held ∧
      identity = ⟨user.id, request.tenant, roleOf user.kind held.standing request.tenant⟩ := by
  obtain ⟨x, h⟩ := (ends_read_bind (by rfl)).mp h
  split at h
  · cases (Process.ends_pure.mp h).2
  · cases (Process.ends_pure.mp h).2
  · rename_i user huser
    split at h
    · cases (Process.ends_pure.mp h).2
    · obtain ⟨x, h⟩ := (ends_read_bind (by rfl)).mp h
      obtain ⟨x', h⟩ := (ends_read_bind (by rfl)).mp h
      split at h
      · cases (Process.ends_pure.mp h).2
      · cases (Process.ends_pure.mp h).2
      · cases (Process.ends_pure.mp h).2
      · cases (Process.ends_pure.mp h).2
      · rename_i tenant membership htenant hmembership
        split at h
        · obtain ⟨s₁, spent, -, h⟩ := Process.ends_bind.mp h
          split at h
          · cases (Process.ends_pure.mp h).2
          · have htenant' : some tenant = s.tenant request.tenant := by
              cases x with
              | none => cases htenant
              | some x => exact (Except.ok.inj htenant).symm
            have hid : tenant.id = request.tenant := (Table.find_eq_some.mp htenant'.symm).2
            refine ⟨user, membership, (handle_user huser).symm, (handle_membership hmembership).symm, ?_⟩
            rw [Except.ok.inj (Process.ends_pure.mp h).2, hid]
        · cases (Process.ends_pure.mp h).2

/-- The authority of an identity holds what is stored for its account. -/
theorem ends_authority {auth : Authority} (h : (authority identity).Ends handle s s' (.ok auth)) :
    auth = ⟨identity, s.grantsOf identity.user⟩ := by
  obtain ⟨x, h⟩ := (ends_read_bind (by rfl)).mp h
  split at h
  · cases (Process.ends_pure.mp h).2
  · rename_i grants hgrants
    rw [Except.ok.inj (Process.ends_pure.mp h).2, handle_grantsOf hgrants]

end Proxy

theorem implies_outside {standing : Standing} {tenant : TenantId} {capability : Capability}
    {scope : CapabilityScope} (h : scope.inside = none) :
    (roleOf .regular standing tenant).implies capability scope = false := by
  cases standing with
  | owner => simp [roleOf, Role.implies, h]
  | member => rfl

/-- **The management api and the proxy agree on what an account may do.**  For a regular account and a
scope of its own, inside the tenant it signed for or inside none, `allows` answers what the authority of
its verified request decides; and inside a tenant it is not a member of, `allows` answers no. -/
theorem management_agrees_with_proxy (sha256 : Bytes → Bytes) (nonceTtl : Cache.Ttl) (s : Store)
    (account : User) (hstored : s.user account.id = some account) (hregular : account.kind = .regular)
    (capability : Capability) (scope : CapabilityScope) (howner : scope.owner = account.id)
    (manager : Manager) (hmanager : (Manager.of account.id).Ends handle s s (.ok manager)) :
    (∀ (request : SignedRequest) (origin : IpAddr) (identity : Identity) (auth : Authority),
      request.user = account.id →
      (verify sha256 nonceTtl request origin).Ends handle s s (.ok identity) →
      (authority identity).Ends handle s s (.ok auth) →
      (∀ tenant, scope.inside = some tenant → tenant = request.tenant) →
      ∀ answer, (manager.allows capability scope).Ends handle s s (.ok answer) ↔
        answer = auth.allows capability scope) ∧
    ∀ tenant, scope.inside = some tenant → s.membership account.id tenant = none →
      ∀ answer, (manager.allows capability scope).Ends handle s s (.ok answer) ↔ answer = false := by
  obtain ⟨-, stored, hfound, rfl⟩ := ends_of.mp hmanager
  obtain rfl : stored = account := Option.some.inj (hfound.symm.trans hstored)
  have hordinary : (⟨stored.id, stored.kind⟩ : Manager).isSystemAdministrator = false := by
    rw [Manager.isSystemAdministrator, hregular]
    rfl
  constructor
  · intro request origin identity auth huser hverify hauthority hinside answer
    obtain ⟨user, held, huser', hheld, rfl⟩ := ends_verify hverify
    obtain rfl : user = stored := by
      rw [huser, hstored] at huser'
      exact (Option.some.inj huser').symm
    rw [ends_authority hauthority]
    refine ends_allows.trans ((and_iff_right rfl).trans (Eq.congr_right ?_))
    simp only [Store.allowed, hordinary, Authority.allows, howner, ne_eq, not_true_eq_false, if_false,
      Bool.false_eq_true]
    cases hscope : scope.inside with
    | none =>
      have hmember : Role.member.implies capability scope = false := rfl
      simp [hregular, implies_outside hscope, hmember]
    | some tenant =>
      obtain rfl := hinside tenant hscope
      rw [huser] at hheld
      simp [hheld]
  · intro tenant hscope hnone answer
    refine ends_allows.trans ((and_iff_right rfl).trans (Eq.congr_right ?_))
    simp only [Store.allowed, hordinary, Bool.false_eq_true, if_false, hscope, hnone]

/-- The tenant's owner as it is stored. -/
def aliceStored : User := ⟨alice, ⟨"$argon2id$"⟩, .regular, .epoch⟩

/-- A request the owner signed, with the digest that leaves everything as it is. -/
def aliceSigned : SignedRequest where
  tenant := acme
  user := alice
  nonce := ⟨"0123456789abcdef", by decide, by decide, by decide⟩
  signature := Cache.bytesOf "alice" ++ List.replicate 16 7 ++ Cache.bytesOf "0123456789abcdef"

/-- The owner of a tenant may manage its users, by either decision. -/
theorem management_agrees_for_an_owner :
    ∃ manager identity auth, (Manager.of alice).Ends handle acmeStore acmeStore (.ok manager) ∧
      (verify id ⟨1, by decide⟩ aliceSigned (.v4 10 0 0 1)).Ends handle acmeStore acmeStore (.ok identity) ∧
      (authority identity).Ends handle acmeStore acmeStore (.ok auth) ∧
      ∀ answer, (manager.allows .userMgr (.tenant alice acme)).Ends handle acmeStore acmeStore (.ok answer) ↔
        answer = auth.allows .userMgr (.tenant alice acme) := by
  have hstored : acmeStore.user alice = some aliceStored := by decide
  have hmanager : (Manager.of alice).Ends handle acmeStore acmeStore (.ok ⟨alice, .regular⟩) :=
    ends_of.mpr ⟨rfl, aliceStored, hstored, rfl⟩
  obtain ⟨identity, hidentity⟩ : ∃ identity, (Process.exec handle carriedOut
      (verify id ⟨1, by decide⟩ aliceSigned (.v4 10 0 0 1)) acmeStore).2 = .ok identity := by
    have hok : (Process.exec handle carriedOut (verify id ⟨1, by decide⟩ aliceSigned (.v4 10 0 0 1))
        acmeStore).2.isOk = true := by decide +kernel
    revert hok
    cases (Process.exec handle carriedOut (verify id ⟨1, by decide⟩ aliceSigned (.v4 10 0 0 1))
      acmeStore).2 with
    | error error => exact fun hok => by cases hok
    | ok identity => exact fun _ => ⟨identity, rfl⟩
  have hverify := Process.ends_exec handle carriedOut
    (verify id ⟨1, by decide⟩ aliceSigned (.v4 10 0 0 1)) acmeStore
  rw [hidentity, ends_reads calls_verify hverify] at hverify
  have hauthority : (authority identity).Ends handle acmeStore acmeStore
      (.ok ⟨identity, acmeStore.grantsOf identity.user⟩) :=
    (ends_read_bind (by rfl)).mpr ⟨carriedOut, Process.ends_pure.mpr ⟨rfl, rfl⟩⟩
  refine ⟨_, identity, _, hmanager, hverify, hauthority, ?_⟩
  refine (management_agrees_with_proxy id ⟨1, by decide⟩ acmeStore aliceStored hstored rfl .userMgr
    (.tenant alice acme) rfl _ hmanager).1 aliceSigned (.v4 10 0 0 1) identity _ rfl hverify hauthority ?_
  intro tenant hinside
  exact (Option.some.inj hinside).symm

end IntelliPrism.Manage
