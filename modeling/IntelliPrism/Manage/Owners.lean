import IntelliPrism.Manage.Writes

/-!
# Every tenant has one owner

An owner comes into being with its tenant, in one transaction, and leaves only with it: the handlers that
could take a membership away look first whether it is an owner's.  They look and write in two steps, and
an account can be deleted and made the owner of a new tenant of the same name in between.

* `OneOwner` — every tenant has exactly one owner, and nobody owns two;
* `ownership` — what a request that attaches, detaches or removes an account bears: no other step makes
  an owner of the account it is about;
* `one_owner_of_undisturbed` — **one owner throughout**, along every interleaving that bears that;
* `detach_takes_an_owner` — a schedule that does not, after which a tenant has no owner.
-/

namespace IntelliPrism.Manage

open IntelliPrism.Core IntelliPrism.Lib

def Store.Owns (s : Store) (user : UserId) (tenant : TenantId) : Prop :=
  ⟨user, tenant, .owner⟩ ∈ s.memberships.rows

/-- Every tenant has exactly one membership of standing owner, and every account has at most one. -/
def OneOwner (s : Store) : Prop :=
  (∀ tenant, s.tenants.Has tenant →
    ∃! m, m ∈ s.memberships.rows ∧ m.tenant = tenant ∧ m.standing = .owner) ∧
  ∀ m ∈ s.memberships.rows, ∀ m' ∈ s.memberships.rows, m.standing = .owner → m'.standing = .owner →
    m.user = m'.user → m = m'

/-- A store in which nothing but system administrators was put. -/
def OnlyAdministrators (s : Store) : Prop :=
  s.tenants.rows = [] ∧ s.memberships.rows = [] ∧ s.grants.rows = [] ∧
    ∀ user ∈ s.users.rows, user.kind = .systemAdministrator

theorem oneOwner_of_onlyAdministrators {s : Store} (h : OnlyAdministrators s) : OneOwner s := by
  obtain ⟨htenants, hmemberships, -, -⟩ := h
  constructor
  · rintro tenant ⟨t, ht, -⟩
    rw [htenants] at ht
    cases ht
  · intro m hm
    rw [hmemberships] at hm
    cases hm

/-! ### What each write leaves of it -/

section Writes

variable {s s' : Store}

theorem eq_of_mem_owns {m : Membership} (hm : m ∈ s.memberships.rows) (hstanding : m.standing = .owner) :
    s.Owns m.user m.tenant := by
  obtain ⟨user, tenant, standing⟩ := m
  cases hstanding
  exact hm

/-- Memberships may come and go as long as the owners and the tenants stay. -/
theorem OneOwner.of_owners (h : OneOwner s)
    (hmem : ∀ m : Membership, m.standing = .owner →
      (m ∈ s'.memberships.rows ↔ m ∈ s.memberships.rows ∧ s'.tenants.Has m.tenant))
    (htenants : ∀ tenant, s'.tenants.Has tenant → s.tenants.Has tenant) : OneOwner s' := by
  refine ⟨fun tenant htenant => ?_, fun m hm m' hm' hstanding hstanding' huser => ?_⟩
  · obtain ⟨m, ⟨hm, hin, hstanding⟩, huniq⟩ := h.1 tenant (htenants tenant htenant)
    refine ⟨m, ⟨(hmem m hstanding).mpr ⟨hm, hin ▸ htenant⟩, hin, hstanding⟩, ?_⟩
    rintro m' ⟨hm', hin', hstanding'⟩
    exact huniq m' ⟨((hmem m' hstanding').mp hm').1, hin', hstanding'⟩
  · exact h.2 m ((hmem m hstanding).mp hm).1 m' ((hmem m' hstanding').mp hm').1 hstanding hstanding' huser

theorem OneOwner.insertMembership (h : OneOwner s) {new : Membership} (hmember : new.standing = .member)
    (hnot : ¬ s.Owns new.user new.tenant) (hok : s.insertMembership new = .ok s') : OneOwner s' := by
  obtain ⟨hmemberships, htenants, -, -, -, -⟩ := Store.insertMembership_ok hok
  refine h.of_owners (fun m hstanding => ?_) fun tenant htenant => htenants ▸ htenant
  rw [hmemberships, Table.mem_upsert, htenants]
  constructor
  · rintro (rfl | hm)
    · rw [hmember] at hstanding
      cases hstanding
    · exact ⟨hm.1, (s.membershipsRefer m hm.1).2⟩
  · rintro ⟨hm, -⟩
    refine .inr ⟨hm, fun hkey => hnot ?_⟩
    obtain ⟨huser, hin⟩ := Prod.mk.inj hkey
    rw [← huser, ← hin]
    exact eq_of_mem_owns hm hstanding

theorem OneOwner.removeMember (h : OneOwner s) {user : UserId} {tenant : TenantId}
    (hnot : ¬ s.Owns user tenant) {removed : Membership × ℕ}
    (hok : s.removeMember user tenant = .ok (s', removed)) : OneOwner s' := by
  obtain ⟨htenants, -, hmemberships, -⟩ := Store.removeMember_ok hok
  refine h.of_owners (fun m hstanding => ?_) fun tenant htenant => htenants ▸ htenant
  rw [hmemberships, Table.mem_keep, htenants]
  constructor
  · rintro ⟨hm, -⟩
    exact ⟨hm, (s.membershipsRefer m hm).2⟩
  · rintro ⟨hm, -⟩
    refine ⟨hm, bne_iff_ne.mpr fun hkey => hnot ?_⟩
    obtain ⟨rfl, rfl⟩ := Prod.mk.inj hkey
    exact eq_of_mem_owns hm hstanding

theorem OneOwner.deleteUser (h : OneOwner s) {id : UserId} (hnot : ∀ tenant, ¬ s.Owns id tenant)
    (hok : s.deleteUser id = .ok s') : OneOwner s' := by
  obtain ⟨-, htenants, hmemberships, -⟩ := Store.deleteUser_ok hok
  refine h.of_owners (fun m hstanding => ?_) fun tenant htenant => htenants ▸ htenant
  rw [hmemberships, Table.mem_keep, htenants]
  constructor
  · rintro ⟨hm, -⟩
    exact ⟨hm, (s.membershipsRefer m hm).2⟩
  · rintro ⟨hm, -⟩
    refine ⟨hm, bne_iff_ne.mpr fun huser => hnot m.tenant ?_⟩
    rw [← huser]
    exact eq_of_mem_owns hm hstanding

theorem OneOwner.deleteTenant (h : OneOwner s) {id : TenantId} (hok : s.deleteTenant id = .ok s') :
    OneOwner s' := by
  obtain ⟨htenants, -, hmemberships, -⟩ := Store.deleteTenant_ok hok
  have hleft : ∀ tenant, s'.tenants.Has tenant ↔ s.tenants.Has tenant ∧ tenant ≠ id := by
    intro tenant
    rw [htenants]
    constructor
    · rintro ⟨t, ht, rfl⟩
      obtain ⟨ht, hne⟩ := Table.mem_keep.mp ht
      exact ⟨⟨t, ht, rfl⟩, bne_iff_ne.mp hne⟩
    · rintro ⟨hhas, hne⟩
      exact Table.has_keep_ne hhas hne
  refine h.of_owners (fun m _ => ?_) fun tenant htenant => ((hleft tenant).mp htenant).1
  rw [hmemberships, Table.mem_keep, hleft, bne_iff_ne]
  constructor
  · rintro ⟨hm, hne⟩
    exact ⟨hm, (s.membershipsRefer m hm).2, hne⟩
  · rintro ⟨hm, -, hne⟩
    exact ⟨hm, hne⟩

theorem OneOwner.addMember (h : OneOwner s) {new : User} {tenant : TenantId} {held : Membership}
    (hok : s.addMember new tenant = .ok (s', held)) : OneOwner s' := by
  obtain ⟨-, htenants, -, -, hmemberships⟩ := Store.addMember_ok hok
  refine h.of_owners (fun m hstanding => ?_) fun tenant htenant => htenants ▸ htenant
  rw [hmemberships, htenants]
  constructor
  · rintro (rfl | hm)
    · cases hstanding
    · exact ⟨hm, (s.membershipsRefer m hm).2⟩
  · rintro ⟨hm, -⟩
    exact .inr hm

/-- A new tenant has the new account for its owner; neither was there before, so no other is touched. -/
theorem OneOwner.createTenantWithOwner (h : OneOwner s) {tenant : Tenant} {owner : User}
    {held : Membership} (hok : s.createTenantWithOwner tenant owner = .ok (s', held)) : OneOwner s' := by
  obtain ⟨hnoTenant, hnoUser, htenants, -, -, hmemberships⟩ := Store.createTenantWithOwner_ok hok
  have htold : ∀ m ∈ s.memberships.rows, m.tenant ≠ tenant.id := fun m hm heq =>
    Store.not_mem_of_tenant_missing (heq ▸ hnoTenant) hm
  have huold : ∀ m ∈ s.memberships.rows, m.user ≠ owner.id := fun m hm heq =>
    Store.not_mem_of_user_missing (heq ▸ hnoUser) hm
  refine ⟨fun id hid => ?_, fun m hm m' hm' hstanding hstanding' huser => ?_⟩
  · obtain ⟨t, ht, rfl⟩ := hid
    rw [htenants, List.mem_append, List.mem_singleton] at ht
    rcases ht with ht | rfl
    · obtain ⟨m, ⟨hm, hin, hstanding⟩, huniq⟩ := h.1 t.id (Table.has_of_mem ht)
      refine ⟨m, ⟨(hmemberships m).mpr (.inr hm), hin, hstanding⟩, ?_⟩
      rintro m' ⟨hm', hin', hstanding'⟩
      rcases (hmemberships m').mp hm' with rfl | hm'
      · exact absurd (hin.trans hin'.symm) (htold m hm)
      · exact huniq m' ⟨hm', hin', hstanding'⟩
    · refine ⟨⟨owner.id, t.id, .owner⟩, ⟨(hmemberships _).mpr (.inl rfl), rfl, rfl⟩, ?_⟩
      rintro m' ⟨hm', hin', -⟩
      rcases (hmemberships m').mp hm' with rfl | hm'
      · rfl
      · exact absurd hin' (htold m' hm')
  · rcases (hmemberships m).mp hm with rfl | hm
    · rcases (hmemberships m').mp hm' with rfl | hm'
      · rfl
      · exact absurd huser.symm (huold m' hm')
    · rcases (hmemberships m').mp hm' with rfl | hm'
      · exact absurd huser (huold m hm)
      · exact h.2 m hm m' hm' hstanding hstanding' huser

end Writes

/-! ### The discipline -/

/-- The memberships a request looks at before it takes one away or writes over one. -/
def Request.LooksAt : Request → UserId → TenantId → Prop
  | .attach tenant user, account, inside | .detach tenant user, account, inside =>
    account.raw = user ∧ inside.raw = tenant
  | .removeUser user, account, _ => account.raw = user
  | _, _, _ => False

/-- The calls that leave every owner where it is. -/
def SparesOwners (s : Store) : Op → Prop
  | .attach new => new.standing = .member ∧ ¬ s.Owns new.user new.tenant
  | .removeMember user tenant => ¬ s.Owns user tenant
  | .deleteUser id => ∀ tenant, ¬ s.Owns id tenant
  | _ => True

/-- One owner for every tenant; a request under way bears every step but one that makes an owner where it
looked for one. -/
def ownership : Discipline handle Call where
  holds := OneOwner
  bears call s s' := ∀ user tenant, call.request.LooksAt user tenant →
    s'.Owns user tenant → s.Owns user tenant
  may _ := SparesOwners
  bears_refl _ _ _ _ _ := id
  bears_trans h₁ h₂ user tenant hlooks howns := h₁ user tenant hlooks (h₂ user tenant hlooks howns)
  keeps := by
    intro _ x op s hs hmay
    refine handle_written hs fun s' hwritten => ?_
    cases op with
    | attach new => exact hs.insertMembership hmay.1 hmay.2 hwritten
    | removeMember user tenant =>
      obtain ⟨removed, hok⟩ := hwritten
      exact hs.removeMember hmay hok
    | deleteUser id => exact hs.deleteUser hmay hwritten
    | deleteTenant id => exact hs.deleteTenant hwritten
    | createTenantWithOwner tenant key owner passphrase =>
      obtain ⟨new, account, held, -, -, -, hok⟩ := hwritten
      exact hs.createTenantWithOwner hok
    | addMember user passphrase tenant =>
      obtain ⟨account, held, -, -, hok⟩ := hwritten
      exact hs.addMember hok
    | grant new =>
      obtain ⟨htenants, -, hmemberships, -⟩ := Store.grant_ok hwritten
      rw [OneOwner, htenants, hmemberships]
      exact hs
    | revoke old =>
      obtain ⟨htenants, -, hmemberships, -⟩ := Store.revoke_ok hwritten
      rw [OneOwner, htenants, hmemberships]
      exact hs
    | user _ | tenant _ | membership _ _ | membershipsOfUser _ | grantsOf _ | grantsInTenant _ _
    | hash _ | generateKey | claim _ _ => exact hwritten.elim

theorem sparesOwners_of_reads (op : Op) (h : op.Reads) (s : Store) : SparesOwners s op := by
  cases op <;> trivial

/-- A membership that was looked up and is not an owner's shows that the account does not own the
tenant. -/
theorem not_owns_of_membership {s : Store} {user : UserId} {tenant : TenantId}
    (h : ∀ held, s.membership user tenant = some held → held.standing = .member) :
    ¬ s.Owns user tenant := by
  intro howns
  have := h _ (Store.membership_eq_some.mpr ⟨howns, rfl, rfl⟩)
  cases this

theorem standing_of_ne_owner {standing : Standing} (h : standing ≠ .owner) : standing = .member := by
  cases standing with
  | owner => exact absurd rfl h
  | member => rfl

/-- An attachment is looked up before it is written, and no owner was found. -/
theorem ownership_attach {manager : Manager} {caller : UserId} {tenant user : String} {s : Store}
    (hs : OneOwner s) :
    ownership.Always ⟨caller, .attach tenant user⟩ (fun _ _ => True) (manager.attach tenant user) s := by
  unfold Manager.attach
  split
  · rename_i inside account hinside haccount
    refine always_unlessRefused sparesOwners_of_reads hs fun s hs => ?_
    refine always_read rfl (fun _ => trivial) fun s _ hs x => ?_
    split
    · exact Discipline.always_true_pure _
    · exact Discipline.always_true_pure _
    · split
      · exact Discipline.always_true_pure _
      · refine always_read rfl (fun _ => trivial) fun s _ hs x => ?_
        split
        · exact Discipline.always_true_pure _
        · split <;> exact Discipline.always_true_pure _
        · rename_i hheld
          have hnone := handle_membership hheld
          refine always_last (fun s' hb _ => ⟨rfl, fun howns => ?_⟩) fun answer => by
            cases answer <;> trivial
          refine not_owns_of_membership (fun held hfound => ?_)
            (hb account inside ⟨raw_of_new haccount, raw_of_new hinside⟩ howns)
          rw [← hnone] at hfound
          cases hfound
  · exact Discipline.always_true_pure _

theorem ownership_detach {manager : Manager} {caller : UserId} {tenant user : String} {s : Store}
    (hs : OneOwner s) :
    ownership.Always ⟨caller, .detach tenant user⟩ (fun _ _ => True) (manager.detach tenant user) s := by
  unfold Manager.detach
  split
  · rename_i inside account hinside haccount
    refine always_unlessRefused sparesOwners_of_reads hs fun s hs => ?_
    refine always_read rfl (fun _ => trivial) fun s _ hs x => ?_
    split
    · exact Discipline.always_true_pure _
    · exact Discipline.always_true_pure _
    · rename_i held hheld
      have hfound := handle_membership hheld
      split
      · exact Discipline.always_true_pure _
      · rename_i hstanding
        refine always_last (fun s' hb _ howns => ?_) fun answer => by cases answer <;> trivial
        refine not_owns_of_membership (fun held' hheld' => ?_)
          (hb account inside ⟨raw_of_new haccount, raw_of_new hinside⟩ howns)
        rw [← hfound] at hheld'
        cases hheld'
        exact standing_of_ne_owner hstanding
  · exact Discipline.always_true_pure _

/-- An account that is found whole, without an owner's standing, owns nothing. -/
theorem ownership_found {manager : Manager} {caller : UserId} {user : String} {id : UserId}
    (hid : id.raw = user) {s : Store} :
    ownership.Always ⟨caller, .removeUser user⟩
      (fun answer s => ∀ stored seen, answer = .ok (some (stored, seen)) →
        seen.shown.length = seen.attached → (∀ m ∈ seen.shown, m.standing ≠ .owner) →
          ∀ tenant, ¬ s.Owns id tenant) (manager.found id) s := by
  refine always_read rfl (fun _ => trivial) fun s _ hs x => ?_
  split
  · intro s' _ _ stored seen h
    cases h
  · intro s' _ _ stored seen h
    cases h
  · refine always_read rfl (fun _ => trivial) fun s _ hs x => ?_
    split
    · intro s' _ _ stored seen h
      cases h
    · rename_i attached hattached
      -- Every tenant the account owns is among the attachments read, and stays so.
      have hall : ∀ tenant, s.Owns id tenant → ⟨id, tenant, .owner⟩ ∈ attached := by
        intro tenant howns
        rw [handle_membershipsOfUser hattached]
        exact Store.mem_membershipsOfUser.mpr ⟨howns, rfl⟩
      have hnone : ∀ {s' : Store}, (∀ tenant, s'.Owns id tenant → ⟨id, tenant, .owner⟩ ∈ attached) →
          ∀ {shown : List Membership}, shown.Sublist attached → shown.length = attached.length →
            (∀ m ∈ shown, m.standing ≠ .owner) → ∀ tenant, ¬ s'.Owns id tenant := by
        intro s' hall shown hsub hlen hno tenant howns
        rw [hsub.eq_of_length hlen] at hno
        exact hno _ (hall tenant howns) rfl
      have hstable : ∀ {s s' : Store}, ownership.bears ⟨caller, .removeUser user⟩ s s' →
          (∀ tenant, s.Owns id tenant → ⟨id, tenant, .owner⟩ ∈ attached) →
            ∀ tenant, s'.Owns id tenant → ⟨id, tenant, .owner⟩ ∈ attached :=
        fun hb hall tenant howns => hall tenant (hb id tenant hid howns)
      split
      · intro s' hb _ stored seen h
        cases h
        exact hnone (hstable hb hall) (List.Sublist.refl _)
      · refine Discipline.Always.bind hs (always_reads (Manager.calls_shownOf ..)
          (Manager.yields_shownOf ..) sparesOwners_of_reads hstable hall) fun answer s' _ hanswer => ?_
        obtain ⟨hyields, hall⟩ := hanswer
        split
        · intro s' _ _ stored seen h
          cases h
        · intro s' _ _ stored seen h
          cases h
        · rename_i shown _ _
          obtain ⟨more, hmore, heq⟩ := hyields _ rfl
          rw [List.nil_append] at heq
          intro s' hb _ stored seen h
          cases h
          exact hnone (hstable hb hall) (heq ▸ hmore)

theorem ownership_removeUser {manager : Manager} {caller : UserId} {user : String} {s : Store}
    (hs : OneOwner s) :
    ownership.Always ⟨caller, .removeUser user⟩ (fun _ _ => True) (manager.removeUser user) s := by
  refine always_removeUser hs (fun id hid _ => ownership_found (raw_of_new hid)) ?_
  intro id seen s s' hid hfound hlength hno hb _ tenant howns
  exact hfound hlength hno tenant (hb id tenant (raw_of_new hid) howns)

/-- **Every request keeps it.** -/
theorem ownership_serve (call : Call) (s : Store) (hs : OneOwner s) :
    ownership.Always call (fun _ _ => True) (serve call) s := by
  obtain ⟨caller, request⟩ := call
  cases request with
  | attach tenant user =>
    exact always_serve sparesOwners_of_reads hs fun _ _ hs => ownership_attach hs
  | detach tenant user =>
    exact always_serve sparesOwners_of_reads hs fun _ _ hs => ownership_detach hs
  | removeUser user =>
    exact always_serve sparesOwners_of_reads hs fun _ _ hs => ownership_removeUser hs
  | createTenant _ _ _ | readTenant _ | removeTenant _ | createUser _ _ _ | readUser _
  | grantInTenant _ _ _ | grantOnApi _ _ _ _ | revokeInTenant _ _ _ | revokeOnApi _ _ _ _
  | grantOnAccount _ _ | revokeOnAccount _ _ =>
    refine always_serve_of_writes sparesOwners_of_reads fun op s hwrite => ?_
    cases op <;> trivial

/-- **One owner throughout.**  From a store of nothing but system administrators, along every interleaving
of any requests in which no step makes an account the owner of a tenant while another request that looked
at the two is under way, every tenant has exactly one owner and every account owns at most one. -/
theorem one_owner_of_undisturbed {s : Store} (hs : OnlyAdministrators s) {calls : List Call}
    {q : Pool Store (Task Call Op Op.Res Reply)}
    (h : Pool.Reach (Task.step handle) ownership.Undisturbed (waiting s calls) q) :
    OneOwner q.shared :=
  (Discipline.reach ownership_serve (oneOwner_of_onlyAdministrators hs) h).1

/-! ### Runs -/

theorem onlyAdministrators_rootStore : OnlyAdministrators rootStore := by
  refine ⟨rfl, rfl, rfl, fun user huser => ?_⟩
  rw [List.mem_singleton.mp huser]

/-- A tenant and its owner are created, and the owner's account is asked to be removed. -/
def orderlyCalls : List Call :=
  [⟨root, .createTenant "acme" "alice" "correct horse staple"⟩, ⟨root, .removeUser "alice"⟩]

/-- The removal is refused, and the tenant still has its owner. -/
theorem one_owner_of_orderly_calls :
    ∃ q, OnlyAdministrators rootStore ∧
      Pool.Reach (Task.step handle) ownership.Undisturbed (waiting rootStore orderlyCalls) q ∧
      q.shared.memberships.rows.length = 1 ∧ OneOwner q.shared := by
  have hrun : (Pool.run (Task.step handle) Unshared (waiting rootStore orderlyCalls)
      (turns 0 4 ++ turns 1 3)).any (fun q => q.shared.memberships.rows.length == 1) = true := by
    decide +kernel
  obtain ⟨q, hreach, htest⟩ := Pool.exists_reach_of_run hrun
  have hundisturbed := ownership.reach_undisturbed_of_unshared hreach
  exact ⟨q, onlyAdministrators_rootStore, hundisturbed, beq_iff_eq.mp htest,
    one_owner_of_undisturbed onlyAdministrators_rootStore hundisturbed⟩

/-- A member is taken out of its tenant while the tenant and the account are deleted and the account is
made the owner of a new tenant of the same name. -/
def racingCalls : List Call :=
  [⟨root, .createTenant "acme" "alice" "correct horse staple"⟩,
    ⟨root, .createUser "bob" "acme" "correct horse staple"⟩,
    ⟨root, .detach "acme" "bob"⟩,
    ⟨root, .removeTenant "acme"⟩,
    ⟨root, .removeUser "bob"⟩,
    ⟨root, .createTenant "acme" "bob" "correct horse staple"⟩]

/-- **A detach that was let go on takes an owner out.**  It looked at the membership before the account
was made an owner, and writes after; the tenant is left with none. -/
theorem detach_takes_an_owner :
    OnlyAdministrators rootStore ∧
      ∃ q, Pool.Reach (Task.step handle) Pool.anyStep (waiting rootStore racingCalls) q ∧
        ¬ OneOwner q.shared := by
  refine ⟨onlyAdministrators_rootStore, ?_⟩
  have hrun : (Pool.run (Task.step handle) Pool.anyStep (waiting rootStore racingCalls)
      (turns 0 4 ++ turns 1 3 ++ turns 2 2 ++ turns 3 2 ++ turns 4 4 ++ turns 5 4 ++ turns 2 1)).any
      (fun q => q.shared.tenants.rows.length == 1 && q.shared.memberships.rows.isEmpty) = true := by
    decide +kernel
  obtain ⟨q, hreach, htest⟩ := Pool.exists_reach_of_run hrun
  refine ⟨q, hreach, fun hone => ?_⟩
  simp only [Bool.and_eq_true, beq_iff_eq, List.isEmpty_iff] at htest
  obtain ⟨tenant, htenant⟩ := List.length_eq_one_iff.mp htest.1
  have hhas : q.shared.tenants.Has tenant.id := ⟨tenant, htenant ▸ List.mem_singleton_self _, rfl⟩
  obtain ⟨m, ⟨hm, -, -⟩, -⟩ := hone.1 tenant.id hhas
  rw [htest.2] at hm
  cases hm

end IntelliPrism.Manage
