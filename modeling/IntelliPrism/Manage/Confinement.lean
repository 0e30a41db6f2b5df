import IntelliPrism.Manage.Writes

/-!
# No grant outlives the membership it was made for

A member is taken out of a tenant together with its grants inside it, and a grant is recorded only for a
member.  The second is checked and written in two steps, and the member can be taken out in between.

* `GrantsInside` — every grant inside a tenant is held by a member of it;
* `confinement` — what a request that grants bears: no other step takes the member's membership away;
* `grants_inside_of_undisturbed` — **no grant is left behind**, along every interleaving that bears that,
  and whoever is put in holds nothing inside;
* `grant_outlives_membership` — a schedule that does not.
-/

namespace IntelliPrism.Manage

open IntelliPrism.Core IntelliPrism.Lib

/-- Every grant inside a tenant is held by a member of it. -/
def GrantsInside (s : Store) : Prop :=
  ∀ g ∈ s.grants.rows, ∀ tenant, g.scope.inside = some tenant → s.Member g.scope.owner tenant

/-! ### What each write leaves of it -/

section Writes

variable {s s' : Store}

theorem member_of_upsert {new : Membership} (hmemberships : s'.memberships = s.memberships.upsert new)
    {user : UserId} {tenant : TenantId} (h : s.Member user tenant) : s'.Member user tenant := by
  obtain ⟨m, hm, rfl, rfl⟩ := h
  rw [Store.Member, hmemberships]
  by_cases hkey : m.key = new.key
  · obtain ⟨huser, htenant⟩ := Prod.mk.inj hkey
    exact ⟨new, Table.mem_upsert.mpr (.inl rfl), huser.symm, htenant.symm⟩
  · exact ⟨m, Table.mem_upsert.mpr (.inr ⟨hm, hkey⟩), rfl, rfl⟩

theorem GrantsInside.of_kept (h : GrantsInside s) (hgrants : ∀ g ∈ s'.grants.rows, g ∈ s.grants.rows)
    (hmembers : ∀ g ∈ s'.grants.rows, ∀ tenant, g.scope.inside = some tenant →
      s.Member g.scope.owner tenant → s'.Member g.scope.owner tenant) : GrantsInside s' :=
  fun g hg tenant hin => hmembers g hg tenant hin (h g (hgrants g hg) tenant hin)

theorem GrantsInside.deleteTenant (h : GrantsInside s) {id : TenantId}
    (hok : s.deleteTenant id = .ok s') : GrantsInside s' := by
  obtain ⟨-, -, hmemberships, hgrants⟩ := Store.deleteTenant_ok hok
  refine h.of_kept (fun g hg => ?_) fun g hg tenant hin hmember => ?_
  · rw [hgrants] at hg
    exact (Table.mem_keep.mp hg).1
  · rw [hgrants] at hg
    obtain ⟨m, hm, huser, htenant⟩ := hmember
    refine ⟨m, hmemberships ▸ Table.mem_keep.mpr ⟨hm, bne_iff_ne.mpr fun heq => ?_⟩, huser, htenant⟩
    have hne := bne_iff_ne.mp (Table.mem_keep.mp hg).2
    exact hne (hin.trans (congrArg some (htenant.symm.trans heq)))

theorem GrantsInside.deleteUser (h : GrantsInside s) {id : UserId} (hok : s.deleteUser id = .ok s') :
    GrantsInside s' := by
  obtain ⟨-, -, hmemberships, hgrants⟩ := Store.deleteUser_ok hok
  refine h.of_kept (fun g hg => ?_) fun g hg tenant hin hmember => ?_
  · rw [hgrants] at hg
    exact (Table.mem_keep.mp hg).1
  · rw [hgrants] at hg
    obtain ⟨m, hm, huser, htenant⟩ := hmember
    refine ⟨m, hmemberships ▸ Table.mem_keep.mpr ⟨hm, bne_iff_ne.mpr fun heq => ?_⟩, huser, htenant⟩
    exact bne_iff_ne.mp (Table.mem_keep.mp hg).2 (huser.symm.trans heq)

/-- The one that is taken out holds nothing inside any more; the others stay. -/
theorem GrantsInside.removeMember (h : GrantsInside s) {user : UserId} {tenant : TenantId}
    {removed : Membership × ℕ} (hok : s.removeMember user tenant = .ok (s', removed)) :
    GrantsInside s' := by
  obtain ⟨-, -, hmemberships, hgrants⟩ := Store.removeMember_ok hok
  refine h.of_kept (fun g hg => ?_) fun g hg inside hin hmember => ?_
  · rw [hgrants] at hg
    exact (Table.mem_keep.mp hg).1
  · rw [hgrants] at hg
    obtain ⟨m, hm, huser, htenant⟩ := hmember
    refine ⟨m, hmemberships ▸ Table.mem_keep.mpr ⟨hm, bne_iff_ne.mpr fun hkey => ?_⟩, huser, htenant⟩
    obtain ⟨huser', htenant'⟩ := Prod.mk.inj hkey
    have hheld : Store.heldInside user tenant g = true :=
      Store.heldInside_iff.mpr ⟨huser.symm.trans huser', by rw [hin, ← htenant, htenant']⟩
    have hleft := (Table.mem_keep.mp hg).2
    rw [hheld] at hleft
    cases hleft

end Writes

/-! ### The discipline -/

/-- Whom a request grants something to, and inside which tenant. -/
def Request.GrantsTo : Request → UserId → TenantId → Prop
  | .grantInTenant tenant user _, account, inside | .grantOnApi tenant user _ _, account, inside =>
    account.raw = user ∧ inside.raw = tenant
  | _, _, _ => False

/-- The calls that give nothing to an account that is not a member. -/
def GivesInside (s : Store) : Op → Prop
  | .grant new => ∀ tenant, new.scope.inside = some tenant → s.Member new.scope.owner tenant
  | _ => True

/-- Every grant inside a tenant is a member's; a request under way bears every step but one that takes
away the membership it grants for. -/
def confinement : Discipline handle Call where
  holds := GrantsInside
  bears call s s' := ∀ user tenant, call.request.GrantsTo user tenant →
    s.Member user tenant → s'.Member user tenant
  may _ := GivesInside
  bears_refl _ _ _ _ _ := id
  bears_trans h₁ h₂ user tenant hto hmember := h₂ user tenant hto (h₁ user tenant hto hmember)
  keeps := by
    intro _ x op s hs hmay
    refine handle_written hs fun s' hwritten => ?_
    cases op with
    | attach new =>
      obtain ⟨hmemberships, -, -, hgrants, -, -⟩ := Store.insertMembership_ok hwritten
      exact hs.of_kept (fun g hg => hgrants ▸ hg) fun _ _ _ _ => member_of_upsert hmemberships
    | removeMember user tenant =>
      obtain ⟨removed, hok⟩ := hwritten
      exact hs.removeMember hok
    | deleteUser id => exact hs.deleteUser hwritten
    | deleteTenant id => exact hs.deleteTenant hwritten
    | createTenantWithOwner tenant key owner passphrase =>
      obtain ⟨new, account, held, -, -, -, hok⟩ := hwritten
      obtain ⟨-, -, -, -, hgrants, hmemberships⟩ := Store.createTenantWithOwner_ok hok
      refine hs.of_kept (fun g hg => hgrants ▸ hg) fun _ _ _ _ hmember => ?_
      obtain ⟨m, hm, hwho⟩ := hmember
      exact ⟨m, (hmemberships m).mpr (.inr hm), hwho⟩
    | addMember user passphrase tenant =>
      obtain ⟨account, held, -, -, hok⟩ := hwritten
      obtain ⟨-, -, -, hgrants, hmemberships⟩ := Store.addMember_ok hok
      refine hs.of_kept (fun g hg => hgrants ▸ hg) fun _ _ _ _ hmember => ?_
      obtain ⟨m, hm, hwho⟩ := hmember
      exact ⟨m, (hmemberships m).mpr (.inr hm), hwho⟩
    | grant new =>
      obtain ⟨-, -, hmemberships, hgrants⟩ := Store.grant_ok hwritten
      intro g hg tenant hin
      rw [Store.Member, hmemberships]
      rcases (hgrants g).mp hg with rfl | hg
      · exact hmay tenant hin
      · exact hs g hg tenant hin
    | revoke old =>
      obtain ⟨-, -, hmemberships, hgrants⟩ := Store.revoke_ok hwritten
      refine hs.of_kept (fun g hg => ?_) fun _ _ _ _ hmember => ?_
      · rw [hgrants] at hg
        exact (Table.mem_keep.mp hg).1
      · rw [Store.Member, hmemberships]
        exact hmember
    | user _ | tenant _ | membership _ _ | membershipsOfUser _ | grantsOf _ | grantsInTenant _ _
    | hash _ | generateKey | claim _ _ => exact hwritten.elim

theorem givesInside_of_reads (op : Op) (h : op.Reads) (s : Store) : GivesInside s op := by
  cases op <;> trivial

theorem confinement_memberGrants {manager : Manager} {call : Call} {named : Manager.Named}
    (hto : call.request.GrantsTo named.user named.tenant) {s : Store} (hs : GrantsInside s) :
    confinement.Always call
      (fun answer s => ∀ held, answer = .ok held → s.Member named.user named.tenant)
      (manager.memberGrants named) s := by
  refine always_after_reads (Manager.calls_administers ..) givesInside_of_reads hs
    fun administers s hs => ?_
  rcases administers with _ | (_ | _)
  · intro s' _ _ held h
    cases h
  · intro s' _ _ held h
    cases h
  · refine always_read rfl (fun _ => trivial) fun s _ hs x => ?_
    split
    · intro s' _ _ held h
      cases h
    · intro s' _ _ held h
      cases h
    · rename_i held hheld
      have hmember := Store.member_of_membership (handle_membership hheld).symm
      split
      · intro s' _ _ held h
        cases h
      · refine always_read rfl (fun _ => trivial) fun s hb hs x => ?_
        have hmember := hb _ _ hto hmember
        split
        · intro s' _ _ held h
          cases h
        · exact fun s' hb _ _ _ => hb _ _ hto hmember

theorem confinement_grant {manager : Manager} {call : Call} {named : Manager.Named}
    (hto : call.request.GrantsTo named.user named.tenant) {s : Store} (hs : GrantsInside s) :
    confinement.Always call (fun _ _ => True) (manager.grant named) s := by
  refine Discipline.Always.bind hs (confinement_memberGrants hto hs) fun answer s hs hanswer => ?_
  cases answer with
  | error refusal => exact Discipline.always_true_pure _
  | ok held =>
    have hmember := hanswer held rfl
    dsimp only
    split
    · exact Discipline.always_true_pure _
    · refine always_last (fun s' hb _ tenant hin => ?_) fun answer => by cases answer <;> trivial
      obtain rfl : named.tenant = tenant := Option.some.inj (named.inside.symm.trans hin)
      rw [named.owned]
      exact hb _ _ hto hmember

theorem confinement_withNamed {call : Call} {manager : Manager} {tenant user capability : String}
    {api : Option String}
    (hto : ∀ account inside, account.raw = user → inside.raw = tenant →
      call.request.GrantsTo account inside) {s : Store} (hs : GrantsInside s) :
    confinement.Always call (fun _ _ => True)
      (Manager.withNamed tenant user capability api manager.grant) s := by
  unfold Manager.withNamed
  split
  · rename_i named hnamed
    obtain ⟨htenant, huser⟩ := Manager.names_of_named hnamed
    exact confinement_grant (hto _ _ huser htenant) hs
  · exact Discipline.always_true_pure _

/-- **Every request keeps it.** -/
theorem confinement_serve (call : Call) (s : Store) (hs : GrantsInside s) :
    confinement.Always call (fun _ _ => True) (serve call) s := by
  obtain ⟨caller, request⟩ := call
  cases request with
  | grantInTenant tenant user capability =>
    refine always_serve givesInside_of_reads hs fun _ _ hs => confinement_withNamed ?_ hs
    exact fun _ _ huser htenant => ⟨huser, htenant⟩
  | grantOnApi tenant user capability api =>
    refine always_serve givesInside_of_reads hs fun _ _ hs => confinement_withNamed ?_ hs
    exact fun _ _ huser htenant => ⟨huser, htenant⟩
  | grantOnAccount user capability =>
    refine always_serve_of_writes givesInside_of_reads fun op s hwrite => ?_
    cases op with
    | grant new =>
      intro tenant hin
      rw [hwrite.2] at hin
      cases hin
    | _ => trivial
  | createTenant _ _ _ | readTenant _ | removeTenant _ | createUser _ _ _ | readUser _
  | removeUser _ | attach _ _ | detach _ _ | revokeInTenant _ _ _ | revokeOnApi _ _ _ _
  | revokeOnAccount _ _ =>
    refine always_serve_of_writes givesInside_of_reads fun op s hwrite => ?_
    cases op <;> trivial

/-! ### Runs -/

theorem members_or_grants (x : Option Supply) (op : Op) (s : Store) :
    (∀ user tenant, (handle x op s).1.Member user tenant → s.Member user tenant) ∨
      ∀ g ∈ (handle x op s).1.grants.rows, g ∈ s.grants.rows := by
  refine handle_written (P := fun s' => (∀ user tenant, s'.Member user tenant → s.Member user tenant) ∨
    ∀ g ∈ s'.grants.rows, g ∈ s.grants.rows) (.inl fun _ _ => id) fun s' hwritten => ?_
  cases op with
  | attach new =>
    obtain ⟨-, -, -, hgrants, -, -⟩ := Store.insertMembership_ok hwritten
    exact .inr fun g hg => hgrants ▸ hg
  | createTenantWithOwner tenant key owner passphrase =>
    obtain ⟨new, account, held, -, -, -, hok⟩ := hwritten
    exact .inr fun g hg => (Store.createTenantWithOwner_ok hok).2.2.2.2.1 ▸ hg
  | addMember user passphrase tenant =>
    obtain ⟨account, held, -, -, hok⟩ := hwritten
    exact .inr fun g hg => (Store.addMember_ok hok).2.2.2.1 ▸ hg
  | grant new =>
    obtain ⟨-, -, hmemberships, -⟩ := Store.grant_ok hwritten
    refine .inl fun user tenant hmember => ?_
    rwa [Store.Member, hmemberships] at hmember
  | revoke old =>
    obtain ⟨-, -, hmemberships, -⟩ := Store.revoke_ok hwritten
    refine .inl fun user tenant hmember => ?_
    rwa [Store.Member, hmemberships] at hmember
  | removeMember user tenant =>
    obtain ⟨removed, hok⟩ := hwritten
    obtain ⟨-, -, -, hgrants⟩ := Store.removeMember_ok hok
    exact .inr fun g hg => (Table.mem_keep.mp (hgrants ▸ hg)).1
  | deleteUser id =>
    obtain ⟨-, -, -, hgrants⟩ := Store.deleteUser_ok hwritten
    exact .inr fun g hg => (Table.mem_keep.mp (hgrants ▸ hg)).1
  | deleteTenant id =>
    obtain ⟨-, -, -, hgrants⟩ := Store.deleteTenant_ok hwritten
    exact .inr fun g hg => (Table.mem_keep.mp (hgrants ▸ hg)).1
  | user _ | tenant _ | membership _ _ | membershipsOfUser _ | grantsOf _ | grantsInTenant _ _
  | hash _ | generateKey | claim _ _ => exact hwritten.elim

/-- **No grant is left behind.**  From any store in which every grant inside a tenant is a member's, along
every interleaving of any requests in which no step takes a membership away while another request that
grants something for it is under way, every grant inside a tenant is a member's; and a step that makes an
account a member of a tenant leaves it without a grant inside. -/
theorem grants_inside_of_undisturbed {s : Store} (hs : GrantsInside s) {calls : List Call}
    {q : Pool Store (Task Call Op Op.Res Reply)}
    (h : Pool.Reach (Task.step handle) confinement.Undisturbed (waiting s calls) q) :
    GrantsInside q.shared ∧
      ∀ q', Pool.Steps (Task.step handle) Pool.anyStep q q' →
        ∀ user tenant, ¬ q.shared.Member user tenant → q'.shared.Member user tenant →
          (q'.shared.grantsInTenant user tenant).held = [] := by
  have hinside : GrantsInside q.shared := (Discipline.reach confinement_serve hs h).1
  refine ⟨hinside, fun q' hstep user tenant hnot hmember => ?_⟩
  obtain ⟨pre, post, -, hmoves⟩ := hstep
  obtain ⟨op, next, -, rfl, -⟩ := Task.step_eq_some.mp hmoves
  refine List.filter_eq_nil_iff.mpr fun g hg hheld => ?_
  obtain ⟨howner, hin⟩ := Store.heldInside_iff.mp hheld
  rcases members_or_grants _ op _ with hmembers | hgrants
  · exact hnot (hmembers user tenant hmember)
  · exact hnot (howner ▸ hinside g (hgrants g hg) tenant hin)

theorem grantsInside_rootStore : GrantsInside rootStore := by
  intro g hg
  cases hg

/-- A member is granted something, taken out and put back in. -/
def putBackCalls : List Call :=
  [⟨root, .createTenant "acme" "alice" "correct horse staple"⟩,
    ⟨root, .createUser "bob" "acme" "correct horse staple"⟩,
    ⟨root, .grantInTenant "acme" "bob" "observer"⟩,
    ⟨root, .detach "acme" "bob"⟩,
    ⟨root, .attach "acme" "bob"⟩]

/-- It is a member again, and holds nothing. -/
theorem grants_inside_of_put_back :
    ∃ q, GrantsInside rootStore ∧
      Pool.Reach (Task.step handle) confinement.Undisturbed (waiting rootStore putBackCalls) q ∧
      q.shared.memberships.rows.length = 2 ∧ q.shared.grants.rows.length = 0 ∧
      GrantsInside q.shared := by
  have hrun : (Pool.run (Task.step handle) Unshared (waiting rootStore putBackCalls)
      (turns 0 4 ++ turns 1 3 ++ turns 2 4 ++ turns 3 3 ++ turns 4 4)).any
      (fun q => q.shared.memberships.rows.length == 2 && q.shared.grants.rows.length == 0) = true := by
    decide +kernel
  obtain ⟨q, hreach, htest⟩ := Pool.exists_reach_of_run hrun
  have hundisturbed := confinement.reach_undisturbed_of_unshared hreach
  simp only [Bool.and_eq_true, beq_iff_eq] at htest
  exact ⟨q, grantsInside_rootStore, hundisturbed, htest.1, htest.2,
    (grants_inside_of_undisturbed grantsInside_rootStore hundisturbed).1⟩

/-- **A grant that was let go on outlives the membership it was made for.**  The member was looked up
before it was taken out, and the grant is recorded after. -/
theorem grant_outlives_membership :
    GrantsInside rootStore ∧
      ∃ q, Pool.Reach (Task.step handle) Pool.anyStep (waiting rootStore putBackCalls) q ∧
        ¬ GrantsInside q.shared := by
  refine ⟨grantsInside_rootStore, ?_⟩
  have hrun : (Pool.run (Task.step handle) Pool.anyStep (waiting rootStore putBackCalls)
      (turns 0 4 ++ turns 1 3 ++ turns 2 3 ++ turns 3 3 ++ turns 2 1)).any
      (fun q => q.shared.grants.rows.any fun g => g.scope.inside.isSome &&
        q.shared.memberships.rows.all fun m => m.user != g.scope.owner) = true := by
    decide +kernel
  obtain ⟨q, hreach, htest⟩ := Pool.exists_reach_of_run hrun
  refine ⟨q, hreach, fun hinside => ?_⟩
  obtain ⟨g, hg, htest⟩ := List.any_eq_true.mp htest
  simp only [Bool.and_eq_true, List.all_eq_true, bne_iff_ne] at htest
  obtain ⟨tenant, hin⟩ := Option.isSome_iff_exists.mp htest.1
  obtain ⟨m, hm, huser, -⟩ := hinside g hg tenant hin
  exact htest.2 m hm huser

end IntelliPrism.Manage
