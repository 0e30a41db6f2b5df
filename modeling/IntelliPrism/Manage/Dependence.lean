import IntelliPrism.Manage.Writes

/-!
# No grant is stored without what it depends on

Two capabilities of an api exist only while access to it is held.  A grant of one of them is recorded once
access was found among what the member holds, and access is taken away once nothing held was found to
depend on it.  Each reads first and writes later, and each guards one direction only.

* `Supported` — every grant that depends on another is stored beside it;
* `dependence` — what a request bears: no other step takes away what it grants on, or adds what depends on
  what it revokes;
* `grants_supported_of_undisturbed` — **no grant stands alone**, along every interleaving that bears that,
  and recording a grant brings no other capability to life;
* `dependent_outlives_prerequisite` — a schedule that does not.
-/

namespace IntelliPrism.Manage

open IntelliPrism.Core IntelliPrism.Lib

/-! ### What depends on what -/

/-- What a grant depends on is stored at its scope. -/
def Store.Rests (s : Store) (g : Grant) : Prop :=
  ∀ needed, g.capability.prerequisite = some needed →
    ∃ h ∈ s.grants.rows, h.capability = needed ∧ h.scope = g.scope

/-- Something stored at a grant's scope depends on it. -/
def Store.Carries (s : Store) (g : Grant) : Prop :=
  ∃ h ∈ s.grants.rows, h.capability.prerequisite = some g.capability ∧ h.scope = g.scope

/-- Every grant that depends on another is stored beside it. -/
def Supported (s : Store) : Prop := ∀ g ∈ s.grants.rows, s.Rests g

/-- Only what is granted on an api takes part: the other scopes have nothing that depends on anything. -/
theorem prerequisite_of_inside_eq_none {g : Grant} (h : g.scope.inside = none) :
    g.capability.prerequisite = none := by
  obtain ⟨capability, scope, hshaped⟩ := g
  cases scope with
  | user user => cases capability <;> first | rfl | cases hshaped
  | tenant user tenant => cases h
  | api user tenant api => cases h

theorem not_carries_of_inside_eq_none {s : Store} {g : Grant} (h : g.scope.inside = none) :
    ¬ s.Carries g := by
  intro hcarries
  obtain ⟨other, -, hneeded, hscope⟩ := hcarries
  rw [prerequisite_of_inside_eq_none (hscope ▸ h)] at hneeded
  cases hneeded

section Writes

variable {s s' : Store}

/-- Rows that go by their scope alone take what they depend on, and what depends on them, with them. -/
theorem Supported.of_scopes (h : Supported s) {K : CapabilityScope → Bool}
    (hgrants : s'.grants = s.grants.keep fun g => K g.scope) : Supported s' := by
  intro g hg needed hneeded
  rw [hgrants] at hg ⊢
  obtain ⟨hg, hkept⟩ := Table.mem_keep.mp hg
  obtain ⟨other, hother, hcapability, hscope⟩ := h g hg needed hneeded
  refine ⟨other, Table.mem_keep.mpr ⟨hother, ?_⟩, hcapability, hscope⟩
  rw [hscope]
  exact hkept

theorem Supported.of_eq (h : Supported s) (hgrants : s'.grants = s.grants) : Supported s' := by
  intro g hg needed hneeded
  rw [hgrants] at hg ⊢
  exact h g hg needed hneeded

theorem Supported.grant (h : Supported s) {new : Grant} (hrests : s.Rests new)
    (hok : s.grant new = .ok s') : Supported s' := by
  obtain ⟨-, -, -, hgrants⟩ := Store.grant_ok hok
  intro g hg needed hneeded
  have hbefore : s.Rests g := by
    rcases (hgrants g).mp hg with rfl | hold
    · exact hrests
    · exact h g hold
  obtain ⟨other, hother, hwhat⟩ := hbefore needed hneeded
  exact ⟨other, (hgrants other).mpr (.inr hother), hwhat⟩

theorem Supported.revoke (h : Supported s) {old : Grant} (hfree : ¬ s.Carries old)
    (hok : s.revoke old = .ok s') : Supported s' := by
  obtain ⟨-, -, -, hgrants⟩ := Store.revoke_ok hok
  intro g hg needed hneeded
  rw [hgrants] at hg ⊢
  obtain ⟨hg, -⟩ := Table.mem_keep.mp hg
  obtain ⟨other, hother, hcapability, hscope⟩ := h g hg needed hneeded
  refine ⟨other, Table.mem_keep.mpr ⟨hother, bne_iff_ne.mpr fun heq => hfree ?_⟩, hcapability, hscope⟩
  -- what is taken away is what this grant depends on
  refine ⟨g, hg, ?_, ?_⟩
  · rw [hneeded, ← hcapability, heq]
  · rw [← hscope, heq]

end Writes

/-! ### The discipline -/

/-- The grant a request is to record inside a tenant. -/
def Request.Records : Request → Manager.Named → Prop
  | .grantInTenant tenant user capability, found => Manager.named tenant user capability none = .ok found
  | .grantOnApi tenant user capability api, found =>
    Manager.named tenant user capability (some api) = .ok found
  | _, _ => False

/-- The grant a request is to take away inside a tenant. -/
def Request.TakesAway : Request → Manager.Named → Prop
  | .revokeInTenant tenant user capability, found => Manager.named tenant user capability none = .ok found
  | .revokeOnApi tenant user capability api, found =>
    Manager.named tenant user capability (some api) = .ok found
  | _, _ => False

/-- The calls that leave every grant beside what it depends on. -/
def KeepsSupport (s : Store) : Op → Prop
  | .grant new => s.Rests new
  | .revoke old => ¬ s.Carries old
  | _ => True

/-- Every grant is stored beside what it depends on; a request under way bears every step but one that
takes away what its grant depends on, or that adds something depending on what it is to take away. -/
def dependence : Discipline handle Call where
  holds := Supported
  bears call s s' :=
    (∀ named, call.request.Records named → s.Rests named.grant → s'.Rests named.grant) ∧
      ∀ named, call.request.TakesAway named → ¬ s.Carries named.grant → ¬ s'.Carries named.grant
  may _ := KeepsSupport
  bears_refl _ _ := ⟨fun _ _ => id, fun _ _ => id⟩
  bears_trans h₁ h₂ :=
    ⟨fun named hnamed hrests => h₂.1 named hnamed (h₁.1 named hnamed hrests),
      fun named hnamed hfree => h₂.2 named hnamed (h₁.2 named hnamed hfree)⟩
  keeps := by
    intro _ x op s hs hmay
    refine handle_written hs fun s' hwritten => ?_
    cases op with
    | attach new =>
      obtain ⟨-, -, -, hgrants, -, -⟩ := Store.insertMembership_ok hwritten
      exact hs.of_eq hgrants
    | removeMember user tenant =>
      obtain ⟨removed, hok⟩ := hwritten
      obtain ⟨-, -, -, hgrants⟩ := Store.removeMember_ok hok
      exact hs.of_scopes (K := fun scope => !(scope.owner = user && scope.inside = some tenant)) hgrants
    | deleteUser id =>
      obtain ⟨-, -, -, hgrants⟩ := Store.deleteUser_ok hwritten
      exact hs.of_scopes (K := fun scope => scope.owner != id) hgrants
    | deleteTenant id =>
      obtain ⟨-, -, -, hgrants⟩ := Store.deleteTenant_ok hwritten
      exact hs.of_scopes (K := fun scope => scope.inside != some id) hgrants
    | createTenantWithOwner tenant key owner passphrase =>
      obtain ⟨new, account, held, -, -, -, hok⟩ := hwritten
      exact hs.of_eq (Store.createTenantWithOwner_ok hok).2.2.2.2.1
    | addMember user passphrase tenant =>
      obtain ⟨account, held, -, -, hok⟩ := hwritten
      exact hs.of_eq (Store.addMember_ok hok).2.2.2.1
    | grant new => exact hs.grant hmay hwritten
    | revoke old => exact hs.revoke hmay hwritten
    | user _ | tenant _ | membership _ _ | membershipsOfUser _ | grantsOf _ | grantsInTenant _ _
    | hash _ | generateKey | claim _ _ => exact hwritten.elim

theorem keepsSupport_of_reads (op : Op) (h : op.Reads) (s : Store) : KeepsSupport s op := by
  cases op <;> trivial

/-! ### What the handlers found when they read -/

/-- What a member holds, as it was read: whatever that says of the store then, and the request bears,
stands when the reading is over. -/
theorem dependence_memberGrants {manager : Manager} {call : Call} {named : Manager.Named}
    {F : Grants → Store → Prop} (hread : ∀ s : Store, F (s.grantsInTenant named.user named.tenant) s)
    (hstable : ∀ held s s', dependence.bears call s s' → F held s → F held s')
    {s : Store} (hs : Supported s) :
    dependence.Always call (fun answer s => ∀ held, answer = .ok held → F held s)
      (manager.memberGrants named) s := by
  refine always_after_reads (Manager.calls_administers ..) keepsSupport_of_reads hs
    fun administers s hs => ?_
  rcases administers with _ | (_ | _)
  · intro s' _ _ held h
    cases h
  · intro s' _ _ held h
    cases h
  · refine always_read rfl (fun _ => trivial) fun s _ hs x => ?_
    split
    · intro s' _ _ held h
      cases h
    · intro s' _ _ held h
      cases h
    · split
      · intro s' _ _ held h
        cases h
      · refine always_read rfl (fun _ => trivial) fun s _ hs x => ?_
        split
        · intro s' _ _ held h
          cases h
        · rename_i found hfound
          intro s' hb _ held h
          cases h
          refine hstable _ _ _ hb ?_
          rw [handle_grantsInTenant hfound]
          exact hread s

theorem mem_of_granted {s : Store} {user : UserId} {tenant : TenantId} {capability : Capability}
    {scope : CapabilityScope} (h : (s.grantsInTenant user tenant).granted capability scope = true) :
    ∃ g ∈ s.grants.rows, g.capability = capability ∧ g.scope = scope := by
  obtain ⟨g, hg, hwhat⟩ := List.any_eq_true.mp h
  simp only [Bool.and_eq_true, beq_iff_eq] at hwhat
  exact ⟨g, List.mem_of_mem_filter hg, hwhat⟩

theorem granted_of_holds {held : Grants} {capability : Capability} {scope : CapabilityScope}
    (h : held.holds capability scope = true) : held.granted capability scope = true := by
  unfold Grants.holds at h
  split at h
  · cases h
  · split at h
    · cases h
    · exact h

theorem dependence_grant {manager : Manager} {call : Call} {named : Manager.Named}
    (hrecords : call.request.Records named) {s : Store} (hs : Supported s) :
    dependence.Always call (fun _ _ => True) (manager.grant named) s := by
  have hread := @dependence_memberGrants manager call named
    (fun held s => named.grant.capability.prerequisite.filter
      (fun needed => !held.holds needed named.grant.scope) = none → s.Rests named.grant)
    (fun s hheld needed hneeded => ?_) (fun held s s' hb hF hheld => hb.1 named hrecords (hF hheld)) s hs
  · refine Discipline.Always.bind hs hread fun answer s hs hanswer => ?_
    cases answer with
    | error refusal => exact Discipline.always_true_pure _
    | ok held =>
      dsimp only
      split
      · exact Discipline.always_true_pure _
      · rename_i hnone
        have hrests := hanswer held rfl hnone
        exact always_last (fun s' hb _ => hb.1 named hrecords hrests) fun answer => by
          cases answer <;> trivial
  · rw [hneeded, Option.filter_eq_none_iff] at hheld
    have hholds := hheld needed rfl
    rw [Bool.not_eq_true, Bool.not_eq_false'] at hholds
    exact mem_of_granted (granted_of_holds hholds)

theorem dependence_revoke {manager : Manager} {call : Call} {named : Manager.Named}
    (htakes : call.request.TakesAway named) {s : Store} (hs : Supported s) :
    dependence.Always call (fun _ _ => True) (manager.revoke named) s := by
  have hread := @dependence_memberGrants manager call named
    (fun held s => held.held.find? (fun other =>
      other.capability.prerequisite == some named.grant.capability &&
        other.scope == named.grant.scope) = none → ¬ s.Carries named.grant)
    (fun s hheld hcarries => ?_) (fun held s s' hb hF hheld => hb.2 named htakes (hF hheld)) s hs
  · refine Discipline.Always.bind hs hread fun answer s hs hanswer => ?_
    cases answer with
    | error refusal => exact Discipline.always_true_pure _
    | ok held =>
      dsimp only
      split
      · exact Discipline.always_true_pure _
      · rename_i hnone
        have hfree := hanswer held rfl hnone
        exact always_last (fun s' hb _ => hb.2 named htakes hfree) fun answer => by
          cases answer <;> trivial
  · obtain ⟨other, hother, hneeds, hscope⟩ := hcarries
    have hinside : other ∈ (s.grantsInTenant named.user named.tenant).held := by
      refine List.mem_filter.mpr ⟨hother, Store.heldInside_iff.mpr ?_⟩
      rw [hscope]
      exact ⟨named.owned, named.inside⟩
    have hnot := List.find?_eq_none.mp hheld other hinside
    rw [hneeds, hscope] at hnot
    simp at hnot

theorem dependence_withNamed {call : Call} {tenant user capability : String} {api : Option String}
    {next : Manager.Named → Action Reply} {s : Store}
    (hnext : ∀ found, Manager.named tenant user capability api = .ok found →
      dependence.Always call (fun _ _ => True) (next found) s) :
    dependence.Always call (fun _ _ => True) (Manager.withNamed tenant user capability api next) s := by
  unfold Manager.withNamed
  split
  · rename_i named hnamed
    exact hnext named hnamed
  · exact Discipline.always_true_pure _

/-- **Every request keeps it.** -/
theorem dependence_serve (call : Call) (s : Store) (hs : Supported s) :
    dependence.Always call (fun _ _ => True) (serve call) s := by
  obtain ⟨caller, request⟩ := call
  cases request with
  | grantInTenant tenant user capability =>
    refine always_serve keepsSupport_of_reads hs fun _ _ hs => dependence_withNamed fun _ hnamed => ?_
    refine dependence_grant ?_ hs
    exact hnamed
  | grantOnApi tenant user capability api =>
    refine always_serve keepsSupport_of_reads hs fun _ _ hs => dependence_withNamed fun _ hnamed => ?_
    refine dependence_grant ?_ hs
    exact hnamed
  | revokeInTenant tenant user capability =>
    refine always_serve keepsSupport_of_reads hs fun _ _ hs => dependence_withNamed fun _ hnamed => ?_
    refine dependence_revoke ?_ hs
    exact hnamed
  | revokeOnApi tenant user capability api =>
    refine always_serve keepsSupport_of_reads hs fun _ _ hs => dependence_withNamed fun _ hnamed => ?_
    refine dependence_revoke ?_ hs
    exact hnamed
  | grantOnAccount user capability =>
    refine always_serve_of_writes keepsSupport_of_reads fun op s hwrite => ?_
    cases op with
    | grant new =>
      intro needed hneeded
      rw [prerequisite_of_inside_eq_none hwrite.2] at hneeded
      cases hneeded
    | _ => trivial
  | revokeOnAccount user capability =>
    refine always_serve keepsSupport_of_reads hs fun manager s hs => ?_
    refine Discipline.always_of_calls
      (Manager.calls_onAccount (fun op hop s _ => keepsSupport_of_reads op hop s) ?_)
    exact fun grant _ hinside => calls_ask.mpr fun s _ => not_carries_of_inside_eq_none hinside
  | createTenant _ _ _ | readTenant _ | removeTenant _ | createUser _ _ _ | readUser _
  | removeUser _ | attach _ _ | detach _ _ =>
    refine always_serve_of_writes keepsSupport_of_reads fun op s hwrite => ?_
    cases op <;> trivial

/-! ### Runs -/

theorem granted_grantsOf {s : Store} {user : UserId} {capability : Capability} {scope : CapabilityScope} :
    (s.grantsOf user).granted capability scope = true ↔
      ∃ g ∈ s.grants.rows, g.scope.owner = user ∧ g.capability = capability ∧ g.scope = scope := by
  simp [Grants.granted, Store.grantsOf]

theorem Supported.holds_of_granted {s : Store} (h : Supported s) {user : UserId} {capability : Capability}
    {scope : CapabilityScope} (hgranted : (s.grantsOf user).granted capability scope = true) :
    (s.grantsOf user).holds capability scope = true := by
  obtain ⟨g, hg, howner, rfl, rfl⟩ := granted_grantsOf.mp hgranted
  have hneeds : g.capability.prerequisite.any
      (fun needed => !(s.grantsOf user).granted needed g.scope) = false := by
    cases hneeded : g.capability.prerequisite with
    | none => rfl
    | some needed =>
      obtain ⟨other, hother, rfl, hscope⟩ := h g hg needed hneeded
      have hbeside : (s.grantsOf user).granted other.capability g.scope = true :=
        granted_grantsOf.mpr ⟨other, hother, by rw [hscope, howner], rfl, hscope⟩
      rw [Option.any_some, hbeside]
      rfl
  rw [Grants.holds, if_neg (not_not.mpr g.shaped), hneeds]
  exact hgranted

/-- **No grant stands alone.**  From any store in which every grant is stored beside what it depends on,
along every interleaving of any requests in which no step takes away what the grant of another request
under way depends on, and none adds what depends on a grant that another is about to take away, every
grant is stored beside what it depends on; and recording a grant brings no capability to life but its own. -/
theorem grants_supported_of_undisturbed {s : Store} (hs : Supported s) {calls : List Call}
    {q : Pool Store (Task Call Op Op.Res Reply)}
    (h : Pool.Reach (Task.step handle) dependence.Undisturbed (waiting s calls) q) :
    (∀ g ∈ q.shared.grants.rows, ∀ needed, g.capability.prerequisite = some needed →
      ∃ other ∈ q.shared.grants.rows, other.capability = needed ∧ other.scope = g.scope) ∧
      ∀ new s', q.shared.grant new = .ok s' → ∀ user capability scope,
        (s'.grantsOf user).holds capability scope = true →
          (q.shared.grantsOf user).holds capability scope = true ∨
            capability = new.capability ∧ scope = new.scope := by
  have hsupported : Supported q.shared := (Discipline.reach dependence_serve hs h).1
  refine ⟨hsupported, fun new s' hok user capability scope hholds => ?_⟩
  obtain ⟨-, -, -, hgrants⟩ := Store.grant_ok hok
  obtain ⟨g, hg, howner, hcapability, hscope⟩ := granted_grantsOf.mp (granted_of_holds hholds)
  rcases (hgrants g).mp hg with rfl | hold
  · exact .inr ⟨hcapability.symm, hscope.symm⟩
  · exact .inl (hsupported.holds_of_granted
      (granted_grantsOf.mpr ⟨g, hold, howner, hcapability, hscope⟩))

theorem supported_rootStore : Supported rootStore := by
  intro g hg
  cases hg

/-- A member is granted access to an api and what depends on it, and access is to be taken away. -/
def accessCalls : List Call :=
  [⟨root, .createTenant "acme" "alice" "correct horse staple"⟩,
    ⟨root, .createUser "bob" "acme" "correct horse staple"⟩,
    ⟨root, .grantOnApi "acme" "bob" "api_access" "chat"⟩,
    ⟨root, .grantOnApi "acme" "bob" "limit_mgr" "chat"⟩,
    ⟨root, .revokeOnApi "acme" "bob" "api_access" "chat"⟩]

/-- One by one, taking access away is refused and both grants stay. -/
theorem grants_supported_of_access :
    ∃ q, Supported rootStore ∧
      Pool.Reach (Task.step handle) dependence.Undisturbed (waiting rootStore accessCalls) q ∧
      q.shared.grants.rows.length = 2 ∧
      ∀ g ∈ q.shared.grants.rows, ∀ needed, g.capability.prerequisite = some needed →
        ∃ other ∈ q.shared.grants.rows, other.capability = needed ∧ other.scope = g.scope := by
  have hrun : (Pool.run (Task.step handle) Unshared (waiting rootStore accessCalls)
      (turns 0 4 ++ turns 1 3 ++ turns 2 4 ++ turns 3 4 ++ turns 4 3)).any
      (fun q => q.shared.grants.rows.length == 2) = true := by
    decide +kernel
  obtain ⟨q, hreach, htest⟩ := Pool.exists_reach_of_run hrun
  have hundisturbed := dependence.reach_undisturbed_of_unshared hreach
  exact ⟨q, supported_rootStore, hundisturbed, beq_iff_eq.mp htest,
    (grants_supported_of_undisturbed supported_rootStore hundisturbed).1⟩

/-- **A grant outlives what it depends on.**  Access was found when the grant that depends on it was
checked, nothing depended on access when its removal was checked, and both are carried out. -/
theorem dependent_outlives_prerequisite :
    Supported rootStore ∧
      ∃ q, Pool.Reach (Task.step handle) Pool.anyStep (waiting rootStore accessCalls) q ∧
        ∃ g ∈ q.shared.grants.rows, g.capability.prerequisite = some .apiAccess ∧
          ∀ other ∈ q.shared.grants.rows, other.capability ≠ .apiAccess := by
  refine ⟨supported_rootStore, ?_⟩
  have hrun : (Pool.run (Task.step handle) Pool.anyStep (waiting rootStore accessCalls)
      (turns 0 4 ++ turns 1 3 ++ turns 2 4 ++ turns 3 3 ++ turns 4 3 ++ turns 3 1 ++ turns 4 1)).any
      (fun q => q.shared.grants.rows.any fun g => g.capability.prerequisite == some .apiAccess &&
        q.shared.grants.rows.all fun other => other.capability != .apiAccess) = true := by
    decide +kernel
  obtain ⟨q, hreach, htest⟩ := Pool.exists_reach_of_run hrun
  obtain ⟨g, hg, htest⟩ := List.any_eq_true.mp htest
  simp only [Bool.and_eq_true, beq_iff_eq, List.all_eq_true, bne_iff_ne] at htest
  exact ⟨q, hreach, g, hg, htest.1, htest.2⟩

end IntelliPrism.Manage
