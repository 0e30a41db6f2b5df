import IntelliPrism.Manage.Allows

/-!
# An account is only removed by someone who manages all of it

A removal reads the account's attachments once, asks for each of them whether the caller manages the
users of that tenant, and deletes the row only when all of them were shown and none is an owner's.  What
it asked stays true until it deletes as long as nobody changes what it asked about.

* `Store.Manages` — the caller holds `UserMgr` wherever the account is, and the account owns nothing;
* `Steady` — what a removal bears: the account is put into no tenant, and the caller keeps its standing
  and its `UserMgr` where the account is;
* `removed_by_one_who_manages_all` — **whoever is about to delete a row manages all of it**, along every
  interleaving that bears that;
* `removed_from_a_tenant_it_joined` — a schedule that does not.
-/

namespace IntelliPrism.Manage

open IntelliPrism.Core IntelliPrism.Lib
open IntelliPrism.Gateway (alice bob)

/-- The caller holds `UserMgr` in every tenant the account is attached to, and the account owns none. -/
def Store.Manages (s : Store) (caller account : UserId) : Prop :=
  ∀ m ∈ s.memberships.rows, m.user = account →
    s.Accepts caller .userMgr (.tenant caller m.tenant) ∧ m.standing ≠ .owner

def Store.Administrator (s : Store) (account : UserId) : Prop :=
  ∃ u ∈ s.users.rows, u.id = account ∧ u.kind = .systemAdministrator

/-- Nothing is attached to the account that was not, and the caller keeps its standing and its `UserMgr`
in every tenant the account is in. -/
structure Steady (caller account : UserId) (s s' : Store) : Prop where
  attached : ∀ m ∈ s'.memberships.rows, m.user = account → m ∈ s.memberships.rows
  standing : ∀ m ∈ s.memberships.rows, m.user = caller → s'.Member account m.tenant →
    m ∈ s'.memberships.rows
  granted : ∀ g ∈ s.grants.rows, ∀ tenant, g.capability = .userMgr → g.scope = .tenant caller tenant →
    s'.Member account tenant → g ∈ s'.grants.rows

section Steady

variable {caller account : UserId} {s s' s₁ s₂ s₃ : Store}

theorem Steady.member (h : Steady caller account s s') {tenant : TenantId}
    (hmember : s'.Member account tenant) : s.Member account tenant := by
  obtain ⟨m, hm, hwho⟩ := hmember
  exact ⟨m, h.attached m hm hwho.1, hwho⟩

theorem Steady.refl (caller account : UserId) (s : Store) : Steady caller account s s :=
  ⟨fun _ h _ => h, fun _ h _ _ => h, fun _ h _ _ _ _ => h⟩

theorem Steady.trans (h₁ : Steady caller account s₁ s₂) (h₂ : Steady caller account s₂ s₃) :
    Steady caller account s₁ s₃ where
  attached m hm hwho := h₁.attached m (h₂.attached m hm hwho) hwho
  standing m hm hwho hmember := h₂.standing m (h₁.standing m hm hwho (h₂.member hmember)) hwho hmember
  granted g hg tenant hcapability hscope hmember :=
    h₂.granted g (h₁.granted g hg tenant hcapability hscope (h₂.member hmember)) tenant hcapability
      hscope hmember

/-- If the account is in the tenant, the caller manages the users of it. -/
def Settled (caller account : UserId) (tenant : TenantId) (s : Store) : Prop :=
  s.Member account tenant → s.allowed ⟨caller, .regular⟩ .userMgr (.tenant caller tenant) = true

/-- The caller's membership, once read, is there as long as the account is in the tenant. -/
theorem Steady.membership (h : Steady caller account s s') {tenant : TenantId} {held : Membership}
    (hheld : s.membership caller tenant = some held) (hmember : s'.Member account tenant) :
    s'.membership caller tenant = some held := by
  obtain ⟨hm, huser, htenant⟩ := Store.membership_eq_some.mp hheld
  exact Store.membership_eq_some.mpr ⟨h.standing held hm huser (htenant ▸ hmember), huser, htenant⟩

theorem Settled.later {tenant : TenantId} (h : Settled caller account tenant s)
    (hsteady : Steady caller account s s') : Settled caller account tenant s' := by
  intro hmember
  obtain ⟨held, hheld, hwhy⟩ := allowed_userMgr.mp (h (hsteady.member hmember))
  refine allowed_userMgr.mpr ⟨held, hsteady.membership hheld hmember, hwhy.imp_right ?_⟩
  rintro ⟨g, hg, hcapability, hscope⟩
  exact ⟨g, hsteady.granted g hg tenant hcapability hscope hmember, hcapability, hscope⟩

end Steady

/-! ### The discipline -/

def Request.Removes : Request → UserId → Prop
  | .removeUser user, account => account.raw = user
  | _, _ => False

/-- No system administrator comes into being; a removal bears every step that is steady, and deletes the
row of an account only for a caller that manages all of it. -/
def oversight (s₀ : Store) : Discipline handle Call where
  holds s := ∀ account, s.Administrator account → s₀.Administrator account
  bears call s s' := ∀ account, call.request.Removes account → Steady call.caller account s s'
  may call s op := ∀ account, op = .deleteUser account → ¬ s₀.Administrator call.caller →
    s.Manages call.caller account
  bears_refl _ _ _ _ := .refl ..
  bears_trans h₁ h₂ account hremoves := (h₁ account hremoves).trans (h₂ account hremoves)
  keeps := by
    intro _ x op s hs _
    refine handle_written (P := fun s => ∀ account, s.Administrator account → s₀.Administrator account)
      hs fun s' hwritten account hadmin => hs account ?_
    obtain ⟨u, hu, hid, hkind⟩ := hadmin
    refine ⟨u, ?_, hid, hkind⟩
    have hregular : ∀ {new : User}, new.kind = .regular → u ∈ s.users.rows ++ [new] → u ∈ s.users.rows := by
      intro new hnew hu
      rcases List.mem_append.mp hu with hu | hu
      · exact hu
      · rw [List.mem_singleton.mp hu, hnew] at hkind
        cases hkind
    cases op with
    | attach new => exact (Store.insertMembership_ok hwritten).2.2.1 ▸ hu
    | removeMember user tenant =>
      obtain ⟨removed, hok⟩ := hwritten
      exact (Store.removeMember_ok hok).2.1 ▸ hu
    | deleteUser id => exact (Table.mem_keep.mp ((Store.deleteUser_ok hwritten).1 ▸ hu)).1
    | deleteTenant id => exact (Store.deleteTenant_ok hwritten).2.1 ▸ hu
    | createTenantWithOwner tenant key owner passphrase =>
      obtain ⟨new, user, held, -, -, hnew, hok⟩ := hwritten
      exact hregular hnew ((Store.createTenantWithOwner_ok hok).2.2.2.1 ▸ hu)
    | addMember user passphrase tenant =>
      obtain ⟨user, held, -, hnew, hok⟩ := hwritten
      exact hregular hnew ((Store.addMember_ok hok).2.2.1 ▸ hu)
    | grant new => exact (Store.grant_ok hwritten).2.1 ▸ hu
    | revoke old => exact (Store.revoke_ok hwritten).2.1 ▸ hu
    | user _ | tenant _ | membership _ _ | membershipsOfUser _ | grantsOf _ | grantsInTenant _ _
    | hash _ | generateKey | claim _ _ => exact hwritten.elim

section Removal

variable {s₀ : Store} {call : Call} {account : UserId} {s : Store}

theorem oversight_reads (op : Op) (h : op.Reads) (s : Store) : (oversight s₀).may call s op := by
  rintro account rfl
  cases h

/-- A yes about the users of a tenant stays true where the account is in it. -/
theorem oversight_allows (hremoves : call.request.Removes account) {tenant : TenantId} :
    (oversight s₀).Always call
      (fun answer s => answer = .ok true → Settled call.caller account tenant s)
      (Manager.allows ⟨call.caller, .regular⟩ .userMgr (.tenant call.caller tenant)) s := by
  refine always_read rfl (oversight_reads _ rfl) fun s₁ _ _ x => ?_
  split
  · intro s' _ _ h
    cases h
  · intro s' _ _ h
    cases h
  · rename_i held hheld
    refine always_read rfl (oversight_reads _ rfl) fun s₂ hb₂ _ x => ?_
    split
    · intro s' _ _ h
      cases h
    · rename_i granted hgranted
      intro s₃ hb₃ _ hyes
      -- The role was read first and the grants after; where the account still is, both stand.
      refine Settled.later (fun hmember => ?_) (hb₃ account hremoves)
      have hmembership := (hb₂ account hremoves).membership (handle_membership hheld).symm hmember
      have hallowed := Except.ok.inj hyes
      rw [handle_grantsOf hgranted] at hallowed
      simpa [Store.allowed, Manager.isSystemAdministrator, CapabilityScope.inside, hmembership]
        using hallowed

/-- Whatever is shown of the account is in tenants whose users the caller manages. -/
theorem oversight_shownOf (hremoves : call.request.Removes account) (attached : List Membership)
    {shown : List Membership} (hs : (oversight s₀).holds s)
    (hshown : ∀ m ∈ shown, Settled call.caller account m.tenant s) :
    (oversight s₀).Always call
      (fun answer s => ∀ seen, answer = .ok seen →
        ∀ m ∈ seen, Settled call.caller account m.tenant s)
      (Manager.shownOf ⟨call.caller, .regular⟩ attached shown) s := by
  induction attached generalizing shown s with
  | nil =>
    intro s' hb _ seen h m hm
    cases h
    exact (hshown m hm).later (hb account hremoves)
  | cons membership rest ih =>
    have hkept : (oversight s₀).Always call
        (fun _ s => ∀ m ∈ shown, Settled call.caller account m.tenant s)
        (Manager.allows ⟨call.caller, .regular⟩ .userMgr (.tenant call.caller membership.tenant)) s := by
      refine (always_reads (Y := fun _ => True) (Manager.calls_allows ..) (Process.yields_true _)
        oversight_reads (fun hb hshown m hm => ?_) hshown).mono fun _ _ h => h.2
      exact (hshown m hm).later (hb account hremoves)
    refine Discipline.Always.bind hs ((oversight_allows hremoves).and hkept)
      fun answer s hs hanswer => ?_
    obtain ⟨hyes, hshown⟩ := hanswer
    rcases answer with error | (_ | _)
    · intro s' _ _ seen h
      cases h
    · exact ih hs hshown
    · refine ih hs fun m hm => ?_
      rcases List.mem_append.mp hm with hm | hm
      · exact hshown m hm
      · rw [List.mem_singleton.mp hm]
        exact hyes rfl

/-- What a removal has found out when it goes on: every attachment the account still has was shown. -/
def FoundOut (caller account : UserId) (seen : Manager.Seen) (s : Store) : Prop :=
  seen.shown.length = seen.attached → ∀ m ∈ s.memberships.rows, m.user = account →
    m ∈ seen.shown ∧ Settled caller account m.tenant s

theorem FoundOut.later {caller : UserId} {seen : Manager.Seen} {s' : Store}
    (h : FoundOut caller account seen s) (hsteady : Steady caller account s s') :
    FoundOut caller account seen s' := by
  intro hlength m hm hwho
  obtain ⟨hmem, hsettled⟩ := h hlength m (hsteady.attached m hm hwho) hwho
  exact ⟨hmem, hsettled.later hsteady⟩

theorem oversight_found (hremoves : call.request.Removes account) (hother : call.caller ≠ account) :
    (oversight s₀).Always call
      (fun answer s => ∀ stored seen, answer = .ok (some (stored, seen)) →
        FoundOut call.caller account seen s)
      (Manager.found ⟨call.caller, .regular⟩ account) s := by
  refine always_read rfl (oversight_reads _ rfl) fun s₁ _ hs x => ?_
  split
  · intro s' _ _ stored seen h
    cases h
  · intro s' _ _ stored seen h
    cases h
  · refine always_read rfl (oversight_reads _ rfl) fun s₂ _ hs x => ?_
    split
    · intro s' _ _ stored seen h
      cases h
    · rename_i attached hattached
      have hall : ∀ m ∈ s₂.memberships.rows, m.user = account → m ∈ attached := by
        intro m hm hwho
        rw [handle_membershipsOfUser hattached]
        exact Store.mem_membershipsOfUser.mpr ⟨hm, hwho⟩
      have hstable : ∀ {s s' : Store}, (oversight s₀).bears call s s' →
          (∀ m ∈ s.memberships.rows, m.user = account → m ∈ attached) →
            ∀ m ∈ s'.memberships.rows, m.user = account → m ∈ attached :=
        fun hb hall m hm hwho => hall m ((hb account hremoves).attached m hm hwho) hwho
      rw [if_neg (by simp [Manager.isSystemAdministrator, hother])]
      refine Discipline.Always.bind hs ((oversight_shownOf hremoves attached hs fun m hm => by cases hm).and
        (always_reads (Manager.calls_shownOf ..) (Manager.yields_shownOf ..) oversight_reads hstable hall))
        fun answer s₃ _ hanswer => ?_
      obtain ⟨hsettled, hyields, hall⟩ := hanswer
      split
      · intro s' _ _ stored seen h
        cases h
      · intro s' _ _ stored seen h
        cases h
      · rename_i _ shown _
        intro s₄ hb _ stored seen h hlength m hm hwho
        cases h
        obtain ⟨more, hmore, heq⟩ := hyields shown rfl
        rw [List.nil_append] at heq
        have hwhole : shown = attached := (heq ▸ hmore).eq_of_length hlength
        have hmem : m ∈ shown := hwhole ▸ hstable hb hall m hm hwho
        exact ⟨hmem, (hsettled shown rfl m hmem).later (hb account hremoves)⟩

/-- The caller manages all of an account that was found whole and without an owner's standing. -/
theorem manages_of_foundOut {caller : UserId} {seen : Manager.Seen}
    (hordinary : ∀ u ∈ s.users.rows, u.id = caller → u.kind = .regular)
    (h : FoundOut caller account seen s) (hlength : seen.shown.length = seen.attached)
    (hno : ∀ m ∈ seen.shown, m.standing ≠ .owner) : s.Manages caller account := by
  intro m hm hwho
  obtain ⟨hmem, hsettled⟩ := h hlength m hm hwho
  have hallowed := hsettled ⟨m, hm, hwho, rfl⟩
  -- The caller is a member there, so its row is there too.
  obtain ⟨held, hheld, -⟩ := allowed_userMgr.mp hallowed
  obtain ⟨hrow, huser, -⟩ := Store.membership_eq_some.mp hheld
  obtain ⟨u, hu, hid⟩ := (s.membershipsRefer held hrow).1
  have hid := hid.trans huser
  refine ⟨accepts_iff.mpr ⟨u, Table.find_eq_some.mpr ⟨hu, hid⟩, ?_⟩, hno m hmem⟩
  rw [hid, hordinary u hu hid]
  exact hallowed

theorem kind_of_not_administrator {caller : UserId} (hs : (oversight s₀).holds s)
    (hnot : ¬ s₀.Administrator caller) : ∀ u ∈ s.users.rows, u.id = caller → u.kind = .regular := by
  intro u hu hid
  cases hkind : u.kind with
  | systemAdministrator => exact absurd (hs caller ⟨u, hu, hid, hkind⟩) hnot
  | regular => rfl

theorem oversight_of (hnot : ¬ s₀.Administrator call.caller) :
    (oversight s₀).Always call
      (fun answer _ => ∀ manager, answer = .ok manager → manager = ⟨call.caller, .regular⟩)
      (Manager.of call.caller) s := by
  refine always_read rfl (oversight_reads _ rfl) fun s₁ _ hs x => ?_
  split
  · intro s' _ _ manager h
    cases h
  · intro s' _ _ manager h
    cases h
  · rename_i stored hstored
    intro s' _ _ manager h
    obtain ⟨hmem, hid⟩ := Table.find_eq_some.mp (handle_user hstored).symm
    rw [← Except.ok.inj h, hid, kind_of_not_administrator hs hnot stored hmem hid]

theorem oversight_removeUser {caller : UserId} {user : String} (hnot : ¬ s₀.Administrator caller)
    (hs : (oversight s₀).holds s) :
    (oversight s₀).Always ⟨caller, .removeUser user⟩ (fun _ _ => True)
      (Manager.removeUser ⟨caller, .regular⟩ user) s := by
  have hremoves : ∀ {id : UserId}, Ident.new .user user = .ok id → (Request.removeUser user).Removes id :=
    fun hid => raw_of_new hid
  refine always_removeUser hs (fun id hid hother => oversight_found (hremoves hid) hother) ?_
  intro id seen s s' hid hfound hlength hno hb hs' account heq _
  cases heq
  exact manages_of_foundOut (kind_of_not_administrator hs' hnot) (hfound.later (hb id (hremoves hid)))
    hlength hno

end Removal

/-- **Every request keeps it.** -/
theorem oversight_serve (s₀ : Store) (call : Call) (s : Store) (hs : (oversight s₀).holds s) :
    (oversight s₀).Always call (fun _ _ => True) (serve call) s := by
  obtain ⟨caller, request⟩ := call
  by_cases hadmin : s₀.Administrator caller
  · exact always_serve_of_writes oversight_reads fun op s _ account _ hnot => absurd hadmin hnot
  · cases request with
    | removeUser user =>
      refine Discipline.Always.bind hs (oversight_of hadmin) fun found s hs hfound => ?_
      cases found with
      | error status => exact Discipline.always_true_pure _
      | ok manager =>
        rw [hfound manager rfl]
        exact oversight_removeUser hadmin hs
    | createTenant _ _ _ | readTenant _ | removeTenant _ | createUser _ _ _ | readUser _ | attach _ _
    | detach _ _ | grantInTenant _ _ _ | grantOnApi _ _ _ _ | revokeInTenant _ _ _
    | revokeOnApi _ _ _ _ | grantOnAccount _ _ | revokeOnAccount _ _ =>
      refine always_serve_of_writes oversight_reads fun op s hwrite account hop => ?_
      subst hop
      exact hwrite.elim

/-- **An account is only removed by someone who manages all of it.**  From any store, along every
interleaving of any requests that is steady for each removal under way: at the moment a request is about
to delete an account's row, its caller, unless it was a system administrator to begin with, holds
`UserMgr` in every tenant the account is attached to, and the account owns no tenant. -/
theorem removed_by_one_who_manages_all {s : Store} {calls : List Call}
    {q : Pool Store (Task Call Op Op.Res Reply)}
    (h : Pool.Reach (Task.step handle) (oversight s).Undisturbed (waiting s calls) q)
    {t : Task Call Op Op.Res Reply} (ht : t ∈ q.threads) {account : UserId}
    {next : Except StorageError Unit → Action Reply} (hrest : t.rest = .call (.deleteUser account) next)
    (hnot : ¬ s.Administrator t.request.caller) : q.shared.Manages t.request.caller account :=
  Discipline.may_of_reach (oversight_serve s) (fun _ => id) h ht hrest account rfl hnot

/-! ### Runs -/

/-- The owner of one tenant removes a member of it, while the administrator puts that member into another
tenant. -/
def removalCalls : List Call :=
  [⟨root, .createTenant "acme" "alice" "correct horse staple"⟩,
    ⟨root, .createUser "bob" "acme" "correct horse staple"⟩,
    ⟨root, .createTenant "globex" "gina" "correct horse staple"⟩,
    ⟨alice, .removeUser "bob"⟩,
    ⟨root, .attach "globex" "bob"⟩]

/-- The request at this place is about to delete a row. -/
def deletesNext (t : Task Call Op Op.Res Reply) : Option UserId :=
  match t.rest with
  | .call (.deleteUser account) _ => some account
  | _ => none

theorem exists_of_deletesNext {t : Task Call Op Op.Res Reply} {account : UserId}
    (h : deletesNext t = some account) : ∃ next, t.rest = .call (.deleteUser account) next := by
  unfold deletesNext at h
  split at h
  · rename_i account' next hrest
    cases h
    exact ⟨next, hrest⟩
  · cases h

theorem not_administrator_alice : ¬ rootStore.Administrator alice := by
  rintro ⟨u, hu, hid, -⟩
  rw [List.mem_singleton.mp hu] at hid
  revert hid
  decide

/-- Nobody in between: the caller manages all of the account. -/
theorem removed_by_its_tenants_owner :
    ∃ q t next, Pool.Reach (Task.step handle) (oversight rootStore).Undisturbed
        (waiting rootStore removalCalls) q ∧ t ∈ q.threads ∧
      t.rest = .call (.deleteUser bob) next ∧ ¬ rootStore.Administrator t.request.caller ∧
      q.shared.Manages t.request.caller bob := by
  have hrun : (Pool.run (Task.step handle) Unshared (waiting rootStore removalCalls)
      (turns 0 4 ++ turns 1 3 ++ turns 2 4 ++ turns 3 5)).any (fun q => q.threads.any fun t =>
        t.request.caller == alice && deletesNext t == some bob) = true := by
    decide +kernel
  obtain ⟨q, hreach, htest⟩ := Pool.exists_reach_of_run hrun
  obtain ⟨t, ht, htest⟩ := List.any_eq_true.mp htest
  simp only [Bool.and_eq_true, beq_iff_eq] at htest
  obtain ⟨next, hrest⟩ := exists_of_deletesNext htest.2
  have hundisturbed := (oversight rootStore).reach_undisturbed_of_unshared hreach
  have hnot : ¬ rootStore.Administrator t.request.caller := htest.1 ▸ not_administrator_alice
  exact ⟨q, t, next, hundisturbed, ht, hrest, hnot,
    removed_by_one_who_manages_all hundisturbed ht hrest hnot⟩

/-- **An account is removed from a tenant it has joined since.**  It was put into another tenant after the
removal had read where it is, by a caller that manages nothing there. -/
theorem removed_from_a_tenant_it_joined :
    ∃ q t next, Pool.Reach (Task.step handle) Pool.anyStep (waiting rootStore removalCalls) q ∧
      t ∈ q.threads ∧ t.rest = .call (.deleteUser bob) next ∧
      ¬ rootStore.Administrator t.request.caller ∧ ¬ q.shared.Manages t.request.caller bob := by
  have hrun : (Pool.run (Task.step handle) Pool.anyStep (waiting rootStore removalCalls)
      (turns 0 4 ++ turns 1 3 ++ turns 2 4 ++ turns 3 5 ++ turns 4 4)).any (fun q =>
        q.shared.memberships.rows.any (fun m => m.user == bob && (q.shared.user alice).all fun stored =>
          !q.shared.allowed ⟨stored.id, stored.kind⟩ .userMgr (.tenant alice m.tenant)) &&
        q.threads.any fun t => t.request.caller == alice && deletesNext t == some bob) = true := by
    decide +kernel
  obtain ⟨q, hreach, htest⟩ := Pool.exists_reach_of_run hrun
  obtain ⟨hjoined, htest⟩ := Bool.and_eq_true_iff.mp htest
  obtain ⟨t, ht, htest⟩ := List.any_eq_true.mp htest
  obtain ⟨m, hm, hjoined⟩ := List.any_eq_true.mp hjoined
  simp only [Bool.and_eq_true, beq_iff_eq, Option.all_eq_true, Bool.not_eq_true'] at htest hjoined
  obtain ⟨next, hrest⟩ := exists_of_deletesNext htest.2
  refine ⟨q, t, next, hreach, ht, hrest, htest.1 ▸ not_administrator_alice, fun hmanages => ?_⟩
  obtain ⟨stored, hstored, hallowed⟩ := accepts_iff.mp (hmanages m hm hjoined.1).1
  rw [htest.1] at hstored hallowed
  rw [hjoined.2 stored hstored] at hallowed
  cases hallowed

end IntelliPrism.Manage
