import IntelliPrism.Manage.Allows

/-!
# Nobody raises their own capabilities

What an account may do rests on its row, its memberships and its grants.  A regular account that calls
the management api alone can lose some of them and never gains one: it is attached to a tenant or granted
something only by a call that is refused it, and it does not remove itself, so no account of its name can
be created either.

* `NoMore` — an account has no row, membership or grant that it did not have;
* `noMore_of_completed` — **one call by the account itself** leaves it with no more;
* `Store.Accepts.of_noMore` — what it is allowed with no more, it was allowed before;
* `nobody_raises_itself` — **the same for every sequence of its calls**.
-/

namespace IntelliPrism.Manage

open IntelliPrism.Core IntelliPrism.Lib
open IntelliPrism.Gateway (acme alice)

/-- The account has no row, membership or grant in the second store that it did not have in the first. -/
structure NoMore (account : UserId) (s s' : Store) : Prop where
  row : ∀ u ∈ s'.users.rows, u.id = account → u ∈ s.users.rows
  memberships : ∀ m ∈ s'.memberships.rows, m.user = account → m ∈ s.memberships.rows
  grants : ∀ g ∈ s'.grants.rows, g.scope.owner = account → g ∈ s.grants.rows

variable {account : UserId} {s s' : Store}

theorem NoMore.refl (account : UserId) (s : Store) : NoMore account s s :=
  ⟨fun _ h _ => h, fun _ h _ => h, fun _ h _ => h⟩

theorem NoMore.trans {s₁ s₂ s₃ : Store} (h₁ : NoMore account s₁ s₂) (h₂ : NoMore account s₂ s₃) :
    NoMore account s₁ s₃ where
  row u hu hid := h₁.row u (h₂.row u hu hid) hid
  memberships m hm hid := h₁.memberships m (h₂.memberships m hm hid) hid
  grants g hg hid := h₁.grants g (h₂.grants g hg hid) hid

/-! ### Calls about others -/

/-- An account that is there stays there, with no more than it had. -/
def Stays (account : UserId) (s s' : Store) : Prop :=
  s.users.Has account → s'.users.Has account ∧ NoMore account s s'

theorem Stays.refl (account : UserId) (s : Store) : Stays account s s := fun h => ⟨h, .refl account s⟩

theorem Stays.trans {s₁ s₂ s₃ : Store} (h₁ : Stays account s₁ s₂) (h₂ : Stays account s₂ s₃) :
    Stays account s₁ s₃ := fun h =>
  ⟨(h₂ (h₁ h).1).1, (h₁ h).2.trans (h₂ (h₁ h).1).2⟩

/-- Neither attaches the account, nor grants it anything, nor removes it. -/
def Op.Spares (account : UserId) : Op → Prop
  | .attach new => new.user ≠ account
  | .grant new => new.scope.owner ≠ account
  | .deleteUser id => id ≠ account
  | _ => True

theorem noMore_of_new {new : User} (hhas : s.users.Has account) (hnew : ¬ s.users.Has new.id)
    (husers : s'.users.rows = s.users.rows ++ [new])
    (hmemberships : ∀ m ∈ s'.memberships.rows, m.user = new.id ∨ m ∈ s.memberships.rows)
    (hgrants : s'.grants = s.grants) : s'.users.Has account ∧ NoMore account s s' := by
  have hother : new.id ≠ account := fun heq => hnew (heq ▸ hhas)
  refine ⟨?_, ⟨fun u hu hid => ?_, fun m hm hid => ?_, fun g hg _ => hgrants ▸ hg⟩⟩
  · obtain ⟨u, hu, hid⟩ := hhas
    exact ⟨u, husers ▸ List.mem_append_left _ hu, hid⟩
  · rw [husers, List.mem_append, List.mem_singleton] at hu
    rcases hu with hu | rfl
    · exact hu
    · exact absurd hid hother
  · rcases hmemberships m hm with hnew | hm
    · exact absurd (hnew.symm.trans hid) hother
    · exact hm

/-- **A call about others** leaves the account with no more. -/
theorem stays_of_spares {op : Op} (hop : op.Spares account) (x : Option Supply) (s : Store) :
    Stays account s (handle x op s).1 := by
  refine handle_written (P := Stays account s) (.refl account s) fun s' hwritten hhas => ?_
  cases op with
  | attach new =>
    obtain ⟨hmemberships, -, husers, hgrants, -, -⟩ := Store.insertMembership_ok hwritten
    refine ⟨husers ▸ hhas, ⟨fun u hu _ => husers ▸ hu, fun m hm hid => ?_, fun g hg _ => hgrants ▸ hg⟩⟩
    rw [hmemberships] at hm
    rcases Table.mem_upsert.mp hm with rfl | hm
    · exact absurd hid hop
    · exact hm.1
  | removeMember user tenant =>
    obtain ⟨removed, hok⟩ := hwritten
    obtain ⟨-, husers, hmemberships, hgrants⟩ := Store.removeMember_ok hok
    refine ⟨husers ▸ hhas, ⟨fun u hu _ => husers ▸ hu, fun m hm _ => ?_, fun g hg _ => ?_⟩⟩
    · exact (Table.mem_keep.mp (hmemberships ▸ hm)).1
    · exact (Table.mem_keep.mp (hgrants ▸ hg)).1
  | deleteUser id =>
    obtain ⟨husers, -, hmemberships, hgrants⟩ := Store.deleteUser_ok hwritten
    refine ⟨?_, ⟨fun u hu _ => ?_, fun m hm _ => ?_, fun g hg _ => ?_⟩⟩
    · rw [husers]
      exact Table.has_keep_ne hhas (Ne.symm hop)
    · exact (Table.mem_keep.mp (husers ▸ hu)).1
    · exact (Table.mem_keep.mp (hmemberships ▸ hm)).1
    · exact (Table.mem_keep.mp (hgrants ▸ hg)).1
  | deleteTenant id =>
    obtain ⟨-, husers, hmemberships, hgrants⟩ := Store.deleteTenant_ok hwritten
    refine ⟨husers ▸ hhas, ⟨fun u hu _ => husers ▸ hu, fun m hm _ => ?_, fun g hg _ => ?_⟩⟩
    · exact (Table.mem_keep.mp (hmemberships ▸ hm)).1
    · exact (Table.mem_keep.mp (hgrants ▸ hg)).1
  | createTenantWithOwner tenant key owner passphrase =>
    obtain ⟨new, user, held, -, -, -, hok⟩ := hwritten
    obtain ⟨-, hnew, -, husers, hgrants, hmemberships⟩ := Store.createTenantWithOwner_ok hok
    refine noMore_of_new hhas hnew husers (fun m hm => ?_) hgrants
    rcases (hmemberships m).mp hm with rfl | hm
    · exact .inl rfl
    · exact .inr hm
  | addMember user passphrase tenant =>
    obtain ⟨user, held, -, -, hok⟩ := hwritten
    obtain ⟨hnew, -, husers, hgrants, hmemberships⟩ := Store.addMember_ok hok
    refine noMore_of_new hhas hnew husers (fun m hm => ?_) hgrants
    rcases (hmemberships m).mp hm with rfl | hm
    · exact .inl rfl
    · exact .inr hm
  | grant new =>
    obtain ⟨-, husers, hmemberships, hgrants⟩ := Store.grant_ok hwritten
    refine ⟨husers ▸ hhas, ⟨fun u hu _ => husers ▸ hu, fun m hm _ => hmemberships ▸ hm, fun g hg hid => ?_⟩⟩
    rcases (hgrants g).mp hg with rfl | hg
    · exact absurd hid hop
    · exact hg
  | revoke old =>
    obtain ⟨-, husers, hmemberships, hgrants⟩ := Store.revoke_ok hwritten
    refine ⟨husers ▸ hhas, ⟨fun u hu _ => husers ▸ hu, fun m hm _ => hmemberships ▸ hm, fun g hg _ => ?_⟩⟩
    exact (Table.mem_keep.mp (hgrants ▸ hg)).1
  | user _ | tenant _ | membership _ _ | membershipsOfUser _ | grantsOf _ | grantsInTenant _ _
  | hash _ | generateKey | claim _ _ => exact hwritten.elim

theorem spares_of_reads {op : Op} (h : op.Reads) : op.Spares account := by
  cases op <;> trivial

/-! ### Calls about the account itself -/

section Itself

variable {manager : Manager} {reply : Reply}

/-- Whoever is allowed something inside a tenant without being the administrator is a member of it. -/
theorem membership_of_allowed {capability : Capability} {scope : CapabilityScope} {tenant : TenantId}
    (hordinary : manager.isSystemAdministrator = false) (hscope : scope.inside = some tenant)
    (h : s.allowed manager capability scope = true) : s.membership manager.user tenant ≠ none := by
  intro hnone
  simp [Store.allowed, hordinary, hscope, hnone] at h

/-- A check that ends in a refusal leaves the store alone, and one that does not was passed. -/
theorem ends_unlessRefused {capability : Capability} {scope : CapabilityScope} {next : Action Reply}
    (h : (manager.unlessRefused capability scope next).Ends handle s s' reply) :
    s' = s ∨ s.allowed manager capability scope = true ∧ next.Ends handle s s' reply := by
  obtain ⟨s₁, allowed, hallows, hrest⟩ := Process.ends_bind.mp h
  have hs₁ := ends_reads (Manager.calls_allows ..) hallows
  rw [hs₁] at hallows hrest
  rcases allowed with error | (_ | _)
  · exact .inl (Process.ends_pure.mp hrest).1
  · exact .inl (Process.ends_pure.mp hrest).1
  · exact .inr ⟨(ends_allows.mp hallows).2.symm, hrest⟩

theorem attach_itself {tenant : String} (hordinary : manager.isSystemAdministrator = false)
    (h : (manager.attach tenant manager.user.raw).Ends handle s s' reply) : s' = s := by
  unfold Manager.attach at h
  split at h
  · rename_i inside user hinside huser
    have hself : user = manager.user := Ident.ext (raw_of_new huser)
    rcases ends_unlessRefused h with hs | ⟨hallowed, h⟩
    · exact hs
    · have hmember := membership_of_allowed hordinary rfl hallowed
      obtain ⟨x, h⟩ := (ends_read_bind (by rfl)).mp h
      split at h
      · exact (Process.ends_pure.mp h).1
      · exact (Process.ends_pure.mp h).1
      · split at h
        · exact (Process.ends_pure.mp h).1
        · obtain ⟨x, h⟩ := (ends_read_bind (by rfl)).mp h
          split at h
          · exact (Process.ends_pure.mp h).1
          · split at h
            · exact (Process.ends_pure.mp h).1
            · exact (Process.ends_pure.mp h).1
          · rename_i hnone
            rw [hself] at hnone
            exact absurd (handle_membership hnone).symm hmember
  · exact (Process.ends_pure.mp h).1

/-- Whoever administers a tenant without being the administrator owns it. -/
theorem owner_of_administers {tenant : TenantId} (hordinary : manager.isSystemAdministrator = false)
    (h : (manager.administers tenant).Ends handle s s' (.ok true)) :
    ∃ held, s.membership manager.user tenant = some held ∧ held.standing = .owner := by
  unfold Manager.administers at h
  rw [hordinary, if_neg Bool.false_ne_true] at h
  obtain ⟨x, h⟩ := (ends_read_bind (by rfl)).mp h
  split at h
  · cases (Process.ends_pure.mp h).2
  · rename_i held hheld
    have hany := Except.ok.inj (Process.ends_pure.mp h).2
    rw [handle_membership hheld] at hany
    obtain ⟨held, hsome, hstanding⟩ := (Option.any_eq_true _ _).mp hany.symm
    exact ⟨held, hsome, beq_iff_eq.mp hstanding⟩

/-- An account that may grant inside a tenant owns it, and owners are granted nothing. -/
theorem memberGrants_itself {named : Manager.Named} (hordinary : manager.isSystemAdministrator = false)
    (hself : named.user = manager.user) {held : Grants} :
    ¬ (manager.memberGrants named).Ends handle s s' (.ok held) := by
  intro h
  obtain ⟨s₁, administers, hadministers, h⟩ := Process.ends_bind.mp h
  have hs₁ := ends_reads (Manager.calls_administers ..) hadministers
  rw [hs₁] at hadministers h
  rcases administers with error | (_ | _)
  · cases (Process.ends_pure.mp h).2
  · cases (Process.ends_pure.mp h).2
  · obtain ⟨owned, howned, hstanding⟩ := owner_of_administers hordinary hadministers
    obtain ⟨x, h⟩ := (ends_read_bind (by rfl)).mp h
    split at h
    · cases (Process.ends_pure.mp h).2
    · cases (Process.ends_pure.mp h).2
    · rename_i held' hheld'
      have hsame := handle_membership hheld'
      rw [hself, howned] at hsame
      cases hsame
      rw [if_pos hstanding] at h
      cases (Process.ends_pure.mp h).2

theorem grant_itself {named : Manager.Named} (hordinary : manager.isSystemAdministrator = false)
    (hself : named.user = manager.user) (h : (manager.grant named).Ends handle s s' reply) : s' = s := by
  obtain ⟨s₁, held, hheld, h⟩ := Process.ends_bind.mp h
  cases held with
  | error refusal =>
    rw [(Process.ends_pure.mp h).1]
    exact ends_reads (Manager.calls_memberGrants ..) hheld
  | ok held => exact absurd hheld (memberGrants_itself hordinary hself)

theorem withNamed_itself {tenant capability : String} {api : Option String}
    (hordinary : manager.isSystemAdministrator = false)
    (h : (Manager.withNamed tenant manager.user.raw capability api manager.grant).Ends handle s s' reply) :
    s' = s := by
  unfold Manager.withNamed at h
  split at h
  · rename_i named hnamed
    exact grant_itself hordinary (Ident.ext (Manager.names_of_named hnamed).2) h
  · exact (Process.ends_pure.mp h).1

theorem removeUser_itself (h : (manager.removeUser manager.user.raw).Ends handle s s' reply) : s' = s := by
  unfold Manager.removeUser at h
  split at h
  · exact (Process.ends_pure.mp h).1
  · rename_i id hid
    rw [if_pos (Ident.ext (raw_of_new hid)).symm] at h
    exact (Process.ends_pure.mp h).1

theorem onAccount_refused {user capability : String} {call : Grant → Action (Except StorageError Unit)}
    (hordinary : manager.isSystemAdministrator = false)
    (h : (manager.onAccount user capability call).Ends handle s s' reply) : s' = s := by
  obtain ⟨s₁, found, hfound, h⟩ := Process.ends_bind.mp h
  rw [Manager.accountGrant, if_pos hordinary] at hfound
  obtain ⟨hs₁, rfl⟩ := Process.ends_pure.mp hfound
  rw [← hs₁]
  exact (Process.ends_pure.mp h).1

end Itself

/-! ### Sequences of calls -/

/-- A management call by the account, made alone and run to its answer. -/
def Completed (account : UserId) (s s' : Store) : Prop :=
  ∃ request reply, (serve ⟨account, request⟩).Ends handle s s' reply

/-- The account is no system administrator. -/
def Store.Ordinary (s : Store) (account : UserId) : Prop :=
  ∀ u ∈ s.users.rows, u.id = account → u.kind = .regular

theorem ends_serve {call : Call} {reply : Reply} (h : (serve call).Ends handle s s' reply) :
    s' = s ∨ ∃ stored ∈ s.users.rows, stored.id = call.caller ∧
      (call.request.handler ⟨stored.id, stored.kind⟩).Ends handle s s' reply := by
  obtain ⟨s₁, found, hfound, hrest⟩ := Process.ends_bind.mp h
  have hs₁ := ends_reads (Manager.calls_of call.caller) hfound
  rw [hs₁] at hfound hrest
  cases found with
  | error status => exact .inl (Process.ends_pure.mp hrest).1
  | ok manager =>
    obtain ⟨-, stored, hstored, rfl⟩ := ends_of.mp hfound
    obtain ⟨hmem, hid⟩ := Table.find_eq_some.mp hstored
    exact .inr ⟨stored, hmem, hid, hrest⟩

/-- **One call by the account itself** leaves it with no more. -/
theorem noMore_of_completed (hordinary : s.Ordinary account) (h : Completed account s s') :
    NoMore account s s' := by
  obtain ⟨request, reply, h⟩ := h
  have hsame : s' = s → NoMore account s s' := fun hs => hs ▸ .refl account s'
  rcases ends_serve h with hs | ⟨stored, hmem, hid, hhandler⟩
  · exact hsame hs
  · have hregular : (⟨stored.id, stored.kind⟩ : Manager).isSystemAdministrator = false := by
      rw [Manager.isSystemAdministrator, hordinary stored hmem hid]
      rfl
    have hothers : (∀ op, request.MayWrite op → op.Spares account) → NoMore account s s' := by
      intro hwrites
      refine (h.relate (calls_serve ⟨account, request⟩) (Stays.refl account) Stays.trans
        (fun op hop x s => stays_of_spares ?_ x s) ⟨stored, hmem, hid⟩).2
      rcases hop with hreads | hwrite
      · exact spares_of_reads hreads
      · exact hwrites op hwrite
    have hself : (⟨stored.id, stored.kind⟩ : Manager).user = account := hid
    -- A request that names an account names this one, which it is refused, or another.
    have hnames : ∀ name : String, (name = account.raw → s' = s) →
        (name ≠ account.raw → ∀ op, request.MayWrite op → op.Spares account) → NoMore account s s' := by
      intro name hitself hother
      by_cases hname : name = account.raw
      · exact hsame (hitself hname)
      · exact hothers (hother hname)
    cases request with
    | attach tenant user =>
      refine hnames user (fun hname => ?_) fun hname op hwrite => ?_
      · rw [hname, ← hself] at hhandler
        exact attach_itself hregular hhandler
      · cases op with
        | attach new => exact fun heq => hname (heq ▸ hwrite.1.symm)
        | _ => trivial
    | grantInTenant tenant user capability =>
      refine hnames user (fun hname => ?_) fun hname op hwrite => ?_
      · rw [hname, ← hself] at hhandler
        exact withNamed_itself hregular hhandler
      · cases op with
        | grant new => exact fun heq => hname (heq ▸ hwrite.1.symm)
        | _ => trivial
    | grantOnApi tenant user capability api =>
      refine hnames user (fun hname => ?_) fun hname op hwrite => ?_
      · rw [hname, ← hself] at hhandler
        exact withNamed_itself hregular hhandler
      · cases op with
        | grant new => exact fun heq => hname (heq ▸ hwrite.1.symm)
        | _ => trivial
    | removeUser user =>
      refine hnames user (fun hname => ?_) fun hname op hwrite => ?_
      · rw [hname, ← hself] at hhandler
        exact removeUser_itself hhandler
      · cases op with
        | deleteUser id => exact fun heq => hname (heq ▸ hwrite.symm)
        | _ => trivial
    | grantOnAccount user capability => exact hsame (onAccount_refused hregular hhandler)
    | createTenant _ _ _ | readTenant _ | removeTenant _ | createUser _ _ _ | readUser _ | detach _ _
    | revokeInTenant _ _ _ | revokeOnApi _ _ _ _ | revokeOnAccount _ _ =>
      apply hothers
      intro op hwrite
      cases op <;> trivial

/-! ### What it is allowed -/

theorem granted_mono {grants grants' : Grants} (h : ∀ g ∈ grants'.held, g ∈ grants.held)
    {capability : Capability} {scope : CapabilityScope} (hheld : grants'.granted capability scope = true) :
    grants.granted capability scope = true := by
  obtain ⟨g, hg, hmatch⟩ := List.any_eq_true.mp hheld
  exact List.any_eq_true.mpr ⟨g, h g hg, hmatch⟩

theorem holds_mono {grants grants' : Grants} (h : ∀ g ∈ grants'.held, g ∈ grants.held)
    {capability : Capability} {scope : CapabilityScope} (hheld : grants'.holds capability scope = true) :
    grants.holds capability scope = true := by
  unfold Grants.holds at hheld ⊢
  split_ifs at hheld with hshape hmissing
  rw [if_neg hshape, if_neg]
  · exact granted_mono h hheld
  · intro hmissing'
    apply hmissing
    obtain ⟨prerequisite, hsome, hnot⟩ := (Option.any_eq_true _ _).mp hmissing'
    refine (Option.any_eq_true _ _).mpr ⟨prerequisite, hsome, ?_⟩
    rw [Bool.not_eq_true'] at hnot ⊢
    by_contra hgranted
    rw [Bool.not_eq_false] at hgranted
    rw [granted_mono h hgranted] at hnot
    cases hnot

/-- With no row, membership or grant it did not have, an account is allowed nothing new. -/
theorem Store.Accepts.of_noMore (hordinary : s.Ordinary account) (hno : NoMore account s s')
    {capability : Capability} {scope : CapabilityScope} (h : s'.Accepts account capability scope) :
    s.Accepts account capability scope := by
  obtain ⟨stored, hstored, hallowed⟩ := accepts_iff.mp h
  obtain ⟨hmem, hid⟩ := Table.find_eq_some.mp hstored
  have hmem := hno.row stored hmem hid
  refine accepts_iff.mpr ⟨stored, Table.find_eq_some.mpr ⟨hmem, hid⟩, ?_⟩
  have hgrants : ∀ g ∈ (s'.grantsOf stored.id).held, g ∈ (s.grantsOf stored.id).held := by
    intro g hg
    obtain ⟨hg, howner⟩ := Store.mem_grantsOf.mp hg
    exact Store.mem_grantsOf.mpr ⟨hno.grants g hg (howner.trans hid), howner⟩
  have hregular : (⟨stored.id, stored.kind⟩ : Manager).isSystemAdministrator = false := by
    rw [Manager.isSystemAdministrator, hordinary stored hmem hid]
    rfl
  simp only [Store.allowed, hregular, Bool.false_eq_true, if_false] at hallowed ⊢
  cases hscope : scope.inside with
  | none =>
    simp only [hscope, Bool.or_eq_true] at hallowed ⊢
    exact hallowed.imp_right (holds_mono hgrants)
  | some tenant =>
    simp only [hscope] at hallowed ⊢
    cases hheld : s'.membership stored.id tenant with
    | none => simp [hheld] at hallowed
    | some held =>
      obtain ⟨hin, huser, htenant⟩ := Store.membership_eq_some.mp hheld
      have hbefore : s.membership stored.id tenant = some held :=
        Store.membership_eq_some.mpr ⟨hno.memberships held hin (huser.trans hid), huser, htenant⟩
      simp only [hheld, Bool.or_eq_true] at hallowed
      simp only [hbefore, Bool.or_eq_true]
      exact hallowed.imp_right (holds_mono hgrants)

/-- **Nobody raises their own capabilities.**  Whatever sequence of management calls an account that is no
system administrator makes alone, what it is allowed after them it was allowed before. -/
theorem nobody_raises_itself (s s' : Store) (account : UserId) (hordinary : s.Ordinary account)
    (h : Relation.ReflTransGen (Completed account) s s') (capability : Capability)
    (scope : CapabilityScope) (haccepts : s'.Accepts account capability scope) :
    s.Accepts account capability scope := by
  suffices hno : NoMore account s s' from haccepts.of_noMore hordinary hno
  -- The account stays ordinary, so each call in turn leaves it with no more.
  clear haccepts
  induction h with
  | refl => exact .refl account s
  | tail _ hcall ih =>
    refine ih.trans (noMore_of_completed (fun u hu hid => ?_) hcall)
    exact hordinary u (ih.row u hu hid) hid

theorem ordinary_alice : acmeStore.Ordinary alice := by
  have hrows : ∀ u ∈ acmeStore.users.rows, u.id = alice → u.kind = .regular := by decide
  exact hrows

/-- The store after the owner of the tenant created an account in it. -/
def withBob : Store :=
  (Process.exec handle carriedOut (serve ⟨alice, .createUser "bob" "acme" "correct horse staple"⟩)
    acmeStore).1

/-- An owner that has created an account manages the users of its tenant, as it did before. -/
theorem alice_raises_nothing :
    acmeStore.Ordinary alice ∧ Relation.ReflTransGen (Completed alice) acmeStore withBob ∧
      withBob.users.rows.length = 3 ∧ withBob.Accepts alice .userMgr (.tenant alice acme) ∧
      acmeStore.Accepts alice .userMgr (.tenant alice acme) := by
  have hcompleted : Relation.ReflTransGen (Completed alice) acmeStore withBob :=
    .single ⟨_, _, Process.ends_exec handle carriedOut _ _⟩
  have hallowed : (withBob.user alice).any (fun stored =>
      withBob.allowed ⟨stored.id, stored.kind⟩ .userMgr (.tenant alice acme)) = true := by
    decide +kernel
  obtain ⟨stored, hstored, hallowed⟩ := (Option.any_eq_true _ _).mp hallowed
  have haccepts := accepts_iff.mpr ⟨stored, hstored, hallowed⟩
  exact ⟨ordinary_alice, hcompleted, by decide +kernel, haccepts,
    nobody_raises_itself acmeStore withBob alice ordinary_alice hcompleted _ _ haccepts⟩

end IntelliPrism.Manage
