import IntelliPrism.Manage.Allows

/-!
# What reading an account tells

An account is shown to a caller with the memberships in the tenants whose users the caller manages, and as
if it were not there when there are none.  Whatever else the store holds does not show.

* `Store.visible`, `Store.shown` — what a caller sees of an account, and the answer it makes;
* `ends_readUser` — **the answer of `read`**, or a failure of the store;
* `Indistinct` — two stores that agree on all the caller may see;
* `read_says_nothing_of_unmanaged` — **on two such stores the answer is the same**, and an account none of
  which may be seen reads as one that does not exist.
-/

namespace IntelliPrism.Manage

open IntelliPrism.Core IntelliPrism.Lib
open IntelliPrism.Gateway (acme alice bob)

/-! ### What a caller sees -/

/-- The memberships of an account in the tenants whose users the caller manages. -/
def Store.visible (s : Store) (manager : Manager) (account : UserId) : List Membership :=
  (s.membershipsOfUser account).filter fun m =>
    s.allowed manager .userMgr (manager.userMgrScope m.tenant)

/-- The account with what the caller sees of it, or nothing. -/
def Store.seen (s : Store) (manager : Manager) (account : UserId) : Option (User × Manager.Seen) :=
  match s.user account, s.visible manager account with
  | some stored, m :: rest => some (stored, ⟨m :: rest, (s.membershipsOfUser account).length⟩)
  | _, _ => none

def Store.shown (s : Store) (manager : Manager) (account : UserId) : Reply :=
  (s.seen manager account).elim (.status .notFound) fun found =>
    Manager.userView .ok found.1 found.2.shown

section Ends

variable {s s' : Store} {manager : Manager} {capability : Capability} {scope : CapabilityScope}
  {account : UserId}

theorem backend_of_ends_decideBy {role : Role} {error : StorageError}
    (h : (manager.decideBy role capability scope).Ends handle s s' (.error error)) : error = .backend := by
  obtain ⟨x, h⟩ := (ends_read_bind (by rfl)).mp h
  cases x with
  | none => exact Except.error.inj (Process.ends_pure.mp h).2
  | some x => cases (Process.ends_pure.mp h).2

theorem backend_of_ends_allows {error : StorageError}
    (h : (manager.allows capability scope).Ends handle s s' (.error error)) : error = .backend := by
  unfold Manager.allows at h
  split at h
  · cases (Process.ends_pure.mp h).2
  · split at h
    · exact backend_of_ends_decideBy h
    · obtain ⟨x, h⟩ := (ends_read_bind (by rfl)).mp h
      cases x with
      | none => exact Except.error.inj (Process.ends_pure.mp h).2
      | some x =>
        split at h
        · rename_i hread
          cases hread
        · cases (Process.ends_pure.mp h).2
        · exact backend_of_ends_decideBy h

/-- What the loop over the memberships ends with: those that may be seen, in their order. -/
theorem ends_shownOf {attached shown : List Membership}
    {answer : Except StorageError (List Membership)} :
    (manager.shownOf attached shown).Ends handle s s' answer →
      answer = .error .backend ∨ answer = .ok (shown ++ attached.filter fun m =>
        s.allowed manager .userMgr (manager.userMgrScope m.tenant)) := by
  induction attached generalizing shown with
  | nil =>
    intro h
    rw [(Process.ends_pure.mp h).2, List.filter_nil, List.append_nil]
    exact .inr rfl
  | cons membership rest ih =>
    intro h
    obtain ⟨s₁, allowed, hallowed, h⟩ := Process.ends_bind.mp h
    obtain rfl := ends_reads (Manager.calls_allows ..) hallowed
    cases allowed with
    | error error =>
      rw [(Process.ends_pure.mp h).2, backend_of_ends_allows hallowed]
      exact .inl rfl
    | ok allowed =>
      rw [List.filter_cons, ← (ends_allows.mp hallowed).2]
      cases allowed with
      | false => exact ih h
      | true =>
        rcases ih h with hfail | hok
        · exact .inl hfail
        · rw [List.append_assoc] at hok
          exact .inr hok

theorem ends_found (hordinary : manager.isSystemAdministrator = false) (hother : manager.user ≠ account)
    {answer : Except StorageError (Option (User × Manager.Seen))}
    (h : (manager.found account).Ends handle s s' answer) :
    answer = .error .backend ∨ answer = .ok (s.seen manager account) := by
  have hself : ¬ (manager.isSystemAdministrator = true ∨ manager.user = account) := by
    rw [hordinary]
    exact fun h => h.elim Bool.false_ne_true hother
  obtain ⟨x, h⟩ := (ends_read_bind (by rfl)).mp h
  cases x with
  | none => exact .inl (Process.ends_pure.mp h).2
  | some x =>
    rw [show (handle (some x) (.user account) s).2 = .ok (s.user account) from rfl] at h
    unfold Store.seen
    cases hrow : s.user account with
    | none =>
      rw [hrow] at h
      exact .inr (Process.ends_pure.mp h).2
    | some stored =>
      rw [hrow] at h
      obtain ⟨x, h⟩ := (ends_read_bind (by rfl)).mp h
      cases x with
      | none => exact .inl (Process.ends_pure.mp h).2
      | some x =>
        rw [show (handle (some x) (.membershipsOfUser account) s).2 = .ok (s.membershipsOfUser account)
          from rfl] at h
        dsimp only at h
        rw [if_neg hself] at h
        obtain ⟨s₁, shown, hshown, h⟩ := Process.ends_bind.mp h
        rcases ends_shownOf hshown with rfl | rfl
        · exact .inl (Process.ends_pure.mp h).2
        · rw [List.nil_append] at h
          unfold Store.visible
          generalize List.filter _ _ = visible at h ⊢
          cases visible with
          | nil => exact .inr (Process.ends_pure.mp h).2
          | cons m rest => exact .inr (Process.ends_pure.mp h).2

/-! With every call carried out, nothing fails. -/

theorem exec_allows (x : Supply) :
    (manager.allows capability scope).exec handle (some x) s =
      (s, .ok (s.allowed manager capability scope)) := by
  unfold Manager.allows Store.allowed
  dsimp only
  split
  · rfl
  · cases scope.inside with
    | none => rfl
    | some tenant =>
      dsimp only
      rw [Process.exec_bind]
      rw [show (ask (.membership manager.user tenant)).exec handle (some x) s
        = (s, .ok (s.membership manager.user tenant)) from rfl]
      cases s.membership manager.user tenant with
      | none => rfl
      | some held => rfl

theorem exec_shownOf (x : Supply) (attached shown : List Membership) :
    (manager.shownOf attached shown).exec handle (some x) s =
      (s, .ok (shown ++ attached.filter fun m =>
        s.allowed manager .userMgr (manager.userMgrScope m.tenant))) := by
  induction attached generalizing shown with
  | nil =>
    rw [List.filter_nil, List.append_nil]
    rfl
  | cons membership rest ih =>
    rw [Manager.shownOf, Process.exec_bind, exec_allows, List.filter_cons]
    cases s.allowed manager .userMgr (manager.userMgrScope membership.tenant) with
    | false => exact ih shown
    | true =>
      refine (ih _).trans ?_
      rw [List.append_assoc]
      rfl

theorem exec_found (hordinary : manager.isSystemAdministrator = false) (hother : manager.user ≠ account)
    (x : Supply) :
    (manager.found account).exec handle (some x) s = (s, .ok (s.seen manager account)) := by
  have hself : ¬ (manager.isSystemAdministrator = true ∨ manager.user = account) := by
    rw [hordinary]
    exact fun h => h.elim Bool.false_ne_true hother
  unfold Store.seen Store.visible
  rw [Manager.found, Process.exec_bind]
  rw [show (ask (.user account)).exec handle (some x) s = (s, .ok (s.user account)) from rfl]
  cases s.user account with
  | none => rfl
  | some stored =>
    dsimp only
    rw [Process.exec_bind]
    rw [show (ask (.membershipsOfUser account)).exec handle (some x) s
      = (s, .ok (s.membershipsOfUser account)) from rfl]
    dsimp only
    rw [if_neg hself, Process.exec_bind, exec_shownOf, List.nil_append]
    dsimp only
    generalize List.filter _ _ = visible
    cases visible with
    | nil => rfl
    | cons m rest => rfl

end Ends

/-- **The answer of `read`**: what the caller sees, or that the store failed; and what the caller sees when
no call of the store fails. -/
theorem ends_readUser {manager : Manager} {user : String} {account : UserId}
    (hid : Ident.new .user user = .ok account) (hordinary : manager.isSystemAdministrator = false)
    (hother : manager.user ≠ account) (s : Store) :
    (∀ s' reply, (manager.readUser user).Ends handle s s' reply ↔
      s' = s ∧ (reply = .status .internalServerError ∨ reply = s.shown manager account)) ∧
      ∀ x, (manager.readUser user).exec handle (some x) s = (s, s.shown manager account) := by
  have hexec : ∀ x, (manager.readUser user).exec handle (some x) s = (s, s.shown manager account) := by
    intro x
    rw [Manager.readUser, hid]
    dsimp only
    rw [Process.exec_bind, exec_found hordinary hother, Store.shown]
    cases s.seen manager account <;> rfl
  refine ⟨fun s' reply => ⟨fun h => ?_, fun h => ?_⟩, hexec⟩
  · refine ⟨ends_reads (Manager.calls_readUser fun _ => id) h, ?_⟩
    rw [Manager.readUser, hid] at h
    obtain ⟨s₁, found, hfound, h⟩ := Process.ends_bind.mp h
    rcases ends_found hordinary hother hfound with rfl | rfl
    · exact .inl (Process.ends_pure.mp h).2
    · rw [Store.shown]
      cases hseen : s.seen manager account with
      | none =>
        rw [hseen] at h
        exact .inr (Process.ends_pure.mp h).2
      | some seen =>
        rw [hseen] at h
        exact .inr (Process.ends_pure.mp h).2
  · obtain ⟨rfl, hreply⟩ := h
    rcases hreply with rfl | rfl
    · -- every call fails
      have hfails := Process.ends_exec handle none (manager.readUser user) s'
      rw [Manager.readUser, hid] at hfails ⊢
      exact hfails
    · have hends := Process.ends_exec handle carriedOut (manager.readUser user) s'
      rw [show carriedOut = some _ from rfl, hexec] at hends
      exact hends

/-! ### Stores the caller cannot tell apart -/

/-- Two stores agree on the caller's memberships and grants, on the account's memberships in the tenants
whose users the caller manages, and on the account's row if there is such a membership. -/
structure Indistinct (manager : Manager) (account : UserId) (s₁ s₂ : Store) : Prop where
  memberships : ∀ tenant, s₁.membership manager.user tenant = s₂.membership manager.user tenant
  grants : ∀ g, g ∈ (s₁.grantsOf manager.user).held ↔ g ∈ (s₂.grantsOf manager.user).held
  managed : ∀ tenant, s₁.allowed manager .userMgr (manager.userMgrScope tenant) = true →
    s₁.membership account tenant = s₂.membership account tenant
  row : ∀ tenant, s₁.allowed manager .userMgr (manager.userMgrScope tenant) = true →
    s₁.membership account tenant ≠ none → s₁.user account = s₂.user account

section Indistinct

variable {manager : Manager} {account : UserId} {s s₁ s₂ : Store}

theorem holds_congr {held held' : Grants} (h : ∀ g, g ∈ held.held ↔ g ∈ held'.held)
    (capability : Capability) (scope : CapabilityScope) :
    held.holds capability scope = held'.holds capability scope := by
  have hgranted : ∀ capability, held.granted capability scope = held'.granted capability scope := by
    intro capability
    rw [Bool.eq_iff_iff, Grants.granted, Grants.granted, List.any_eq_true, List.any_eq_true]
    exact exists_congr fun g => and_congr_left fun _ => h g
  unfold Grants.holds
  simp only [hgranted]

theorem Indistinct.allowed (h : Indistinct manager account s₁ s₂) (capability : Capability)
    (scope : CapabilityScope) : s₁.allowed manager capability scope = s₂.allowed manager capability scope := by
  unfold Store.allowed
  simp only [h.memberships, holds_congr h.grants]

theorem mem_visible {m : Membership} :
    m ∈ s.visible manager account ↔ s.membership account m.tenant = some m ∧
      s.allowed manager .userMgr (manager.userMgrScope m.tenant) = true := by
  rw [Store.visible, List.mem_filter, Store.mem_membershipsOfUser, Store.membership_eq_some]
  simp

/-- The memberships of an account stand in the order of their tenants, each once. -/
theorem pairwise_membershipsOfUser (s : Store) (account : UserId) :
    (s.membershipsOfUser account).Pairwise fun a b => a.tenant.raw ≤ b.tenant.raw := by
  have : Std.Total fun a b : Membership => a.tenant.raw ≤ b.tenant.raw :=
    ⟨fun a b => Std.le_total⟩
  have : IsTrans Membership fun a b => a.tenant.raw ≤ b.tenant.raw :=
    ⟨fun a b c => Std.le_trans⟩
  exact List.pairwise_insertionSort _ _

theorem nodup_membershipsOfUser (s : Store) (account : UserId) : (s.membershipsOfUser account).Nodup :=
  (List.perm_insertionSort _ _).nodup_iff.mpr ((List.Nodup.of_map _ s.memberships.unique).filter _)

theorem Indistinct.visible (h : Indistinct manager account s₁ s₂) :
    s₁.visible manager account = s₂.visible manager account := by
  have hmem : ∀ m, m ∈ s₁.visible manager account ↔ m ∈ s₂.visible manager account := by
    intro m
    rw [mem_visible, mem_visible, ← h.allowed]
    exact and_congr_left fun hallowed => by rw [h.managed m.tenant hallowed]
  refine List.Perm.eq_of_pairwise ?_ ((pairwise_membershipsOfUser s₁ account).filter _)
    ((pairwise_membershipsOfUser s₂ account).filter _) ?_
  · -- of two memberships at one place each is the one in the tenant they share
    intro a b ha hb hab hba
    have htenant : a.tenant = b.tenant := Ident.ext (String.le_antisymm hab hba)
    have ha := (mem_visible.mp ((hmem a).mp ha)).1
    have hb := (mem_visible.mp hb).1
    rw [htenant, hb] at ha
    exact (Option.some.inj ha).symm
  · exact (List.perm_ext_iff_of_nodup ((nodup_membershipsOfUser s₁ account).filter _)
      ((nodup_membershipsOfUser s₂ account).filter _)).mpr hmem

theorem Indistinct.shown (h : Indistinct manager account s₁ s₂) :
    s₁.shown manager account = s₂.shown manager account := by
  have hvisible := h.visible
  cases hv : s₁.visible manager account with
  | nil =>
    rw [hv] at hvisible
    simp only [Store.shown, Store.seen, hv, ← hvisible]
    cases s₁.user account <;> cases s₂.user account <;> rfl
  | cons m rest =>
    have hm : m ∈ s₁.visible manager account := hv ▸ List.mem_cons_self
    obtain ⟨hheld, hallowed⟩ := mem_visible.mp hm
    have hrow := h.row m.tenant hallowed (by rw [hheld]; exact Option.some_ne_none m)
    rw [hv] at hvisible
    simp only [Store.shown, Store.seen, hv, ← hvisible, ← hrow]
    cases s₁.user account <;> rfl

/-- An account of which nothing may be seen, and one that is not there. -/
theorem shown_of_unmanaged
    (h : ∀ tenant, s.allowed manager .userMgr (manager.userMgrScope tenant) = true →
      s.membership account tenant = none) : s.shown manager account = .status .notFound := by
  have hnil : s.visible manager account = [] := by
    refine List.eq_nil_iff_forall_not_mem.mpr fun m hm => ?_
    obtain ⟨hheld, hallowed⟩ := mem_visible.mp hm
    rw [h m.tenant hallowed] at hheld
    cases hheld
  simp only [Store.shown, Store.seen, hnil]
  cases s.user account <;> rfl

theorem shown_of_missing (h : s.user account = none) : s.shown manager account = .status .notFound := by
  simp only [Store.shown, Store.seen, h]
  rfl

end Indistinct

/-- **Reading an account says nothing about what the caller does not manage.**  A caller that is neither a
system administrator nor the account it asks about is answered the same on any two stores that agree on
its own memberships and grants, on the account's memberships in the tenants whose users it manages, and on
the account's row when there is one: the answers it can get are the same, and so is the one it gets when
the store does not fail.  Where there is none of them, the account reads as in a store that does not have
it. -/
theorem read_says_nothing_of_unmanaged {manager : Manager} {user : String} {account : UserId}
    (hid : Ident.new .user user = .ok account) (hordinary : manager.isSystemAdministrator = false)
    (hother : manager.user ≠ account) (s₁ : Store) :
    (∀ s₂, Indistinct manager account s₁ s₂ →
      (∀ reply, (∃ s', (manager.readUser user).Ends handle s₁ s' reply) ↔
        ∃ s', (manager.readUser user).Ends handle s₂ s' reply) ∧
      ∀ x x', ((manager.readUser user).exec handle (some x) s₁).2
        = ((manager.readUser user).exec handle (some x') s₂).2) ∧
    ((∀ tenant, s₁.allowed manager .userMgr (manager.userMgrScope tenant) = true →
      s₁.membership account tenant = none) → ∀ s₂, s₂.user account = none →
        (∀ reply, (∃ s', (manager.readUser user).Ends handle s₁ s' reply) ↔
          ∃ s', (manager.readUser user).Ends handle s₂ s' reply) ∧
        ∀ x x', ((manager.readUser user).exec handle (some x) s₁).2
          = ((manager.readUser user).exec handle (some x') s₂).2) := by
  have hsame : ∀ s₂, s₁.shown manager account = s₂.shown manager account →
      (∀ reply, (∃ s', (manager.readUser user).Ends handle s₁ s' reply) ↔
        ∃ s', (manager.readUser user).Ends handle s₂ s' reply) ∧
      ∀ x x', ((manager.readUser user).exec handle (some x) s₁).2
        = ((manager.readUser user).exec handle (some x') s₂).2 := by
    intro s₂ hshown
    obtain ⟨hends₁, hexec₁⟩ := ends_readUser hid hordinary hother s₁
    obtain ⟨hends₂, hexec₂⟩ := ends_readUser hid hordinary hother s₂
    constructor
    · intro reply
      simp only [hends₁, hends₂, exists_eq_left, hshown]
    · intro x x'
      rw [hexec₁, hexec₂, hshown]
  refine ⟨fun s₂ h => hsame s₂ h.shown, fun hnone s₂ hmissing => hsame s₂ ?_⟩
  rw [shown_of_unmanaged hnone, shown_of_missing hmissing]

def umbrella : TenantId := ⟨"umbrella", by decide, by decide, by decide⟩

/-- Two tenants, the owner of the first and an account with these memberships. -/
def bobStore (held : List Membership) (hunique : ((⟨alice, acme, .owner⟩ :: held).map Membership.key).Nodup)
    (hbob : ∀ m ∈ held, m.user = bob ∧ (m.tenant = acme ∨ m.tenant = umbrella)) : Store where
  tenants := ⟨[⟨acme, ⟨List.replicate 16 3, by decide⟩, .epoch⟩,
    ⟨umbrella, ⟨List.replicate 16 4, by decide⟩, .epoch⟩], by decide⟩
  users := ⟨[⟨alice, ⟨"$argon2id$"⟩, .regular, .epoch⟩, ⟨bob, ⟨"$argon2id$"⟩, .regular, .epoch⟩], by decide⟩
  memberships := ⟨⟨alice, acme, .owner⟩ :: held, hunique⟩
  grants := .empty
  membershipsRefer := by
    intro m hm
    rcases List.mem_cons.mp hm with rfl | hm
    · exact ⟨⟨_, List.mem_cons_self, rfl⟩, ⟨_, List.mem_cons_self, rfl⟩⟩
    · obtain ⟨huser, htenant⟩ := hbob m hm
      refine ⟨⟨_, List.mem_cons_of_mem _ List.mem_cons_self, huser.symm⟩, ?_⟩
      rcases htenant with htenant | htenant
      · exact ⟨_, List.mem_cons_self, htenant.symm⟩
      · exact ⟨_, List.mem_cons_of_mem _ List.mem_cons_self, htenant.symm⟩
  grantsRefer := by intro g hg; cases hg

/-- The account is a member of the first tenant. -/
def insideStore : Store := bobStore [⟨bob, acme, .member⟩] (by decide) (by decide)

/-- It is a member of the second as well. -/
def bothStore : Store := bobStore [⟨bob, acme, .member⟩, ⟨bob, umbrella, .member⟩] (by decide) (by decide)

theorem membership_alice {held : List Membership} {hunique hbob} {tenant : TenantId} {m : Membership} :
    (bobStore held hunique hbob).membership alice tenant = some m ↔
      m = ⟨alice, acme, .owner⟩ ∧ tenant = acme := by
  refine Store.membership_eq_some.trans ⟨fun h => ?_, fun h => ?_⟩
  · obtain ⟨hm, huser, rfl⟩ := h
    rcases List.mem_cons.mp hm with rfl | hm
    · exact ⟨rfl, rfl⟩
    · have hbob := (hbob m hm).1
      rw [huser] at hbob
      exact absurd hbob (by decide)
  · obtain ⟨rfl, rfl⟩ := h
    exact ⟨List.mem_cons_self, rfl, rfl⟩

/-- The owner of the first tenant reads the account alike in both. -/
theorem read_says_nothing_of_umbrella :
    insideStore ≠ bothStore ∧ Indistinct ⟨alice, .regular⟩ bob insideStore bothStore ∧
      ∀ x x', ((Manager.readUser ⟨alice, .regular⟩ "bob").exec handle (some x) insideStore).2
        = ((Manager.readUser ⟨alice, .regular⟩ "bob").exec handle (some x') bothStore).2 := by
  have hindistinct : Indistinct ⟨alice, .regular⟩ bob insideStore bothStore := by
    refine ⟨fun tenant => Option.ext fun m => ?_, fun g => Iff.rfl, fun tenant hallowed => ?_,
      fun _ _ _ => rfl⟩
    · exact membership_alice.trans membership_alice.symm
    · obtain ⟨m, hm, -⟩ := allowed_userMgr.mp hallowed
      obtain ⟨-, rfl⟩ := membership_alice.mp hm
      decide
  refine ⟨fun h => ?_, hindistinct, ?_⟩
  · exact absurd (congrArg (fun s => s.memberships.rows.length) h) (by decide)
  · exact ((@read_says_nothing_of_unmanaged ⟨alice, .regular⟩ "bob" bob rfl rfl (by decide)
      insideStore).1 bothStore hindistinct).2

end IntelliPrism.Manage
