import IntelliPrism.Manage.Handlers

/-!
# Which calls a request can make

Every handler reads, decides and then makes at most one write, on what its path and body name.  Read off
the texts once, this is what the invariants of the store rest on for every request whose write needs no
more than that.

* `Request.MayWrite` — the writes a request can end with, by the names it carries;
* `calls_serve` — **a request makes reads and the one write it is for**.
-/

namespace IntelliPrism.Manage

open IntelliPrism.Core IntelliPrism.Lib IntelliPrism.Auth

theorem raw_of_new {kind : IdKind} {raw : String} {id : Ident kind} (h : Ident.new kind raw = .ok id) :
    id.raw = raw := by
  unfold Ident.new at h
  split at h
  · cases h
  · split at h
    · cases h
    · split at h
      · cases h
      · cases h
        rfl

/-- The writes a request can end with, by the names it carries. -/
def Request.MayWrite : Request → Op → Prop
  | .createTenant tenant owner _, .createTenantWithOwner new _ account _ =>
    new.raw = tenant ∧ account.raw = owner
  | .removeTenant tenant, .deleteTenant id => id.raw = tenant
  | .createUser user tenant _, .addMember account _ inside => account.raw = user ∧ inside.raw = tenant
  | .removeUser user, .deleteUser id => id.raw = user
  | .attach tenant user, .attach new =>
    new.user.raw = user ∧ new.tenant.raw = tenant ∧ new.standing = .member
  | .detach tenant user, .removeMember account inside => account.raw = user ∧ inside.raw = tenant
  | .grantInTenant tenant user _, .grant new | .grantOnApi tenant user _ _, .grant new =>
    new.scope.owner.raw = user ∧ ∃ inside, new.scope.inside = some inside ∧ inside.raw = tenant
  | .revokeInTenant _ _ _, .revoke _ | .revokeOnApi _ _ _ _, .revoke _ => True
  | .grantOnAccount user _, .grant new => new.scope.owner.raw = user ∧ new.scope.inside = none
  | .revokeOnAccount _ _, .revoke _ => True
  | _, _ => False

/-- A call that a request can make: one that reads, or the write it is for. -/
def Request.MayCall (request : Request) (op : Op) : Prop := op.Reads ∨ request.MayWrite op

namespace Manager

variable (manager : Manager)

theorem calls_of (user : UserId) : (Manager.of user).Calls Op.Reads := by
  refine .bind (calls_ask.mpr rfl) fun found => ?_
  rcases found with _ | (_ | _) <;> trivial

theorem calls_decideBy (role : Role) (capability : Capability) (scope : CapabilityScope) :
    (manager.decideBy role capability scope).Calls Op.Reads := by
  refine .bind (calls_ask.mpr rfl) fun granted => ?_
  cases granted <;> trivial

theorem calls_allows (capability : Capability) (scope : CapabilityScope) :
    (manager.allows capability scope).Calls Op.Reads := by
  unfold allows
  split
  · trivial
  · split
    · exact calls_decideBy ..
    · refine .bind (calls_ask.mpr rfl) fun held => ?_
      rcases held with _ | (_ | held)
      · trivial
      · trivial
      · exact calls_decideBy ..

theorem calls_administers (tenant : TenantId) : (manager.administers tenant).Calls Op.Reads := by
  unfold administers
  split
  · trivial
  · refine .bind (calls_ask.mpr rfl) fun held => ?_
    cases held <;> trivial

theorem calls_reaches (tenant : TenantId) : (manager.reaches tenant).Calls Op.Reads := by
  refine .bind (calls_allows ..) fun allowed => ?_
  rcases allowed with _ | (_ | _)
  · trivial
  · refine .bind (calls_ask.mpr rfl) fun held => ?_
    cases held <;> trivial
  · trivial

theorem calls_shownOf (attached shown : List Membership) :
    (manager.shownOf attached shown).Calls Op.Reads := by
  induction attached generalizing shown with
  | nil => trivial
  | cons membership rest ih =>
    refine .bind (calls_allows ..) fun allowed => ?_
    rcases allowed with _ | (_ | _)
    · trivial
    · exact ih shown
    · exact ih _

/-- What is shown of an account's attachments is some of them, in their order. -/
theorem yields_shownOf (attached shown : List Membership) :
    (manager.shownOf attached shown).Yields fun answer =>
      ∀ seen, answer = .ok seen → ∃ more, more.Sublist attached ∧ seen = shown ++ more := by
  induction attached generalizing shown with
  | nil =>
    intro seen h
    cases h
    exact ⟨[], .slnil, (List.append_nil _).symm⟩
  | cons membership rest ih =>
    refine .bind fun allowed => ?_
    rcases allowed with _ | (_ | _)
    · intro seen h
      cases h
    · refine (ih shown).mono fun answer h seen hseen => ?_
      obtain ⟨more, hmore, heq⟩ := h seen hseen
      exact ⟨more, hmore.cons _, heq⟩
    · refine (ih _).mono fun answer h seen hseen => ?_
      obtain ⟨more, hmore, heq⟩ := h seen hseen
      refine ⟨membership :: more, hmore.cons_cons _, ?_⟩
      rw [heq, List.append_assoc]
      rfl

theorem calls_found (user : UserId) : (manager.found user).Calls Op.Reads := by
  refine .bind (calls_ask.mpr rfl) fun stored => ?_
  rcases stored with _ | (_ | stored)
  · trivial
  · trivial
  · refine .bind (calls_ask.mpr rfl) fun attached => ?_
    cases attached with
    | error error => trivial
    | ok attached =>
      dsimp only
      split
      · trivial
      · refine .bind (calls_shownOf ..) fun shown => ?_
        rcases shown with _ | (_ | _) <;> trivial

theorem calls_memberGrants (named : Named) : (manager.memberGrants named).Calls Op.Reads := by
  refine .bind (calls_administers ..) fun administers => ?_
  rcases administers with _ | (_ | _)
  · trivial
  · trivial
  · refine .bind (calls_ask.mpr rfl) fun held => ?_
    rcases held with _ | (_ | held)
    · trivial
    · trivial
    · dsimp only
      split
      · trivial
      · refine .bind (calls_ask.mpr rfl) fun grants => ?_
        cases grants <;> trivial

theorem calls_accountGrant (user capability : String) :
    (manager.accountGrant user capability).Calls Op.Reads := by
  unfold accountGrant
  split
  · trivial
  · split
    · split
      · trivial
      · refine .bind (calls_ask.mpr rfl) fun account => ?_
        rcases account with _ | (_ | account)
        · trivial
        · trivial
        · dsimp only
          split <;> trivial
    · trivial

/-- The account grant a path names is the account's, and inside no tenant. -/
theorem yields_accountGrant (user capability : String) :
    (manager.accountGrant user capability).Yields fun found =>
      ∀ grant, found = .ok grant → grant.scope.owner.raw = user ∧ grant.scope.inside = none := by
  unfold accountGrant
  split
  · intro grant h
    cases h
  · split
    · rename_i id capability hid hcapability
      split
      · intro grant h
        cases h
      · rename_i new hnew
        refine .bind fun account => ?_
        rcases account with _ | (_ | account)
        · intro grant h
          cases h
        · intro grant h
          cases h
        · dsimp only
          split
          · intro grant h
            cases h
          · intro grant h
            cases h
            rw [newGrant_scope hnew]
            exact ⟨raw_of_new hid, rfl⟩
    · intro grant h
      cases h

/-! Each handler, from its checks to its write. -/

section Handlers

variable {manager} {P : Op → Prop} (hreads : ∀ op : Op, op.Reads → P op)
include hreads

theorem calls_unlessRefused {capability : Capability} {scope : CapabilityScope} {next : Action Reply}
    (h : next.Calls P) : (manager.unlessRefused capability scope next).Calls P := by
  refine .bind ((calls_allows ..).mono hreads) fun allowed => ?_
  rcases allowed with _ | (_ | _)
  · trivial
  · trivial
  · exact h

theorem calls_createTenant {tenant owner passphrase : String}
    (h : ∀ new key account hash, new.raw = tenant → account.raw = owner →
      P (.createTenantWithOwner new key account hash)) :
    (manager.createTenant tenant owner passphrase).Calls P := by
  refine calls_unlessRefused hreads ?_
  split
  · rename_i new account hnew haccount
    split
    · refine .bind (calls_ask.mpr (hreads _ rfl)) fun hashed => ?_
      refine .bind (calls_ask.mpr (hreads _ rfl)) fun drawn => ?_
      cases hashed with
      | none => trivial
      | some hashed =>
        cases drawn with
        | none => trivial
        | some drawn =>
          refine .bind (calls_ask.mpr (h _ _ _ _ (raw_of_new hnew) (raw_of_new haccount))) fun r => ?_
          cases r <;> trivial
    · trivial
  · trivial

theorem calls_readTenant {tenant : String} : (manager.readTenant tenant).Calls P := by
  unfold readTenant
  split
  · trivial
  · refine .bind ((calls_reaches ..).mono hreads) fun reached => ?_
    rcases reached with _ | (_ | _)
    · trivial
    · trivial
    · refine .bind (calls_ask.mpr (hreads _ rfl)) fun found => ?_
      rcases found with _ | (_ | _) <;> trivial

theorem calls_removeTenant {tenant : String} (h : ∀ id, id.raw = tenant → P (.deleteTenant id)) :
    (manager.removeTenant tenant).Calls P := by
  refine calls_unlessRefused hreads ?_
  split
  · trivial
  · rename_i id hid
    refine .bind (calls_ask.mpr (h id (raw_of_new hid))) fun r => ?_
    cases r <;> trivial

theorem calls_createUser {user tenant passphrase : String}
    (h : ∀ account hash inside, account.raw = user → inside.raw = tenant →
      P (.addMember account hash inside)) :
    (manager.createUser user tenant passphrase).Calls P := by
  unfold createUser
  split
  · rename_i account inside haccount hinside
    refine calls_unlessRefused hreads ?_
    split
    · refine .bind (calls_ask.mpr (hreads _ rfl)) fun hashed => ?_
      cases hashed with
      | none => trivial
      | some hashed =>
        refine .bind (calls_ask.mpr (h _ _ _ (raw_of_new haccount) (raw_of_new hinside))) fun r => ?_
        cases r <;> trivial
    · trivial
  · trivial

theorem calls_readUser {user : String} : (manager.readUser user).Calls P := by
  unfold readUser
  split
  · trivial
  · refine .bind ((calls_found ..).mono hreads) fun found => ?_
    rcases found with _ | (_ | _) <;> trivial

omit hreads in
theorem calls_removeFound {user : UserId} {stored : User} {seen : Seen} (h : P (.deleteUser user)) :
    (removeFound user stored seen).Calls P := by
  unfold removeFound
  split
  · trivial
  · split
    · trivial
    · split
      · trivial
      · refine .bind (calls_ask.mpr h) fun r => ?_
        cases r <;> trivial

theorem calls_removeUser {user : String} (h : ∀ id, id.raw = user → P (.deleteUser id)) :
    (manager.removeUser user).Calls P := by
  unfold removeUser
  split
  · trivial
  · rename_i id hid
    split
    · trivial
    · refine .bind ((calls_found ..).mono hreads) fun found => ?_
      rcases found with _ | (_ | _)
      · trivial
      · trivial
      · exact calls_removeFound (h id (raw_of_new hid))

theorem calls_attach {tenant user : String}
    (h : ∀ new : Membership, new.user.raw = user → new.tenant.raw = tenant → new.standing = .member →
      P (.attach new)) : (manager.attach tenant user).Calls P := by
  unfold attach
  split
  · rename_i inside account hinside haccount
    refine calls_unlessRefused hreads (.bind (calls_ask.mpr (hreads _ rfl)) fun stored => ?_)
    rcases stored with _ | (_ | stored)
    · trivial
    · trivial
    · dsimp only
      split
      · trivial
      · refine .bind (calls_ask.mpr (hreads _ rfl)) fun held => ?_
        rcases held with _ | (_ | held)
        · trivial
        · refine .bind (calls_ask.mpr (h _ (raw_of_new haccount) (raw_of_new hinside) rfl)) fun r => ?_
          cases r <;> trivial
        · dsimp only
          split <;> trivial
  · trivial

theorem calls_detach {tenant user : String}
    (h : ∀ account inside, account.raw = user → inside.raw = tenant →
      P (.removeMember account inside)) : (manager.detach tenant user).Calls P := by
  unfold detach
  split
  · rename_i inside account hinside haccount
    refine calls_unlessRefused hreads (.bind (calls_ask.mpr (hreads _ rfl)) fun held => ?_)
    rcases held with _ | (_ | held)
    · trivial
    · trivial
    · dsimp only
      split
      · trivial
      · refine .bind (calls_ask.mpr (h _ _ (raw_of_new haccount) (raw_of_new hinside))) fun r => ?_
        cases r <;> trivial
  · trivial

theorem calls_grant {named : Named} (h : P (.grant named.grant)) : (manager.grant named).Calls P := by
  refine .bind ((calls_memberGrants ..).mono hreads) fun held => ?_
  cases held with
  | error refusal => trivial
  | ok held =>
    dsimp only
    split
    · trivial
    · refine .bind (calls_ask.mpr h) fun r => ?_
      cases r <;> trivial

theorem calls_revoke {named : Named} (h : P (.revoke named.grant)) : (manager.revoke named).Calls P := by
  refine .bind ((calls_memberGrants ..).mono hreads) fun held => ?_
  cases held with
  | error refusal => trivial
  | ok held =>
    dsimp only
    split
    · trivial
    · refine .bind (calls_ask.mpr h) fun r => ?_
      cases r <;> trivial

theorem calls_onAccount {user capability : String} {call : Grant → Action (Except StorageError Unit)}
    (h : ∀ grant, grant.scope.owner.raw = user → grant.scope.inside = none → (call grant).Calls P) :
    (manager.onAccount user capability call).Calls P := by
  refine ((calls_accountGrant ..).mono hreads).bind_yields (yields_accountGrant ..) fun found hfound => ?_
  cases found with
  | error refusal => trivial
  | ok grant =>
    obtain ⟨howner, hinside⟩ := hfound grant rfl
    refine .bind (h grant howner hinside) fun r => ?_
    cases r <;> trivial

end Handlers

theorem names_of_named {tenant user capability : String} {api : Option String} {found : Named}
    (h : named tenant user capability api = .ok found) :
    found.tenant.raw = tenant ∧ found.user.raw = user := by
  have hat : ∀ {tenant user capability api}, namedAt tenant user capability api = .ok found →
      found.tenant = tenant ∧ found.user = user := by
    intro tenant user capability api h
    unfold namedAt at h
    dsimp only at h
    split at h
    · cases h
      exact ⟨rfl, rfl⟩
    · cases h
  unfold named at h
  split at h
  · rename_i id account hid haccount
    split at h
    · cases h
    · split at h
      · obtain ⟨htenant, huser⟩ := hat h
        rw [htenant, huser]
        exact ⟨raw_of_new hid, raw_of_new haccount⟩
      · split at h
        · obtain ⟨htenant, huser⟩ := hat h
          rw [htenant, huser]
          exact ⟨raw_of_new hid, raw_of_new haccount⟩
        · cases h
  · cases h

/-- Whatever is done with a grant that a path names is done for the names the path holds. -/
theorem calls_withNamed {P : Op → Prop} {tenant user capability : String} {api : Option String}
    {next : Named → Action Reply}
    (h : ∀ found : Named, found.tenant.raw = tenant → found.user.raw = user → (next found).Calls P) :
    (withNamed tenant user capability api next).Calls P := by
  unfold withNamed
  split
  · rename_i found hfound
    obtain ⟨htenant, huser⟩ := names_of_named hfound
    exact h found htenant huser
  · trivial

end Manager

/-- **Which calls a request can make**: reads, and the one write it is for, on what it names. -/
theorem calls_serve (call : Call) : (serve call).Calls call.request.MayCall := by
  obtain ⟨caller, request⟩ := call
  have hreads : ∀ op : Op, op.Reads → request.MayCall op := fun _ => .inl
  refine .bind ((Manager.calls_of caller).mono hreads) fun found => ?_
  cases found with
  | error status => trivial
  | ok manager =>
    cases request with
    | createTenant _ _ _ =>
      exact Manager.calls_createTenant hreads fun _ _ _ _ hnew haccount => .inr ⟨hnew, haccount⟩
    | readTenant _ => exact Manager.calls_readTenant hreads
    | removeTenant _ => exact Manager.calls_removeTenant hreads fun _ hid => .inr hid
    | createUser _ _ _ =>
      exact Manager.calls_createUser hreads fun _ _ _ haccount hinside => .inr ⟨haccount, hinside⟩
    | readUser _ => exact Manager.calls_readUser hreads
    | removeUser _ => exact Manager.calls_removeUser hreads fun _ hid => .inr hid
    | attach _ _ =>
      exact Manager.calls_attach hreads fun _ huser htenant hmember => .inr ⟨huser, htenant, hmember⟩
    | detach _ _ =>
      exact Manager.calls_detach hreads fun _ _ haccount hinside => .inr ⟨haccount, hinside⟩
    | grantInTenant _ _ _ | grantOnApi _ _ _ _ =>
      refine Manager.calls_withNamed fun found htenant huser => Manager.calls_grant hreads (.inr ?_)
      exact ⟨found.owned ▸ huser, found.tenant, found.inside, htenant⟩
    | revokeInTenant _ _ _ | revokeOnApi _ _ _ _ =>
      exact Manager.calls_withNamed fun _ _ _ => Manager.calls_revoke hreads (.inr trivial)
    | grantOnAccount _ _ =>
      exact Manager.calls_onAccount hreads fun _ howner hinside =>
        calls_ask.mpr (.inr ⟨howner, hinside⟩)
    | revokeOnAccount _ _ =>
      exact Manager.calls_onAccount hreads fun _ _ _ => calls_ask.mpr (.inr trivial)

/-! ### Texts that keep a discipline -/

section Checks

variable {κ : Type} {D : Discipline handle κ} {k : κ} {s : Store}
  (hmay : ∀ op : Op, op.Reads → ∀ s, D.may k s op)
include hmay

theorem always_serve {call : Call} (hs : D.holds s)
    (hhandler : ∀ manager s', D.holds s' →
      D.Always k (fun _ _ => True) (call.request.handler manager) s') :
    D.Always k (fun _ _ => True) (serve call) s := by
  refine always_after_reads (Manager.calls_of call.caller) hmay hs fun found s' hs' => ?_
  cases found with
  | error status => exact Discipline.always_true_pure _
  | ok manager => exact hhandler manager s' hs'

theorem always_unlessRefused {manager : Manager} {capability : Capability} {scope : CapabilityScope}
    {next : Action Reply} (hs : D.holds s)
    (hnext : ∀ s', D.holds s' → D.Always k (fun _ _ => True) next s') :
    D.Always k (fun _ _ => True) (manager.unlessRefused capability scope next) s := by
  refine always_after_reads (Manager.calls_allows ..) hmay hs fun allowed s' hs' => ?_
  rcases allowed with _ | (_ | _)
  · exact Discipline.always_true_pure _
  · exact Discipline.always_true_pure _
  · exact hnext s' hs'

theorem always_serve_of_writes {call : Call} (hwrites : ∀ op s, call.request.MayWrite op → D.may k s op) :
    D.Always k (fun _ _ => True) (serve call) s := by
  refine Discipline.always_of_calls ((calls_serve call).mono fun op hop s _ => ?_)
  rcases hop with hreads | hwrite
  · exact hmay op hreads s
  · exact hwrites op s hwrite

omit hmay in
/-- A removal deletes only an account that was found whole and without an owner's standing. -/
theorem always_removeUser {manager : Manager} {user : String} {F : UserId → Manager.Seen → Store → Prop}
    (hs : D.holds s)
    (hfound : ∀ id, Ident.new .user user = .ok id → manager.user ≠ id →
      D.Always k (fun answer s => ∀ stored seen, answer = .ok (some (stored, seen)) → F id seen s)
        (manager.found id) s)
    (hdelete : ∀ id seen s s', Ident.new .user user = .ok id → F id seen s →
      seen.shown.length = seen.attached → (∀ m ∈ seen.shown, m.standing ≠ .owner) →
        D.bears k s s' → D.holds s' → D.may k s' (.deleteUser id)) :
    D.Always k (fun _ _ => True) (manager.removeUser user) s := by
  unfold Manager.removeUser
  split
  · exact Discipline.always_true_pure _
  · rename_i id hid
    split
    · exact Discipline.always_true_pure _
    · rename_i hother
      refine Discipline.Always.bind hs (hfound id hid hother) fun found s hs hfound => ?_
      rcases found with _ | (_ | ⟨stored, seen⟩)
      · exact Discipline.always_true_pure _
      · exact Discipline.always_true_pure _
      · dsimp only [Manager.removeFound]
        split
        · exact Discipline.always_true_pure _
        · split
          · exact Discipline.always_true_pure _
          · rename_i hlength
            split
            · exact Discipline.always_true_pure _
            · rename_i hnone
              have hno : ∀ m ∈ seen.shown, m.standing ≠ .owner := by
                intro m hm howner
                have := List.find?_eq_none.mp hnone m hm
                rw [howner] at this
                exact this rfl
              refine always_last (fun s' hb hs' => ?_) fun answer => by cases answer <;> trivial
              exact hdelete id seen s s' hid (hfound stored seen rfl) (not_not.mp hlength) hno hb hs'

end Checks

end IntelliPrism.Manage
