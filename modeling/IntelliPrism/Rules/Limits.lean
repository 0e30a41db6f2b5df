import IntelliPrism.Lib.Grouping
import IntelliPrism.Rules.Revision

/-!
# What setting a limit answers

Setting a limit answers with the limit as it was asked for, created now.  What is stored is another thing:
an allowance the signed column cannot hold is stored as the largest it can, and a limit that is there keeps
the moment it was first set.

* `upsertLimit_ok` — what a write leaves: the one row under its key, and every other as it was;
* `RowsOf`, `limitOf_about` — a listed limit is told by the key of its row;
* `readLimits_same`, `readLimits_others` — what is listed after a write, of its key and of the others;
* `put_limit_answers_iff` — **the answer is what is listed exactly when the column holds the allowance and
  no limit was there from another moment**; every other limit is listed as before;
* `put_limit_answers_otherwise` — a limit that is set again, and one the column cannot hold.
-/

namespace IntelliPrism.Rules

open IntelliPrism.Lib IntelliPrism.Core IntelliPrism.Gateway
open IntelliPrism.Plugins (RowId Supply TenantRow UserRow)

/-- What tells a limit: its scope, what it counts and over which period. -/
def about (limit : Limit) : LimitScope × Counted × Period := (limit.scope, limit.counted, limit.period)

namespace Database

variable {db db' : Database}

/-! ### Rows and what they are listed as -/

/-- The tenant of a scope is there, and its account where one is named. -/
def Known (db : Database) (scope : LimitScope) : Prop :=
  db.base.tenants.Has scope.tenant ∧ ∀ user ∈ scope.user, db.base.users.Has user

/-- The rows a scope is kept under. -/
structure RowsOf (db : Database) (scope : LimitScope) (tenant : RowId) (user : Option RowId) : Prop where
  tenantId : db.tenantId tenant = some scope.tenant
  userId : user.bind db.userId = scope.user
  tenantThere : db.base.tenants.HasRow tenant
  userThere : ∀ account ∈ user, db.base.users.HasRow account

theorem RowsOf.congr {scope : LimitScope} {tenant : RowId} {user : Option RowId}
    (h : db.RowsOf scope tenant user) (hbase : db'.base = db.base) : db'.RowsOf scope tenant user := by
  obtain ⟨htenantId, huserId, htenant, huser⟩ := h
  unfold Database.tenantId at htenantId
  unfold Database.userId at huserId
  rw [← hbase] at htenantId huserId htenant huser
  exact ⟨htenantId, huserId, htenant, huser⟩

theorem scopeRows_ok {scope : LimitScope} (h : db.Known scope) :
    ∃ tenant user, db.scopeRows scope = .ok (tenant, user) ∧ db.RowsOf scope tenant user := by
  obtain ⟨⟨t, ht, hid⟩, huser⟩ := h
  have hfind : db.base.tenants.find scope.tenant = some t := Table.find_eq_some.mpr ⟨ht, hid⟩
  have hrow : db.base.tenantRowId scope.tenant = .ok t.rowId := by
    rw [Plugins.Store.tenantRowId, hfind]
  have htenant : db.tenantId t.rowId = some scope.tenant := RowTable.keyOf_eq_some.mpr ⟨t, ht, rfl, hid⟩
  cases hnamed : scope.user with
  | none =>
    refine ⟨t.rowId, none, ?_, htenant, hnamed.symm, ⟨t, ht, rfl⟩, fun _ haccount => by cases haccount⟩
    simp only [scopeRows, hrow, hnamed]
    rfl
  | some id =>
    obtain ⟨u, hu, huid⟩ := huser id hnamed
    have hufind : db.base.users.find id = some u := Table.find_eq_some.mpr ⟨hu, huid⟩
    have hurow : db.base.userRowId id = .ok u.rowId := by
      rw [Plugins.Store.userRowId, hufind]
    have huserId : db.userId u.rowId = some id := RowTable.keyOf_eq_some.mpr ⟨u, hu, rfl, huid⟩
    refine ⟨t.rowId, some u.rowId, ?_, htenant, huserId.trans hnamed.symm, ⟨t, ht, rfl⟩, ?_⟩
    · simp only [scopeRows, hrow, hnamed, hurow]
      rfl
    · intro account haccount
      rw [← Option.some.inj haccount]
      exact ⟨u, hu, rfl⟩

/-- Accounts that are there are told by their ids, and so is that none is named. -/
theorem userId_inj {user user' : Option RowId} (hthere : ∀ account ∈ user, db.base.users.HasRow account)
    (hthere' : ∀ account ∈ user', db.base.users.HasRow account)
    (h : user.bind db.userId = user'.bind db.userId) : user = user' := by
  have hid : ∀ {account : RowId}, db.base.users.HasRow account → ∃ id, db.userId account = some id := by
    intro account ⟨u, hu, hrow⟩
    exact ⟨u.id, RowTable.keyOf_eq_some.mpr ⟨u, hu, hrow, rfl⟩⟩
  cases user with
  | none =>
    cases user' with
    | none => rfl
    | some account' =>
      obtain ⟨id', hid'⟩ := hid (hthere' account' rfl)
      cases h.trans hid'
  | some account =>
    obtain ⟨id, hid₁⟩ := hid (hthere account rfl)
    cases user' with
    | none => cases hid₁.symm.trans h
    | some account' =>
      have hid₂ : db.userId account' = some id := h.symm.trans hid₁
      exact congrArg some (RowTable.keyOf_inj hid₁ hid₂)

def limitKey (limit : Limit) (tenant : RowId) (user : Option RowId) : LimitKey :=
  (tenant, user, limit.scope.api, limit.counted, limit.period)

theorem exists_listed {l : LimitRow} (h : l ∈ db.limits.rows) :
    ∃ tenant, db.tenantId l.tenant = some tenant ∧ db.limitOf l =
      some ⟨⟨⟨tenant, l.user.bind db.userId, l.api⟩, l.counted, l.period, l.allowance⟩, l.createdAt⟩ := by
  obtain ⟨⟨t, ht, hrow⟩, -⟩ := db.limitsRefer l h
  have htenant : db.tenantId l.tenant = some t.id := RowTable.keyOf_eq_some.mpr ⟨t, ht, hrow, rfl⟩
  exact ⟨t.id, htenant, by rw [limitOf, htenant]; rfl⟩

theorem limitOf_congr (hbase : db'.base = db.base) : db'.limitOf = db.limitOf := by
  funext l
  unfold limitOf tenantId userId
  rw [hbase]

/-- **A listed limit is told by the key of its row.** -/
theorem limitOf_about {limit : Limit} {tenant : RowId} {user : Option RowId}
    (hrows : db.RowsOf limit.scope tenant user) {l : LimitRow} (hl : l ∈ db.limits.rows)
    {listed : StoredLimit} (hlisted : listed ∈ db.limitOf l) :
    about listed.limit = about limit ↔ l.key = limitKey limit tenant user := by
  obtain ⟨id, hid, hlimit⟩ := exists_listed hl
  rw [Option.mem_def, hlimit] at hlisted
  obtain rfl := Option.some.inj hlisted
  obtain ⟨⟨scopeTenant, scopeUser, scopeApi⟩, counted, period, allowance⟩ := limit
  simp only [about, limitKey, LimitRow.key, Prod.mk.injEq, LimitScope.mk.injEq, and_assoc]
  constructor
  · intro ⟨htenant, huser, hapi, hcounted, hperiod⟩
    refine ⟨?_, ?_, hapi, hcounted, hperiod⟩
    · exact RowTable.keyOf_inj (hid.trans (congrArg some htenant)) hrows.tenantId
    · exact userId_inj (db.limitsRefer l hl).2 hrows.userThere (huser.trans hrows.userId.symm)
  · intro ⟨htenant, huser, hapi, hcounted, hperiod⟩
    refine ⟨?_, ?_, hapi, hcounted, hperiod⟩
    · rw [htenant, hrows.tenantId] at hid
      exact (Option.some.inj hid).symm
    · rw [huser]
      exact hrows.userId

theorem limitOf_key {limit : Limit} {tenant : RowId} {user : Option RowId}
    (hrows : db.RowsOf limit.scope tenant user) {l : LimitRow} (hl : l ∈ db.limits.rows)
    (hkey : l.key = limitKey limit tenant user) :
    db.limitOf l = some ⟨{ limit with allowance := l.allowance }, l.createdAt⟩ := by
  obtain ⟨id, -, hlimit⟩ := exists_listed hl
  have habout := (limitOf_about hrows hl hlimit).mpr hkey
  obtain ⟨hscope, hrest⟩ := Prod.mk.inj habout
  obtain ⟨hcounted, hperiod⟩ := Prod.mk.inj hrest
  rw [hlimit, ← hscope, ← hcounted, ← hperiod]

/-! ### What a write leaves -/

/-- **A write** leaves one row under its key, with the moment of the one that was there, and every other
row as it was. -/
theorem upsertLimit_ok {x : Supply} {tenant : RowId} {user : Option RowId} {api : Option ApiId}
    {counted : Counted} {period : Period} (allowance : Allowance)
    (hthere : db.base.tenants.HasRow tenant ∧ ∀ account ∈ user, db.base.users.HasRow account)
    (hunused : db.limits.find (tenant, user, api, counted, period) = none → ¬db.limits.HasRow x.row) :
    ∃ db' row, db.upsertLimit x tenant user api counted period allowance = .ok db' ∧ db'.base = db.base ∧
      db'.limits.find (tenant, user, api, counted, period) = some row ∧ row.allowance = allowance ∧
      row.createdAt = ((db.limits.find (tenant, user, api, counted, period)).map LimitRow.createdAt).getD
        x.storedAt ∧
      (db'.limits.rows.filter fun l => l.key ≠ (tenant, user, api, counted, period)) =
        db.limits.rows.filter fun l => l.key ≠ (tenant, user, api, counted, period) := by
  unfold upsertLimit
  split
  · rename_i found hfound
    obtain ⟨hmem, hkey⟩ := Table.find_eq_some.mp hfound
    refine ⟨_, { found with allowance }, rfl, rfl, ?_, rfl, ?_, ?_⟩
    · refine Table.find_eq_some.mpr ⟨List.mem_map.mpr ⟨found, hmem, if_pos rfl⟩, hkey⟩
    · rw [hfound]
      rfl
    · refine RowTable.filter_modify (f := fun l : LimitRow => { l with allowance }) (fun _ => rfl)
        (fun _ => rfl) ?_
      intro l hl hrow
      have hlkey := ((RowTable.row_eq_iff hl hmem).mp hrow).trans hkey
      exact ⟨decide_eq_false (not_not.mpr hlkey), decide_eq_false (not_not.mpr hlkey)⟩
  · rename_i hnone
    have hnew := Table.find_eq_none.mp hnone
    split
    · rename_i hadd
      rcases RowTable.add_eq_none.mp hadd with htaken | htaken
      · exact absurd htaken hnew
      · exact absurd htaken (hunused hnone)
    · rename_i limits hadd
      have hrows := (RowTable.add_eq_some hadd).2
      refine ⟨_, ⟨x.row, tenant, user, api, counted, period, allowance, x.storedAt⟩, dif_pos hthere, rfl,
        ?_, rfl, ?_, ?_⟩
      · refine Table.find_eq_some.mpr ⟨?_, rfl⟩
        rw [hrows]
        exact List.mem_append_right _ (List.mem_singleton_self _)
      · rw [hnone]
        rfl
      · rw [hrows, List.filter_append]
        simp [LimitRow.key]

/-! ### What is listed -/

instance : Std.TransCmp limitOrder :=
  @Std.TransCmp.opposite _ (compareLex (compareOn fun l : LimitRow => l.createdAt.unixSeconds)
    (compareOn fun l : LimitRow => l.rowId.get)) inferInstance

theorem eq_of_limitOrder (db : Database) :
    ∀ a ∈ db.limits.rows, ∀ b ∈ db.limits.rows, limitOrder a b = .eq → a = b := by
  intro a ha b hb heq
  have hrow : b.rowId.get = a.rowId.get := Std.compare_eq_iff_eq.mp (Ordering.then_eq_eq.mp heq).2
  exact Table.eq_of_key (t := db.limits.byRow) ha hb (RowId.ext hrow.symm)

theorem readLimits_filter {p : StoredLimit → Bool} {q : LimitRow → Bool}
    (h : ∀ l ∈ db.limits.rows, ∀ listed ∈ db.limitOf l, p listed = q l) :
    db.readLimits.filter p = (orderBy limitOrder (db.limits.rows.filter q)).filterMap db.limitOf := by
  have hsorted : orderBy limitOrder (db.limits.rows.filter q)
      = (orderBy limitOrder db.limits.rows).filter q :=
    sorted_filter db.eq_of_limitOrder q
  rw [readLimits, hsorted, List.filterMap_eq_flatMap_toList, List.filterMap_eq_flatMap_toList]
  refine filter_flatMap_of_owner ?_
  intro l hl listed hlisted
  exact h l (mem_orderBy.mp hl) listed (Option.mem_toList.mp hlisted)

section Listed

variable {limit : Limit} {tenant : RowId} {user : Option RowId}

theorem readLimits_same (hrows : db.RowsOf limit.scope tenant user) :
    (db.readLimits.filter fun listed => about listed.limit = about limit) =
      (db.limits.find (limitKey limit tenant user)).toList.map fun l =>
        ⟨{ limit with allowance := l.allowance }, l.createdAt⟩ := by
  have htold : (db.readLimits.filter fun listed => about listed.limit = about limit) =
      (orderBy limitOrder (db.limits.rows.filter fun l => l.key = limitKey limit tenant user)).filterMap
        db.limitOf :=
    readLimits_filter fun _ hl _ hlisted => decide_eq_decide.mpr (limitOf_about hrows hl hlisted)
  rw [htold, Table.filter_key]
  cases hfind : db.limits.find (limitKey limit tenant user) with
  | none => rfl
  | some l =>
    obtain ⟨hl, hkey⟩ := Table.find_eq_some.mp hfind
    show [l].filterMap db.limitOf = _
    rw [List.filterMap_cons, limitOf_key hrows hl hkey]
    rfl

theorem readLimits_others (hrows : db.RowsOf limit.scope tenant user) :
    (db.readLimits.filter fun listed => about listed.limit ≠ about limit) =
      (orderBy limitOrder (db.limits.rows.filter fun l => l.key ≠ limitKey limit tenant user)).filterMap
        db.limitOf :=
  readLimits_filter fun _ hl _ hlisted =>
    decide_eq_decide.mpr (not_congr (limitOf_about hrows hl hlisted))

theorem forall_same_iff (hrows : db.RowsOf limit.scope tenant user) {P : StoredLimit → Prop} :
    (∀ old ∈ db.readLimits, about old.limit = about limit → P old) ↔
      ∀ found ∈ db.limits.find (limitKey limit tenant user),
        P ⟨{ limit with allowance := found.allowance }, found.createdAt⟩ := by
  have hfilter : (∀ old ∈ db.readLimits, about old.limit = about limit → P old) ↔
      ∀ old ∈ db.readLimits.filter fun listed => about listed.limit = about limit, P old := by
    simp only [List.mem_filter, decide_eq_true_eq, and_imp]
  rw [hfilter, readLimits_same hrows]
  simp only [List.mem_map, Option.mem_toList, Option.mem_def, forall_exists_index, and_imp,
    forall_apply_eq_imp_iff₂]

end Listed

/-! ### What is answered -/

theorem stored_eq_iff (allowance : Allowance) :
    stored allowance = allowance ↔ allowance.get ≤ columnMax := by
  rw [Allowance.ext_iff]
  show min allowance.get columnMax = allowance.get ↔ allowance.get ≤ columnMax
  omega

/-- The row id an insert is given is one no limit has, unless the limit is there already and none is
taken. -/
def UnusedLimit (db : Database) (x : Supply) (limit : Limit) : Prop :=
  (∀ old ∈ db.readLimits, about old.limit ≠ about limit) → ¬db.limits.HasRow x.row

/-- **What setting a limit answers, and what is then listed**: under the limit's key its allowance as the
column holds it, with the moment of the limit that was there; every other limit as before. -/
theorem putLimit_ok {x : Supply} {limit : Limit} (hknown : db.Known limit.scope)
    (hunused : db.UnusedLimit x limit) :
    ∃ db', db.putLimit x limit = .ok (db', ⟨limit, x.storedAt⟩) ∧
      (db'.readLimits.filter fun listed => about listed.limit ≠ about limit) =
        (db.readLimits.filter fun listed => about listed.limit ≠ about limit) ∧
      ∃ createdAt, (db'.readLimits.filter fun listed => about listed.limit = about limit) =
          [⟨{ limit with allowance := stored limit.allowance }, createdAt⟩] ∧
        (createdAt = x.storedAt ↔
          ∀ old ∈ db.readLimits, about old.limit = about limit → old.createdAt = x.storedAt) := by
  obtain ⟨tenant, user, hscope, hrows⟩ := scopeRows_ok hknown
  have hsame := readLimits_same hrows
  have hfree : db.limits.find (limitKey limit tenant user) = none → ¬db.limits.HasRow x.row := by
    intro hnone
    refine hunused ?_
    intro old hold habout
    have hmem : old ∈ db.readLimits.filter fun listed => about listed.limit = about limit :=
      List.mem_filter.mpr ⟨hold, decide_eq_true habout⟩
    rw [hsame, hnone] at hmem
    cases hmem
  obtain ⟨db', row, hupsert, hbase, hfind, hallowance, hcreated, hothers⟩ :=
    upsertLimit_ok (stored limit.allowance) ⟨hrows.tenantThere, hrows.userThere⟩ hfree
  have hrows' := hrows.congr hbase
  refine ⟨db', ?_, ?_, row.createdAt, ?_, ?_⟩
  · rw [putLimit, hscope]
    show (db.upsertLimit x tenant user limit.scope.api limit.counted limit.period
      (stored limit.allowance) >>= fun left => Except.ok (left, (⟨limit, x.storedAt⟩ : StoredLimit))) = _
    rw [hupsert]
    rfl
  · rw [readLimits_others hrows', readLimits_others hrows, limitOf_congr hbase]
    exact congrArg (fun rows => (orderBy limitOrder rows).filterMap db.limitOf) hothers
  · rw [readLimits_same hrows', limitKey, hfind, ← hallowance]
    rfl
  · have hmoment : row.createdAt =
        ((db.limits.find (limitKey limit tenant user)).map LimitRow.createdAt).getD x.storedAt := hcreated
    rw [forall_same_iff hrows, hmoment]
    cases db.limits.find (limitKey limit tenant user) with
    | none => exact ⟨fun _ _ hnone => (by cases hnone), fun _ => rfl⟩
    | some found =>
      constructor
      · intro hsame other hother
        rw [← Option.some.inj hother]
        exact hsame
      · intro hall
        exact hall found rfl

/-- What `put_limit` returns is exactly what `limits` then lists for that scope, counted thing and period,
and every other limit is listed as before. -/
def AnswersWhatIsStored (db : Database) (x : Supply) (limit : Limit) : Prop :=
  ∃ db' answer, db.putLimit x limit = .ok (db', answer) ∧
    (db'.readLimits.filter fun listed => about listed.limit = about limit) = [answer] ∧
    (db'.readLimits.filter fun listed => about listed.limit ≠ about limit) =
      db.readLimits.filter fun listed => about listed.limit ≠ about limit

/-- The column holds the allowance, and no limit told alike is there from another moment. -/
def StoredAsAsked (db : Database) (x : Supply) (limit : Limit) : Prop :=
  limit.allowance.get ≤ columnMax ∧
    ∀ old ∈ db.readLimits, about old.limit = about limit → old.createdAt = x.storedAt

section Answers

variable {x : Supply} {limit : Limit}

theorem answers_of_storedAsAsked (hknown : db.Known limit.scope) (hunused : db.UnusedLimit x limit)
    (h : db.StoredAsAsked x limit) : db.AnswersWhatIsStored x limit := by
  obtain ⟨db', hput, hothers, createdAt, hlisted, hcreated⟩ := putLimit_ok hknown hunused
  refine ⟨db', _, hput, ?_, hothers⟩
  rw [hlisted, hcreated.mpr h.2, (stored_eq_iff _).mpr h.1]

theorem storedAsAsked_of_answers (hknown : db.Known limit.scope) (hunused : db.UnusedLimit x limit)
    (h : db.AnswersWhatIsStored x limit) : db.StoredAsAsked x limit := by
  obtain ⟨db', hput, -, createdAt, hlisted, hcreated⟩ := putLimit_ok hknown hunused
  obtain ⟨db'', answer, hput', hanswer, -⟩ := h
  rw [hput] at hput'
  cases hput'
  rw [hlisted] at hanswer
  obtain ⟨hlimit, hmoment⟩ := StoredLimit.mk.inj (List.singleton_inj.mp hanswer)
  exact ⟨(stored_eq_iff _).mp (congrArg Limit.allowance hlimit), hcreated.mp hmoment⟩

end Answers

end Database

/-- **What setting a limit answers is what is stored exactly when** the column holds the allowance and no
limit of that scope, counted thing and period is there from another moment.  Setting one always succeeds
where its tenant and account are there, and leaves every other limit as it was listed. -/
theorem put_limit_answers_iff {db : Database} {x : Supply} {limit : Limit} (hknown : db.Known limit.scope)
    (hunused : db.UnusedLimit x limit) :
    (db.AnswersWhatIsStored x limit ↔ db.StoredAsAsked x limit) ∧
      ∃ db', db.putLimit x limit = .ok (db', ⟨limit, x.storedAt⟩) ∧
        (db'.readLimits.filter fun listed => about listed.limit ≠ about limit) =
          db.readLimits.filter fun listed => about listed.limit ≠ about limit := by
  obtain ⟨db', hput, hothers, -⟩ := Database.putLimit_ok hknown hunused
  exact ⟨⟨Database.storedAsAsked_of_answers hknown hunused,
    Database.answers_of_storedAsAsked hknown hunused⟩, db', hput, hothers⟩

def oneTenant : Database :=
  match Plugins.Store.empty.createTenant firstRow acme with
  | .ok base => Database.empty.settle base
  | .error _ => .empty

/-- What the tenant may spend in a month. -/
def monthly (allowance : Allowance) : Limit := ⟨.ofTenant acme, .tokens, .month, allowance⟩

theorem known_oneTenant (allowance : Allowance) : oneTenant.Known (monthly allowance).scope := by
  refine ⟨?_, fun _ hnone => by cases hnone⟩
  show oneTenant.base.tenants.Has acme
  decide +kernel

theorem unusedLimit_oneTenant (allowance : Allowance) :
    oneTenant.UnusedLimit firstRow (monthly allowance) := by
  have hrow : ¬oneTenant.limits.HasRow firstRow.row := by decide +kernel
  exact fun _ => hrow

theorem readLimits_oneTenant : oneTenant.readLimits = [] := by decide +kernel

/-- A first limit the column holds is answered as it is listed. -/
theorem put_limit_answers_first :
    oneTenant.AnswersWhatIsStored firstRow (monthly ⟨500, Nat.succ_ne_zero _⟩) := by
  refine (put_limit_answers_iff (known_oneTenant _) (unusedLimit_oneTenant _)).1.mpr ⟨by decide, ?_⟩
  intro old hold
  rw [readLimits_oneTenant] at hold
  cases hold

/-- The tenant's limit, set at the epoch. -/
def onceSet : Database :=
  match oneTenant.putLimit firstRow (monthly ⟨500, Nat.succ_ne_zero _⟩) with
  | .ok left => left.1
  | .error _ => oneTenant

/-- An hour later, with a row id that is not in use. -/
def hourLater : Supply := ⟨⟨2, Nat.two_pos⟩, ⟨3600, by decide, by decide⟩, .epoch⟩

/-- **What is answered is not what is stored** when a limit is set again an hour later, which keeps the
moment it was first set, or when its allowance is more than the column holds. -/
theorem put_limit_answers_otherwise :
    (∃ (db : Database) (x : Supply) (limit : Limit), db.Known limit.scope ∧ db.UnusedLimit x limit ∧
      limit.allowance.get = 600 ∧ ¬db.AnswersWhatIsStored x limit) ∧
    ∃ (db : Database) (x : Supply) (limit : Limit), db.Known limit.scope ∧ db.UnusedLimit x limit ∧
      limit.allowance.get = 9223372036854775808 ∧ db.readLimits = [] ∧
        ¬db.AnswersWhatIsStored x limit := by
  constructor
  · have hknown : onceSet.Known (monthly ⟨600, Nat.succ_ne_zero _⟩).scope := by
      refine ⟨?_, fun _ hnone => by cases hnone⟩
      show onceSet.base.tenants.Has acme
      decide +kernel
    have hrow : ¬onceSet.limits.HasRow hourLater.row := by decide +kernel
    have hunused : onceSet.UnusedLimit hourLater (monthly ⟨600, Nat.succ_ne_zero _⟩) := fun _ => hrow
    refine ⟨onceSet, hourLater, monthly ⟨600, Nat.succ_ne_zero _⟩, hknown, hunused, rfl, ?_⟩
    intro hanswers
    have hsame := (Database.storedAsAsked_of_answers hknown hunused hanswers).2
    revert hsame
    decide +kernel
  · refine ⟨oneTenant, firstRow, monthly ⟨9223372036854775808, Nat.succ_ne_zero _⟩, known_oneTenant _,
      unusedLimit_oneTenant _, rfl, readLimits_oneTenant, ?_⟩
    intro hanswers
    have hholds := Database.storedAsAsked_of_answers (known_oneTenant _) (unusedLimit_oneTenant _) hanswers
    exact absurd hholds.1 (by decide)

end IntelliPrism.Rules
