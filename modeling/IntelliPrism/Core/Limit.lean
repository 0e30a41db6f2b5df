import IntelliPrism.Core.Timestamp

/-!
# What a tenant or a user may spend, and over what stretch of the clock

* `LimitScope` — a tenant, narrowed to an account and to an api when either is named; `holds` says which
  requests fall inside, and `narrowness` which of two scopes outranks the other;
* `LimitScope.eq_of_holds` — **two scopes that hold one request and are equally narrow are the same**;
* `Period` — a fixed stretch of the clock; `Period.began_le` puts its start at or before the moment;
* `Allowance` — how much a stretch allows, never nothing.
-/

namespace IntelliPrism.Core

/-- What a limit is attached to. -/
structure LimitScope where
  tenant : TenantId
  user : Option UserId
  api : Option ApiId
  deriving DecidableEq

namespace LimitScope

def ofTenant (tenant : TenantId) : LimitScope := ⟨tenant, none, none⟩

def ofUser (scope : LimitScope) (user : UserId) : LimitScope := { scope with user := some user }

def ofApi (scope : LimitScope) (api : ApiId) : LimitScope := { scope with api := some api }

/-- Whether a request by `user` to `api` inside `tenant` falls inside this scope. -/
def holds (scope : LimitScope) (tenant : TenantId) (user : UserId) (api : ApiId) : Bool :=
  scope.tenant == tenant && scope.user.all (· == user) && scope.api.all (· == api)

/-- How narrow the scope is: the more it names, the more it outranks a wider one. -/
def narrowness (scope : LimitScope) : ℕ := scope.user.isSome.toNat * 2 + scope.api.isSome.toNat

/-- The scope as it is written: a star where nothing is named. -/
def display (scope : LimitScope) : String :=
  scope.tenant.raw ++ "/" ++ (scope.user.map Ident.raw).getD "*" ++ "/" ++
    (scope.api.map Ident.raw).getD "*"

theorem holds_iff {scope : LimitScope} {tenant : TenantId} {user : UserId} {api : ApiId} :
    scope.holds tenant user api = true ↔
      scope.tenant = tenant ∧ (∀ named ∈ scope.user, named = user) ∧
        ∀ named ∈ scope.api, named = api := by
  obtain ⟨t, u, a⟩ := scope
  cases u <;> cases a <;> simp [holds, and_assoc]

/-- **Two scopes that hold one request and are equally narrow are the same.** -/
theorem eq_of_holds {a b : LimitScope} {tenant : TenantId} {user : UserId} {api : ApiId}
    (ha : a.holds tenant user api = true) (hb : b.holds tenant user api = true)
    (h : a.narrowness = b.narrowness) : a = b := by
  obtain ⟨hta, hua, haa⟩ := holds_iff.mp ha
  obtain ⟨htb, hub, hab⟩ := holds_iff.mp hb
  obtain ⟨ta, ua, aa⟩ := a
  obtain ⟨tb, ub, ab⟩ := b
  cases ua <;> cases aa <;> cases ub <;> cases ab <;> simp_all [narrowness]

end LimitScope

/-- What a limit counts. -/
inductive Counted where
  | tokens
  | requests
  deriving Repr, DecidableEq

/-- The name this is stored and reported under. -/
def Counted.name : Counted → String
  | .tokens => "tokens"
  | .requests => "requests"

/-- The stretch of clock a limit is counted over, fixed rather than rolling. -/
inductive Period where
  | minute
  | hour
  | day
  | month
  deriving Repr, DecidableEq

namespace Period

/-- The name this is stored and reported under. -/
def name : Period → String
  | .minute => "minute"
  | .hour => "hour"
  | .day => "day"
  | .month => "month"

/-- A stretch of so many seconds that holds a moment begins where the clock divides. -/
def fixedBegan (length : ℤ) (t : Timestamp) : Timestamp :=
  (Timestamp.fromUnixSeconds (t.unixSeconds / length * length)).toOption.getD t

/-- When the period holding `t` began. -/
def began : Period → Timestamp → Timestamp
  | .minute, t => fixedBegan Core.minute t
  | .hour, t => fixedBegan Core.hour t
  | .day, t => fixedBegan Core.day t
  | .month, t => t.monthBegan

/-- A stretch of so many seconds ends that long after it began. -/
def fixedEnds (length : ℤ) (began t : Timestamp) : Timestamp :=
  (Timestamp.fromUnixSeconds (began.unixSeconds + length)).toOption.getD t

/-- When the period holding `t` ends, which is when the next one begins. -/
def ends (period : Period) (t : Timestamp) : Timestamp :=
  match period with
  | .minute => fixedEnds Core.minute (period.began t) t
  | .hour => fixedEnds Core.hour (period.began t) t
  | .day => fixedEnds Core.day (period.began t) t
  | .month => (period.began t).nextMonth

theorem fixedBegan_le {length : ℤ} (h : 0 < length) (t : Timestamp) :
    (fixedBegan length t).unixSeconds ≤ t.unixSeconds := by
  unfold fixedBegan Timestamp.fromUnixSeconds
  split
  · exact Int.ediv_mul_le _ (Int.ne_of_gt h)
  · exact Int.le_refl _

theorem began_le (period : Period) (t : Timestamp) :
    (period.began t).unixSeconds ≤ t.unixSeconds := by
  cases period with
  | minute => exact fixedBegan_le (by decide) t
  | hour => exact fixedBegan_le (by decide) t
  | day => exact fixedBegan_le (by decide) t
  | month => exact t.monthBegan_le

end Period

/-- How much one limit allows inside its period, never nothing. -/
@[ext] structure Allowance where
  get : ℕ
  nonzero : get ≠ 0

instance : DecidableEq Allowance := fun _ _ => decidable_of_iff _ Allowance.ext_iff.symm

/-- Wraps a count, refusing one that allows nothing. -/
def Allowance.new (allowed : ℕ) : Except CoreError Allowance :=
  if h : allowed = 0 then .error (.empty "allowance") else .ok ⟨allowed, h⟩

/-- Whether `spent` is already at or past what is allowed. -/
def Allowance.isSpent (allowance : Allowance) (spent : ℕ) : Bool := spent ≥ allowance.get

end IntelliPrism.Core
