import IntelliPrism.Gateway.Limit
import IntelliPrism.Lib.Process

/-!
# The limiter: checking a request, and recording what it spent

The limiter asks counters and a usage store, both behind traits.  `World` is what the two hold, `Op` what
they are asked, and `handle` what each answers in one atomic step, as the traits say: a count goes up by
what is added, and the first to seed decides.  The limiter itself is a `Process` over these calls.

* `seeded`, `rate`, `quota`, `admitRequest`, `spend` — the source's functions, their calls in the
  source's order;
* `record` — what follows an answer: its row is written, and what it spent is counted;
* `spentIn_append` — what one more row adds to the sum a count is seeded from.

A call that fails leaves everything as it was.  Counts are not bounded, and a count is not let go of
before its stretch ends, which is how long it is kept for.
-/

namespace IntelliPrism.Gateway

open IntelliPrism.Lib IntelliPrism.Core IntelliPrism.Cache

/-! ### What the counters and the store hold -/

/-- What one request spent, in each direction. -/
structure Tokens where
  input : UInt32
  output : UInt32
  deriving Repr, DecidableEq

/-- Both directions together, which is what a quota counts against. -/
def Tokens.total (tokens : Tokens) : ℕ := tokens.input.toNat + tokens.output.toNat

/-- A request about to be recorded. -/
structure NewUsage where
  asking : Asking
  tokens : Tokens
  deriving DecidableEq

/-- What one request cost, as it is stored. -/
structure Usage where
  asking : Asking
  tokens : Tokens
  createdAt : Timestamp
  deriving DecidableEq

/-- Which recorded requests are meant, each part admitting everything when unset. -/
structure UsageFilter where
  tenant : Option TenantId := none
  user : Option UserId := none
  api : Option ApiId := none
  deriving DecidableEq

/-- The usage rows a limit's scope covers. -/
def filter (scope : LimitScope) : UsageFilter := ⟨some scope.tenant, scope.user, scope.api⟩

def UsageFilter.admits (f : UsageFilter) (row : Usage) : Bool :=
  f.tenant.all (· == row.asking.tenant) && f.user.all (· == row.asking.user)
    && f.api.all (· == row.asking.api)

/-- What the rows of a filter since a moment come to. -/
def spentIn (rows : List Usage) (f : UsageFilter) (counted : Counted) (moment : Timestamp) : ℕ :=
  let meant := rows.filter fun row => moment.unixSeconds ≤ row.createdAt.unixSeconds && f.admits row
  match counted with
  | .tokens => (meant.map fun row => row.tokens.total).sum
  | .requests => meant.length

theorem filter_admits (scope : LimitScope) (row : Usage) :
    (filter scope).admits row
      = scope.holds row.asking.tenant row.asking.user row.asking.api := by
  simp [filter, UsageFilter.admits, LimitScope.holds]

def Usage.worth (row : Usage) : Counted → ℕ
  | .tokens => row.tokens.total
  | .requests => 1

/-- **What one more row adds**: its worth, when it falls inside the scope and is of the stretch. -/
theorem spentIn_append (rows : List Usage) (limit : Limit) (row : Usage) {began : Timestamp}
    (hstretch : began.unixSeconds ≤ row.createdAt.unixSeconds) :
    spentIn (rows ++ [row]) (filter limit.scope) limit.counted began
      = spentIn rows (filter limit.scope) limit.counted began
        + if limit.holds row.asking then row.worth limit.counted else 0 := by
  have hmeant : (decide (began.unixSeconds ≤ row.createdAt.unixSeconds)
      && (filter limit.scope).admits row) = limit.holds row.asking := by
    rw [filter_admits, decide_eq_true hstretch, Bool.true_and]
    rfl
  unfold spentIn
  simp only [List.filter_append, List.filter_cons, List.filter_nil, hmeant]
  cases limit.holds row.asking <;> cases limit.counted <;> simp [Usage.worth]

/-- The counts the cache holds, and the rows the store holds. -/
structure World where
  counts : CacheKey → Option ℕ
  rows : List Usage

def World.setCount (w : World) (key : CacheKey) (total : Option ℕ) : World :=
  { w with counts := Function.update w.counts key total }

@[simp] theorem World.setCount_self (w : World) (key : CacheKey) (total : Option ℕ) :
    (w.setCount key total).counts key = total := Function.update_self ..

theorem World.setCount_other (w : World) {key other : CacheKey} (h : other ≠ key) (total : Option ℕ) :
    (w.setCount key total).counts other = w.counts other := Function.update_of_ne h ..

@[simp] theorem World.setCount_rows (w : World) (key : CacheKey) (total : Option ℕ) :
    (w.setCount key total).rows = w.rows := rfl

/-! ### What they are asked, and what they answer -/

/-- What a backend says when it fails. -/
abbrev Fault := String

/-- What a step is supplied with: the clock, and whether the backend asked fails. -/
structure Weather where
  now : Timestamp
  fault : Option Fault := none
  deriving DecidableEq

/-- One atomic call. -/
inductive Op where
  | now
  | counted (key : CacheKey)
  | count (key : CacheKey) (amount : ℕ) (ttl : Ttl)
  | seed (key : CacheKey) (start : ℕ) (ttl : Ttl)
  | spent (f : UsageFilter) (counted : Counted) (moment : Timestamp)
  | recordUsage (usage : NewUsage)

@[reducible] def Op.Res : Op → Type
  | .now => Timestamp
  | .counted _ => Except Fault (Option ℕ)
  | .count _ _ _ => Except Fault ℕ
  | .seed _ _ _ => Except Fault ℕ
  | .spent _ _ _ => Except Fault ℕ
  | .recordUsage _ => Except Fault Usage

def handle : Handler Weather World Op Op.Res := fun x op w =>
  match op, x.fault with
  | .now, _ => (w, x.now)
  | .counted _, some fault => (w, .error fault)
  | .counted key, none => (w, .ok (w.counts key))
  | .count _ _ _, some fault => (w, .error fault)
  | .count key amount _, none =>
    let total := (w.counts key).getD 0 + amount
    (w.setCount key (some total), .ok total)
  | .seed _ _ _, some fault => (w, .error fault)
  | .seed key start _, none =>
    let total := (w.counts key).getD start
    (w.setCount key (some total), .ok total)
  | .spent _ _ _, some fault => (w, .error fault)
  | .spent f counted moment, none => (w, .ok (spentIn w.rows f counted moment))
  | .recordUsage _, some fault => (w, .error fault)
  | .recordUsage usage, none =>
    let row := ⟨usage.asking, usage.tokens, x.now⟩
    ({ w with rows := w.rows ++ [row] }, .ok row)

/-- A computation over the counters and the store. -/
abbrev Work := Process Op Op.Res

/-- `Timestamp::now`. -/
def timestampNow : Work Timestamp := .call .now .done

namespace Counters

/-- Adds to the count under a key and reports what it then stands at. -/
def count (key : CacheKey) (amount : ℕ) (ttl : Ttl) : Work (Except Fault ℕ) :=
  .call (.count key amount ttl) .done

/-- What is counted under a key, or nothing when no count was started. -/
def counted (key : CacheKey) : Work (Except Fault (Option ℕ)) := .call (.counted key) .done

/-- Starts the count under a key unless one is already there, reporting what it stands at either way. -/
def seed (key : CacheKey) (start : ℕ) (ttl : Ttl) : Work (Except Fault ℕ) :=
  .call (.seed key start ttl) .done

end Counters

namespace UsageStore

/-- What the rows of a filter since a moment come to. -/
def spent (f : UsageFilter) (counted : Counted) (moment : Timestamp) : Work (Except Fault ℕ) :=
  .call (.spent f counted moment) .done

/-- Records one request, giving back the row as it was stored. -/
def recordUsage (usage : NewUsage) : Work (Except Fault Usage) := .call (.recordUsage usage) .done

end UsageStore

/-! ### The limiter -/

/-- What a check decided about one request. -/
inductive Decision where
  | allowed
  | spent (counted : Counted) (period : Period) (allowance : Allowance) (ends : Timestamp)
  | unknown (detail : String)
  deriving DecidableEq

/-- Why a count could not be read. -/
inductive Unreadable where
  | cache (detail : Fault)
  | store (detail : Fault)
  deriving DecidableEq

def Unreadable.display : Unreadable → String
  | .cache detail => "the counts could not be read: " ++ detail
  | .store detail => "what was spent could not be read: " ++ detail

/-- The refusal a spent limit answers with. -/
def spent (limit : Limit) (now : Timestamp) : Decision :=
  .spent limit.counted limit.period limit.allowance (limit.period.ends now)

/-- `seeded` once the rows are summed: the first to seed decides. -/
def seedFrom (key : CacheKey) (ttl : Ttl) (start : ℕ) : Work (Except Unreadable ℕ) := do
  match ← Counters.seed key start ttl with
  | .error fault => return .error (.cache fault)
  | .ok held => return .ok held

/-- `seeded` once the cache has answered that it holds nothing. -/
def seedFromRows (limit : Limit) (now : Timestamp) (key : CacheKey) (ttl : Ttl) :
    Work (Except Unreadable ℕ) := do
  let began := limit.period.began now
  match ← UsageStore.spent (filter limit.scope) limit.counted began with
  | .error fault => return .error (.store fault)
  | .ok start => seedFrom key ttl start

/-- What is counted under this limit now, seeding it from the rows when the cache holds nothing for this
stretch. -/
def seeded (limit : Limit) (now : Timestamp) (key : CacheKey) (ttl : Ttl) :
    Work (Except Unreadable ℕ) := do
  match ← Counters.counted key with
  | .error fault => return .error (.cache fault)
  | .ok (some counted) => return .ok counted
  | .ok none => seedFromRows limit now key ttl

/-- `rate` once its count is there: the request is counted, and refused when that takes the rate past
what it allows. -/
def countRequest (limit : Limit) (now : Timestamp) : Work Decision := do
  match ← Counters.count (counter limit now).1 1 (counter limit now).2 with
  | .error _ => return .allowed
  | .ok made => return if made > limit.allowance.get then spent limit now else .allowed

/-- `rate` once it has read its count.  A rate that cannot be read lets the request through. -/
def rateRead (limit : Limit) (now : Timestamp) : Except Unreadable ℕ → Work Decision
  | .error _ => return .allowed
  | .ok _ => countRequest limit now

/-- Counts this request against a rate, refusing it when that takes the rate past what it allows. -/
def rate (limit : Limit) (now : Timestamp) : Work Decision := do
  let (key, ttl) := counter limit now
  rateRead limit now (← seeded limit now key ttl)

/-- `quota` once it has read its count.  A quota that cannot be read refuses. -/
def quotaRead (limit : Limit) (now : Timestamp) : Except Unreadable ℕ → Work Decision
  | .error unreadable => return .unknown unreadable.display
  | .ok read => return if limit.allowance.isSpent read then spent limit now else .allowed

/-- Reads what is spent against a quota, refusing the request when it is already at what the quota
allows. -/
def quota (limit : Limit) (now : Timestamp) : Work Decision := do
  let (key, ttl) := counter limit now
  quotaRead limit now (← seeded limit now key ttl)

def check (limit : Limit) (now : Timestamp) : Work Decision :=
  match limit.counted with
  | .requests => rate limit now
  | .tokens => quota limit now

/-- The loop of `admit`: the first limit that does not allow the request decides. -/
def visit (now : Timestamp) : List Limit → Work Decision
  | [] => return .allowed
  | limit :: rest => do
    let decided ← check limit now
    if decided = .allowed then visit now rest else return decided

/-- `Limiter::admit`: whether this request may go on, counting it against every request rate that holds
it. -/
def admitRequest (order : HashOrder) (limits : List Limit) (asking : Asking) : Work Decision := do
  let now ← timestampNow
  visit now (applyingTo order limits asking)

/-- The loop of `spend`: every quota that decides for the request counts its tokens. -/
def add (now : Timestamp) (tokens : ℕ) : List Limit → Work Unit
  | [] => return ()
  | limit :: rest => do
    if limit.counted ≠ .tokens then add now tokens rest
    else
      let (key, ttl) := counter limit now
      let _ ← Counters.count key tokens ttl
      add now tokens rest

/-- Records what an answer spent against every quota that counts it. -/
def spend (order : HashOrder) (limits : List Limit) (asking : Asking) (tokens : ℕ) : Work Unit := do
  if tokens = 0 then return ()
  else
    let now ← timestampNow
    add now tokens (applyingTo order limits asking)

/-- Writes the row of an answer, off the path of the request it belongs to, and counts what it spent.  A
row that could not be written is no reason not to count. -/
def record (order : HashOrder) (limits : List Limit) (asking : Asking) (tokens : Tokens) : Work Unit := do
  let _ ← UsageStore.recordUsage ⟨asking, tokens⟩
  spend order limits asking tokens.total

end IntelliPrism.Gateway
