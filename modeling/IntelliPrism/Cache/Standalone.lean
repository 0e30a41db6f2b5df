import IntelliPrism.Cache.Key
import IntelliPrism.Lib.Interleaving
import IntelliPrism.Lib.Tree

/-!
# The standalone backend: one sled database, and the atomic steps of every call on it

`SledCache` is the database as its four trees: the entries, when each key was last used, the same
again in order of use, and how many bytes each level holds.  A sled operation on one tree and a sled
transaction over several are atomic; a call of the cache is a sequence of them, with other calls'
steps in between.  So a call is a `Thread`, and `step` is what it does next:

* `SledCache.write`, `dropEntry`, `touch` — the three transactions, each as the source's closure
  computes it;
* `claimRead`, `countRead`, `countedRead`, `getRead`, `touchRead` — what a call makes of what it read;
* `step` — one atomic step, read or transaction or swap; `.done` is what the call returned;
* `step_effect` — **what a step can do to the trees**: nothing, one swap of an entry, or one of the
  three transactions.

The clock is read by the steps themselves, so every step is given its own readings and no order
between them is assumed.  A sled operation that fails is left out.
-/

namespace IntelliPrism.Cache

open IntelliPrism.Lib

abbrev SledTree := Std.ExtTreeMap Bytes Bytes

/-- The standalone backend. -/
structure SledCache where
  entries : SledTree
  used : SledTree
  index : SledTree
  sizes : SledTree
  limits : LevelLimits

/-- A database nothing was written to yet. -/
def SledCache.opened (limits : LevelLimits) : SledCache := ⟨∅, ∅, ∅, ∅, limits⟩

/-- What the clock gives a step that reads it: `now()` and `now_micros()`. -/
structure Clock where
  millis : UInt64
  micros : UInt64
  deriving Repr, DecidableEq

/-! ### Entries, counts and index keys as bytes -/

/-- Bytes an entry carries before its value. -/
def stampLength : ℕ := 8

/-- The moment an entry written with no ttl expires. -/
def never : UInt64 := saturate wordMax

/-- Bytes an index key carries before the entry's own key. -/
def indexPrefix : ℕ := 1 + 8

/-- How stale a recorded use may be before a read writes a fresher one. -/
def refreshAfterMicros : UInt64 := 1000000

/-- Stamps a value with the moment its ttl runs out, or with `never` when it has none. -/
def entry (value : Bytes) (ttl : Option Ttl) (now : UInt64) : Bytes :=
  let expiresAt := match ttl with
    | some ttl => saturatingAdd now (saturate ttl.millis)
    | none => never
  toBeBytes expiresAt ++ value

/-- Reads an entry's value back, or nothing once its ttl has passed. -/
def valueOf (entry : Bytes) (now : UInt64) : Option Bytes :=
  if entry.length < stampLength then none
  else
    match fromBeBytes (entry.take stampLength) with
    | none => none
    | some expiresAt => if expiresAt > now then some (entry.drop stampLength) else none

def countedBytes (count : UInt64) : Bytes := toBeBytes count

/-- Reads a stored count back, refusing bytes that are not one. -/
def countOf (stored : Bytes) : Except CacheError UInt64 :=
  match fromBeBytes stored with
  | some count => .ok count
  | none => .error (.malformedCount (toString stored.length ++ " bytes are not a count"))

/-- Reads a counter back, or nothing when the bytes are not one. -/
def counted (bytes : Bytes) : Option UInt64 := fromBeBytes bytes

/-- What one entry costs its level, key and value together. -/
def weigh (key : Bytes) (entry : ℕ) : UInt64 := saturate (key.length + entry)

/-- The byte a level is written under. -/
def tagOf : CacheLevel → UInt8
  | .response => 0
  | .semantic => 1
  | .system => 2

/-- Orders one level's keys by when each was last used, oldest first. -/
def indexKey (level : CacheLevel) (lastUsed key : Bytes) : Bytes := tagOf level :: (lastUsed ++ key)

theorem stamped_take (expiresAt : UInt64) (value : Bytes) :
    (toBeBytes expiresAt ++ value).take stampLength = toBeBytes expiresAt := by
  have : stampLength = (toBeBytes expiresAt).length := (toBeBytes_length _).symm
  rw [this, List.take_left]

theorem stamped_drop (expiresAt : UInt64) (value : Bytes) :
    (toBeBytes expiresAt ++ value).drop stampLength = value := by
  have : stampLength = (toBeBytes expiresAt).length := (toBeBytes_length _).symm
  rw [this, List.drop_left]

theorem valueOf_stamped (expiresAt now : UInt64) (value : Bytes) :
    valueOf (toBeBytes expiresAt ++ value) now = if expiresAt > now then some value else none := by
  have hlen : ¬(toBeBytes expiresAt ++ value).length < stampLength := by
    rw [List.length_append, toBeBytes_length, stampLength]
    omega
  rw [valueOf, if_neg hlen, stamped_take, stamped_drop, fromBeBytes_toBeBytes]

theorem entry_stamped (value : Bytes) (ttl : Option Ttl) (now : UInt64) :
    ∃ expiresAt, entry value ttl now = toBeBytes expiresAt ++ value := ⟨_, rfl⟩

theorem valueOf_none_of_le {entry : Bytes} {now later : UInt64} (h : valueOf entry now = none)
    (hle : now ≤ later) : valueOf entry later = none := by
  unfold valueOf at h ⊢
  split at h
  · rename_i hshort
    rw [if_pos hshort]
  · rename_i hlong
    rw [if_neg hlong]
    cases hstamp : fromBeBytes (entry.take stampLength) with
    | none => rfl
    | some expiresAt =>
      simp only [hstamp, ite_eq_right_iff, reduceCtorEq, imp_false] at h ⊢
      intro hgt
      have hlater : now < expiresAt := UInt64.lt_of_le_of_lt hle hgt
      exact h hlater

/-! ### The transactions -/

namespace SledCache

def held (s : SledCache) (level : CacheLevel) : UInt64 :=
  ((s.sizes[[tagOf level]]?).bind counted).getD 0

/-- The index without the row of a key's recorded use, when it has one. -/
def unindexed (s : SledCache) (level : CacheLevel) (key : Bytes) : SledTree :=
  match s.used[key]? with
  | some lastUsed => s.index.erase (indexKey level lastUsed key)
  | none => s.index

/-- Removes one entry with everything that accounts for it, giving back what it held. -/
def dropEntry (s : SledCache) (level : CacheLevel) (key : Bytes) : SledCache × Option Bytes :=
  match s.entries[key]? with
  | none => (s, none)
  | some entry =>
    let size := weigh key entry.length
    ({ s with
        entries := s.entries.erase key
        used := s.used.erase key
        index := s.unindexed level key
        sizes := s.sizes.insert [tagOf level] (toBeBytes (saturatingSub (s.held level) size)) },
      some entry)

/-- Writes an entry, accounting for what it replaced. -/
def write (s : SledCache) (level : CacheLevel) (key entry stamped : Bytes) : SledCache :=
  let held := match s.entries[key]? with
    | some replaced => saturatingSub (s.held level) (weigh key replaced.length)
    | none => s.held level
  let held := saturatingAdd held (weigh key entry.length)
  { s with
    entries := s.entries.insert key entry
    used := s.used.insert key stamped
    index := (s.unindexed level key).insert (indexKey level stamped key) []
    sizes := s.sizes.insert [tagOf level] (toBeBytes held) }

/-- Records that a key was just read. -/
def touch (s : SledCache) (level : CacheLevel) (key stamped : Bytes) : SledCache :=
  { s with
    used := s.used.insert key stamped
    index := (s.unindexed level key).insert (indexKey level stamped key) [] }

/-- An entry put in by a swap, with nothing that accounts for it. -/
def swapIn (s : SledCache) (key entry : Bytes) : SledCache :=
  { s with entries := s.entries.insert key entry }

/-- The row of a level's least recent use: the first the index has under the level's tag. -/
def oldest (s : SledCache) (level : CacheLevel) : Option Bytes :=
  firstKey s.index ([tagOf level].isPrefixOf ·)

end SledCache

/-! ### Calls, and where they stand -/

/-- What a counting call makes of the count it found. -/
inductive Next where
  | add (amount : UInt64)
  | seed (start : UInt64)
  deriving Repr, DecidableEq

/-- The total a counting call writes. -/
def Next.total : Next → Option UInt64 → UInt64
  | .add amount, counted => saturatingAdd (counted.getD 0) amount
  | .seed start, counted => counted.getD start

/-- A call on the cache. -/
inductive Call where
  | get (key : CacheKey)
  | put (key : CacheKey) (value : Bytes) (ttl : Option Ttl)
  | claim (key : CacheKey) (ttl : Option Ttl)
  | remove (key : CacheKey)
  | counting (key : CacheKey) (ttl : Ttl) (next : Next)
  | counted (key : CacheKey)
  deriving DecidableEq

abbrev Call.count (key : CacheKey) (amount : UInt64) (ttl : Ttl) : Call := .counting key ttl (.add amount)

/-- Starts the count under a key unless one is there. -/
abbrev Call.seed (key : CacheKey) (start : UInt64) (ttl : Ttl) : Call := .counting key ttl (.seed start)

def Call.key : Call → CacheKey
  | .get key | .put key _ _ | .claim key _ | .remove key | .counting key _ _ | .counted key => key

/-- What a call returns. -/
inductive Answer where
  | value (value : Option Bytes)
  | wrote
  | claimed (taken : Bool)
  | removed (there : Bool)
  | total (total : UInt64)
  | counted (counted : Option UInt64)
  | failed (error : CacheError)
  deriving DecidableEq

/-- Where a call stands: the atomic step it takes next, with the locals it carries there. -/
inductive Pc where
  /-- The first step; a counting call whose swap failed comes back here. -/
  | start
  /-- `touch` is about to read the recorded use. -/
  | touching (value : Bytes)
  /-- `touch` is about to run its transaction. -/
  | stamping (value stamped : Bytes)
  /-- A read found nothing live at the moment `now`, and is about to drop the key. -/
  | dropping (found : Option Bytes) (now : UInt64) (answer : Answer)
  /-- `claim` is about to read what the key holds. -/
  | claiming (entry : Bytes)
  /-- `claim` is about to swap its entry in for what it read. -/
  | claimSwap (entry : Bytes) (held : Option Bytes)
  /-- `counting` is about to swap its total in for what it read. -/
  | countSwap (ttl : Ttl) (held : Option Bytes) (total : UInt64)
  /-- `write` is about to run its transaction. -/
  | writing (entry : Bytes) (answer : Answer)
  /-- `evict` is about to read what its level holds. -/
  | evicting (answer : Answer)
  /-- `evict` found its level over the limit and is about to look for the oldest row. -/
  | scanning (answer : Answer)
  /-- `evict` is about to drop the key the oldest row names. -/
  | evictDrop (key : Bytes) (answer : Answer)
  | done (answer : Answer)
  deriving DecidableEq

/-- A call and where it stands. -/
@[ext] structure Thread where
  call : Call
  pc : Pc
  deriving DecidableEq

namespace Thread

def new (call : Call) : Thread := ⟨call, .start⟩

/-- The key's bytes, as every step asks the trees with them. -/
abbrev key (t : Thread) : Bytes := t.call.key.bytes

/-- The level of the key a call works on. -/
abbrev level (t : Thread) : CacheLevel := t.call.key.level

def returned (t : Thread) : Bool :=
  match t.pc with
  | .done _ => true
  | _ => false

end Thread

/-! ### What a call makes of what it read -/

namespace SledCache

/-- `get` after it read the entry. -/
def getRead (s : SledCache) (key : Bytes) (clock : Clock) : Pc :=
  match s.entries[key]? with
  | none => .done (.value none)
  | some entry =>
    match valueOf entry clock.millis with
    | some value => if s.limits.any then .touching value else .done (.value (some value))
    | none => .dropping (some entry) clock.millis (.value none)

/-- `touch` after it read the recorded use: one that is fresh enough is left as it is. -/
def touchRead (s : SledCache) (key value : Bytes) (clock : Clock) : Pc :=
  match (s.used[key]?).bind counted with
  | some last =>
    if saturatingSub clock.micros last < refreshAfterMicros then .done (.value (some value))
    else .stamping value (toBeBytes clock.micros)
  | none => .stamping value (toBeBytes clock.micros)

/-- `claim` after it read what the key holds: a live entry is somebody else's. -/
def claimRead (s : SledCache) (key entry : Bytes) (clock : Clock) : Pc :=
  match s.entries[key]? with
  | some held =>
    if (valueOf held clock.millis).isSome then .done (.claimed false) else .claimSwap entry (some held)
  | none => .claimSwap entry none

/-- `counting` after it read what the key holds. -/
def countRead (s : SledCache) (key : Bytes) (ttl : Ttl) (next : Next) (clock : Clock) : Pc :=
  let held := s.entries[key]?
  match held.bind (valueOf · clock.millis) with
  | some stored =>
    match countOf stored with
    | .ok counted => .countSwap ttl held (next.total (some counted))
    | .error error => .done (.failed error)
  | none => .countSwap ttl held (next.total none)

/-- `counted` after it read what the key holds. -/
def countedRead (s : SledCache) (key : Bytes) (clock : Clock) : Pc :=
  let held := s.entries[key]?
  match held.bind (valueOf · clock.millis) with
  | some stored =>
    match countOf stored with
    | .ok counted => .done (.counted (some counted))
    | .error error => .done (.failed error)
  | none => .dropping held clock.millis (.counted none)

/-- `evict` after it read what its level holds. -/
def evictRead (s : SledCache) (level : CacheLevel) (answer : Answer) : Pc :=
  match s.limits.of level with
  | none => .done answer
  | some limit => if s.held level > limit.get then .scanning answer else .done answer

/-- `evict` after it looked for the oldest row: a level with no row left is let be. -/
def evictScan (s : SledCache) (level : CacheLevel) (answer : Answer) : Pc :=
  match s.oldest level with
  | none => .done answer
  | some row => .evictDrop (row.drop indexPrefix) answer

end SledCache

/-! ### One atomic step -/

def startStep (clock : Clock) (s : SledCache) (call : Call) : SledCache × Pc :=
  match call with
  | .get key => (s, s.getRead key.bytes clock)
  | .put _ value ttl => (s, .writing (entry value ttl clock.millis) .wrote)
  | .claim _ ttl => (s, .claiming (entry [] ttl clock.millis))
  | .remove key =>
    let dropped := s.dropEntry key.level key.bytes
    (dropped.1, .done (.removed (dropped.2.any fun entry => (valueOf entry clock.millis).isSome)))
  | .counting key ttl next => (s, s.countRead key.bytes ttl next clock)
  | .counted key => (s, s.countedRead key.bytes clock)

/-- A swap: the entry goes in only while the key still holds what was read. -/
def swapStep (s : SledCache) (key : Bytes) (held : Option Bytes) (entry : Bytes) (won lost : Pc) :
    SledCache × Pc :=
  if s.entries[key]? = held then (s.swapIn key entry, won) else (s, lost)

theorem swapStep_landed {s : SledCache} {key : Bytes} {held : Option Bytes}
    (h : s.entries[key]? = held) (entry : Bytes) (won lost : Pc) :
    swapStep s key held entry won lost = (s.swapIn key entry, won) := if_pos h

theorem swapStep_failed {s : SledCache} {key : Bytes} {held : Option Bytes}
    (h : s.entries[key]? ≠ held) (entry : Bytes) (won lost : Pc) :
    swapStep s key held entry won lost = (s, lost) := if_neg h

/-- One atomic step of a call, or nothing once it has returned. -/
def step : Program Clock SledCache Thread := fun clock s t =>
  let move : Option (SledCache × Pc) := match t.pc with
    | .start => some (startStep clock s t.call)
    | .touching value => some (s, s.touchRead t.key value clock)
    | .stamping value stamped => some (s.touch t.level t.key stamped, .done (.value (some value)))
    | .dropping _ _ answer => some ((s.dropEntry t.level t.key).1, .done answer)
    | .claiming entry => some (s, s.claimRead t.key entry clock)
    | .claimSwap entry held =>
      some (swapStep s t.key held entry (.writing entry (.claimed true)) (.claiming entry))
    | .countSwap ttl held total =>
      let written := entry (countedBytes total) (some ttl) clock.millis
      some (swapStep s t.key held written (.writing written (.total total)) .start)
    | .writing entry answer =>
      some (s.write t.level t.key entry (toBeBytes clock.micros), .evicting answer)
    | .evicting answer => some (s, s.evictRead t.level answer)
    | .scanning answer => some (s, s.evictScan t.level answer)
    | .evictDrop key answer => some ((s.dropEntry t.level key).1, .evicting answer)
    | .done _ => none
  move.map fun r => (r.1, { t with pc := r.2 })

/-! ### What a step can do to the trees -/

namespace Thread

/-- The entry a call is about to swap in, and what it expects to find. -/
def swaps (t : Thread) (clock : Clock) : Option (Option Bytes × Bytes) :=
  match t.pc with
  | .claimSwap entry held => some (held, entry)
  | .countSwap ttl held total => some (held, entry (countedBytes total) (some ttl) clock.millis)
  | _ => none

/-- The entry a call is about to write. -/
def writes (t : Thread) : Option Bytes :=
  match t.pc with
  | .writing entry _ => some entry
  | _ => none

def drops (t : Thread) : Option Bytes :=
  match t.pc, t.call with
  | .dropping _ _ _, _ => some t.key
  | .start, .remove _ => some t.key
  | .evictDrop key _, _ => some key
  | _, _ => none

/-- The use a call is about to record. -/
def touches (t : Thread) : Option Bytes :=
  match t.pc with
  | .stamping _ stamped => some stamped
  | _ => none

end Thread

/-- The trees after one step: as they were, or after one swap or one of the three transactions. -/
inductive Effect (clock : Clock) (s : SledCache) (t : Thread) : SledCache → Prop where
  | still : Effect clock s t s
  | swap (entry : Bytes) (h : t.swaps clock = some (s.entries[t.key]?, entry)) :
      Effect clock s t (s.swapIn t.key entry)
  | write (entry : Bytes) (h : t.writes = some entry) :
      Effect clock s t (s.write t.level t.key entry (toBeBytes clock.micros))
  | drop (key : Bytes) (h : t.drops = some key) : Effect clock s t (s.dropEntry t.level key).1
  | touch (stamped : Bytes) (h : t.touches = some stamped) :
      Effect clock s t (s.touch t.level t.key stamped)

section Steps

variable {clock : Clock} {s s' : SledCache} {t t' : Thread}

theorem step_call (h : step clock s t = some (s', t')) : t'.call = t.call := by
  obtain ⟨r, _, hr⟩ := Option.map_eq_some_iff.mp h
  rw [← (Prod.mk.inj hr).2]

/-- **What a step can do to the trees.** -/
theorem step_effect (h : step clock s t = some (s', t')) : Effect clock s t s' := by
  obtain ⟨call, pc⟩ := t
  obtain ⟨⟨s₁, pc₁⟩, hmove, hr⟩ := Option.map_eq_some_iff.mp h
  obtain ⟨rfl, -⟩ := Prod.mk.inj hr
  cases pc <;> simp only [Option.some.injEq, Prod.mk.injEq, reduceCtorEq] at hmove
  case start =>
    cases call <;> simp only [startStep, Prod.mk.injEq] at hmove <;> obtain ⟨rfl, -⟩ := hmove
    case remove key => exact .drop _ rfl
    all_goals exact .still
  case stamping value stamped =>
    obtain ⟨rfl, -⟩ := hmove
    exact .touch _ rfl
  case dropping found now answer =>
    obtain ⟨rfl, -⟩ := hmove
    exact .drop _ rfl
  case claimSwap entry held =>
    unfold swapStep at hmove
    split at hmove
    · rename_i hheld
      obtain ⟨rfl, -⟩ := Prod.mk.inj hmove
      exact .swap entry (by rw [hheld]; rfl)
    · obtain ⟨rfl, -⟩ := Prod.mk.inj hmove
      exact .still
  case countSwap ttl held total =>
    unfold swapStep at hmove
    split at hmove
    · rename_i hheld
      obtain ⟨rfl, -⟩ := Prod.mk.inj hmove
      exact .swap _ (by rw [hheld]; rfl)
    · obtain ⟨rfl, -⟩ := Prod.mk.inj hmove
      exact .still
  case writing entry answer =>
    obtain ⟨rfl, -⟩ := hmove
    exact .write _ rfl
  case evictDrop key answer =>
    obtain ⟨rfl, -⟩ := hmove
    exact .drop _ rfl
  all_goals
    obtain ⟨rfl, -⟩ := hmove
    exact .still

theorem step_of_writes {entry : Bytes} (hw : t.writes = some entry)
    (h : step clock s t = some (s', t')) :
    s' = s.write t.level t.key entry (toBeBytes clock.micros) ∧ t'.writes = none := by
  obtain ⟨call, pc⟩ := t
  cases pc <;> simp only [Thread.writes, Option.some.injEq, reduceCtorEq] at hw
  subst hw
  obtain ⟨rfl, rfl⟩ := Prod.mk.inj (Option.some.inj h)
  exact ⟨rfl, rfl⟩

theorem step_of_swaps {entry : Bytes} (hsw : t.swaps clock = some (s.entries[t.key]?, entry))
    (h : step clock s t = some (s', t')) : s' = s.swapIn t.key entry ∧ t'.writes = some entry := by
  obtain ⟨call, pc⟩ := t
  cases pc <;> simp only [Thread.swaps, Option.some.injEq, Prod.mk.injEq, reduceCtorEq] at hsw
  all_goals
    obtain ⟨hheld, rfl⟩ := hsw
    simp only [step, swapStep, ← hheld, if_true, Option.map_some, Option.some.injEq,
      Prod.mk.injEq] at h
    obtain ⟨rfl, rfl⟩ := h
    exact ⟨rfl, rfl⟩

theorem step_isSome (clock : Clock) (s : SledCache) {t : Thread} (h : t.returned = false) :
    (step clock s t).isSome = true := by
  obtain ⟨call, pc⟩ := t
  cases pc <;> first | rfl | simp [Thread.returned] at h

theorem reach_calls {C : Guard Clock SledCache Thread} {p q : Pool SledCache Thread}
    (h : Pool.Reach step C p q) : q.threads.map Thread.call = p.threads.map Thread.call := by
  refine h.invariant (I := fun q => q.threads.map Thread.call = p.threads.map Thread.call) rfl ?_
  intro s pre t post clock s' t' hI _ hs
  simp only [List.map_append, List.map_cons, step_call hs] at hI ⊢
  exact hI

end Steps

end IntelliPrism.Cache
