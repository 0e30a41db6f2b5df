import IntelliPrism.Cache.Standalone
import IntelliPrism.Lib.Rounding

/-!
# The cluster backend's counts: scripts a redis server runs

The cluster backend counts in scripts, which the server runs one at a time.  Its numbers have 64 bits with a
sign, those of a script are doubles, and a script gives a count its end only when the count has none.

* `countScript`, `seedScript`, `redisCall` — the source's scripts and calls, on what the server keeps under
  one key, with the ways they fail;
* `Tally`, `tallyCall` — **what the two backends are for**: a count that is let go once the ttl of the call
  that started it has passed;
* `redisCall_tally` — the scripts keep such a count, as long as doubles hold its totals, its end is ahead and
  no call meets its very last millisecond.
-/

namespace IntelliPrism.Cache

open IntelliPrism.Lib

/-! ### What the server keeps, and its commands -/

/-- The largest of the server's numbers. -/
def signedMax : ℕ := 9223372036854775807

/-- What the server keeps under a key: the digits of a number, and the millisecond they end, if they do. -/
structure RedisCount where
  value : ℕ
  expires : Option ℕ
  deriving DecidableEq

/-- A server, by whether it still has a key in the very millisecond the key ends. -/
structure Server where
  keepsLast : Bool
  deriving DecidableEq

def Server.alive (server : Server) (now : ℕ) (count : RedisCount) : Bool :=
  match count.expires with
  | none => true
  | some expires => if server.keepsLast then decide (now ≤ expires) else decide (now < expires)

/-- What every command meets: a key that has ended is gone. -/
def Server.found (server : Server) (now : ℕ) (slot : Option RedisCount) : Option RedisCount :=
  slot.filter (server.alive now)

/-- `INCRBY`, which keeps the end the key has.  A number past the largest, on the way in or out, fails. -/
def incrBy (slot : Option RedisCount) (amount : ℕ) : Except CacheError RedisCount :=
  let total := slot.elim 0 RedisCount.value + amount
  if total ≤ signedMax then .ok ⟨total, slot.bind RedisCount.expires⟩ else .error .backend

/-- `PTTL` of a key that is there: how long it still has, and below zero where it does not end. -/
def pttl (now : ℕ) (count : RedisCount) : ℤ :=
  match count.expires with
  | none => -1
  | some expires => (expires - now : ℕ)

/-- `PEXPIRE`: an end that is not ahead is met at once, and one past the largest number fails. -/
def pexpire (now span : ℕ) (count : RedisCount) : Except CacheError (Option RedisCount) :=
  if signedMax < now + span then .error .backend
  else if span = 0 then .ok none
  else .ok (some { count with expires := some (now + span) })

/-- A number as a script returns it: a double first, and then one of the server's numbers. -/
def scriptReply (n : ℕ) : Except CacheError UInt64 :=
  if toDouble n ≤ signedMax then .ok (saturate (toDouble n)) else .error .backend

/-! ### The scripts -/

/-- `COUNT`: adds to a count, giving it its end where it has none. -/
def countScript (now amount span : ℕ) (slot : Option RedisCount) :
    Except CacheError UInt64 × Option RedisCount :=
  match incrBy slot amount with
  | .error error => (.error error, slot)
  | .ok count =>
    if pttl now count < 0 then
      match pexpire now span count with
      | .error error => (.error error, some count)
      | .ok slot => (scriptReply count.value, slot)
    else (scriptReply count.value, some count)

/-- `SEED`: starts a count unless one is there.  `SET` looks at its `PX` before it looks at the key. -/
def seedScript (now start span : ℕ) (slot : Option RedisCount) :
    Except CacheError UInt64 × Option RedisCount :=
  if span = 0 ∨ signedMax < now + span then (.error .backend, slot)
  else
    match slot with
    | none => (scriptReply start, some ⟨start, some (now + span)⟩)
    | some count => (scriptReply count.value, some count)

/-- A ttl in the milliseconds redis counts, capped at what its `PX` argument holds. -/
def millis (ttl : Ttl) : ℕ := min ttl.millis signedMax

/-- A call on the count under a key. -/
inductive CounterCall where
  | count (amount : UInt64) (ttl : Ttl)
  | counted
  | seed (start : UInt64) (ttl : Ttl)
  deriving DecidableEq

/-- What a script's reply is to the caller. -/
def answerOf : Except CacheError UInt64 → Answer
  | .ok total => .total total
  | .error error => .failed error

/-- `GET` of a count, read as 64 bits without a sign. -/
def getReply : Option RedisCount → Answer
  | none => .counted none
  | some count => if count.value ≤ wordMax then .counted (some (saturate count.value)) else .failed .backend

/-- `RedisCache::count`, `counted` and `seed`. -/
def redisCall (server : Server) (now : ℕ) (slot : Option RedisCount) :
    CounterCall → Answer × Option RedisCount
  | .count amount ttl =>
    let ran := countScript now amount.toNat (millis ttl) (server.found now slot)
    (answerOf ran.1, ran.2)
  | .counted => (getReply (server.found now slot), server.found now slot)
  | .seed start ttl =>
    let ran := seedScript now start.toNat (millis ttl) (server.found now slot)
    (answerOf ran.1, ran.2)

/-- What the calls of a run answer, each at its moment. -/
def redisRun (server : Server) : Option RedisCount → List (UInt64 × CounterCall) → List Answer
  | _, [] => []
  | slot, (now, call) :: rest =>
    (redisCall server now.toNat slot call).1 ::
      redisRun server (redisCall server now.toNat slot call).2 rest

/-! ### What a count is for -/

/-- A count, the end the call that started it gave it, and the end the last call that wrote it named. -/
structure Tally where
  value : ℕ
  ends : ℕ
  renewed : ℕ
  deriving DecidableEq

/-- A count is there until the ttl of the call that started it has passed. -/
def Tally.found (now : ℕ) (tally : Option Tally) : Option Tally := tally.filter fun t => now < t.ends

/-- What a call leaves of the count it found. -/
def Tally.wrote (now : ℕ) (found : Option Tally) (total : ℕ) (ttl : Ttl) : Tally :=
  ⟨total, (found.map Tally.ends).getD (now + ttl.millis), now + ttl.millis⟩

/-- The total a call makes of the count it found. -/
def CounterCall.total (found : Option Tally) : CounterCall → ℕ
  | .count amount _ => found.elim 0 Tally.value + amount.toNat
  | .counted => found.elim 0 Tally.value
  | .seed start _ => found.elim start.toNat Tally.value

/-- A call on a count, as both backends mean it. -/
def tallyCall (now : ℕ) (tally : Option Tally) (call : CounterCall) : Answer × Option Tally :=
  let found := Tally.found now tally
  let total := call.total found
  match call with
  | .count _ ttl => (.total (saturate total), some (.wrote now found total ttl))
  | .counted => (.counted (found.map fun t => saturate t.value), found)
  | .seed _ ttl => (.total (saturate total), some (.wrote now found total ttl))

/-- What the calls of a run answer, each at its moment. -/
def tallyRun : Option Tally → List (UInt64 × CounterCall) → List Answer
  | _, [] => []
  | tally, (now, call) :: rest =>
    (tallyCall now.toNat tally call).1 :: tallyRun (tallyCall now.toNat tally call).2 rest

/-! ### The scripts keep such a count -/

/-- A double and the server's numbers hold the total, and the end a call names is ahead and one of the
server's numbers. -/
def CounterCall.Fits (now : ℕ) (found : Option Tally) (call : CounterCall) : Prop :=
  match call with
  | .counted => True
  | .count _ ttl | .seed _ ttl =>
    0 < ttl.millis ∧ now + ttl.millis ≤ signedMax ∧ call.total found ≤ signedMax ∧
      toDouble (call.total found) = call.total found

/-- Such totals and ends alone are counted. -/
def Tally.Sound (tally : Option Tally) : Prop :=
  ∀ t ∈ tally, t.value ≤ signedMax ∧ toDouble t.value = t.value ∧ t.ends ≤ signedMax ∧
    t.renewed ≤ signedMax

/-- No call meets the very last millisecond of a count, where the server still has it then. -/
def Server.Past (server : Server) (now : ℕ) (tally : Option Tally) : Prop :=
  server.keepsLast = true → ∀ t ∈ tally, now ≠ t.ends

/-- The count as the server keeps it. -/
def Tally.onRedis (t : Tally) : RedisCount := ⟨t.value, some t.ends⟩

section Redis

variable {server : Server} {now : ℕ} {tally : Option Tally}

theorem found_onRedis (hpast : server.Past now tally) :
    server.found now (tally.map Tally.onRedis) = (Tally.found now tally).map Tally.onRedis := by
  cases tally with
  | none => rfl
  | some t =>
    have halive : server.alive now t.onRedis = decide (now < t.ends) := by
      simp only [Server.alive, Tally.onRedis]
      split
      · rename_i hkeeps
        have hne := hpast hkeeps t rfl
        simp only [decide_eq_decide]
        omega
      · rfl
    simp only [Server.found, Tally.found, Option.map_some, Option.filter_some, halive]
    split <;> rfl

theorem scriptReply_exact {n : ℕ} (hmax : n ≤ signedMax) (hexact : toDouble n = n) :
    scriptReply n = .ok (saturate n) := by
  rw [scriptReply, hexact, if_pos hmax]

theorem millis_of_fits {ttl : Ttl} (h : now + ttl.millis ≤ signedMax) : millis ttl = ttl.millis := by
  unfold millis
  omega

theorem Tally.Sound.found (h : Tally.Sound tally) : Tally.Sound (Tally.found now tally) := by
  intro t ht
  exact h t (Option.mem_filter_iff.mp ht).1

theorem Tally.Sound.wrote {found : Option Tally} (h : Tally.Sound found) {total : ℕ} {ttl : Ttl}
    (hend : now + ttl.millis ≤ signedMax) (hmax : total ≤ signedMax) (hexact : toDouble total = total) :
    Tally.Sound (some (.wrote now found total ttl)) := by
  intro t ht
  cases ht
  refine ⟨hmax, hexact, ?_, hend⟩
  cases found with
  | none => exact hend
  | some t => exact (h t rfl).2.2.1

theorem sound_tallyCall {call : CounterCall} (h : Tally.Sound tally)
    (hfits : call.Fits now (Tally.found now tally)) : Tally.Sound (tallyCall now tally call).2 := by
  cases call with
  | counted => exact h.found
  | count amount ttl => exact h.found.wrote hfits.2.1 hfits.2.2.1 hfits.2.2.2
  | seed start ttl => exact h.found.wrote hfits.2.1 hfits.2.2.1 hfits.2.2.2

theorem incrBy_fits {slot : Option RedisCount} {amount : ℕ}
    (h : slot.elim 0 RedisCount.value + amount ≤ signedMax) :
    incrBy slot amount = .ok ⟨slot.elim 0 RedisCount.value + amount, slot.bind RedisCount.expires⟩ := if_pos h

theorem pexpire_ahead {span : ℕ} (hpos : 0 < span) (hend : now + span ≤ signedMax) (count : RedisCount) :
    pexpire now span count = .ok (some { count with expires := some (now + span) }) := by
  rw [pexpire, if_neg (Nat.not_lt.mpr hend), if_neg (Nat.ne_of_gt hpos)]

theorem countScript_onRedis {found : Option Tally} {amount : UInt64} {ttl : Ttl}
    (hfits : (CounterCall.count amount ttl).Fits now found) :
    countScript now amount.toNat (millis ttl) (found.map Tally.onRedis)
      = (.ok (saturate ((CounterCall.count amount ttl).total found)),
        some (Tally.wrote now found ((CounterCall.count amount ttl).total found) ttl).onRedis) := by
  obtain ⟨hpos, hend, hmax, hexact⟩ := hfits
  have hreply := scriptReply_exact hmax hexact
  rw [millis_of_fits hend]
  cases found with
  | none =>
    have hincr := @incrBy_fits none amount.toNat hmax
    have hnone : pttl now ⟨0 + amount.toNat, none⟩ < 0 := Int.negSucc_lt_zero 0
    simp only [countScript, Option.map_none, hincr, Option.elim_none, Option.bind_none, if_pos hnone,
      pexpire_ahead hpos hend]
    exact congrArg (fun reply => (reply, _)) hreply
  | some t =>
    have hincr := @incrBy_fits (some t.onRedis) amount.toNat hmax
    have hlater : ¬pttl now ⟨t.value + amount.toNat, some t.ends⟩ < 0 :=
      Int.not_lt.mpr (Int.natCast_nonneg _)
    simp only [countScript, Option.map_some, hincr]
    exact (if_neg hlater).trans (congrArg (fun reply => (reply, _)) hreply)

theorem seedScript_onRedis {found : Option Tally} {start : UInt64} {ttl : Ttl}
    (hfits : (CounterCall.seed start ttl).Fits now found) :
    seedScript now start.toNat (millis ttl) (found.map Tally.onRedis)
      = (.ok (saturate ((CounterCall.seed start ttl).total found)),
        some (Tally.wrote now found ((CounterCall.seed start ttl).total found) ttl).onRedis) := by
  obtain ⟨hpos, hend, hmax, hexact⟩ := hfits
  have hreply := scriptReply_exact hmax hexact
  have hspan : ¬(ttl.millis = 0 ∨ signedMax < now + ttl.millis) := by omega
  rw [millis_of_fits hend]
  unfold seedScript
  rw [if_neg hspan]
  cases found with
  | none => exact congrArg (fun reply => (reply, _)) hreply
  | some t => exact congrArg (fun reply => (reply, _)) hreply

/-- **The scripts keep a count as it is meant.** -/
theorem redisCall_tally {call : CounterCall} (hsound : Tally.Sound tally) (hpast : server.Past now tally)
    (hfits : call.Fits now (Tally.found now tally)) :
    redisCall server now (tally.map Tally.onRedis) call
      = ((tallyCall now tally call).1, (tallyCall now tally call).2.map Tally.onRedis) := by
  cases call with
  | count amount ttl =>
    simp only [redisCall, found_onRedis hpast, countScript_onRedis hfits]
    rfl
  | seed start ttl =>
    simp only [redisCall, found_onRedis hpast, seedScript_onRedis hfits]
    rfl
  | counted =>
    simp only [redisCall, found_onRedis hpast, tallyCall]
    refine Prod.ext ?_ rfl
    cases hfound : Tally.found now tally with
    | none => rfl
    | some t =>
      have hheld : Tally.Sound (Tally.found now tally) := hsound.found
      have hword : t.value ≤ wordMax := (hheld t hfound).1.trans (by decide)
      exact if_pos hword

end Redis

end IntelliPrism.Cache
