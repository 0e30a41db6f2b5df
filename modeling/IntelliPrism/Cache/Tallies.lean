import IntelliPrism.Cache.Counting
import IntelliPrism.Cache.Keeping
import IntelliPrism.Cache.Scripts

/-!
# Counting on the two backends

The standalone backend writes a count anew with every call that adds to it or seeds it, and stamps it with the
end that call names; the scripts of the cluster backend leave the end a count has.  So the two keep the same
count as long as no call falls between the end a count was given and the end it was last stamped with.

* `Quiet`, `SledRun` — calls on one key, each alone and at its moment, with the key not evicted;
* `carried_tally` — **one call on the standalone backend**, on the count it holds;
* `Alike` — the runs in which the two ends of a count are never told apart;
* `counts_alike` — **in those, both backends answer alike**, and as a count is meant;
* `count_outlives` — a count that is added to outlives its end on the standalone backend.
-/

namespace IntelliPrism.Cache

open IntelliPrism.Lib

/-! ### Calls on one key -/

/-- The call on the standalone backend. -/
def CounterCall.onSled (key : CacheKey) : CounterCall → Call
  | .count amount ttl => .count key amount ttl
  | .counted => .counted key
  | .seed start ttl => .seed key start ttl

def Pc.evicts (key : Bytes) : Pc → Bool
  | .evictDrop other _ => other == key
  | _ => false

/-- The clock stands at a moment, and a key is not evicted. -/
def Quiet (key : CacheKey) (now : UInt64) : Guard Clock SledCache Thread := fun _ t clock =>
  clock.millis = now ∧ t.pc.evicts key.bytes = false

instance (key : CacheKey) (now : UInt64) (p : Pool SledCache Thread) (t : Thread) (clock : Clock) :
    Decidable (Quiet key now p t clock) :=
  inferInstanceAs (Decidable (_ ∧ _))

/-- Calls on one key one after the other, each at its moment, and what they answer. -/
inductive SledRun (key : CacheKey) : SledCache → List (UInt64 × CounterCall) → List Answer → Prop where
  | nil (s : SledCache) : SledRun key s [] []
  | cons {s s' : SledCache} {now : UInt64} {call : CounterCall} {answer : Answer}
      {rest : List (UInt64 × CounterCall)} {answers : List Answer}
      (first : Carried (Quiet key now) (call.onSled key) s s' answer) (later : SledRun key s' rest answers) :
      SledRun key s ((now, call) :: rest) (answer :: answers)

/-! ### One call on the standalone backend -/

/-- The count as the standalone backend stores it: stamped with the end that was named last. -/
def Tally.onSled (t : Tally) : Bytes := toBeBytes (saturate t.renewed) ++ countedBytes (saturate t.value)

def Tally.HeldBy (s : SledCache) (key : CacheKey) (tally : Option Tally) : Prop :=
  s.entries[key.bytes]? = tally.map Tally.onSled

/-- No call falls between the two ends of a count. -/
def Tally.OneEnd (now : ℕ) (tally : Option Tally) : Prop :=
  ∀ t ∈ tally, (now < t.ends ↔ now < t.renewed)

section Sled

variable {key : CacheKey} {now : UInt64} {tally : Option Tally} {s s' : SledCache} {answer : Answer}

theorem bind_valueOf_onSled (hsound : Tally.Sound tally) (hone : Tally.OneEnd now.toNat tally) :
    (tally.map Tally.onSled).bind (valueOf · now)
      = (Tally.found now.toNat tally).map fun t => countedBytes (saturate t.value) := by
  cases tally with
  | none => rfl
  | some t =>
    have hrenewed : (saturate t.renewed).toNat = t.renewed :=
      saturate_toNat_of_le ((hsound t rfl).2.2.2.trans (by decide))
    have hlive : saturate t.renewed > now ↔ now.toNat < t.ends := by
      rw [gt_iff_lt, UInt64.lt_iff_toNat_lt, hrenewed]
      exact (hone t rfl).symm
    simp only [Option.map_some, Option.bind_some, Tally.onSled, valueOf_stamped, hlive, Tally.found,
      Option.filter_some, decide_eq_true_eq]
    split <;> rfl

theorem countOf_countedBytes (count : UInt64) : countOf (countedBytes count) = .ok count := by
  simp only [countOf, countedBytes, fromBeBytes_toBeBytes]

/-- What a counting call makes of a count. -/
def Next.call (ttl : Ttl) : Next → CounterCall
  | .add amount => .count amount ttl
  | .seed start => .seed start ttl

theorem Next.total_eq (next : Next) {found : Option Tally} (hsound : Tally.Sound found) (ttl : Ttl) :
    next.total (found.map fun t => saturate t.value) = saturate ((next.call ttl).total found) := by
  cases found with
  | none =>
    cases next with
    | add amount => simp [Next.total, Next.call, CounterCall.total, saturatingAdd]
    | seed start =>
      refine UInt64.toNat_inj.mp ?_
      simp only [Next.total, Next.call, CounterCall.total, Option.map_none, Option.getD_none,
        Option.elim_none, saturate_toNat]
      exact (Nat.min_eq_left (toNat_le_wordMax start)).symm
  | some t =>
    have hvalue : (saturate t.value).toNat = t.value :=
      saturate_toNat_of_le ((hsound t rfl).1.trans (by decide))
    cases next with
    | add amount => simp [Next.total, Next.call, CounterCall.total, saturatingAdd, hvalue]
    | seed start => simp [Next.total, Next.call, CounterCall.total]

theorem countRead_tally (hheld : Tally.HeldBy s key tally) (hsound : Tally.Sound tally)
    (hone : Tally.OneEnd now.toNat tally) (ttl : Ttl) (next : Next) {clock : Clock}
    (hclock : clock.millis = now) :
    s.countRead key.bytes ttl next clock
      = .countSwap ttl s.entries[key.bytes]?
          (saturate ((next.call ttl).total (Tally.found now.toNat tally))) := by
  have hread := bind_valueOf_onSled hsound hone
  rw [← hheld] at hread
  rw [← next.total_eq hsound.found ttl]
  simp only [SledCache.countRead, hclock, hread]
  cases Tally.found now.toNat tally with
  | none => rfl
  | some t => simp only [Option.map_some, countOf_countedBytes]

theorem countedRead_tally (hheld : Tally.HeldBy s key tally) (hsound : Tally.Sound tally)
    (hone : Tally.OneEnd now.toNat tally) {clock : Clock} (hclock : clock.millis = now) :
    s.countedRead key.bytes clock
      = (Tally.found now.toNat tally).elim (.dropping s.entries[key.bytes]? now (.counted none))
          fun t => .done (.counted (some (saturate t.value))) := by
  have hread := bind_valueOf_onSled hsound hone
  rw [← hheld] at hread
  simp only [SledCache.countedRead, hclock, hread]
  cases Tally.found now.toNat tally with
  | none => rfl
  | some t => simp only [Option.map_some, countOf_countedBytes, Option.elim_some]

theorem entry_wrote (found : Option Tally) (total : ℕ) (ttl : Ttl) :
    entry (countedBytes (saturate total)) (some ttl) now
      = (Tally.wrote now.toNat found total ttl).onSled := by
  have hend : saturatingAdd now (saturate ttl.millis) = saturate (now.toNat + ttl.millis) := by
    refine UInt64.toNat_inj.mp ?_
    simp only [saturatingAdd_toNat, saturate_toNat]
    omega
  simp only [entry, hend]
  rfl

/-! ### Where a call stands -/

/-- Where a call that writes a count stands, and what the key holds there. -/
def WritesCount (key : CacheKey) (held : Option Bytes) (ttl : Ttl) (total : UInt64) (now : UInt64)
    (s : SledCache) : Pc → Prop
  | .start => s.entries[key.bytes]? = held
  | .countSwap span read made => s.entries[key.bytes]? = held ∧ span = ttl ∧ read = held ∧ made = total
  | .writing written answer => written = entry (countedBytes total) (some ttl) now ∧ answer = .total total
  | .evicting answer | .scanning answer | .evictDrop _ answer | .done answer =>
    s.entries[key.bytes]? = some (entry (countedBytes total) (some ttl) now) ∧ answer = .total total
  | _ => False

/-- **One step of a call that writes a count.** -/
theorem step_writesCount {held : Option Bytes} {ttl : Ttl} {next : Next} {total : UInt64}
    (hread : ∀ (s : SledCache) (clock : Clock), s.entries[key.bytes]? = held → clock.millis = now →
      s.countRead key.bytes ttl next clock = .countSwap ttl held total)
    {clock : Clock} {pc : Pc} {t' : Thread} {pool : List Thread}
    (hquiet : Quiet key now ⟨s, pool⟩ ⟨.counting key ttl next, pc⟩ clock)
    (hpc : WritesCount key held ttl total now s pc)
    (h : step clock s ⟨.counting key ttl next, pc⟩ = some (s', t')) :
    WritesCount key held ttl total now s' t'.pc := by
  obtain ⟨hclock, hkept⟩ := hquiet
  cases pc <;> simp only [WritesCount] at hpc <;> try exact hpc.elim
  case start =>
    simp only [step, startStep, hread s clock hpc hclock, Option.map_some, Option.some.injEq,
      Prod.mk.injEq] at h
    obtain ⟨rfl, rfl⟩ := h
    exact ⟨hpc, rfl, rfl, rfl⟩
  case countSwap span read made =>
    obtain ⟨hheld, rfl, rfl, rfl⟩ := hpc
    have hlands := swapStep_landed hheld (entry (countedBytes made) (some span) now)
      (.writing (entry (countedBytes made) (some span) now) (.total made)) .start
    have hkey : (Thread.mk (.counting key span next) (.countSwap span read made)).key = key.bytes := rfl
    simp only [step, hclock, hkey, hlands, Option.map_some, Option.some.injEq, Prod.mk.injEq] at h
    obtain ⟨rfl, rfl⟩ := h
    exact ⟨rfl, rfl⟩
  case writing written answer =>
    obtain ⟨rfl, rfl⟩ := hpc
    cases h
    exact ⟨Std.ExtTreeMap.getElem?_insert_self, rfl⟩
  case evicting answer =>
    simp only [step, Option.map_some, Option.some.injEq, Prod.mk.injEq] at h
    obtain ⟨rfl, rfl⟩ := h
    simp only [SledCache.evictRead]
    repeat' split
    all_goals exact hpc
  case scanning answer =>
    simp only [step, Option.map_some, Option.some.injEq, Prod.mk.injEq] at h
    obtain ⟨rfl, rfl⟩ := h
    simp only [SledCache.evictScan]
    split
    all_goals exact hpc
  case evictDrop dropped answer =>
    have hne : dropped ≠ key.bytes := by simpa [Pc.evicts] using hkept
    cases h
    refine ⟨?_, hpc.2⟩
    rw [SledCache.dropEntry_entries_ne s _ hne]
    exact hpc.1
  case done answer => cases h

/-- Where a call that reads a count stands, and what the key holds there. -/
def ReadsCount (key : CacheKey) (held : Option Bytes) (found : Option Tally) (s : SledCache) : Pc → Prop
  | .start => s.entries[key.bytes]? = held
  | .dropping _ _ answer => found = none ∧ answer = .counted none
  | .done answer => s.entries[key.bytes]? = found.map Tally.onSled ∧
      answer = .counted (found.map fun t => saturate t.value)
  | _ => False

/-- **One step of a call that reads a count.** -/
theorem step_readsCount (hsound : Tally.Sound tally) (hone : Tally.OneEnd now.toNat tally)
    {clock : Clock} {pc : Pc} {t' : Thread} {pool : List Thread}
    (hquiet : Quiet key now ⟨s, pool⟩ ⟨.counted key, pc⟩ clock)
    (hpc : ReadsCount key (tally.map Tally.onSled) (Tally.found now.toNat tally) s pc)
    (h : step clock s ⟨.counted key, pc⟩ = some (s', t')) :
    ReadsCount key (tally.map Tally.onSled) (Tally.found now.toNat tally) s' t'.pc := by
  cases pc <;> simp only [ReadsCount] at hpc <;> try exact hpc.elim
  case start =>
    simp only [step, startStep, countedRead_tally hpc hsound hone hquiet.1, Option.map_some,
      Option.some.injEq, Prod.mk.injEq] at h
    obtain ⟨rfl, rfl⟩ := h
    cases hfound : Tally.found now.toNat tally with
    | none => exact ⟨rfl, rfl⟩
    | some t =>
      have hsame : tally = some t := (Option.mem_filter_iff.mp hfound).1
      refine ⟨?_, rfl⟩
      rw [hpc, hsame]
  case dropping found moment answer =>
    obtain ⟨hnone, rfl⟩ := hpc
    cases h
    rw [hnone]
    exact ⟨s.dropEntry_entries_self _ _, rfl⟩
  case done answer => cases h

/-- **One call on the standalone backend**, on the count it holds, is a call on that count. -/
theorem carried_tally {call : CounterCall} (hheld : Tally.HeldBy s key tally) (hsound : Tally.Sound tally)
    (hone : Tally.OneEnd now.toNat tally) (h : Carried (Quiet key now) (call.onSled key) s s' answer) :
    answer = (tallyCall now.toNat tally call).1 ∧
      Tally.HeldBy s' key (tallyCall now.toNat tally call).2 := by
  have hcounting : ∀ ttl next, Carried (Quiet key now) (.counting key ttl next) s s' answer →
      answer = .total (saturate ((next.call ttl).total (Tally.found now.toNat tally))) ∧
        Tally.HeldBy s' key (some (Tally.wrote now.toNat (Tally.found now.toNat tally)
          ((next.call ttl).total (Tally.found now.toNat tally)) ttl)) := by
    intro ttl next hrun
    have hwrites := hrun.ends (A := WritesCount key (tally.map Tally.onSled) ttl
      (saturate ((next.call ttl).total (Tally.found now.toNat tally))) now) hheld (by
        intro s₁ pc clock s₂ t' hpc hquiet hstep
        refine step_writesCount ?_ hquiet hpc hstep
        intro s clock hs hclock
        rw [countRead_tally hs hsound hone ttl next hclock, hs])
    exact ⟨hwrites.2, hwrites.1.trans (congrArg some (entry_wrote _ _ ttl))⟩
  cases call with
  | count amount ttl => exact hcounting ttl (.add amount) h
  | seed start ttl => exact hcounting ttl (.seed start) h
  | counted =>
    have hreads := h.ends (A := ReadsCount key (tally.map Tally.onSled) (Tally.found now.toNat tally)) hheld
      fun s₁ pc clock s₂ t' hpc hquiet hstep => step_readsCount hsound hone hquiet hpc hstep
    exact ⟨hreads.2, hreads.1⟩

/-! ### Every call returns -/

theorem countRead_cases (s : SledCache) (key : Bytes) (ttl : Ttl) (next : Next) (clock : Clock) :
    (∃ error, s.countRead key ttl next clock = .done (.failed error)) ∨
      ∃ total, s.countRead key ttl next clock = .countSwap ttl s.entries[key]? total := by
  simp only [SledCache.countRead]
  split
  · split
    · exact .inr ⟨_, rfl⟩
    · exact .inl ⟨_, rfl⟩
  · exact .inr ⟨_, rfl⟩

/-- A counting call alone, in a level that is not limited, reads, swaps, writes and returns. -/
theorem exists_carried_counting (hlimit : s.limits.of key.level = none) (ttl : Ttl) (next : Next) :
    ∃ s' answer, Carried (Quiet key now) (.counting key ttl next) s s' answer ∧ s'.limits = s.limits := by
  have hstart : step ⟨now, 0⟩ s (.new (.counting key ttl next))
      = some (s, ⟨.counting key ttl next, s.countRead key.bytes ttl next ⟨now, 0⟩⟩) := rfl
  rcases countRead_cases s key.bytes ttl next ⟨now, 0⟩ with ⟨error, hread⟩ | ⟨total, hread⟩
  · rw [hread] at hstart
    exact ⟨s, _, Pool.reach_solo_head ⟨rfl, rfl⟩ hstart .refl, rfl⟩
  · rw [hread] at hstart
    let written := entry (countedBytes total) (some ttl) now
    let swapped := s.swapIn key.bytes written
    let wrote := swapped.write key.level key.bytes written (toBeBytes 0)
    have hswap : step ⟨now, 0⟩ s ⟨.counting key ttl next, .countSwap ttl s.entries[key.bytes]? total⟩
        = some (swapped, ⟨.counting key ttl next, .writing written (.total total)⟩) := by
      have hlands := swapStep_landed (@rfl _ s.entries[key.bytes]?) written (.writing written (.total total))
        .start
      exact congrArg (fun r : SledCache × Pc => some (r.1, Thread.mk (.counting key ttl next) r.2)) hlands
    have hwrite : step ⟨now, 0⟩ swapped ⟨.counting key ttl next, .writing written (.total total)⟩
        = some (wrote, ⟨.counting key ttl next, .evicting (.total total)⟩) := rfl
    have hevict : step ⟨now, 0⟩ wrote ⟨.counting key ttl next, .evicting (.total total)⟩
        = some (wrote, ⟨.counting key ttl next, .done (.total total)⟩) := by
      have hread : wrote.evictRead key.level (.total total) = .done (.total total) := by
        have hnone : wrote.limits.of key.level = none := hlimit
        simp only [SledCache.evictRead, hnone]
      exact congrArg (fun pc => some (wrote, Thread.mk (.counting key ttl next) pc)) hread
    refine ⟨wrote, .total total, ?_, rfl⟩
    refine Pool.reach_solo_head ⟨rfl, rfl⟩ hstart ?_
    refine Pool.reach_solo_head ⟨rfl, rfl⟩ hswap ?_
    refine Pool.reach_solo_head ⟨rfl, rfl⟩ hwrite ?_
    exact Pool.reach_solo_head ⟨rfl, rfl⟩ hevict .refl

theorem exists_carried_counted (s : SledCache) :
    ∃ s' answer, Carried (Quiet key now) (.counted key) s s' answer ∧ s'.limits = s.limits := by
  have hstart : step ⟨now, 0⟩ s (.new (.counted key))
      = some (s, ⟨.counted key, s.countedRead key.bytes ⟨now, 0⟩⟩) := rfl
  have hcases : (∃ answer, s.countedRead key.bytes ⟨now, 0⟩ = .done answer) ∨
      ∃ found, s.countedRead key.bytes ⟨now, 0⟩ = .dropping found now (.counted none) := by
    simp only [SledCache.countedRead]
    split
    · split
      · exact .inl ⟨_, rfl⟩
      · exact .inl ⟨_, rfl⟩
    · exact .inr ⟨_, rfl⟩
  rcases hcases with ⟨answer, hread⟩ | ⟨found, hread⟩
  · rw [hread] at hstart
    exact ⟨s, answer, Pool.reach_solo_head ⟨rfl, rfl⟩ hstart .refl, rfl⟩
  · rw [hread] at hstart
    have hdrop : step ⟨now, 0⟩ s ⟨.counted key, .dropping found now (.counted none)⟩
        = some ((s.dropEntry key.level key.bytes).1, ⟨.counted key, .done (.counted none)⟩) := rfl
    refine ⟨_, .counted none, ?_, s.dropEntry_limits key.level key.bytes⟩
    refine Pool.reach_solo_head ⟨rfl, rfl⟩ hstart ?_
    exact Pool.reach_solo_head ⟨rfl, rfl⟩ hdrop .refl

end Sled

/-- **Every run of calls returns** where the level of the key is not limited. -/
theorem exists_sledRun {key : CacheKey} {s : SledCache} (hlimit : s.limits.of key.level = none)
    (run : List (UInt64 × CounterCall)) : ∃ answers, SledRun key s run answers := by
  induction run generalizing s with
  | nil => exact ⟨[], .nil s⟩
  | cons first rest ih =>
    obtain ⟨now, call⟩ := first
    have hfirst : ∃ s' answer, Carried (Quiet key now) (call.onSled key) s s' answer ∧
        s'.limits = s.limits := by
      cases call with
      | count amount ttl => exact exists_carried_counting hlimit ttl (.add amount)
      | seed start ttl => exact exists_carried_counting hlimit ttl (.seed start)
      | counted => exact exists_carried_counted s
    obtain ⟨s', answer, hcarried, hlimits⟩ := hfirst
    rw [← hlimits] at hlimit
    obtain ⟨answers, hrest⟩ := ih hlimit
    exact ⟨answer :: answers, .cons hcarried hrest⟩

/-! ### Runs on both backends -/

/-- No call of the run falls between the two ends of the count it meets, nor on its last millisecond where the
server still has it then, and every total and every end fits. -/
def Alike (server : Server) : Option Tally → List (UInt64 × CounterCall) → Prop
  | _, [] => True
  | tally, (now, call) :: rest =>
    (Tally.OneEnd now.toNat tally ∧ server.Past now.toNat tally ∧
        call.Fits now.toNat (Tally.found now.toNat tally)) ∧
      Alike server (tallyCall now.toNat tally call).2 rest

instance (now : ℕ) (tally : Option Tally) : Decidable (Tally.OneEnd now tally) :=
  inferInstanceAs (Decidable (∀ t ∈ tally, _))

instance (server : Server) (now : ℕ) (tally : Option Tally) : Decidable (server.Past now tally) :=
  inferInstanceAs (Decidable (_ → ∀ t ∈ tally, _))

instance (now : ℕ) (found : Option Tally) (call : CounterCall) : Decidable (call.Fits now found) := by
  cases call <;> unfold CounterCall.Fits <;> infer_instance

instance decidableAlike (server : Server) : ∀ tally run, Decidable (Alike server tally run)
  | _, [] => inferInstanceAs (Decidable True)
  | tally, (now, call) :: rest =>
    have := decidableAlike server (tallyCall now.toNat tally call).2 rest
    inferInstanceAs (Decidable (_ ∧ _))

section Runs

variable {server : Server} {tally : Option Tally} {run : List (UInt64 × CounterCall)}

theorem sledRun_tally {key : CacheKey} {s : SledCache} {answers : List Answer}
    (hheld : Tally.HeldBy s key tally) (hsound : Tally.Sound tally) (halike : Alike server tally run)
    (h : SledRun key s run answers) : answers = tallyRun tally run := by
  induction h generalizing tally with
  | nil s => rfl
  | @cons s s' now call answer rest answers hfirst _ ih =>
    obtain ⟨⟨hone, -, hfits⟩, hrest⟩ := halike
    obtain ⟨hanswer, hheld⟩ := carried_tally hheld hsound hone hfirst
    rw [tallyRun, ← hanswer, ← ih hheld (sound_tallyCall hsound hfits) hrest]

theorem redisRun_tally (hsound : Tally.Sound tally) (halike : Alike server tally run) :
    redisRun server (tally.map Tally.onRedis) run = tallyRun tally run := by
  induction run generalizing tally with
  | nil => rfl
  | cons first rest ih =>
    obtain ⟨now, call⟩ := first
    obtain ⟨⟨-, hpast, hfits⟩, hrest⟩ := halike
    rw [redisRun, tallyRun, redisCall_tally hsound hpast hfits, ih (sound_tallyCall hsound hfits) hrest]

/-- **Both backends count alike**, and as a count is meant, in every run that is alike for them: from a key
that holds nothing, every call on the standalone backend answers what the same call on the cluster backend
answers, and a count is let go once the ttl of the call that started it has passed. -/
theorem counts_alike {key : CacheKey} {s : SledCache} (hnone : s.entries[key.bytes]? = none)
    (halike : Alike server none run) :
    (s.limits.of key.level = none → ∃ answers, SledRun key s run answers) ∧
      ∀ answers, SledRun key s run answers →
        answers = redisRun server none run ∧ answers = tallyRun none run := by
  have hsound : Tally.Sound none := by
    intro t ht
    cases ht
  have hheld : Tally.HeldBy s key none := hnone
  refine ⟨fun hlimit => exists_sledRun hlimit run, ?_⟩
  intro answers hrun
  have hsled := sledRun_tally hheld hsound halike hrun
  exact ⟨hsled.trans (redisRun_tally hsound halike).symm, hsled⟩

end Runs

/-! ### A count that is added to -/

def oneSecond : Ttl := ⟨1000000000, by decide⟩

/-- A count of a second, added to with what is left of it, and read before and behind its end. -/
def sameEnd : List (UInt64 × CounterCall) :=
  [(1000, .count 1 oneSecond), (1400, .count 2 ⟨600000000, by decide⟩), (1900, .counted), (2100, .counted)]

/-- A count that every call gives the same end is the same count on both backends. -/
theorem counts_alike_sameEnd :
    ∃ answers, SledRun countKey (.opened .none) sameEnd answers ∧ answers = redisRun ⟨true⟩ none sameEnd ∧
      answers = [.total 1, .total 3, .counted (some 3), .counted none] := by
  obtain ⟨hreturns, hanswers⟩ := @counts_alike ⟨true⟩ sameEnd countKey (.opened .none) rfl (by decide +kernel)
  obtain ⟨answers, hrun⟩ := hreturns rfl
  obtain ⟨hredis, htally⟩ := hanswers answers hrun
  exact ⟨answers, hrun, hredis, htally.trans (by decide +kernel)⟩

/-- Runs calls on a key one after the other, with the number of steps each takes. -/
def sledAnswers (key : CacheKey) : SledCache → List ((UInt64 × CounterCall) × ℕ) → Option (List Answer)
  | _, [] => some []
  | s, ((now, call), steps) :: rest =>
    (answered (Quiet key now) s (call.onSled key) (List.replicate steps ⟨now, 0⟩)).bind fun r =>
      (sledAnswers key r.1 rest).map (r.2 :: ·)

theorem sledRun_of_sledAnswers {key : CacheKey} {s : SledCache} {run : List ((UInt64 × CounterCall) × ℕ)}
    {answers : List Answer} (h : sledAnswers key s run = some answers) :
    SledRun key s (run.map Prod.fst) answers := by
  induction run generalizing s answers with
  | nil =>
    cases h
    exact .nil s
  | cons first rest ih =>
    obtain ⟨⟨now, call⟩, steps⟩ := first
    obtain ⟨⟨s', answer⟩, hfirst, hrest⟩ := Option.bind_eq_some_iff.mp h
    obtain ⟨later, hlater, rfl⟩ := Option.map_eq_some_iff.mp hrest
    exact .cons (carried_of_answered hfirst) (ih hlater)

/-- A count of a second, added to for another second, and read behind the first. -/
def addedTo : List (UInt64 × CounterCall) :=
  [(1000, .count 1 oneSecond), (1900, .count 1 oneSecond), (2200, .counted)]

/-- **A count that is added to outlives its end** on the standalone backend, and not on the cluster backend. -/
theorem count_outlives :
    SledRun countKey (.opened .none) addedTo [.total 1, .total 2, .counted (some 2)] ∧
      redisRun ⟨true⟩ none addedTo = [.total 1, .total 2, .counted none] ∧
      redisRun ⟨false⟩ none addedTo = [.total 1, .total 2, .counted none] := by
  refine ⟨?_, by decide +kernel, by decide +kernel⟩
  exact @sledRun_of_sledAnswers countKey (.opened .none) (addedTo.zip [4, 4, 1]) _ (by decide)

end IntelliPrism.Cache
