import IntelliPrism.Cache.Accounting
import IntelliPrism.Cache.Claims

/-!
# What stays in a level that is not limited

An empty entry with a ttl is how something is remembered: a nonce that was spent, a session that was ended,
a wrong passphrase that counts.  A level without a limit evicts nothing, so such an entry goes only by its
own key: it is removed, it runs out, or something that runs out sooner is put in its place.

* `Carried` — one call run from its first step to its return;
* `Holds` — a key holds an empty entry that runs out no sooner than a moment;
* `Spares` — the calls that leave such an entry be, with readings of the clock before that moment;
* `step_keeps`, `carried_keeps` — **they keep it**, step by step and call by call;
* `claim_loses`, `get_finds` — and while it is kept a claim loses and a get finds it;
* `holds_of_carried` — an entry that was put, or claimed and won, is held until its ttl has passed.
-/

namespace IntelliPrism.Cache

open IntelliPrism.Lib

/-- One call runs alone from its first step to its return, and answers this. -/
def Carried (C : Guard Clock SledCache Thread) (call : Call) (s s' : SledCache) (answer : Answer) :
    Prop := Pool.Reach step C ⟨s, [.new call]⟩ ⟨s', [⟨call, .done answer⟩]⟩

theorem Carried.completed {C : Guard Clock SledCache Thread} {call : Call} {s s' : SledCache}
    {answer : Answer} (h : Carried C call s s' answer) : Completed C s s' := ⟨call, answer, h⟩

theorem Carried.weaken {C C' : Guard Clock SledCache Thread} {call : Call} {s s' : SledCache}
    {answer : Answer} (h : Carried C call s s' answer)
    (hC : ∀ p t clock, t.call = call → C p t clock → C' p t clock) : Carried C' call s s' answer := by
  refine h.strengthen (I := fun q => ∀ t ∈ q.threads, t.call = call) ?_ ?_
  · intro t ht
    rw [List.mem_singleton.mp ht]
    rfl
  · intro s pre t post clock s' t' hI hguard hstep
    have hcall := hI t (List.mem_append_right _ (List.mem_cons_self ..))
    refine ⟨hC _ t clock hcall hguard, fun u hu => ?_⟩
    rcases List.mem_append.mp hu with hu | hu
    · exact hI u (List.mem_append_left _ hu)
    · rcases List.mem_cons.mp hu with rfl | hu
      · exact (step_call hstep).trans hcall
      · exact hI u (List.mem_append_right _ (List.mem_cons_of_mem _ hu))

/-- **One call, step by step**: what holds as it starts and survives its steps holds as it returns. -/
theorem Carried.ends {C : Guard Clock SledCache Thread} {call : Call} {s s' : SledCache} {answer : Answer}
    {A : SledCache → Pc → Prop} (h : Carried C call s s' answer) (hA : A s .start)
    (hstep : ∀ s pc clock s' t', A s pc → C ⟨s, [⟨call, pc⟩]⟩ ⟨call, pc⟩ clock →
      step clock s ⟨call, pc⟩ = some (s', t') → A s' t'.pc) : A s' (.done answer) := by
  refine (h.solo_ends (A := fun s t => t.call = call ∧ A s t.pc) ⟨rfl, hA⟩ ?_).2
  intro s t clock s' t' hold hC hmoves
  obtain ⟨call', pc⟩ := t
  obtain ⟨rfl, hpc⟩ := hold
  exact ⟨step_call hmoves, hstep s pc clock s' t' hpc hC hmoves⟩

/-- Runs one call alone, a clock reading for each of its steps; nothing unless it returned. -/
def answered (C : Guard Clock SledCache Thread) [∀ p t x, Decidable (C p t x)] (s : SledCache)
    (call : Call) (clocks : List Clock) : Option (SledCache × Answer) :=
  (Pool.run step C ⟨s, [.new call]⟩ (clocks.map (0, ·))).bind fun q =>
    match q.threads with
    | [⟨_, .done answer⟩] => some (q.shared, answer)
    | _ => none

theorem carried_of_answered {C : Guard Clock SledCache Thread} [∀ p t x, Decidable (C p t x)]
    {s s' : SledCache} {call : Call} {clocks : List Clock} {answer : Answer}
    (h : answered C s call clocks = some (s', answer)) : Carried C call s s' answer := by
  obtain ⟨q, hrun, hq⟩ := Option.bind_eq_some_iff.mp h
  have hreach := Pool.reach_of_run hrun
  obtain ⟨s₁, pc₁, rfl⟩ := eq_of_reach_alone hreach
  cases pc₁ <;> simp only [reduceCtorEq, Option.some.injEq, Prod.mk.injEq] at hq
  obtain ⟨rfl, rfl⟩ := hq
  exact hreach

/-- The moment an entry written at `now` with this ttl runs out. -/
def expiryOf (ttl : Option Ttl) (now : UInt64) : UInt64 :=
  match ttl with
  | some ttl => saturatingAdd now (saturate ttl.millis)
  | none => never

theorem entry_nil (ttl : Option Ttl) (now : UInt64) : entry [] ttl now = toBeBytes (expiryOf ttl now) :=
  List.append_nil _

/-- An entry that is empty and runs out no sooner than a moment. -/
def Lasts (moment : UInt64) (entry : Bytes) : Prop :=
  ∃ expires, moment ≤ expires ∧ entry = toBeBytes expires

/-- The key holds an empty entry that runs out no sooner than a moment. -/
def Holds (key : CacheKey) (moment : UInt64) (s : SledCache) : Prop :=
  ∃ expires, moment ≤ expires ∧ s.entries[key.bytes]? = some (toBeBytes expires)

/-- A call that, on a key, removes nothing, and puts only an empty entry that runs out no sooner than a
moment. -/
def Call.Spares (moment : UInt64) (pc : Pc) (clock : Clock) : Call → Prop
  | .remove _ => False
  | .put _ value ttl => value = [] ∧ (pc = .start → moment ≤ expiryOf ttl clock.millis)
  | _ => True

instance (moment : UInt64) (pc : Pc) (clock : Clock) (call : Call) :
    Decidable (call.Spares moment pc clock) := by
  cases call <;> unfold Call.Spares <;> infer_instance

/-- The clock reads before a moment, and a call on the key spares what runs out no sooner. -/
def Spares (key : CacheKey) (moment : UInt64) : Guard Clock SledCache Thread := fun _ t clock =>
  clock.millis < moment ∧ (t.call.key = key → t.call.Spares moment t.pc clock)

instance (key : CacheKey) (moment : UInt64) (p : Pool SledCache Thread) (t : Thread) (clock : Clock) :
    Decidable (Spares key moment p t clock) :=
  inferInstanceAs (Decidable (_ ∧ (_ → _)))

/-- Where a call on a key that holds an empty live entry stands. -/
def Finds (moment : UInt64) : Call → Pc → Prop
  | _, .start => True
  | .get _, .touching value | .get _, .stamping value _ => value = []
  | .get _, .done answer => answer = .value (some [])
  | .claim _ _, .claiming _ => True
  | .claim _ _, .done answer => answer = .claimed false
  | .put _ _ _, .writing entry _ => Lasts moment entry
  | .put _ _ _, .evicting _ | .put _ _ _, .done _ => True
  | .counting _ _ _, .done _ | .counted _, .done _ => True
  | _, _ => False

section Steps

variable {key : CacheKey} {moment : UInt64} {clock : Clock} {s s' : SledCache} {t t' : Thread}

theorem valueOf_held {expires now : UInt64} (hle : moment ≤ expires) (hnow : now < moment) :
    valueOf (toBeBytes expires) now = some [] := by
  have hstamped := valueOf_stamped expires now []
  rw [List.append_nil] at hstamped
  rw [hstamped, if_pos (UInt64.lt_of_lt_of_le hnow hle)]

/-- A call on another key drops nothing of an unlimited level but its own. -/
theorem other_step_level (ht : Staged t) (hkey : t.call.key ≠ key)
    (hunlimited : t.level = key.level → t.pc.unlimited = true) (h : step clock s t = some (s', t')) :
    s'.entries[key.bytes]? = s.entries[key.bytes]? := by
  by_cases hlevel : t.level = key.level
  · exact other_step hkey (hunlimited hlevel) h
  · have hne : t.key ≠ key.bytes := CacheKey.bytes_injective.ne hkey
    cases step_effect h with
    | still => rfl
    | swap entry _ => exact getElem?_insert_ne _ _ hne
    | write entry _ => exact getElem?_insert_ne _ _ hne
    | touch stamped _ => rfl
    | drop dropped hdrop =>
      obtain ⟨k, rfl, hk⟩ := ht.evicts dropped hdrop
      refine SledCache.dropEntry_entries_ne s _ (CacheKey.bytes_injective.ne fun heq => hlevel ?_)
      rw [← hk, heq]

theorem get_step {pc : Pc} (hs : Holds key moment s) (hnow : clock.millis < moment)
    (ht : Finds moment (.get key) pc) (h : step clock s ⟨.get key, pc⟩ = some (s', t')) :
    Holds key moment s' ∧ Finds moment t'.call t'.pc := by
  obtain ⟨expires, hle, hentry⟩ := hs
  have hlive := valueOf_held hle hnow
  cases pc <;> simp only [Finds] at ht <;> try exact ht.elim
  case start =>
    simp only [step, startStep, SledCache.getRead, hentry, hlive, Option.map_some, Option.some.injEq,
      Prod.mk.injEq] at h
    obtain ⟨rfl, rfl⟩ := h
    refine ⟨⟨expires, hle, hentry⟩, ?_⟩
    show Finds moment (.get key) (if s.limits.any then _ else _)
    split <;> rfl
  case touching value =>
    simp only [step, Option.map_some, Option.some.injEq, Prod.mk.injEq] at h
    obtain ⟨rfl, rfl⟩ := h
    refine ⟨⟨expires, hle, hentry⟩, ?_⟩
    simp only [SledCache.touchRead]
    repeat' split
    all_goals simp [Finds, ht]
  case stamping value stamped =>
    simp only [step, Option.map_some, Option.some.injEq, Prod.mk.injEq] at h
    obtain ⟨rfl, rfl⟩ := h
    exact ⟨⟨expires, hle, hentry⟩, by simp [Finds, ht]⟩
  case done answer => cases h

theorem claim_held_step {pc : Pc} {ttl : Option Ttl} (hs : Holds key moment s)
    (hnow : clock.millis < moment) (ht : Finds moment (.claim key ttl) pc)
    (h : step clock s ⟨.claim key ttl, pc⟩ = some (s', t')) :
    Holds key moment s' ∧ Finds moment t'.call t'.pc := by
  obtain ⟨expires, hle, hentry⟩ := hs
  have hlive := valueOf_held hle hnow
  cases pc <;> simp only [Finds] at ht <;> try exact ht.elim
  case start =>
    cases h
    exact ⟨⟨expires, hle, hentry⟩, trivial⟩
  case claiming entry =>
    have hkey : (Thread.mk (.claim key ttl) (.claiming entry)).key = key.bytes := rfl
    simp only [step, SledCache.claimRead, hkey, hentry, hlive, Option.isSome_some, if_true,
      Option.map_some, Option.some.injEq, Prod.mk.injEq] at h
    obtain ⟨rfl, rfl⟩ := h
    exact ⟨⟨expires, hle, hentry⟩, rfl⟩
  case done answer => cases h

theorem put_step {pc : Pc} {value : Bytes} {ttl : Option Ttl} (hlimit : s.limits.of key.level = none)
    (hs : Holds key moment s) (hspares : (Call.put key value ttl).Spares moment pc clock)
    (ht : Finds moment (.put key value ttl) pc)
    (h : step clock s ⟨.put key value ttl, pc⟩ = some (s', t')) :
    Holds key moment s' ∧ Finds moment t'.call t'.pc := by
  cases pc <;> simp only [Finds] at ht <;> try exact ht.elim
  case start =>
    cases h
    obtain ⟨rfl, hlater⟩ := hspares
    exact ⟨hs, _, hlater rfl, entry_nil ttl clock.millis⟩
  case writing entry answer =>
    cases h
    obtain ⟨later, hlater, rfl⟩ := ht
    exact ⟨⟨later, hlater, Std.ExtTreeMap.getElem?_insert_self⟩, trivial⟩
  case evicting answer =>
    have hread : s.evictRead key.level answer = .done answer := by
      simp only [SledCache.evictRead, hlimit]
    have hlevel : (Thread.mk (.put key value ttl) (.evicting answer)).level = key.level := rfl
    simp only [step, hlevel, hread, Option.map_some, Option.some.injEq, Prod.mk.injEq] at h
    obtain ⟨rfl, rfl⟩ := h
    exact ⟨hs, trivial⟩
  case done answer => cases h

theorem counting_step {pc : Pc} {ttl : Ttl} {next : Next} (hs : Holds key moment s)
    (hnow : clock.millis < moment) (ht : Finds moment (.counting key ttl next) pc)
    (h : step clock s ⟨.counting key ttl next, pc⟩ = some (s', t')) :
    Holds key moment s' ∧ Finds moment t'.call t'.pc := by
  obtain ⟨expires, hle, hentry⟩ := hs
  have hlive := valueOf_held hle hnow
  cases pc <;> simp only [Finds] at ht <;> try exact ht.elim
  case start =>
    simp only [step, startStep, SledCache.countRead, hentry, Option.bind_some, hlive,
      show countOf [] = .error _ from rfl, Option.map_some, Option.some.injEq, Prod.mk.injEq] at h
    obtain ⟨rfl, rfl⟩ := h
    exact ⟨⟨expires, hle, hentry⟩, trivial⟩
  case done answer => cases h

theorem counted_step {pc : Pc} (hs : Holds key moment s) (hnow : clock.millis < moment)
    (ht : Finds moment (.counted key) pc) (h : step clock s ⟨.counted key, pc⟩ = some (s', t')) :
    Holds key moment s' ∧ Finds moment t'.call t'.pc := by
  obtain ⟨expires, hle, hentry⟩ := hs
  have hlive := valueOf_held hle hnow
  cases pc <;> simp only [Finds] at ht <;> try exact ht.elim
  case start =>
    simp only [step, startStep, SledCache.countedRead, hentry, Option.bind_some, hlive,
      show countOf [] = .error _ from rfl, Option.map_some, Option.some.injEq, Prod.mk.injEq] at h
    obtain ⟨rfl, rfl⟩ := h
    exact ⟨⟨expires, hle, hentry⟩, trivial⟩
  case done answer => cases h

/-- **A call on the key leaves what it holds**, or puts something that runs out no sooner. -/
theorem own_step {pool : List Thread} (hlimit : s.limits.of key.level = none)
    (hs : Holds key moment s) (hkey : t.call.key = key) (ht : Finds moment t.call t.pc)
    (hC : Spares key moment ⟨s, pool⟩ t clock) (h : step clock s t = some (s', t')) :
    Holds key moment s' ∧ Finds moment t'.call t'.pc := by
  obtain ⟨call, pc⟩ := t
  obtain ⟨hnow, hspares⟩ := hC
  specialize hspares hkey
  cases call with
  | get k =>
    obtain rfl : k = key := hkey
    exact get_step hs hnow ht h
  | put k value ttl =>
    obtain rfl : k = key := hkey
    exact put_step hlimit hs hspares ht h
  | claim k ttl =>
    obtain rfl : k = key := hkey
    exact claim_held_step hs hnow ht h
  | remove k => exact hspares.elim
  | counting k ttl next =>
    obtain rfl : k = key := hkey
    exact counting_step hs hnow ht h
  | counted k =>
    obtain rfl : k = key := hkey
    exact counted_step hs hnow ht h

/-- What a call that runs alone keeps, beside what it keeps of the index. -/
structure Keeps (key : CacheKey) (moment : UInt64) (limits : LevelLimits) (s : SledCache) (t : Thread) :
    Prop where
  limits_eq : s.limits = limits
  indexed : Indexed s
  staged : Staged t
  holds : Holds key moment s
  finds : t.call.key = key → Finds moment t.call t.pc
  unlimited : t.level = key.level → t.pc.unlimited = true

/-- **One step keeps what the key holds.** -/
theorem step_keeps {limits : LevelLimits} {pool : List Thread} (hlimit : limits.of key.level = none)
    (hs : Keeps key moment limits s t) (hC : Spares key moment ⟨s, pool⟩ t clock)
    (h : step clock s t = some (s', t')) : Keeps key moment limits s' t' := by
  have hcall := step_call h
  have hunlimited : t'.level = key.level → t'.pc.unlimited = true := by
    intro hlevel
    have hlevel : t.level = key.level := by rw [← hlevel, Thread.level, Thread.level, hcall]
    refine step_unlimited ?_ (hs.unlimited hlevel) h
    rw [hlevel, hs.limits_eq, hlimit]
  have hframe : Holds key moment s' ∧ (t'.call.key = key → Finds moment t'.call t'.pc) := by
    by_cases hkey : t.call.key = key
    · rw [← hs.limits_eq] at hlimit
      obtain ⟨hholds, hfinds⟩ := own_step hlimit hs.holds hkey (hs.finds hkey) hC h
      exact ⟨hholds, fun _ => hfinds⟩
    · obtain ⟨expires, hle, hentry⟩ := hs.holds
      refine ⟨⟨expires, hle, ?_⟩, fun hkey' => absurd (hcall ▸ hkey') hkey⟩
      rw [other_step_level hs.staged hkey hs.unlimited h, hentry]
  exact ⟨(step_limits h).trans hs.limits_eq, step_indexed hs.indexed hs.staged h,
    step_staged hs.indexed h, hframe.1, hframe.2, hunlimited⟩

end Steps

/-! ### Calls -/

section Calls

variable {key : CacheKey} {moment : UInt64} {s s' : SledCache} {call : Call} {answer : Answer}

/-- **One call keeps what the key holds**, and finds it when it is on the key. -/
theorem carried_keeps (hlimit : s.limits.of key.level = none) (hindexed : Indexed s)
    (hs : Holds key moment s) (h : Carried (Spares key moment) call s s' answer) :
    Keeps key moment s.limits s' ⟨call, .done answer⟩ := by
  refine h.solo_ends (A := Keeps key moment s.limits) ?_ ?_
  · exact ⟨rfl, hindexed, staged_plain rfl, hs, fun _ => by cases call <;> trivial, fun _ => rfl⟩
  · intro s t clock s' t' hA hC hstep
    exact step_keeps hlimit hA hC hstep

theorem carried_holds (hlimit : s.limits.of key.level = none) (hindexed : Indexed s)
    (hs : Holds key moment s) (h : Carried (Spares key moment) call s s' answer) :
    s'.limits = s.limits ∧ Indexed s' ∧ Holds key moment s' := by
  have hkeeps := carried_keeps hlimit hindexed hs h
  exact ⟨hkeeps.limits_eq, hkeeps.indexed, hkeeps.holds⟩

/-- **A history of such calls keeps what the key holds.** -/
theorem history_keeps (hlimit : s.limits.of key.level = none) (hindexed : Indexed s)
    (hs : Holds key moment s) (h : History (Spares key moment) s s') :
    s'.limits = s.limits ∧ Indexed s' ∧ Holds key moment s' := by
  induction h with
  | refl => exact ⟨rfl, hindexed, hs⟩
  | tail _ hlast ih =>
    obtain ⟨hlimits, hindexed, hholds⟩ := ih
    obtain ⟨call, answer, hcall⟩ := hlast
    rw [← hlimits] at hlimit
    obtain ⟨hlimits', hindexed', hholds'⟩ := carried_holds hlimit hindexed hholds hcall
    exact ⟨hlimits'.trans hlimits, hindexed', hholds'⟩

theorem claim_loses {ttl : Option Ttl} (hlimit : s.limits.of key.level = none) (hindexed : Indexed s)
    (hs : Holds key moment s) (h : Carried (Spares key moment) (.claim key ttl) s s' answer) :
    answer = .claimed false := (carried_keeps hlimit hindexed hs h).finds rfl

theorem get_finds (hlimit : s.limits.of key.level = none) (hindexed : Indexed s)
    (hs : Holds key moment s) (h : Carried (Spares key moment) (.get key) s s' answer) :
    answer = .value (some []) := (carried_keeps hlimit hindexed hs h).finds rfl

/-! ### What is written is held -/

/-- The calls that write an empty entry under a key. -/
def Call.Marks (key : CacheKey) (ttl : Option Ttl) (call : Call) : Prop :=
  call = .put key [] ttl ∨ call = .claim key ttl

/-- Where such a call stands, and what it carries or has written there. -/
def Brings (key : CacheKey) (moment : UInt64) (s : SledCache) : Pc → Prop
  | .start => True
  | .claiming entry | .claimSwap entry _ | .writing entry _ => Lasts moment entry
  | .evicting _ => Holds key moment s
  | .done answer => answer = .claimed false ∨ Holds key moment s
  | _ => False

/-- **One step of a call that marks a key.** -/
theorem step_brings {ttl : Option Ttl} {clock : Clock} {t t' : Thread}
    (hlimit : s.limits.of key.level = none) (hcall : t.call.Marks key ttl)
    (ht : Brings key moment s t.pc) (hstart : t.pc = .start → moment ≤ expiryOf ttl clock.millis)
    (h : step clock s t = some (s', t')) : Brings key moment s' t'.pc := by
  obtain ⟨call, pc⟩ := t
  have hkey : call.key = key := by rcases hcall with rfl | rfl <;> rfl
  cases pc <;> simp only [Brings] at ht <;> try exact ht.elim
  case start =>
    rcases hcall with rfl | rfl <;> cases h <;> exact ⟨_, hstart rfl, entry_nil ttl clock.millis⟩
  case claiming entry =>
    simp only [step, SledCache.claimRead, Option.map_some, Option.some.injEq, Prod.mk.injEq] at h
    obtain ⟨rfl, rfl⟩ := h
    split
    · split
      · exact .inl rfl
      · exact ht
    · exact ht
  case claimSwap entry held =>
    simp only [step, swapStep, Option.map_some, Option.some.injEq, Prod.mk.injEq] at h
    obtain ⟨-, rfl⟩ := h
    split <;> exact ht
  case writing entry answer =>
    cases h
    obtain ⟨expires, hle, rfl⟩ := ht
    refine ⟨expires, hle, ?_⟩
    show (s.entries.insert call.key.bytes _)[key.bytes]? = _
    rw [hkey, Std.ExtTreeMap.getElem?_insert_self]
  case evicting answer =>
    have hread : s.evictRead call.key.level answer = .done answer := by
      simp only [SledCache.evictRead, hkey, hlimit]
    have hlevel : (Thread.mk call (.evicting answer)).level = call.key.level := rfl
    simp only [step, hlevel, hread, Option.map_some, Option.some.injEq, Prod.mk.injEq] at h
    obtain ⟨rfl, rfl⟩ := h
    exact .inr ht
  case done answer => cases h

/-- **What a call marks is held** as long as the ttl it is given by its first reading of the clock, unless
it is a claim that lost. -/
theorem holds_of_carried {C : Guard Clock SledCache Thread} {ttl : Option Ttl}
    (hlimit : s.limits.of key.level = none) (hmarks : call.Marks key ttl)
    (hC : ∀ p t clock, C p t clock → t.pc = .start → moment ≤ expiryOf ttl clock.millis)
    (h : Carried C call s s' answer) (hwon : answer ≠ .claimed false) : Holds key moment s' := by
  have hbrings := h.ends (A := fun s₁ pc => s₁.limits = s.limits ∧ Brings key moment s₁ pc) ⟨rfl, trivial⟩
    fun s₁ pc clock s₂ t' hA hstart hstep => ⟨(step_limits hstep).trans hA.1,
      step_brings (hA.1 ▸ hlimit) hmarks hA.2 (hC _ _ _ hstart) hstep⟩
  exact hbrings.2.resolve_left hwon

theorem carried_indexed {C : Guard Clock SledCache Thread} (hindexed : Indexed s)
    (h : Carried C call s s' answer) : s'.limits = s.limits ∧ Indexed s' := by
  obtain ⟨hlimits, hindexed, -⟩ := h.solo_ends
    (A := fun s₁ t => s₁.limits = s.limits ∧ Indexed s₁ ∧ Staged t) ⟨rfl, hindexed, staged_plain rfl⟩
    fun s₁ t clock s₂ t' hA _ hstep => ⟨(step_limits hstep).trans hA.1,
      step_indexed hA.2.1 hA.2.2 hstep, step_staged hA.2.1 hstep⟩
  exact ⟨hlimits, hindexed⟩

theorem history_indexed {C : Guard Clock SledCache Thread} (hindexed : Indexed s)
    (h : History C s s') : s'.limits = s.limits ∧ Indexed s' := by
  induction h with
  | refl => exact ⟨rfl, hindexed⟩
  | tail _ hlast ih =>
    obtain ⟨call, answer, hcall⟩ := hlast
    obtain ⟨hlimits, hindexed⟩ := carried_indexed ih.2 hcall
    exact ⟨hlimits.trans ih.1, hindexed⟩

end Calls

end IntelliPrism.Cache
