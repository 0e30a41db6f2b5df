import IntelliPrism.Lib.Interleaving
import IntelliPrism.Lib.Rounding
import IntelliPrism.Rules.Publication

/-!
# Publishing the rules: storage, the publication, and the calls between them

After a change the rules are read from storage and published; on a timer each node compares the two
revisions and publishes again when the publication is behind.  Reading and publishing are separate steps,
of any number of nodes, with commits in between.  On sled a publication is a read and then a swap, tried
again when the swap does not find what was read; on redis it is one script, which compares the revisions
as the script's own numbers.

* `step` — one step of a node's call, or one commit;
* `step_cases`, `step_effect` — **what a step can do**: nothing, one commit, or one publication of what a
  call carries;
* `Carries`, `Faithful` — what a call brings along, and that the publication is one storage held;
* `Distinguishes` — redis tells the revision a call brings from an older one that is published;
* `published_moves_forward` — in every interleaving whose scripts do, publications only move forward, are
  what storage held, and are as new as storage was when a call that succeeded began;
* `revision_taken_for_older` — without it a call succeeds and leaves the publication behind.
-/

namespace IntelliPrism.Rules

open IntelliPrism.Lib IntelliPrism.Core IntelliPrism.Cache

/-! ### The calls and their steps -/

/-- What a redis script makes of a decimal it is given.  The order is kept; two numbers may become one. -/
structure Lua where
  tonumber : RuleRevision → ℕ
  mono : ∀ a b, a ≤ b → tonumber a ≤ tonumber b

/-- The script: whether a publication lands, as it does when it is newer than what is there, and what the
hash then holds. -/
def Lua.publish (lua : Lua) (revision : RuleRevision) (value : Bytes) (hash : Option Published) :
    Bool × Option Published :=
  if hash.any fun current => lua.tonumber current.revision ≥ lua.tonumber revision then (false, hash)
  else (true, some ⟨revision, value⟩)

/-- Storage, and the publication in the cache. -/
structure World where
  store : Storage
  topic : Topic

/-- The two calls of a feed. -/
inductive Request where
  | publish
  | heal
  deriving DecidableEq

/-- What a call answers. -/
inductive Answer where
  | published (revision : RuleRevision)
  | healed (again : Bool)
  deriving DecidableEq

/-- What a call is about to ask of storage or of the cache, or what it returned. -/
inductive Pc where
  | ruleSet
  | ruleRevision
  | published (stored : RuleRevision)
  | publish (revision : RuleRevision) (value : Bytes)
  | swap (revision : RuleRevision) (value : Bytes) (current : Option Bytes)
  | returned (result : Except FeedError Answer)
  deriving DecidableEq

/-- Someone who changes the rules in storage, or a node: between calls, or in one.  A call remembers the
revision storage stood at when it began; no step reads that. -/
inductive Thread where
  | changing
  | idle
  | call (request : Request) (began : RuleRevision) (pc : Pc)
  deriving DecidableEq

/-- What a step is given: the change to commit, the call to begin, or how a call's next step goes.  A step
that fails does so before it took effect, or after, with only its answer lost. -/
inductive Input where
  | commit (revision : RuleRevision) (tables : Tables)
  | begin (request : Request)
  | go
  | fault (error : FeedError)
  | lost (error : FeedError)

def Request.first : Request → Pc
  | .publish => .ruleSet
  | .heal => .ruleRevision

/-- What a call answers once it has published, whether or not the cache kept what it held. -/
def Request.answer : Request → RuleRevision → Answer
  | .publish, revision => .published revision
  | .heal, _ => .healed true

variable (codec : Codec) (lua : Lua)

/-- The first step of a publication: the whole of it on redis, the read before the swap on sled. -/
def offer (request : Request) (revision : RuleRevision) (value : Bytes) : Topic → Topic × Pc
  | .sled stored =>
    match (Topic.sled stored).published with
    | .error error => (.sled stored, .returned (.error (.cache error)))
    | .ok current =>
      if current.any fun current => current.revision ≥ revision then
        (.sled stored, .returned (.ok (request.answer revision)))
      else (.sled stored, .swap revision value stored)
  | .redis hash => (.redis (lua.publish revision value hash).2, .returned (.ok (request.answer revision)))

/-- The swap on sled, which lands on what was read and otherwise starts over. -/
def swapIn (request : Request) (revision : RuleRevision) (value : Bytes) (current : Option Bytes) :
    Topic → Topic × Pc
  | .sled stored =>
    if stored = current then
      (.sled (some (encode revision value)), .returned (.ok (request.answer revision)))
    else (.sled stored, .publish revision value)
  | .redis hash => (.redis hash, .publish revision value)

/-- One step of a call that goes well. -/
def advance (w : World) (request : Request) : Pc → Option (World × Pc)
  | .ruleSet =>
    match codec.toVec (Snapshot.of w.store.ruleSet.toTables) with
    | none => some (w, .returned (.error .encode))
    | some value => some (w, .publish w.store.ruleSet.revision value)
  | .ruleRevision => some (w, .published w.store.ruleRevision)
  | .published stored =>
    match w.topic.published with
    | .error error => some (w, .returned (.error (.cache error)))
    | .ok published =>
      if published.any fun published => published.revision ≥ stored then
        some (w, .returned (.ok (.healed false)))
      else some (w, .ruleSet)
  | .publish revision value =>
    let (topic, pc) := offer lua request revision value w.topic
    some ({ w with topic }, pc)
  | .swap revision value current =>
    let (topic, pc) := swapIn request revision value current w.topic
    some ({ w with topic }, pc)
  | .returned _ => none

def step : Program Input World Thread := fun x w t =>
  match t, x with
  | .changing, .commit revision tables =>
    (w.store.commit revision tables).map fun store => ({ w with store }, .changing)
  | .idle, .begin request => some (w, .call request w.store.ruleRevision request.first)
  | .call _ _ (.returned _), .begin request => some (w, .call request w.store.ruleRevision request.first)
  | .call request began pc, .go =>
    (advance codec lua w request pc).map fun r => (r.1, .call request began r.2)
  | .call request began pc, .fault error =>
    (advance codec lua w request pc).map fun _ => (w, .call request began (.returned (.error error)))
  | .call request began pc, .lost error =>
    (advance codec lua w request pc).map fun r => (r.1, .call request began (.returned (.error error)))
  | _, _ => none

/-! ### What a step can do -/

/-- A value that was written from what storage held at a revision. -/
def WrittenAt (store : Storage) (revision : RuleRevision) (value : Bytes) : Prop :=
  ∃ tables, store.Held revision tables ∧ codec.toVec (Snapshot.of tables) = some value

/-- What is published is at or past a revision. -/
def AsNewAs (topic : Topic) (revision : RuleRevision) : Prop :=
  ∃ published, topic.published = .ok (some published) ∧ revision ≤ published.revision

/-- What is published is older than a revision, or there is nothing. -/
def OlderThan (topic : Topic) (revision : RuleRevision) : Prop :=
  ∃ published, topic.published = .ok published ∧ ∀ old ∈ published, old.revision < revision

/-- What a call that stands here brings along. -/
def Carries (store : Storage) : Thread → Prop
  | .call _ began pc =>
    began ≤ store.version ∧
    match pc with
    | .published stored => began ≤ stored
    | .publish revision value => began ≤ revision ∧ WrittenAt codec store revision value
    | .swap revision value current =>
      began ≤ revision ∧ WrittenAt codec store revision value ∧ OlderThan (.sled current) revision
    | _ => True
  | _ => True

/-- Nothing is published, or something storage held at the revision it is published at. -/
def Faithful (w : World) : Prop :=
  ∃ published, w.topic.published = .ok published ∧
    ∀ now ∈ published, WrittenAt codec w.store now.revision now.value

/-- A call that succeeded left the publication as new as storage was when the call began. -/
def Served (topic : Topic) : Thread → Prop
  | .call _ began (.returned (.ok _)) => AsNewAs topic began
  | _ => True

/-- Nothing, a commit, or a publication of something newer that storage held. -/
inductive Effect (w : World) : World → Prop where
  | none : Effect w w
  | commit {store : Storage} (continues : w.store.Continues store) : Effect w { w with store }
  | land {topic : Topic} {now : Published} (older : OlderThan w.topic now.revision)
      (written : WrittenAt codec w.store now.revision now.value)
      (published : topic.published = .ok (some now)) : Effect w { w with topic }

section Effects

variable {codec lua} {w w' : World} {t t' : Thread} {x : Input} {request : Request}
  {began revision : RuleRevision} {pc pc' : Pc}

theorem WrittenAt.continues {store store' : Storage} {value : Bytes}
    (h : WrittenAt codec store revision value) (hcont : store.Continues store') :
    WrittenAt codec store' revision value := by
  obtain ⟨tables, hheld, hvec⟩ := h
  exact ⟨tables, hcont.held _ _ hheld, hvec⟩

theorem Effect.continues (h : Effect codec w w') : w.store.Continues w'.store := by
  cases h with
  | none => exact .refl _
  | commit hcont => exact hcont
  | land _ _ _ => exact .refl _

theorem Effect.faithful (h : Effect codec w w') (hw : Faithful codec w) : Faithful codec w' := by
  cases h with
  | none => exact hw
  | commit hcont =>
    obtain ⟨published, hpub, hwritten⟩ := hw
    exact ⟨published, hpub, fun now hnow => (hwritten now hnow).continues hcont⟩
  | land _ written hpub =>
    refine ⟨_, hpub, ?_⟩
    intro now hnow
    cases hnow
    exact written

/-- **The publication never goes back.** -/
theorem Effect.asNewAs (h : Effect codec w w') (hw : AsNewAs w.topic revision) :
    AsNewAs w'.topic revision := by
  cases h with
  | none => exact hw
  | commit _ => exact hw
  | land older _ hpub =>
    obtain ⟨old, hold, hle⟩ := hw
    obtain ⟨published, hbefore, holder⟩ := older
    rw [hold] at hbefore
    cases hbefore
    have hlt := holder old rfl
    exact ⟨_, hpub, Std.le_of_lt (Std.lt_of_le_of_lt hle hlt)⟩

theorem Effect.served (h : Effect codec w w') (ht : Served w.topic t) : Served w'.topic t := by
  unfold Served at ht ⊢
  split
  · exact h.asNewAs ht
  · trivial

theorem Carries.continues {store store' : Storage} (h : Carries codec store t)
    (hcont : store.Continues store') : Carries codec store' t := by
  cases t with
  | changing => trivial
  | idle => trivial
  | call request began pc =>
    obtain ⟨hbegan, hpc⟩ := h
    refine ⟨Std.le_trans hbegan hcont.version, ?_⟩
    cases pc with
    | published stored => exact hpc
    | publish revision value => exact ⟨hpc.1, hpc.2.continues hcont⟩
    | swap revision value current => exact ⟨hpc.1, hpc.2.1.continues hcont, hpc.2.2⟩
    | ruleSet => trivial
    | ruleRevision => trivial
    | returned result => trivial

theorem olderThan_of_not_any {topic : Topic} {published : Option Published}
    (hpub : topic.published = .ok published)
    (h : ¬(published.any fun current => current.revision ≥ revision) = true) : OlderThan topic revision := by
  refine ⟨published, hpub, ?_⟩
  rintro old rfl
  simpa using h

theorem asNewAs_of_any {topic : Topic} {published : Option Published}
    (hpub : topic.published = .ok published)
    (h : (published.any fun current => current.revision ≥ revision) = true) : AsNewAs topic revision := by
  obtain ⟨now, rfl, hle⟩ := (Option.any_eq_true _ _).mp h
  exact ⟨now, hpub, by simpa using hle⟩

theorem offer_effect {value : Bytes} (hbegan : began ≤ revision) (hle : began ≤ w.store.version)
    (hwritten : WrittenAt codec w.store revision value) :
    Effect codec w { w with topic := (offer lua request revision value w.topic).1 } ∧
      Carries codec w.store (.call request began (offer lua request revision value w.topic).2) := by
  obtain ⟨store, topic⟩ := w
  cases topic with
  | sled stored =>
    simp only [offer]
    split
    · exact ⟨.none, hle, trivial⟩
    · rename_i current hcurrent
      split
      · exact ⟨.none, hle, trivial⟩
      · rename_i hany
        exact ⟨.none, hle, hbegan, hwritten, olderThan_of_not_any hcurrent hany⟩
  | redis hash =>
    simp only [offer, Lua.publish]
    split
    · exact ⟨.none, hle, trivial⟩
    · rename_i hany
      refine ⟨.land ⟨hash, rfl, ?_⟩ hwritten rfl, hle, trivial⟩
      -- a number that is not at or past another's was not at or past it before it was rounded
      rintro old rfl
      have hnot : ¬lua.tonumber revision ≤ lua.tonumber old.revision := by simpa using hany
      exact Std.not_le.mp fun hge => hnot (lua.mono _ _ hge)

theorem swapIn_effect {value : Bytes} {current : Option Bytes} (hbegan : began ≤ revision)
    (hle : began ≤ w.store.version) (hwritten : WrittenAt codec w.store revision value)
    (holder : OlderThan (.sled current) revision) :
    Effect codec w { w with topic := (swapIn request revision value current w.topic).1 } ∧
      Carries codec w.store (.call request began (swapIn request revision value current w.topic).2) := by
  obtain ⟨store, topic⟩ := w
  cases topic with
  | sled stored =>
    simp only [swapIn]
    split
    · rename_i hsame
      subst hsame
      exact ⟨.land holder hwritten (Topic.published_sled_encode revision value), hle, trivial⟩
    · exact ⟨.none, hle, hbegan, hwritten⟩
  | redis hash => exact ⟨.none, hle, hbegan, hwritten⟩

theorem advance_effect (hc : Carries codec w.store (.call request began pc))
    (h : advance codec lua w request pc = some (w', pc')) :
    Effect codec w w' ∧ Carries codec w.store (.call request began pc') := by
  obtain ⟨hbegan, hpc⟩ := hc
  cases pc with
  | ruleSet =>
    simp only [advance] at h
    split at h
    · cases h
      exact ⟨.none, hbegan, trivial⟩
    · rename_i value hvec
      cases h
      exact ⟨.none, hbegan, hbegan, _, w.store.held_now, hvec⟩
  | ruleRevision =>
    cases h
    exact ⟨.none, hbegan, hbegan⟩
  | published stored =>
    simp only [advance] at h
    split at h
    · cases h
      exact ⟨.none, hbegan, trivial⟩
    · split at h <;> cases h <;> exact ⟨.none, hbegan, trivial⟩
  | publish revision value =>
    cases h
    exact offer_effect hpc.1 hbegan hpc.2
  | swap revision value current =>
    cases h
    exact swapIn_effect hpc.1 hbegan hpc.2.1 hpc.2.2
  | returned result => cases h

theorem carries_first (store : Storage) (request : Request) :
    Carries codec store (.call request store.ruleRevision request.first) := by
  cases request <;> exact ⟨Std.le_refl _, trivial⟩

/-- A step is a commit, the beginning of a call, or a step of one, which may fail before or after it took
effect. -/
theorem step_cases (h : step codec lua x w t = some (w', t')) :
    (∃ store, w.store.Continues store ∧ w' = { w with store } ∧ t' = .changing) ∨
    (∃ request : Request, w' = w ∧ t' = .call request w.store.ruleRevision request.first) ∨
    (∃ request began pc next pc', t = .call request began pc ∧
      advance codec lua w request pc = some (next, pc') ∧
      (w' = next ∧ t' = .call request began pc' ∨
        (w' = w ∨ w' = next) ∧ ∃ error, t' = .call request began (.returned (.error error)))) := by
  unfold step at h
  split at h
  · obtain ⟨store, hcommit, heq⟩ := Option.map_eq_some_iff.mp h
    cases heq
    exact .inl ⟨store, Storage.commit_continues hcommit, rfl, rfl⟩
  · cases h
    exact .inr (.inl ⟨_, rfl, rfl⟩)
  · cases h
    exact .inr (.inl ⟨_, rfl, rfl⟩)
  · obtain ⟨⟨next, pc⟩, hadvance, heq⟩ := Option.map_eq_some_iff.mp h
    cases heq
    exact .inr (.inr ⟨_, _, _, next, pc, rfl, hadvance, .inl ⟨rfl, rfl⟩⟩)
  · obtain ⟨⟨next, pc⟩, hadvance, heq⟩ := Option.map_eq_some_iff.mp h
    cases heq
    exact .inr (.inr ⟨_, _, _, next, pc, rfl, hadvance, .inr ⟨.inl rfl, _, rfl⟩⟩)
  · obtain ⟨⟨next, pc⟩, hadvance, heq⟩ := Option.map_eq_some_iff.mp h
    cases heq
    exact .inr (.inr ⟨_, _, _, next, pc, rfl, hadvance, .inr ⟨.inr rfl, _, rfl⟩⟩)
  · cases h

/-- **What a step can do**: nothing, one commit, or one publication of what a call carries. -/
theorem step_effect (hc : Carries codec w.store t) (h : step codec lua x w t = some (w', t')) :
    Effect codec w w' ∧ Carries codec w'.store t' := by
  suffices heffect : Effect codec w w' ∧ Carries codec w.store t' from
    ⟨heffect.1, heffect.2.continues heffect.1.continues⟩
  obtain ⟨store, hcont, rfl, rfl⟩ | ⟨request, rfl, rfl⟩ |
    ⟨request, began, pc, next, pc', rfl, hadvance, hgoes⟩ := step_cases h
  · exact ⟨.commit hcont, trivial⟩
  · exact ⟨.none, carries_first _ request⟩
  · have heffect := advance_effect hc hadvance
    rcases hgoes with ⟨rfl, rfl⟩ | ⟨rfl | rfl, error, rfl⟩
    · exact heffect
    · exact ⟨.none, hc.1, trivial⟩
    · exact ⟨heffect.1, hc.1, trivial⟩

/-! ### Whole runs -/

/-- The revision a call is about to publish. -/
def Thread.brings : Thread → Option RuleRevision
  | .call _ _ (.publish revision _) => some revision
  | _ => none

/-- What redis holds; sled compares the revisions as they are. -/
def Topic.hash : Topic → Option Published
  | .sled _ => none
  | .redis hash => hash

variable (lua) in
/-- A script that is brought a newer revision than the published one reads it as a larger number. -/
def Distinguishes : Guard Input World Thread := fun p t _ =>
  ∀ revision ∈ t.brings, ∀ current ∈ p.shared.topic.hash,
    current.revision < revision → lua.tonumber current.revision < lua.tonumber revision

instance (p : Pool World Thread) (t : Thread) (x : Input) : Decidable (Distinguishes lua p t x) :=
  @Option.decidableForallMem _ _ (fun _ => p.shared.topic.hash.decidableForallMem) t.brings

theorem offer_served {topic : Topic} {value : Bytes} {answer : Answer} (hbegan : began ≤ revision)
    (htold : ∀ current ∈ topic.hash, current.revision < revision →
      lua.tonumber current.revision < lua.tonumber revision)
    (h : (offer lua request revision value topic).2 = .returned (.ok answer)) :
    AsNewAs (offer lua request revision value topic).1 began := by
  cases topic with
  | sled stored =>
    simp only [offer] at h ⊢
    split at h
    · cases h
    · rename_i current hcurrent
      split at h
      · rename_i hany
        obtain ⟨now, hnow, hle⟩ := asNewAs_of_any hcurrent hany
        rw [if_pos hany]
        exact ⟨now, hnow, Std.le_trans hbegan hle⟩
      · cases h
  | redis hash =>
    simp only [offer, Lua.publish]
    split
    · rename_i hany
      obtain ⟨current, rfl, hle⟩ := (Option.any_eq_true _ _).mp hany
      refine ⟨current, rfl, Std.le_trans hbegan (Std.not_lt.mp ?_)⟩
      intro hlt
      have hless := htold current rfl hlt
      have hnot : lua.tonumber revision ≤ lua.tonumber current.revision := by simpa using hle
      omega
    · exact ⟨_, rfl, hbegan⟩

theorem swapIn_served {topic : Topic} {value : Bytes} {current : Option Bytes} {answer : Answer}
    (hbegan : began ≤ revision)
    (h : (swapIn request revision value current topic).2 = .returned (.ok answer)) :
    AsNewAs (swapIn request revision value current topic).1 began := by
  cases topic with
  | sled stored =>
    simp only [swapIn] at h ⊢
    split at h
    · rename_i hsame
      rw [if_pos hsame]
      exact ⟨_, Topic.published_sled_encode revision value, hbegan⟩
    · cases h
  | redis hash => cases h

theorem advance_served {answer : Answer} (hc : Carries codec w.store (.call request began pc))
    (htold : Distinguishes lua ⟨w, []⟩ (.call request began pc) .go)
    (h : advance codec lua w request pc = some (w', .returned (.ok answer))) :
    AsNewAs w'.topic began := by
  obtain ⟨hbegan, hpc⟩ := hc
  cases pc with
  | ruleSet =>
    simp only [advance] at h
    split at h <;> cases h
  | ruleRevision => cases h
  | published stored =>
    simp only [advance] at h
    split at h
    · cases h
    · rename_i published hpub
      split at h
      · rename_i hany
        cases h
        obtain ⟨now, hnow, hle⟩ := asNewAs_of_any hpub hany
        exact ⟨now, hnow, Std.le_trans hpc hle⟩
      · cases h
  | publish revision value =>
    obtain ⟨hw, hreturned⟩ := Prod.mk.inj (Option.some.inj h)
    rw [← hw]
    exact offer_served hpc.1 (htold revision rfl) hreturned
  | swap revision value current =>
    obtain ⟨hw, hreturned⟩ := Prod.mk.inj (Option.some.inj h)
    rw [← hw]
    exact swapIn_served hpc.1 hreturned
  | returned result => cases h

theorem step_served {pre post : List Thread} (hc : Carries codec w.store t)
    (htold : Distinguishes lua ⟨w, pre ++ t :: post⟩ t x) (h : step codec lua x w t = some (w', t')) :
    Served w'.topic t' := by
  obtain ⟨store, -, -, rfl⟩ | ⟨request, -, rfl⟩ |
    ⟨request, began, pc, next, pc', rfl, hadvance, hgoes⟩ := step_cases h
  · trivial
  · cases request <;> trivial
  · rcases hgoes with ⟨rfl, rfl⟩ | ⟨-, error, rfl⟩
    · unfold Served
      split
      · rename_i heq
        cases heq
        exact advance_served hc htold hadvance
      · trivial
    · trivial

/-- What a run keeps, whatever the guard: every call carries what it says, and the publication is one
storage held. -/
theorem reach_carries {C : Guard Input World Thread} {p q : Pool World Thread}
    (h : Pool.Reach (step codec lua) C p q)
    (hp : Pool.Local (Faithful codec) (fun w => Carries codec w.store) p) :
    Pool.Local (Faithful codec) (fun w => Carries codec w.store) q := by
  refine h.local_invariant hp ?_
  intro w pre t post x w' t' hI _ hs
  obtain ⟨heffect, hcarries⟩ := step_effect (hI.2 t (by simp)) hs
  exact ⟨heffect.faithful hI.1, hcarries, fun u hu => hu.continues heffect.continues⟩

/-- **A run never takes the publication back.** -/
theorem reach_asNewAs {C : Guard Input World Thread} {p q : Pool World Thread}
    (h : Pool.Reach (step codec lua) C p q)
    (hp : Pool.Local (Faithful codec) (fun w => Carries codec w.store) p)
    (hnew : AsNewAs p.shared.topic revision) : AsNewAs q.shared.topic revision := by
  have hkept : Pool.Local (fun w => AsNewAs w.topic revision) (fun w => Carries codec w.store) q := by
    refine h.local_invariant ⟨hnew, hp.2⟩ ?_
    intro w pre t post x w' t' hI _ hs
    obtain ⟨heffect, hcarries⟩ := step_effect (hI.2 t (by simp)) hs
    exact ⟨heffect.asNewAs hI.1, hcarries, fun u hu => hu.continues heffect.continues⟩
  exact hkept.1

/-- In a run whose scripts tell revisions apart, every call that succeeded was served. -/
theorem reach_served {p q : Pool World Thread} (h : Pool.Reach (step codec lua) (Distinguishes lua) p q)
    (hp : ∀ t ∈ p.threads, Carries codec p.shared.store t ∧ Served p.shared.topic t) :
    ∀ t ∈ q.threads, Served q.shared.topic t := by
  have hkept : Pool.Local (fun _ => True)
      (fun w t => Carries codec w.store t ∧ Served w.topic t) q := by
    refine h.local_invariant ⟨trivial, hp⟩ ?_
    intro w pre t post x w' t' hI htold hs
    have hc := (hI.2 t (by simp)).1
    obtain ⟨heffect, hcarries⟩ := step_effect hc hs
    exact ⟨trivial, ⟨hcarries, step_served hc htold hs⟩,
      fun u hu => ⟨hu.1.continues heffect.continues, heffect.served hu.2⟩⟩
  exact fun t ht => (hkept.2 t ht).2

/-- What is published reads back as what storage held at that revision. -/
theorem Faithful.publishedRules (h : Faithful codec w) :
    ∃ set, publishedRules codec w.topic = .ok set ∧
      ∀ now ∈ set, w.store.heldAt now.revision = some now.toTables := by
  obtain ⟨published, hpub, hwritten⟩ := h
  cases published with
  | none =>
    refine ⟨none, ?_, fun _ hnow => nomatch hnow⟩
    rw [Rules.publishedRules, hpub]
  | some now =>
    obtain ⟨tables, hheld, hvec⟩ := hwritten now rfl
    refine ⟨some ⟨tables, now.revision⟩, ?_, ?_⟩
    · rw [Rules.publishedRules, hpub]
      show (readBack codec ⟨now.revision, now.value⟩).map some = _
      rw [readBack_written codec now.revision hvec]
      rfl
    · intro set hset
      cases hset
      exact History.heldAt_eq_some_iff.mpr hheld

end Effects

/-- A publication storage held, and no call under way. -/
structure Fresh (p : Pool World Thread) : Prop where
  faithful : Faithful codec p.shared
  quiet : ∀ t ∈ p.threads, t = .changing ∨ t = .idle

variable {codec lua}

theorem Fresh.carries {p : Pool World Thread} (h : Fresh codec p) :
    ∀ t ∈ p.threads, Carries codec p.shared.store t ∧ Served p.shared.topic t := by
  intro t ht
  rcases h.quiet t ht with rfl | rfl
  · exact ⟨trivial, trivial⟩
  · exact ⟨trivial, trivial⟩

/-- **Published rules only move forward and are always what storage held.**  In every interleaving of
commits with publish and heal calls, on sled, and on redis as long as its scripts tell the revision they
are brought from an older one: what is published never goes back, reads back as what storage held at that
revision, and once a call has succeeded is as new as storage was when that call began. -/
theorem published_moves_forward {start p q : Pool World Thread} (hstart : Fresh codec start)
    (hp : Pool.Reach (step codec lua) (Distinguishes lua) start p)
    (hq : Pool.Reach (step codec lua) (Distinguishes lua) p q) :
    (∀ old, p.shared.topic.published = .ok (some old) →
      ∃ new, q.shared.topic.published = .ok (some new) ∧ old.revision ≤ new.revision) ∧
    (∃ set, publishedRules codec q.shared.topic = .ok set ∧
      ∀ now ∈ set, q.shared.store.heldAt now.revision = some now.toTables) ∧
    (∀ request began answer, .call request began (.returned (.ok answer)) ∈ q.threads →
      ∃ now, q.shared.topic.published = .ok (some now) ∧ began ≤ now.revision) := by
  have hlocal := reach_carries hp ⟨hstart.faithful, fun t ht => (hstart.carries t ht).1⟩
  refine ⟨?_, ?_, ?_⟩
  · intro old hold
    exact reach_asNewAs hq hlocal ⟨old, hold, Std.le_refl _⟩
  · exact (reach_carries hq hlocal).1.publishedRules
  · intro request began answer hmem
    exact reach_served (hp.trans hq) hstart.carries _ hmem

/-! ### Scripts whose numbers are doubles -/

/-- Lua as redis runs it: every number is a double. -/
def doubles : Lua where
  tonumber revision := toDouble revision.toNat
  mono _ _ h := toDouble_mono (UInt64.le_iff_toNat_le.mp h)

theorem doubles_lt {a b : RuleRevision} (h : a < b) (hb : b ≤ 9007199254740992) :
    doubles.tonumber a < doubles.tonumber b := by
  have hlt : a.toNat < b.toNat := UInt64.lt_iff_toNat_lt.mp h
  have hle : b.toNat ≤ 9007199254740992 := UInt64.le_iff_toNat_le.mp hb
  show toDouble a.toNat < toDouble b.toNat
  rw [toDouble_of_lt (n := a.toNat) (by omega)]
  rcases Nat.lt_or_eq_of_le hle with hless | heq
  · rwa [toDouble_of_lt (by omega)]
  · have hself : toDouble 9007199254740992 = 9007199254740992 := by decide +kernel
    rw [heq] at hlt ⊢
    rwa [hself]

/-- Storage stands at a revision a double holds exactly. -/
def ExactlyHeld : Guard Input World Thread := fun p _ _ => p.shared.store.version ≤ 9007199254740992

/-- As long as storage stands at 2⁵³ or below, every script tells the revisions apart. -/
theorem reach_distinguishes {start p : Pool World Thread} (hstart : Fresh codec start)
    (h : Pool.Reach (step codec doubles) ExactlyHeld start p) :
    Pool.Reach (step codec doubles) (Distinguishes doubles) start p := by
  refine h.strengthen (I := fun p => ∀ t ∈ p.threads, Carries codec p.shared.store t)
    (fun t ht => (hstart.carries t ht).1) ?_
  intro w pre t post x w' t' hI hheld hs
  have hc := hI t (by simp)
  obtain ⟨heffect, hcarries⟩ := step_effect hc hs
  refine ⟨?_, Pool.forall_moved hI hcarries fun u hu => hu.continues heffect.continues⟩
  intro revision hbrings current _ hlt
  unfold Thread.brings at hbrings
  split at hbrings
  · cases hbrings
    obtain ⟨-, -, tables, hwritten, -⟩ := hc
    exact doubles_lt hlt (Std.le_trans hwritten.le hheld)
  · cases hbrings

/-- A script that does not tell a revision from the published one leaves it, and the call succeeds. -/
theorem offer_untold {request : Request} {revision : RuleRevision} {value : Bytes} {current : Published}
    (h : lua.tonumber current.revision ≥ lua.tonumber revision) :
    offer lua request revision value (.redis (some current))
      = (.redis (some current), .returned (.ok (request.answer revision))) := by
  simp only [offer, Lua.publish, Option.any_some, decide_eq_true h, if_true]

section Runs

variable (codec lua)

theorem step_commit (w : World) {next : RuleRevision} (tables : Tables) (hlt : w.store.version < next)
    (hend : next < Storage.revisionEnd) :
    step codec lua (.commit next tables) w .changing
      = some ({ w with store := w.store.move next tables hlt }, .changing) := by
  simp only [step, Storage.commit, dif_pos (And.intro hlt hend), Option.map_some]

theorem reach_commits (tables : Tables) (topic : Topic) (threads : List Thread) (n : ℕ) :
    ∀ store : Storage, store.version.toNat + n < 0x8000000000000000 →
      ∃ store' : Storage, store'.version.toNat = store.version.toNat + n ∧
        (store.value = tables → store'.value = tables) ∧
        Pool.Reach (step codec lua) Pool.anyStep ⟨⟨store, topic⟩, .changing :: threads⟩
          ⟨⟨store', topic⟩, .changing :: threads⟩ := by
  induction n with
  | zero => exact fun store _ => ⟨store, rfl, id, .refl⟩
  | succ n ih =>
    intro store hroom
    have hnext : (UInt64.ofNat (store.version.toNat + 1)).toNat = store.version.toNat + 1 :=
      UInt64.toNat_ofNat_of_lt' (by
        show _ < 0x10000000000000000
        omega)
    have hlt : store.version < UInt64.ofNat (store.version.toNat + 1) := by
      rw [UInt64.lt_iff_toNat_lt, hnext]
      omega
    have hend : UInt64.ofNat (store.version.toNat + 1) < Storage.revisionEnd := by
      rw [UInt64.lt_iff_toNat_lt, hnext]
      show store.version.toNat + 1 < 0x8000000000000000
      omega
    obtain ⟨store', hversion, hvalue, hreach⟩ := ih (store.move _ tables hlt) (by
      show (UInt64.ofNat (store.version.toNat + 1)).toNat + n < 0x8000000000000000
      omega)
    refine ⟨store', ?_, fun _ => hvalue rfl, .head ?_ hreach⟩
    · rw [hversion]
      show (UInt64.ofNat (store.version.toNat + 1)).toNat + n = _
      omega
    · exact .mk [] threads trivial (step_commit codec lua ⟨store, topic⟩ tables hlt hend)

theorem reach_publish (w : World) (t : Thread) (ht : t = .idle ∨ ∃ request began result,
      t = .call request began (.returned result)) {value : Bytes}
    (hvec : codec.toVec (Snapshot.of w.store.value) = some value) :
    Pool.Reach (step codec lua) Pool.anyStep ⟨w, [.changing, t]⟩
      ⟨{ w with topic := (offer lua .publish w.store.version value w.topic).1 },
        [.changing, .call .publish w.store.version (offer lua .publish w.store.version value w.topic).2]⟩ := by
  have hbegin : step codec lua (.begin .publish) w t
      = some (w, .call .publish w.store.version .ruleSet) := by
    rcases ht with rfl | ⟨request, began, result, rfl⟩ <;> rfl
  have hread : step codec lua .go w (.call .publish w.store.version .ruleSet)
      = some (w, .call .publish w.store.version (.publish w.store.version value)) := by
    simp only [step, advance, Storage.ruleSet, hvec, Option.map_some]
  have hoffer : step codec lua .go w (.call .publish w.store.version (.publish w.store.version value))
      = some ({ w with topic := (offer lua .publish w.store.version value w.topic).1 },
        .call .publish w.store.version (offer lua .publish w.store.version value w.topic).2) := rfl
  exact .head (.mk [.changing] [] trivial hbegin)
    (.head (.mk [.changing] [] trivial hread) (.single (.mk [.changing] [] trivial hoffer)))

end Runs

/-- A plugin of the system's own, placed for every flow. -/
def shipped : PluginRule := ⟨⟨List.replicate 32 0, rfl⟩, .reqHeader, ⟨0⟩, .global, rfl⟩

def noRules : Tables := ⟨[], [], []⟩

def oneRule : Tables := ⟨[], [shipped], []⟩

def noRulesJson : Bytes := bytesOf "\x7b\"routes\":[],\"rules\":[],\"limits\":[]\x7d"

def oneRuleJson : Bytes :=
  bytesOf ("\x7b\"routes\":[],\"rules\":[\x7b\"checksum\":\""
    ++ "0000000000000000000000000000000000000000000000000000000000000000"
    ++ "\",\"kind\":\"req_header\",\"order\":0,\"scope\":\"Global\"\x7d],\"limits\":[]\x7d")

/-- The json of these two, and of nothing else. -/
def twoSets : Codec where
  toVec snapshot :=
    if snapshot = Snapshot.of noRules then some noRulesJson
    else if snapshot = Snapshot.of oneRule then some oneRuleJson
    else none
  fromSlice bytes :=
    if bytes = noRulesJson then some (Snapshot.of noRules)
    else if bytes = oneRuleJson then some (Snapshot.of oneRule)
    else none
  reads := by
    intro snapshot bytes h
    split at h
    · rename_i hnone
      cases h
      rw [if_pos rfl, hnone]
    · split at h
      · rename_i hone
        cases h
        have hne : oneRuleJson ≠ noRulesJson := by decide +kernel
        rw [if_neg hne, if_pos rfl, hone]
      · cases h

theorem twoSets_noRules : twoSets.toVec (Snapshot.of noRules) = some noRulesJson := by decide +kernel

theorem twoSets_oneRule : twoSets.toVec (Snapshot.of oneRule) = some oneRuleJson := by decide +kernel

/-- **A newer revision taken for the published one.**  Storage moves on to 2⁵³ and the rules are
published; then they change once more.  Redis reads 2⁵³ + 1 as 2⁵³: the publish succeeds, and what is
published stays behind. -/
theorem revision_taken_for_older :
    ∃ p : Pool World Thread,
      Pool.Reach (step twoSets doubles) Pool.anyStep ⟨⟨.opened, .redis none⟩, [.changing, .idle]⟩ p ∧
      .call .publish 9007199254740993 (.returned (.ok (.published 9007199254740993))) ∈ p.threads ∧
      p.shared.topic.published = .ok (some ⟨9007199254740992, noRulesJson⟩) := by
  obtain ⟨store, hversion, hvalue, hcommits⟩ := reach_commits twoSets doubles noRules (.redis none)
    [.idle] 9007199254740992 .opened (by decide)
  have hfull : store.version = 9007199254740992 := UInt64.toNat_inj.mp hversion
  have hlt : store.version < 9007199254740993 := by
    rw [hfull]
    decide
  have hvec : twoSets.toVec (Snapshot.of store.value) = some noRulesJson := by
    rw [hvalue rfl]
    exact twoSets_noRules
  have hpublish := reach_publish twoSets doubles ⟨store, .redis none⟩ .idle (.inl rfl) hvec
  have hchange := Pool.Steps.mk (C := Pool.anyStep) []
    [.call .publish store.version (.returned (.ok (.published store.version)))] trivial
    (step_commit twoSets doubles ⟨store, .redis (some ⟨store.version, noRulesJson⟩)⟩ oneRule hlt (by decide))
  have hagain := reach_publish twoSets doubles
    ⟨store.move 9007199254740993 oneRule hlt, .redis (some ⟨store.version, noRulesJson⟩)⟩
    (.call .publish store.version (.returned (.ok (.published store.version))))
    (.inr ⟨_, _, _, rfl⟩) twoSets_oneRule
  -- the script compares two doubles that are the same number
  have hsame : doubles.tonumber 9007199254740992 ≥ doubles.tonumber 9007199254740993 := by decide +kernel
  rw [← hfull] at hsame ⊢
  have hrefused : offer doubles .publish 9007199254740993 oneRuleJson
      (.redis (some ⟨store.version, noRulesJson⟩)) = _ := offer_untold hsame
  refine ⟨_, hcommits.trans (hpublish.trans (.head hchange hagain)), ?_, ?_⟩
  · exact List.mem_cons_of_mem _ (List.mem_singleton.mpr
      (congrArg (Thread.call .publish 9007199254740993) (congrArg Prod.snd hrefused).symm))
  · exact (congrArg (fun r => r.1.published) hrefused)

theorem fresh_opened (topic : Topic) (h : topic.published = .ok none) :
    Fresh twoSets ⟨⟨.opened, topic⟩, [.changing, .idle]⟩ :=
  ⟨⟨none, h, fun _ hnow => nomatch hnow⟩, fun t ht => by simpa using ht⟩

/-- A change, and a publish after it: the publication is past the change. -/
theorem publish_after_change :
    ∃ q : Pool World Thread,
      Pool.Reach (step twoSets doubles) (Distinguishes doubles)
        ⟨⟨.opened, .redis none⟩, [.changing, .idle]⟩ q ∧
      .call .publish 1 (.returned (.ok (.published 1))) ∈ q.threads ∧
      ∃ now, q.shared.topic.published = .ok (some now) ∧ 1 ≤ now.revision := by
  have hrun : (Pool.run (step twoSets doubles) (Distinguishes doubles)
      ⟨⟨.opened, .redis none⟩, [.changing, .idle]⟩
      [(0, .commit 1 oneRule), (1, .begin .publish), (1, .go), (1, .go)]).any
      (fun q => decide (.call .publish 1 (.returned (.ok (.published 1))) ∈ q.threads)) = true := by
    decide +kernel
  obtain ⟨q, hq, htest⟩ := Pool.exists_reach_of_run hrun
  have hmem := of_decide_eq_true htest
  exact ⟨q, hq, hmem, (published_moves_forward (fresh_opened (.redis none) rfl) .refl hq).2.2 _ _ _ hmem⟩

/-! ### Storage at rest -/

/-- **A call that succeeds leaves what storage holds**, once nothing was committed since it began: whatever
other nodes published in between and whatever of their calls failed, what is published reads back as the rules
storage holds, at the revision it stands at, as long as that is 2⁵³ at most. -/
theorem published_at_rest {start q : Pool World Thread} (hstart : Fresh codec start)
    (h : Pool.Reach (step codec doubles) ExactlyHeld start q) {request : Request} {answer : Answer}
    (hcall : .call request q.shared.store.ruleRevision (.returned (.ok answer)) ∈ q.threads) :
    publishedRules codec q.shared.topic = .ok (some q.shared.store.ruleSet) := by
  have hreach := reach_distinguishes hstart h
  obtain ⟨now, hnow, hle⟩ : AsNewAs _ _ := reach_served hreach hstart.carries _ hcall
  obtain ⟨published, hpublished, hwritten⟩ :=
    (reach_carries hreach ⟨hstart.faithful, fun t ht => (hstart.carries t ht).1⟩).1
  cases hnow.symm.trans hpublished
  obtain ⟨tables, hheld, hvec⟩ := hwritten now rfl
  -- what was held at the revision storage stands at is what it holds
  have hrevision : now.revision = q.shared.store.version := Std.le_antisymm hheld.le hle
  have htables : tables = q.shared.store.value := (hrevision ▸ hheld).unique q.shared.store.held_now
  rw [publishedRules, hnow]
  show (readBack codec ⟨now.revision, now.value⟩).map some = _
  rw [readBack_written codec now.revision hvec, htables, hrevision]
  rfl

instance (p : Pool World Thread) (t : Thread) (x : Input) : Decidable (ExactlyHeld p t x) :=
  inferInstanceAs (Decidable (_ ≤ _))

/-- A heal after a change nobody published. -/
theorem published_at_rest_by_healing :
    ∃ q : Pool World Thread, Pool.Reach (step twoSets doubles) ExactlyHeld
        ⟨⟨.opened, .redis none⟩, [.changing, .idle]⟩ q ∧ q.shared.store.ruleRevision = 1 ∧
      publishedRules twoSets q.shared.topic = .ok (some q.shared.store.ruleSet) := by
  have hrun : (Pool.run (step twoSets doubles) ExactlyHeld ⟨⟨.opened, .redis none⟩, [.changing, .idle]⟩
      [(0, .commit 1 oneRule), (1, .begin .heal), (1, .go), (1, .go), (1, .go), (1, .go)]).any
      (fun q => decide (q.shared.store.ruleRevision = 1 ∧
        .call .heal q.shared.store.ruleRevision (.returned (.ok (.healed true))) ∈ q.threads)) = true := by
    decide +kernel
  obtain ⟨q, hq, htest⟩ := Pool.exists_reach_of_run hrun
  obtain ⟨hone, hcall⟩ := of_decide_eq_true htest
  exact ⟨q, hq, hone, published_at_rest (fresh_opened (.redis none) rfl) hq hcall⟩

end IntelliPrism.Rules
