import IntelliPrism.Rules.Following
import Mathlib.Logic.Relation

/-!
# Following over a connection that is lost

A follower on redis is told of what is published over a connection of its own.  When the connection is lost,
what was not handed on over it is gone; the follower subscribes again, trying as often as it takes, and then
reads once what is published now, which it is moved on to.

* `Follower.step` — a publication, a loss of the connection, or the next step of the follower's task, each
  of which may fail;
* `Abreast` — what every step keeps: whatever was published is with the receiver or on its way to it, unless
  the read after subscribing failed and nothing was announced since;
* `caught_up_of_read` — **a follower that waits with nothing on its way has the newest revision**, under
  that condition;
* `left_behind_by_failed_read` — a run in which the one read fails, and nothing makes up for it.
-/

namespace IntelliPrism.Rules

open IntelliPrism.Lib (Bytes)

/-! ### The follower's task -/

/-- A connection subscribed to the channel: whether it is still there, and what it brought that has not been
handed on. -/
structure Subscription where
  alive : Bool
  undelivered : List RuleRevision
  deriving DecidableEq

/-- What was announced reaches a connection that is there. -/
def Subscription.heard (subscription : Subscription) (revision : RuleRevision) : Subscription :=
  if subscription.alive then { subscription with undelivered := subscription.undelivered ++ [revision] }
  else subscription

theorem Subscription.alive_heard (subscription : Subscription) (revision : RuleRevision) :
    (subscription.heard revision).alive = subscription.alive := by
  unfold Subscription.heard
  split <;> rfl

/-- Where the task of a follower stands: it subscribes for the first time and reads what is published, and
then hands announcements on, or subscribes again and catches up. -/
inductive FollowerPc where
  | subscribing
  | reading
  | waiting
  | resubscribing
  | catchingUp
  | over
  deriving DecidableEq

/-- The topic on redis and one follower of it.  No step reads the last two: every revision that was
published, the newest first, and whether the read after the follower last subscribed failed and nothing was
handed on since. -/
structure Follower where
  hash : Option Published
  subscription : Subscription
  watch : Option Watch
  pc : FollowerPc
  published : List RuleRevision
  missed : Bool
  deriving DecidableEq

/-- What happens next: a publication, the loss of the connection after so many of the announcements it
brought, a step of the task that goes well or fails, or the receiver being let go of. -/
inductive Happening where
  | publish (revision : RuleRevision) (value : Bytes)
  | lose (buffered : ℕ)
  | go
  | fault
  | closed

namespace Follower

/-- Nothing is published, and the follower is about to subscribe. -/
def start : Follower := ⟨none, ⟨false, []⟩, none, .subscribing, [], false⟩

variable (lua : Lua)

/-- A publication that lands is announced. -/
def publish (revision : RuleRevision) (value : Bytes) (f : Follower) : Follower :=
  let script := lua.publish revision value f.hash
  if script.1 then
    { f with
      hash := script.2
      subscription := f.subscription.heard revision
      published := revision :: f.published }
  else f

/-- Moves the receiver on to what was read. -/
def announced (f : Follower) : Option Watch :=
  match f.hash with
  | some published => f.watch.map fun watch => announce watch published.revision
  | none => f.watch

/-- The next step of the task, when what it asks for goes well. -/
def advance (f : Follower) : Option Follower :=
  match f.pc with
  | .subscribing => some { f with subscription := ⟨true, []⟩, pc := .reading }
  | .reading =>
    some { f with watch := some (.channel (f.hash.elim 0 Published.revision)), pc := .waiting, missed := false }
  | .waiting =>
    match f.subscription.undelivered with
    | revision :: rest =>
      some { f with
        subscription := { f.subscription with undelivered := rest }
        watch := f.watch.map fun watch => announce watch revision
        missed := false }
    | [] => if f.subscription.alive then none else some { f with pc := .resubscribing }
  | .resubscribing => some { f with subscription := ⟨true, []⟩, pc := .catchingUp }
  | .catchingUp => some { f with watch := f.announced, pc := .waiting, missed := false }
  | .over => none

/-- The next step of the task, when what it asks for fails: following ends before it began, subscribing is
tried again, and what could not be read is not. -/
def fail (f : Follower) : Option Follower :=
  match f.pc with
  | .subscribing | .reading => some { f with pc := .over }
  | .resubscribing => some f
  | .catchingUp => some { f with pc := .waiting, missed := true }
  | .waiting | .over => none

def step (f : Follower) : Happening → Option Follower
  | .publish revision value => some (f.publish lua revision value)
  | .lose buffered =>
    some { f with subscription := ⟨false, f.subscription.undelivered.take buffered⟩ }
  | .go => f.advance
  | .fault => f.fail
  | .closed =>
    match f.pc with
    | .waiting | .resubscribing => some { f with pc := .over }
    | _ => none

def run : List Happening → Follower → Option Follower
  | [], f => some f
  | x :: rest, f => (f.step lua x).bind (run rest)

/-- Some happening takes one state to the other. -/
def Steps (f f' : Follower) : Prop := ∃ x, f.step lua x = some f'

theorem reach_of_run {lua : Lua} {happenings : List Happening} {f f' : Follower}
    (h : run lua happenings f = some f') : Relation.ReflTransGen (Steps lua) f f' := by
  induction happenings generalizing f with
  | nil =>
    cases h
    exact .refl
  | cons x rest ih =>
    obtain ⟨f₁, hstep, hrest⟩ := Option.bind_eq_some_iff.mp h
    exact .head ⟨x, hstep⟩ (ih hrest)

/-! ### What is published is on its way -/

/-- A revision is with the receiver, or will be once what is undelivered is handed on. -/
def Reaches (f : Follower) (watch : Watch) (revision : RuleRevision) : Prop :=
  revision ≤ watch.value ∨ revision ∈ f.subscription.undelivered

/-- What every step keeps.  What is published only moves on, and is what the hash holds; a connection that
is there brought the newest of it, in order; and a follower that waits on one has been told of everything
else, or missed its read. -/
structure Abreast (f : Follower) : Prop where
  forward : f.published.Pairwise (· > ·)
  newest : ∀ revision ∈ f.published, ∃ published, f.hash = some published ∧ revision ≤ published.revision
  brought : f.subscription.alive = true → ∃ older, f.published = f.subscription.undelivered.reverse ++ older
  received : f.pc = .waiting ∨ f.pc = .resubscribing ∨ f.pc = .catchingUp → f.watch.isSome = true
  told : f.pc = .waiting → f.subscription.alive = true → f.missed = false →
    ∀ watch ∈ f.watch, ∀ revision ∈ f.published, f.Reaches watch revision

variable {lua} {f f' : Follower}

theorem abreast_start : start.Abreast where
  forward := .nil
  newest := nofun
  brought := nofun
  received := by decide
  told := nofun

/-- A publication that lands is newer than what was published, and is brought by a connection that is
there. -/
theorem Abreast.publish (h : f.Abreast) (revision : RuleRevision) (value : Bytes) :
    (f.publish lua revision value).Abreast := by
  unfold Follower.publish Lua.publish
  split
  · exact h
  · rename_i hlands
    show Abreast { f with
      hash := some ⟨revision, value⟩
      subscription := f.subscription.heard revision
      published := revision :: f.published }
    have hnewer : ∀ old ∈ f.published, old < revision := by
      intro old hold
      obtain ⟨published, hhash, hle⟩ := h.newest old hold
      refine UInt64.not_le.mp fun hge => hlands ?_
      rw [hhash]
      exact decide_eq_true (lua.mono _ _ (UInt64.le_trans hge hle))
    refine ⟨List.pairwise_cons.mpr ⟨hnewer, h.forward⟩, ?_, ?_, h.received, ?_⟩
    · intro old hold
      refine ⟨_, rfl, ?_⟩
      rcases List.mem_cons.mp hold with hthis | hbefore
      · exact UInt64.le_of_eq hthis
      · exact UInt64.le_of_lt (hnewer old hbefore)
    · intro halive
      have hwas : f.subscription.alive = true := (f.subscription.alive_heard revision).symm.trans halive
      obtain ⟨older, hbrought⟩ := h.brought hwas
      refine ⟨older, ?_⟩
      rw [Subscription.heard, if_pos hwas, hbrought, List.reverse_append]
      rfl
    · intro hpc halive hread watch hwatch old hold
      have hwas : f.subscription.alive = true := (f.subscription.alive_heard revision).symm.trans halive
      unfold Reaches
      rw [Subscription.heard, if_pos hwas]
      rcases List.mem_cons.mp hold with hthis | hbefore
      · rw [hthis]
        exact .inr (List.mem_append_right _ (List.mem_singleton_self _))
      · rcases h.told hpc hwas hread watch hwatch old hbefore with hheld | hcoming
        · exact .inl hheld
        · exact .inr (List.mem_append_left _ hcoming)

/-- A connection that is lost brings nothing any more, and nothing is asked of it. -/
theorem Abreast.lose (h : f.Abreast) (buffered : ℕ) :
    Abreast { f with subscription := ⟨false, f.subscription.undelivered.take buffered⟩ } :=
  ⟨h.forward, h.newest, nofun, h.received, fun _ halive => nomatch halive⟩

/-- Everything published is at most what the hash holds, and so at most what is read. -/
theorem Abreast.le_hash (h : f.Abreast) {revision : RuleRevision} (hmem : revision ∈ f.published) :
    revision ≤ f.hash.elim 0 Published.revision := by
  obtain ⟨published, hhash, hle⟩ := h.newest revision hmem
  rw [hhash]
  exact hle

theorem Abreast.deliver (h : f.Abreast) {revision : RuleRevision} {rest : List RuleRevision}
    (hpc : f.pc = .waiting) (hfirst : f.subscription.undelivered = revision :: rest) :
    Abreast { f with
      subscription := { f.subscription with undelivered := rest }
      watch := f.watch.map fun watch => announce watch revision
      missed := false } := by
  refine ⟨h.forward, h.newest, fun halive => ?_, fun _ => ?_, fun _ halive _ watch hwatch old hold => ?_⟩
  · obtain ⟨older, hbrought⟩ := h.brought halive
    refine ⟨revision :: older, ?_⟩
    rw [hbrought, hfirst, List.reverse_cons, List.append_assoc]
    rfl
  · obtain ⟨watch, hwatch⟩ := Option.isSome_iff_exists.mp (h.received (.inl hpc))
    rw [hwatch]
    rfl
  · obtain ⟨before, -, rfl⟩ := Option.map_eq_some_iff.mp (Option.mem_def.mp hwatch)
    obtain ⟨older, hbrought⟩ := h.brought halive
    have hsplit : f.published = rest.reverse ++ revision :: older := by
      rw [hbrought, hfirst, List.reverse_cons, List.append_assoc]
      rfl
    have hforward := h.forward
    rw [hsplit] at hold hforward
    rcases List.mem_append.mp hold with hlater | hearlier
    · exact .inr (List.mem_reverse.mp hlater)
    · -- what came before it is older, and the receiver has now seen it
      refine .inl (UInt64.le_trans ?_ (le_announce before revision).2)
      rcases List.mem_cons.mp hearlier with hthis | hbefore
      · exact UInt64.le_of_eq hthis
      · have hpairs := List.pairwise_cons.mp (List.pairwise_append.mp hforward).2.1
        exact UInt64.le_of_lt (hpairs.1 old hbefore)

theorem Abreast.announced (h : f.Abreast) {watch : Watch} (hwatch : f.announced = some watch)
    {revision : RuleRevision} (hmem : revision ∈ f.published) : revision ≤ watch.value := by
  obtain ⟨published, hhash, hle⟩ := h.newest revision hmem
  unfold Follower.announced at hwatch
  rw [hhash] at hwatch
  obtain ⟨before, -, rfl⟩ := Option.map_eq_some_iff.mp hwatch
  exact UInt64.le_trans hle (le_announce before published.revision).2

theorem isSome_announced (h : f.watch.isSome = true) : f.announced.isSome = true := by
  unfold announced
  split
  · rw [Option.isSome_map]
    exact h
  · exact h

theorem Abreast.advance (h : f.Abreast) (hstep : f.advance = some f') : f'.Abreast := by
  unfold Follower.advance at hstep
  split at hstep
  · cases hstep
    exact ⟨h.forward, h.newest, fun _ => ⟨f.published, rfl⟩, by simp, by simp⟩
  · cases hstep
    refine ⟨h.forward, h.newest, h.brought, fun _ => rfl, fun _ _ _ watch hwatch revision hmem => .inl ?_⟩
    cases hwatch
    exact h.le_hash hmem
  · rename_i hpc
    split at hstep
    · rename_i revision rest hfirst
      cases hstep
      exact h.deliver hpc hfirst
    · split at hstep <;> cases hstep
      exact ⟨h.forward, h.newest, h.brought, fun _ => h.received (.inl hpc), nofun⟩
  · rename_i hpc
    cases hstep
    exact ⟨h.forward, h.newest, fun _ => ⟨f.published, rfl⟩, fun _ => h.received (.inr (.inl hpc)), nofun⟩
  · rename_i hpc
    cases hstep
    refine ⟨h.forward, h.newest, h.brought, fun _ => isSome_announced (h.received (.inr (.inr hpc))), ?_⟩
    exact fun _ _ _ watch hwatch revision hmem => .inl (h.announced (Option.mem_def.mp hwatch) hmem)
  · cases hstep

/-- A step that fails keeps it too: a read that failed is remembered as missed. -/
theorem Abreast.fail (h : f.Abreast) (hstep : f.fail = some f') : f'.Abreast := by
  unfold Follower.fail at hstep
  split at hstep
  · cases hstep
    exact ⟨h.forward, h.newest, h.brought, by simp, nofun⟩
  · cases hstep
    exact ⟨h.forward, h.newest, h.brought, by simp, nofun⟩
  · cases hstep
    exact h
  · rename_i hpc
    cases hstep
    exact ⟨h.forward, h.newest, h.brought, fun _ => h.received (.inr (.inr hpc)), fun _ _ hread => nomatch hread⟩
  · cases hstep
  · cases hstep

/-- **Every step keeps it.** -/
theorem Abreast.step (h : f.Abreast) (hsteps : Steps lua f f') : f'.Abreast := by
  obtain ⟨x, hstep⟩ := hsteps
  cases x with
  | publish revision value =>
    cases hstep
    exact h.publish revision value
  | lose buffered =>
    cases hstep
    exact h.lose buffered
  | go => exact h.advance hstep
  | fault => exact h.fail hstep
  | closed =>
    unfold Follower.step at hstep
    dsimp only at hstep
    split at hstep <;> cases hstep
    · exact ⟨h.forward, h.newest, h.brought, by simp, nofun⟩
    · exact ⟨h.forward, h.newest, h.brought, by simp, nofun⟩

theorem abreast_of_reach (h : Relation.ReflTransGen (Steps lua) start f) : f.Abreast := by
  induction h with
  | refl => exact abreast_start
  | tail _ hlast ih => exact ih.step hlast

end Follower

/-- **A follower catches up after every lost connection whose read succeeds.**  Along every interleaving of
publications with losses of the connection, attempts to subscribe again and reads, any of which may fail,
whenever the follower is subscribed and waits with no announcement undelivered, its receiver holds at least
every revision published so far, unless the read after it last subscribed failed and nothing was announced
to it since. -/
theorem caught_up_of_read {lua : Lua} {f : Follower} (h : Relation.ReflTransGen (Follower.Steps lua) .start f)
    (hwaits : f.pc = .waiting) (halive : f.subscription.alive = true)
    (hnone : f.subscription.undelivered = []) (hread : f.missed = false) :
    ∃ watch, f.watch = some watch ∧ ∀ revision ∈ f.published, revision ≤ watch.value := by
  have habreast := Follower.abreast_of_reach h
  obtain ⟨watch, hwatch⟩ := Option.isSome_iff_exists.mp (habreast.received (.inl hwaits))
  refine ⟨watch, hwatch, fun revision hmem => ?_⟩
  rcases habreast.told hwaits halive hread watch hwatch revision hmem with hheld | hcoming
  · exact hheld
  · rw [hnone] at hcoming
    cases hcoming

/-! ### Runs -/

/-- A script that tells every two revisions apart. -/
def exactLua : Lua := ⟨UInt64.toNat, fun _ _ h => UInt64.le_iff_toNat_le.mp h⟩

/-- A follower that waits loses its connection; the rules are published; it subscribes again, and its read
goes this way. -/
def reconnects (read : Happening) : List Happening :=
  [.go, .go, .lose 0, .publish 7 [], .go, .fault, .go, read]

/-- The read succeeds, and the follower has what was published while it was gone. -/
theorem caught_up_of_read_seven :
    ∃ f, Relation.ReflTransGen (Follower.Steps exactLua) .start f ∧ f.pc = .waiting ∧
      f.subscription.alive = true ∧ f.subscription.undelivered = [] ∧ f.missed = false ∧
      7 ∈ f.published ∧ ∃ watch, f.watch = some watch ∧ ∀ revision ∈ f.published, revision ≤ watch.value := by
  have hrun : Follower.run exactLua (reconnects .go) .start =
      some ⟨some ⟨7, []⟩, ⟨true, []⟩, some ⟨7, true⟩, .waiting, [7], false⟩ := by
    decide +kernel
  have hreach := Follower.reach_of_run hrun
  exact ⟨_, hreach, rfl, rfl, rfl, rfl, List.mem_singleton_self _, caught_up_of_read hreach rfl rfl rfl rfl⟩

/-- **A failed read is not made up for.**  The follower is subscribed again and waits, nothing is on its way
to it, and what was published while it was gone it does not have. -/
theorem left_behind_by_failed_read :
    ∃ f, Relation.ReflTransGen (Follower.Steps exactLua) .start f ∧ f.pc = .waiting ∧
      f.subscription.alive = true ∧ f.subscription.undelivered = [] ∧
      ∃ watch, f.watch = some watch ∧ ∃ revision ∈ f.published, watch.value < revision := by
  have hrun : Follower.run exactLua (reconnects .fault) .start =
      some ⟨some ⟨7, []⟩, ⟨true, []⟩, some ⟨0, false⟩, .waiting, [7], true⟩ := by
    decide +kernel
  exact ⟨_, Follower.reach_of_run hrun, rfl, rfl, rfl, _, rfl, 7, List.mem_singleton_self _, by decide⟩

end IntelliPrism.Rules
