import IntelliPrism.Rules.Following

/-!
# Keeping abreast of the published rules

Whether a node that rests does so on the published rules.  It hears of whatever is published after it
subscribed.  What was published before is the value its channel starts with, and that counts as seen.

* `Rests` — the loop waits and there is nothing it has not seen;
* `JoinsAbreast` — where the node begins to follow, nothing is published past what it started from;
* `Abreast` — what every step then keeps;
* `rests_on_published` — **a node that began to follow abreast never rests on older rules than the
  published ones**, whatever is published, announced or retried later;
* `rests_on_older` — a publication between the start and the subscription is one it never hears of.
-/

namespace IntelliPrism.Rules

open IntelliPrism.Lib IntelliPrism.Core IntelliPrism.Gateway

variable {χ : Type} (codec : Codec) (configured : List RouteRule)

/-- The revision a loop that waits counts as applied. -/
def Loop.waits : Loop χ → Option RuleRevision
  | .waiting applied => some applied
  | _ => none

/-- The revision the node counts as applied when its next step is to read where it begins to follow. -/
def Loop.joins : Loop χ → Option RuleRevision
  | .subscribed applied => some applied
  | _ => none

/-- The loop waits for a change, and there is none it has not seen. -/
def Rests (node : Node χ) (applied : RuleRevision) : Prop :=
  node.pc.waits = some applied ∧ ∀ watch ∈ node.watch, watch.unseen = false

instance (node : Node χ) (applied : RuleRevision) : Decidable (Rests node applied) :=
  @instDecidableAnd _ _ inferInstance node.watch.decidableForallMem

/-- Where the node begins to follow, nothing is published past what it started from. -/
def JoinsAbreast : Guard (Event χ) (Node χ) Actor := fun p actor _ =>
  actor = .node → ∀ applied ∈ p.shared.pc.joins, p.shared.revision ≤ applied

instance (p : Pool (Node χ) Actor) (actor : Actor) (x : Event χ) :
    Decidable (JoinsAbreast p actor x) :=
  @instDecidableForall _ _ inferInstance p.shared.pc.joins.decidableForallMem

/-- Whether the node has a receiver it waits on. -/
def Loop.follows : Loop χ → Bool
  | .waiting _ | .woken _ | .reading _ | .building _ _ _ _ | .failed _ _ => true
  | _ => false

/-- What the channel says is not past what is applied, or is about to be, or is still to be seen. -/
def Caught (watch : Watch) : Loop χ → Prop
  | .waiting applied => watch.value ≤ applied ∨ watch.unseen = true
  | .building _ _ set _ => watch.value ≤ set.revision ∨ watch.unseen = true
  | _ => True

/-- What every step keeps from where the node began to follow abreast: the newest publication has reached
the channel or is on its way there, and nothing in the channel is lost on the node. -/
structure Abreast (node : Node χ) : Prop where
  told : ∀ watch ∈ node.watch, node.revision ≤ watch.value ∨ ∃ revision ∈ node.pending, node.revision ≤ revision
  caught : ∀ watch ∈ node.watch, Caught watch node.pc
  listening : ∀ watch ∈ node.watch, node.pc.listens = true
  following : node.pc.follows = true → node.watch.isSome = true

section Steps

variable {codec configured} {node node' : Node χ}

theorem Caught.announce {watch : Watch} {pc : Loop χ} (h : Caught watch pc) (revision : RuleRevision) :
    Caught (announce watch revision) pc := by
  unfold Rules.announce
  split
  · cases pc <;> first | trivial | exact .inr rfl
  · exact h

theorem Abreast.commit {revision : RuleRevision} (h : Abreast node)
    (hs : node.commit revision = some node') : Abreast node' := by
  obtain ⟨-, rfl⟩ := commit_eq_some hs
  exact ⟨h.told, h.caught, h.listening, h.following⟩

theorem Abreast.publish {published : Published} (h : Abreast node)
    (hs : node.publish published = some node') : Abreast node' := by
  obtain ⟨-, rfl⟩ := publish_eq_some hs
  refine ⟨?_, h.caught, h.listening, h.following⟩
  intro watch hwatch
  refine .inr ⟨published.revision, ?_, Std.le_refl _⟩
  simp only [h.listening watch hwatch, if_true]
  exact List.mem_append_right _ (List.mem_singleton.mpr rfl)

theorem Abreast.tell {i : ℕ} (h : Abreast node) (hs : node.tell i = some node') : Abreast node' := by
  obtain ⟨watch, revision, hwatch, -, rfl⟩ := tell_eq_some hs
  have hlater := le_announce watch revision
  refine ⟨?_, ?_, fun _ _ => h.listening watch hwatch, fun _ => rfl⟩
  · intro told htold
    cases htold
    rcases h.told watch hwatch with hle | ⟨queued, hmem, hle⟩
    · exact .inl (Std.le_trans hle hlater.1)
    · -- what is told now covers it, or it stays on its way
      by_cases hpast : revision < queued
      · exact .inr ⟨queued, List.mem_filter.mpr ⟨hmem, decide_eq_true hpast⟩, hle⟩
      · exact .inl (Std.le_trans hle (Std.le_trans (Std.not_lt.mp hpast) hlater.2))
  · intro told htold
    cases htold
    exact (h.caught watch hwatch).announce revision

theorem Abreast.watch_eq_none (h : Abreast node) (hpc : node.pc.listens = false) : node.watch = none := by
  cases hwatch : node.watch with
  | none => rfl
  | some watch =>
    have hlistens := h.listening watch hwatch
    rw [hpc] at hlistens
    cases hlistens

theorem Abreast.move (h : Abreast node) {watch watch' : Watch} {pc : Loop χ}
    (hwatch : node.watch = some watch) (hvalue : watch'.value = watch.value) (hcaught : Caught watch' pc)
    (hlistens : pc.listens = true) : Abreast { node with watch := some watch', pc } := by
  refine ⟨?_, ?_, fun _ _ => hlistens, fun _ => rfl⟩
  · intro told htold
    cases htold
    have htold := h.told watch hwatch
    rwa [← hvalue] at htold
  · intro told htold
    cases htold
    exact hcaught

theorem Abreast.exists_watch (h : Abreast node) (hpc : node.pc.follows = true) :
    ∃ watch, node.watch = some watch := Option.isSome_iff_exists.mp (h.following hpc)

theorem Abreast.stay (h : Abreast node) {watch : Watch} {pc : Loop χ} (hwatch : node.watch = some watch)
    (hcaught : Caught watch pc) (hlistens : pc.listens = true) : Abreast { node with pc } := by
  have hmove := h.move hwatch rfl hcaught hlistens
  rwa [← hwatch] at hmove

theorem Abreast.goOn (h : Abreast node) {pc : Loop χ} (hfollows : node.pc.follows = true)
    (hcaught : ∀ watch, node.watch = some watch → Caught watch pc) (hlistens : pc.listens = true) :
    Abreast { node with pc } := by
  obtain ⟨watch, hwatch⟩ := h.exists_watch hfollows
  exact h.stay hwatch (hcaught watch hwatch) hlistens

theorem abreast_of_none (hnone : node.watch = none) (hpc : node.pc.follows = false) : Abreast node where
  told := by
    rw [hnone]
    exact fun _ hwatch => nomatch hwatch
  caught := by
    rw [hnone]
    exact fun _ hwatch => nomatch hwatch
  listening := by
    rw [hnone]
    exact fun _ hwatch => nomatch hwatch
  following := by
    rw [hpc]
    exact fun hfollows => nomatch hfollows

theorem caught_readPublished {applied : RuleRevision} {watch : Watch} (hsound : Sound codec configured node)
    (hpc : node.pc = .reading applied) (hwatch : node.watch = some watch) :
    Caught watch (readPublished codec configured node applied) := by
  obtain ⟨-, hlt⟩ := hsound.fits hpc
  unfold readPublished
  split
  · rename_i hnone
    rw [Node.revision, hnone] at hlt
    exact absurd (UInt64.lt_iff_toNat_lt.mp hlt) (Nat.not_lt_zero _)
  · rename_i published hpublished
    split
    · trivial
    · rename_i set hset
      split
      · trivial
      · have hheard := hsound.heard watch hwatch
        rw [Node.revision, hpublished] at hheard
        exact .inl (readBack_revision hset ▸ hheard)

theorem listens_readPublished (node : Node χ) (applied : RuleRevision) :
    (readPublished codec configured node applied).listens = true := by
  unfold readPublished
  split
  · rfl
  · split
    · rfl
    · split <;> rfl

theorem Abreast.moves (h : Abreast node) (hsound : Sound codec configured node)
    (hjoins : ∀ applied ∈ node.pc.joins, node.revision ≤ applied)
    (hmoves : Moves codec configured node node') : Abreast node' := by
  cases hmoves with
  | read hpc => exact abreast_of_none (h.watch_eq_none (by rw [hpc]; rfl)) rfl
  | load routing hpc => exact abreast_of_none (h.watch_eq_none (by rw [hpc]; rfl)) rfl
  | subscribe hpc => exact abreast_of_none (h.watch_eq_none (by rw [hpc]; rfl)) rfl
  | @join applied hpc =>
    have hle := hjoins applied (by rw [hpc]; rfl)
    refine ⟨?_, ?_, fun _ _ => rfl, fun _ => rfl⟩
    · intro told htold
      cases htold
      exact .inl (Std.le_refl _)
    · intro told htold
      cases htold
      exact .inl hle
  | wake hpc hwatch => exact h.move hwatch rfl trivial rfl
  | pass hpc hwatch hle => exact h.move hwatch rfl (.inl hle) rfl
  | turn hpc hwatch hlt => exact h.move hwatch rfl trivial rfl
  | attempt hpc =>
    exact h.goOn (by rw [hpc]; rfl) (fun _ hwatch => caught_readPublished hsound hpc hwatch)
      (listens_readPublished node _)
  | unread hpc => exact h.goOn (by rw [hpc]; rfl) (fun _ _ => trivial) rfl
  | @land applied before set table chains hpc =>
    have hcaught := h.caught
    rw [hpc] at hcaught
    have hstay : Abreast { node with pc := .waiting set.revision } :=
      h.goOn (by rw [hpc]; rfl) hcaught rfl
    exact ⟨hstay.told, hstay.caught, hstay.listening, hstay.following⟩
  | unbuilt hpc => exact h.goOn (by rw [hpc]; rfl) (fun _ _ => trivial) rfl
  | retry hpc => exact h.goOn (by rw [hpc]; rfl) (fun _ _ => trivial) rfl
  | hurry hpc hwatch => exact h.move hwatch rfl trivial rfl
  | stop =>
    rcases Option.eq_none_or_eq_some node.watch with hnone | ⟨watch, hwatch⟩
    · exact abreast_of_none hnone rfl
    · exact h.stay hwatch trivial rfl

theorem reach_abreast {p q : Pool (Node χ) Actor}
    (h : Pool.Reach (Node.step codec configured) JoinsAbreast p q)
    (hp : Sound codec configured p.shared ∧ Abreast p.shared) : Abreast q.shared := by
  have hboth : Sound codec configured q.shared ∧ Abreast q.shared := by
    refine h.invariant (I := fun q => Sound codec configured q.shared ∧ Abreast q.shared) hp ?_
    intro node pre actor post x node' actor' hkept hjoins hs
    refine ⟨Sound.step hkept.1 hs, ?_⟩
    obtain ⟨revision, hcommit⟩ | ⟨published, hpublish⟩ | ⟨i, htell⟩ | ⟨hactor, hfollow⟩ := Node.step_cases hs
    · exact hkept.2.commit hcommit
    · exact hkept.2.publish hpublish
    · exact hkept.2.tell htell
    · exact hkept.2.moves hkept.1 (hjoins hactor) (follow_moves codec configured hfollow)
  exact hboth.2

theorem waits_eq_some {pc : Loop χ} {applied : RuleRevision} (h : pc.waits = some applied) :
    pc = .waiting applied := by
  unfold Loop.waits at h
  split at h
  · rw [Option.some.inj h]
  · cases h

end Steps

variable {codec configured}

/-- **A node never rests on rules older than the published ones**, in every interleaving of commits,
publications and announcements with its start and its loop in which, where it begins to follow, nothing
is published past the revision it started from.  Reloads may fail on the way. -/
theorem rests_on_published {stored : RuleRevision} {publications : List Published} {actors : List Actor}
    {p : Pool (Node χ) Actor} {applied : RuleRevision}
    (h : Pool.Reach (Node.step codec configured) JoinsAbreast ⟨.opened stored publications, actors⟩ p)
    (hrests : Rests p.shared applied) (hannounced : p.shared.pending = []) :
    p.shared.revision ≤ applied := by
  have habreast := reach_abreast h ⟨sound_opened stored publications, abreast_of_none rfl rfl⟩
  have hpc := waits_eq_some hrests.1
  obtain ⟨watch, hwatch⟩ := habreast.exists_watch (by rw [hpc]; rfl)
  have htold : p.shared.revision ≤ watch.value := by
    rcases habreast.told watch hwatch with hle | ⟨revision, hmem, -⟩
    · exact hle
    · rw [hannounced] at hmem
      cases hmem
  have hcaught := habreast.caught watch hwatch
  rw [hpc] at hcaught
  rcases hcaught with hle | hunseen
  · exact Std.le_trans htold hle
  · rw [hrests.2 watch hwatch] at hunseen
    cases hunseen

/-- A node that follows before the change hears of it and applies it. -/
theorem rests_on_first_reload :
    ∃ p : Pool (Node Unit) Actor,
      Pool.Reach (Node.step twoSets []) JoinsAbreast ⟨.opened 0 [], everyone⟩ p ∧
      Rests p.shared 1 ∧ p.shared.pending = [] ∧ p.shared.revision ≤ 1 := by
  have hrun : (Pool.run (Node.step twoSets []) JoinsAbreast ⟨.opened 0 [], everyone⟩ firstReload).any
      (fun p => decide (Rests p.shared 1 ∧ p.shared.pending = [])) = true := by
    decide +kernel
  obtain ⟨p, hp, htest⟩ := Pool.exists_reach_of_run hrun
  obtain ⟨hrests, hpending⟩ := of_decide_eq_true htest
  exact ⟨p, hp, hrests, hpending, rests_on_published hp hrests hpending⟩

/-- **A change the node never hears of.**  It is published after the node read where it starts from and
before it subscribed: the channel starts with it, as seen, and the node rests on what it started from. -/
theorem rests_on_older :
    ∃ p : Pool (Node Unit) Actor,
      Pool.Reach (Node.step twoSets []) Pool.anyStep ⟨.opened 0 [⟨0, noRulesJson⟩], everyone⟩ p ∧
      Rests p.shared 0 ∧ p.shared.pending = [] ∧ p.shared.revision = 1 := by
  have hrun : (Pool.run (Node.step twoSets []) Pool.anyStep ⟨.opened 0 [⟨0, noRulesJson⟩], everyone⟩
      [(3, .go), (3, .loaded bare), (0, .commit 1), (1, .publish ⟨1, oneRuleJson⟩), (3, .go), (3, .go)]).any
      (fun p => decide (Rests p.shared 0 ∧ p.shared.pending = [] ∧ p.shared.revision = 1)) = true := by
    decide +kernel
  obtain ⟨p, hp, htest⟩ := Pool.exists_reach_of_run hrun
  exact ⟨p, hp, of_decide_eq_true htest⟩

end IntelliPrism.Rules
