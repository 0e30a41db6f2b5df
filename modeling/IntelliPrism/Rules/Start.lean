import IntelliPrism.Rules.Following

/-!
# What a node starts on

A node that starts reads the revision storage stands at, then the routes, the plugin rules and the limits,
each in a query of its own, and puts what it made of them in force.  Changes may be committed in between.

* `openStep` — a commit, or the next read of a node that starts;
* `FromOneRevision` — what is in force was made of what storage held at one revision;
* `KeepsRead`, `SparesUnread` — commits that change nothing a starting node has read, and commits that
  change nothing it has yet to read;
* `starts_on_one_revision` — **a start on one set of rules**: commits of the first kind up to some moment,
  and of the second kind from there on;
* `starts_on_no_revision` — with a commit of each kind the other way round, a node starts on rules that
  never stood together.
-/

namespace IntelliPrism.Rules

open IntelliPrism.Lib IntelliPrism.Core IntelliPrism.Gateway

/-- Someone who changes the rules, or a node that starts: what it is about to read and what it made of
what it has read. -/
inductive Opener (χ : Type) where
  | changing
  | revision
  | routes (startedAt : RuleRevision)
  | rules (startedAt : RuleRevision) (table : RoutingTable)
  | limits (startedAt : RuleRevision) (table : RoutingTable) (chains : χ)
  | inForce (startedAt : RuleRevision) (routing : Routing χ)
  | failed

variable {χ : Type} (configured : List RouteRule) (chainsOf : List PluginRule → Except FeedError χ)

/-- What a starting node's next read finds, and what it makes of it. -/
def openNext (store : Storage) : Opener χ → Option (Opener χ)
  | .revision => some (.routes store.ruleRevision)
  | .routes startedAt =>
    match RoutingTable.assemble configured store.value.routes with
    | .error _ => some .failed
    | .ok table => some (.rules startedAt table)
  | .rules startedAt table =>
    match chainsOf store.value.rules with
    | .error _ => some .failed
    | .ok chains => some (.limits startedAt table chains)
  | .limits startedAt table chains =>
    some (.inForce startedAt ⟨table, chains, Limits.new store.value.limits⟩)
  | .changing | .inForce _ _ | .failed => none

def openStep : Program Input Storage (Opener χ) := fun x store t =>
  match t, x with
  | .changing, .commit revision tables => (store.commit revision tables).map (·, .changing)
  | t, .go => (openNext configured chainsOf store t).map (store, ·)
  | t, .fault _ => (openNext configured chainsOf store t).map fun _ => (store, .failed)
  | _, _ => none

/-- What is in force was made of what storage held at one revision. -/
def FromOneRevision (store : Storage) (routing : Routing χ) : Prop :=
  ∃ revision tables, store.Held revision tables ∧
    RoutingTable.assemble configured tables.routes = .ok routing.table ∧
    chainsOf tables.rules = .ok routing.chains ∧ routing.limits = tables.limits.map StoredLimit.limit

/-! ### The commits in between -/

def Input.changes : Input → Option Tables
  | .commit _ tables => some tables
  | _ => none

/-- A change leaves what this node has read as it is. -/
def Opener.KeepsRead (now next : Tables) : Opener χ → Prop
  | .rules _ _ => next.routes = now.routes
  | .limits _ _ _ => next.routes = now.routes ∧ next.rules = now.rules
  | _ => True

/-- A change leaves what this node has yet to read as it is. -/
def Opener.SparesUnread (now next : Tables) : Opener χ → Prop
  | .revision | .routes _ => next = now
  | .rules _ _ => next.rules = now.rules ∧ next.limits = now.limits
  | .limits _ _ _ => next.limits = now.limits
  | _ => True

instance (now next : Tables) (t : Opener χ) : Decidable (t.KeepsRead now next) :=
  match t with
  | .rules _ _ => inferInstanceAs (Decidable (_ = _))
  | .limits _ _ _ => inferInstanceAs (Decidable (_ ∧ _))
  | .changing | .revision | .routes _ | .inForce _ _ | .failed => inferInstanceAs (Decidable True)

/-- Nothing a starting node has read is changed. -/
def KeepsRead : Guard Input Storage (Opener χ) := fun p _ x =>
  ∀ next ∈ x.changes, ∀ t ∈ p.threads, t.KeepsRead p.shared.value next

/-- Nothing a starting node has yet to read is changed. -/
def SparesUnread : Guard Input Storage (Opener χ) := fun p _ x =>
  ∀ next ∈ x.changes, ∀ t ∈ p.threads, t.SparesUnread p.shared.value next

instance (p : Pool Storage (Opener χ)) (t : Opener χ) (x : Input) : Decidable (KeepsRead p t x) :=
  @Option.decidableForallMem _ _ (fun _ => p.threads.decidableBAll _) x.changes

/-! ### What the reads make of it -/

/-- What a node has read so far is what these tables hold. -/
def ReadFrom (tables : Tables) : Opener χ → Prop
  | .rules _ table => RoutingTable.assemble configured tables.routes = .ok table
  | .limits _ table chains =>
    RoutingTable.assemble configured tables.routes = .ok table ∧ chainsOf tables.rules = .ok chains
  | _ => True

/-- What a node has yet to read is in both the same. -/
def UnreadAlike (tables now : Tables) : Opener χ → Prop
  | .revision | .routes _ => now = tables
  | .rules _ _ => now.rules = tables.rules ∧ now.limits = tables.limits
  | .limits _ _ _ => now.limits = tables.limits
  | _ => True

/-- What a node put in force was made of what storage held at one revision. -/
def StartedWell (store : Storage) : Opener χ → Prop
  | .inForce _ routing => FromOneRevision configured chainsOf store routing
  | _ => True

section Steps

variable {configured chainsOf} {store store' : Storage} {t t' : Opener χ} {x : Input}

theorem FromOneRevision.continues {routing : Routing χ}
    (h : FromOneRevision configured chainsOf store routing) (hcont : store.Continues store') :
    FromOneRevision configured chainsOf store' routing := by
  obtain ⟨revision, tables, hheld, hmade⟩ := h
  exact ⟨revision, tables, hcont.held _ _ hheld, hmade⟩

theorem StartedWell.continues (h : StartedWell configured chainsOf store t)
    (hcont : store.Continues store') : StartedWell configured chainsOf store' t := by
  cases t with
  | inForce startedAt routing => exact FromOneRevision.continues h hcont
  | changing | revision | routes _ | rules _ _ | limits _ _ _ | failed => trivial

/-- **What a step can do**: a commit, a read, or a failure. -/
theorem openStep_cases (h : openStep configured chainsOf x store t = some (store', t')) :
    (∃ revision tables, t = .changing ∧ t' = .changing ∧ x = .commit revision tables ∧
      store.commit revision tables = some store') ∨
    (store' = store ∧ x.changes = none ∧ (t' = .failed ∨ openNext configured chainsOf store t = some t')) := by
  unfold openStep at h
  split at h
  · rename_i revision tables
    obtain ⟨after, hcommit, heq⟩ := Option.map_eq_some_iff.mp h
    cases heq
    exact .inl ⟨revision, tables, rfl, rfl, rfl, hcommit⟩
  · obtain ⟨next, hnext, heq⟩ := Option.map_eq_some_iff.mp h
    cases heq
    exact .inr ⟨rfl, rfl, .inr hnext⟩
  · obtain ⟨next, -, heq⟩ := Option.map_eq_some_iff.mp h
    cases heq
    exact .inr ⟨rfl, rfl, .inl rfl⟩
  · cases h

/-- A read finds what these tables hold when that part is in storage as it is in them. -/
theorem openNext_readFrom {tables : Tables} {revision : RuleRevision} (hheld : store.Held revision tables)
    (hread : ReadFrom configured chainsOf tables t) (halike : UnreadAlike tables store.value t)
    (h : openNext configured chainsOf store t = some t') :
    ReadFrom configured chainsOf tables t' ∧ UnreadAlike tables store.value t' ∧
      StartedWell configured chainsOf store t' := by
  cases t with
  | changing | inForce _ _ | failed => cases h
  | revision =>
    cases h
    exact ⟨trivial, halike, trivial⟩
  | routes startedAt =>
    have hsame : store.value = tables := halike
    simp only [openNext] at h
    split at h
    · cases h
      exact ⟨trivial, trivial, trivial⟩
    · rename_i table htable
      cases h
      rw [hsame] at htable ⊢
      exact ⟨htable, ⟨rfl, rfl⟩, trivial⟩
  | rules startedAt table =>
    obtain ⟨hrules, hlimits⟩ := halike
    simp only [openNext] at h
    split at h
    · cases h
      exact ⟨trivial, trivial, trivial⟩
    · rename_i chains hchains
      cases h
      rw [hrules] at hchains
      exact ⟨⟨hread, hchains⟩, hlimits, trivial⟩
  | limits startedAt table chains =>
    have hlimits : store.value.limits = tables.limits := halike
    cases h
    refine ⟨trivial, trivial, revision, tables, hheld, hread.1, hread.2, ?_⟩
    show store.value.limits.map StoredLimit.limit = _
    rw [hlimits]

theorem unreadAlike_refl (tables : Tables) (t : Opener χ) : UnreadAlike tables tables t := by
  cases t with
  | rules _ _ => exact ⟨rfl, rfl⟩
  | revision | routes _ | limits _ _ _ => rfl
  | changing | inForce _ _ | failed => trivial

theorem ReadFrom.keeps {now next : Tables} (h : ReadFrom configured chainsOf now t)
    (hkeeps : t.KeepsRead now next) : ReadFrom configured chainsOf next t := by
  cases t with
  | rules startedAt table =>
    have hroutes : next.routes = now.routes := hkeeps
    show RoutingTable.assemble configured next.routes = .ok table
    rw [hroutes]
    exact h
  | limits startedAt table chains =>
    obtain ⟨hroutes, hrules⟩ := hkeeps
    show RoutingTable.assemble configured next.routes = .ok table ∧ chainsOf next.rules = .ok chains
    rw [hroutes, hrules]
    exact h
  | changing | revision | routes _ | inForce _ _ | failed => trivial

theorem UnreadAlike.spares {tables now next : Tables} (h : UnreadAlike tables now t)
    (hspares : t.SparesUnread now next) : UnreadAlike tables next t := by
  cases t with
  | revision | routes _ => exact Eq.trans hspares h
  | rules startedAt table => exact ⟨hspares.1.trans h.1, hspares.2.trans h.2⟩
  | limits startedAt table chains => exact Eq.trans hspares h
  | changing | inForce _ _ | failed => trivial

/-- While commits keep what was read, every node has read what storage holds now. -/
theorem reach_readFrom {p q : Pool Storage (Opener χ)}
    (h : Pool.Reach (openStep configured chainsOf) KeepsRead p q)
    (hp : ∀ t ∈ p.threads, ReadFrom configured chainsOf p.shared.value t ∧
      StartedWell configured chainsOf p.shared t) :
    ∀ t ∈ q.threads, ReadFrom configured chainsOf q.shared.value t ∧
      StartedWell configured chainsOf q.shared t := by
  refine h.invariant (I := fun q => ∀ t ∈ q.threads, ReadFrom configured chainsOf q.shared.value t ∧
    StartedWell configured chainsOf q.shared t) hp ?_
  intro store pre t post x store' t' hI hkeeps hs
  obtain ⟨revision, tables, rfl, rfl, rfl, hcommit⟩ | ⟨rfl, -, hread⟩ := openStep_cases hs
  · have hcont := Storage.commit_continues hcommit
    obtain ⟨hlt, rfl⟩ := Storage.commit_eq_some hcommit
    intro u hu
    exact ⟨(hI u hu).1.keeps (hkeeps tables rfl u hu), (hI u hu).2.continues hcont⟩
  · refine Pool.forall_moved hI ?_ fun u hu => hu
    rcases hread with rfl | hnext
    · exact ⟨trivial, trivial⟩
    · obtain ⟨hread, -, hwell⟩ := openNext_readFrom store'.held_now (hI t (by simp)).1
        (unreadAlike_refl store'.value t) hnext
      exact ⟨hread, hwell⟩

/-- While commits spare what is unread, every node reads what storage held when that began. -/
theorem reach_unreadAlike {tables : Tables} {p q : Pool Storage (Opener χ)}
    (h : Pool.Reach (openStep configured chainsOf) SparesUnread p q) {revision : RuleRevision}
    (hheld : p.shared.Held revision tables)
    (hp : ∀ t ∈ p.threads, ReadFrom configured chainsOf tables t ∧ UnreadAlike tables p.shared.value t ∧
      StartedWell configured chainsOf p.shared t) :
    ∀ t ∈ q.threads, StartedWell configured chainsOf q.shared t := by
  have hkept : q.shared.Held revision tables ∧ ∀ t ∈ q.threads, ReadFrom configured chainsOf tables t ∧
      UnreadAlike tables q.shared.value t ∧ StartedWell configured chainsOf q.shared t := by
    refine h.invariant (I := fun q => q.shared.Held revision tables ∧ ∀ t ∈ q.threads,
      ReadFrom configured chainsOf tables t ∧ UnreadAlike tables q.shared.value t ∧
      StartedWell configured chainsOf q.shared t) ⟨hheld, hp⟩ ?_
    intro store pre t post x store' t' hI hspares hs
    obtain ⟨next, changed, rfl, rfl, rfl, hcommit⟩ | ⟨rfl, -, hread⟩ := openStep_cases hs
    · have hcont := Storage.commit_continues hcommit
      obtain ⟨hlt, rfl⟩ := Storage.commit_eq_some hcommit
      refine ⟨hcont.held _ _ hI.1, ?_⟩
      intro u hu
      obtain ⟨hread, halike, hwell⟩ := hI.2 u hu
      exact ⟨hread, halike.spares (hspares changed rfl u hu), hwell.continues hcont⟩
    · refine ⟨hI.1, Pool.forall_moved hI.2 ?_ fun u hu => hu⟩
      rcases hread with rfl | hnext
      · exact ⟨trivial, trivial, trivial⟩
      · obtain ⟨hread, halike, -⟩ := hI.2 t (by simp)
        exact openNext_readFrom hI.1 hread halike hnext
  exact fun t ht => (hkept.2 t ht).2.2

end Steps

variable {configured chainsOf}

/-- **A node starts on one set of rules** in every run that has a moment such that no commit before it
changes what a starting node has read, and no commit after it changes what one has yet to read. -/
theorem starts_on_one_revision {store : Storage} {threads : List (Opener χ)}
    {m q : Pool Storage (Opener χ)} (hquiet : ∀ t ∈ threads, t = .changing ∨ t = .revision)
    (hbefore : Pool.Reach (openStep configured chainsOf) KeepsRead ⟨store, threads⟩ m)
    (hafter : Pool.Reach (openStep configured chainsOf) SparesUnread m q)
    {startedAt : RuleRevision} {routing : Routing χ} (hstarted : .inForce startedAt routing ∈ q.threads) :
    FromOneRevision configured chainsOf q.shared routing := by
  have hread := reach_readFrom hbefore (by
    intro t ht
    rcases hquiet t ht with rfl | rfl
    · exact ⟨trivial, trivial⟩
    · exact ⟨trivial, trivial⟩)
  refine reach_unreadAlike hafter m.shared.held_now ?_ _ hstarted
  intro t ht
  exact ⟨(hread t ht).1, unreadAlike_refl _ t, (hread t ht).2⟩

/-- Chains that are the rules they are built from. -/
def plainChains (rules : List PluginRule) : Except FeedError (List PluginRule) := .ok rules

/-- A route, and the plugin every flow runs. -/
def guarded : Storage := .start 1 ⟨[deeperRule], [shipped], []⟩

/-- A change to a part the node has yet to read: it starts on the rules after the change. -/
theorem starts_on_the_change :
    ∃ q routing, Pool.Reach (openStep [] plainChains) KeepsRead ⟨guarded, [.changing, .revision]⟩ q ∧
      .inForce 1 routing ∈ q.threads ∧ FromOneRevision [] plainChains q.shared routing := by
  have hrun : Pool.run (openStep [] plainChains) KeepsRead ⟨guarded, [.changing, .revision]⟩
      [(1, .go), (1, .go), (0, .commit 2 ⟨[deeperRule], [], []⟩), (1, .go), (1, .go)]
      = some ⟨guarded.move 2 ⟨[deeperRule], [], []⟩ (by decide),
        [.changing, .inForce 1 ⟨.fromRules [deeperRule], [], []⟩]⟩ := rfl
  have hreach := Pool.reach_of_run hrun
  have hmem : Opener.inForce 1 ⟨.fromRules [deeperRule], [], []⟩
      ∈ [Opener.changing, .inForce 1 ⟨.fromRules [deeperRule], ([] : List PluginRule), []⟩] := by simp
  exact ⟨_, _, hreach, hmem, starts_on_one_revision (by simp) hreach .refl hmem⟩

/-- **A start on rules that never stood together.**  Once the node has read the routes, the route goes,
and then the plugin: the node serves the route without the plugin, though at every revision storage stood
at the plugin was there as long as the route was. -/
theorem starts_on_no_revision :
    ∃ q routing, Pool.Reach (openStep [] plainChains) Pool.anyStep ⟨guarded, [.changing, .revision]⟩ q ∧
      .inForce 1 routing ∈ q.threads ∧ (routing.table.resolve deeperRule.key).isSome = true ∧
      routing.chains = [] ∧ ¬FromOneRevision [] plainChains q.shared routing := by
  have hrun : Pool.run (openStep [] plainChains) Pool.anyStep ⟨guarded, [.changing, .revision]⟩
      [(1, .go), (1, .go), (0, .commit 2 ⟨[], [shipped], []⟩), (0, .commit 3 noRules), (1, .go), (1, .go)]
      = some ⟨(guarded.move 2 ⟨[], [shipped], []⟩ (by decide)).move 3 noRules (by decide),
        [.changing, .inForce 1 ⟨.fromRules [deeperRule], [], []⟩]⟩ := rfl
  have hfound : ((RoutingTable.fromRules [deeperRule]).resolve deeperRule.key).isSome = true := by decide
  refine ⟨_, _, Pool.reach_of_run hrun, List.mem_cons_of_mem _ (List.mem_singleton.mpr rfl), hfound, rfl, ?_⟩
  rintro ⟨revision, tables, hheld, htable, hchains, -⟩
  have hrules : tables.rules = [] := Except.ok.inj hchains
  have hroutes : tables.routes ≠ [] := by
    intro hnone
    rw [hnone] at htable
    have hsame : RoutingTable.fromRules [] = .fromRules [deeperRule] := Except.ok.inj htable
    rw [← hsame] at hfound
    exact absurd hfound (by decide)
  have hall : ∀ e ∈ ((guarded.move 2 ⟨[], [shipped], []⟩ (by decide)).move 3 noRules (by decide)).entries,
      e.2.routes = [] ∨ e.2.rules ≠ [] := by decide
  rcases hall _ hheld with hnone | hsome
  · exact hroutes hnone
  · exact hsome hrules

end IntelliPrism.Rules
