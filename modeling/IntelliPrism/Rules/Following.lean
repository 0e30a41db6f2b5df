import IntelliPrism.Rules.Feed

/-!
# Following the published rules

A node starts from what storage holds and then follows the publication.  Its receiver is told of what is
published from the moment it subscribes; it waits until it is told of something it has not seen, and when
that is past what it has applied it reloads: it reads the publication, builds the table and the chains,
and puts them in force, trying again as long as that fails.

* `Watch`, `announce` — the channel the node is told through: the newest revision, and whether it was seen;
* `follow`, `Node.step` — a step of the node, of its receiver, of a publisher, of storage;
* `feed_simulated` — **the commits and publications of every run of the feed are such steps**;
* `Sound` — what every step keeps, and `reload_all_or_nothing`: **a failed reload leaves the rules in
  force, one that lands takes its table and its limits from one publication, and reloads only move on**.
-/

namespace IntelliPrism.Rules

open IntelliPrism.Lib IntelliPrism.Core IntelliPrism.Gateway

/-! ### The channel -/

/-- A watch channel: the value sent last, and whether its receiver has yet to see it. -/
structure Watch where
  value : RuleRevision
  unseen : Bool
  deriving DecidableEq

namespace Watch

/-- A new channel.  The value it starts with counts as seen. -/
def channel (value : RuleRevision) : Watch := ⟨value, false⟩

/-- The receiver has seen the value there is. -/
def seen (watch : Watch) : Watch := { watch with unseen := false }

end Watch

/-- Moves a follower on to a revision, when that is news to it. -/
def announce (watch : Watch) (revision : RuleRevision) : Watch :=
  if revision > watch.value then ⟨revision, true⟩ else watch

theorem le_announce (watch : Watch) (revision : RuleRevision) :
    watch.value ≤ (announce watch revision).value ∧ revision ≤ (announce watch revision).value := by
  unfold announce
  split
  · rename_i hnews
    exact ⟨Std.le_of_lt hnews, Std.le_refl _⟩
  · rename_i hold
    exact ⟨Std.le_refl _, Std.not_lt.mp hold⟩

/-! ### The node -/

abbrev Limits := List Limit

def Limits.new (limits : List StoredLimit) : Limits := limits.map StoredLimit.limit

/-- The rules in force: the table a request is routed by, the chains it is processed by, and the limits it
is checked against.  What a chain does is left open. -/
structure Routing (χ : Type) where
  table : RoutingTable
  chains : χ
  limits : Limits

/-- Where a node stands.  From `starting` on it remembers the revision it counts as applied; an attempt to
reload also remembers what was in force when it began, which no step reads. -/
inductive Loop (χ : Type) where
  | opening
  | loading (startedAt : RuleRevision)
  | starting (applied : RuleRevision)
  | subscribed (applied : RuleRevision)
  | waiting (applied : RuleRevision)
  | woken (applied : RuleRevision)
  | reading (applied : RuleRevision)
  | building (applied : RuleRevision) (before : Option (Routing χ)) (set : RuleSet) (table : RoutingTable)
  | failed (applied : RuleRevision) (before : Option (Routing χ))
  | stopped

/-- One node, with what it can see: the revision storage stands at and everything published so far, the
newest first.  `pending` is what was published since it subscribed and its receiver was not told yet;
`reloads` is what its reloads put in force, the newest first. -/
structure Node (χ : Type) where
  stored : RuleRevision
  publications : List Published
  pending : List RuleRevision
  watch : Option Watch
  routing : Option (Routing χ)
  reloads : List (RuleRevision × Routing χ)
  pc : Loop χ

variable {χ : Type}

/-- Whether what is published now reaches the node's receiver. -/
def Loop.listens : Loop χ → Bool
  | .opening | .loading _ | .starting _ => false
  | _ => true

namespace Node

/-- A node that has not read anything yet. -/
def opened (stored : RuleRevision) (publications : List Published) : Node χ :=
  ⟨stored, publications, [], none, none, [], .opening⟩

def published (node : Node χ) : Option Published := node.publications.head?

/-- The revision published now, or zero. -/
def revision (node : Node χ) : RuleRevision := node.published.elim 0 Published.revision

end Node

/-- Who takes the next step. -/
inductive Actor where
  | storage
  | publisher
  | receiver
  | node
  deriving DecidableEq

/-- What a step is given. -/
inductive Event (χ : Type) where
  | commit (revision : RuleRevision)
  | publish (published : Published)
  | announce (i : ℕ)
  | loaded (routing : Routing χ)
  | go
  | fault (error : FeedError)
  | chains (built : Except FeedError χ)
  | changed
  | closed

/-- A change of the rules, which moves the revision on. -/
def Node.commit (node : Node χ) (revision : RuleRevision) : Option (Node χ) :=
  if node.stored < revision then some { node with stored := revision } else none

/-- A publication of what storage held at some revision, past the one published. -/
def Node.publish (node : Node χ) (published : Published) : Option (Node χ) :=
  if (∀ old ∈ node.published, old.revision < published.revision) ∧ published.revision ≤ node.stored then
    some { node with
      publications := published :: node.publications
      pending := if node.pc.listens then node.pending ++ [published.revision] else node.pending }
  else none

/-- The receiver is told of one publication, and so of those before it. -/
def Node.tell (node : Node χ) (i : ℕ) : Option (Node χ) :=
  match node.watch, node.pending[i]? with
  | some watch, some revision =>
    some { node with
      watch := some (announce watch revision)
      pending := node.pending.filter (revision < ·) }
  | _, _ => none

variable (codec : Codec) (configured : List RouteRule)

/-- The part of a reload before the chains: what is published is read and its table built. -/
def readPublished (node : Node χ) (applied : RuleRevision) : Loop χ :=
  match node.published with
  | none => .waiting applied
  | some published =>
    match readBack codec published with
    | .error _ => .failed applied node.routing
    | .ok set =>
      match RoutingTable.assemble configured set.routes with
      | .error _ => .failed applied node.routing
      | .ok table => .building applied node.routing set table

/-- Puts a new table, new chains and new limits in force, in one store. -/
def Node.replace (node : Node χ) (set : RuleSet) (table : RoutingTable) (chains : χ) : Node χ :=
  let routing := ⟨table, chains, Limits.new set.limits⟩
  { node with
    routing := some routing
    reloads := (set.revision, routing) :: node.reloads
    pc := .waiting set.revision }

def follow (x : Event χ) (node : Node χ) : Option (Node χ) :=
  match node.pc, x with
  | .opening, .go => some { node with pc := .loading node.stored }
  | .loading startedAt, .loaded routing => some { node with routing := some routing, pc := .starting startedAt }
  | .starting applied, .go => some { node with pending := [], pc := .subscribed applied }
  | .starting _, .fault _ => some { node with pc := .stopped }
  | .subscribed applied, .go =>
    some { node with watch := some (.channel node.revision), pc := .waiting applied }
  | .subscribed _, .fault _ => some { node with pc := .stopped }
  | .waiting applied, .go =>
    match node.watch with
    | some ⟨value, true⟩ => some { node with watch := some ⟨value, false⟩, pc := .woken applied }
    | _ => none
  | .waiting _, .closed => some { node with pc := .stopped }
  | .woken applied, .go =>
    match node.watch with
    | none => none
    | some watch =>
      some { node with
        watch := some watch.seen
        pc := if watch.value ≤ applied then .waiting applied else .reading applied }
  | .reading applied, .go => some { node with pc := readPublished codec configured node applied }
  | .reading applied, .fault _ => some { node with pc := .failed applied node.routing }
  | .building _ _ set table, .chains (.ok chains) => some (node.replace set table chains)
  | .building applied before _ _, .chains (.error _) => some { node with pc := .failed applied before }
  -- a reload that failed is tried again after a while, or when there is something newer
  | .failed applied _, .go => some { node with pc := .reading applied }
  | .failed applied _, .changed =>
    match node.watch with
    | some ⟨value, true⟩ => some { node with watch := some ⟨value, false⟩, pc := .reading applied }
    | _ => none
  -- nobody is left to tell it anything: the loop ends with the wait that follows
  | .failed _ _, .closed => some { node with pc := .stopped }
  | _, _ => none

def Node.step : Program (Event χ) (Node χ) Actor := fun x node actor =>
  (match actor, x with
  | .storage, .commit revision => node.commit revision
  | .publisher, .publish published => node.publish published
  | .receiver, .announce i => node.tell i
  | .node, x => follow codec configured x node
  | _, _ => none).map (·, actor)

/-- What a step of the node can do. -/
inductive Moves (node : Node χ) : Node χ → Prop where
  | read (hpc : node.pc = .opening) : Moves node { node with pc := .loading node.stored }
  | load {startedAt : RuleRevision} (routing : Routing χ) (hpc : node.pc = .loading startedAt) :
      Moves node { node with routing := some routing, pc := .starting startedAt }
  | subscribe {applied : RuleRevision} (hpc : node.pc = .starting applied) :
      Moves node { node with pending := [], pc := .subscribed applied }
  | join {applied : RuleRevision} (hpc : node.pc = .subscribed applied) :
      Moves node { node with watch := some (.channel node.revision), pc := .waiting applied }
  | wake {applied value : RuleRevision} (hpc : node.pc = .waiting applied)
      (hwatch : node.watch = some ⟨value, true⟩) :
      Moves node { node with watch := some ⟨value, false⟩, pc := .woken applied }
  | pass {applied : RuleRevision} {watch : Watch} (hpc : node.pc = .woken applied)
      (hwatch : node.watch = some watch) (hle : watch.value ≤ applied) :
      Moves node { node with watch := some watch.seen, pc := .waiting applied }
  | turn {applied : RuleRevision} {watch : Watch} (hpc : node.pc = .woken applied)
      (hwatch : node.watch = some watch) (hlt : applied < watch.value) :
      Moves node { node with watch := some watch.seen, pc := .reading applied }
  | attempt {applied : RuleRevision} (hpc : node.pc = .reading applied) :
      Moves node { node with pc := readPublished codec configured node applied }
  | unread {applied : RuleRevision} (hpc : node.pc = .reading applied) :
      Moves node { node with pc := .failed applied node.routing }
  | land {applied : RuleRevision} {before : Option (Routing χ)} {set : RuleSet} {table : RoutingTable}
      (chains : χ) (hpc : node.pc = .building applied before set table) :
      Moves node (node.replace set table chains)
  | unbuilt {applied : RuleRevision} {before : Option (Routing χ)} {set : RuleSet} {table : RoutingTable}
      (hpc : node.pc = .building applied before set table) :
      Moves node { node with pc := .failed applied before }
  | retry {applied : RuleRevision} {before : Option (Routing χ)} (hpc : node.pc = .failed applied before) :
      Moves node { node with pc := .reading applied }
  | hurry {applied value : RuleRevision} {before : Option (Routing χ)}
      (hpc : node.pc = .failed applied before) (hwatch : node.watch = some ⟨value, true⟩) :
      Moves node { node with watch := some ⟨value, false⟩, pc := .reading applied }
  | stop : Moves node { node with pc := .stopped }

theorem follow_moves {x : Event χ} {node node' : Node χ}
    (h : follow codec configured x node = some node') : Moves codec configured node node' := by
  unfold follow at h
  split at h <;> rename_i hpc
  · exact Option.some.inj h ▸ .read hpc
  · exact Option.some.inj h ▸ .load _ hpc
  · exact Option.some.inj h ▸ .subscribe hpc
  · exact Option.some.inj h ▸ .stop
  · exact Option.some.inj h ▸ .join hpc
  · exact Option.some.inj h ▸ .stop
  · split at h
    · rename_i hwatch
      exact Option.some.inj h ▸ .wake hpc hwatch
    · cases h
  · exact Option.some.inj h ▸ .stop
  · split at h
    · cases h
    · rename_i watch hwatch
      rw [← Option.some.inj h]
      split
      · rename_i hle
        exact .pass hpc hwatch hle
      · rename_i hnot
        exact .turn hpc hwatch (Std.not_le.mp hnot)
  · exact Option.some.inj h ▸ .attempt hpc
  · exact Option.some.inj h ▸ .unread hpc
  · exact Option.some.inj h ▸ .land _ hpc
  · exact Option.some.inj h ▸ .unbuilt hpc
  · exact Option.some.inj h ▸ .retry hpc
  · split at h
    · rename_i hwatch
      exact Option.some.inj h ▸ .hurry hpc hwatch
    · cases h
  · exact Option.some.inj h ▸ .stop
  · cases h

/-! ### What every step keeps -/

/-- What a reload put in force has its table and its limits from one publication. -/
def TakenFrom (publications : List Published) (reload : RuleRevision × Routing χ) : Prop :=
  ∃ published ∈ publications, ∃ set, readBack codec published = .ok set ∧
    reload.1 = published.revision ∧
    RoutingTable.assemble configured set.routes = .ok reload.2.table ∧
    reload.2.limits = set.limits.map StoredLimit.limit

/-- What holds of a node that stands somewhere: the reloads so far are not past what it counts as applied,
and an attempt to reload is made for something that is, with the rules in force as they were. -/
def Fits (node : Node χ) : Loop χ → Prop
  | .opening | .loading _ => node.reloads = []
  | .starting applied | .subscribed applied | .waiting applied | .woken applied =>
    ∀ e ∈ node.reloads, e.1 ≤ applied
  | .reading applied => (∀ e ∈ node.reloads, e.1 ≤ applied) ∧ applied < node.revision
  | .building applied before set table =>
    (∀ e ∈ node.reloads, e.1 ≤ applied) ∧ applied < node.revision ∧ before = node.routing ∧
      applied < set.revision ∧ ∃ published ∈ node.publications, readBack codec published = .ok set ∧
        RoutingTable.assemble configured set.routes = .ok table
  | .failed applied before =>
    (∀ e ∈ node.reloads, e.1 ≤ applied) ∧ applied < node.revision ∧ before = node.routing
  | .stopped => True

/-- What every step of every actor keeps. -/
structure Sound (node : Node χ) : Prop where
  heard : ∀ watch ∈ node.watch, watch.value ≤ node.revision
  queued : ∀ revision ∈ node.pending, revision ≤ node.revision
  increasing : node.reloads.Pairwise fun later earlier => earlier.1 < later.1
  taken : ∀ e ∈ node.reloads, TakenFrom codec configured node.publications e
  inForce : ∀ e ∈ node.reloads.head?, node.routing = some e.2
  standing : Fits codec configured node node.pc

section Steps

variable {codec configured} {node node' : Node χ}

theorem readBack_revision {published : Published} {set : RuleSet}
    (h : readBack codec published = .ok set) : set.revision = published.revision := by
  unfold readBack at h
  split at h
  · cases h
  · split at h
    · cases h
    · cases h
      rfl

theorem announce_le {watch : Watch} {revision bound : RuleRevision} (hwatch : watch.value ≤ bound)
    (hrevision : revision ≤ bound) : (announce watch revision).value ≤ bound := by
  unfold announce
  split
  · exact hrevision
  · exact hwatch

/-- Nothing changed for the node but that more may have been published. -/
structure Grows (node node' : Node χ) : Prop where
  pc : node'.pc = node.pc
  reloads : node'.reloads = node.reloads
  routing : node'.routing = node.routing
  revision : node.revision ≤ node'.revision
  publications : node.publications ⊆ node'.publications

theorem TakenFrom.mono {publications publications' : List Published} {e : RuleRevision × Routing χ}
    (h : TakenFrom codec configured publications e) (hsub : publications ⊆ publications') :
    TakenFrom codec configured publications' e := by
  obtain ⟨published, hmem, rest⟩ := h
  exact ⟨published, hsub hmem, rest⟩

theorem Fits.grows {pc : Loop χ} (h : Fits codec configured node pc) (hgrows : Grows node node') :
    Fits codec configured node' pc := by
  cases pc with
  | opening | loading _ | starting _ | subscribed _ | waiting _ | woken _ =>
    unfold Fits at h ⊢
    rwa [hgrows.reloads]
  | reading applied =>
    unfold Fits at h ⊢
    rw [hgrows.reloads]
    exact ⟨h.1, Std.lt_of_lt_of_le h.2 hgrows.revision⟩
  | building applied before set table =>
    obtain ⟨hle, hlt, hbefore, hset, published, hmem, hbuilt⟩ := h
    unfold Fits
    rw [hgrows.reloads, hgrows.routing]
    exact ⟨hle, Std.lt_of_lt_of_le hlt hgrows.revision, hbefore, hset, published,
      hgrows.publications hmem, hbuilt⟩
  | failed applied before =>
    unfold Fits at h ⊢
    rw [hgrows.reloads, hgrows.routing]
    exact ⟨h.1, Std.lt_of_lt_of_le h.2.1 hgrows.revision, h.2.2⟩
  | stopped => trivial

theorem Sound.grows (h : Sound codec configured node) (hgrows : Grows node node')
    (hheard : ∀ watch ∈ node'.watch, watch.value ≤ node'.revision)
    (hqueued : ∀ revision ∈ node'.pending, revision ≤ node'.revision) :
    Sound codec configured node' where
  heard := hheard
  queued := hqueued
  increasing := hgrows.reloads ▸ h.increasing
  taken := by
    rw [hgrows.reloads]
    exact fun e he => (h.taken e he).mono hgrows.publications
  inForce := by
    rw [hgrows.reloads, hgrows.routing]
    exact h.inForce
  standing := by
    rw [hgrows.pc]
    exact h.standing.grows hgrows

/-! ### What the others do -/

theorem commit_eq_some {revision : RuleRevision} (h : node.commit revision = some node') :
    node.stored < revision ∧ node' = { node with stored := revision } := by
  unfold Node.commit at h
  split at h
  · rename_i hlt
    exact ⟨hlt, (Option.some.inj h).symm⟩
  · cases h

theorem publish_eq_some {published : Published} (h : node.publish published = some node') :
    node.revision ≤ published.revision ∧ node' = { node with
      publications := published :: node.publications
      pending := if node.pc.listens then node.pending ++ [published.revision] else node.pending } := by
  unfold Node.publish at h
  split at h
  · rename_i hnew
    refine ⟨?_, (Option.some.inj h).symm⟩
    unfold Node.revision
    cases hnow : node.published with
    | none => exact UInt64.le_iff_toNat_le.mpr (Nat.zero_le _)
    | some old => exact Std.le_of_lt (hnew.1 old hnow)
  · cases h

theorem tell_eq_some {i : ℕ} (h : node.tell i = some node') :
    ∃ watch revision, node.watch = some watch ∧ revision ∈ node.pending ∧ node' = { node with
      watch := some (announce watch revision)
      pending := node.pending.filter (revision < ·) } := by
  unfold Node.tell at h
  split at h
  · rename_i watch revision hwatch hget
    exact ⟨watch, revision, hwatch, List.mem_of_getElem? hget, (Option.some.inj h).symm⟩
  · cases h

theorem Sound.commit {revision : RuleRevision} (h : Sound codec configured node)
    (hs : node.commit revision = some node') : Sound codec configured node' := by
  obtain ⟨-, rfl⟩ := commit_eq_some hs
  exact h.grows ⟨rfl, rfl, rfl, Std.le_refl _, fun _ hmem => hmem⟩ h.heard h.queued

theorem Sound.publish {published : Published} (h : Sound codec configured node)
    (hs : node.publish published = some node') : Sound codec configured node' := by
  obtain ⟨hle, rfl⟩ := publish_eq_some hs
  refine h.grows ⟨rfl, rfl, rfl, hle, fun _ hmem => List.mem_cons_of_mem _ hmem⟩ ?_ ?_
  · exact fun watch hwatch => Std.le_trans (h.heard watch hwatch) hle
  · have hold : ∀ revision ∈ node.pending, revision ≤ published.revision :=
      fun revision hmem => Std.le_trans (h.queued revision hmem) hle
    intro revision hmem
    show revision ≤ published.revision
    simp only at hmem
    split at hmem
    · rcases List.mem_append.mp hmem with hbefore | hnew
      · exact hold revision hbefore
      · rw [List.mem_singleton.mp hnew]
        exact Std.le_refl _
    · exact hold revision hmem

theorem Sound.tell {i : ℕ} (h : Sound codec configured node) (hs : node.tell i = some node') :
    Sound codec configured node' := by
  obtain ⟨watch, revision, hwatch, hmem, rfl⟩ := tell_eq_some hs
  refine h.grows ⟨rfl, rfl, rfl, Std.le_refl _, fun _ hmem => hmem⟩ ?_ ?_
  · intro told htold
    cases htold
    exact announce_le (h.heard watch hwatch) (h.queued revision hmem)
  · exact fun queued hqueued => h.queued queued (List.mem_of_mem_filter hqueued)

/-! ### What the node does -/

theorem Sound.move (h : Sound codec configured node) {watch : Option Watch} {pending : List RuleRevision}
    {pc : Loop χ} (hheard : ∀ told ∈ watch, told.value ≤ node.revision)
    (hqueued : ∀ revision ∈ pending, revision ≤ node.revision) (hfits : Fits codec configured node pc) :
    Sound codec configured { node with watch, pending, pc } where
  heard := hheard
  queued := hqueued
  increasing := h.increasing
  taken := h.taken
  inForce := h.inForce
  standing := hfits

/-- A reload that read the publication is for something past what was applied. -/
theorem fits_readPublished {applied : RuleRevision} (h : Fits codec configured node (.reading applied)) :
    Fits codec configured node (readPublished codec configured node applied) := by
  obtain ⟨hle, hlt⟩ := h
  unfold readPublished
  split
  · exact hle
  · rename_i published hpublished
    split
    · exact ⟨hle, hlt, rfl⟩
    · rename_i set hset
      split
      · exact ⟨hle, hlt, rfl⟩
      · rename_i table htable
        have hrevision : node.revision = set.revision := by
          rw [readBack_revision hset, Node.revision, hpublished]
          rfl
        exact ⟨hle, hlt, rfl, hrevision ▸ hlt, published, List.mem_of_head? hpublished, hset, htable⟩

theorem Sound.replace {applied : RuleRevision} {before : Option (Routing χ)} {set : RuleSet}
    {table : RoutingTable} (h : Sound codec configured node)
    (hfits : Fits codec configured node (.building applied before set table)) (chains : χ) :
    Sound codec configured (node.replace set table chains) := by
  obtain ⟨hle, -, -, hlt, published, hmem, hread, htable⟩ := hfits
  have hpast : ∀ e ∈ node.reloads, e.1 < set.revision :=
    fun e he => Std.lt_of_le_of_lt (hle e he) hlt
  refine ⟨h.heard, h.queued, List.pairwise_cons.mpr ⟨hpast, h.increasing⟩, ?_, ?_, ?_⟩
  · intro e he
    rcases List.mem_cons.mp he with rfl | hmem'
    · exact ⟨published, hmem, set, hread, readBack_revision hread, htable, rfl⟩
    · exact h.taken e hmem'
  · rintro e ⟨⟩
    rfl
  · intro e he
    rcases List.mem_cons.mp he with rfl | hmem'
    · exact Std.le_refl _
    · exact Std.le_of_lt (hpast e hmem')

theorem Sound.fits (h : Sound codec configured node) {pc : Loop χ} (hpc : node.pc = pc) :
    Fits codec configured node pc := hpc ▸ h.standing

theorem Sound.heard_seen (h : Sound codec configured node) {watch : Watch}
    (hwatch : node.watch = some watch) : ∀ told ∈ some watch.seen, told.value ≤ node.revision := by
  intro told htold
  cases htold
  show watch.value ≤ node.revision
  exact h.heard watch hwatch

theorem Sound.moves (h : Sound codec configured node) (hmoves : Moves codec configured node node') :
    Sound codec configured node' := by
  cases hmoves with
  | read hpc =>
    have hfits := h.fits hpc
    exact h.move h.heard h.queued hfits
  | load routing hpc =>
    have hnone : node.reloads = [] := h.fits hpc
    refine ⟨h.heard, h.queued, h.increasing, h.taken, ?_, ?_⟩
    · show ∀ e ∈ node.reloads.head?, _
      rw [hnone]
      exact fun e he => nomatch he
    · show ∀ e ∈ node.reloads, _
      rw [hnone]
      exact fun e he => nomatch he
  | subscribe hpc =>
    have hfits := h.fits hpc
    exact h.move h.heard (fun _ hmem => nomatch hmem) hfits
  | join hpc =>
    have hfits := h.fits hpc
    refine h.move ?_ h.queued hfits
    intro told htold
    cases htold
    exact Std.le_refl _
  | wake hpc hwatch =>
    have hfits := h.fits hpc
    exact h.move (h.heard_seen hwatch) h.queued hfits
  | pass hpc hwatch hle =>
    have hfits := h.fits hpc
    exact h.move (h.heard_seen hwatch) h.queued hfits
  | turn hpc hwatch hlt =>
    exact h.move (h.heard_seen hwatch) h.queued
      ⟨h.fits hpc, Std.lt_of_lt_of_le hlt (h.heard _ hwatch)⟩
  | attempt hpc => exact h.move h.heard h.queued (fits_readPublished (h.fits hpc))
  | unread hpc =>
    obtain ⟨hle, hlt⟩ := h.fits hpc
    exact h.move h.heard h.queued ⟨hle, hlt, rfl⟩
  | land chains hpc => exact h.replace (h.fits hpc) chains
  | unbuilt hpc =>
    obtain ⟨hle, hlt, hbefore, -⟩ := h.fits hpc
    exact h.move h.heard h.queued ⟨hle, hlt, hbefore⟩
  | retry hpc =>
    obtain ⟨hle, hlt, -⟩ := h.fits hpc
    exact h.move h.heard h.queued ⟨hle, hlt⟩
  | hurry hpc hwatch =>
    obtain ⟨hle, hlt, -⟩ := h.fits hpc
    exact h.move (h.heard_seen hwatch) h.queued ⟨hle, hlt⟩
  | stop => exact h.move h.heard h.queued trivial

theorem Node.step_cases {x : Event χ} {actor actor' : Actor}
    (h : Node.step codec configured x node actor = some (node', actor')) :
    (∃ revision, node.commit revision = some node') ∨ (∃ published, node.publish published = some node') ∨
      (∃ i, node.tell i = some node') ∨
      (actor = .node ∧ follow codec configured x node = some node') := by
  obtain ⟨after, hafter, heq⟩ := Option.map_eq_some_iff.mp h
  cases heq
  split at hafter
  · exact .inl ⟨_, hafter⟩
  · exact .inr (.inl ⟨_, hafter⟩)
  · exact .inr (.inr (.inl ⟨_, hafter⟩))
  · exact .inr (.inr (.inr ⟨rfl, hafter⟩))
  · cases hafter

theorem Sound.step {x : Event χ} {actor actor' : Actor} (h : Sound codec configured node)
    (hs : Node.step codec configured x node actor = some (node', actor')) :
    Sound codec configured node' := by
  obtain ⟨revision, hcommit⟩ | ⟨published, hpublish⟩ | ⟨i, htell⟩ | ⟨-, hfollow⟩ := Node.step_cases hs
  · exact h.commit hcommit
  · exact h.publish hpublish
  · exact h.tell htell
  · exact h.moves (follow_moves codec configured hfollow)

theorem sound_opened (stored : RuleRevision) (publications : List Published) :
    Sound codec configured (Node.opened stored publications : Node χ) where
  heard := fun _ hwatch => nomatch hwatch
  queued := fun _ hmem => nomatch hmem
  increasing := .nil
  taken := fun _ he => nomatch he
  inForce := fun _ he => nomatch he
  standing := rfl

theorem reach_sound {C : Guard (Event χ) (Node χ) Actor} {p q : Pool (Node χ) Actor}
    (h : Pool.Reach (Node.step codec configured) C p q) (hp : Sound codec configured p.shared) :
    Sound codec configured q.shared := by
  refine h.invariant (I := fun q => Sound codec configured q.shared) hp ?_
  intro node pre actor post x node' actor' hsound _ hs
  exact Sound.step hsound hs

/-! ### The feed's commits and publications -/

/-- A node that sees what the feed's storage and topic are at. -/
structure Sees (node : Node χ) (w : World) : Prop where
  published : w.topic.published = .ok node.published
  stored : node.stored = w.store.version

theorem Sees.commit {w : World} (hsees : Sees node w) {store : Storage}
    (hcont : w.store.Continues store) :
    ∃ node', Sees node' { w with store } ∧ (node' = node ∨ node.commit store.version = some node') := by
  by_cases hlater : node.stored < store.version
  · exact ⟨{ node with stored := store.version }, ⟨hsees.published, rfl⟩, .inr (if_pos hlater)⟩
  · have hversion : node.stored = store.version :=
      Std.le_antisymm (hsees.stored ▸ hcont.version) (Std.not_lt.mp hlater)
    exact ⟨node, ⟨hsees.published, hversion⟩, .inl rfl⟩

theorem Sees.publish {w : World} (hsees : Sees node w) {topic : Topic} {now : Published}
    (holder : OlderThan w.topic now.revision) (hwritten : WrittenAt codec w.store now.revision now.value)
    (hpublished : topic.published = .ok (some now)) :
    ∃ node', Sees node' { w with topic } ∧ node.publish now = some node' := by
  obtain ⟨before, hbefore, hold⟩ := holder
  obtain ⟨tables, hheld, -⟩ := hwritten
  rw [hsees.published] at hbefore
  cases hbefore
  have hpublish : node.publish now = some _ := if_pos ⟨hold, hsees.stored ▸ hheld.le⟩
  refine ⟨_, ?_, hpublish⟩
  exact ⟨hpublished, hsees.stored⟩

variable (configured) in
theorem Effect.seen {w w' : World} (h : Effect codec w w') (hsees : Sees node w) :
    ∃ node', Sees node' w' ∧ Pool.Reach (Node.step codec configured) Pool.anyStep
      ⟨node, [.storage, .publisher]⟩ ⟨node', [.storage, .publisher]⟩ := by
  cases h with
  | none => exact ⟨node, hsees, .refl⟩
  | @commit store continues =>
    obtain ⟨node', hsees', rfl | hcommit⟩ := hsees.commit continues
    · exact ⟨node', hsees', .refl⟩
    · have hstep : Node.step codec configured (.commit store.version) node .storage
          = some (node', .storage) := congrArg (Option.map (·, Actor.storage)) hcommit
      exact ⟨node', hsees', .single (.mk [] [.publisher] trivial hstep)⟩
  | @land topic now older written published =>
    obtain ⟨node', hsees', hpublish⟩ := hsees.publish older written published
    have hstep : Node.step codec configured (.publish now) node .publisher = some (node', .publisher) :=
      congrArg (Option.map (·, Actor.publisher)) hpublish
    exact ⟨node', hsees', .single (.mk [.storage] [] trivial hstep)⟩

/-- **The commits and publications of every run of the feed are steps of storage and of a publisher.** -/
theorem feed_simulated {lua : Lua} {C : Guard Input World Thread} {p q : Pool World Thread}
    (h : Pool.Reach (step codec lua) C p q)
    (hp : Pool.Local (Faithful codec) (fun w => Carries codec w.store) p) (hsees : Sees node p.shared) :
    ∃ node', Sees node' q.shared ∧ Pool.Reach (Node.step codec configured) Pool.anyStep
      ⟨node, [.storage, .publisher]⟩ ⟨node', [.storage, .publisher]⟩ := by
  induction h with
  | refl => exact ⟨node, hsees, .refl⟩
  | tail hbefore hlast ih =>
    obtain ⟨node₁, hsees₁, hreach₁⟩ := ih
    obtain ⟨pre, post, -, hs⟩ := hlast
    have hcarries := (reach_carries hbefore hp).2 _ (List.mem_append_right pre List.mem_cons_self)
    obtain ⟨node₂, hsees₂, hreach₂⟩ := (step_effect hcarries hs).1.seen configured hsees₁
    exact ⟨node₂, hsees₂, hreach₁.trans hreach₂⟩

end Steps

/-- **Reloading is all or nothing and never goes back.**  In every interleaving of commits, publications
with increasing revisions, announcements after them, and the steps of one node, reloads that fail
included: after an attempt that failed the table, the chains and the limits in force are those it began
with; whatever a reload put in force has its table and its limits from one publication; and what later
reloads put in force is of later revisions. -/
theorem reload_all_or_nothing {stored : RuleRevision} {publications : List Published}
    {actors : List Actor} {p : Pool (Node χ) Actor}
    (h : Pool.Reach (Node.step codec configured) Pool.anyStep ⟨.opened stored publications, actors⟩ p) :
    (∀ applied before, p.shared.pc = .failed applied before → p.shared.routing = before) ∧
    (∀ e ∈ p.shared.reloads, TakenFrom codec configured p.shared.publications e) ∧
    (∀ e ∈ p.shared.reloads.head?, p.shared.routing = some e.2) ∧
    p.shared.reloads.Pairwise fun later earlier => earlier.1 < later.1 := by
  have hsound := reach_sound h (sound_opened stored publications)
  refine ⟨?_, hsound.taken, hsound.inForce, hsound.increasing⟩
  intro applied before hpc
  obtain ⟨-, -, hbefore⟩ := hsound.fits hpc
  exact hbefore.symm

/-- A table of no rules, chains that do nothing, and no limits. -/
def bare : Routing Unit := ⟨.fromRules [], (), []⟩

/-- The actors of a run, in the order its schedule counts them. -/
def everyone : List Actor := [.storage, .publisher, .receiver, .node]

/-- A node starts, follows, and reloads the first change. -/
def firstReload : List (ℕ × Event Unit) :=
  [(3, .go), (3, .loaded bare), (3, .go), (3, .go), (0, .commit 1), (1, .publish ⟨1, oneRuleJson⟩),
    (2, .announce 0), (3, .go), (3, .go), (3, .go), (3, .chains (.ok ()))]

/-- The next publication is not json, and so a reload fails; the one after it lands. -/
def failedReload : List (ℕ × Event Unit) :=
  [(0, .commit 2), (1, .publish ⟨2, []⟩), (2, .announce 0), (3, .go), (3, .go), (3, .go),
    (0, .commit 3), (1, .publish ⟨3, noRulesJson⟩), (2, .announce 0), (3, .changed), (3, .go),
    (3, .chains (.ok ()))]

theorem two_reloads_land :
    ∃ p : Pool (Node Unit) Actor,
      Pool.Reach (Node.step twoSets []) Pool.anyStep ⟨.opened 0 [], everyone⟩ p ∧
      p.shared.reloads.map Prod.fst = [3, 1] ∧
      (∀ e ∈ p.shared.reloads, TakenFrom twoSets [] p.shared.publications e) ∧
      ∀ e ∈ p.shared.reloads.head?, p.shared.routing = some e.2 := by
  have hrun : (Pool.run (Node.step twoSets []) Pool.anyStep ⟨.opened 0 [], everyone⟩
      (firstReload ++ failedReload)).any (fun p => decide (p.shared.reloads.map Prod.fst = [3, 1]))
        = true := by
    decide +kernel
  obtain ⟨p, hp, htest⟩ := Pool.exists_reach_of_run hrun
  have hkept := reload_all_or_nothing twoSets [] hp
  exact ⟨p, hp, of_decide_eq_true htest, hkept.2.1, hkept.2.2.1⟩

end IntelliPrism.Rules
