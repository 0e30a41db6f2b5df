import IntelliPrism.Lib.Interleaving

/-!
# Waiting for the records

A record is written off the request path, counted from before it is spawned until after it is written.  A
shutdown waits until none is counted: it reads the count, enables a wait, reads the count again, and only
then waits.  The record that takes the count to nothing tells the waits that are enabled, a step later.

* `Party.step` — the text of `Pending::writing` and of `Pending::settled`, one atomic step at a time;
* `Settles` — what every interleaving keeps, by `settles_step`: the count is the records in flight, and a
  wait nobody has told yet has a record in flight or one that is about to tell it;
* `settled_waits_and_wakes` — **a shutdown waits for every record and no wake-up is lost**;
* `Settles.settled_returns` — once nothing is in flight, a `settled` call returns by steps of its own.
-/

namespace IntelliPrism.Gateway

open IntelliPrism.Lib

/-- The records still being written: how many there are, and how often those waiting for none were told,
which is what a wait remembers of `Notify` when it is enabled. -/
structure Pending where
  inFlight : ℕ
  idle : ℕ
  deriving Repr, DecidableEq

/-- Where a record is in `writing`. -/
inductive Writing where
  | starting
  | working
  | notifying
  | written
  deriving Repr, DecidableEq

/-- Where a call of `settled` is. -/
inductive Settling where
  | reading
  | enabling
  | rereading (enabled : ℕ)
  | waiting (enabled : ℕ)
  | returned
  deriving Repr, DecidableEq

/-- Who works on the count. -/
inductive Party where
  | record (writing : Writing)
  | settled (settling : Settling)
  deriving Repr, DecidableEq

namespace Party

/-- One atomic step.  A wait that was not told since it was enabled takes none. -/
def step : Program Unit Pending Party := fun _ pending party =>
  match party with
  | record .starting => some ({ pending with inFlight := pending.inFlight + 1 }, record .working)
  | record .working =>
    -- `fetch_sub` answers with what was there before
    some ({ pending with inFlight := pending.inFlight - 1 },
      record (if pending.inFlight = 1 then .notifying else .written))
  | record .notifying => some ({ pending with idle := pending.idle + 1 }, record .written)
  | record .written => none
  | settled .reading => some (pending, settled (if 0 < pending.inFlight then .enabling else .returned))
  | settled .enabling => some (pending, settled (.rereading pending.idle))
  | settled (.rereading enabled) =>
    some (pending, settled (if pending.inFlight = 0 then .returned else .waiting enabled))
  | settled (.waiting enabled) =>
    if pending.idle = enabled then none else some (pending, settled .reading)
  | settled .returned => none

/-- One for a record in flight: counted, and not yet written. -/
def inFlight : Party → ℕ
  | record .working => 1
  | _ => 0

/-- One for a record that is still to tell those waiting. -/
def notifying : Party → ℕ
  | record .notifying => 1
  | _ => 0

/-- How often waits had been told when this one was enabled. -/
def enabled : Party → Option ℕ
  | settled (.rereading enabled) => some enabled
  | settled (.waiting enabled) => some enabled
  | _ => none

end Party

def inFlight (parties : List Party) : ℕ := Pool.tally Party.inFlight parties

/-- How many records are still to tell those waiting. -/
def notifying (parties : List Party) : ℕ := Pool.tally Party.notifying parties

/-- Records and `settled` calls none of which has taken a step. -/
structure NoneBegun (p : Pool Pending Party) : Prop where
  none : p.shared.inFlight = 0
  begins : ∀ party ∈ p.threads, party = .record .starting ∨ party = .settled .reading

/-- What every interleaving keeps. -/
structure Settles (p : Pool Pending Party) : Prop where
  /-- The count is the records in flight. -/
  counted : p.shared.inFlight = inFlight p.threads
  /-- No wait remembers a telling that is still to come. -/
  earlier : ∀ party ∈ p.threads, ∀ enabled ∈ party.enabled, enabled ≤ p.shared.idle
  /-- A wait nobody told has a record in flight or one that will tell it. -/
  awaited : ∀ party ∈ p.threads, party = .settled (.waiting p.shared.idle) →
    0 < inFlight p.threads + notifying p.threads

theorem inFlight_split (pre : List Party) (party : Party) (post : List Party) :
    inFlight (pre ++ party :: post) = inFlight (pre ++ post) + party.inFlight :=
  Pool.tally_split _ _ _ _

theorem notifying_split (pre : List Party) (party : Party) (post : List Party) :
    notifying (pre ++ party :: post) = notifying (pre ++ post) + party.notifying :=
  Pool.tally_split _ _ _ _

theorem NoneBegun.settles {p : Pool Pending Party} (h : NoneBegun p) : Settles p := by
  have hzero : inFlight p.threads = 0 := by
    refine List.sum_eq_zero ?_
    intro n hn
    obtain ⟨party, hparty, rfl⟩ := List.mem_map.mp hn
    rcases h.begins party hparty with rfl | rfl <;> rfl
  refine ⟨h.none.trans hzero.symm, ?_, ?_⟩
  · intro party hparty enabled henabled
    rcases h.begins party hparty with rfl | rfl <;> cases henabled
  · intro party hparty hwaiting
    rcases h.begins party hparty with rfl | rfl <;> cases hwaiting

/-- What one step does to the count, to what waits were told, and to the party. -/
structure Moved (pending : Pending) (party : Party) (pending' : Pending) (party' : Party) : Prop where
  count : pending'.inFlight + party.inFlight = pending.inFlight + party'.inFlight
  idle : pending.idle ≤ pending'.idle
  enabled : ∀ enabled ∈ party'.enabled, enabled ∈ party.enabled ∨ enabled = pending.idle
  /-- Waits that are not told keep a record in flight or one that will tell them. -/
  keeps : pending'.idle = pending.idle → 0 < pending.inFlight + party.notifying →
    0 < pending'.inFlight + party'.notifying
  /-- A wait begins on a count that is not zero. -/
  waits : ∀ enabled, party' = .settled (.waiting enabled) → 0 < pending'.inFlight

theorem Moved.of_record {pending pending' : Pending} {writing writing' : Writing}
    (hcount : pending'.inFlight + (Party.record writing).inFlight
      = pending.inFlight + (Party.record writing').inFlight)
    (hidle : pending.idle ≤ pending'.idle)
    (hkeeps : pending'.idle = pending.idle → 0 < pending.inFlight + (Party.record writing).notifying →
      0 < pending'.inFlight + (Party.record writing').notifying) :
    Moved pending (.record writing) pending' (.record writing') :=
  ⟨hcount, hidle, fun _ h => (by cases h), hkeeps, fun _ h => (by cases h)⟩

theorem Moved.of_settled {pending : Pending} {settling settling' : Settling}
    (henabled : ∀ enabled ∈ (Party.settled settling').enabled,
      enabled ∈ (Party.settled settling).enabled ∨ enabled = pending.idle)
    (hwaits : ∀ enabled, settling' = .waiting enabled → 0 < pending.inFlight) :
    Moved pending (.settled settling) pending (.settled settling') :=
  ⟨rfl, Nat.le_refl _, henabled, fun _ h => h, fun enabled h => hwaits enabled (Party.settled.inj h)⟩

theorem Party.moved {pending pending' : Pending} {party party' : Party}
    (hcounted : party.inFlight ≤ pending.inFlight)
    (h : Party.step () pending party = some (pending', party')) : Moved pending party pending' party' := by
  cases party with
  | record writing =>
    cases writing with
    | starting =>
      cases h
      exact .of_record rfl (Nat.le_refl _) fun _ _ => Nat.succ_pos _
    | working =>
      cases h
      have hone : 1 ≤ pending.inFlight := hcounted
      split
      · refine .of_record ?_ (Nat.le_refl _) fun _ _ => Nat.succ_pos _
        show pending.inFlight - 1 + 1 = pending.inFlight + 0
        omega
      · -- the others are still in flight
        refine .of_record ?_ (Nat.le_refl _) fun _ _ => ?_
        · show pending.inFlight - 1 + 1 = pending.inFlight + 0
          omega
        · show 0 < pending.inFlight - 1 + 0
          omega
    | notifying =>
      cases h
      exact .of_record rfl (Nat.le_succ _) fun hsame => absurd hsame (Nat.succ_ne_self _)
    | written => cases h
  | settled settling =>
    cases settling with
    | reading =>
      cases h
      split
      · exact .of_settled (fun _ h => (by cases h)) fun _ h => (by cases h)
      · exact .of_settled (fun _ h => (by cases h)) fun _ h => (by cases h)
    | enabling =>
      cases h
      exact .of_settled (fun _ h => .inr (Option.some.inj h).symm) fun _ h => (by cases h)
    | rereading since =>
      cases h
      split
      · exact .of_settled (fun _ h => (by cases h)) fun _ h => (by cases h)
      · rename_i hmore
        exact .of_settled (fun _ h => .inl h) fun _ _ => Nat.pos_of_ne_zero hmore
    | waiting since =>
      simp only [Party.step] at h
      split at h
      · cases h
      · cases h
        exact .of_settled (fun _ h => (by cases h)) fun _ h => (by cases h)
    | returned => cases h

/-- A wait of another party that was not told is still waited on after a step. -/
theorem awaited_of_other {pending pending' : Pending} {pre post : List Party} {party party' other : Party}
    (hI : Settles ⟨pending, pre ++ party :: post⟩) (hmoved : Moved pending party pending' party')
    (hother : other ∈ pre ++ party :: post) (hwaiting : other = .settled (.waiting pending'.idle)) :
    0 < pending'.inFlight + notifying (pre ++ post) + party'.notifying := by
  have hle : pending'.idle ≤ pending.idle := hI.earlier other hother _ (by rw [hwaiting]; rfl)
  have hsame : pending'.idle = pending.idle := Nat.le_antisymm hle hmoved.idle
  have hbefore : 0 < inFlight (pre ++ party :: post) + notifying (pre ++ party :: post) :=
    hI.awaited other hother (hsame ▸ hwaiting)
  have hcounted : pending.inFlight = inFlight (pre ++ party :: post) := hI.counted
  rw [← hcounted, notifying_split] at hbefore
  have hkeeps := hmoved.keeps hsame
  omega

/-- **One step**, of any record and of any `settled` call. -/
theorem settles_step {pending pending' : Pending} {pre post : List Party} {party party' : Party}
    (hI : Settles ⟨pending, pre ++ party :: post⟩)
    (h : Party.step () pending party = some (pending', party')) :
    Settles ⟨pending', pre ++ party' :: post⟩ := by
  have hcounted : pending.inFlight = inFlight (pre ++ post) + party.inFlight :=
    hI.counted.trans (inFlight_split ..)
  have hmoved := Party.moved (by omega) h
  have hcount := hmoved.count
  have hmem : party ∈ pre ++ party :: post := List.mem_append_right _ (List.mem_cons_self ..)
  constructor
  · show pending'.inFlight = inFlight (pre ++ party' :: post)
    rw [inFlight_split]
    omega
  · refine Pool.forall_moved hI.earlier ?_ ?_
    · intro enabled henabled
      rcases hmoved.enabled enabled henabled with hbefore | hnow
      · exact Nat.le_trans (hI.earlier party hmem enabled hbefore) hmoved.idle
      · exact Nat.le_trans (Nat.le_of_eq hnow) hmoved.idle
    · intro other hother enabled henabled
      exact Nat.le_trans (hother enabled henabled) hmoved.idle
  · intro other hother hwaiting
    show 0 < inFlight (pre ++ party' :: post) + notifying (pre ++ party' :: post)
    rw [inFlight_split, notifying_split]
    rcases List.mem_append.mp hother with hpre | hpost
    · have := awaited_of_other hI hmoved (List.mem_append_left _ hpre) hwaiting
      omega
    · rcases List.mem_cons.mp hpost with rfl | hpost
      · have := hmoved.waits _ hwaiting
        omega
      · have hmem := List.mem_append_right pre (List.mem_cons_of_mem party hpost)
        have := awaited_of_other hI hmoved hmem hwaiting
        omega

theorem Settles.reach {p q : Pool Pending Party} (hp : Settles p)
    (h : Pool.Reach Party.step Pool.anyStep p q) : Settles q :=
  h.invariant hp fun _ _ _ _ _ _ _ hI _ hs => settles_step hI hs

theorem Party.step_returned {pending pending' : Pending} {party : Party}
    (h : Party.step () pending party = some (pending', .settled .returned)) : pending'.inFlight = 0 := by
  cases party with
  | record writing => cases writing <;> cases h
  | settled settling =>
    cases settling with
    | reading =>
      simp only [Party.step, Option.some.injEq, Prod.mk.injEq, Party.settled.injEq] at h
      obtain ⟨rfl, hreturned⟩ := h
      split at hreturned
      · cases hreturned
      · omega
    | enabling => cases h
    | rereading enabled =>
      simp only [Party.step, Option.some.injEq, Prod.mk.injEq, Party.settled.injEq] at h
      obtain ⟨rfl, hreturned⟩ := h
      split at hreturned
      · assumption
      · cases hreturned
    | waiting enabled =>
      simp only [Party.step] at h
      split at h <;> cases h
    | returned => cases h

/-- **A shutdown waits for every record**: between a moment in which a `settled` call has not returned and
one in which it has, there is one with no record in flight. -/
theorem Settles.returns_on_none {p q : Pool Pending Party} {i : ℕ} (hp : Settles p)
    (h : Pool.Reach Party.step Pool.anyStep p q) (hbefore : p.threads[i]? ≠ some (.settled .returned))
    (hafter : q.threads[i]? = some (.settled .returned)) :
    ∃ m, Pool.Reach Party.step Pool.anyStep p m ∧ Pool.Reach Party.step Pool.anyStep m q ∧
      inFlight m.threads = 0 := by
  obtain ⟨m, m', hreach, hnot, hstep, hreturned, hrest⟩ :=
    h.exists_first (P := fun r => r.threads[i]? = some (.settled .returned)) hbefore hafter
  refine ⟨m', hreach.tail hstep, hrest, ?_⟩
  have hsettles := hp.reach (hreach.tail hstep)
  rw [← hsettles.counted]
  cases hstep with
  | @mk _ _ party party' _ pre post _ hs =>
    -- the call that has returned now is the party that moved
    have hmoved := Pool.getElem?_moved pre party party' post i
    split at hmoved
    · exact Party.step_returned (hs.trans (by rw [Option.some.inj (hmoved.symm.trans hreturned)]))
    · exact absurd (hmoved.symm.trans hreturned) hnot

/-- **No wake-up is lost**: a wait nobody told has a record in flight, or one that is still to tell it. -/
theorem Settles.not_stranded {p : Pool Pending Party} (h : Settles p) :
    ¬(Party.settled (.waiting p.shared.idle) ∈ p.threads ∧ inFlight p.threads = 0 ∧
      notifying p.threads = 0) := by
  intro ⟨hwaiting, hnone, hquiet⟩
  have hawaited := h.awaited _ hwaiting rfl
  omega

/-- **A shutdown waits for every record and no wake-up is lost**, whatever the interleaving of any number
of records and of `settled` calls. -/
theorem settled_waits_and_wakes {p q : Pool Pending Party} (hbegins : NoneBegun p)
    (h : Pool.Reach Party.step Pool.anyStep p q) :
    (∀ (r : Pool Pending Party) (i : ℕ) (settling : Settling),
      q.threads[i]? = some (.settled settling) → settling ≠ .returned →
      Pool.Reach Party.step Pool.anyStep q r → r.threads[i]? = some (.settled .returned) →
      ∃ m, Pool.Reach Party.step Pool.anyStep q m ∧ Pool.Reach Party.step Pool.anyStep m r ∧
        inFlight m.threads = 0) ∧
    ¬(Party.settled (.waiting q.shared.idle) ∈ q.threads ∧ inFlight q.threads = 0 ∧
      notifying q.threads = 0) := by
  have hsettles := hbegins.settles.reach h
  refine ⟨?_, hsettles.not_stranded⟩
  intro r i settling hcalled hrunning hreach hreturned
  refine hsettles.returns_on_none hreach ?_ hreturned
  intro heq
  rw [hcalled] at heq
  exact hrunning (Party.settled.inj (Option.some.inj heq))

/-- A record and a shutdown that begins while it is in flight. -/
def oneInFlight : Pool Pending Party := ⟨⟨1, 0⟩, [.record .working, .settled .reading]⟩

/-- The same once the record has told the shutdown and the shutdown has returned. -/
def oneWritten : Pool Pending Party := ⟨⟨0, 1⟩, [.record .written, .settled .returned]⟩

theorem noneBegun_one : NoneBegun ⟨⟨0, 0⟩, [.record .starting, .settled .reading]⟩ := ⟨rfl, by decide⟩

theorem reach_oneInFlight :
    Pool.Reach Party.step Pool.anyStep ⟨⟨0, 0⟩, [.record .starting, .settled .reading]⟩ oneInFlight :=
  Pool.reach_of_run (by decide :
    Pool.run Party.step Pool.anyStep ⟨⟨0, 0⟩, [.record .starting, .settled .reading]⟩ [(0, ())]
      = some oneInFlight)

/-- The shutdown enables its wait and waits before the record is written. -/
theorem reach_oneWritten : Pool.Reach Party.step Pool.anyStep oneInFlight oneWritten :=
  Pool.reach_of_run (by decide :
    Pool.run Party.step Pool.anyStep oneInFlight
      [(1, ()), (1, ()), (1, ()), (0, ()), (0, ()), (1, ()), (1, ())] = some oneWritten)

theorem settled_waits_for_one :
    inFlight oneInFlight.threads = 1 ∧
      ∃ m, Pool.Reach Party.step Pool.anyStep oneInFlight m ∧
        Pool.Reach Party.step Pool.anyStep m oneWritten ∧ inFlight m.threads = 0 :=
  ⟨rfl, (settled_waits_and_wakes noneBegun_one reach_oneInFlight).1 oneWritten 1 .reading rfl (by decide)
    reach_oneWritten rfl⟩

/-! ### Returning -/

theorem reach_own {pending : Pending} {party party' : Party} (pre post : List Party)
    (h : Party.step () pending party = some (pending, party')) :
    Pool.Reach Party.step Pool.anyStep ⟨pending, pre ++ party :: post⟩ ⟨pending, pre ++ party' :: post⟩ :=
  .single (.mk pre post trivial h)

/-- **A shutdown does not hang**: once no record is in flight and none is still to tell it, a `settled`
call needs only steps of its own to return, wherever it is. -/
theorem Settles.settled_returns {pending : Pending} {pre post : List Party} {settling : Settling}
    (h : Settles ⟨pending, pre ++ .settled settling :: post⟩)
    (hnone : inFlight (pre ++ .settled settling :: post) = 0)
    (hquiet : notifying (pre ++ .settled settling :: post) = 0) :
    Pool.Reach Party.step Pool.anyStep ⟨pending, pre ++ .settled settling :: post⟩
      ⟨pending, pre ++ .settled .returned :: post⟩ := by
  have hzero : pending.inFlight = 0 := h.counted.trans hnone
  have hread : Party.step () pending (.settled .reading) = some (pending, .settled .returned) := by
    simp only [Party.step, hzero, Nat.lt_irrefl, if_false]
  have hreread : ∀ enabled,
      Party.step () pending (.settled (.rereading enabled)) = some (pending, .settled .returned) := by
    intro enabled
    simp only [Party.step, hzero, if_true]
  cases settling with
  | reading => exact reach_own pre post hread
  | enabling => exact (reach_own pre post rfl).trans (reach_own pre post (hreread _))
  | rereading enabled => exact reach_own pre post (hreread _)
  | waiting enabled =>
    have htold : pending.idle ≠ enabled := by
      intro heq
      refine h.not_stranded ⟨?_, hnone, hquiet⟩
      show Party.settled (.waiting pending.idle) ∈ pre ++ .settled (.waiting enabled) :: post
      rw [heq]
      exact List.mem_append_right _ (List.mem_cons_self ..)
    have hwake : Party.step () pending (.settled (.waiting enabled))
        = some (pending, .settled .reading) := by
      simp only [Party.step, htold, if_false]
    exact (reach_own pre post hwake).trans (reach_own pre post hread)
  | returned => exact .refl

end IntelliPrism.Gateway
