import IntelliPrism.Auth.Recheck

/-!
# Wrong passphrases that race

A wrong passphrase walks over the slots and takes the first that is free, while others do the same.  No
slot is missed: a walk that finds one taken goes on to the next, so it ends without a slot of its own only
when it found every one taken, and slots that do not run out stay taken.

* `Follows` — the text of a recheck read as a walk: which slot it is about to take, if any;
* `Balanced` — every passphrase verified has its slot or is walking, unless every slot is taken;
* `racing_guesses_counted` — **those verified take as many slots as they are, or all of them**; and with
  all of them taken every further recheck is refused unchecked.
-/

namespace IntelliPrism.Auth

open IntelliPrism.Core IntelliPrism.Lib IntelliPrism.Cache IntelliPrism.Manage

section Racing

variable (check : String → PassphraseHash → Except AuthError Bool) (stored : Option User)
  (absent : PassphraseHash) (limit : RecheckLimit) (user : UserId)

/-- No slot runs out at a step: slots last, and one that was taken is taken when the call is made. -/
def Lasting : Guard Tick Memory (Task String RecheckOp RecheckOp.Res (Except AuthError Unit)) :=
  fun p _ x => 0 < limit.window.millis ∧ ∀ slot < limit.attempts,
    p.shared.live (slotKey user slot) p.shared.now = true →
      p.shared.live (slotKey user slot) (p.shared.now + x.elapsed) = true

instance (p : Pool Memory (Task String RecheckOp RecheckOp.Res (Except AuthError Unit)))
    (t : Task String RecheckOp RecheckOp.Res (Except AuthError Unit)) (x : Tick) :
    Decidable (Lasting limit user p t x) :=
  inferInstanceAs (Decidable (_ ∧ _))

def held (s : Memory) : Finset ℕ := taken limit user s s.now

/-! ### The walk -/

/-- What a text calls: while it is not walking it looks and verifies, and at a slot it claims it. -/
def Fits : Option ℕ → RecheckOp → Prop
  | none, .get _ | none, .user _ | none, .verify _ _ => True
  | some slot, .claim key ttl => slot < limit.attempts ∧ key = slotKey user slot ∧ ttl = limit.window
  | _, _ => False

/-- Where a text stands after a call: a passphrase that was verified begins at the first slot, and a slot
that was taken already leads to the next. -/
def moved : Option ℕ → (op : RecheckOp) → op.Res → Option ℕ
  | _, .verify _ _, .ok _ => some 0
  | some slot, .claim _ _, false => if slot + 1 < limit.attempts then some (slot + 1) else none
  | _, _, _ => none

/-- A text that stands at a slot, or at none, makes the calls of a walk to its end. -/
def Follows {α : Type} : RecheckAction α → Option ℕ → Prop
  | .done _, place => place = none
  | .call op next, place => Fits limit user place op ∧ ∀ x s,
      Follows (next (recheckHandle check stored x op s).2)
        (moved limit place op (recheckHandle check stored x op s).2)

/-- Whether a text is walking, by the call it waits for. -/
def walking {α : Type} : RecheckAction α → ℕ
  | .call (.claim _ _) _ => 1
  | _ => 0

variable {check stored absent limit user} {α β : Type} {s : Memory}

theorem Follows.bind {p : RecheckAction α} {f : α → RecheckAction β} {place : Option ℕ}
    (hp : Follows check stored limit user p place)
    (hf : ∀ value, Follows check stored limit user (f value) none) :
    Follows check stored limit user (p >>= f) place := by
  induction p generalizing place with
  | done value =>
    rw [show place = none from hp]
    exact hf value
  | call op next ih => exact ⟨hp.1, fun x s => ih _ (hp.2 x s)⟩

theorem walking_of_returned {p : RecheckAction α} (h : p.returned = true) : walking p = 0 := by
  cases p with
  | done value => rfl
  | call op next => cases h

theorem walking_of_follows {p : RecheckAction α} {place : Option ℕ}
    (h : Follows check stored limit user p place) : walking p = place.toList.length := by
  cases p with
  | done value =>
    rw [show place = none from h]
    rfl
  | call op next =>
    have hfits := h.1
    cases place <;> cases op <;> first | rfl | cases hfits

/-! The text, part by part. -/

theorem follows_countTaken (slots : List ℕ) :
    Follows check stored limit user (countTaken user slots) none := by
  induction slots with
  | nil => rfl
  | cons slot slots ih =>
    unfold countTaken
    rw [recheckKey_eq]
    refine ⟨trivial, fun x s => ih.bind fun counted => ?_⟩
    cases counted <;> rfl

theorem follows_claimSlot_cons {slot : ℕ} {rest : List ℕ} (hslot : slot < limit.attempts)
    (hrest : Follows check stored limit user (claimSlot limit user rest)
      (if slot + 1 < limit.attempts then some (slot + 1) else none)) :
    Follows check stored limit user (claimSlot limit user (slot :: rest)) (some slot) := by
  rw [claimSlot, recheckKey_eq]
  refine ⟨⟨hslot, rfl, rfl⟩, fun x s => ?_⟩
  generalize (recheckHandle check stored x (.claim (slotKey user slot) limit.window) s).2 = claimed
  cases claimed with
  | true => rfl
  | false => exact hrest

theorem follows_claimSlot (left slot : ℕ) (h : slot + (left + 1) = limit.attempts) :
    Follows check stored limit user (claimSlot limit user (List.range' slot (left + 1))) (some slot) := by
  induction left generalizing slot with
  | zero =>
    rw [List.range'_succ]
    refine follows_claimSlot_cons (by omega) ?_
    rw [if_neg (by omega)]
    rfl
  | succ left ih =>
    rw [List.range'_succ]
    refine follows_claimSlot_cons (by omega) ?_
    rw [if_pos (by omega)]
    exact ih (slot + 1) (by omega)

theorem follows_afterVerified : Follows check stored limit user (afterVerified limit user false) (some 0) := by
  have hpos : 0 + ((limit.attempts - 1) + 1) = limit.attempts := by
    have hleast := limit.atLeast
    rw [minRecheckAttempts] at hleast
    omega
  have hclaim := @follows_claimSlot check stored limit user (limit.attempts - 1) 0 hpos
  rw [Nat.zero_add] at hpos
  rw [hpos, ← List.range_eq_range'] at hclaim
  refine hclaim.bind fun claimed => ?_
  cases claimed with
  | error error => rfl
  | ok done =>
    refine (follows_countTaken _).bind fun counted => ?_
    cases counted with
    | error error => rfl
    | ok failed =>
      dsimp only
      split <;> rfl

theorem follows_verifyAgainst {passphrase : String}
    (hwrong : ∀ account ∈ stored, check passphrase account.passphrase ≠ .ok true) :
    Follows check stored limit user (verifyAgainst absent limit user passphrase stored) none := by
  refine ⟨trivial, fun x s => ?_⟩
  cases hcheck : check passphrase ((stored.map User.passphrase).getD absent) with
  | error error =>
    simp only [recheckHandle, hcheck]
    rfl
  | ok matched =>
    simp only [recheckHandle, hcheck]
    show Follows check stored limit user (afterVerified limit user (stored.isSome && matched)) (some 0)
    rw [not_matched_of_wrong hwrong hcheck]
    exact follows_afterVerified

/-- **A recheck of a wrong passphrase is a walk** that begins when it was verified. -/
theorem follows_recheck {passphrase : String}
    (hwrong : ∀ account ∈ stored, check passphrase account.passphrase ≠ .ok true) :
    Follows check stored limit user (recheck absent limit user passphrase) none := by
  refine (follows_countTaken _).bind fun counted => ?_
  cases counted with
  | error error => rfl
  | ok failed =>
    dsimp only
    split
    · rfl
    · refine ⟨trivial, fun x s => ?_⟩
      cases hreachable : x.reachable with
      | false =>
        simp only [recheckHandle, hreachable]
        rfl
      | true =>
        simp only [recheckHandle, hreachable]
        exact follows_verifyAgainst hwrong

/-! ### What a step does to the slots -/

theorem mem_held {slot : ℕ} :
    slot ∈ held limit user s ↔ slot < limit.attempts ∧ s.live (slotKey user slot) s.now = true := by
  rw [held, taken, Finset.mem_filter, Finset.mem_range]

theorem card_held_le (limit : RecheckLimit) (user : UserId) (s : Memory) :
    (held limit user s).card ≤ limit.attempts := by
  have hsub := Finset.card_le_card (Finset.filter_subset
    (fun slot => s.live (slotKey user slot) s.now = true) (Finset.range limit.attempts))
  rwa [Finset.card_range] at hsub

theorem held_after {elapsed : ℕ} (hlast : ∀ slot < limit.attempts,
      s.live (slotKey user slot) s.now = true → s.live (slotKey user slot) (s.now + elapsed) = true) :
    held limit user (s.after elapsed) = held limit user s := by
  refine Finset.ext fun slot => ?_
  rw [mem_held, mem_held]
  refine and_congr_right fun hslot => ⟨fun hlive => ?_, hlast slot hslot⟩
  cases hbefore : s.live (slotKey user slot) s.now with
  | true => rfl
  | false =>
    rw [show (s.after elapsed).live (slotKey user slot) (s.after elapsed).now = false from
      Memory.live_later (s := s) hbefore (Nat.le_add_right _ _)] at hlive
    cases hlive

theorem held_set {slot : ℕ} (hslot : slot < limit.attempts) (hwindow : 0 < limit.window.millis) :
    held limit user (s.set (slotKey user slot) (some (s.now + limit.window.millis)))
      = insert slot (held limit user s) := by
  refine Finset.ext fun other => ?_
  rw [mem_held, Finset.mem_insert, mem_held]
  by_cases heq : other = slot
  · subst heq
    simp only [Memory.live, Function.update_self, Option.any_some, decide_eq_true_eq]
    exact ⟨fun _ => .inl trivial, fun _ => ⟨hslot, by omega⟩⟩
  · have hkeys : slotKey user other ≠ slotKey user slot := fun h => heq (slotKey_injective user h)
    simp only [Memory.live, Function.update_of_ne hkeys, heq, false_or]

/-- What a call does: it looks, it verifies, it finds a slot taken, or it takes one. -/
inductive Stepped (limit : RecheckLimit) (user : UserId) (s s' : Memory) : Option ℕ → Option ℕ → Prop where
  | looks (hheld : held limit user s' = held limit user s) (hverified : s'.verified = s.verified) :
      Stepped limit user s s' none none
  | verifies (hheld : held limit user s' = held limit user s)
      (hverified : s'.verified.length = s.verified.length + 1) : Stepped limit user s s' none (some 0)
  | passes {slot : ℕ} (htaken : slot ∈ held limit user s) (hheld : held limit user s' = held limit user s)
      (hverified : s'.verified = s.verified) : Stepped limit user s s' (some slot)
        (if slot + 1 < limit.attempts then some (slot + 1) else none)
  | takes {slot : ℕ} (hslot : slot < limit.attempts) (hfree : slot ∉ held limit user s)
      (hheld : held limit user s' = insert slot (held limit user s))
      (hverified : s'.verified = s.verified) : Stepped limit user s s' (some slot) none

/-- **What a step does**, at a call that fits where the text stands. -/
theorem stepped {x : Tick} {op : RecheckOp} {place : Option ℕ} (hfits : Fits limit user place op)
    (hwindow : 0 < limit.window.millis)
    (hlast : ∀ slot < limit.attempts, s.live (slotKey user slot) s.now = true →
      s.live (slotKey user slot) (s.now + x.elapsed) = true) :
    Stepped limit user s (recheckHandle check stored x op s).1 place
      (moved limit place op (recheckHandle check stored x op s).2) := by
  have hafter := held_after hlast
  cases place with
  | none =>
    cases op with
    | get key => exact .looks hafter rfl
    | user id => exact .looks hafter rfl
    | verify passphrase verifier =>
      cases hcheck : check passphrase verifier with
      | error error =>
        simp only [recheckHandle, hcheck]
        exact .looks hafter rfl
      | ok matched =>
        simp only [recheckHandle, hcheck]
        exact .verifies hafter (List.length_append ..)
    | claim key ttl => cases hfits
    | remove key => cases hfits
  | some slot =>
    cases op with
    | claim key ttl =>
      obtain ⟨hslot, rfl, rfl⟩ := hfits
      cases hlive : (s.after x.elapsed).live (slotKey user slot) (s.after x.elapsed).now with
      | true =>
        rw [show recheckHandle check stored x (.claim (slotKey user slot) limit.window) s
          = (s.after x.elapsed, false) from if_pos hlive]
        exact .passes (hafter ▸ mem_held.mpr ⟨hslot, hlive⟩) hafter rfl
      | false =>
        rw [show recheckHandle check stored x (.claim (slotKey user slot) limit.window) s
          = ((s.after x.elapsed).set (slotKey user slot)
              (some ((s.after x.elapsed).now + limit.window.millis)), true) from
          if_neg (by rw [hlive]; exact Bool.false_ne_true)]
        refine .takes hslot (fun hmem => ?_) ((held_set hslot hwindow).trans (by rw [hafter])) rfl
        rw [← hafter] at hmem
        rw [(mem_held.mp hmem).2] at hlive
        cases hlive
    | get key => cases hfits
    | user id => cases hfits
    | verify passphrase verifier => cases hfits
    | remove key => cases hfits

/-! ### What every step keeps -/

/-- Every passphrase verified has its slot or is walking to one, unless every slot is taken. -/
def Balanced (limit : RecheckLimit) (user : UserId) (s : Memory) (walkers : ℕ) : Prop :=
  (held limit user s).card + walkers ≤ s.verified.length ∧
    (s.verified.length ≤ (held limit user s).card + walkers ∨
      held limit user s = Finset.range limit.attempts)

/-- A walk at a slot found every slot before it taken. -/
def Passed (limit : RecheckLimit) (user : UserId) (s : Memory) (place : Option ℕ) : Prop :=
  ∀ slot ∈ place, ∀ before < slot, before ∈ held limit user s

theorem Stepped.held_subset {s' : Memory} {place place' : Option ℕ}
    (h : Stepped limit user s s' place place') : held limit user s ⊆ held limit user s' := by
  cases h with
  | looks hheld _ => rw [hheld]
  | verifies hheld _ => rw [hheld]
  | passes _ hheld _ => rw [hheld]
  | takes _ _ hheld _ =>
    rw [hheld]
    exact Finset.subset_insert _ _

theorem Stepped.passed {s' : Memory} {place place' : Option ℕ} (h : Stepped limit user s s' place place')
    (hpassed : Passed limit user s place) : Passed limit user s' place' := by
  cases h with
  | looks hheld _ => exact fun slot hslot => by cases hslot
  | verifies hheld _ =>
    intro slot hslot before hbefore
    cases hslot
    exact absurd hbefore (Nat.not_lt_zero _)
  | @passes slot htaken hheld _ =>
    intro next hnext before hbefore
    split at hnext
    · obtain rfl := Option.some.inj hnext
      rw [hheld]
      rcases Nat.lt_succ_iff_lt_or_eq.mp hbefore with hlt | rfl
      · exact hpassed slot rfl before hlt
      · exact htaken
    · cases hnext
  | takes _ _ _ _ => exact fun slot hslot => by cases hslot

/-- **One step keeps the balance**: only a walk that found every slot taken ends without one. -/
theorem Stepped.balanced {s' : Memory} {place place' : Option ℕ} {others : ℕ}
    (h : Stepped limit user s s' place place') (hpassed : Passed limit user s place)
    (hbalanced : Balanced limit user s (others + place.toList.length)) :
    Balanced limit user s' (others + place'.toList.length) := by
  obtain ⟨hle, hall⟩ := hbalanced
  cases h with
  | looks hheld hverified =>
    rw [Balanced, hheld, hverified]
    exact ⟨hle, hall⟩
  | verifies hheld hverified =>
    rw [Balanced, hheld, hverified]
    simp only [Option.toList_none, List.length_nil, Option.toList_some, List.length_singleton] at *
    refine ⟨by omega, hall.imp_left fun h => by omega⟩
  | @passes slot htaken hheld hverified =>
    rw [Balanced, hheld, hverified]
    split
    · exact ⟨hle, hall⟩
    · rename_i hlast
      simp only [Option.toList_none, List.length_nil, Option.toList_some, List.length_singleton] at *
      refine ⟨by omega, .inr (Finset.Subset.antisymm (Finset.filter_subset _ _) fun other hother => ?_)⟩
      -- the walk was at the last slot and found that taken as well
      have hslot := (mem_held.mp htaken).1
      have hother := Finset.mem_range.mp hother
      rcases Nat.lt_or_ge other slot with hlt | hge
      · exact hpassed slot rfl other hlt
      · obtain rfl : other = slot := by omega
        exact htaken
  | @takes slot hslot hfree hheld hverified =>
    rw [Balanced, hheld, hverified, Finset.card_insert_of_notMem hfree]
    simp only [Option.toList_none, List.length_nil, Option.toList_some, List.length_singleton] at *
    refine ⟨by omega, .inl ?_⟩
    rcases hall with hle' | hfull
    · omega
    · rw [hfull] at hfree
      exact absurd (Finset.mem_range.mpr hslot) hfree

/-! ### Runs -/

/-- Where a recheck stands in its walk, with every slot before that taken. -/
def Walks (check : String → PassphraseHash → Except AuthError Bool) (stored : Option User)
    (limit : RecheckLimit) (user : UserId) (s : Memory) (p : RecheckAction (Except AuthError Unit)) : Prop :=
  ∃ place, Follows check stored limit user p place ∧ Passed limit user s place

theorem Walks.later {s' : Memory} {p : RecheckAction (Except AuthError Unit)}
    (h : Walks check stored limit user s p) (hsub : held limit user s ⊆ held limit user s') :
    Walks check stored limit user s' p := by
  obtain ⟨place, hfollows, hpassed⟩ := h
  exact ⟨place, hfollows, fun slot hslot before hbefore => hsub (hpassed slot hslot before hbefore)⟩

theorem balanced_of_reach {guesses : List String}
    (hwrong : ∀ guess ∈ guesses, ∀ account ∈ stored, check guess account.passphrase ≠ .ok true)
    (hverified : s.verified = []) (hfree : held limit user s = ∅)
    {q : Pool Memory (Task String RecheckOp RecheckOp.Res (Except AuthError Unit))}
    (h : Pool.Reach (Task.step (recheckHandle check stored)) (Lasting limit user)
      ⟨s, guesses.map (Task.of (recheck absent limit user))⟩ q) :
    (∀ t ∈ q.threads, Walks check stored limit user q.shared t.rest) ∧
      Balanced limit user q.shared (Pool.tally (fun t => walking t.rest) q.threads) := by
  refine h.invariant (I := fun q => (∀ t ∈ q.threads, Walks check stored limit user q.shared t.rest) ∧
    Balanced limit user q.shared (Pool.tally (fun t => walking t.rest) q.threads)) ⟨?_, ?_⟩ ?_
  · intro t ht
    obtain ⟨guess, hguess, rfl⟩ := List.mem_map.mp ht
    exact ⟨none, follows_recheck (hwrong guess hguess), fun slot hslot => by cases hslot⟩
  · have hnone : Pool.tally (fun t : Task String RecheckOp RecheckOp.Res (Except AuthError Unit) =>
        walking t.rest) (guesses.map (Task.of (recheck absent limit user))) = 0 := by
      refine List.sum_eq_zero fun n hn => ?_
      obtain ⟨t, ht, rfl⟩ := List.mem_map.mp hn
      obtain ⟨guess, hguess, rfl⟩ := List.mem_map.mp ht
      have hfollows := @follows_recheck check stored absent limit user guess (hwrong guess hguess)
      exact walking_of_follows hfollows
    rw [hnone, Balanced, hfree, hverified]
    exact ⟨Nat.le_refl _, .inl (Nat.le_refl _)⟩
  · intro s pre t post x s' t' hinv hlasting hmoves
    obtain ⟨hwalks, hbalanced⟩ := hinv
    obtain ⟨op, next, hrest, rfl, rfl⟩ := Task.step_eq_some.mp hmoves
    obtain ⟨place, hfollows, hpassed⟩ :=
      hwalks t (List.mem_append_right _ List.mem_cons_self)
    rw [Pool.tally_split, walking_of_follows hfollows] at hbalanced
    rw [hrest] at hfollows
    have hstepped := @stepped check stored limit user s x op place hfollows.1 hlasting.1 hlasting.2
    have hnext := hfollows.2 x s
    refine ⟨Pool.forall_moved hwalks ⟨_, hnext, hstepped.passed hpassed⟩
      fun u hu => hu.later hstepped.held_subset, ?_⟩
    rw [Pool.tally_split]
    show Balanced limit user _ (_ + walking (next _))
    rw [walking_of_follows hnext]
    exact hstepped.balanced hpassed hbalanced

/-! ### Every slot taken -/

/-- A text that looks at slots and, finding them taken, refuses. -/
def Refuses (limit : RecheckLimit) (user : UserId) : RecheckAction (Except AuthError Unit) → Prop
  | .done answer => answer = .error .recheckLocked
  | .call (.get key) next => (∃ slot < limit.attempts, key = slotKey user slot) ∧
      Refuses limit user (next true)
  | .call _ _ => False

theorem refuses_countTaken {slots : List ℕ} (hslots : ∀ slot ∈ slots, slot < limit.attempts)
    {f : Except AuthError ℕ → RecheckAction (Except AuthError Unit)}
    (hf : Refuses limit user (f (.ok slots.length))) :
    Refuses limit user (countTaken user slots >>= f) := by
  induction slots generalizing f with
  | nil => exact hf
  | cons slot slots ih =>
    unfold countTaken
    rw [recheckKey_eq]
    refine ⟨⟨slot, hslots slot List.mem_cons_self, rfl⟩, ?_⟩
    show Refuses limit user ((countTaken user slots >>= fun counted => _) >>= f)
    rw [bind_assoc]
    refine ih (fun other hother => hslots other (List.mem_cons_of_mem _ hother)) ?_
    show Refuses limit user (f (.ok (1 + slots.length)))
    rw [Nat.add_comm]
    exact hf

theorem refuses_recheck (passphrase : String) :
    Refuses limit user (recheck absent limit user passphrase) := by
  refine refuses_countTaken (fun slot hslot => List.mem_range.mp hslot) ?_
  dsimp only
  rw [List.length_range, if_pos (Nat.le_refl _)]
  rfl

/-- **With every slot taken, rechecks are refused unchecked**, whatever the passphrase, for as long as the
slots last. -/
theorem refused_of_held (hheld : held limit user s = Finset.range limit.attempts) {guesses : List String}
    {q : Pool Memory (Task String RecheckOp RecheckOp.Res (Except AuthError Unit))}
    (h : Pool.Reach (Task.step (recheckHandle check stored)) (Lasting limit user)
      ⟨s, guesses.map (Task.of (recheck absent limit user))⟩ q) :
    (q.shared.verified = s.verified ∧ held limit user q.shared = Finset.range limit.attempts) ∧
      ∀ t ∈ q.threads, Refuses limit user t.rest := by
  refine h.local_invariant (S := fun s' => s'.verified = s.verified ∧
    held limit user s' = Finset.range limit.attempts) (T := fun _ t => Refuses limit user t.rest)
    ⟨⟨rfl, hheld⟩, ?_⟩ ?_
  · intro t ht
    obtain ⟨guess, -, rfl⟩ := List.mem_map.mp ht
    exact refuses_recheck guess
  · intro s₁ pre t post x s₂ t' hlocal hlasting hmoves
    obtain ⟨⟨hverified, hall⟩, hrefuses⟩ := hlocal
    obtain ⟨op, next, hrest, rfl, rfl⟩ := Task.step_eq_some.mp hmoves
    have hthis : Refuses limit user t.rest := hrefuses t (List.mem_append_right _ List.mem_cons_self)
    rw [hrest] at hthis
    cases op with
    | get key =>
      obtain ⟨⟨slot, hslot, rfl⟩, hnext⟩ := hthis
      have hafter := (held_after hlasting.2).trans hall
      have htaken : (s₁.after x.elapsed).live (slotKey user slot) (s₁.after x.elapsed).now = true :=
        (mem_held.mp (hafter ▸ Finset.mem_range.mpr hslot)).2
      refine ⟨⟨hverified, hafter⟩, ?_, fun _ hu => hu⟩
      show Refuses limit user (next ((s₁.after x.elapsed).live (slotKey user slot) _))
      rw [htaken]
      exact hnext
    | claim key ttl => exact hthis.elim
    | remove key => exact hthis.elim
    | user id => exact hthis.elim
    | verify passphrase verifier => exact hthis.elim

/-- **Wrong passphrases that race are all counted.**  However many rechecks of one account with wrong
passphrases run at once, and however their calls interleave, as long as no slot runs out: once all of them
have returned, exactly as many slots are taken as passphrases were verified, or all of them.  From then on,
if that is all of them, every recheck that returns was refused and none was verified. -/
theorem racing_guesses_counted {guesses : List String}
    (hwrong : ∀ guess ∈ guesses, ∀ account ∈ stored, check guess account.passphrase ≠ .ok true)
    (hverified : s.verified = []) (hfree : taken limit user s s.now = ∅)
    {q : Pool Memory (Task String RecheckOp RecheckOp.Res (Except AuthError Unit))}
    (h : Pool.Reach (Task.step (recheckHandle check stored)) (Lasting limit user)
      ⟨s, guesses.map (Task.of (recheck absent limit user))⟩ q)
    (hreturned : ∀ t ∈ q.threads, t.rest.returned = true) :
    (taken limit user q.shared q.shared.now).card = min limit.attempts q.shared.verified.length ∧
      (limit.attempts ≤ q.shared.verified.length → ∀ (more : List String)
        (r : Pool Memory (Task String RecheckOp RecheckOp.Res (Except AuthError Unit))),
        Pool.Reach (Task.step (recheckHandle check stored)) (Lasting limit user)
          ⟨q.shared, more.map (Task.of (recheck absent limit user))⟩ r →
        r.shared.verified = q.shared.verified ∧
          ∀ t ∈ r.threads, ∀ answer, t.rest = .done answer → answer = .error .recheckLocked) := by
  obtain ⟨-, hle, hall⟩ := balanced_of_reach hwrong hverified hfree h
  have hnone : Pool.tally (fun t => walking t.rest) q.threads = 0 := by
    refine List.sum_eq_zero fun n hn => ?_
    obtain ⟨t, ht, rfl⟩ := List.mem_map.mp hn
    exact walking_of_returned (hreturned t ht)
  rw [hnone, Nat.add_zero] at hle hall
  have hcard : (taken limit user q.shared q.shared.now).card = min limit.attempts q.shared.verified.length := by
    have hmost := card_held_le limit user q.shared
    show (held limit user q.shared).card = _
    rcases hall with hle' | hfull
    · omega
    · rw [hfull, Finset.card_range] at hle ⊢
      omega
  refine ⟨hcard, fun hmany more r hreach => ?_⟩
  have hfull : held limit user q.shared = Finset.range limit.attempts := by
    refine Finset.eq_of_subset_of_card_le (Finset.filter_subset _ _) ?_
    rw [Finset.card_range]
    exact (Nat.min_eq_left hmany ▸ hcard).ge
  obtain ⟨⟨hsame, -⟩, hrefuses⟩ := refused_of_held hfull hreach
  refine ⟨hsame, fun t ht answer hanswer => ?_⟩
  have hthis := hrefuses t ht
  rw [hanswer] at hthis
  exact hthis

end Racing

/-- Three wrong passphrases race for two slots: all of them are verified, both slots are taken, and all
have returned. -/
theorem racing_guesses_counted_three :
    ∃ q, Pool.Reach (Task.step (recheckHandle plainCheck (some guessedUser)))
        (Lasting twoAttempts guessedUser.id) threeGuesses q ∧
      (∀ t ∈ q.threads, t.rest.returned = true) ∧ q.shared.verified.length = 3 ∧
      (taken twoAttempts guessedUser.id q.shared q.shared.now).card = min twoAttempts.attempts 3 := by
  have hrun : (Pool.run (Task.step (recheckHandle plainCheck (some guessedUser)))
      (Lasting twoAttempts guessedUser.id) threeGuesses
      (guessTurns 0 4 ++ guessTurns 1 4 ++ guessTurns 2 4 ++ guessTurns 0 3 ++ guessTurns 1 4 ++
        guessTurns 2 4)).any
      (fun q => (q.threads.all fun t => t.rest.returned) && q.shared.verified.length == 3) = true := by
    decide +kernel
  obtain ⟨q, hreach, htest⟩ := Pool.exists_reach_of_run hrun
  simp only [Bool.and_eq_true, List.all_eq_true, beq_iff_eq] at htest
  refine ⟨q, hreach, htest.1, htest.2, ?_⟩
  rw [← htest.2]
  exact (racing_guesses_counted threeGuesses_wrong rfl rfl hreach htest.1).1

end IntelliPrism.Auth
