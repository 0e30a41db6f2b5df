import Mathlib.Algebra.BigOperators.Group.List.Basic
import Mathlib.Logic.Relation

/-!
# Interleaving: threads that take atomic steps over a shared state

A `Program` says what one thread does next: given what the environment supplies (`ι`), the shared
state (`σ`) and the thread itself (`τ`), the new shared state and the new thread, or nothing once
the thread has returned.  A `Pool` is a shared state with its threads.  This file is the general
part, and it names no program:

* `Pool.Steps` / `Pool.Reach` — one atomic step of one thread, and any interleaving of such steps,
  each under a condition on the pool it is taken in;
* `Pool.run` — the same, executable, along an explicit schedule; `Pool.reach_of_run` turns a schedule
  that evaluates into an interleaving;
* `Pool.Reach.invariant` — what every step keeps, every interleaving keeps;
* `Pool.Reach.local_invariant` — the same for an invariant made of a shared part and one assertion
  for each thread, which every step of one thread must leave standing for the others;
* `Pool.Reach.thread_invariant` — the same for an assertion about one thread at its position;
* `Pool.Reach.tally_invariant` — the same for an invariant of the shared state and a `tally`, a sum over
  the threads, of which a step moves one part;
* `Pool.Reach.solo_invariant`, `solo_ends` — the same for a thread that runs alone;
* `Pool.run_length_le` — every schedule ends when each step of a thread lowers a rank of its own;
* `Pool.exists_first_of_run`, `Pool.Reach.exists_first` — the move of a schedule, or the step of an
  interleaving, that first brings something about;
* `Pool.run_countP_le` — a rank that some moves lower and none raises bounds how many of those moves a
  schedule can have.
-/

namespace IntelliPrism.Lib

variable {ι σ τ : Type*}

/-- One atomic step of one thread, or nothing once it has returned. -/
abbrev Program (ι σ τ : Type*) := ι → σ → τ → Option (σ × τ)

/-- A shared state and the threads that work on it. -/
@[ext] structure Pool (σ τ : Type*) where
  shared : σ
  threads : List τ
  deriving Repr, DecidableEq

/-- What a step must meet: a condition on the pool it is taken in, the thread that takes it and what
the environment supplies. -/
abbrev Guard (ι σ τ : Type*) := Pool σ τ → τ → ι → Prop

namespace Pool

/-- One thread takes a step that meets the guard; the others stay as they are. -/
inductive Steps (step : Program ι σ τ) (C : Guard ι σ τ) : Pool σ τ → Pool σ τ → Prop where
  | mk {s s' : σ} {t t' : τ} {x : ι} (pre post : List τ)
      (meets : C ⟨s, pre ++ t :: post⟩ t x) (moves : step x s t = some (s', t')) :
      Steps step C ⟨s, pre ++ t :: post⟩ ⟨s', pre ++ t' :: post⟩

/-- Any interleaving of steps that each meet the guard. -/
abbrev Reach (step : Program ι σ τ) (C : Guard ι σ τ) : Pool σ τ → Pool σ τ → Prop :=
  Relation.ReflTransGen (Steps step C)

/-- No condition at all. -/
def anyStep : Guard ι σ τ := fun _ _ _ => True

instance (p : Pool σ τ) (t : τ) (x : ι) : Decidable (anyStep p t x) :=
  inferInstanceAs (Decidable True)

/-- Two conditions at once. -/
def both (C D : Guard ι σ τ) : Guard ι σ τ := fun p t x => C p t x ∧ D p t x

instance (C D : Guard ι σ τ) [∀ p t x, Decidable (C p t x)] [∀ p t x, Decidable (D p t x)]
    (p : Pool σ τ) (t : τ) (x : ι) : Decidable (both C D p t x) :=
  inferInstanceAs (Decidable (_ ∧ _))

/-! ### The threads one by one, and together -/

/-- What holds of every thread before one of them moves holds after, when it holds of that one. -/
theorem forall_moved {T T' : τ → Prop} {pre post : List τ} {t t' : τ}
    (h : ∀ u ∈ pre ++ t :: post, T u) (ht' : T' t') (hother : ∀ u, T u → T' u) :
    ∀ u ∈ pre ++ t' :: post, T' u := by
  intro u hu
  rcases List.mem_append.mp hu with hpre | hpost
  · exact hother u (h u (List.mem_append_left _ hpre))
  · rcases List.mem_cons.mp hpost with rfl | hpost
    · exact ht'
    · exact hother u (h u (List.mem_append_right _ (List.mem_cons_of_mem _ hpost)))

/-- What the threads come to together. -/
def tally {M : Type*} [AddCommMonoid M] (f : τ → M) (threads : List τ) : M := (threads.map f).sum

theorem tally_split {M : Type*} [AddCommMonoid M] (f : τ → M) (pre : List τ) (t : τ) (post : List τ) :
    tally f (pre ++ t :: post) = tally f (pre ++ post) + f t := by
  simp only [tally, List.map_append, List.map_cons, List.sum_append, List.sum_cons]
  rw [add_assoc, add_comm (post.map f).sum, ← add_assoc]

/-- The threads after one of them moved: it stands where it stood, and so do the others. -/
theorem getElem?_moved (pre : List τ) (t t' : τ) (post : List τ) (i : ℕ) :
    (pre ++ t' :: post)[i]? = if i = pre.length then some t' else (pre ++ t :: post)[i]? := by
  have hset : pre ++ t' :: post = (pre ++ t :: post).set pre.length t' := by
    rw [List.set_append_right _ _ (Nat.le_refl _), Nat.sub_self, List.set_cons_zero]
  split
  · rename_i hi
    rw [hi, List.getElem?_append_right (Nat.le_refl _), Nat.sub_self, List.getElem?_cons_zero]
  · rename_i hi
    rw [hset, List.getElem?_set_ne (Ne.symm hi)]

theorem tally_le {f : τ → ℕ} {n : ℕ} (h : ∀ t, f t ≤ n) (threads : List τ) :
    tally f threads ≤ n * threads.length := by
  induction threads with
  | nil => exact Nat.zero_le _
  | cons t threads ih =>
    have hcons : tally f (t :: threads) = f t + tally f threads := List.sum_cons
    rw [hcons, List.length_cons, Nat.mul_succ, Nat.add_comm]
    exact Nat.add_le_add ih (h t)

/-! ### Schedules -/

/-- The thread at position `i` takes its next step, when there is one and it meets the guard. -/
def fire (step : Program ι σ τ) (C : Guard ι σ τ) [∀ p t x, Decidable (C p t x)]
    (p : Pool σ τ) (i : ℕ) (x : ι) : Option (Pool σ τ) :=
  match p.threads[i]? with
  | none => none
  | some t =>
    if C p t x then (step x p.shared t).map fun r => ⟨r.1, p.threads.set i r.2⟩ else none

/-- Runs a schedule: which thread moves next, and what it is supplied with. -/
def run (step : Program ι σ τ) (C : Guard ι σ τ) [∀ p t x, Decidable (C p t x)] :
    Pool σ τ → List (ℕ × ι) → Option (Pool σ τ)
  | p, [] => some p
  | p, (i, x) :: rest => (fire step C p i x).bind fun q => run step C q rest

section Schedules

variable {step : Program ι σ τ} {C : Guard ι σ τ} [∀ p t x, Decidable (C p t x)] {p q : Pool σ τ}

/-- What firing does: the thread at that position moves, and the others stay. -/
theorem fire_eq_some {i : ℕ} {x : ι} (h : fire step C p i x = some q) :
    ∃ pre t post s' t', p.threads = pre ++ t :: post ∧ pre.length = i ∧ C p t x ∧
      step x p.shared t = some (s', t') ∧ q = ⟨s', pre ++ t' :: post⟩ := by
  unfold fire at h
  split at h
  · cases h
  · rename_i t ht
    split at h
    · rename_i hC
      obtain ⟨⟨s', t'⟩, hs, rfl⟩ := Option.map_eq_some_iff.mp h
      obtain ⟨hi, hget⟩ := List.getElem?_eq_some_iff.mp ht
      refine ⟨p.threads.take i, t, p.threads.drop (i + 1), s', t', ?_, ?_, hC, hs, ?_⟩
      · rw [← hget, List.getElem_cons_drop, List.take_append_drop]
      · rw [List.length_take, Nat.min_eq_left (Nat.le_of_lt hi)]
      · rw [List.set_eq_take_append_cons_drop, if_pos hi]
    · cases h

theorem steps_of_fire {i : ℕ} {x : ι} (h : fire step C p i x = some q) : Steps step C p q := by
  obtain ⟨pre, t, post, s', t', hthreads, -, hC, hs, rfl⟩ := fire_eq_some h
  obtain ⟨s, ts⟩ := p
  simp only at hthreads
  subst hthreads
  exact .mk pre post hC hs

/-- **A schedule that evaluates is an interleaving.** -/
theorem reach_of_run {sched : List (ℕ × ι)} (h : run step C p sched = some q) :
    Reach step C p q := by
  induction sched generalizing p with
  | nil =>
    cases h
    exact .refl
  | cons move rest ih =>
    obtain ⟨m, hm, hrest⟩ := Option.bind_eq_some_iff.mp h
    exact .head (steps_of_fire hm) (ih hrest)

/-- A schedule whose last pool passes a test finds such a pool among the interleavings. -/
theorem exists_reach_of_run {sched : List (ℕ × ι)} {test : Pool σ τ → Bool}
    (h : (run step C p sched).any test = true) : ∃ q, Reach step C p q ∧ test q = true := by
  obtain ⟨q, hq, htest⟩ := (Option.any_eq_true _ _).mp h
  exact ⟨q, reach_of_run hq, htest⟩

theorem run_append (sched rest : List (ℕ × ι)) :
    run step C p (sched ++ rest) = (run step C p sched).bind fun m => run step C m rest := by
  induction sched generalizing p with
  | nil => rfl
  | cons move sched ih =>
    simp only [List.cons_append, run]
    cases fire step C p move.1 move.2 with
    | none => rfl
    | some m => exact ih

/-- **The move that first brings something about** stands somewhere in the schedule. -/
theorem exists_first_of_run {P : Pool σ τ → Prop} (hp : ¬P p) (hq : P q) {sched : List (ℕ × ι)}
    (h : run step C p sched = some q) :
    ∃ before i x after m m', sched = before ++ (i, x) :: after ∧ run step C p before = some m ∧
      ¬P m ∧ fire step C m i x = some m' ∧ P m' := by
  induction sched generalizing p with
  | nil =>
    cases h
    exact absurd hq hp
  | cons move rest ih =>
    obtain ⟨m, hm, hrest⟩ := Option.bind_eq_some_iff.mp h
    by_cases hPm : P m
    · exact ⟨[], move.1, move.2, rest, p, m, rfl, rfl, hp, hm, hPm⟩
    · obtain ⟨before, i, x, after, m₁, m₂, rfl, hbefore, hnot, hfire, hP⟩ := ih hPm hrest
      refine ⟨move :: before, i, x, after, m₁, m₂, rfl, ?_, hnot, hfire, hP⟩
      rw [run, hm]
      exact hbefore

/-- A thread alone, one turn of its schedule. -/
theorem run_solo_cons {s : σ} {t : τ} {x : ι} {rest : List (ℕ × ι)} :
    run step anyStep ⟨s, [t]⟩ ((0, x) :: rest)
      = (step x s t).bind fun r => run step anyStep ⟨r.1, [r.2]⟩ rest := by
  cases h : step x s t <;> simp [run, fire, anyStep, h]

/-- **Bounded schedules.**  A rank `R` that no move raises and every move in `K` lowers, under an
invariant every move keeps, bounds how many moves in `K` a schedule can have. -/
theorem run_countP_le {I : Pool σ τ → Prop} {R : Pool σ τ → ℕ} {K : ℕ × ι → Bool}
    (hstep : ∀ p q i x, I p → fire step C p i x = some q → I q ∧ (K (i, x)).toNat + R q ≤ R p)
    (hp : I p) {sched : List (ℕ × ι)} (h : run step C p sched = some q) :
    I q ∧ sched.countP K + R q ≤ R p := by
  induction sched generalizing p with
  | nil =>
    cases h
    exact ⟨hp, by simp⟩
  | cons move rest ih =>
    obtain ⟨m, hm, hrest⟩ := Option.bind_eq_some_iff.mp h
    obtain ⟨hI, hle⟩ := hstep p m move.1 move.2 hp hm
    obtain ⟨hq, hcount⟩ := ih hI hrest
    refine ⟨hq, ?_⟩
    rw [List.countP_cons]
    cases hc : K move <;> simp [hc] at hle ⊢ <;> omega

/-- **Every schedule ends** when each step of a thread lowers a rank of its own. -/
theorem run_length_le {T : τ → Prop} {f : τ → ℕ} (hstep : ∀ p t x s' t', T t → C p t x →
      step x p.shared t = some (s', t') → T t' ∧ f t' < f t) (hp : ∀ t ∈ p.threads, T t)
    {sched : List (ℕ × ι)} (h : run step C p sched = some q) :
    sched.length + tally f q.threads ≤ tally f p.threads := by
  have hbound := run_countP_le (I := fun p => ∀ t ∈ p.threads, T t) (R := fun p => tally f p.threads)
    (K := fun _ => true) ?_ hp h
  · rw [List.countP_true] at hbound
    exact hbound.2
  · intro p q i x hT hfire
    obtain ⟨pre, t, post, s', t', hthreads, -, hC, hs, rfl⟩ := fire_eq_some hfire
    rw [hthreads] at hT ⊢
    obtain ⟨ht', hlt⟩ := hstep p t x s' t' (hT t (by simp)) hC hs
    refine ⟨forall_moved hT ht' fun _ hu => hu, ?_⟩
    simp only [tally_split, Bool.toNat_true]
    omega

end Schedules

/-! ### Invariants -/

section Invariants

variable {step : Program ι σ τ} {C : Guard ι σ τ} {p q : Pool σ τ}

/-- **What every step keeps, every interleaving keeps.** -/
theorem Reach.invariant {I : Pool σ τ → Prop} (h : Reach step C p q) (hp : I p)
    (hstep : ∀ s pre t post x s' t', I ⟨s, pre ++ t :: post⟩ → C ⟨s, pre ++ t :: post⟩ t x →
      step x s t = some (s', t') → I ⟨s', pre ++ t' :: post⟩) : I q := by
  induction h with
  | refl => exact hp
  | tail _ hlast ih =>
    obtain ⟨pre, post, hC, hs⟩ := hlast
    exact hstep _ pre _ post _ _ _ ih hC hs

/-- **The step that first brings something about** stands somewhere in the interleaving. -/
theorem Reach.exists_first {P : Pool σ τ → Prop} (h : Reach step C p q) (hp : ¬P p) (hq : P q) :
    ∃ m m', Reach step C p m ∧ ¬P m ∧ Steps step C m m' ∧ P m' ∧ Reach step C m' q := by
  induction h with
  | refl => exact absurd hq hp
  | @tail m q hreach hlast ih =>
    by_cases hm : P m
    · obtain ⟨a, b, hbefore, hnot, hstep, hb, hafter⟩ := ih hm
      exact ⟨a, b, hbefore, hnot, hstep, hb, .tail hafter hlast⟩
    · exact ⟨m, q, hreach, hm, hlast, hq, .refl⟩

/-- A run under a guard is one under another that follows from it where an invariant holds. -/
theorem Reach.strengthen {D : Guard ι σ τ} {I : Pool σ τ → Prop} (h : Reach step C p q) (hp : I p)
    (hstep : ∀ s pre t post x s' t', I ⟨s, pre ++ t :: post⟩ → C ⟨s, pre ++ t :: post⟩ t x →
      step x s t = some (s', t') → D ⟨s, pre ++ t :: post⟩ t x ∧ I ⟨s', pre ++ t' :: post⟩) :
    Reach step D p q := by
  suffices hboth : Reach step D p q ∧ I q from hboth.1
  induction h with
  | refl => exact ⟨.refl, hp⟩
  | tail _ hlast ih =>
    obtain ⟨pre, post, hC, hs⟩ := hlast
    obtain ⟨hD, hI⟩ := hstep _ pre _ post _ _ _ ih.2 hC hs
    exact ⟨.tail ih.1 (.mk pre post hD hs), hI⟩

/-- An invariant in two parts: one of the shared state, one assertion for each thread. -/
def Local (S : σ → Prop) (T : σ → τ → Prop) (p : Pool σ τ) : Prop :=
  S p.shared ∧ ∀ t ∈ p.threads, T p.shared t

/-- **Interference freedom.**  A shared invariant and one assertion per thread hold along every
interleaving when each step keeps the invariant, establishes the moving thread's next assertion and
leaves every other thread's assertion standing. -/
theorem Reach.local_invariant {S : σ → Prop} {T : σ → τ → Prop} (h : Reach step C p q)
    (hp : Local S T p)
    (hstep : ∀ s pre t post x s' t', Local S T ⟨s, pre ++ t :: post⟩ → C ⟨s, pre ++ t :: post⟩ t x →
      step x s t = some (s', t') → S s' ∧ T s' t' ∧ ∀ u, T s u → T s' u) : Local S T q := by
  refine h.invariant hp ?_
  intro s pre t post x s' t' hI hC hs
  obtain ⟨hS, hT, hother⟩ := hstep s pre t post x s' t' hI hC hs
  exact ⟨hS, forall_moved hI.2 hT hother⟩

/-- **One thread among others.**  An assertion about the shared state and the thread at one position holds
along every interleaving when that thread's own steps keep it and the steps of the others leave it
standing. -/
theorem Reach.thread_invariant {A : σ → τ → Prop} {i : ℕ} {t : τ} (h : Reach step C p q)
    (ht : p.threads[i]? = some t) (hA : A p.shared t)
    (hown : ∀ p t x s' t', A p.shared t → C p t x → step x p.shared t = some (s', t') → A s' t')
    (hother : ∀ p u x s' u' t, A p.shared t → C p u x → step x p.shared u = some (s', u') → A s' t) :
    ∃ t', q.threads[i]? = some t' ∧ A q.shared t' := by
  refine h.invariant (I := fun q => ∃ t', q.threads[i]? = some t' ∧ A q.shared t') ⟨t, ht, hA⟩ ?_
  intro s pre u post x s' u' hI hC hs
  obtain ⟨t, ht, hA⟩ := hI
  have hmoved := getElem?_moved pre u u' post i
  split at hmoved
  · rename_i hi
    rw [hi, List.getElem?_append_right (Nat.le_refl _), Nat.sub_self, List.getElem?_cons_zero] at ht
    obtain rfl := Option.some.inj ht
    exact ⟨u', hmoved, hown _ u x s' u' hA hC hs⟩
  · exact ⟨t, hmoved.trans ht, hother _ u x s' u' t hA hC hs⟩

/-- **A sum over the threads.**  An invariant that ties the shared state to a tally holds along every
interleaving when each step keeps it, whatever the other threads come to. -/
theorem Reach.tally_invariant {M : Type*} [AddCommMonoid M] {f : τ → M} {T : τ → Prop}
    {J : σ → M → Prop} (h : Reach step C p q) (hT : ∀ t ∈ p.threads, T t)
    (hJ : J p.shared (tally f p.threads))
    (hstep : ∀ s threads t x s' t' rest, tally f threads = rest + f t → T t → C ⟨s, threads⟩ t x →
      step x s t = some (s', t') → J s (rest + f t) → T t' ∧ J s' (rest + f t')) :
    (∀ t ∈ q.threads, T t) ∧ J q.shared (tally f q.threads) := by
  refine h.invariant (I := fun q => (∀ t ∈ q.threads, T t) ∧ J q.shared (tally f q.threads))
    ⟨hT, hJ⟩ ?_
  rintro s pre t post x s' t' ⟨hT, hJ⟩ hC hs
  simp only [tally_split] at hJ ⊢
  have ht : T t := hT t (List.mem_append_right _ (List.mem_cons_self ..))
  obtain ⟨ht', hJ'⟩ := hstep s _ t x s' t' _ (tally_split f pre t post) ht hC hs hJ
  exact ⟨forall_moved hT ht' fun _ hu => hu, hJ'⟩

/-- A thread that runs alone takes a step, and then the rest. -/
theorem reach_solo_head {s s' : σ} {t t' : τ} {x : ι} (hmeets : C ⟨s, [t]⟩ t x)
    (hmoves : step x s t = some (s', t')) (h : Reach step C ⟨s', [t']⟩ q) : Reach step C ⟨s, [t]⟩ q :=
  Relation.ReflTransGen.head (Steps.mk [] [] hmeets hmoves) h

/-- **A thread alone.**  With no other thread, an assertion about the shared state and the thread need
only survive the thread's own steps. -/
theorem Reach.solo_invariant {A : σ → τ → Prop} {s : σ} {t : τ} (h : Reach step C ⟨s, [t]⟩ q)
    (hA : A s t)
    (hstep : ∀ s t x s' t', A s t → C ⟨s, [t]⟩ t x → step x s t = some (s', t') → A s' t') :
    ∃ s' t', q = ⟨s', [t']⟩ ∧ A s' t' := by
  refine h.invariant (I := fun q => ∃ s' t', q = ⟨s', [t']⟩ ∧ A s' t') ⟨s, t, rfl, hA⟩ ?_
  rintro s₁ pre t₁ post x s₂ t₂ ⟨s', t', heq, hA'⟩ hC hs
  obtain ⟨rfl, hlist⟩ := Pool.mk.inj heq
  obtain ⟨rfl, rfl, rfl⟩ : pre = [] ∧ t₁ = t' ∧ post = [] := by
    cases pre with
    | nil => simpa using hlist
    | cons a pre => simp at hlist
  exact ⟨s₂, t₂, rfl, hstep _ _ _ _ _ hA' hC hs⟩

/-- So it holds where the thread ends up. -/
theorem Reach.solo_ends {A : σ → τ → Prop} {s s' : σ} {t t' : τ} (h : Reach step C ⟨s, [t]⟩ ⟨s', [t']⟩)
    (hA : A s t)
    (hstep : ∀ s t x s' t', A s t → C ⟨s, [t]⟩ t x → step x s t = some (s', t') → A s' t') : A s' t' := by
  obtain ⟨s₁, t₁, heq, hends⟩ := h.solo_invariant hA hstep
  obtain ⟨rfl, hthread⟩ := Pool.mk.inj heq
  obtain rfl := List.singleton_inj.mp hthread
  exact hends

end Invariants

end Pool

end IntelliPrism.Lib
