import IntelliPrism.Lib.Process

/-!
# What a process may rely on while others run

A process reads, decides and writes, one call at a time, and others write in between.  What it found out
stays true only as long as the others leave it alone.  A `Discipline` says what everybody keeps: an
invariant of the shared state, which changes by others a request bears while it is under way, and which
calls it may make in which states.

* `Discipline.Always` — the text of a request keeps the discipline from a state on, whatever others do in
  between that the request bears; `Always.bind` and `always_of_calls` take a text apart;
* `Discipline.reach` — **when every text keeps the discipline, every undisturbed interleaving does**: the
  invariant holds throughout, and every call is made in a state it may be made in;
* `Unshared` — the guard under which requests are served one at a time, which disturbs nobody;
* `Process.Along`, `along_of_unshared` — **what one text run alone keeps from call to call and restores by
  its return, requests served one at a time keep**;
* `Process.Ends` — a text run alone to its return.
-/

namespace IntelliPrism.Lib

variable {ι σ Op : Type} {Res : Op → Type} {α β κ : Type}

namespace Process

/-- Whether a computation has returned. -/
def returned : Process Op Res α → Bool
  | done _ => true
  | call _ _ => false

/-- Every call a computation could make, whatever it is answered, is of one kind. -/
def Calls (P : Op → Prop) : Process Op Res α → Prop
  | done _ => True
  | call op next => P op ∧ ∀ answer, (next answer).Calls P

@[simp] theorem calls_pure (P : Op → Prop) (value : α) :
    Calls P (pure value : Process Op Res α) := trivial

theorem Calls.bind {P : Op → Prop} {p : Process Op Res α} {f : α → Process Op Res β} (hp : p.Calls P)
    (hf : ∀ value, (f value).Calls P) : (p >>= f).Calls P := by
  induction p with
  | done value => exact hf value
  | call op next ih => exact ⟨hp.1, fun answer => ih answer (hp.2 answer)⟩

/-- Every value a computation could return, whatever it is answered, is of one kind. -/
def Yields (Q : α → Prop) : Process Op Res α → Prop
  | done value => Q value
  | call _ next => ∀ answer, (next answer).Yields Q

theorem yields_true (p : Process Op Res α) : p.Yields fun _ => True := by
  induction p with
  | done value => trivial
  | call op next ih => exact ih

theorem Yields.bind {Q : β → Prop} {p : Process Op Res α} {f : α → Process Op Res β}
    (hf : ∀ value, (f value).Yields Q) : (p >>= f).Yields Q := by
  induction p with
  | done value => exact hf value
  | call op next ih => exact fun answer => ih answer

theorem Yields.mono {Q Q' : α → Prop} {p : Process Op Res α} (hp : p.Yields Q)
    (h : ∀ value, Q value → Q' value) : p.Yields Q' := by
  induction p with
  | done value => exact h value hp
  | call op next ih => exact fun answer => ih answer (hp answer)

theorem Calls.bind_yields {P : Op → Prop} {Q : α → Prop} {p : Process Op Res α}
    {f : α → Process Op Res β} (hp : p.Calls P) (hq : p.Yields Q)
    (hf : ∀ value, Q value → (f value).Calls P) : (p >>= f).Calls P := by
  induction p with
  | done value => exact hf value hq
  | call op next ih => exact ⟨hp.1, fun answer => ih answer (hp.2 answer) (hq answer)⟩

theorem Calls.mono {P P' : Op → Prop} {p : Process Op Res α} (hp : p.Calls P)
    (h : ∀ op, P op → P' op) : p.Calls P' := by
  induction p with
  | done value => trivial
  | call op next ih => exact ⟨h op hp.1, fun answer => ih answer (hp.2 answer)⟩

/-- A computation run alone from one state to its return in another, each call supplied with anything. -/
inductive Ends (handle : Handler ι σ Op Res) : Process Op Res α → σ → σ → α → Prop where
  | done (value : α) (s : σ) : Ends handle (done value) s s value
  | call {op : Op} {next : Res op → Process Op Res α} {s s' : σ} {value : α} (x : ι)
      (rest : Ends handle (next (handle x op s).2) (handle x op s).1 s' value) :
      Ends handle (call op next) s s' value

theorem ends_exec (handle : Handler ι σ Op Res) (x : ι) (p : Process Op Res α) (s : σ) :
    Ends handle p s (exec handle x p s).1 (exec handle x p s).2 := by
  induction p generalizing s with
  | done value => exact .done value s
  | call op next ih => exact .call x (ih (handle x op s).2 (handle x op s).1)

theorem ends_pure {handle : Handler ι σ Op Res} {value value' : α} {s s' : σ} :
    Ends handle (pure value : Process Op Res α) s s' value' ↔ s' = s ∧ value' = value := by
  constructor
  · intro h
    cases h
    exact ⟨rfl, rfl⟩
  · rintro ⟨rfl, rfl⟩
    exact .done _ _

/-- **A sequence ends as its parts do, one after the other.** -/
theorem ends_bind {handle : Handler ι σ Op Res} {p : Process Op Res α} {f : α → Process Op Res β}
    {s s' : σ} {value : β} :
    Ends handle (p >>= f) s s' value ↔
      ∃ s₁ value₁, Ends handle p s s₁ value₁ ∧ Ends handle (f value₁) s₁ s' value := by
  constructor
  · intro h
    induction p generalizing s with
    | done value₁ => exact ⟨s, value₁, .done _ _, h⟩
    | call op next ih =>
      cases h with
      | call x rest =>
        obtain ⟨s₁, value₁, hp, hf⟩ := ih _ rest
        exact ⟨s₁, value₁, .call x hp, hf⟩
  · rintro ⟨s₁, value₁, hp, hf⟩
    induction hp with
    | done value₁ s => exact hf
    | call x _ ih => exact .call x (ih hf)

/-- What every call a computation could make does to the state, the whole computation does. -/
theorem Ends.relate {handle : Handler ι σ Op Res} {P : Op → Prop} {R : σ → σ → Prop}
    {p : Process Op Res α} {s s' : σ} {value : α} (h : Ends handle p s s' value) (hp : p.Calls P)
    (hrefl : ∀ s, R s s) (htrans : ∀ {s₁ s₂ s₃}, R s₁ s₂ → R s₂ s₃ → R s₁ s₃)
    (hcall : ∀ op, P op → ∀ x s, R s (handle x op s).1) : R s s' := by
  induction h with
  | done value s => exact hrefl s
  | call x _ ih => exact htrans (hcall _ hp.1 x _) (ih (hp.2 _))

/-- A computation run alone keeps `J` from call to call, whatever each is supplied with, and returns with
`Q` of its value and the state. -/
def Along (handle : Handler ι σ Op Res) (J : σ → Prop) (Q : α → σ → Prop) : Process Op Res α → σ → Prop
  | done value, s => J s ∧ Q value s
  | call op next, s => J s ∧ ∀ x, (next (handle x op s).2).Along handle J Q (handle x op s).1

section Along

variable {handle : Handler ι σ Op Res} {J : σ → Prop} {Q : α → σ → Prop} {s : σ}

theorem Along.start {p : Process Op Res α} (h : p.Along handle J Q s) : J s := by
  cases p with
  | done value => exact h.1
  | call op next => exact h.1

/-- One text and then another that is given its value. -/
theorem Along.bind {Q' : β → σ → Prop} {p : Process Op Res α} {f : α → Process Op Res β}
    (hp : p.Along handle J Q s) (hf : ∀ value s, Q value s → (f value).Along handle J Q' s) :
    (p >>= f).Along handle J Q' s := by
  induction p generalizing s with
  | done value => exact hf value s hp.2
  | call op next ih => exact ⟨hp.1, fun x => ih _ (hp.2 x)⟩

end Along

end Process

/-! ### Requests as threads -/

/-- A request being served: what it asks, whether its first call was made, and what is left to do. -/
structure Task (κ Op : Type) (Res : Op → Type) (α : Type) where
  request : κ
  begun : Bool
  rest : Process Op Res α

namespace Task

/-- A request that has not begun. -/
def of (text : κ → Process Op Res α) (request : κ) : Task κ Op Res α := ⟨request, false, text request⟩

/-- Whether a request has made a call and has not returned. -/
def underWay (t : Task κ Op Res α) : Bool := t.begun && !t.rest.returned

/-- One call of the request. -/
def step (handle : Handler ι σ Op Res) : Program ι σ (Task κ Op Res α) := fun x s t =>
  (Process.step handle x s t.rest).map fun r => (r.1, { t with begun := true, rest := r.2 })

/-- **What a step is**: the call the request waits for, made on the state as it is. -/
theorem step_eq_some {handle : Handler ι σ Op Res} {x : ι} {s s' : σ} {t t' : Task κ Op Res α} :
    step handle x s t = some (s', t') ↔ ∃ op next, t.rest = .call op next ∧ s' = (handle x op s).1 ∧
      t' = ⟨t.request, true, next (handle x op s).2⟩ := by
  obtain ⟨request, begun, rest⟩ := t
  cases rest with
  | done value => simp [step, Process.step]
  | call op next =>
    constructor
    · intro h
      cases h
      exact ⟨op, next, rfl, rfl, rfl⟩
    · rintro ⟨op', next', hrest, rfl, rfl⟩
      cases hrest
      rfl

end Task

/-- The guard under which a request takes a step only while no other is under way. -/
def Unshared : Guard ι σ (Task κ Op Res α) := fun p t _ =>
  p.threads.countP Task.underWay ≤ t.underWay.toNat

instance (p : Pool σ (Task κ Op Res α)) (t : Task κ Op Res α) (x : ι) : Decidable (Unshared p t x) :=
  inferInstanceAs (Decidable (_ ≤ _))

/-- While a request takes a step, no other is under way. -/
theorem Unshared.others {s : σ} {pre post : List (Task κ Op Res α)} {t : Task κ Op Res α} {x : ι}
    (h : Unshared ⟨s, pre ++ t :: post⟩ t x) : ∀ u ∈ pre ++ post, u.underWay = false := by
  intro u hu
  by_contra hway
  have hpos : 0 < (pre ++ post).countP Task.underWay :=
    List.countP_pos_iff.mpr ⟨u, hu, Bool.not_eq_false _ ▸ hway⟩
  have hcount : (pre ++ t :: post).countP Task.underWay
      = (pre ++ post).countP Task.underWay + t.underWay.toNat := by
    rw [List.countP_append, List.countP_append, List.countP_cons, Nat.add_assoc]
    cases t.underWay <;> rfl
  rw [Unshared, hcount] at h
  omega

section Serial

variable {handle : Handler ι σ Op Res} {J I : σ → Prop} {text : κ → Process Op Res α}

/-- Where requests served one at a time stand: a request that has not begun has its text before it, and
either one is under way and keeps `J`, or none is and `I` holds. -/
structure OneByOne (handle : Handler ι σ Op Res) (J I : σ → Prop) (text : κ → Process Op Res α)
    (requests : List κ) (p : Pool σ (Task κ Op Res α)) : Prop where
  whole : ∀ t ∈ p.threads, t.begun = false → t.rest = text t.request ∧ t.request ∈ requests
  along : ∀ t ∈ p.threads, t.underWay = true → t.rest.Along handle J (fun _ => I) p.shared
  settled : (∀ t ∈ p.threads, t.underWay = false) → I p.shared

/-- **One step of a request while no other is under way.** -/
theorem OneByOne.step {requests : List κ}
    (htext : ∀ k ∈ requests, ∀ s, I s → (text k).Along handle J (fun _ => I) s) {s s' : σ}
    {pre post : List (Task κ Op Res α)} {t t' : Task κ Op Res α} {x : ι}
    (h : OneByOne handle J I text requests ⟨s, pre ++ t :: post⟩)
    (hC : Unshared ⟨s, pre ++ t :: post⟩ t x) (hstep : Task.step handle x s t = some (s', t')) :
    OneByOne handle J I text requests ⟨s', pre ++ t' :: post⟩ := by
  obtain ⟨op, next, hrest, rfl, rfl⟩ := Task.step_eq_some.mp hstep
  have hothers := hC.others
  have hmine : t ∈ pre ++ t :: post := List.mem_append_right _ (List.mem_cons_self ..)
  have halong : t.rest.Along handle J (fun _ => I) s := by
    cases hbegun : t.begun with
    | false =>
      obtain ⟨hwhole, hrequest⟩ := h.whole t hmine hbegun
      rw [hwhole]
      refine htext _ hrequest _ (h.settled fun u hu => ?_)
      rcases List.mem_append.mp hu with hu | hu
      · exact hothers u (List.mem_append_left _ hu)
      · rcases List.mem_cons.mp hu with rfl | hu
        · simp [Task.underWay, hbegun]
        · exact hothers u (List.mem_append_right _ hu)
    | true => exact h.along t hmine (by simp [Task.underWay, Process.returned, hbegun, hrest])
  rw [hrest] at halong
  have hnext := halong.2 x
  -- The others are where they were; the one that moved is where its call has brought it.
  have hwhere : ∀ u ∈ pre ++ ⟨t.request, true, next (handle x op s).2⟩ :: post,
      u ∈ pre ++ post ∨ u = ⟨t.request, true, next (handle x op s).2⟩ := by
    intro u hu
    rcases List.mem_append.mp hu with hu | hu
    · exact .inl (List.mem_append_left _ hu)
    · rcases List.mem_cons.mp hu with rfl | hu
      · exact .inr rfl
      · exact .inl (List.mem_append_right _ hu)
  refine ⟨fun u hu hbegun => ?_, fun u hu hway => ?_, fun hnone => ?_⟩
  · rcases hwhere u hu with hold | rfl
    · refine h.whole u ?_ hbegun
      rcases List.mem_append.mp hold with hu | hu
      · exact List.mem_append_left _ hu
      · exact List.mem_append_right _ (List.mem_cons_of_mem _ hu)
    · cases hbegun
  · rcases hwhere u hu with hold | rfl
    · rw [hothers u hold] at hway
      cases hway
    · exact hnext
  · show I (handle x op s).1
    have hreturned := hnone _ (List.mem_append_right pre (List.mem_cons_self ..))
    cases hdone : next (handle x op s).2 with
    | done value =>
      rw [hdone] at hnext
      exact hnext.2
    | call op' next' => simp [Task.underWay, Process.returned, hdone] at hreturned

/-- **What one text run alone keeps, requests served one at a time keep.** -/
theorem along_of_unshared (hJ : ∀ s, I s → J s) {requests : List κ}
    (htext : ∀ k ∈ requests, ∀ s, I s → (text k).Along handle J (fun _ => I) s) {s : σ} (hs : I s)
    {q : Pool σ (Task κ Op Res α)}
    (h : Pool.Reach (Task.step handle) Unshared ⟨s, requests.map (Task.of text)⟩ q) : J q.shared := by
  have hstart : OneByOne handle J I text requests ⟨s, requests.map (Task.of text)⟩ := by
    refine ⟨fun t ht _ => ?_, fun t ht hway => ?_, fun _ => hs⟩
    · obtain ⟨request, hrequest, rfl⟩ := List.mem_map.mp ht
      exact ⟨rfl, hrequest⟩
    · obtain ⟨request, -, rfl⟩ := List.mem_map.mp ht
      simp [Task.of, Task.underWay] at hway
  have hone := h.invariant (I := OneByOne handle J I text requests) hstart
    fun s pre t post x s' t' hI hC hstep => hI.step htext hC hstep
  by_cases hway : ∃ t ∈ q.threads, t.underWay = true
  · obtain ⟨t, ht, hway⟩ := hway
    exact (hone.along t ht hway).start
  · refine hJ _ (hone.settled fun t ht => ?_)
    by_contra hnot
    exact hway ⟨t, ht, Bool.not_eq_false _ ▸ hnot⟩

end Serial

/-! ### Disciplines -/

/-- What the requests of a system keep between them. -/
structure Discipline (handle : Handler ι σ Op Res) (κ : Type) where
  /-- The invariant of the shared state. -/
  holds : σ → Prop
  /-- Which changes by others a request bears while it is under way. -/
  bears : κ → σ → σ → Prop
  /-- Which calls a request may make in which states. -/
  may : κ → σ → Op → Prop
  bears_refl : ∀ k s, bears k s s
  bears_trans : ∀ {k s₁ s₂ s₃}, bears k s₁ s₂ → bears k s₂ s₃ → bears k s₁ s₃
  keeps : ∀ {k x op s}, holds s → may k s op → holds (handle x op s).1

namespace Discipline

variable {handle : Handler ι σ Op Res} (D : Discipline handle κ) (k : κ)

/-- A text keeps the discipline from a state on: whatever the request bears happens before each of its
calls, the call may be made, and when it returns its value and the state satisfy `Q`. -/
def Always (Q : α → σ → Prop) : Process Op Res α → σ → Prop
  | .done value, s => ∀ s', D.bears k s s' → D.holds s' → Q value s'
  | .call op next, s => ∀ s', D.bears k s s' → D.holds s' →
      D.may k s' op ∧ ∀ x, Always Q (next (handle x op s').2) (handle x op s').1

variable {D k} {Q : α → σ → Prop} {s s' : σ}

theorem always_true_pure (value : α) : D.Always k (fun _ _ => True) (pure value) s :=
  fun _ _ _ => trivial

/-- What a request bears leaves its text keeping the discipline. -/
theorem Always.later {p : Process Op Res α} (h : D.Always k Q p s) (hs : D.bears k s s') :
    D.Always k Q p s' := by
  cases p with
  | done value => exact fun s₂ hb hh => h s₂ (D.bears_trans hs hb) hh
  | call op next => exact fun s₂ hb hh => h s₂ (D.bears_trans hs hb) hh

/-- One text and then another that is given its value. -/
theorem Always.bind {P : α → σ → Prop} {Q : β → σ → Prop} {p : Process Op Res α}
    {f : α → Process Op Res β} (hs : D.holds s) (hp : D.Always k P p s)
    (hf : ∀ value s', D.holds s' → P value s' → D.Always k Q (f value) s') :
    D.Always k Q (p >>= f) s := by
  induction p generalizing s with
  | done value => exact hf value s hs (hp s (D.bears_refl k s) hs)
  | call op next ih =>
    intro s' hb hh
    obtain ⟨hmay, hnext⟩ := hp s' hb hh
    exact ⟨hmay, fun x => ih _ (D.keeps hh hmay) (hnext x)⟩

theorem Always.mono {Q' : α → σ → Prop} {p : Process Op Res α} (h : D.Always k Q p s)
    (hQ : ∀ value s, Q value s → Q' value s) : D.Always k Q' p s := by
  induction p generalizing s with
  | done value => exact fun s' hb hh => hQ _ _ (h s' hb hh)
  | call op next ih =>
    exact fun s' hb hh => ⟨(h s' hb hh).1, fun x => ih _ ((h s' hb hh).2 x)⟩

/-- Two things a text promises at once. -/
theorem Always.and {Q' : α → σ → Prop} {p : Process Op Res α} (h : D.Always k Q p s)
    (h' : D.Always k Q' p s) : D.Always k (fun value s => Q value s ∧ Q' value s) p s := by
  induction p generalizing s with
  | done value => exact fun s' hb hh => ⟨h s' hb hh, h' s' hb hh⟩
  | call op next ih =>
    intro s' hb hh
    exact ⟨(h s' hb hh).1, fun x => ih _ ((h s' hb hh).2 x) ((h' s' hb hh).2 x)⟩

/-- A text that only makes calls which may always be made keeps the discipline. -/
theorem always_of_calls {p : Process Op Res α} (h : p.Calls fun op => ∀ s, D.holds s → D.may k s op) :
    D.Always k (fun _ _ => True) p s := by
  induction p generalizing s with
  | done value => exact fun _ _ _ => trivial
  | call op next ih => exact fun s' _ hh => ⟨h.1 s' hh, fun x => ih _ (h.2 _)⟩

variable (D)

/-- The guard under which a step is one that every other request under way bears. -/
def Undisturbed : Guard ι σ (Task κ Op Res α) := fun p t x =>
  ∀ pre post s' t', p.threads = pre ++ t :: post → Task.step handle x p.shared t = some (s', t') →
    ∀ u ∈ pre ++ post, u.underWay = true → D.bears u.request p.shared s'

/-- Requests served one at a time disturb nobody. -/
theorem undisturbed_of_unshared {p : Pool σ (Task κ Op Res α)} {t : Task κ Op Res α} {x : ι}
    (h : Unshared p t x) : D.Undisturbed p t x := by
  intro pre post s' t' hthreads _ u hu hway
  have hothers : ∀ u ∈ pre ++ post, u.underWay = false := by
    obtain ⟨shared, threads⟩ := p
    obtain rfl : threads = pre ++ t :: post := hthreads
    exact h.others
  rw [hothers u hu] at hway
  cases hway

theorem reach_undisturbed_of_unshared {p q : Pool σ (Task κ Op Res α)}
    (h : Pool.Reach (Task.step handle) Unshared p q) : Pool.Reach (Task.step handle) D.Undisturbed p q :=
  h.strengthen (I := fun _ => True) trivial fun _ _ _ _ _ _ _ _ hC _ =>
    ⟨D.undisturbed_of_unshared hC, trivial⟩

/-- What is known of a request: under way, the rest of it keeps the discipline; before that, its text is
whole. -/
def Kept (text : κ → Process Op Res α) (s : σ) (t : Task κ Op Res α) : Prop :=
  (t.underWay = true → D.Always t.request (fun _ _ => True) t.rest s) ∧
    (t.begun = false → t.rest = text t.request)

variable {D} {text : κ → Process Op Res α}

theorem Kept.always (verified : ∀ k s, D.holds s → D.Always k (fun _ _ => True) (text k) s)
    {t : Task κ Op Res α} (h : D.Kept text s t) (hs : D.holds s) {op : Op}
    {next : Res op → Process Op Res α} (hrest : t.rest = .call op next) :
    D.Always t.request (fun _ _ => True) t.rest s := by
  cases hbegun : t.begun with
  | false =>
    rw [h.2 hbegun]
    exact verified _ _ hs
  | true =>
    apply h.1
    simp [Task.underWay, Process.returned, hbegun, hrest]

/-- **When every text keeps the discipline, every undisturbed interleaving does.**  The invariant holds
throughout, and each request is as far as its text and its calls have brought it. -/
theorem reach (verified : ∀ k s, D.holds s → D.Always k (fun _ _ => True) (text k) s)
    {requests : List κ} {q : Pool σ (Task κ Op Res α)} (hs : D.holds s)
    (h : Pool.Reach (Task.step handle) D.Undisturbed ⟨s, requests.map (Task.of text)⟩ q) :
    D.holds q.shared ∧ ∀ t ∈ q.threads, D.Kept text q.shared t := by
  refine h.invariant (I := fun q => D.holds q.shared ∧ ∀ t ∈ q.threads, D.Kept text q.shared t)
    ⟨hs, ?_⟩ ?_
  · intro t ht
    obtain ⟨request, -, rfl⟩ := List.mem_map.mp ht
    exact ⟨fun hway => by simp [Task.of, Task.underWay] at hway, fun _ => rfl⟩
  · rintro s pre t post x s' t' ⟨hholds, hkept⟩ hguard hstep
    have hmine : t ∈ pre ++ t :: post := List.mem_append_right _ (List.mem_cons_self ..)
    obtain ⟨op, next, hrest, hs', ht'⟩ := Task.step_eq_some.mp hstep
    have halways := (hkept t hmine).always verified hholds hrest
    rw [hrest] at halways
    obtain ⟨hmay, hnext⟩ := halways s (D.bears_refl _ _) hholds
    refine ⟨?_, fun u hu => ?_⟩
    · show D.holds s'
      rw [hs']
      exact D.keeps hholds hmay
    -- The request that moved is where its call has brought it; the others bear the call.
    rcases List.mem_append.mp hu with hpre | hpost
    · have hu : u ∈ pre ++ post := List.mem_append_left _ hpre
      have hold := hkept u (List.mem_append_left _ hpre)
      exact ⟨fun hway => (hold.1 hway).later (hguard pre post s' t' rfl hstep u hu hway), hold.2⟩
    · rcases List.mem_cons.mp hpost with hself | hpost
      · rw [hself, ht']
        refine ⟨fun _ => ?_, fun hbegun => by cases hbegun⟩
        show D.Always t.request _ _ s'
        rw [hs']
        exact hnext x
      · have hu : u ∈ pre ++ post := List.mem_append_right _ hpost
        have hold := hkept u (List.mem_append_right _ (List.mem_cons_of_mem _ hpost))
        exact ⟨fun hway => (hold.1 hway).later (hguard pre post s' t' rfl hstep u hu hway), hold.2⟩

/-- The call a request waits for may be made in the state it would be made in. -/
theorem may_of_reach (verified : ∀ k s, D.holds s → D.Always k (fun _ _ => True) (text k) s)
    {requests : List κ} {q : Pool σ (Task κ Op Res α)} (hs : D.holds s)
    (h : Pool.Reach (Task.step handle) D.Undisturbed ⟨s, requests.map (Task.of text)⟩ q)
    {t : Task κ Op Res α} (ht : t ∈ q.threads) {op : Op} {next : Res op → Process Op Res α}
    (hrest : t.rest = .call op next) : D.may t.request q.shared op := by
  obtain ⟨hholds, hkept⟩ := reach verified hs h
  have halways := (hkept t ht).always verified hholds hrest
  rw [hrest] at halways
  exact (halways q.shared (D.bears_refl _ _) hholds).1

end Discipline

end IntelliPrism.Lib
