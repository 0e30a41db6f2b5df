import IntelliPrism.Lib.Interleaving

/-!
# Processes: one program text, run alone or interleaved

An asynchronous function that calls a store and a cache is a tree: it has returned, or it waits for one
call and goes on with whatever the call answers.  `Process` is that tree, a monad, so that such a
function is written down as its source has it.  A `Handler` says what each call does to the state and
what it answers, in one atomic step.  The text then has two meanings:

* `Process.exec` — run alone from a state to the end;
* `Process.step` — one call at a time, as a `Program` whose steps interleave with others';
* `Process.exec_bind` — **a sequence runs as its parts one after the other**.
-/

namespace IntelliPrism.Lib

/-- A computation that has returned, or that waits for a call and goes on with its answer. -/
inductive Process (Op : Type) (Res : Op → Type) (α : Type) : Type where
  | done (value : α)
  | call (op : Op) (next : Res op → Process Op Res α)

/-- What a call does to the state and what it answers. -/
abbrev Handler (ι σ Op : Type) (Res : Op → Type) := ι → (op : Op) → σ → σ × Res op

namespace Process

variable {ι σ Op : Type} {Res : Op → Type} {α β : Type}

/-- One computation, and then another that is given its value. -/
def bind : Process Op Res α → (α → Process Op Res β) → Process Op Res β
  | done value, f => f value
  | call op next, f => call op fun answer => (next answer).bind f

instance : Monad (Process Op Res) where
  pure := done
  bind := bind

theorem map_id (p : Process Op Res α) : id <$> p = p := by
  induction p with
  | done value => rfl
  | call op next ih => exact congrArg (call op) (funext ih)

theorem bind_bind {γ : Type} (p : Process Op Res α) (f : α → Process Op Res β)
    (g : β → Process Op Res γ) : p >>= f >>= g = p >>= fun value => f value >>= g := by
  induction p with
  | done value => rfl
  | call op next ih => exact congrArg (call op) (funext ih)

instance : LawfulMonad (Process Op Res) :=
  LawfulMonad.mk' _ map_id (fun _ _ => rfl) bind_bind

/-- One atomic step: the call a computation waits for, or nothing once it has returned. -/
def step (handle : Handler ι σ Op Res) : Program ι σ (Process Op Res α) := fun x s p =>
  match p with
  | done _ => none
  | call op next => some ((handle x op s).1, next (handle x op s).2)

/-- Runs a computation alone to its end, every call supplied with the same `x`. -/
def exec (handle : Handler ι σ Op Res) (x : ι) : Process Op Res α → σ → σ × α
  | done value, s => (s, value)
  | call op next, s => exec handle x (next (handle x op s).2) (handle x op s).1

variable (handle : Handler ι σ Op Res) (x : ι)

@[simp] theorem exec_pure (value : α) (s : σ) :
    exec handle x (pure value : Process Op Res α) s = (s, value) := rfl

@[simp] theorem exec_done (value : α) (s : σ) :
    exec handle x (done value : Process Op Res α) s = (s, value) := rfl

@[simp] theorem exec_call (op : Op) (next : Res op → Process Op Res α) (s : σ) :
    exec handle x (call op next) s = exec handle x (next (handle x op s).2) (handle x op s).1 := rfl

/-- **A sequence runs as its parts one after the other.** -/
@[simp] theorem exec_bind (p : Process Op Res α) (f : α → Process Op Res β) (s : σ) :
    exec handle x (p >>= f) s = exec handle x (f (exec handle x p s).2) (exec handle x p s).1 := by
  show exec handle x (p.bind f) s = _
  induction p generalizing s with
  | done value => rfl
  | call op next ih => exact ih (handle x op s).2 (handle x op s).1

end Process

end IntelliPrism.Lib
