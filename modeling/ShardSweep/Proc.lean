/-!
# Procedures over a shared store

Threads share a store, and between two steps of one thread any other may act.
A `Proc σ α` is what a thread does to a store of type `σ` until it has a result:
a chain of steps, each of which is indivisible.  A step finds the store, changes
it, and chooses how to go on from what it found, so all places where another
thread can interfere are visible in the value.

* `run`: the procedure with nobody else around;
* `run_bind`, `run_atomic`: running follows the way procedures are put together;
* `run_on`: a procedure for one part of a store leaves the rest alone.
-/

namespace ShardSweep

/-- What one thread does to a store until it has a result. -/
inductive Proc (σ α : Type) where
  /-- Nothing is left to do. -/
  | done (a : α)
  /-- Change the store by `change` in one indivisible step and go on with what
  `next` says of the store found before the change. -/
  | step (change : σ → σ) (next : σ → Proc σ α)

namespace Proc

variable {σ τ α β γ : Type}

/-- Carry a procedure on with what its result asks for. -/
def bind : Proc σ α → (α → Proc σ β) → Proc σ β
  | .done a, k => k a
  | .step change next, k => .step change fun s => (next s).bind k

instance : Monad (Proc σ) where
  pure := .done
  bind := bind

/-- One indivisible step with a result. -/
def atomic (f : σ → α × σ) : Proc σ α :=
  .step (fun s => (f s).2) fun s => .done (f s).1

/-- One step that only looks. -/
def read (f : σ → α) : Proc σ α :=
  .step id fun s => .done (f s)

/-- One step that only changes. -/
def modify (f : σ → σ) : Proc σ Unit :=
  .step f fun _ => .done ()

/-- The procedure from its first to its last step, with nobody else around. -/
def run : Proc σ α → σ → α × σ
  | .done a, s => (a, s)
  | .step change next, s => (next s).run (change s)

@[simp] theorem run_done (a : α) (s : σ) : (done a : Proc σ α).run s = (a, s) := rfl

@[simp] theorem run_pure (a : α) (s : σ) : (pure a : Proc σ α).run s = (a, s) := rfl

@[simp] theorem run_step (change : σ → σ) (next : σ → Proc σ α) (s : σ) :
    (step change next).run s = (next s).run (change s) := rfl

@[simp] theorem run_atomic (f : σ → α × σ) (s : σ) : (atomic f).run s = f s := rfl

@[simp] theorem run_read (f : σ → α) (s : σ) : (read f).run s = (f s, s) := rfl

@[simp] theorem run_modify (f : σ → σ) (s : σ) : (modify f).run s = ((), f s) := rfl

/-- What follows runs on the store that the first part leaves. -/
theorem run_bind' (p : Proc σ α) (k : α → Proc σ β) (s : σ) :
    (p.bind k).run s = (k (p.run s).1).run (p.run s).2 := by
  induction p generalizing s with
  | done a => rfl
  | step change next ih => exact ih s (change s)

@[simp] theorem run_bind (p : Proc σ α) (k : α → Proc σ β) (s : σ) :
    (p >>= k).run s = (k (p.run s).1).run (p.run s).2 :=
  run_bind' p k s

private theorem bind_done (p : Proc σ α) : p.bind .done = p := by
  induction p with
  | done a => rfl
  | step change next ih => exact congrArg (step change) (funext ih)

private theorem bind_assoc (p : Proc σ α) (k : α → Proc σ β) (l : β → Proc σ γ) :
    (p.bind k).bind l = p.bind fun a => (k a).bind l := by
  induction p with
  | done a => rfl
  | step change next ih => exact congrArg (step change) (funext ih)

instance : LawfulMonad (Proc σ) :=
  LawfulMonad.mk' _ bind_done (fun _ _ => rfl) bind_assoc

/-- A part of a store: how to look at it and how to replace it. -/
structure Part (τ σ : Type) where
  get : τ → σ
  set : σ → τ → τ
  get_set : ∀ s t, get (set s t) = s
  set_get : ∀ t, set (get t) t = t
  set_set : ∀ s s' t, set s (set s' t) = set s t

/-- A procedure for a part of a store, done to the whole. -/
def on (part : Part τ σ) : Proc σ α → Proc τ α
  | .done a => .done a
  | .step change next =>
    .step (fun t => part.set (change (part.get t)) t) fun t => (next (part.get t)).on part

/-- Only the part changes, and it changes as if it were alone. -/
theorem run_on (part : Part τ σ) (p : Proc σ α) (t : τ) :
    (p.on part).run t = ((p.run (part.get t)).1, part.set (p.run (part.get t)).2 t) := by
  induction p generalizing t with
  | done a => simp [on, part.set_get]
  | step change next ih =>
    simp only [on, run_step]
    rw [ih, part.get_set, part.set_set]

end Proc

end ShardSweep
