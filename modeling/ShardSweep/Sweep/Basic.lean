import ShardSweep.Walk.Schedule

/-!
# Sweeps

A sweep is a computation that makes requests one after another and runs walks in
between.  It changes a store and has an outcome, or none if the moves it was given
are used up before it is done.  A failure ends it, and nothing that was done before
is undone.

* `ask`, `prepare`: one request, and getting ready for a filesystem;
* `accept`: go on only if the arguments are in order;
* `walk`: a whole walk, with the flag of the store or one of its own (`withOwnFlag`);
* `accept_error_apply`: a refused call leaves the store alone.
-/

namespace ShardSweep

/-- A computation over a store that has an outcome unless its moves are used up. -/
def Sweep (σ α : Type) : Type :=
  σ → Option (Outcome α) × σ

namespace Sweep

variable {σ ν α β : Type}

/-- Go on with a result; anything else is the outcome of the whole. -/
def andThen (x : Sweep σ α) (k : α → Sweep σ β) : Sweep σ β := fun s =>
  match x s with
  | (some (.ok a), s') => k a s'
  | (some (.error h), s') => (some (.error h), s')
  | (none, s') => (none, s')

instance : Monad (Sweep σ) where
  pure a s := (some (.ok a), s)
  bind := andThen

theorem pure_apply (a : α) (s : σ) : (pure a : Sweep σ α) s = (some (.ok a), s) := rfl

theorem bind_apply (x : Sweep σ α) (k : α → Sweep σ β) (s : σ) :
    (x >>= k) s = match x s with
      | (some (.ok a), s') => k a s'
      | (some (.error h), s') => (some (.error h), s')
      | (none, s') => (none, s') := rfl

theorem bind_eq_of_ok {x : Sweep σ α} {s s' : σ} {a : α} (h : x s = (some (.ok a), s'))
    (k : α → Sweep σ β) : (x >>= k) s = k a s' := by
  rw [bind_apply, h]

theorem bind_eq_of_error {x : Sweep σ α} {s s' : σ} {h : Halt} (failed : x s = (some (.error h), s'))
    (k : α → Sweep σ β) : (x >>= k) s = (some (.error h), s') := by
  rw [bind_apply, failed]

instance : LawfulMonad (Sweep σ) :=
  LawfulMonad.mk' _
    (fun x => by
      funext s
      show andThen x _ s = x s
      unfold andThen
      rcases x s with ⟨_ | _ | _, s'⟩ <;> rfl)
    (fun _ _ => rfl)
    (fun x k l => by
      funext s
      show andThen (andThen x k) l s = andThen x (fun a => andThen (k a) l) s
      unfold andThen
      rcases x s with ⟨_ | _ | _, s'⟩ <;> rfl)

/-- Stop with a failure. -/
def fail (e : WalkError) : Sweep σ α := fun s =>
  (some (.error (.failed e)), s)

/-- Stop because the moves are used up. -/
def exhausted : Sweep σ α := fun s =>
  (none, s)

/-- Go on only if the arguments are in order. -/
def accept : Except Refusal α → Sweep σ α
  | .ok a => pure a
  | .error r => fail (.refused r)

/-- Do what a procedure does, with nobody else around. -/
def perform (p : Proc σ (Outcome α)) : Sweep σ α := fun s =>
  let (outcome, s') := p.run s
  (some outcome, s')

/-- Make one request. -/
def ask (metadata : Metadata σ) (r : Request) : Sweep σ r.Answer :=
  perform (metadata.call r)

/-- Get ready for requests about a filesystem. -/
def prepare (metadata : Metadata σ) (fs : FsId) : Sweep σ Unit :=
  perform (metadata.prepare fs)

/-- Walk through a subtree; the result is the last state of the visitor. -/
def walk (metadata : Metadata (Flagged σ)) (runner : Runner (Flagged σ)) (visitor : Visitor ν)
    (plan : WalkPlan) (root : Dir) (state : ν) : Sweep (Flagged σ) ν := fun s =>
  let last := Walk.run ⟨metadata, visitor, plan⟩ runner root s state
  (last.result?.map fun outcome => outcome.map fun _ => last.shared.state, last.shared.store)

/-- Give a sweep a flag of its own, which is down at the start. -/
def withOwnFlag (x : Sweep (Flagged σ) α) : Sweep σ α := fun s =>
  let (outcome, s') := x ⟨s, false⟩
  (outcome, s'.inner)

/-- A refused call leaves the store alone. -/
theorem accept_error_apply (r : Refusal) (s : σ) :
    (accept (.error r) : Sweep σ α) s = (some (.error (.failed (.refused r))), s) := rfl

end Sweep

end ShardSweep
