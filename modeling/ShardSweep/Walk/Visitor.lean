import ShardSweep.Metadata
import ShardSweep.Walk.Plan

/-!
# Visitors

A visitor is what a walk is for.  It has a state that all threads of the walk
share, acts on each listed entry before the walk goes into it, and acts on each
directory after all that is below it.  An `Action` is what it does there, step
by step: change its state, make a request, look at the flag or call the walk
off, and at last succeed, fail or die.

It may also go to the place where the walk keeps its first failure: leave a
failure there itself and go on, see whether there is one, or take it away.  To
conclude as the walk does in the end is to take it and then to look at the flag.
-/

namespace ShardSweep

/-- What a visitor with a state of type `ν` does at one place. -/
inductive Action (ν : Type) where
  /-- Finish, well or not. -/
  | done (result : Except WalkError Unit)
  /-- Bring the thread down. -/
  | die (p : Panic)
  /-- Change the state in one step and go on with the state found before. -/
  | update (change : ν → ν) (next : ν → Action ν)
  /-- Call the walk off. -/
  | cancel (next : Action ν)
  /-- See whether the walk has been called off. -/
  | look (next : Bool → Action ν)
  /-- Leave a failure and call the walk off; `next` learns whether it was the first. -/
  | fail (e : WalkError) (next : Bool → Action ν)
  /-- See whether a failure is kept. -/
  | failed (next : Bool → Action ν)
  /-- Take the kept failure away, if there is one. -/
  | take (next : Option WalkError → Action ν)
  /-- Make a request; a failure is the visitor's to handle. -/
  | request (r : Request) (next : Except WalkError r.Answer → Action ν)

namespace Action

variable {ν : Type}

/-- Finish well. -/
def succeed : Action ν :=
  .done (.ok ())

/-- Change the state without looking at it. -/
def modify (change : ν → ν) (next : Action ν) : Action ν :=
  .update change fun _ => next

/-- Make a request and fail if it fails. -/
def ask (r : Request) (next : r.Answer → Action ν) : Action ν :=
  .request r fun
    | .ok answer => next answer
    | .error e => .done (.error e)

end Action

/-- What to do at the entries and at the directories of a subtree. -/
structure Visitor (ν : Type) where
  /-- At a listed entry of `dir`, before the walk goes into it. -/
  visit : WalkPlan → (dir : Dir) → Entry → Action ν
  /-- At a directory, after everything below it went well. -/
  leave : WalkPlan → (dir : Dir) → Action ν

end ShardSweep
