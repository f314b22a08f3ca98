import ShardSweep.Walk.Machine

/-!
# Running a walk

Which thread takes the next step is up to a schedule, a sequence of moves that may
also change the store from outside: somebody else raises the flag, or changes the
namespace.  Where the schedule names no thread that can take a step the newest thread
moves; that thread waits for nobody, because threads wait for newer ones only.  Every
interleaving is the run of some schedule.

A walk over an endless tree never ends, so `drive` takes a number of steps that it may
use up.

* `Schedule.newestFirst`: workers run to their end one after another;
* `drive_of_result`: a walk that has its outcome is not driven any further.
-/

namespace ShardSweep

variable {σ ν : Type}

/-- A step of a thread, or a change of the store by somebody else. -/
inductive Move (τ : Type) where
  /-- A step of thread `i`, at a moment when the system has room for another thread or not. -/
  | thread (i : ThreadId) (room : Bool)
  | outside (change : τ → τ)

/-- A move for each point of time; `none` leaves it to the newest thread. -/
abbrev Schedule (τ : Type) : Type :=
  Nat → Option (Move τ)

/-- Workers run to their end one after another. -/
def Schedule.newestFirst {τ : Type} : Schedule τ :=
  fun _ => none

/-- Under this schedule nobody else acts. -/
theorem Schedule.newestFirst_alone {τ : Type} (now : Nat) (change : τ → τ) :
    (newestFirst : Schedule τ) now ≠ some (.outside change) := by
  intro h
  cases h

namespace Move

/-- A move over a part of a store. -/
def on {τ : Type} (part : Proc.Part τ σ) : Move σ → Move τ
  | .thread i room => .thread i room
  | .outside change => .outside fun t => part.set (change (part.get t)) t

end Move

namespace World

/-- A step of the newest thread. -/
def stepNewest (walk : Walk σ ν) (w : World σ ν) : World σ ν :=
  match w.live with
  | [] => w
  | i :: _ =>
    match w.step walk i true with
    | none => w
    | some (_, w') => w'

/-- One move of a schedule. -/
def advance (walk : Walk σ ν) (w : World σ ν) : Option (Move (Flagged σ)) → World σ ν
  | none => w.stepNewest walk
  | some (.outside change) =>
    { w with shared := { w.shared with store := change w.shared.store } }
  | some (.thread i room) =>
    match w.step walk i room with
    | none => w.stepNewest walk
    | some (_, w') => w'

/-- Follow a schedule from a point of time on until the walk has its outcome, for at most
`budget` moves. -/
def drive (walk : Walk σ ν) (schedule : Schedule (Flagged σ)) :
    (budget now : Nat) → World σ ν → World σ ν
  | 0, _, w => w
  | budget + 1, now, w =>
    match w.result? with
    | some _ => w
    | none => drive walk schedule budget (now + 1) (w.advance walk (schedule now))

/-- A walk that has its outcome is not driven any further. -/
theorem drive_of_result {walk : Walk σ ν} {schedule : Schedule (Flagged σ)} {budget now : Nat}
    {w : World σ ν} {result : Outcome Unit} (h : w.result? = some result) :
    w.drive walk schedule budget now = w := by
  cases budget <;> simp [drive, h]

end World

/-- How walks over stores of type `τ` are run: a schedule for each store that one can
start from, and the number of moves that one may take. -/
structure Runner (τ : Type) where
  schedule : τ → Schedule τ
  budget : Nat

namespace Runner

variable {τ : Type}

/-- Workers one after another, and more moves than anybody can wait for. -/
def standard : Runner τ :=
  ⟨fun _ => .newestFirst, 1000000000000000000⟩

/-- The same moves for a walk that has a flag of its own, which nobody else can raise. -/
def withFlag (runner : Runner τ) : Runner (Flagged τ) where
  schedule store now := (runner.schedule store.inner now).map (Move.on Flagged.innerPart)
  budget := runner.budget

end Runner

namespace Walk

/-- The whole walk under `root`; a walk that has used up its moves has no outcome. -/
def run (walk : Walk σ ν) (runner : Runner (Flagged σ)) (root : Dir) (store : Flagged σ)
    (state : ν) : World σ ν :=
  (World.initial walk.plan root store state).drive walk (runner.schedule store) runner.budget 0

end Walk

end ShardSweep
