import ShardSweep.Failure
import ShardSweep.Settings

/-!
# What a walk fixes and what it ends with

A `WalkPlan` is fixed before a walk starts: the filesystem, the generation of
its namespace, and the number of threads, which is in range by its type.  While
the walk runs its threads share a `Verdict`: one place for a failure, where the
first one stays, and the flag that calls the walk off.

* `Verdict.fail`: leave a failure and call the walk off, whoever was first;
* `Verdict.conclude`: the kept failure, else cancellation if the flag is up, else success;
* `Verdict.conclude_fail_of_none`: the first failure that is left is the outcome.
-/

namespace ShardSweep

/-- What is fixed before a walk starts. -/
structure WalkPlan where
  fs : FsId
  epoch : Epoch
  threads : Nat
  threads_pos : 1 ≤ threads
  threads_le : threads ≤ maxThreads
  deriving DecidableEq

namespace WalkPlan

/-- A plan, if the number of threads is in range. -/
def make (fs : FsId) (epoch : Epoch) (threads : Nat) : Except Refusal WalkPlan :=
  if h : 1 ≤ threads ∧ threads ≤ maxThreads then .ok ⟨fs, epoch, threads, h.1, h.2⟩
  else .error (.invalidConcurrency threads maxThreads)

/-- A plan with the threads that the settings give. -/
def ofSettings (fs : FsId) (epoch : Epoch) (settings : Settings) : Except Refusal WalkPlan :=
  make fs epoch settings.threads

/-- A plan is refused exactly as its number of threads is. -/
theorem make_eq_error_iff (fs : FsId) (epoch : Epoch) (threads : Nat) (r : Refusal) :
    make fs epoch threads = .error r ↔ checkThreads threads = .error r := by
  unfold make checkThreads
  split <;> split <;> simp_all <;> omega

end WalkPlan

/-- Offer a failure to the one place there is for it; the answer is whether it was taken. -/
def offerFailure (e : WalkError) : Option WalkError → Bool × Option WalkError
  | none => (true, some e)
  | some kept => (false, some kept)

/-- The outcome of a walk: the kept failure, else cancellation, else success. -/
def concludeWalk (failure : Option WalkError) (raised : Bool) : Except WalkError Unit :=
  match failure with
  | some e => .error e
  | none => if raised then .error .cancelled else .ok ()

/-- What the threads of one walk tell each other. -/
structure Verdict where
  failure : Option WalkError
  raised : Bool
  deriving DecidableEq

namespace Verdict

/-- Nothing has gone wrong; the flag is as its owner left it. -/
def initial (raised : Bool) : Verdict :=
  ⟨none, raised⟩

/-- Leave a failure and call the walk off; the answer is whether it was the first. -/
def fail (e : WalkError) (v : Verdict) : Bool × Verdict :=
  ((offerFailure e v.failure).1, ⟨(offerFailure e v.failure).2, true⟩)

/-- Call the walk off without a failure. -/
def cancel (v : Verdict) : Verdict :=
  { v with raised := true }

/-- Take the kept failure away. -/
def take (v : Verdict) : Option WalkError × Verdict :=
  (v.failure, { v with failure := none })

/-- The outcome; a failure is taken away by it. -/
def conclude (v : Verdict) : Except WalkError Unit × Verdict :=
  (concludeWalk v.failure v.raised, v.take.2)

/-- A kept failure is the outcome. -/
theorem conclude_of_kept {v : Verdict} {kept : WalkError} (h : v.failure = some kept) :
    v.conclude.1 = .error kept := by
  simp [conclude, concludeWalk, h]

/-- Without one a walk that was called off says just that. -/
theorem conclude_of_raised {v : Verdict} (clean : v.failure = none) (raised : v.raised = true) :
    v.conclude.1 = .error .cancelled := by
  simp [conclude, concludeWalk, clean, raised]

/-- Without either it has gone well. -/
theorem conclude_of_down {v : Verdict} (clean : v.failure = none) (down : v.raised = false) :
    v.conclude.1 = .ok () := by
  simp [conclude, concludeWalk, clean, down]

/-- Where no failure is kept there is none to take away. -/
theorem take_of_none {v : Verdict} (clean : v.failure = none) : v.take.2 = v := by
  simp [take, ← clean]

/-- The first failure that is left is the outcome. -/
theorem conclude_fail_of_none {v : Verdict} (h : v.failure = none) (e : WalkError) :
    (v.fail e).1 = true ∧ (v.fail e).2.conclude.1 = .error e := by
  simp [fail, offerFailure, conclude, concludeWalk, h]

/-- A later failure changes nothing about the outcome. -/
theorem conclude_fail_of_some {v : Verdict} {kept : WalkError} (h : v.failure = some kept)
    (e : WalkError) : (v.fail e).1 = false ∧ (v.fail e).2.conclude.1 = .error kept := by
  simp [fail, offerFailure, conclude, concludeWalk, h]

end Verdict

end ShardSweep
