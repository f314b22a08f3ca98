import ShardSweep.Proofs.Walk.Run

/-!
# A walk in the course of time

A walk that follows a schedule has a world before each move, and each move shows one event or
none.  What a run is for all interleavings at once, this is for one of them, with the moves
numbered.

* `World.after`, `World.shownAt`: the walk before a move, and what the move shows;
* `World.turn_after`: what a move can be;
* `World.run_after`: the moves together are a run.
-/

namespace ShardSweep

variable {σ ν : Type}

namespace World

/-- The walk after so many moves. -/
def after (start : World σ ν) (walk : Walk σ ν) (schedule : Schedule (Flagged σ)) (n : Nat) :
    World σ ν :=
  start.drive walk schedule n 0

/-- What the next move shows then. -/
def shownAt (start : World σ ν) (walk : Walk σ ν) (schedule : Schedule (Flagged σ)) (n : Nat) :
    Trace :=
  match (start.after walk schedule n).result? with
  | some _ => []
  | none => (start.after walk schedule n).shownBy walk (schedule n)

variable {walk : Walk σ ν} {meddle : Flagged σ → Flagged σ → Prop} {start : World σ ν}
  {schedule : Schedule (Flagged σ)}

private theorem drive_succ (budget now : Nat) (w : World σ ν) :
    w.drive walk schedule (budget + 1) now =
      match (w.drive walk schedule budget now).result? with
      | some _ => w.drive walk schedule budget now
      | none => (w.drive walk schedule budget now).advance walk (schedule (now + budget)) := by
  induction budget generalizing now w with
  | zero => cases h : w.result? <;> simp [drive, h]
  | succ budget ih =>
    cases h : w.result? with
    | some r => simp [drive_of_result h, h]
    | none =>
      have hdrive : ∀ b, w.drive walk schedule (b + 1) now =
          (w.advance walk (schedule now)).drive walk schedule b (now + 1) := by
        intro b
        simp [drive, h]
      rw [hdrive, hdrive, ih, Nat.add_right_comm, Nat.add_assoc]

/-- Until a walk has its outcome it goes on by the next move of its schedule. -/
theorem after_succ {n : Nat} (going : (start.after walk schedule n).result? = none) :
    start.after walk schedule (n + 1) =
      (start.after walk schedule n).advance walk (schedule n) := by
  unfold after at *
  rw [drive_succ, going, Nat.zero_add]

theorem shownAt_of_going {n : Nat} (going : (start.after walk schedule n).result? = none) :
    start.shownAt walk schedule n = (start.after walk schedule n).shownBy walk (schedule n) := by
  rw [shownAt, going]

theorem after_eq_of_le {n m : Nat} {result : Outcome Unit} (le : n ≤ m)
    (done : (start.after walk schedule n).result? = some result) :
    start.after walk schedule m = start.after walk schedule n :=
  drive_eq_of_le le done

theorem turn_after (walk : Walk σ ν) (within : schedule.Within meddle) (start : World σ ν)
    (n : Nat) :
    Turn walk meddle (start.after walk schedule n) (start.shownAt walk schedule n)
      (start.after walk schedule (n + 1)) := by
  cases hresult : (start.after walk schedule n).result? with
  | some r =>
    rw [shownAt, hresult, after_eq_of_le (Nat.le_succ n) hresult]
    exact .rest
  | none =>
    rw [shownAt_of_going hresult, after_succ hresult]
    exact turn_advance (within n)

/-- A move that is not a step of a thread shows nothing and leaves the threads alone. -/
theorem still_or_step (walk : Walk σ ν) (within : schedule.Within meddle) (start : World σ ν)
    (n : Nat) :
    ((start.after walk schedule (n + 1)).threads = (start.after walk schedule n).threads ∧
      start.shownAt walk schedule n = []) ∨
    ∃ i room e, (start.after walk schedule n).step walk i room =
        some (e, start.after walk schedule (n + 1)) ∧
      start.shownAt walk schedule n = [(i, e)] := by
  have hturn := turn_after walk within start n
  generalize start.shownAt walk schedule n = shown at hturn ⊢
  generalize start.after walk schedule (n + 1) = w' at hturn ⊢
  generalize start.after walk schedule n = w at hturn ⊢
  cases hturn with
  | rest => exact .inl ⟨rfl, rfl⟩
  | outside => exact .inl ⟨rfl, rfl⟩
  | step hstep => exact .inr ⟨_, _, _, hstep, rfl⟩

/-- The moves together are a run. -/
theorem run_after (walk : Walk σ ν) (within : schedule.Within meddle) (start : World σ ν)
    (n : Nat) :
    ∃ tr, Run walk meddle start tr (start.after walk schedule n) ∧
      ∀ shown, shown ∈ tr ↔ ∃ k < n, shown ∈ start.shownAt walk schedule k := by
  induction n with
  | zero => exact ⟨[], .nil, by simp⟩
  | succ n ih =>
    obtain ⟨tr, hrun, htr⟩ := ih
    refine ⟨_, hrun.turn (turn_after walk within start n), fun shown => ?_⟩
    rw [List.mem_append, htr]
    constructor
    · rintro (⟨k, hk, hshown⟩ | hshown)
      · exact ⟨k, by omega, hshown⟩
      · exact ⟨n, by omega, hshown⟩
    · rintro ⟨k, hk, hshown⟩
      by_cases hlast : k = n
      · exact .inr (hlast ▸ hshown)
      · exact .inl ⟨k, by omega, hshown⟩

/-- Once the threads have had their outcome nothing is shown any more. -/
theorem result?_of_shownAt {k : Nat} {shown : ThreadId × Event}
    (mem : shown ∈ start.shownAt walk schedule k) :
    (start.after walk schedule k).result? = none := by
  unfold shownAt at mem
  cases hresult : (start.after walk schedule k).result? with
  | some r => simp [hresult] at mem
  | none => rfl

/-- What is shown is shown before the outcome. -/
theorem lt_of_shownAt {k n : Nat} {shown : ThreadId × Event} {result : Outcome Unit}
    (mem : shown ∈ start.shownAt walk schedule k)
    (done : (start.after walk schedule n).result? = some result) : k < n := by
  by_contra hle
  have hgoing := result?_of_shownAt mem
  rw [after_eq_of_le (Nat.le_of_not_lt hle) done, done] at hgoing
  cases hgoing

end World

end ShardSweep
