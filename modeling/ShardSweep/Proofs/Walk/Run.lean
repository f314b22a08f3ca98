import Mathlib.Algebra.BigOperators.Group.List.Basic
import ShardSweep.Proofs.Walk.Steps

/-!
# Runs of a walk

A `Run` is any interleaving of the steps of the threads with changes of the store from
outside.  It keeps a trace of what the threads have shown.  Which changes may come from
outside is a relation: nothing may change during an undisturbed walk, and during a walk
that others can call off the flag goes up but not down.

* `World.threads_update`, `World.getElem?_update`: what a step leaves of the threads;
* `World.total_update`: a sum over the threads changes with the one that takes the step;
* `World.Run.trans`: a run goes on where another has come to;
* `World.Turn`: what a move of a schedule can be;
* `World.run_drive`: following a schedule is a run, and `World.trail` is what it shows;
* `World.drive_eq_of_le`: more moves change nothing about an outcome.
-/

namespace ShardSweep

variable {σ ν : Type}

/-- What a walk has shown, and which thread showed it, the oldest first. -/
abbrev Trace := List (ThreadId × Event)

namespace Trace

/-- Some thread has shown an event. -/
def Shows (tr : Trace) (e : Event) : Prop :=
  ∃ i, (i, e) ∈ tr

/-- What was shown stays shown. -/
theorem Shows.append {tr : Trace} {e : Event} (h : tr.Shows e) (later : Trace) :
    Trace.Shows (tr ++ later) e := by
  obtain ⟨i, hi⟩ := h
  exact ⟨i, List.mem_append_left _ hi⟩

end Trace

/-- All that a schedule changes from outside are changes of some kind. -/
def Schedule.Within {τ : Type} (schedule : Schedule τ) (meddle : τ → τ → Prop) : Prop :=
  ∀ now change, schedule now = some (.outside change) → ∀ s, meddle s (change s)

/-- With a flag of its own a walk is changed from outside as before, but for the flag. -/
theorem Runner.within_withFlag {runner : Runner σ} {s : σ} {same : σ → σ → Prop}
    (within : (runner.schedule s).Within same) (raised : Bool) :
    (runner.withFlag.schedule ⟨s, raised⟩).Within fun s s' =>
      s'.raised = s.raised ∧ same s.inner s'.inner := by
  intro now change hmove s
  obtain ⟨move, hinner, hon⟩ := Option.map_eq_some_iff.mp hmove
  cases move with
  | thread => cases hon
  | outside change' =>
    cases hon
    exact ⟨rfl, within now change' hinner s.inner⟩

/-- Who is alone stays so with a flag of its own. -/
theorem Runner.alone_withFlag (runner : Runner σ) {s : σ}
    (alone : ∀ now change, runner.schedule s now ≠ some (.outside change)) (raised : Bool) :
    ∀ now change, runner.withFlag.schedule ⟨s, raised⟩ now ≠ some (.outside change) := by
  intro now change hmove
  have hwithin : (runner.schedule s).Within fun _ _ => False := by
    intro now change hmove
    exact absurd hmove (alone now change)
  exact (Runner.within_withFlag hwithin raised now change hmove ⟨s, raised⟩).2

/-- A thread that was just started for a directory. -/
def Thread.fresh (d : Dir) : Thread σ ν :=
  ⟨d, [], .checking d⟩

namespace World

/-- The walk over another store. -/
def withStore (w : World σ ν) (s : Flagged σ) : World σ ν :=
  { w with shared := { w.shared with store := s } }

@[simp] theorem threads_withStore (w : World σ ν) (s : Flagged σ) :
    (w.withStore s).threads = w.threads := rfl

@[simp] theorem live_withStore (w : World σ ν) (s : Flagged σ) :
    (w.withStore s).live = w.live := rfl

/-- Steps of the threads of a walk in any order, with changes of the store from outside
in between. -/
inductive Run (walk : Walk σ ν) (meddle : Flagged σ → Flagged σ → Prop) (start : World σ ν) :
    Trace → World σ ν → Prop
  | nil : Run walk meddle start [] start
  | step {tr w w' i room e} (run : Run walk meddle start tr w)
      (step : w.step walk i room = some (e, w')) : Run walk meddle start (tr ++ [(i, e)]) w'
  | outside {tr w s} (run : Run walk meddle start tr w) (change : meddle w.shared.store s) :
      Run walk meddle start tr (w.withStore s)

/-- What a move can be: nothing, a change from outside, or a step of a thread. -/
inductive Turn (walk : Walk σ ν) (meddle : Flagged σ → Flagged σ → Prop) :
    World σ ν → Trace → World σ ν → Prop
  | rest {w} : Turn walk meddle w [] w
  | outside {w s} (change : meddle w.shared.store s) : Turn walk meddle w [] (w.withStore s)
  | step {w w' i room e} (step : w.step walk i room = some (e, w')) :
      Turn walk meddle w [(i, e)] w'

/-- What is shared is as the step left it. -/
theorem shared_update (w : World σ ν) (i : ThreadId) (m : Moved σ ν) :
    (w.update i m).shared = m.shared := by
  unfold update retire spawn
  split <;> split <;> rfl

/-- The thread that took the step is as the step left it, and a new one is the last. -/
theorem threads_update (w : World σ ν) (i : ThreadId) (m : Moved σ ν) :
    (w.update i m).threads =
      match m.child with
      | none => w.threads.setIfInBounds i m.thread
      | some d => (w.threads.setIfInBounds i m.thread).push (.fresh d) := by
  unfold update retire spawn
  split <;> split <;> simp_all [Thread.fresh]

/-- A thread is one of those there are. -/
theorem lt_size {w : World σ ν} {i : Nat} {t : Thread σ ν} (h : w.threads[i]? = some t) :
    i < w.threads.size :=
  (Array.getElem?_eq_some_iff.mp h).1

/-- The thread that takes the step has moved, there may be a fresh one, and all others are
as before. -/
theorem getElem?_update {w : World σ ν} {i : ThreadId} {t : Thread σ ν}
    (h : w.threads[i]? = some t) (m : Moved σ ν) (j : ThreadId) :
    (w.update i m).threads[j]? =
      if j = i then some m.thread
      else if j = w.threads.size then m.child.map .fresh
      else w.threads[j]? := by
  have hi := lt_size h
  rw [threads_update]
  cases m.child with
  | none =>
    rw [Array.getElem?_setIfInBounds]
    by_cases hj : j = i
    · simp [hj, hi]
    · rw [if_neg (Ne.symm hj), if_neg hj]
      split
      · rename_i hsize
        simp [hsize]
      · rfl
  | some d =>
    rw [Array.getElem?_push, Array.size_setIfInBounds, Array.getElem?_setIfInBounds]
    by_cases hj : j = i
    · subst hj
      rw [if_neg (Nat.ne_of_lt hi)]
      simp [hi]
    · by_cases hs : j = w.threads.size
      · rw [if_pos hs, if_neg hj, if_pos hs]
        rfl
      · simp [hj, hs, Ne.symm hj]

/-- The thread that took the step. -/
theorem getElem?_update_self {w : World σ ν} {i : ThreadId} {t : Thread σ ν}
    (h : w.threads[i]? = some t) (m : Moved σ ν) : (w.update i m).threads[i]? = some m.thread := by
  rw [getElem?_update h, if_pos rfl]

/-- The other threads stay as they are. -/
theorem getElem?_update_of_ne {w : World σ ν} {i j : ThreadId} {t u : Thread σ ν}
    (h : w.threads[i]? = some t) (m : Moved σ ν) (hu : w.threads[j]? = some u) (hne : j ≠ i) :
    (w.update i m).threads[j]? = some u := by
  rw [getElem?_update h, if_neg hne, if_neg (Nat.ne_of_lt (lt_size hu)), hu]

/-- What holds of every thread is kept by a step if it holds of the thread that moves, of
the fresh one, and still of the others. -/
theorem forall_update {w : World σ ν} {i : ThreadId} {t : Thread σ ν}
    (h : w.threads[i]? = some t) {m : Moved σ ν} {P : ThreadId → Thread σ ν → Prop}
    (mover : P i m.thread) (child : ∀ d, m.child = some d → P w.threads.size (.fresh d))
    (others : ∀ j u, j ≠ i → w.threads[j]? = some u → P j u) :
    ∀ j u, (w.update i m).threads[j]? = some u → P j u := by
  intro j u hu
  rw [getElem?_update h] at hu
  by_cases hj : j = i
  · rw [if_pos hj] at hu
    cases hu
    exact hj ▸ mover
  · rw [if_neg hj] at hu
    by_cases hs : j = w.threads.size
    · rw [if_pos hs, Option.map_eq_some_iff] at hu
      obtain ⟨d, hd, rfl⟩ := hu
      exact hs ▸ child d hd
    · rw [if_neg hs] at hu
      exact others j u hj hu

section Total

variable {M : Type} [AddCommMonoid M]

/-- The sum of some quantity over all threads. -/
def total (g : Thread σ ν → M) (w : World σ ν) : M :=
  (w.threads.toList.map g).sum

@[simp] theorem total_withStore (g : Thread σ ν → M) (w : World σ ν) (s : Flagged σ) :
    total g (w.withStore s) = total g w := rfl

/-- Only the summand that is replaced changes. -/
private theorem sum_set (g : Thread σ ν → M) {l : List (Thread σ ν)} {i : Nat} {t : Thread σ ν}
    (h : l[i]? = some t) :
    ∃ rest, (l.map g).sum = g t + rest ∧ ∀ t', ((l.set i t').map g).sum = g t' + rest := by
  induction l generalizing i with
  | nil => simp at h
  | cons u l ih =>
    cases i with
    | zero =>
      obtain rfl : u = t := by simpa using h
      exact ⟨(l.map g).sum, by simp, fun t' => by simp⟩
    | succ i =>
      obtain ⟨rest, hrest, hset⟩ := ih (by simpa using h)
      refine ⟨g u + rest, ?_, ?_⟩
      · rw [List.map_cons, List.sum_cons, hrest, add_left_comm]
      · intro t'
        rw [List.set_cons_succ, List.map_cons, List.sum_cons, hset, add_left_comm]

/-- A sum over the threads changes with the thread that takes the step and with the fresh
one. -/
theorem total_update (g : Thread σ ν → M) {w : World σ ν} {i : Nat} {t : Thread σ ν}
    (h : w.threads[i]? = some t) :
    ∃ rest, total g w = g t + rest ∧ ∀ m : Moved σ ν, total g (w.update i m) =
      g m.thread + (m.child.elim 0 fun d => g (.fresh d)) + rest := by
  have hl : w.threads.toList[i]? = some t := by simpa using h
  obtain ⟨rest, hrest, hset⟩ := sum_set g hl
  refine ⟨rest, hrest, ?_⟩
  intro m
  have hm := hset m.thread
  unfold total
  rw [threads_update]
  cases m.child with
  | none => simpa using hm
  | some d =>
    simp only [Array.toList_push, Array.toList_setIfInBounds, List.map_append, List.sum_append,
      List.map_cons, List.map_nil, List.sum_cons, List.sum_nil, add_zero, Option.elim_some]
    rw [hm, add_right_comm]

end Total

section Drive

variable {walk : Walk σ ν} {meddle : Flagged σ → Flagged σ → Prop} {start w w' : World σ ν}
  {tr tr' : Trace}

/-- A run goes on where another has come to. -/
theorem Run.trans (run : Run walk meddle start tr w) (later : Run walk meddle w tr' w') :
    Run walk meddle start (tr ++ tr') w' := by
  induction later with
  | nil => rwa [List.append_nil]
  | step _ hstep ih =>
    rw [← List.append_assoc]
    exact ih.step hstep
  | outside _ hchange ih => exact ih.outside hchange

/-- What a step of the newest thread shows. -/
def shownByNewest (walk : Walk σ ν) (w : World σ ν) : Trace :=
  match w.live with
  | [] => []
  | i :: _ =>
    match w.step walk i true with
    | none => []
    | some (e, _) => [(i, e)]

/-- What one move of a schedule shows. -/
def shownBy (walk : Walk σ ν) (w : World σ ν) : Option (Move (Flagged σ)) → Trace
  | none => w.shownByNewest walk
  | some (.outside _) => []
  | some (.thread i room) =>
    match w.step walk i room with
    | none => w.shownByNewest walk
    | some (e, _) => [(i, e)]

/-- What following a schedule shows. -/
def trail (walk : Walk σ ν) (schedule : Schedule (Flagged σ)) :
    (budget now : Nat) → World σ ν → Trace
  | 0, _, _ => []
  | budget + 1, now, w =>
    match w.result? with
    | some _ => []
    | none =>
      w.shownBy walk (schedule now) ++
        trail walk schedule budget (now + 1) (w.advance walk (schedule now))

/-- A run goes on by one turn. -/
theorem Run.turn {shown : Trace} (run : Run walk meddle start tr w)
    (turn : Turn walk meddle w shown w') : Run walk meddle start (tr ++ shown) w' := by
  cases turn with
  | rest => rwa [List.append_nil]
  | outside hchange => rw [List.append_nil]; exact run.outside hchange
  | step hstep => exact run.step hstep

/-- A move of the newest thread is a turn, also if there is none that can move. -/
private theorem turn_stepNewest (w : World σ ν) :
    Turn walk meddle w (w.shownByNewest walk) (w.stepNewest walk) := by
  unfold shownByNewest stepNewest
  cases w.live with
  | nil => exact .rest
  | cons i older =>
    cases hstep : w.step walk i true with
    | none => simpa [hstep] using .rest
    | some next => simpa [hstep] using .step hstep

/-- Every move is one of these. -/
theorem turn_advance {move : Option (Move (Flagged σ))}
    (within : ∀ change, move = some (.outside change) → ∀ s, meddle s (change s)) :
    Turn walk meddle w (w.shownBy walk move) (w.advance walk move) := by
  rcases move with _ | ⟨i, room⟩ | change
  · exact turn_stepNewest w
  · unfold shownBy advance
    cases hstep : w.step walk i room with
    | none => simpa [hstep] using turn_stepNewest w
    | some next => simpa [hstep] using .step hstep
  · exact .outside (within change rfl _)

/-- Following a schedule is a run. -/
theorem run_drive {schedule : Schedule (Flagged σ)} (within : schedule.Within meddle)
    (run : Run walk meddle start tr w) (budget now : Nat) :
    Run walk meddle start (tr ++ w.trail walk schedule budget now)
      (w.drive walk schedule budget now) := by
  induction budget generalizing tr w now with
  | zero => simpa [trail, drive] using run
  | succ budget ih =>
    unfold drive trail
    cases w.result? with
    | some r => simpa using run
    | none =>
      rw [← List.append_assoc]
      exact ih (run.turn (turn_advance (within now))) (now + 1)

/-- What is driven by a schedule is a run. -/
theorem exists_run_drive {schedule : Schedule (Flagged σ)} (within : schedule.Within meddle)
    (run : Run walk meddle start tr w) (budget now : Nat) :
    ∃ tr', Run walk meddle start tr' (w.drive walk schedule budget now) :=
  ⟨_, run_drive within run budget now⟩

/-- A walk that comes to its outcome has the same one if it may take more moves. -/
theorem drive_eq_of_le {schedule : Schedule (Flagged σ)} {budget more now : Nat}
    {result : Outcome Unit} (le : budget ≤ more)
    (done : (w.drive walk schedule budget now).result? = some result) :
    w.drive walk schedule more now = w.drive walk schedule budget now := by
  induction budget generalizing w more now with
  | zero => exact drive_of_result done
  | succ budget ih =>
    obtain ⟨more, rfl⟩ : ∃ k, more = k + 1 := ⟨more - 1, by omega⟩
    cases hresult : w.result? with
    | some r => rw [drive_of_result hresult, drive_of_result hresult]
    | none =>
      have hmore : ∀ b, w.drive walk schedule (b + 1) now =
          (w.advance walk (schedule now)).drive walk schedule b (now + 1) := by
        intro b
        simp [drive, hresult]
      rw [hmore] at done
      rw [hmore, hmore]
      exact ih (Nat.le_of_succ_le_succ le) done

end Drive

end World

end ShardSweep
