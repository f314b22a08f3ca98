import ShardSweep.Proofs.Walk.Complete

/-!
# What becomes of a subdirectory

A thread that has visited a subdirectory asks for a slot, and goes on only when it has one or was
refused.  Nothing comes in between, neither a failure nor a look at the flag.  So the claims that
were granted and those that were refused make up the subdirectories whose visit has gone well, but
for those that are still to be decided.  Which of them are which is up to the schedule.

* `Trace.dirVisits`: how many subdirectories were visited;
* `Thread.Does.decided`: what a step decides;
* `World.Run.decided`: all claims are decided when a walk has ended;
* `World.Run.dirVisits_of_ok`: a walk that has ended well has visited all subdirectories.
-/

namespace ShardSweep

variable {σ ν : Type}

/-- The visit of a subdirectory has gone well. -/
def Event.visitsDir : Event → Bool
  | .acted (.visit _ e) (.ok ()) => e.kind.isDir
  | _ => false

/-- How many visits of subdirectories have gone well. -/
def Trace.dirVisits (tr : Trace) : Nat :=
  tr.countP fun shown => shown.2.visitsDir

/-- Claims that were granted or refused. -/
def Slots.decided (s : Slots) : Nat :=
  s.spawned + s.inlined

/-- Claims that are under way. -/
def Task.undecided : Task σ ν → Nat
  | .claiming _ _ => 1
  | _ => 0

/-- Claims that a step decides. -/
def Claim.Next.decided : Claim.Next → Nat
  | .stage _ => 0
  | .granted => 1
  | .inline => 1

theorem Claim.Does.decided {s s' : Slots} {c : Claim} {next : Claim.Next}
    (h : Claim.Does s c next s') : s'.decided = s.decided + next.decided := by
  cases h with
  | grant => exact Nat.add_right_comm s.spawned 1 s.inlined
  | _ => rfl

theorem Trace.dirVisits_append (tr : Trace) (i : ThreadId) (e : Event) :
    Trace.dirVisits (tr ++ [(i, e)]) = tr.dirVisits + if e.visitsDir then 1 else 0 := by
  simp [dirVisits, List.countP_append, List.countP_singleton]

@[simp] theorem Event.visitsDir_error (site : Site) (h : Halt) :
    (Event.acted site (.error h)).visitsDir = false := by
  cases site <;> rfl

theorem Site.undecided_onward (site : Site) :
    (site.onward : Task σ ν).undecided =
      if (Event.acted site (.ok ())).visitsDir then 1 else 0 := by
  cases site with
  | visit d e =>
    by_cases hd : e.kind.isDir = true <;> simp [onward, Event.visitsDir, hd, Task.undecided]
  | leave d => rfl

/-- A step of a thread decides a claim, or the visit that it shows leads to one. -/
theorem Thread.Does.decided {walk : Walk σ ν} {o : Others} {t : Thread σ ν} {s : Shared σ ν}
    {m : Moved σ ν} (h : Does walk o t s m) :
    m.shared.slots.decided + m.thread.task.undecided =
      s.slots.decided + t.task.undecided + if m.event.visitsDir then 1 else 0 := by
  cases h with
  | finishActing => exact congrArg _ (Site.undecided_onward _)
  | claim stage | grant stage | stayInline stage =>
    rw [(Claim.does_of_step stage).decided]
    rfl
  | «return» stage | endReturn stage | release stage | endRelease stage =>
    obtain ⟨hspawned, hinlined, -⟩ := Release.counters_step stage
    simp only [Slots.decided, hspawned, hinlined]
    rfl
  | failActing | dieActing => simp [Task.undecided]
  | _ => rfl

namespace World

variable {f : Forest} {walk : Walk σ ν} {meddle : Flagged σ → Flagged σ → Prop} {plan : WalkPlan}
  {root : Dir} {store : Flagged σ} {state : ν} {tr : Trace} {w : World σ ν}

/-- Claims that are under way. -/
def undecided (w : World σ ν) : Nat :=
  w.tally fun _ t => t.task.undecided

/-- For each subdirectory whose visit has gone well a claim is under way, or was decided. -/
theorem Run.decided_add_undecided
    (run : Run walk meddle (.initial plan root store state) tr w) :
    w.shared.slots.decided + w.undecided = tr.dirVisits := by
  induction run with
  | nil => rfl
  | outside _ _ ih => exact ih
  | @step tr w w' i room e run hstep ih =>
    obtain ⟨t, m, ht, hdoes, rfl, rfl⟩ := step_eq_some hstep
    have htally := tally_update_add (fun _ t => t.task.undecided) ht (fun _ _ => rfl) m
    have hdecided := hdoes.decided
    simp only [undecided] at ih ⊢
    rw [shared_update, Trace.dirVisits_append, ← ih]
    omega

/-- When a walk has ended every claim was decided. -/
theorem Run.decided (run : Run walk meddle (.initial plan root store state) tr w)
    (done : w.result?.isSome) : w.shared.slots.decided = tr.dirVisits := by
  have hkin := (Kin.initial plan root store state).of_run run
  have hnone : w.undecided = 0 := hkin.tally_of_result _ done fun _ _ _ _ => rfl
  rw [← run.decided_add_undecided, hnone, Nat.add_zero]

end World

/-- Counts the end of the visit of a subdirectory. -/
def Moment.visitsDir : Moment → Nat
  | .acted (.visit _ e) => if e.kind.isDir then 1 else 0
  | _ => 0

private theorem sum_map_one {α : Type} (p : α → Bool) (l : List α) :
    (l.map fun a => if p a then 1 else 0).sum = l.countP p := by
  induction l with
  | nil => rfl
  | cons a l ih => rw [List.map_cons, List.sum_cons, ih, List.countP_cons, Nat.add_comm]

/-- Where nothing has failed each visit that has ended has gone well. -/
theorem Trace.weight_visitsDir {tr : Trace} (fine : ¬ tr.Fails) :
    tr.weight Moment.visitsDir = tr.dirVisits := by
  have hevent : ∀ shown ∈ tr, shown.2.weight Moment.visitsDir =
      if shown.2.visitsDir then 1 else 0 := by
    intro shown hmem
    obtain ⟨i, e⟩ := shown
    have hgood : ∀ d, ¬ e.FailsAt d := fun d hfails => fine ⟨d, e, ⟨i, hmem⟩, hfails⟩
    cases e with
    | acted site outcome =>
      rcases outcome with h | ⟨⟨⟩⟩
      · exact absurd .acting (hgood site.dir)
      · cases site <;> rfl
    | answered site r outcome =>
      rcases outcome with (e | p) | a
      · rfl
      · exact absurd .dying (hgood site.dir)
      · rfl
    | _ => rfl
  rw [weight, List.map_congr_left hevent]
  exact sum_map_one _ _

/-- All visits of subdirectories together. -/
theorem Forest.weigh_visitsDir (f : Forest) (d : Dir) :
    f.weigh Moment.visitsDir d = (f.below d.inode).countP (·.kind.isDir) := by
  have hown : ∀ c, f.own Moment.visitsDir c =
      ((f.listing c.inode).map fun e => if e.kind.isDir then 1 else 0).sum := by
    intro c
    simp [own, Site.weight, Moment.visitsDir]
  rw [← sum_map_one, f.sum_below, weigh, List.map_congr_left fun c _ => hown c]

/-- A walk that has ended well has visited every subdirectory below its root. -/
theorem World.Run.dirVisits_of_ok {f : Forest} {walk : Walk σ ν}
    {meddle : Flagged σ → Flagged σ → Prop} {plan : WalkPlan} {root : Dir} {store : Flagged σ}
    {state : ν} {tr : Trace} {w : World σ ν}
    (run : Run walk meddle (.initial plan root store state) tr w)
    (requests : walk.metadata.Within Flagged.Keeps) (meddled : ∀ s s', meddle s s' → s.Keeps s')
    (agrees : tr.Agrees f) (done : w.result? = some (.ok ())) :
    tr.dirVisits = (f.below root.inode).countP (·.kind.isDir) := by
  have hfine := run.not_fails_of_ok requests meddled done
  rw [← Trace.weight_visitsDir hfine, ← f.weigh_visitsDir]
  exact run.weight_eq_of_ok requests meddled agrees _ done

end ShardSweep
