import ShardSweep.Proofs.Walk.Clearance
import ShardSweep.Proofs.Walk.Complete

/-!
# What the death of a worker does to a walk

A worker that dies raises no flag.  The thread that has started it finds out when it waits for
it, and that is after it has used up the entries of its directory.  Until then the death is
pending, and whoever does not know of it goes on listing and removing what lies beside the home
of the worker.  But nothing above that home is left, before or after, and the walk does not end
well; and once the flag is up the walk winds down as after any other failure.

* `World.Run.pending_of_dead`: a death is not lost;
* `World.Run.not_well_of_dead`: a walk in which a worker has died does not end well;
* `World.death_calls_off`: all of this together;
* `World.siblings_outlive_death`: what happens while the death is pending.
-/

namespace ShardSweep

variable {σ ν : Type}

/-- A thread that is dying now was dying before, or is hurt by this step. -/
theorem Thread.Does.dying {walk : Walk σ ν} {o : Others} {t : Thread σ ν} {s : Shared σ ν}
    {m : Moved σ ν} (h : Does walk o t s m) (i : ThreadId) (dead : m.thread.task.Dead) :
    t.task.Dead ∨ m.thread.task.Hurt i := by
  cases h with
  | dieListing | dieActing | dieCall => exact .inr trivial
  | unwindCaller | unwindWorker => exact .inl trivial
  | release | endRelease => exact .inl dead
  | finishActing => exact absurd dead (Site.not_dead_onward _)
  | _ => cases dead

namespace World

variable {f : Forest} {walk : Walk σ ν} {meddle : Flagged σ → Flagged σ → Prop} {root : Dir}
  {store : Flagged σ} {state : ν} {tr before after : Trace} {w w' : World σ ν}

/-- The death of a thread is pending until the flag goes up. -/
theorem Run.pending_of_dead (run : Run walk meddle (.initial walk.plan root store state) tr w)
    (requests : walk.metadata.Within Flagged.Keeps) (meddled : ∀ s s', meddle s s' → s.Keeps s')
    {i : Nat} {t : Thread σ ν} (ht : w.threads[i]? = some t) (dead : t.task.Dead) :
    w.shared.store.raised = true ∨ w.Pending := by
  induction run generalizing i t with
  | nil =>
    obtain ⟨-, rfl⟩ := eq_of_initial ht
    exact dead.elim
  | outside _ hchange ih => exact (ih ht dead).imp_left (meddled _ _ hchange)
  | @step tr w w' k room e run hstep ih =>
    have hkept := run.stays_pending requests hstep
    obtain ⟨u, m, hu, hdoes, rfl, rfl⟩ := step_eq_some hstep
    refine forall_update (P := fun _ t => t.task.Dead → (w.update k m).shared.store.raised = true ∨
      (w.update k m).Pending) hu ?_ (fun _ _ h => h.elim)
      (fun j v _ hv hdead => hkept (ih hv hdead)) i t ht dead
    intro hdead
    rcases hdoes.dying k hdead with hbefore | hhurt
    · exact hkept (ih hu hbefore)
    · exact .inr ⟨k, m.thread, getElem?_update_self hu m, .inl hhurt⟩

/-- A walk in which a thread has died does not end well. -/
theorem Run.not_well_of_dead (run : Run walk meddle (.initial walk.plan root store state) tr w)
    (requests : walk.metadata.Within Flagged.Keeps) (meddled : ∀ s s', meddle s s' → s.Keeps s')
    {j : Nat} {t : Thread σ ν} (ht : w.threads[j]? = some t) (dead : t.task.Dead) :
    w.result? ≠ some (.ok ()) := by
  intro done
  -- The walk has found the flag down with its last step, so the death was still pending.
  obtain ⟨s, hdown, hrun⟩ := run.exists_down_of_ok done
  rcases hrun.pending_of_dead requests meddled ht dead with hup | hpending
  · exact absurd (hup.symm.trans hdown) (by simp)
  · exact ((Kin.initial walk.plan root store state).of_run hrun).not_pending done hpending

theorem dead_of_died {j : ThreadId} {d : Dir} {p : Panic}
    (died : w.ended? j = some (d, .error (.panicked p))) :
    ∃ t, w.threads[j]? = some t ∧ t.home = d ∧ t.task.Dead := by
  obtain ⟨t, ht, hhome, hresult⟩ := ended?_eq_some died
  exact ⟨t, ht, hhome, by rw [Task.eq_ended_of_result? hresult]; rfl⟩

/-- Who has ended has ended for good. -/
theorem Run.ended?_mono {start : World σ ν} (run : Run walk meddle start tr w) {j : ThreadId}
    {x : Dir × Outcome Unit} (ended : start.ended? j = some x) : w.ended? j = some x := by
  induction run with
  | nil => exact ended
  | outside _ _ ih => exact ih
  | step _ hstep ih =>
    obtain ⟨t, m, ht, hdoes, -, rfl⟩ := step_eq_some hstep
    exact World.ended?_mono ht hdoes.result?_eq_none m ih

/-- When a worker has died this is known by the flag, or is still on its way to it.  Once the flag
is up each thread makes one more request at most, one that it has looked for before.  No directory
above the home of the worker is left, neither before nor after, and the walk does not end well. -/
theorem death_calls_off (visitor : walk.visitor.BuiltIn)
    (requests : walk.metadata.Within Flagged.Keeps) (meddled : ∀ s s', meddle s s' → s.Keeps s')
    (run : Run walk meddle (.initial walk.plan root store state) before w) {j : ThreadId} {d : Dir}
    {p : Panic} (died : w.ended? j = some (d, .error (.panicked p)))
    (later : Run walk meddle w after w') (agrees : Trace.Agrees f (before ++ after))
    (tree : f.IsTree root) :
    (w.shared.store.raised = true ∨ w.Pending) ∧
    (w.shared.store.raised = true →
      WindsDown walk meddle (.initial walk.plan root store state) before w after) ∧
    (∀ c, d ∈ f.dirs c → ¬ Trace.Left (before ++ after) c ∧
      (c ≠ d → ∀ i, (i, .acting (.leave c)) ∉ before ++ after)) ∧
    w'.result? ≠ some (.ok ()) := by
  have hrun := run.trans later
  obtain ⟨t, ht, rfl, hdead⟩ := dead_of_died died
  obtain ⟨t', ht', hhome, hdead'⟩ := dead_of_died (later.ended?_mono died)
  refine ⟨run.pending_of_dead requests meddled ht hdead, fun up => ?_, fun c hc => ⟨?_, ?_⟩,
    hrun.not_well_of_dead requests meddled ht' hdead'⟩
  · exact run.windsDown later requests meddled (fun site => (visitor.plain walk.plan site).1) up
  · intro hleft
    obtain ⟨b, hb, e, hshown, hfails⟩ := hrun.fails_of_dead agrees j t' ht' hdead'
    exact hrun.not_failsAt_of_left requests meddled agrees tree hleft
      (Forest.mem_dirs_trans hc (hhome ▸ hb)) hshown hfails
  · intro hne i hmem
    obtain ⟨earlier, since, split⟩ := List.append_of_mem hmem
    obtain ⟨-, -, hbelow⟩ := hrun.leave_last requests meddled agrees tree split
    exact (hbelow _ hc (Ne.symm hne)).2.2.2 j t' ht' hhome hdead'

end World

/-- Removing a directory with three subdirectories; listing the first of them brings its worker
down. -/
def Walk.deathBeside : Walk (List String) Nat where
  metadata := Table.metadata
    ⟨[], ((((∅ : Std.TreeMap Inode (List Entry)).insert 2
        [⟨"x", 3, 2, .dir⟩, ⟨"y", 4, 2, .dir⟩, ⟨"z", 5, 2, .dir⟩]).insert 3 []).insert 4 []).insert 5 [],
      ∅, [], (∅ : Std.TreeMap String Panic).insert "list:3" (.text "boom"), ∅⟩
  visitor := removalVisitor
  plan := ⟨1, .first, 1, Nat.one_pos, maxThreads_pos⟩

/-- The directory and its subdirectories. -/
def Forest.deathBeside : Forest where
  listing i := if i = 2 then [⟨"x", 3, 2, .dir⟩, ⟨"y", 4, 2, .dir⟩, ⟨"z", 5, 2, .dir⟩] else []
  height i := if i = 2 then 1 else 0
  height_lt i e he _ := by
    by_cases hi : i = 2
    · rw [if_pos hi] at he
      simp only [List.mem_cons, List.not_mem_nil, or_false] at he
      rcases he with rfl | rfl | rfl <;> simp [hi]
    · rw [if_neg hi] at he
      cases he

/-- The walk after a number of moves, the newest thread first. -/
def World.deathBeside (moves : Nat) : World (List String) Nat :=
  (World.initial Walk.deathBeside.plan ⟨2, 1, "t"⟩ ⟨[], false⟩ 0).drive Walk.deathBeside .newestFirst
    moves 0

/-- What it shows from there on. -/
def Trace.deathBeside (moves more : Nat) : Trace :=
  (World.deathBeside moves).trail Walk.deathBeside .newestFirst more 0

private theorem World.run_deathBeside (moves more : Nat) :
    Run Walk.deathBeside (fun _ _ => False) (deathBeside moves) (Trace.deathBeside moves more)
      ((deathBeside moves).drive Walk.deathBeside .newestFirst more 0) := by
  have hnobody : Schedule.Within .newestFirst fun _ _ : Flagged (List String) => False :=
    fun _ _ h => nomatch h
  have hstart : Run Walk.deathBeside (fun _ _ => False) (deathBeside moves) []
    (deathBeside moves) := .nil
  exact run_drive hnobody hstart more 0

private theorem Walk.answers_deathBeside (d : Dir) :
    (Walk.deathBeside.metadata.call
      (.listEntries Walk.deathBeside.plan.fs d.inode Walk.deathBeside.plan.epoch)).Ends
        fun outcome => ∀ es, outcome = .ok es → es = Forest.deathBeside.listing d.inode := by
  refine Table.ends_listEntries _ _ _ _ fun es h => ?_
  simp only [Std.TreeMap.getElem?_insert, Std.TreeMap.getElem?_emptyc, compare_eq_iff_eq] at h
  change es = if d.inode = 2 then _ else []
  grind

private theorem Forest.isTree_deathBeside : Forest.deathBeside.IsTree ⟨2, 1, "t"⟩ where
  dirs := by decide
  entries d _ := by
    simp only [deathBeside]
    split <;> simp

/-- The death of the worker is known after 64 moves, and by then the walk is as good as over. -/
theorem World.death_calls_off_deathBeside :
    (deathBeside 64).ended? 1 = some (⟨3, 2, "x"⟩, .error (.panicked (.text "boom"))) ∧
      (deathBeside 64).shared.store.raised = true ∧
      (Trace.deathBeside 64 5).requests ≤ 2 ∧
      ¬ Trace.Left (Trace.deathBeside 0 64 ++ Trace.deathBeside 64 5) ⟨2, 1, "t"⟩ := by
  have hdied : (deathBeside 64).ended? 1 =
      some (⟨3, 2, "x"⟩, .error (.panicked (.text "boom"))) := by decide +kernel
  have hup : (deathBeside 64).shared.store.raised = true := by decide +kernel
  have hrequests : Walk.deathBeside.metadata.Within Flagged.Keeps := Table.metadata_within _
  have run := run_deathBeside 0 64
  have later := run_deathBeside 64 5
  have hagrees := (run.trans later).agrees_of_answers Walk.answers_deathBeside
  obtain ⟨-, hwinds, hleft, -⟩ := death_calls_off .removal hrequests (fun _ _ h => h.elim) run hdied
    later hagrees Forest.isTree_deathBeside
  exact ⟨hdied, hup, (hwinds hup).bounded, (hleft ⟨2, 1, "t"⟩ (by decide)).1⟩

/-- While the death of the worker is pending the subdirectories beside its home are listed and
removed: two requests are made by each of two workers that are started only then. -/
theorem World.siblings_outlive_death :
    Run Walk.deathBeside (fun _ _ => False) (deathBeside 0) (Trace.deathBeside 0 18) (deathBeside 18) ∧
      (deathBeside 18).ended? 1 = some (⟨3, 2, "x"⟩, .error (.panicked (.text "boom"))) ∧
      Run Walk.deathBeside (fun _ _ => False) (deathBeside 18) (Trace.deathBeside 18 45)
        ((deathBeside 18).drive Walk.deathBeside .newestFirst 45 0) ∧
      ((deathBeside 18).drive Walk.deathBeside .newestFirst 45 0).shared.store.raised = false ∧
      (Trace.deathBeside 18 45).errandsOf 2 =
        [.list ⟨4, 2, "y"⟩, .act (.leave ⟨4, 2, "y"⟩)] ∧
      (Trace.deathBeside 18 45).errandsOf 3 =
        [.list ⟨5, 2, "z"⟩, .act (.leave ⟨5, 2, "z"⟩)] :=
  ⟨run_deathBeside 0 18, by decide +kernel, run_deathBeside 18 45, by decide +kernel,
    by decide +kernel, by decide +kernel⟩

end ShardSweep
