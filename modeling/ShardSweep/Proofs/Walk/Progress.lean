import ShardSweep.Proofs.Walk.Complete

/-!
# No walk gets stuck

A thread waits for workers and for nothing else, and the workers it waits for are at home
right below the directory at which it waits.  So whoever waits, waits for somebody strictly
further down, and the newest thread that has not ended can always go on.  With each step one
thread gives way to threads that are below it; what comes from outside changes no thread.  So
threads take steps only finitely often, in any interleaving, and the calling thread ends last.

* `Thread.Employs`: workers are at home right below the directory at which they were started;
* `World.Run.deeper`: so a thread waits for strictly deeper workers only;
* `World.Run.shrinks`: a run in which a thread takes a step leaves less to do;
* `World.exists_standstill`: no interleaving goes on for ever;
* `World.walk_progress`: all of this together.
-/

namespace ShardSweep

variable {σ ν : Type}

/-- The workers are at home in subdirectories of `d`. -/
def Forest.Employs (f : Forest) (homes : ThreadId → Option Dir) (d : Dir) (ws : List ThreadId) :
    Prop :=
  ∀ j ∈ ws, ∃ c ∈ f.subdirs d, homes j = some c

/-- The same of the workers that are still waited for after a failure. -/
def Resume.Employs (f : Forest) (homes : ThreadId → Option Dir) : Resume → Prop
  | .scan => True
  | .close => True
  | .join d ws => f.Employs homes d ws

/-- The same of the workers that a task waits for. -/
def Task.Employs (f : Forest) (homes : ThreadId → Option Dir) : Task σ ν → Prop
  | .reporting _ resume => resume.Employs f homes
  | .raising resume => resume.Employs f homes
  | .closing d ws => f.Employs homes d ws
  | _ => True

/-- Whoever a thread has started and not waited for is at home right below the directory at
which it was started. -/
structure Thread.Employs (f : Forest) (homes : ThreadId → Option Dir) (t : Thread σ ν) : Prop where
  task : t.task.Employs f homes
  stack : ∀ fr ∈ t.stack, f.Employs homes fr.dir fr.workers

section

variable {f : Forest} {homes homes' : ThreadId → Option Dir}
  (more : ∀ j d, homes j = some d → homes' j = some d)

include more

theorem Forest.Employs.mono {d : Dir} {ws : List ThreadId} (h : f.Employs homes d ws) :
    f.Employs homes' d ws := by
  intro j hj
  obtain ⟨c, hc, hhome⟩ := h j hj
  exact ⟨c, hc, more j c hhome⟩

theorem Thread.Employs.mono {t : Thread σ ν} (h : t.Employs f homes) : t.Employs f homes' := by
  refine ⟨?_, fun fr hfr => (h.stack fr hfr).mono more⟩
  have hresume : ∀ resume : Resume, resume.Employs f homes → resume.Employs f homes' := by
    intro resume h
    cases resume with
    | join d ws => exact Forest.Employs.mono more h
    | _ => trivial
  have htask := h.task
  revert htask
  cases t.task with
  | reporting e resume => exact hresume resume
  | raising resume => exact hresume resume
  | closing d ws => exact Forest.Employs.mono more
  | _ => exact fun _ => trivial

end

theorem Site.employs_onward (f : Forest) (homes : ThreadId → Option Dir) (site : Site) :
    (site.onward : Task σ ν).Employs f homes :=
  site.onward_ind (fun _ => trivial) trivial

namespace Thread

variable {walk : Walk σ ν} {o : Others} {t : Thread σ ν} {s : Shared σ ν} {m : Moved σ ν}

/-- A step keeps it so, if a worker that it starts gets the home it is started for. -/
theorem Does.employs (h : Does walk o t s m) {f : Forest} {homes : ThreadId → Option Dir}
    {i : ThreadId} (placed : t.task.Placed i t.stack) (lineal : t.task.Lineal f t.home t.stack)
    (child : ∀ d, m.child = some d → homes o.fresh = some d) (employs : t.Employs f homes) :
    m.thread.Employs f homes := by
  obtain ⟨htask, hstack⟩ := employs
  cases h with
  | endListing => exact ⟨trivial, List.forall_mem_cons.mpr ⟨fun _ hj => (nomatch hj), hstack⟩⟩
  | useUp | giveUp =>
    obtain ⟨hworkers, hrest⟩ := List.forall_mem_cons.mp hstack
    exact ⟨hworkers, hrest⟩
  | visit =>
    obtain ⟨hworkers, hrest⟩ := List.forall_mem_cons.mp hstack
    exact ⟨trivial, List.forall_mem_cons.mpr ⟨hworkers, hrest⟩⟩
  | finishActing => exact ⟨Site.employs_onward f homes _, hstack⟩
  | @failActing _ _ site => exact ⟨by cases site <;> trivial, hstack⟩
  | @spawn home c es ws fs d =>
    obtain ⟨hworkers, hrest⟩ := List.forall_mem_cons.mp hstack
    refine ⟨trivial, List.forall_mem_cons.mpr ⟨?_, hrest⟩⟩
    intro j hj
    rcases List.mem_append.mp hj with hold | hnew
    · exact hworkers j hold
    · exact ⟨d, lineal, List.mem_singleton.mp hnew ▸ child d rfl⟩
  | spawnOutside => exact absurd rfl placed
  | report | raiseJoin => exact ⟨htask, hstack⟩
  | raiseClose =>
    obtain ⟨hworkers, hrest⟩ := List.forall_mem_cons.mp hstack
    exact ⟨hworkers, hrest⟩
  | joinDead | join => exact ⟨fun j hj => htask j (List.mem_cons_of_mem _ hj), hstack⟩
  | unwindCaller | unwindWorker | concludeFailed | settleCancelled | settleWell =>
    exact ⟨trivial, fun _ hfr => (nomatch hfr)⟩
  | _ => exact ⟨trivial, hstack⟩

end Thread

namespace World

variable {f : Forest} {walk : Walk σ ν} {meddle : Flagged σ → Flagged σ → Prop} {plan : WalkPlan}
  {root : Dir} {store : Flagged σ} {state : ν} {tr : Trace} {w w' : World σ ν}

theorem Run.employs (run : Run walk meddle (.initial plan root store state) tr w)
    (agrees : tr.Agrees f) :
    ∀ (i : Nat) (t : Thread σ ν), w.threads[i]? = some t → t.Employs f w.homes := by
  induction run with
  | nil =>
    intro i t ht
    obtain ⟨rfl, rfl⟩ := eq_of_initial ht
    exact ⟨trivial, fun _ hfr => (nomatch hfr)⟩
  | outside _ _ ih => exact ih agrees
  | @step tr w w' i room e run hstep ih =>
    obtain ⟨t, m, ht, hdoes, rfl, rfl⟩ := step_eq_some hstep
    have hkin := (Kin.initial plan root store state).of_run run
    have hlineal := Lineal.of_run (.initial plan root store state) (.initial f plan root store state)
      run agrees.init
    have hmore := homes_update (m := m) ht hdoes.home_eq
    have hold : ∀ (j : Nat) (u : Thread σ ν), w.threads[j]? = some u →
        u.Employs f (w.update i m).homes := fun j u hu => (ih agrees.init j u hu).mono hmore
    refine forall_update ht ?_ ?_ fun j u _ hu => hold j u hu
    · exact hdoes.employs (hkin.placed i t ht) (hlineal.lineal i t ht)
        (fun d hd => homes_fresh ht hd) (hold i t ht)
    · exact fun _ _ => ⟨trivial, fun _ hfr => (nomatch hfr)⟩

/-- A thread waits for a worker that is at home right below the directory at which it waits, and
this is one that the thread is inside. -/
theorem Run.deeper (run : Run walk meddle (.initial plan root store state) tr w)
    (agrees : tr.Agrees f) {i : Nat} {t : Thread σ ν} (ht : w.threads[i]? = some t)
    {j : ThreadId} {d : Dir} (awaits : t.Awaits j d) :
    d ∈ f.dirs t.home ∧ ∃ c ∈ f.subdirs d, w.homes j = some c := by
  obtain ⟨htask, hstack⟩ := run.employs agrees i t ht
  have hlineal := Lineal.of_run (.initial plan root store state) (.initial f plan root store state)
    run agrees
  obtain ⟨hinside, hbelow⟩ := (hlineal.stacked i t ht).mem_dirs (Forest.self_mem_dirs t.home)
  have hhangs := hlineal.lineal i t ht
  cases awaits with
  | closing task =>
    rw [task] at htask hhangs
    exact ⟨hbelow d hhangs, htask j List.mem_cons_self⟩
  | dying _ inside worker => exact ⟨hinside _ inside, hstack _ inside j worker⟩

/-- What comes from outside leaves the threads as they are, and each step of a thread leaves
less. -/
theorem Run.shrinks {start : World σ ν} (kin : start.Kin) (run : Run walk meddle start tr w)
    (agrees : tr.Agrees f) :
    (tr = [] ∧ w.crowd = start.crowd) ∨
      Relation.TransGen (Relation.CutExpand (Thread.Below f)) w.crowd start.crowd := by
  induction run with
  | nil => exact .inl ⟨rfl, rfl⟩
  | step run hstep ih =>
    have hshrinks := (kin.of_run run).shrinks hstep agrees.last
    right
    rcases ih agrees.init with ⟨-, hcrowd⟩ | hless
    · exact .single (hcrowd ▸ hshrinks)
    · exact .head hshrinks hless
  | outside _ _ ih => exact ih agrees

/-- Of runs that take up where the one before has come to only finitely many let a thread take
a step. -/
theorem exists_standstill (worlds : Nat → World σ ν) (traces : Nat → Trace)
    (kin : (worlds 0).Kin)
    (runs : ∀ n, Run walk meddle (worlds n) (traces n) (worlds (n + 1)))
    (agrees : ∀ tr w, Run walk meddle (worlds 0) tr w → tr.Agrees f) :
    ∃ last, ∀ n, last ≤ n → traces n = [] := by
  have hreached : ∀ n, ∃ tr, Run walk meddle (worlds 0) tr (worlds n) := by
    intro n
    induction n with
    | zero => exact ⟨[], .nil⟩
    | succ n ih =>
      obtain ⟨tr, run⟩ := ih
      exact ⟨_, run.trans (runs n)⟩
  have hnext : ∀ n, (traces n = [] ∧ (worlds (n + 1)).crowd = (worlds n).crowd) ∨
      Relation.TransGen (Relation.CutExpand (Thread.Below f)) (worlds (n + 1)).crowd
        (worlds n).crowd := by
    intro n
    obtain ⟨tr, run⟩ := hreached n
    have hagrees := agrees _ _ (run.trans (runs n))
    exact (runs n).shrinks (kin.of_run run) fun x hx => hagrees x (List.mem_append_right _ hx)
  -- A smallest crowd stays as it is from then on.
  obtain ⟨_, ⟨last, rfl⟩, hmin⟩ := (Thread.wellFounded_below f).cutExpand.transGen.has_min
    (Set.range fun n => (worlds n).crowd) ⟨_, 0, rfl⟩
  have hstays : ∀ n, last ≤ n → (worlds n).crowd = (worlds last).crowd := by
    intro n hn
    induction n, hn using Nat.le_induction with
    | base => rfl
    | succ n _ ih =>
      rcases hnext n with ⟨-, hsame⟩ | hless
      · exact hsame.trans ih
      · rw [ih] at hless
        exact absurd hless (hmin _ ⟨n + 1, rfl⟩)
  refine ⟨last, fun n hn => ?_⟩
  rcases hnext n with ⟨hnothing, -⟩ | hless
  · exact hnothing
  · rw [hstays n hn] at hless
    exact absurd hless (hmin _ ⟨n + 1, rfl⟩)

/-- As long as the calling thread has no outcome some thread can take a step, whether or not the
system has room for another thread.  A thread that cannot waits for a worker that has not ended
and is at home strictly further down: right below a directory that the waiting thread is inside.
No interleaving goes on for ever, so under every schedule that lets the threads move again and
again the walk has an outcome, and when it has one all threads have ended. -/
theorem walk_progress
    (lists : ∀ tr w, Run walk meddle (.initial walk.plan root store state) tr w → tr.Agrees f) :
    (∀ tr w, Run walk meddle (.initial walk.plan root store state) tr w →
      (w.result? = none → ∃ i, ∀ room, ∃ e w', w.step walk i room = some (e, w')) ∧
      (∀ (i : Nat) (t : Thread σ ν) room, w.threads[i]? = some t → t.task.result? = none →
        w.step walk i room = none →
        ∃ j d, t.Awaits j d ∧ w.ended? j = none ∧ d ∈ f.dirs t.home ∧
          ∃ c ∈ f.subdirs d, w.homes j = some c) ∧
      (∀ r, w.result? = some r → ∀ (i : Nat) (t : Thread σ ν), w.threads[i]? = some t →
        ∃ r, t.task = .ended r)) ∧
    (∀ (worlds : Nat → World σ ν) (traces : Nat → Trace),
      worlds 0 = .initial walk.plan root store state →
      (∀ n, Run walk meddle (worlds n) (traces n) (worlds (n + 1))) →
      ∃ last, ∀ n, last ≤ n → traces n = []) ∧
    ∀ schedule : Schedule (Flagged σ), schedule.Within meddle → schedule.Fair →
      ∃ bound, ∀ budget, bound ≤ budget → ∃ r,
        ((World.initial walk.plan root store state).drive walk schedule budget 0).result? =
          some r := by
  refine ⟨fun tr w run => ?_, ?_, fun schedule within fair => ?_⟩
  · have hkin := (Kin.initial walk.plan root store state).of_run run
    refine ⟨?_, ?_, ?_⟩
    · intro hgoing
      have hcaller : 0 ∈ w.live :=
        (hkin.live 0).mpr ⟨hkin.caller, by simpa [result?] using hgoing⟩
      obtain ⟨i, older, hnewest⟩ := List.exists_cons_of_ne_nil (List.ne_nil_of_mem hcaller)
      exact ⟨i, hkin.exists_step walk hnewest⟩
    · intro i t room ht alive stuck
      have hstuck : t.step walk (w.others i room) w.shared = none := by
        cases hstep : t.step walk (w.others i room) w.shared with
        | none => rfl
        | some m => simp [World.step, ht, hstep] at stuck
      obtain ⟨j, d, hawaits, hnone⟩ := Thread.exists_awaits alive hstuck
      exact ⟨j, d, hawaits, hnone, run.deeper (lists tr w run) ht hawaits⟩
    · intro r hr i t ht
      obtain ⟨r, hr⟩ := hkin.ended_of_result (by simp [hr]) i t ht
      exact ⟨r, Task.eq_ended_of_result? hr⟩
  · intro worlds traces hstart runs
    exact exists_standstill worlds traces (hstart ▸ .initial ..) runs (hstart ▸ lists)
  · exact exists_result_of_fair within fair (.initial ..) lists

/-- The walk through the root and its subdirectory, the calling thread first wherever it can take
a step. -/
def oneDirCallerFirst (moves : Nat) : World (List String) (List String) :=
  (World.initial Walk.oneDir.plan ⟨rootInode, 0, ""⟩ ⟨[], false⟩ []).drive Walk.oneDir
    (fun _ => some (.thread 0 true)) moves 0

/-- The calling thread waits for the worker in the subdirectory, and comes to its end. -/
theorem walk_progress_oneDir :
    (oneDirCallerFirst 13).step Walk.oneDir 0 true = none ∧
      (∃ t j d, (oneDirCallerFirst 13).threads[0]? = some t ∧ t.Awaits j d ∧
        (oneDirCallerFirst 13).ended? j = none ∧
        ∃ c ∈ Forest.oneDir.subdirs d, (oneDirCallerFirst 13).homes j = some c) ∧
      ∃ bound, ∀ budget, bound ≤ budget → ∃ r, (oneDirCallerFirst budget).result? = some r := by
  have hwithin : Schedule.Within (fun _ => some (.thread 0 true))
      fun _ _ : Flagged (List String) => False := fun _ _ h => nomatch h
  have hstart : Run Walk.oneDir (fun _ _ => False) (oneDirCallerFirst 0) []
    (oneDirCallerFirst 0) := .nil
  have hlists : ∀ tr w, Run Walk.oneDir (fun _ _ => False) (oneDirCallerFirst 0) tr w →
      tr.Agrees .oneDir := fun tr w run => run.agrees_of_answers Walk.answers_oneDir
  obtain ⟨hruns, -, hfair⟩ := walk_progress hlists
  have hstuck : (oneDirCallerFirst 13).step Walk.oneDir 0 true = none := rfl
  obtain ⟨-, hwaits, -⟩ := hruns _ _ (run_drive hwithin hstart 13 0)
  obtain ⟨j, d, hawaits, hgoing, -, hbelow⟩ := hwaits 0 _ true rfl rfl hstuck
  exact ⟨hstuck, ⟨_, j, d, rfl, hawaits, hgoing, hbelow⟩,
    hfair _ hwithin fun now => ⟨now, Nat.le_refl now, fun _ h => nomatch h⟩⟩

end World

end ShardSweep
