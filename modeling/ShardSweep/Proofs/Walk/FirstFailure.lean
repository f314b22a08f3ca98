import ShardSweep.Proofs.Walk.Complete
import ShardSweep.Proofs.Walk.Visitors

/-!
# The first failure is the outcome

Whatever goes wrong is left at one place, in the order in which the threads come to it.  Until
the calling thread takes the kept failure away, what is kept is what was left first, and nobody
else has found the place empty.  By then every worker has ended, so everything that went wrong
has been left, but for the death of a worker whose starter has died as well.

A visitor is free to leave a failure there itself.  If it takes one away, what comes next is kept
as if it were the first.

* `Trace.Ranked`: the first failure is kept, and no other;
* `World.Run.exists_last`: a walk ends as its `Verdict` says;
* `World.Source`: what a failure comes from;
* `World.Leaves`: a thread has left a failure, or is about to;
* `World.first_failure_wins`: what a walk returns, if its calling thread does not die and nobody
  takes the kept failure away before;
* `World.outcome_hides_failures`: what a walk may return in spite of a failure.
-/

namespace ShardSweep

variable {σ ν : Type}

/-- The failure that is left, by the walk or by its visitor, and whether it is kept. -/
def Event.report? : Event → Option (WalkError × Bool)
  | .reported e first => some (e, first)
  | .offered _ e first => some (e, first)
  | _ => none

/-- The failure that the visitor takes out of its place. -/
def Event.taken? : Event → Option WalkError
  | .took _ kept => kept
  | _ => none

namespace Trace

/-- The failures that were left, the first one first, and whether they were kept. -/
def reports (tr : Trace) : List (WalkError × Bool) :=
  tr.filterMap fun shown => shown.2.report?

/-- What is reported last is the last report. -/
theorem reports_append (tr : Trace) (i : ThreadId) (e : Event) :
    reports (tr ++ [(i, e)]) = tr.reports ++ e.report?.toList := by
  unfold reports
  rw [List.filterMap_append]
  cases h : e.report? <;> simp [h]

/-- Nothing is taken out of the place for a failure. -/
def Untaken (tr : Trace) : Prop :=
  ∀ shown ∈ tr, shown.2.taken? = none

/-- What is kept is what was left first, and nothing else was taken for the first. -/
def Ranked (tr : Trace) : Option WalkError → Prop
  | none => tr.reports = []
  | some e => ∃ later : List WalkError, tr.reports = (e, true) :: later.map fun e' => (e', false)

/-- One more failure is left. -/
theorem Ranked.report {tr : Trace} {v : Verdict} (h : tr.Ranked v.failure) (i : ThreadId)
    {shown : Event} {e : WalkError} (report : shown.report? = some (e, (v.fail e).1)) :
    Ranked (tr ++ [(i, shown)]) (v.fail e).2.failure := by
  obtain ⟨_ | first, raised⟩ := v
  · have hnone : tr.reports = [] := h
    exact ⟨[], by simp [reports_append, hnone, report, Verdict.fail, offerFailure]⟩
  · obtain ⟨later, hlater⟩ := h
    exact ⟨later ++ [e], by simp [reports_append, hlater, report, Verdict.fail, offerFailure]⟩

/-- An event that reports nothing leaves the first report where it is. -/
theorem Ranked.quiet {tr : Trace} {kept : Option WalkError} (h : tr.Ranked kept) (i : ThreadId)
    {e : Event} (quiet : e.report? = none) : Ranked (tr ++ [(i, e)]) kept := by
  have hsame : reports (tr ++ [(i, e)]) = tr.reports := by simp [reports_append, quiet]
  cases kept with
  | none => exact hsame.trans h
  | some first =>
    obtain ⟨later, hlater⟩ := h
    exact ⟨later, hsame.trans hlater⟩

end Trace

namespace Thread

variable {walk : Walk σ ν} {o : Others} {t : Thread σ ν} {s : Shared σ ν} {m : Moved σ ν}

/-- A step leaves a failure, or the walk ends with it, or nothing changes about what is kept, as
long as the visitor takes nothing away. -/
theorem Does.failure_cases (h : Does walk o t s m) (untaken : m.event.taken? = none) :
    (∃ e, m.event.report? = some (e, (s.verdict.fail e).1) ∧
      m.shared.failure = (s.verdict.fail e).2.failure) ∨
    m.event.report? = none ∧ (m.shared.failure = s.failure ∨
      t.task = .concluding ∧ m.thread.task.result?.isSome) := by
  cases h with
  | report | offer => exact .inl ⟨_, rfl, rfl⟩
  | take =>
    have hnone : s.failure = none := untaken
    exact .inr ⟨rfl, .inl hnone.symm⟩
  | concludeFailed => exact .inr ⟨rfl, .inr ⟨rfl, rfl⟩⟩
  | _ => exact .inr ⟨rfl, .inl rfl⟩

/-- The calling thread ends by dying, or as the verdict says. -/
theorem Does.finishes (h : Does walk o t s m) (placed : t.task.Placed 0 t.stack)
    {r : Outcome Unit} (done : m.thread.task.result? = some r)
    (calm : ∀ p, r ≠ .error (.panicked p)) :
    m.event = .quiet ∧ ((t.task = .settling → s.failure = none) →
      r = s.verdict.conclude.1.mapError Halt.failed) := by
  have hquiet : m.event = .quiet ∧ (t.task = .concluding ∨ t.task = .settling) := by
    cases h with
    | concludeFailed => exact ⟨rfl, .inl rfl⟩
    | settleCancelled | settleWell => exact ⟨rfl, .inr rfl⟩
    | unwindCaller => exact absurd (Option.some.inj done).symm (calm _)
    | endRelease => exact absurd rfl placed.1
    | finishActing =>
      rw [Site.result?_onward] at done
      cases done
    | _ => cases done
  refine ⟨hquiet.1, fun clean => ?_⟩
  have hended : m.thread.task = .ended (s.verdict.conclude.1.mapError Halt.failed) := by
    rcases hquiet.2 with htask | htask
    · rcases (h.concludes htask).2 with ⟨-, hended⟩ | ⟨-, hsettles⟩
      · exact hended
      · rw [hsettles] at done
        cases done
    · exact (h.settles htask (clean htask)).2
  rw [hended] at done
  exact (Option.some.inj done).symm

/-- The calling thread looks at the flag for the last time when it has found no failure. -/
theorem Does.settling (h : Does walk o t s m) (settling : m.thread.task = .settling) :
    m.shared.failure = none := by
  cases h with
  | concludeClean clean => exact clean
  | @finishActing _ _ site =>
    exact absurd settling (site.onward_ind (P := (· ≠ .settling)) (by simp) (by simp))
  | _ => cases settling

end Thread

namespace World

variable {walk : Walk σ ν} {meddle : Flagged σ → Flagged σ → Prop} {plan : WalkPlan} {root : Dir}
  {store : Flagged σ} {state : ν} {tr : Trace} {w w' : World σ ν}

/-- A walk that goes on after a step was going on before. -/
theorem result?_eq_none_of_step {i : ThreadId} {room : Bool} {e : Event}
    (h : w.step walk i room = some (e, w')) (going : w'.result? = none) : w.result? = none := by
  obtain ⟨t, m, ht, hdoes, -, rfl⟩ := step_eq_some h
  cases hended : w.ended? 0 with
  | none => simp [result?, hended]
  | some x =>
    have hstill := ended?_mono ht hdoes.result?_eq_none m hended
    simp [result?, hstill] at going

/-- Until the calling thread has ended what is kept is what was left first. -/
theorem Run.ranked (run : Run walk meddle (.initial plan root store state) tr w)
    (going : w.result? = none) (untaken : tr.Untaken) : tr.Ranked w.shared.failure := by
  induction run with
  | nil => rfl
  | outside _ _ ih => exact ih going untaken
  | @step tr w w' i room e run hstep ih =>
    have hranked := ih (result?_eq_none_of_step hstep going)
      fun shown hshown => untaken shown (List.mem_append_left _ hshown)
    have hkin := (Kin.initial plan root store state).of_run run
    obtain ⟨t, m, ht, hdoes, rfl, rfl⟩ := step_eq_some hstep
    have hlast : m.event.taken? = none := untaken (i, m.event) (by simp)
    rw [shared_update]
    rcases hdoes.failure_cases hlast with ⟨e, hreport, hkept⟩ | ⟨hquiet, hsame | ⟨htask, hends⟩⟩
    · rw [hkept]
      exact hranked.report i hreport
    · rw [hsame]
      exact hranked.quiet i hquiet
    · -- Only the calling thread takes the kept failure away, and it ends by that.
      have hplaced := hkin.placed i t ht
      rw [htask] at hplaced
      obtain ⟨rfl, -⟩ := hplaced
      obtain ⟨r, hr⟩ := Option.isSome_iff_exists.mp hends
      simp [result?, ended?_update ht, hr] at going

/-- When the calling thread looks at the flag for the last time no failure is kept. -/
theorem Run.settling (run : Run walk meddle (.initial plan root store state) tr w) {t : Thread σ ν}
    (ht : w.threads[0]? = some t) (settling : t.task = .settling) : w.shared.failure = none := by
  induction run generalizing t with
  | nil =>
    obtain ⟨-, rfl⟩ := eq_of_initial ht
    cases settling
  | outside _ _ ih => exact ih ht settling
  | @step tr w w' i room e run hstep ih =>
    have hkin := (Kin.initial plan root store state).of_run run
    obtain ⟨u, m, hu, hdoes, rfl, rfl⟩ := step_eq_some hstep
    rw [shared_update]
    rw [getElem?_update hu] at ht
    by_cases hi : 0 = i
    · subst hi
      rw [if_pos rfl] at ht
      cases ht
      exact hdoes.settling settling
    · -- Nobody else is left by then.
      rw [if_neg hi, if_neg (Nat.ne_of_lt hkin.caller)] at ht
      have hplaced := hkin.placed 0 t ht
      rw [settling] at hplaced
      obtain ⟨-, hstack⟩ := hplaced
      have hfree : ∀ t', w.threads[0]? = some t' → t'.waitsFor = [] := by
        intro t' ht'
        obtain rfl := Option.some.inj (ht'.symm.trans ht)
        simp [Thread.waitsFor, settling, hstack, Task.waitsFor]
      have hended := hkin.all_ended hfree (Ne.symm hi) (lt_size hu)
      simp [ended?, hu, hdoes.result?_eq_none] at hended

/-- The walk ends with the last step of a run, taken by the calling thread in world `last`. -/
inductive EndsFrom (walk : Walk σ ν) (meddle : Flagged σ → Flagged σ → Prop) (start : World σ ν)
    (tr : Trace) (r : Outcome Unit) (last : World σ ν) : Prop
  | intro {before : Trace} {room : Bool} {w' : World σ ν} (split : tr = before ++ [(0, .quiet)])
      (run : Run walk meddle start before last) (going : last.result? = none)
      (step : last.step walk 0 room = some (.quiet, w')) (result : w'.result? = some r)

/-- What a walk ends with, if its calling thread does not die: with what the verdict says. -/
theorem Run.exists_last (run : Run walk meddle (.initial plan root store state) tr w)
    {r : Outcome Unit} (done : w.result? = some r) (calm : ∀ p, r ≠ .error (.panicked p))
    (untaken : tr.Untaken) :
    ∃ last, EndsFrom walk meddle (.initial plan root store state) tr r last ∧
      tr.Ranked last.shared.failure ∧
      r = last.shared.verdict.conclude.1.mapError Halt.failed := by
  induction run with
  | nil => cases done
  | outside _ _ ih => exact ih done untaken
  | @step tr w w' i room e run hstep _ =>
    have hkin := (Kin.initial plan root store state).of_run run
    obtain ⟨t, m, ht, hdoes, rfl, rfl⟩ := step_eq_some hstep
    obtain ⟨rfl, hgoing, hdone⟩ := caller_of_result hkin ht hdoes.result?_eq_none done
    obtain ⟨hquiet, hconclude⟩ := hdoes.finishes (hkin.placed 0 t ht) hdone calm
    have hranked := (run.ranked hgoing
      fun shown hshown => untaken shown (List.mem_append_left _ hshown)).quiet 0
      (e := m.event) (by rw [hquiet]; rfl)
    rw [hquiet] at hstep
    exact ⟨w, .intro (by rw [hquiet]) run hgoing hstep done, hranked, hconclude (run.settling ht)⟩

end World

/-- The failure that an event shows: a listing has failed, or the visitor at a place. -/
def Event.failure? : Event → Option WalkError
  | .listed _ (.error (.failed e)) => some e
  | .acted _ (.error (.failed e)) => some e
  | _ => none

/-- What a failure that thread `i` leaves comes from. -/
inductive World.Source (tr : Trace) (w : World σ ν) (i : ThreadId) : WalkError → Prop
  /-- Something has failed on the thread. -/
  | failure {shown e} (mem : (i, shown) ∈ tr) (fails : shown.failure? = some e) : Source tr w i e
  /-- A worker that the thread has started has died. -/
  | death {j d p} (started : (i, .spawned j d) ∈ tr)
      (died : w.ended? j = some (d, .error (.panicked p))) :
      Source tr w i (.workerDied ("walker-" ++ toString d.inode) p.message)

namespace Thread

variable {walk : Walk σ ν} {o : Others} {t : Thread σ ν} {s : Shared σ ν} {m : Moved σ ν}
  {e : WalkError}

/-- A thread is about to leave a failure that it has just shown, or the death of a worker. -/
theorem Does.reporting (h : Does walk o t s m) {resume : Resume}
    (reports : m.thread.task = .reporting e resume) : m.event.failure? = some e ∨
      ∃ j d p, j ∈ t.waitsFor ∧ o.ended? j = some (d, .error (.panicked p)) ∧
        e = workerDeath d p := by
  cases h with
  | failListing | failActing =>
    cases reports
    exact .inl rfl
  | joinDead dead =>
    cases reports
    exact .inr ⟨_, _, _, by simp [waitsFor, Task.waitsFor], dead, rfl⟩
  | @finishActing _ _ site =>
    exact absurd reports (site.onward_ind (P := (· ≠ .reporting e resume)) (by simp) (by simp))
  | _ => cases reports

/-- Who has failed is about to report it. -/
theorem Does.reporting_of_failure (h : Does walk o t s m) (fails : m.event.failure? = some e) :
    ∃ resume, m.thread.task = .reporting e resume := by
  cases h with
  | failListing | failActing =>
    cases fails
    exact ⟨_, rfl⟩
  | _ => cases fails

/-- Who reports a failure was about to. -/
theorem Does.of_reported (h : Does walk o t s m) {first : Bool}
    (reported : m.event = .reported e first) : ∃ resume, t.task = .reporting e resume := by
  cases h with
  | report =>
    cases reported
    exact ⟨_, rfl⟩
  | _ => cases reported

/-- Who is about to report a failure does it next. -/
theorem Does.reported (h : Does walk o t s m) {resume : Resume}
    (reporting : t.task = .reporting e resume) : ∃ first, m.event = .reported e first := by
  cases h with
  | report =>
    cases reporting
    exact ⟨_, rfl⟩
  | _ => cases reporting

/-- Whoever has left a failure is still to raise the flag. -/
theorem Does.hurt_of_reported (h : Does walk o t s m) {first : Bool}
    (reported : m.event = .reported e first) {i : ThreadId} : m.thread.task.Hurt i := by
  cases h with
  | report => trivial
  | _ => cases reported

/-- A new thread is shown. -/
theorem Does.spawned (h : Does walk o t s m) {d : Dir} (child : m.child = some d) :
    m.event = .spawned o.fresh d := by
  cases h with
  | spawn | spawnOutside =>
    cases child
    rfl
  | _ => cases child

/-- A request that fails is at once the failure of the visitor. -/
theorem Does.of_answered (h : Does walk o t s m) (passes : t.task.Passes) {site : Site}
    {r : Request} (answered : m.event = .answered site r (.error (.failed e))) :
    m.thread.task = .acting site (.done (.error e)) := by
  cases h with
  | failCall =>
    cases answered
    rw [passes.2]
  | _ => cases answered

/-- A failed action is about to be reported. -/
theorem Does.of_failed (h : Does walk o t s m) {site : Site}
    (failed : t.task = .acting site (.done (.error e))) :
    ∃ resume, m.thread.task = .reporting e resume := by
  cases h with
  | failActing =>
    cases failed
    exact ⟨_, rfl⟩
  | _ => cases failed

/-- Who is on its way to die dies. -/
theorem Does.stays_dead (h : Does walk o t s m) (dead : t.task.Dead) : m.thread.task.Dead := by
  cases h with
  | unwindCaller | unwindWorker => rfl
  | release | endRelease => exact dead
  | _ => exact dead.elim

/-- A thread stops waiting for a worker when it dies itself or when it finds that the worker has
ended, and the death of a worker it is about to leave as a failure. -/
theorem Does.waitsFor_cases (h : Does walk o t s m) {i : ThreadId}
    (placed : t.task.Placed i t.stack) {j : ThreadId} (hj : j ∈ t.waitsFor) :
    j ∈ m.thread.waitsFor ∨ m.thread.task.Dead ∨ ∃ d result, o.ended? j = some (d, result) ∧
      ∀ p, result = .error (.panicked p) →
        ∃ resume, m.thread.task = .reporting (workerDeath d p) resume := by
  rw [mem_waitsFor] at hj
  cases h with
  | unwindCaller | unwindWorker => exact .inr (.inl rfl)
  | joinDead dead =>
    rcases hj with hj | hj
    · rcases List.mem_cons.mp hj with rfl | hj
      · refine .inr (.inr ⟨_, _, dead, fun p hp => ?_⟩)
        cases hp
        exact ⟨_, rfl⟩
      · exact .inl (mem_waitsFor.mpr (.inl hj))
    · exact .inl (mem_waitsFor.mpr (.inr hj))
  | join ended alive =>
    rcases hj with hj | hj
    · rcases List.mem_cons.mp hj with rfl | hj
      · exact .inr (.inr ⟨_, _, ended, fun p hp => absurd hp (alive p)⟩)
      · exact .inl (mem_waitsFor.mpr (.inl hj))
    · exact .inl (mem_waitsFor.mpr (.inr hj))
  | finishActing =>
    left
    rw [mem_waitsFor, Site.waitsFor_onward]
    exact hj
  | failActing =>
    left
    rw [mem_waitsFor]
    simpa only [Task.waitsFor, Site.waitsFor_afterFailure] using hj
  | _ =>
    left
    rw [mem_waitsFor]
    simp_all [Task.waitsFor, Resume.waitsFor, Task.Placed] <;> grind

end Thread

namespace World

variable {walk : Walk σ ν} {meddle : Flagged σ → Flagged σ → Prop} {plan : WalkPlan} {root : Dir}
  {store : Flagged σ} {state : ν} {tr : Trace} {w w' : World σ ν} {i : ThreadId} {e : WalkError}

/-- A failure keeps its source when somebody takes a step. -/
theorem Source.step (h : Source tr w i e) {k : ThreadId} {t : Thread σ ν}
    (ht : w.threads[k]? = some t) (alive : t.task.result? = none) (later : Trace) (m : Moved σ ν) :
    Source (tr ++ later) (w.update k m) i e := by
  cases h with
  | failure mem fails => exact .failure (List.mem_append_left _ mem) fails
  | death started died =>
    exact .death (List.mem_append_left _ started) (ended?_mono ht alive m died)

/-- It does when somebody else meddles with the store, too. -/
theorem Source.withStore (h : Source tr w i e) (s : Flagged σ) : Source tr (w.withStore s) i e := by
  cases h with
  | failure mem fails => exact .failure mem fails
  | death started died => exact .death started died

/-- Failures that are left come from something, and workers that are waited for were started. -/
structure Attributed (tr : Trace) (w : World σ ν) : Prop where
  reporting : ∀ (i : Nat) (t : Thread σ ν) e resume, w.threads[i]? = some t →
    t.task = .reporting e resume → Source tr w i e
  reported : ∀ i e first, (i, .reported e first) ∈ tr → Source tr w i e
  awaited : ∀ (i : Nat) (t : Thread σ ν) j, w.threads[i]? = some t → j ∈ t.waitsFor →
    ∃ d, (i, .spawned j d) ∈ tr ∧ w.homes j = some d

/-- Every report of a run has its source. -/
theorem Run.attributed (run : Run walk meddle (.initial plan root store state) tr w) :
    w.Attributed tr := by
  induction run with
  | nil =>
    refine ⟨?_, fun _ _ _ h => absurd h List.not_mem_nil, ?_⟩
    · intro i t e resume ht htask
      obtain ⟨-, rfl⟩ := eq_of_initial ht
      cases htask
    · intro i t j ht hj
      obtain ⟨-, rfl⟩ := eq_of_initial ht
      simp [Thread.fresh, Thread.waitsFor, Task.waitsFor] at hj
  | outside _ _ ih =>
    exact ⟨fun i t e resume ht htask => (ih.reporting i t e resume ht htask).withStore _,
      fun i e first hmem => (ih.reported i e first hmem).withStore _, ih.awaited⟩
  | @step tr w w' k room e run hstep ih =>
    obtain ⟨t, m, ht, hdoes, rfl, rfl⟩ := step_eq_some hstep
    have halive := hdoes.result?_eq_none
    have hlast : (k, m.event) ∈ tr ++ [(k, m.event)] := by simp
    refine ⟨fun j u e resume hu htask => ?reporting, fun i e first hmem => ?reported,
      fun i u j hu => ?awaited⟩
    case reporting =>
      refine forall_update (P := fun j u => u.task = .reporting e resume →
        Source (tr ++ [(k, m.event)]) (w.update k m) j e) ht ?_ (fun _ _ h => by cases h)
        (fun j u _ hu htask => (ih.reporting j u e resume hu htask).step ht halive _ m) j u hu htask
      intro htask
      rcases hdoes.reporting htask with hfails | ⟨j, d, p, hj, hdead, rfl⟩
      · exact .failure hlast hfails
      · obtain ⟨c, hstarted, hhome⟩ := ih.awaited k t j ht hj
        change w.ended? j = _ at hdead
        obtain ⟨u, hu, hhome', -⟩ := ended?_eq_some hdead
        simp only [homes, hu, Option.map_some, Option.some.injEq] at hhome
        obtain rfl : c = d := hhome.symm.trans hhome'
        exact .death (List.mem_append_left _ hstarted) (ended?_mono ht halive m hdead)
    case reported =>
      rcases List.mem_append.mp hmem with hold | hnew
      · exact (ih.reported i e first hold).step ht halive _ m
      · obtain ⟨rfl, hevent⟩ := Prod.mk.inj (List.mem_singleton.mp hnew)
        obtain ⟨resume, htask⟩ := hdoes.of_reported hevent.symm
        exact (ih.reporting _ t e resume ht htask).step ht halive _ m
    case awaited =>
      have hhomes := homes_update (m := m) ht hdoes.home_eq
      have hold : ∀ (i : Nat) (u : Thread σ ν), w.threads[i]? = some u → j ∈ u.waitsFor →
          ∃ d, (i, .spawned j d) ∈ tr ++ [(k, m.event)] ∧ (w.update k m).homes j = some d := by
        intro i u hu hj
        obtain ⟨d, hstarted, hhome⟩ := ih.awaited i u j hu hj
        exact ⟨d, List.mem_append_left _ hstarted, hhomes j d hhome⟩
      refine forall_update (P := fun i u => j ∈ u.waitsFor → ∃ d,
        (i, .spawned j d) ∈ tr ++ [(k, m.event)] ∧ (w.update k m).homes j = some d) ht ?_ ?_
        (fun i u _ hu => hold i u hu) i u hu
      · intro hj
        rcases hdoes.waitsFor_new hj with hbefore | ⟨rfl, hchild⟩
        · exact hold k t ht hbefore
        · obtain ⟨d, hd⟩ := Option.isSome_iff_exists.mp hchild
          exact ⟨d, by rw [← hdoes.spawned hd]; exact hlast, homes_fresh ht hd⟩
      · intro d _ hj
        simp [Thread.fresh, Thread.waitsFor, Task.waitsFor] at hj

/-- Thread `i` has left a failure, or is about to. -/
def Leaves (tr : Trace) (w : World σ ν) (i : ThreadId) (e : WalkError) : Prop :=
  (∃ first, (i, .reported e first) ∈ tr) ∨
    ∃ t resume, w.threads[i]? = some t ∧ t.task = .reporting e resume

/-- A failure that was shown is on its way to the report, or was reported. -/
theorem Leaves.step (h : Leaves tr w i e) {k : ThreadId} {t : Thread σ ν} {o : Others}
    {m : Moved σ ν} (ht : w.threads[k]? = some t) (hdoes : t.Does walk o w.shared m) :
    Leaves (tr ++ [(k, m.event)]) (w.update k m) i e := by
  rcases h with ⟨first, hmem⟩ | ⟨u, resume, hu, htask⟩
  · exact .inl ⟨first, List.mem_append_left _ hmem⟩
  · by_cases hi : i = k
    · subst hi
      obtain rfl := Option.some.inj (hu.symm.trans ht)
      obtain ⟨first, hevent⟩ := hdoes.reported htask
      exact .inl ⟨first, by simp [hevent]⟩
    · exact .inr ⟨u, resume, getElem?_update_of_ne ht m hu hi, htask⟩

/-- When the walk has ended whoever was about to leave a failure has left it. -/
theorem Leaves.reported (h : Leaves tr w i e) (kin : w.Kin) (done : w.result?.isSome) :
    ∃ first, (i, .reported e first) ∈ tr := by
  rcases h with hleft | ⟨t, resume, ht, htask⟩
  · exact hleft
  · obtain ⟨r, hr⟩ := kin.ended_of_result done i t ht
    rw [htask] at hr
    cases hr

/-- Whatever fails on a thread it leaves as a failure. -/
theorem Run.leaves_of_failure (run : Run walk meddle (.initial plan root store state) tr w)
    {shown : Event} (mem : (i, shown) ∈ tr) (fails : shown.failure? = some e) :
    Leaves tr w i e := by
  induction run with
  | nil => cases mem
  | outside _ _ ih => exact ih mem
  | @step tr w w' k room e' run hstep ih =>
    obtain ⟨t, m, ht, hdoes, rfl, rfl⟩ := step_eq_some hstep
    rcases List.mem_append.mp mem with hold | hnew
    · exact (ih hold).step ht hdoes
    · obtain ⟨rfl, rfl⟩ := Prod.mk.inj (List.mem_singleton.mp hnew)
      obtain ⟨resume, htask⟩ := hdoes.reporting_of_failure fails
      exact .inr ⟨m.thread, resume, getElem?_update_self ht m, htask⟩

/-- A worker that was started is waited for, unless its starter is dying, or it has ended; and if
it has died this is left as a failure. -/
theorem Run.leaves_of_death (run : Run walk meddle (.initial plan root store state) tr w)
    {j : ThreadId} {d : Dir} (started : (i, .spawned j d) ∈ tr) :
    ∃ t, w.threads[i]? = some t ∧ (j ∈ t.waitsFor ∨ t.task.Dead ∨
      ∃ c result, w.ended? j = some (c, result) ∧
        ∀ p, result = .error (.panicked p) → Leaves tr w i (workerDeath c p)) := by
  induction run with
  | nil => cases started
  | outside _ _ ih => exact ih started
  | @step tr w w' k room e run hstep ih =>
    have hkin := (Kin.initial plan root store state).of_run run
    obtain ⟨t, m, ht, hdoes, rfl, rfl⟩ := step_eq_some hstep
    have halive := hdoes.result?_eq_none
    have hplaced := hkin.placed k t ht
    have hmoved : (w.update k m).threads[k]? = some m.thread := getElem?_update_self ht m
    rcases List.mem_append.mp started with hold | hnew
    · obtain ⟨u, hu, hcases⟩ := ih hold
      have hended : (∃ c result, w.ended? j = some (c, result) ∧
          ∀ p, result = .error (.panicked p) → Leaves tr w i (workerDeath c p)) →
          ∃ c result, (w.update k m).ended? j = some (c, result) ∧ ∀ p,
            result = .error (.panicked p) →
              Leaves (tr ++ [(k, m.event)]) (w.update k m) i (workerDeath c p) := by
        intro h
        obtain ⟨c, result, hj, hleaves⟩ := h
        exact ⟨c, result, ended?_mono ht halive m hj, fun p hp => (hleaves p hp).step ht hdoes⟩
      by_cases hi : i = k
      · subst hi
        obtain rfl := Option.some.inj (hu.symm.trans ht)
        refine ⟨m.thread, hmoved, ?_⟩
        rcases hcases with hj | hdead | hj
        · rcases hdoes.waitsFor_cases hplaced hj with hstill | hdead | ⟨c, result, hj, hreports⟩
          · exact .inl hstill
          · exact .inr (.inl hdead)
          · refine .inr (.inr ⟨c, result, ended?_mono ht halive m hj, fun p hp => ?_⟩)
            obtain ⟨resume, htask⟩ := hreports p hp
            exact .inr ⟨m.thread, resume, hmoved, htask⟩
        · exact .inr (.inl (hdoes.stays_dead hdead))
        · exact .inr (.inr (hended hj))
      · exact ⟨u, getElem?_update_of_ne ht m hu hi, hcases.imp_right (Or.imp_right hended)⟩
    · obtain ⟨rfl, hevent⟩ := Prod.mk.inj (List.mem_singleton.mp hnew)
      obtain ⟨rfl, hchild⟩ := hdoes.of_spawned hevent.symm
      exact ⟨m.thread, hmoved, .inl (hdoes.fresh_mem_waitsFor hplaced hchild)⟩

/-- If the visitor passes failures on, whatever request fails on a thread is left as a failure. -/
theorem Run.leaves_of_answered (run : Run walk meddle (.initial plan root store state) tr w)
    (visitor : ∀ site, (walk.visitor.act walk.plan site).Passes) {site : Site} {r : Request}
    (mem : (i, .answered site r (.error (.failed e))) ∈ tr) :
    Leaves tr w i e ∨
      ∃ t site, w.threads[i]? = some t ∧ t.task = .acting site (.done (.error e)) := by
  induction run with
  | nil => cases mem
  | outside _ _ ih => exact ih mem
  | @step tr w w' k room e' run hstep ih =>
    obtain ⟨t, m, ht, hdoes, rfl, rfl⟩ := step_eq_some hstep
    have hmoved : (w.update k m).threads[k]? = some m.thread := getElem?_update_self ht m
    rcases List.mem_append.mp mem with hold | hnew
    · rcases ih hold with hleaves | ⟨u, site, hu, htask⟩
      · exact .inl (hleaves.step ht hdoes)
      · by_cases hi : i = k
        · subst hi
          obtain rfl := Option.some.inj (hu.symm.trans ht)
          obtain ⟨resume, htask⟩ := hdoes.of_failed htask
          exact .inl (.inr ⟨m.thread, resume, hmoved, htask⟩)
        · exact .inr ⟨u, site, getElem?_update_of_ne ht m hu hi, htask⟩
    · obtain ⟨rfl, hevent⟩ := Prod.mk.inj (List.mem_singleton.mp hnew)
      exact .inr ⟨m.thread, site, hmoved,
        hdoes.of_answered (run.passes visitor _ t ht) hevent.symm⟩

/-- A walk has ended with outcome `r`, its calling thread has not died, and `up` is the flag when
it ended. -/
structure FirstWins (walk : Walk σ ν) (tr : Trace) (w : World σ ν) (up : Bool)
    (r : Outcome Unit) : Prop where
  /-- Without a failure the outcome is as the flag says.  Otherwise it is the first failure, for
  which alone the place was empty. -/
  outcome : (tr.reports = [] ∧ r = if up then .error (.failed .cancelled) else .ok ()) ∨
    ∃ e, ∃ later : List WalkError,
      tr.reports = (e, true) :: later.map (fun e' => (e', false)) ∧ r = .error (.failed e)
  well_iff : r = .ok () ↔ tr.reports = [] ∧ up = false
  /-- A listing or a visitor may also fail with a cancellation of its own. -/
  cancelled_iff : r = .error (.failed .cancelled) ↔
    tr.reports = [] ∧ up = true ∨ tr.reports.head? = some (.cancelled, true)
  /-- The walk itself leaves nothing as a failure but what has failed on the thread, and the deaths
  of the workers that it has started. -/
  source : ∀ i e first, (i, .reported e first) ∈ tr → Source tr w i e
  /-- Whatever listing, visit or leaving has failed was left as a failure. -/
  failing : ∀ i shown e, (i, shown) ∈ tr → shown.failure? = some e →
    ∃ first, (i, .reported e first) ∈ tr
  /-- If the visitor passes failures on, so was each request that has failed. -/
  answered : (∀ site, (walk.visitor.act walk.plan site).Passes) →
    ∀ i site r e, (i, .answered site r (.error (.failed e))) ∈ tr →
      ∃ first, (i, .reported e first) ∈ tr
  /-- The death of a worker was left by its starter, unless that has died as well. -/
  death : ∀ i j d p, (i, .spawned j d) ∈ tr → w.ended? j = some (d, .error (.panicked p)) →
    (∃ first, (i, .reported (.workerDied ("walker-" ++ toString d.inode) p.message) first) ∈ tr) ∨
      ∃ c q, w.ended? i = some (c, .error (.panicked q))
  /-- A walk in which something was left as a failure does not end well, and it does not end as
  one that was called off unless this is the first failure itself. -/
  never : ∀ i shown, (i, shown) ∈ tr → shown.report?.isSome → r ≠ .ok () ∧
    (r = .error (.failed .cancelled) → tr.reports.head? = some (.cancelled, true))

/-- Who ends on its way to die is found dead. -/
private theorem dead_of_ended {t : Thread σ ν} (ht : w.threads[i]? = some t) {r : Outcome Unit}
    (ended : t.task.result? = some r) (dead : t.task.Dead) :
    ∃ c q, w.ended? i = some (c, .error (.panicked q)) := by
  rw [Task.eq_ended_of_result? ended] at dead
  rcases r with (e | q) | ⟨⟨⟩⟩
  · cases dead
  · exact ⟨t.home, q, by simp [ended?, ht, ended]⟩
  · cases dead

/-- What a walk returns unless its calling thread dies: the failure that was left first, and
otherwise what the flag says when the walk ends, as long as no visitor takes the kept failure away.
Everything that has failed was left as a failure by then. -/
theorem first_failure_wins {r : Outcome Unit}
    (run : Run walk meddle (.initial walk.plan root store state) tr w) (done : w.result? = some r)
    (calm : ∀ p, r ≠ .error (.panicked p)) (untaken : tr.Untaken) :
    ∃ last, EndsFrom walk meddle (.initial walk.plan root store state) tr r last ∧
      FirstWins walk tr w last.shared.store.raised r := by
  have hkin := (Kin.initial walk.plan root store state).of_run run
  have hdone : w.result?.isSome := by simp [done]
  have hended := hkin.ended_of_result hdone
  obtain ⟨last, hends, hranked, hr⟩ := run.exists_last done calm untaken
  refine ⟨last, hends, ?_⟩
  unfold Shared.verdict at hr
  generalize last.shared.store.raised = up at hr
  have houtcome : (tr.reports = [] ∧ r = if up then .error (.failed .cancelled) else .ok ()) ∨
      ∃ e, ∃ later : List WalkError,
        tr.reports = (e, true) :: later.map (fun e' => (e', false)) ∧ r = .error (.failed e) := by
    cases hkept : last.shared.failure with
    | some e =>
      rw [hkept] at hranked hr
      obtain ⟨later, hlater⟩ := hranked
      exact .inr ⟨e, later, hlater, hr⟩
    | none =>
      rw [hkept] at hranked hr
      refine .inl ⟨hranked, hr.trans ?_⟩
      cases up <;> rfl
  have hwell : r = .ok () ↔ tr.reports = [] ∧ up = false := by
    rcases houtcome with ⟨hnone, rfl⟩ | ⟨e, later, hlater, rfl⟩
    · cases up <;> simp [hnone]
    · simp [hlater]
  have hcancelled : r = .error (.failed .cancelled) ↔
      tr.reports = [] ∧ up = true ∨ tr.reports.head? = some (.cancelled, true) := by
    rcases houtcome with ⟨hnone, rfl⟩ | ⟨e, later, hlater, rfl⟩
    · cases up <;> simp [hnone]
    · simp [hlater]
  refine ⟨houtcome, hwell, hcancelled, run.attributed.reported, ?failing, ?answered, ?death, ?never⟩
  case failing =>
    intro i shown e hmem hfails
    exact (run.leaves_of_failure hmem hfails).reported hkin hdone
  case answered =>
    intro visitor i site q e hmem
    rcases run.leaves_of_answered visitor hmem with hleaves | ⟨t, site, ht, htask⟩
    · exact hleaves.reported hkin hdone
    · obtain ⟨r, hr⟩ := hended i t ht
      rw [htask] at hr
      cases hr
  case death =>
    intro i j d p hstarted hdied
    obtain ⟨t, ht, hwaits | hdead | ⟨c, result, hj, hleaves⟩⟩ := run.leaves_of_death hstarted
    · obtain ⟨r, hr⟩ := hended i t ht
      rw [Thread.waitsFor_of_ended (hkin.placed i t ht) hr] at hwaits
      cases hwaits
    · obtain ⟨r, hr⟩ := hended i t ht
      exact .inr (dead_of_ended ht hr hdead)
    · obtain ⟨rfl, rfl⟩ := Prod.mk.inj (Option.some.inj (hj.symm.trans hdied))
      exact .inl ((hleaves p rfl).reported hkin hdone)
  case never =>
    intro i shown hmem hreport
    obtain ⟨report, hreport⟩ := Option.isSome_iff_exists.mp hreport
    have hsome : tr.reports ≠ [] :=
      List.ne_nil_of_mem (List.mem_filterMap.mpr ⟨_, hmem, hreport⟩ : report ∈ tr.reports)
    refine ⟨fun hok => hsome (hwell.mp hok).1, fun hcancel => ?_⟩
    exact (hcancelled.mp hcancel).resolve_left fun h => hsome h.1

end World

/-- Removing a root with a subdirectory that brings its worker down and a file that is refused. -/
def Walk.twoFailures : Walk (List String) Nat where
  metadata := Table.metadata
    ⟨[], (∅ : Std.TreeMap Inode (List Entry)).insert 1 [⟨"a", 2, 1, .dir⟩, ⟨"b", 3, 1, .file⟩], ∅,
      [], (∅ : Std.TreeMap String Panic).insert "list:2" (.text "boom"),
      (∅ : Std.TreeMap String WalkError).insert "rmfile:1/b" (.notFound 1 "b")⟩
  visitor := removalVisitor
  plan := ⟨1, .first, 1, Nat.one_pos, maxThreads_pos⟩

/-- The same after a number of moves, the newest thread first. -/
def World.twoFailures (moves : Nat) : World (List String) Nat :=
  (World.initial Walk.twoFailures.plan ⟨1, 0, ""⟩ ⟨[], false⟩ 0).drive Walk.twoFailures .newestFirst
    moves 0

/-- What it has shown. -/
def Trace.twoFailures : Trace :=
  (World.twoFailures 0).trail Walk.twoFailures .newestFirst 31 0

/-- The worker has died before the file was refused, but that is found out later. -/
theorem World.first_failure_wins_twoFailures :
    (twoFailures 31).result? = some (.error (.failed (.notFound 1 "b"))) ∧
      Trace.twoFailures.reports =
        [(.notFound 1 "b", true), (.workerDied "walker-2" "boom", false)] ∧
      ∃ up, FirstWins Walk.twoFailures Trace.twoFailures (twoFailures 31) up
        (.error (.failed (.notFound 1 "b"))) := by
  have hdone : (twoFailures 31).result? = some (.error (.failed (.notFound 1 "b"))) := by
    decide +kernel
  have hnobody : Schedule.Within .newestFirst fun _ _ : Flagged (List String) => False :=
    fun _ _ hmove => nomatch hmove
  have hstart : Run Walk.twoFailures (fun _ _ => False) (twoFailures 0) [] (twoFailures 0) := .nil
  have huntaken : Trace.twoFailures.Untaken := by
    unfold Trace.Untaken
    decide +kernel
  obtain ⟨last, -, hfirst⟩ :=
    first_failure_wins (run_drive hnobody hstart 31 0) hdone (fun p h => nomatch h) huntaken
  exact ⟨hdone, by decide +kernel, _, hfirst⟩

/-- A root whose listing is called off. -/
def Walk.listingOff : Walk (List String) (List String) where
  metadata := Table.metadata
    ⟨[], ∅, ∅, [], ∅, (∅ : Std.TreeMap String WalkError).insert "list:1" .cancelled⟩
  visitor := recorder .quiet
  plan := ⟨1, .first, 1, Nat.one_pos, maxThreads_pos⟩

/-- A root with one file, of which nobody knows the attributes. -/
def Walk.strangeFile {ν : Type} (visitor : Visitor ν) : Walk (List String) ν where
  metadata := Table.metadata
    ⟨[], (∅ : Std.TreeMap Inode (List Entry)).insert 1 [⟨"a", 2, 1, .file⟩], ∅, .quiet⟩
  visitor := visitor
  plan := ⟨1, .first, 1, Nat.one_pos, maxThreads_pos⟩

/-- Asks for the attributes of each entry, and is content with any answer. -/
def Visitor.careless : Visitor Unit where
  visit plan dir e := .request (.getAttr plan.fs e.inode dir.inode plan.epoch) fun _ => .succeed
  leave _ _ := .succeed

/-- Leaves a failure at each entry, and takes it away again. -/
def Visitor.fickle : Visitor Unit where
  visit _ dir e := .fail (.notFound dir.inode e.name) fun _ => .take fun _ => .succeed
  leave _ _ := .succeed

/-- The outcome of a walk through the root, the newest thread first, and what it shows. -/
def Walk.played {ν : Type} (walk : Walk (List String) ν) (state : ν) :
    Option (Outcome Unit) × Trace :=
  let start := World.initial walk.plan ⟨1, 0, ""⟩ ⟨[], false⟩ state
  ((start.drive walk .newestFirst 20 0).result?, start.trail walk .newestFirst 20 0)

/-- The failure of a request. -/
def Event.refusal? : Event → Option WalkError
  | .answered _ _ (.error (.failed e)) => some e
  | _ => none

/-- A walk that returns its first failure may seem to have been called off, when a listing has
failed by being called off.  It may end well though a request has failed, when the visitor does not
mind; and as one that was called off, when the visitor takes the kept failure away. -/
theorem World.outcome_hides_failures :
    ((Walk.listingOff.played []).1 = some (.error (.failed .cancelled)) ∧
      (Walk.listingOff.played []).2.reports = [(.cancelled, true)]) ∧
    (((Walk.strangeFile .careless).played ()).1 = some (.ok ()) ∧
      ((Walk.strangeFile .careless).played ()).2.filterMap (fun shown => shown.2.refusal?) =
        [Table.rejected .getAttr .notFound "inode 2"]) ∧
    ((Walk.strangeFile .fickle).played ()).1 = some (.error (.failed .cancelled)) ∧
      ((Walk.strangeFile .fickle).played ()).2.reports = [(.notFound 1 "a", true)] := by
  decide +kernel

end ShardSweep
