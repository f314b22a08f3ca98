import ShardSweep.Proofs.Walk.Bound
import ShardSweep.Proofs.Walk.Ending
import ShardSweep.Proofs.Walk.PostOrder

/-!
# A walk that ends well is complete

A walk loses some of what it has before it only by a failure or because the flag is up.  A
failure that the flag does not tell of yet is pending: a thread is about to report it, or a
thread has died, or one waits for a worker that has died.  It stays pending until the flag
goes up, and when a walk ends well the flag is down and nothing is pending.  So such a walk
has come to everything, and no walk comes to anything more often than it is due.

* `World.Pending`: a failure that the flag does not tell of yet;
* `World.Run.whole`: without one nothing was lost while the flag is down;
* `World.Run.reached`: a subdirectory is entered after it was visited;
* `World.Run.not_fails_of_ok`: nothing has failed in a walk that ends well;
* `World.Run.result_cases`: why a walk does not end well;
* `World.Run.agrees_of_answers`: listings that never change agree with a forest;
* `World.walk_complete`: all of this together.
-/

namespace ShardSweep

variable {σ ν : Type}

/-- The thread is about to report a failure, is dying, or has died without anybody to join it. -/
def Task.Hurt (i : ThreadId) : Task σ ν → Prop
  | .reporting _ _ => True
  | .raising _ => True
  | .unwinding _ => True
  | .releasing _ result => Outcome.isPanic result = true
  | .ended result => i = 0 ∧ Outcome.isPanic result = true
  | _ => False

theorem Task.hurt_of_not_calm {task : Task σ ν} (h : ¬ task.Calm) (i : ThreadId) : task.Hurt i := by
  cases task with
  | reporting | raising | unwinding => trivial
  | _ => exact absurd trivial h

namespace Thread

variable {walk : Walk σ ν} {o : Others} {t : Thread σ ν} {s : Shared σ ν} {m : Moved σ ν}

/-- A thread that is hurt stays so until it raises the flag, or it is a worker that ends. -/
theorem Does.hurt (h : Does walk o t s m) {i : ThreadId} (caller : o.caller = (i == 0))
    (hurt : t.task.Hurt i) :
    m.shared.store.raised = true ∨ m.thread.task.Hurt i ∨
      ∃ p, m.thread.task = .ended (.error (.panicked p)) := by
  cases h with
  | report => exact .inr (.inl trivial)
  | raiseScan | raiseClose | raiseOutside | raiseJoin => exact .inl rfl
  | unwindCaller hcaller => exact .inr (.inl ⟨by simpa [hcaller] using caller.symm, rfl⟩)
  | unwindWorker => exact .inr (.inl rfl)
  | release => exact .inr (.inl hurt)
  | @endRelease _ _ _ result =>
    rcases result with (e | p) | ⟨⟨⟩⟩
    · cases hurt
    · exact .inr (.inr ⟨p, rfl⟩)
    · cases hurt
  | _ => exact hurt.elim

/-- Whoever waits for a worker that has died goes on waiting for it until it finds that out, or
dies itself. -/
theorem Does.waitsFor_dead (h : Does walk o t s m) {i : ThreadId} (caller : o.caller = (i == 0))
    (placed : t.task.Placed i t.stack) {j : ThreadId} {d : Dir} {p : Panic} (waits : j ∈ t.waitsFor)
    (dead : o.ended? j = some (d, .error (.panicked p))) :
    j ∈ m.thread.waitsFor ∨ m.thread.task.Hurt i := by
  cases h with
  | joinDead | failListing | dieListing | dieActing | dieCall | failActing | report =>
    exact .inr trivial
  | unwindCaller hcaller => exact .inr ⟨by simpa [hcaller] using caller.symm, rfl⟩
  | unwindWorker => exact .inr rfl
  | @join _ _ _ w ws home result s ended alive =>
    left
    rw [mem_waitsFor] at waits ⊢
    rcases waits with hj | hj
    · rcases List.mem_cons.mp hj with rfl | hj
      · rw [ended] at dead
        cases dead
        exact absurd rfl (alive p)
      · exact .inl hj
    · exact .inr hj
  | finishActing =>
    left
    rw [mem_waitsFor] at waits ⊢
    rw [Site.waitsFor_onward]
    exact waits
  | _ =>
    left
    rw [mem_waitsFor] at *
    simp_all [Task.waitsFor, Resume.waitsFor, Task.Placed] <;> grind

/-- The calling thread ends well only while the flag is down. -/
theorem Does.down_of_ok (h : Does walk o t s m) (placed : t.task.Placed 0 t.stack)
    (done : m.thread.task.result? = some (.ok ())) : m.shared.store.raised = false := by
  cases h with
  | settleWell down => exact down
  | endRelease => exact absurd rfl placed.1
  | finishActing =>
    rw [Site.result?_onward] at done
    cases done
  | _ => cases done

end Thread

namespace World

variable {f : Forest} {walk : Walk σ ν} {meddle : Flagged σ → Flagged σ → Prop} {plan : WalkPlan}
  {root : Dir} {store : Flagged σ} {state : ν} {tr : Trace} {w w' : World σ ν}

/-- A failure that the flag does not tell of yet: somebody is hurt, or waits for a worker that
has died. -/
def Pending (w : World σ ν) : Prop :=
  ∃ (i : Nat) (t : Thread σ ν), w.threads[i]? = some t ∧
    (t.task.Hurt i ∨ ∃ j d p, j ∈ t.waitsFor ∧ w.ended? j = some (d, .error (.panicked p)))

/-- A failure is pending until the flag goes up. -/
theorem Pending.step (pending : w.Pending) (kin : w.Kin) {i : Nat} {room : Bool} {e : Event}
    (h : w.step walk i room = some (e, w')) : w'.shared.store.raised = true ∨ w'.Pending := by
  obtain ⟨t, m, ht, hdoes, rfl, rfl⟩ := step_eq_some h
  obtain ⟨k, u, hu, hpending⟩ := pending
  have halive := hdoes.result?_eq_none
  have hmoved : (w.update i m).threads[i]? = some m.thread := getElem?_update_self ht m
  rw [shared_update]
  by_cases hk : k = i
  case neg =>
    refine .inr ⟨k, u, getElem?_update_of_ne ht m hu hk, hpending.imp_right fun h => ?_⟩
    obtain ⟨j, d, p, hj, hdead⟩ := h
    exact ⟨j, d, p, hj, ended?_mono ht halive m hdead⟩
  case pos =>
    subst hk
    obtain rfl : u = t := Option.some.inj (hu.symm.trans ht)
    rcases hpending with hhurt | ⟨j, d, p, hj, hdead⟩
    · rcases hdoes.hurt rfl hhurt with hup | hhurt' | ⟨p, hended⟩
      · exact .inl hup
      · exact .inr ⟨k, m.thread, hmoved, .inl hhurt'⟩
      · by_cases hcaller : k = 0
        · exact .inr ⟨k, m.thread, hmoved, .inl (hended ▸ ⟨hcaller, rfl⟩)⟩
        · -- A worker that dies is waited for by somebody else, who has not moved.
          obtain ⟨i, v, hv, hwaits⟩ :=
            kin.awaited k hcaller (lt_size ht) (by simp [ended?, ht, halive])
          have hne : i ≠ k := Nat.ne_of_lt (kin.newer i v hv k hwaits).1
          have hother := getElem?_update_of_ne ht m hv hne
          refine .inr ⟨i, v, hother, .inr ⟨k, m.thread.home, p, hwaits, ?_⟩⟩
          simp [ended?_update ht, hended, Task.result?]
    · rcases hdoes.waitsFor_dead rfl (kin.placed k u ht) hj hdead with hwaits | hhurt
      · exact .inr ⟨k, m.thread, hmoved, .inr ⟨j, d, p, hwaits, ended?_mono ht halive m hdead⟩⟩
      · exact .inr ⟨k, m.thread, hmoved, .inl hhurt⟩

/-- So it is if requests do not lower the flag: known or pending, and never lost. -/
theorem Run.stays_pending (run : Run walk meddle (.initial plan root store state) tr w)
    (requests : walk.metadata.Within Flagged.Keeps) {i : ThreadId} {room : Bool} {e : Event}
    (h : w.step walk i room = some (e, w')) (pending : w.shared.store.raised = true ∨ w.Pending) :
    w'.shared.store.raised = true ∨ w'.Pending := by
  rcases pending with hup | hpending
  · exact .inl (run.stays_up requests h hup)
  · exact hpending.step ((Kin.initial plan root store state).of_run run) h

/-- While the flag is down and no failure is pending nothing was lost. -/
theorem Run.whole (run : Run walk meddle (.initial plan root store state) tr w)
    (requests : walk.metadata.Within Flagged.Keeps) (meddled : ∀ s s', meddle s s' → s.Keeps s')
    (agrees : tr.Agrees f) (ω : Moment → Nat) (down : w.shared.store.raised = false) :
    w.Pending ∨ f.weigh ω root = tr.weight ω + w.total (Thread.outlook f ω) := by
  induction run with
  | nil =>
    right
    have hfresh : (World.initial plan root store state).total (Thread.outlook f ω) =
        (Thread.fresh root : Thread σ ν).outlook f ω + 0 := rfl
    rw [hfresh, Thread.outlook_fresh]
    simp [Trace.weight]
  | @step tr w w' i room e run hstep ih =>
    have hkin := (Kin.initial plan root store state).of_run run
    have hpending : w.Pending → w'.Pending := by
      intro h
      refine (h.step hkin hstep).resolve_left ?_
      simp [down]
    obtain ⟨t, m, ht, hdoes, rfl, rfl⟩ := step_eq_some hstep
    rw [shared_update] at down
    have hdown := hdoes.keeps (run.within requests i t ht) down
    rcases ih agrees.init hdown with hold | hwhole
    · exact .inl (hpending hold)
    by_cases hcalm : t.task.Calm
    case neg => exact .inl (hpending ⟨i, t, ht, .inl (Task.hurt_of_not_calm hcalm i)⟩)
    by_cases hcalm' : m.thread.task.Calm
    case neg =>
      refine .inl ⟨i, m.thread, ?_, .inl (Task.hurt_of_not_calm hcalm' i)⟩
      simp [getElem?_update ht]
    obtain ⟨lost, hlost, hnone⟩ := hdoes.outlook f ω (hkin.placed i t ht) agrees.last
    obtain ⟨rest, hrest, hupdate⟩ := total_update (Thread.outlook f ω) ht
    simp only [Thread.outlook_fresh] at hupdate
    right
    rw [hwhole, hrest, hlost, hnone hdown hcalm hcalm', hupdate, Trace.weight_append]
    abel
  | @outside tr w s run hchange ih =>
    have hdown : w.shared.store.raised = false := by
      by_contra hup
      rw [Bool.not_eq_false] at hup
      exact absurd ((meddled _ _ hchange hup).symm.trans down) (by simp)
    exact ih agrees hdown

/-- When a walk has ended well no failure is pending. -/
theorem Kin.not_pending (kin : w.Kin) (done : w.result? = some (.ok ())) : ¬ w.Pending := by
  intro h
  obtain ⟨i, t, ht, hpending⟩ := h
  obtain ⟨r, hr⟩ := kin.ended_of_result (by simp [done]) i t ht
  rcases hpending with hhurt | ⟨j, d, p, hj, -⟩
  · rw [Task.eq_ended_of_result? hr] at hhurt
    obtain ⟨rfl, hpanic⟩ := hhurt
    simp only [result?, ended?, ht, hr, Option.map_some, Option.some.injEq] at done
    subst done
    cases hpanic
  · simp [Thread.waitsFor_of_ended (kin.placed i t ht) hr] at hj

/-- When a walk has ended nothing is before it. -/
private theorem Kin.nothing_ahead (kin : w.Kin) (done : w.result?.isSome) (ω : Moment → Nat) :
    w.total (Thread.outlook f ω) = 0 := by
  refine List.sum_eq_zero fun n hn => ?_
  obtain ⟨t, ht, rfl⟩ := List.mem_map.mp hn
  obtain ⟨i, hi⟩ := List.getElem?_of_mem ht
  obtain ⟨r, hr⟩ := kin.ended_of_result done i t (by simpa using hi)
  simp [Thread.outlook, Task.eq_ended_of_result? hr, Task.outlook]

/-- A walk that has ended well has found the flag down with its last step. -/
theorem Run.exists_down_of_ok (run : Run walk meddle (.initial plan root store state) tr w)
    (done : w.result? = some (.ok ())) :
    ∃ s, s.raised = false ∧
      Run walk meddle (.initial plan root store state) tr (w.withStore s) := by
  induction run with
  | nil => cases done
  | outside _ _ ih => exact ih done
  | @step tr w w' i room e run hstep _ =>
    have hkin := (Kin.initial plan root store state).of_run run
    refine ⟨w'.shared.store, ?_, run.step hstep⟩
    obtain ⟨t, m, ht, hdoes, rfl, rfl⟩ := step_eq_some hstep
    obtain ⟨rfl, -, hdone⟩ := caller_of_result hkin ht hdoes.result?_eq_none done
    rw [shared_update]
    exact hdoes.down_of_ok (hkin.placed 0 t ht) hdone

/-- A walk that has ended well has come to all there is. -/
theorem Run.weight_eq_of_ok (run : Run walk meddle (.initial plan root store state) tr w)
    (requests : walk.metadata.Within Flagged.Keeps) (meddled : ∀ s s', meddle s s' → s.Keeps s')
    (agrees : tr.Agrees f) (ω : Moment → Nat) (done : w.result? = some (.ok ())) :
    tr.weight ω = f.weigh ω root := by
  obtain ⟨s, hdown, hrun⟩ := run.exists_down_of_ok done
  have hkin := (Kin.initial plan root store state).of_run hrun
  have hdone : (w.withStore s).result? = some (.ok ()) := done
  have hwhole := hrun.whole requests meddled agrees ω hdown
  rw [hwhole.resolve_left (hkin.not_pending hdone), hkin.nothing_ahead (by simp [hdone]),
    Nat.add_zero]

/-- A walk that has ended well has come to each moment as often as it is due. -/
theorem Run.count_eq_due (run : Run walk meddle (.initial plan root store state) tr w)
    (requests : walk.metadata.Within Flagged.Keeps) (meddled : ∀ s s', meddle s s' → s.Keeps s')
    (agrees : tr.Agrees f) (nodup : (f.dirs root).Nodup) (done : w.result? = some (.ok ()))
    (mo : Moment) : tr.countP (fun shown => shown.2.moment? = some mo) = mo.due f root := by
  rw [← Trace.weight_only, ← Forest.weigh_only nodup]
  exact run.weight_eq_of_ok requests meddled agrees mo.only done

/-- No walk comes to a moment more often than it is due. -/
theorem Run.count_le_due (run : Run walk meddle (.initial plan root store state) tr w)
    (agrees : tr.Agrees f) (nodup : (f.dirs root).Nodup) (mo : Moment) :
    tr.countP (fun shown => shown.2.moment? = some mo) ≤ mo.due f root := by
  obtain ⟨lost, hlost⟩ := run.weigh_eq agrees mo.only
  rw [← Trace.weight_only, ← Forest.weigh_only nodup]
  omega

end World

/-- The directory that a thread has come to and not begun to list. -/
def Task.entering? : Task σ ν → Option Dir
  | .checking d => some d
  | .asking d => some d
  | .claiming d _ => some d
  | .spawning d => some d
  | .returning d _ => some d
  | _ => none

namespace Thread

variable {walk : Walk σ ν} {o : Others} {t : Thread σ ν} {s : Shared σ ν} {m : Moved σ ν}

/-- A thread comes to a directory by visiting it. -/
theorem Does.entering (h : Does walk o t s m) {d : Dir}
    (enters : m.thread.task.entering? = some d) : t.task.entering? = some d ∨
      ∃ b e, m.event = .acted (.visit b e) (.ok ()) ∧ e.kind.isDir = true ∧ Dir.ofEntry e = d := by
  cases h with
  | check | claim | grant | stayInline | missSpawn | «return» | endReturn => exact .inl enters
  | @finishActing _ _ site =>
    rcases site with ⟨b, e⟩ | b
    · by_cases hd : e.kind.isDir = true <;> simp only [Site.onward, hd, if_true, if_false,
        Bool.false_eq_true, Task.entering?, Option.some.injEq, reduceCtorEq] at enters
      exact .inr ⟨b, e, rfl, hd, enters⟩
    · cases enters
  | _ => cases enters

/-- A worker is started for the directory that its starter has come to. -/
theorem Does.child_entering (h : Does walk o t s m) {d : Dir} (child : m.child = some d) :
    t.task.entering? = some d := by
  cases h with
  | spawn | spawnOutside => exact child
  | _ => cases child

theorem Does.of_listing (h : Does walk o t s m) {d : Dir} (listing : m.event = .listing d) :
    t.task.entering? = some d := by
  cases h with
  | beginListing =>
    cases listing
    rfl
  | _ => cases listing

end Thread

/-- The directory is the root, or was visited where it is listed. -/
def Trace.Reached (f : Forest) (root : Dir) (tr : Trace) (c : Dir) : Prop :=
  c = root ∨ ∃ d ∈ f.dirs root, ∃ e ∈ f.listing d.inode, e.kind.isDir = true ∧
    Dir.ofEntry e = c ∧ tr.Shows (.acted (.visit d e) (.ok ()))

theorem Trace.Reached.append {f : Forest} {root : Dir} {tr : Trace} {c : Dir}
    (h : tr.Reached f root c) (later : Trace) : Trace.Reached f root (tr ++ later) c := by
  rcases h with hroot | ⟨d, hd, e, he, hdir, hc, hshown⟩
  · exact .inl hroot
  · exact .inr ⟨d, hd, e, he, hdir, hc, hshown.append later⟩

theorem Dir.ofEntry_inj {e e' : Entry} (h : e.kind.isDir = true) (h' : e'.kind.isDir = true)
    (heq : Dir.ofEntry e = Dir.ofEntry e') : e = e' := by
  obtain ⟨name, inode, parent, kind⟩ := e
  obtain ⟨name', inode', parent', kind'⟩ := e'
  obtain ⟨rfl, rfl, rfl⟩ := Dir.mk.inj heq
  cases kind with
  | file => cases h
  | dir =>
    cases kind' with
    | file => cases h'
    | dir => rfl

namespace World

variable {f : Forest} {walk : Walk σ ν} {meddle : Flagged σ → Flagged σ → Prop} {plan : WalkPlan}
  {root : Dir} {store : Flagged σ} {state : ν} {tr : Trace} {w w' : World σ ν}

/-- A directory that a thread has come to is reached. -/
theorem Run.reached (run : Run walk meddle (.initial plan root store state) tr w)
    (agrees : tr.Agrees f) :
    ∀ (i : Nat) (t : Thread σ ν), w.threads[i]? = some t → ∀ c, t.task.entering? = some c →
      tr.Reached f root c := by
  induction run with
  | nil =>
    intro i t ht c hc
    obtain ⟨rfl, rfl⟩ := eq_of_initial ht
    exact .inl (Option.some.inj hc).symm
  | outside _ _ ih => exact ih agrees
  | @step tr w w' i room e run hstep ih =>
    have hbelongs : ∀ {b e'}, e = .acted (.visit b e') (.ok ()) →
        b ∈ f.dirs root ∧ e' ∈ f.listing b.inode := by
      intro b e' he
      subst he
      have hshown : Trace.Shows (tr ++ [(i, .acted (.visit b e') (.ok ()))])
          (.acted (.visit b e') (.ok ())) := ⟨i, by simp⟩
      exact (run.step hstep).belongs agrees hshown rfl
    obtain ⟨t, m, ht, hdoes, rfl, rfl⟩ := step_eq_some hstep
    have hold := ih agrees.init
    refine forall_update ht ?mover ?child fun j u _ hu c hc => (hold j u hu c hc).append _
    case mover =>
      intro c hc
      rcases hdoes.entering hc with hbefore | ⟨b, e, hevent, hdir, hc⟩
      · exact (hold i t ht c hbefore).append _
      · obtain ⟨hb, he⟩ := hbelongs hevent
        exact .inr ⟨b, hb, e, he, hdir, hc, i, by simp [hevent]⟩
    case child =>
      intro d hd c hc
      obtain rfl : d = c := Option.some.inj hc
      exact (hold i t ht d (hdoes.child_entering hd)).append _

/-- A subdirectory is listed after it was visited. -/
theorem Run.visited_of_listing (run : Run walk meddle (.initial plan root store state) tr w)
    (agrees : tr.Agrees f) (nodup : (f.dirs root).Nodup) {before after : Trace} {i : ThreadId}
    {d : Dir} {e : Entry} (split : tr = before ++ (i, .listing (.ofEntry e)) :: after)
    (hd : d ∈ f.dirs root) (he : e ∈ f.listing d.inode) (isDir : e.kind.isDir = true) :
    before.Shows (.acted (.visit d e) (.ok ())) := by
  obtain ⟨w₁, w₂, room, hrun, hstep⟩ := run.exists_split split
  obtain ⟨t, m, ht, hdoes, hevent, -⟩ := step_eq_some hstep
  have hagrees : before.Agrees f := fun x hx => agrees x (by simp [split, hx])
  have hmem := Forest.ofEntry_mem_subdirs he isDir
  rcases hrun.reached hagrees i t ht _ (hdoes.of_listing hevent) with
    hroot | ⟨b, hb, e', he', isDir', heq, hshown⟩
  · exact absurd (hroot ▸ hmem) (Forest.not_mem_subdirs_of_mem_dirs hd)
  · obtain rfl := Dir.ofEntry_inj isDir' isDir heq
    obtain rfl := Forest.holder_unique nodup hb hd (Forest.ofEntry_mem_subdirs he' isDir) hmem
    exact hshown

end World

/-- Something has failed in some directory. -/
def Trace.Fails (tr : Trace) : Prop :=
  ∃ d e, tr.Shows e ∧ e.FailsAt d

theorem Trace.Fails.append {tr : Trace} (h : tr.Fails) (later : Trace) :
    Trace.Fails (tr ++ later) := by
  obtain ⟨d, e, hshown, hfails⟩ := h
  exact ⟨d, e, hshown.append later, hfails⟩

/-- Whoever shows a failure is hurt. -/
theorem Thread.Does.hurt_of_fails {walk : Walk σ ν} {o : Others} {t : Thread σ ν} {s : Shared σ ν}
    {m : Moved σ ν} (h : Does walk o t s m) {d : Dir} (fails : m.event.FailsAt d) (i : ThreadId) :
    m.thread.task.Hurt i := by
  cases h with
  | failListing | dieListing | failActing | dieActing | dieCall => trivial
  | _ => cases fails

namespace World

variable {walk : Walk σ ν} {meddle : Flagged σ → Flagged σ → Prop} {plan : WalkPlan}
  {root : Dir} {store : Flagged σ} {state : ν} {tr : Trace} {w : World σ ν}

/-- A failure that was shown is pending until the flag goes up. -/
theorem Run.pending_of_fails (run : Run walk meddle (.initial plan root store state) tr w)
    (requests : walk.metadata.Within Flagged.Keeps) (meddled : ∀ s s', meddle s s' → s.Keeps s')
    (fails : tr.Fails) : w.shared.store.raised = true ∨ w.Pending := by
  induction run with
  | nil =>
    obtain ⟨d, e, ⟨i, hi⟩, -⟩ := fails
    cases hi
  | outside _ hchange ih => exact (ih fails).imp_left (meddled _ _ hchange)
  | @step tr w w' i room e run hstep ih =>
    obtain ⟨d, shown, ⟨j, hj⟩, hfails⟩ := fails
    rcases List.mem_append.mp hj with hold | hnew
    · exact run.stays_pending requests hstep (ih ⟨d, shown, ⟨j, hold⟩, hfails⟩)
    · obtain ⟨t, m, ht, hdoes, rfl, rfl⟩ := step_eq_some hstep
      obtain ⟨rfl, rfl⟩ := Prod.mk.inj (List.mem_singleton.mp hnew)
      exact .inr ⟨j, m.thread, getElem?_update_self ht m, .inl (hdoes.hurt_of_fails hfails j)⟩

/-- A walk that has ended well has shown no failure. -/
theorem Run.not_fails_of_ok (run : Run walk meddle (.initial plan root store state) tr w)
    (requests : walk.metadata.Within Flagged.Keeps) (meddled : ∀ s s', meddle s s' → s.Keeps s')
    (done : w.result? = some (.ok ())) : ¬ tr.Fails := by
  intro hfails
  obtain ⟨s, hdown, hrun⟩ := run.exists_down_of_ok done
  rcases hrun.pending_of_fails requests meddled hfails with hup | hpending
  · exact absurd (hup.symm.trans hdown) (by simp)
  · exact ((Kin.initial plan root store state).of_run hrun).not_pending done hpending

end World

/-- The thread leaves a failure. -/
def Task.Reports : Task σ ν → Prop
  | .reporting _ _ => True
  | .raising _ => True
  | _ => False

/-- The visitor is about to call the walk off. -/
def Task.Cancels : Task σ ν → Prop
  | .acting _ (.cancel _) => True
  | _ => False

namespace Thread

variable {walk : Walk σ ν} {o : Others} {t : Thread σ ν} {s : Shared σ ν} {m : Moved σ ν}

/-- A failure is reported and kept because something has failed, or a worker has died, or because
the visitor has left it itself. -/
theorem Does.reports (h : Does walk o t s m)
    (reports : m.thread.task.Reports ∨ m.shared.failure ≠ none) :
    (t.task.Reports ∨ s.failure ≠ none) ∨ (∃ d, m.event.FailsAt d) ∨
      (∃ j d p, o.ended? j = some (d, .error (.panicked p))) ∨ m.thread.task.Cancels := by
  cases h with
  | failListing => exact .inr (.inl ⟨_, .listing⟩)
  | failActing => exact .inr (.inl ⟨_, .acting⟩)
  | joinDead dead => exact .inr (.inr (.inl ⟨_, _, _, dead⟩))
  | offer => exact .inr (.inr (.inr trivial))
  | take => exact absurd rfl (reports.resolve_left id)
  | report | raiseScan | raiseClose | raiseOutside | raiseJoin => exact .inl (.inl trivial)
  | concludeFailed kept => exact .inl (.inr (by simp [kept]))
  | @finishActing _ _ site =>
    exact .inl (.inr (reports.resolve_left
      (site.onward_ind (P := fun task => ¬ task.Reports) (fun _ => id) id)))
  | _ => exact .inl (.inr (reports.resolve_left id))

/-- Whoever is about to call the walk off does so with its next step. -/
theorem Does.raised_of_cancels (h : Does walk o t s m) (cancels : t.task.Cancels) :
    m.shared.store.raised = true := by
  cases h with
  | cancel => rfl
  | _ => cases cancels

/-- How the calling thread ends. -/
theorem Does.result_cases (h : Does walk o t s m) (placed : t.task.Placed 0 t.stack)
    {r : Outcome Unit} (done : m.thread.task.result? = some r) :
    r = .ok () ∨ m.shared.store.raised = true ∨ s.failure ≠ none ∨ t.task.Dead := by
  cases h with
  | settleWell => exact .inl (Option.some.inj done).symm
  | settleCancelled raised => exact .inr (.inl raised)
  | concludeFailed kept => exact .inr (.inr (.inl (by simp [kept])))
  | unwindCaller => exact .inr (.inr (.inr trivial))
  | endRelease => exact absurd rfl placed.1
  | finishActing =>
    rw [Site.result?_onward] at done
    cases done
  | _ => cases done

end Thread

namespace World

variable {f : Forest} {walk : Walk σ ν} {meddle : Flagged σ → Flagged σ → Prop} {plan : WalkPlan}
  {root : Dir} {store : Flagged σ} {state : ν} {tr : Trace} {w w' : World σ ν}

/-- The walk is called off, or somebody is about to do that. -/
def CalledOff (w : World σ ν) : Prop :=
  w.shared.store.raised = true ∨
    ∃ (i : Nat) (t : Thread σ ν), w.threads[i]? = some t ∧ t.task.Cancels

theorem CalledOff.step (off : w.CalledOff) {k : ThreadId} {room : Bool} {t : Thread σ ν}
    {m : Moved σ ν} (ht : w.threads[k]? = some t) (hdoes : t.Does walk (w.others k room) w.shared m)
    (within : t.task.Within Flagged.Keeps) : (w.update k m).CalledOff := by
  rcases off with hup | ⟨i, u, hu, hcancels⟩
  · left
    rw [shared_update]
    by_contra hdown
    rw [Bool.not_eq_true] at hdown
    exact absurd (hup.symm.trans (hdoes.keeps within hdown)) (by simp)
  · by_cases hi : i = k
    · subst hi
      obtain rfl := Option.some.inj (hu.symm.trans ht)
      left
      rw [shared_update]
      exact hdoes.raised_of_cancels hcancels
    · exact .inr ⟨i, u, getElem?_update_of_ne ht m hu hi, hcancels⟩

/-- When the walk has ended whoever was about to call it off has done so. -/
theorem CalledOff.raised (off : w.CalledOff) (kin : w.Kin) (done : w.result?.isSome) :
    w.shared.store.raised = true := by
  rcases off with hup | ⟨i, t, ht, hcancels⟩
  · exact hup
  · obtain ⟨r, hr⟩ := kin.ended_of_result done i t ht
    rw [Task.eq_ended_of_result? hr] at hcancels
    exact hcancels.elim

/-- A failure that is reported or kept was shown, or the visitor has left it and so calls the walk
off. -/
theorem Run.fails_of_reports (run : Run walk meddle (.initial plan root store state) tr w)
    (requests : walk.metadata.Within Flagged.Keeps) (meddled : ∀ s s', meddle s s' → s.Keeps s')
    (agrees : tr.Agrees f)
    (reports : w.shared.failure ≠ none ∨
      ∃ (i : Nat) (t : Thread σ ν), w.threads[i]? = some t ∧ t.task.Reports) :
    tr.Fails ∨ w.CalledOff := by
  induction run with
  | nil =>
    rcases reports with hkept | ⟨i, t, ht, hreports⟩
    · exact absurd rfl hkept
    · obtain ⟨rfl, rfl⟩ := eq_of_initial ht
      exact hreports.elim
  | outside _ hchange ih =>
    exact (ih agrees reports).imp_right (Or.imp_left (meddled _ _ hchange))
  | @step tr w w' i room e run hstep ih =>
    obtain ⟨t, m, ht, hdoes, rfl, rfl⟩ := step_eq_some hstep
    have hold := fun h => (ih agrees.init h).imp (fun h => h.append [(i, m.event)])
      fun off => off.step ht hdoes (run.within requests i t ht)
    have hmoved : m.thread.task.Reports ∨ m.shared.failure ≠ none →
        Trace.Fails (tr ++ [(i, m.event)]) ∨ (w.update i m).CalledOff := by
      intro h
      rcases hdoes.reports h with (hreports | hkept) | ⟨d, hfails⟩ | ⟨j, d, p, hdead⟩ | hcancels
      · exact hold (.inr ⟨i, t, ht, hreports⟩)
      · exact hold (.inl hkept)
      · exact .inl ⟨d, m.event, ⟨i, by simp⟩, hfails⟩
      · change w.ended? j = _ at hdead
        obtain ⟨u, hu, -, hresult⟩ := ended?_eq_some hdead
        have hdying : u.task.Dead := by
          rw [Task.eq_ended_of_result? hresult]
          rfl
        obtain ⟨d, -, e, hshown, hfails⟩ := run.fails_of_dead agrees.init j u hu hdying
        exact .inl ⟨d, e, hshown.append _, hfails⟩
      · exact .inr (.inr ⟨i, m.thread, getElem?_update_self ht m, hcancels⟩)
    rcases reports with hkept | ⟨j, u, hu, hreports⟩
    · rw [shared_update] at hkept
      exact hmoved (.inr hkept)
    · exact forall_update ht (fun h => hmoved (.inl h)) (fun _ _ h => h.elim)
        (fun j u _ hu h => hold (.inr ⟨j, u, hu, h⟩)) j u hu hreports

/-- A walk ends well, or the flag is up, or something has failed. -/
theorem Run.result_cases (run : Run walk meddle (.initial plan root store state) tr w)
    (requests : walk.metadata.Within Flagged.Keeps) (meddled : ∀ s s', meddle s s' → s.Keeps s')
    (agrees : tr.Agrees f) {r : Outcome Unit} (done : w.result? = some r) :
    r = .ok () ∨ w.shared.store.raised = true ∨ tr.Fails := by
  induction run with
  | nil => cases done
  | outside _ hchange ih =>
    rcases ih agrees done with hok | hup | hfails
    · exact .inl hok
    · exact .inr (.inl (meddled _ _ hchange hup))
    · exact .inr (.inr hfails)
  | @step tr w w' i room e run hstep ih =>
    obtain ⟨t, m, ht, hdoes, rfl, rfl⟩ := step_eq_some hstep
    have hkin := (Kin.initial plan root store state).of_run run
    have hended : (w.update i m).result?.isSome := by simp [done]
    rw [shared_update]
    rw [result?, ended?_update ht] at done
    by_cases hi : 0 = i
    · subst hi
      rw [if_pos rfl] at done
      have hdone : m.thread.task.result? = some r := by simpa using done
      rcases hdoes.result_cases (hkin.placed 0 t ht) hdone with hok | hup | hkept | hdead
      · exact .inl hok
      · exact .inr (.inl hup)
      · rcases run.fails_of_reports requests meddled agrees.init (.inl hkept) with hfails | hoff
        · exact .inr (.inr (hfails.append _))
        · right
          left
          rw [← shared_update]
          exact (hoff.step ht hdoes (run.within requests 0 t ht)).raised (hkin.step hstep) hended
      · obtain ⟨d, -, e, hshown, hfails⟩ := run.fails_of_dead agrees.init 0 t ht hdead
        exact .inr (.inr ⟨d, e, hshown.append _, hfails⟩)
    · rw [if_neg hi] at done
      rcases ih agrees.init done with hok | hup | hfails
      · exact .inl hok
      · refine .inr (.inl ?_)
        by_contra hdown
        rw [Bool.not_eq_true] at hdown
        rw [hdoes.keeps (run.within requests i t ht) hdown] at hup
        cases hup
      · exact .inr (.inr (hfails.append _))

end World

/-- However a procedure ends, its result is good. -/
def Proc.Ends {α : Type} (good : α → Prop) : Proc σ α → Prop
  | .done a => good a
  | .step _ next => ∀ s, (next s).Ends good

/-- The listing under way brings what the forest lists, or nothing. -/
def Task.Lists (f : Forest) : Task σ ν → Prop
  | .listing d rest => rest.Ends fun outcome => ∀ es, outcome = .ok es → es = f.listing d.inode
  | _ => True

theorem Thread.Does.lists {f : Forest} {walk : Walk σ ν} {o : Others} {t : Thread σ ν}
    {s : Shared σ ν} {m : Moved σ ν} (h : Does walk o t s m)
    (answers : ∀ d : Dir,
      (walk.metadata.call (.listEntries walk.plan.fs d.inode walk.plan.epoch)).Ends
        fun outcome => ∀ es, outcome = .ok es → es = f.listing d.inode)
    (lists : t.task.Lists f) : m.thread.task.Lists f := by
  cases h with
  | beginListing => exact answers _
  | stepListing => exact lists _
  | finishActing => exact Site.onward_ind _ (fun _ => trivial) trivial
  | _ => trivial

namespace World

variable {f : Forest} {walk : Walk σ ν} {meddle : Flagged σ → Flagged σ → Prop} {plan : WalkPlan}
  {root : Dir} {store : Flagged σ} {state : ν} {tr : Trace} {w w' : World σ ν}

/-- Listings that bring what a forest lists, whatever state they find, agree with the forest. -/
theorem Run.agrees_of_answers (run : Run walk meddle (.initial plan root store state) tr w)
    (answers : ∀ d : Dir,
      (walk.metadata.call (.listEntries walk.plan.fs d.inode walk.plan.epoch)).Ends
        fun outcome => ∀ es, outcome = .ok es → es = f.listing d.inode) :
    tr.Agrees f := by
  induction run with
  | nil => exact fun _ h => absurd h List.not_mem_nil
  | outside _ _ ih => exact ih
  | @step tr w w' i room e run hstep ih =>
    have hlists := run.forall_threads (P := fun t => t.task.Lists f) (fun _ => trivial)
      fun hdoes => hdoes.lists answers
    obtain ⟨t, m, ht, hdoes, rfl, rfl⟩ := step_eq_some hstep
    intro shown hshown
    rcases List.mem_append.mp hshown with hold | hnew
    · exact ih shown hold
    · rw [List.mem_singleton.mp hnew]
      refine hdoes.agrees fun d es htask => ?_
      have h := hlists i t ht
      rw [htask] at h
      exact h es rfl

/-- A walk through a tree whose flag is not lowered comes to each listing, each visit and each
leaving once at most, and lists a subdirectory after it was visited.  If it ends well it has
come to all of them, and it does end well if the flag is down in the end and nothing has failed.
It has an outcome whenever its threads get to move again and again. -/
theorem walk_complete (requests : walk.metadata.Within Flagged.Keeps)
    (meddled : ∀ s s', meddle s s' → s.Keeps s')
    (lists : ∀ tr w, Run walk meddle (.initial walk.plan root store state) tr w → tr.Agrees f)
    (tree : ((f.dirs root).map Dir.inode).Nodup) :
    (∀ tr w, Run walk meddle (.initial walk.plan root store state) tr w →
      (∀ mo, tr.countP (fun shown => shown.2.moment? = some mo) ≤ mo.due f root) ∧
      (∀ (before : Trace) i d e after, tr = before ++ (i, .listing (.ofEntry e)) :: after →
        d ∈ f.dirs root → e ∈ f.listing d.inode → e.kind.isDir = true →
        before.Shows (.acted (.visit d e) (.ok ()))) ∧
      (w.result? = some (.ok ()) →
        ∀ mo, tr.countP (fun shown => shown.2.moment? = some mo) = mo.due f root) ∧
      (∀ r, w.result? = some r → w.shared.store.raised = false → ¬ tr.Fails → r = .ok ())) ∧
    ∀ schedule : Schedule (Flagged σ), schedule.Within meddle → schedule.Fair →
      ∃ bound, ∀ budget, bound ≤ budget → ∃ tr w r,
        (World.initial walk.plan root store state).drive walk schedule budget 0 = w ∧
        Run walk meddle (.initial walk.plan root store state) tr w ∧ w.result? = some r := by
  have nodup := List.Nodup.of_map _ tree
  refine ⟨fun tr w run => ?_, fun schedule within fair => ?_⟩
  · have hagrees := lists tr w run
    refine ⟨run.count_le_due hagrees nodup, ?_, ?_, ?_⟩
    · intro before i d e after split hd he isDir
      exact run.visited_of_listing hagrees nodup split hd he isDir
    · exact run.count_eq_due requests meddled hagrees nodup
    · intro r hr down hfine
      rcases run.result_cases requests meddled hagrees hr with hok | hup | hfails
      · exact hok
      · exact absurd (hup.symm.trans down) (by simp)
      · exact absurd hfails hfine
  · obtain ⟨bound, hbound⟩ := exists_result_of_fair within fair (.initial ..) lists
    refine ⟨bound, fun budget hbudget => ?_⟩
    obtain ⟨r, hr⟩ := hbound budget hbudget
    obtain ⟨tr, run⟩ := exists_run_drive within .nil budget 0
    exact ⟨tr, _, r, rfl, run, hr⟩

end World

/-- A table lists what a forest lists, if that is what is written down in it. -/
theorem Table.ends_listEntries (t : Table) {f : Forest} (fs : FsId) (i : Inode) (epoch : Epoch)
    (lists : ∀ es, t.listings[i]? = some es → es = f.listing i) :
    (t.metadata.call (.listEntries fs i epoch)).Ends
      fun outcome => ∀ es, outcome = .ok es → es = f.listing i := by
  intro s es h
  change t.outcome _ = _ at h
  unfold Table.outcome at h
  cases hhalt : t.script.halt? (Request.listEntries fs i epoch).key with
  | some halt => simp [hhalt] at h
  | none =>
    cases hfound : t.listings[i]? with
    | none => simp [hhalt, Table.answer, Table.found, hfound] at h
    | some es' =>
      simp only [hhalt, Table.answer, Table.found, hfound, Except.ok.injEq] at h
      exact h ▸ lists es' hfound

theorem Walk.answers_oneDir (d : Dir) :
    (Walk.oneDir.metadata.call
      (.listEntries Walk.oneDir.plan.fs d.inode Walk.oneDir.plan.epoch)).Ends
        fun outcome => ∀ es, outcome = .ok es → es = Forest.oneDir.listing d.inode := by
  refine Table.ends_listEntries _ _ _ _ fun es h => ?_
  simp only [Std.TreeMap.getElem?_insert, Std.TreeMap.getElem?_emptyc, compare_eq_iff_eq] at h
  change es = if d.inode = 1 then [⟨"a", 2, 1, .dir⟩] else []
  grind

/-- The walk through the root and its subdirectory ends well, and so it is complete. -/
theorem World.walk_complete_oneDir :
    (World.oneDir 31).result? = some (.ok ()) ∧ ∃ tr,
      Run Walk.oneDir (fun _ _ => False) (World.oneDir 0) tr (World.oneDir 31) ∧
      ∀ mo, tr.countP (fun shown => shown.2.moment? = some mo) =
        mo.due .oneDir ⟨rootInode, 0, ""⟩ := by
  have hdone : (World.oneDir 31).result? = some (.ok ()) := rfl
  have hwithin : (Schedule.newestFirst : Schedule (Flagged (List String))).Within
      fun _ _ => False := fun _ _ h => nomatch h
  have hstart : Run Walk.oneDir (fun _ _ => False) (World.oneDir 0) [] (World.oneDir 0) := .nil
  obtain ⟨tr, run⟩ := exists_run_drive hwithin hstart 31 0
  have hlists : ∀ tr w, Run Walk.oneDir (fun _ _ => False)
      (.initial Walk.oneDir.plan ⟨rootInode, 0, ""⟩ ⟨[], false⟩ []) tr w →
      tr.Agrees .oneDir := fun tr w run => run.agrees_of_answers Walk.answers_oneDir
  obtain ⟨hruns, -⟩ := walk_complete (Table.metadata_within _) (fun _ _ h => h.elim) hlists
    (by decide)
  exact ⟨hdone, tr, run, (hruns tr _ run).2.2.1 hdone⟩

end ShardSweep
