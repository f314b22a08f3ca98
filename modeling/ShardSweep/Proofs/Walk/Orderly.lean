import ShardSweep.Proofs.Walk.Flag
import ShardSweep.Proofs.Walk.Outlook

/-!
# What a thread has behind it

While the flag is down everything that a thread has behind it went well: the directories on
its stack were listed, their entries up to now were visited, and each visited subdirectory was
left, is where the thread is now, or is the home of a worker that is still waited for.  A
thread that knows of a failure makes no such promise, but it raises the flag before it takes
anything new, and a worker that died is found out before its directory is left.  So a
directory is left only after all that is below it.

* `Task.Orderly`: what holds of a thread while the flag is down;
* `Thread.Does.orderly`: a step keeps it;
* `World.Run.orderly`: it holds throughout a run;
* `World.Run.ready`: a visitor that leaves a directory finds all in order below it.
-/

namespace ShardSweep

variable {σ ν : Type}

namespace Trace

/-- The directory was left, and this went well. -/
def Left (tr : Trace) (d : Dir) : Prop :=
  tr.Shows (.acted (.leave d) (.ok ()))

/-- Everything that has to come before leaving a directory went well. -/
structure Ready (f : Forest) (tr : Trace) (d : Dir) : Prop where
  listed : tr.Shows (.listed d (.ok (f.listing d.inode)))
  visited : ∀ e ∈ f.listing d.inode, tr.Shows (.acted (.visit d e) (.ok ()))
  left : ∀ c ∈ f.subdirs d, tr.Left c

end Trace

/-- A visited entry is done with, if it is no directory, or was left, or is where the thread is
now, or is the home of one of the workers. -/
def Entry.Settled (tr : Trace) (homes : ThreadId → Option Dir) (now : Option Dir)
    (workers : List ThreadId) (e : Entry) : Prop :=
  e.kind.isDir = true → tr.Left (.ofEntry e) ∨ now = some (.ofEntry e) ∨
    ∃ j ∈ workers, homes j = some (.ofEntry e)

/-- The entries of a directory up to now went well. -/
structure Frame.Orderly (f : Forest) (tr : Trace) (homes : ThreadId → Option Dir)
    (now : Option Dir) (fr : Frame) : Prop where
  listed : tr.Shows (.listed fr.dir (.ok (f.listing fr.dir.inode)))
  visited : ∃ seen, f.listing fr.dir.inode = seen ++ fr.entries ∧ ∀ e ∈ seen,
    tr.Shows (.acted (.visit fr.dir e) (.ok ())) ∧ e.Settled tr homes now fr.workers

/-- All on the way from the home of a thread to where it is now went well. -/
def Forest.Orderly (f : Forest) (tr : Trace) (homes : ThreadId → Option Dir) (home : Dir) :
    Option Dir → List Frame → Prop
  | none, [] => tr.Left home
  | some d, [] => d = home
  | now, fr :: fs => fr.Orderly f tr homes now ∧ f.Orderly tr homes home (some fr.dir) fs

/-- The same for a thread whose visitor is at a place; an entry that it has come to counts as
one still to be visited. -/
def Site.Orderly (f : Forest) (tr : Trace) (homes : ThreadId → Option Dir) (home : Dir)
    (stack : List Frame) : Site → Prop
  | .visit d e => ∃ es ws fs, stack = ⟨d, es, ws⟩ :: fs ∧
    f.Orderly tr homes home none (⟨d, e :: es, ws⟩ :: fs)
  | .leave d => f.Orderly tr homes home none (⟨d, [], []⟩ :: stack)

/-- All that a thread has behind it went well, unless it knows of a failure. -/
def Task.Orderly (f : Forest) (tr : Trace) (homes : ThreadId → Option Dir) (home : Dir)
    (stack : List Frame) : Task σ ν → Prop
  | .checking d => f.Orderly tr homes home (some d) stack
  | .asking d => f.Orderly tr homes home (some d) stack
  | .listing d _ => f.Orderly tr homes home (some d) stack
  | .scanning => f.Orderly tr homes home none stack
  | .acting site _ => site.Orderly f tr homes home stack
  | .calling site _ _ _ => site.Orderly f tr homes home stack
  | .claiming d _ => f.Orderly tr homes home (some d) stack
  | .spawning d => f.Orderly tr homes home (some d) stack
  | .returning d _ => f.Orderly tr homes home (some d) stack
  | .reporting _ _ => True
  | .raising _ => True
  | .closing d ws => f.Orderly tr homes home none (⟨d, [], ws⟩ :: stack)
  | .unwinding _ => True
  | .releasing _ result => result = .ok () → tr.Left home
  | .concluding => tr.Left home
  | .settling => tr.Left home
  | .ended result => result = .ok () → tr.Left home

/-- A directory is in order by itself, and those outside of it wait for it. -/
theorem Forest.orderly_cons {f : Forest} {tr : Trace} {homes : ThreadId → Option Dir} {home : Dir}
    {now : Option Dir} {fr : Frame} {fs : List Frame} :
    f.Orderly tr homes home now (fr :: fs) ↔
      fr.Orderly f tr homes now ∧ f.Orderly tr homes home (some fr.dir) fs := by
  cases now <;> exact Iff.rfl

section Monotone

variable {f : Forest} {tr tr' : Trace} {homes homes' : ThreadId → Option Dir}

/-- More was shown, and there are more threads. -/
structure Trace.Extends (tr' : Trace) (homes' : ThreadId → Option Dir) (tr : Trace)
    (homes : ThreadId → Option Dir) : Prop where
  shows : ∀ e, tr.Shows e → tr'.Shows e
  homes : ∀ j d, homes j = some d → homes' j = some d

variable (more : Trace.Extends tr' homes' tr homes)

include more

/-- What an entry has come to it stays at when more is shown. -/
theorem Entry.Settled.mono {now : Option Dir} {ws : List ThreadId} {e : Entry}
    (h : e.Settled tr homes now ws) : e.Settled tr' homes' now ws := by
  intro hd
  rcases h hd with hleft | hnow | ⟨j, hj, hhome⟩
  · exact .inl (more.shows _ hleft)
  · exact .inr (.inl hnow)
  · exact .inr (.inr ⟨j, hj, more.homes j _ hhome⟩)

/-- The same of a directory that a thread is inside. -/
theorem Frame.Orderly.mono {now : Option Dir} {fr : Frame} (h : fr.Orderly f tr homes now) :
    fr.Orderly f tr' homes' now := by
  obtain ⟨hlisted, seen, hseen, hvisited⟩ := h
  refine ⟨more.shows _ hlisted, seen, hseen, ?_⟩
  intro e he
  exact ⟨more.shows _ (hvisited e he).1, (hvisited e he).2.mono more⟩

theorem Forest.Orderly.mono {home : Dir} {now : Option Dir} {stack : List Frame}
    (h : f.Orderly tr homes home now stack) : f.Orderly tr' homes' home now stack := by
  induction stack generalizing now with
  | nil =>
    cases now with
    | none => exact more.shows _ h
    | some d => exact h
  | cons fr fs ih =>
    rw [Forest.orderly_cons] at h ⊢
    exact ⟨h.1.mono more, ih h.2⟩

/-- The same of where a visitor acts. -/
theorem Site.Orderly.mono {home : Dir} {stack : List Frame} {site : Site}
    (h : site.Orderly f tr homes home stack) : site.Orderly f tr' homes' home stack := by
  cases site with
  | visit d e =>
    obtain ⟨es, ws, fs, hstack, horderly⟩ := h
    exact ⟨es, ws, fs, hstack, horderly.mono more⟩
  | leave d => exact Forest.Orderly.mono more h

/-- The same of a task. -/
theorem Task.Orderly.mono {home : Dir} {stack : List Frame} {task : Task σ ν}
    (h : task.Orderly f tr homes home stack) : task.Orderly f tr' homes' home stack := by
  cases task with
  | acting => exact Site.Orderly.mono more h
  | calling => exact Site.Orderly.mono more h
  | reporting | raising | unwinding => trivial
  | releasing => exact fun hok => more.shows _ (h hok)
  | ended => exact fun hok => more.shows _ (h hok)
  | concluding => exact more.shows _ h
  | settling => exact more.shows _ h
  | _ => exact Forest.Orderly.mono more h

end Monotone

namespace Forest.Orderly

variable {f : Forest} {tr : Trace} {homes : ThreadId → Option Dir} {home : Dir}

/-- A thread that has left a directory is done with it. -/
theorem leave {d : Dir} {stack : List Frame} (h : f.Orderly tr homes home (some d) stack)
    (left : tr.Left d) : f.Orderly tr homes home none stack := by
  cases stack with
  | nil =>
    obtain rfl : d = home := h
    exact left
  | cons fr fs =>
    obtain ⟨⟨hlisted, seen, hseen, hvisited⟩, hrest⟩ := h
    refine ⟨⟨hlisted, seen, hseen, ?_⟩, hrest⟩
    intro e he
    refine ⟨(hvisited e he).1, ?_⟩
    intro hd
    rcases (hvisited e he).2 hd with hleft | hnow | hworker
    · exact .inl hleft
    · exact .inl (Option.some.inj hnow ▸ left)
    · exact .inr (.inr hworker)

/-- A thread goes into a directory that it has listed. -/
theorem enter {d : Dir} {stack : List Frame} (h : f.Orderly tr homes home (some d) stack)
    (listed : tr.Shows (.listed d (.ok (f.listing d.inode)))) :
    f.Orderly tr homes home none (⟨d, f.listing d.inode, []⟩ :: stack) :=
  ⟨⟨listed, [], rfl, fun _ he => absurd he List.not_mem_nil⟩, h⟩

/-- A thread that has visited an entry goes on, into the entry if it is a directory. -/
theorem advance {d : Dir} {e : Entry} {es : List Entry} {ws : List ThreadId} {fs : List Frame}
    (h : f.Orderly tr homes home none (⟨d, e :: es, ws⟩ :: fs))
    (visited : tr.Shows (.acted (.visit d e) (.ok ()))) {now : Option Dir}
    (into : e.kind.isDir = true → now = some (.ofEntry e)) :
    f.Orderly tr homes home now (⟨d, es, ws⟩ :: fs) := by
  obtain ⟨⟨hlisted, seen, hseen, hvisited⟩, hrest⟩ := h
  refine Forest.orderly_cons.mpr ⟨⟨hlisted, seen ++ [e], by simpa using hseen, ?_⟩, hrest⟩
  intro e' he'
  rcases List.mem_append.mp he' with he' | he'
  · refine ⟨(hvisited e' he').1, ?_⟩
    intro hd
    rcases (hvisited e' he').2 hd with hleft | hnow | hworker
    · exact .inl hleft
    · cases hnow
    · exact .inr (.inr hworker)
  · obtain rfl := List.mem_singleton.mp he'
    exact ⟨visited, fun hd => .inr (.inl (into hd))⟩

/-- A worker takes a directory over. -/
theorem handOver {c d : Dir} {es : List Entry} {ws : List ThreadId} {fs : List Frame}
    (h : f.Orderly tr homes home (some d) (⟨c, es, ws⟩ :: fs)) {j : ThreadId}
    (worker : homes j = some d) :
    f.Orderly tr homes home none (⟨c, es, ws ++ [j]⟩ :: fs) := by
  obtain ⟨⟨hlisted, seen, hseen, hvisited⟩, hrest⟩ := h
  refine ⟨⟨hlisted, seen, hseen, ?_⟩, hrest⟩
  intro e he
  refine ⟨(hvisited e he).1, ?_⟩
  intro hd
  rcases (hvisited e he).2 hd with hleft | hnow | ⟨k, hk, hhome⟩
  · exact .inl hleft
  · exact .inr (.inr ⟨j, by simp, worker.trans hnow⟩)
  · exact .inr (.inr ⟨k, List.mem_append_left _ hk, hhome⟩)

/-- A worker that has left its home is not needed any more. -/
theorem join {d h : Dir} {es : List Entry} {j : ThreadId} {ws : List ThreadId} {fs : List Frame}
    (orderly : f.Orderly tr homes home none (⟨d, es, j :: ws⟩ :: fs)) (worker : homes j = some h)
    (left : tr.Left h) : f.Orderly tr homes home none (⟨d, es, ws⟩ :: fs) := by
  obtain ⟨⟨hlisted, seen, hseen, hvisited⟩, hrest⟩ := orderly
  refine ⟨⟨hlisted, seen, hseen, ?_⟩, hrest⟩
  intro e he
  refine ⟨(hvisited e he).1, ?_⟩
  intro hd
  rcases (hvisited e he).2 hd with hleft | hnow | ⟨k, hk, hhome⟩
  · exact .inl hleft
  · cases hnow
  · rcases List.mem_cons.mp hk with rfl | hk
    · exact .inl (Option.some.inj (worker.symm.trans hhome) ▸ left)
    · exact .inr (.inr ⟨k, hk, hhome⟩)

/-- A directory without entries and workers is ready to be left. -/
theorem ready {d : Dir} {fs : List Frame}
    (h : f.Orderly tr homes home none (⟨d, [], []⟩ :: fs)) : tr.Ready f d := by
  obtain ⟨⟨hlisted, seen, hseen, hvisited⟩, -⟩ := h
  rw [List.append_nil] at hseen
  refine ⟨hlisted, ?_, ?_⟩
  · intro e he
    exact (hvisited e (hseen ▸ he)).1
  · intro c hc
    obtain ⟨e, he, hd, rfl⟩ := Forest.mem_subdirs.mp hc
    rcases (hvisited e (hseen ▸ he)).2 hd with hleft | hnow | ⟨j, hj, -⟩
    · exact hleft
    · cases hnow
    · cases hj

end Forest.Orderly

/-- When a visit or a leaving went well, so has all that is behind the thread. -/
theorem Site.Orderly.onward {f : Forest} {tr : Trace} {homes : ThreadId → Option Dir} {home : Dir}
    {stack : List Frame} {site : Site} (h : site.Orderly f tr homes home stack)
    (acted : tr.Shows (.acted site (.ok ()))) :
    (site.onward : Task σ ν).Orderly f tr homes home stack := by
  cases site with
  | visit d e =>
    obtain ⟨es, ws, fs, rfl, horderly⟩ := h
    by_cases hd : e.kind.isDir = true
    · simp only [Site.onward, hd, if_true]
      exact horderly.advance acted fun _ => rfl
    · simp only [Site.onward, hd, if_false, Bool.false_eq_true]
      exact horderly.advance acted fun hdir => absurd hdir hd
  | leave d => exact h.2.leave acted

namespace Thread

variable {walk : Walk σ ν} {o : Others} {t : Thread σ ν} {s : Shared σ ν} {m : Moved σ ν}

/-- A step that leaves the flag down keeps all in order, if the workers that ended well have
left their homes. -/
theorem Does.orderly (h : Does walk o t s m) {f : Forest} {tr : Trace} {i : ThreadId}
    {homes homes' : ThreadId → Option Dir} (placed : t.task.Placed i t.stack)
    (down : s.store.raised = false)
    (down' : m.shared.store.raised = false) (agrees : m.event.Agrees f)
    (child : ∀ d, m.child = some d → homes' o.fresh = some d)
    (joined : ∀ j ∈ t.waitsFor, ∀ d result, o.ended? j = some (d, result) →
      (∀ p, result ≠ .error (.panicked p)) → homes' j = some d ∧ tr.Left d)
    (more : ∀ j d, homes j = some d → homes' j = some d)
    (orderly : t.task.Orderly f tr homes t.home t.stack) :
    m.thread.task.Orderly f (tr ++ [(i, m.event)]) homes' m.thread.home m.thread.stack := by
  have hmore : Trace.Extends (tr ++ [(i, m.event)]) homes' tr homes :=
    ⟨fun e he => he.append _, more⟩
  have hshown : Trace.Shows (tr ++ [(i, m.event)]) m.event := ⟨i, by simp⟩
  have hmono := orderly.mono hmore
  cases h with
  | skipListing raised | giveUp raised | skipLeaving raised => simp [raised] at down
  | raiseScan | raiseClose | raiseOutside | raiseJoin => cases down'
  | @endListing home fs d es =>
    obtain rfl := agrees d es rfl
    exact Forest.Orderly.enter hmono hshown
  | visit => exact ⟨_, _, _, rfl, hmono⟩
  | finishActing => exact Site.Orderly.onward hmono hshown
  | spawn => exact Forest.Orderly.handOver hmono (child _ rfl)
  | spawnOutside => exact absurd rfl placed
  | join ended alive =>
    obtain ⟨hhome, hleft⟩ := joined _ (by simp [waitsFor, Task.waitsFor]) _ _ ended alive
    exact Forest.Orderly.join hmono hhome (hleft.append _)
  | failListing | dieListing | failActing | dieActing | dieCall | report | joinDead => trivial
  | unwindCaller | unwindWorker | concludeFailed | settleCancelled =>
    intro hok
    cases hok
  | goHome | settleWell => exact fun _ => hmono
  | _ => exact hmono

end Thread

/-- Only who has ended has a result. -/
theorem Task.eq_ended_of_result? {task : Task σ ν} {result : Outcome Unit}
    (h : task.result? = some result) : task = .ended result := by
  cases task <;> simp_all [Task.result?]

/-- The place where the visitor of a thread is. -/
def Task.site? : Task σ ν → Option Site
  | .acting site _ => some site
  | .calling site _ _ _ => some site
  | _ => none

namespace Thread

variable {walk : Walk σ ν} {o : Others} {t : Thread σ ν} {s : Shared σ ν} {m : Moved σ ν}

/-- Who is at a site was there before, or has just begun to act there. -/
theorem Does.site_cases (h : Does walk o t s m) {site : Site}
    (now : m.thread.task.site? = some site) :
    t.task.site? = some site ∨ m.event = .acting site := by
  cases h with
  | @finishActing _ _ site' =>
    exact absurd now (site'.onward_ind (P := fun task => task.site? ≠ some site) nofun nofun)
  | visit | leave => exact .inr (congrArg Event.acting (Option.some.inj now))
  | update | cancel | look | offer | lookFailed | take | beginCall | stepCall | endCall |
      failCall =>
    exact .inl now
  | _ => cases now

/-- A directory is left with the flag down, once no worker is waited for. -/
theorem Does.of_leave (h : Does walk o t s m) {d : Dir} (leave : m.event = .acting (.leave d)) :
    t.task = .closing d [] ∧ s.store.raised = false := by
  cases h with
  | leave down =>
    cases leave
    exact ⟨rfl, down⟩
  | _ => cases leave

/-- Who has just acted at a site was there. -/
theorem Does.of_acted (h : Does walk o t s m) {site : Site} {outcome : Outcome Unit}
    (acted : m.event = .acted site outcome) : t.task.site? = some site := by
  cases h with
  | finishActing | failActing | dieActing =>
    cases acted
    rfl
  | _ => cases acted

end Thread

namespace World

/-- The homes of the threads. -/
def homes (w : World σ ν) (j : ThreadId) : Option Dir :=
  w.threads[j]?.map Thread.home

/-- A thread keeps its home when a step is taken. -/
theorem homes_update {w : World σ ν} {i : Nat} {t : Thread σ ν} (ht : w.threads[i]? = some t)
    {m : Moved σ ν} (home : m.thread.home = t.home) (j : Nat) (d : Dir)
    (h : w.homes j = some d) : (w.update i m).homes j = some d := by
  obtain ⟨u, hu, rfl⟩ := Option.map_eq_some_iff.mp h
  have hsize := lt_size hu
  unfold homes
  rw [getElem?_update ht]
  by_cases hj : j = i
  · subst hj
    obtain rfl : u = t := Option.some.inj (hu.symm.trans ht)
    simp [home]
  · rw [if_neg hj, if_neg (Nat.ne_of_lt hsize), hu]
    rfl

/-- A new thread has its directory as its home. -/
theorem homes_fresh {w : World σ ν} {i : Nat} {t : Thread σ ν} (ht : w.threads[i]? = some t)
    {m : Moved σ ν} {d : Dir} (child : m.child = some d) :
    (w.update i m).homes w.threads.size = some d := by
  have hi := lt_size ht
  unfold homes
  rw [getElem?_update ht, if_neg (Nat.ne_of_gt hi), if_pos rfl, child]
  rfl

variable {f : Forest} {walk : Walk σ ν} {meddle : Flagged σ → Flagged σ → Prop} {plan : WalkPlan}
  {root : Dir} {store : Flagged σ} {state : ν} {tr : Trace} {w : World σ ν}

/-- A worker that ended, and not by dying, has left its home. -/
private theorem left_of_ended (kin : w.Kin)
    (orderly : ∀ (i : Nat) (t : Thread σ ν), w.threads[i]? = some t →
      t.task.Orderly f tr w.homes t.home t.stack) {j : Nat} (hj : j ≠ 0) {d : Dir}
    {result : Outcome Unit} (ended : w.ended? j = some (d, result))
    (alive : ∀ p, result ≠ .error (.panicked p)) : w.homes j = some d ∧ tr.Left d := by
  unfold World.ended? at ended
  cases hu : w.threads[j]? with
  | none => simp [hu] at ended
  | some u =>
    simp only [hu, Option.map_eq_some_iff, Prod.mk.injEq] at ended
    obtain ⟨result', hresult, rfl, rfl⟩ := ended
    have htask := Task.eq_ended_of_result? hresult
    have placed := kin.placed j u hu
    have horderly := orderly j u hu
    rw [htask] at placed horderly
    refine ⟨by simp [homes, hu], horderly ?_⟩
    rcases result' with (e | p) | ⟨⟨⟩⟩
    · exact absurd rfl (placed.2 hj e)
    · exact absurd rfl (alive p)
    · rfl

/-- While the flag is down every thread has left all in order. -/
theorem Run.orderly (run : Run walk meddle (.initial plan root store state) tr w)
    (requests : walk.metadata.Within Flagged.Keeps)
    (meddled : ∀ s s', meddle s s' → s.Keeps s') (agrees : tr.Agrees f)
    (down : w.shared.store.raised = false) :
    ∀ (i : Nat) (t : Thread σ ν), w.threads[i]? = some t →
      t.task.Orderly f tr w.homes t.home t.stack := by
  induction run with
  | nil =>
    intro i t ht
    obtain ⟨rfl, rfl⟩ := eq_of_initial ht
    rfl
  | @step tr w w' i room e run hstep ih =>
    obtain ⟨t, m, ht, hdoes, rfl, rfl⟩ := step_eq_some hstep
    rw [shared_update] at down
    have hkin := (Kin.initial plan root store state).of_run run
    have hdown := hdoes.keeps (run.within requests i t ht) down
    have hold := ih agrees.init hdown
    have hhomes := homes_update (m := m) ht hdoes.home_eq
    have hmore : Trace.Extends (tr ++ [(i, m.event)]) (w.update i m).homes tr w.homes :=
      ⟨fun e he => he.append _, hhomes⟩
    refine forall_update ht ?mover ?child fun j u _ hu => (hold j u hu).mono hmore
    case mover =>
      refine hdoes.orderly (hkin.placed i t ht) hdown down agrees.last ?_ ?_ hhomes (hold i t ht)
      · exact fun d hd => homes_fresh ht hd
      · intro j hj d result hended alive
        have hij := (hkin.newer i t ht j hj).1
        obtain ⟨hhome, hleft⟩ := left_of_ended hkin hold (by omega) hended alive
        exact ⟨hhomes j d hhome, hleft⟩
    case child => exact fun d _ => rfl
  | outside _ hchange ih =>
    apply ih agrees
    by_contra hup
    rw [Bool.not_eq_false] at hup
    have hraised := meddled _ _ hchange hup
    exact absurd (hraised.symm.trans down) (by simp)

/-- A visitor that leaves a directory finds all in order below it, also if somebody has raised
the flag in the meantime. -/
theorem Run.ready (run : Run walk meddle (.initial plan root store state) tr w)
    (requests : walk.metadata.Within Flagged.Keeps)
    (meddled : ∀ s s', meddle s s' → s.Keeps s') (agrees : tr.Agrees f) {d : Dir} :
    ∀ (i : Nat) (t : Thread σ ν), w.threads[i]? = some t → t.task.site? = some (.leave d) →
      tr.Ready f d := by
  induction run with
  | nil =>
    intro i t ht hsite
    obtain ⟨rfl, rfl⟩ := eq_of_initial ht
    cases hsite
  | @step tr w w' i room e run hstep ih =>
    obtain ⟨t, m, ht, hdoes, rfl, rfl⟩ := step_eq_some hstep
    have hold := ih agrees.init
    have hready : tr.Ready f d → Trace.Ready f (tr ++ [(i, m.event)]) d := fun h =>
      ⟨h.listed.append _, fun e he => (h.visited e he).append _, fun c hc => (h.left c hc).append _⟩
    refine forall_update ht ?_ (fun _ _ h => nomatch h)
      fun j u _ hu hsite => hready (hold j u hu hsite)
    intro hsite
    apply hready
    rcases hdoes.site_cases hsite with hsame | hevent
    · exact hold i t ht hsame
    · obtain ⟨htask, hdown⟩ := hdoes.of_leave hevent
      have horderly := run.orderly requests meddled agrees.init hdown i t ht
      rw [htask] at horderly
      exact Forest.Orderly.ready horderly
  | outside _ _ ih => exact ih agrees

end World

end ShardSweep
