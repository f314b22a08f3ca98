import ShardSweep.Proofs.Walk.Run

/-!
# Who waits for whom

A thread waits for the workers it started, and these are newer than itself.  A worker
that has not ended is waited for by somebody who has not ended either, so the calling
thread ends last, and the newest thread that has not ended waits for nobody.

* `Thread.exists_awaits`: a thread that cannot go on waits for a worker, and for nothing else;
* `World.Run.forall_threads`: what each step of a thread keeps holds throughout a run;
* `World.Kin`: how the threads stand to each other throughout a run;
* `World.Kin.all_ended`: once the calling thread has ended, or waits for nobody, the others
  have ended;
* `World.Kin.exists_step`: a walk that has no outcome yet can always go on.
-/

namespace ShardSweep

variable {σ ν : Type}

/-- The workers that are still waited for after a failure. -/
def Resume.waitsFor : Resume → List ThreadId
  | .scan => []
  | .close => []
  | .join _ ws => ws

/-- The workers that a task waits for. -/
def Task.waitsFor : Task σ ν → List ThreadId
  | .reporting _ resume => resume.waitsFor
  | .raising resume => resume.waitsFor
  | .closing _ ws => ws
  | _ => []

/-- A visitor is at an entry of the innermost directory. -/
def Site.Placed (stack : List Frame) : Site → Prop
  | .visit d _ => ∃ es ws fs, stack = ⟨d, es, ws⟩ :: fs
  | .leave _ => True

/-- There is a directory to give up. -/
def Resume.Placed (stack : List Frame) : Resume → Prop
  | .scan => True
  | .close => stack ≠ []
  | .join _ _ => True

/-- A thread is inside a directory where its task needs one, and thread `i` ends the way
the calling thread or a worker ends. -/
def Task.Placed (i : ThreadId) (stack : List Frame) : Task σ ν → Prop
  | .acting site _ => site.Placed stack
  | .calling site _ _ _ => site.Placed stack
  | .claiming _ _ => stack ≠ []
  | .spawning _ => stack ≠ []
  | .returning _ _ => stack ≠ []
  | .reporting _ resume => resume.Placed stack
  | .raising resume => resume.Placed stack
  | .concluding => i = 0 ∧ stack = []
  | .settling => i = 0 ∧ stack = []
  | .releasing _ r => i ≠ 0 ∧ stack = [] ∧ ∀ e, r ≠ .error (.failed e)
  | .ended r => stack = [] ∧ (i ≠ 0 → ∀ e, r ≠ .error (.failed e))
  | _ => True

namespace Site

@[simp] theorem waitsFor_onward (site : Site) : (site.onward : Task σ ν).waitsFor = [] :=
  site.onward_ind (P := fun task => task.waitsFor = []) (fun _ => rfl) rfl

@[simp] theorem result?_onward (site : Site) : (site.onward : Task σ ν).result? = none :=
  site.onward_ind (P := fun task => task.result? = none) (fun _ => rfl) rfl

@[simp] theorem waitsFor_afterFailure (site : Site) : site.afterFailure.waitsFor = [] := by
  cases site <;> rfl

/-- What follows an action finds the stack as the action left it. -/
theorem Placed.onward {site : Site} {stack : List Frame} (h : site.Placed stack) (i : ThreadId) :
    (site.onward : Task σ ν).Placed i stack := by
  cases site with
  | visit d e =>
    obtain ⟨es, ws, fs, rfl⟩ := h
    by_cases hd : e.kind.isDir = true <;> simp [Site.onward, hd, Task.Placed]
  | leave d => trivial

/-- So does what follows a failed action. -/
theorem Placed.afterFailure {site : Site} {stack : List Frame} (h : site.Placed stack) :
    site.afterFailure.Placed stack := by
  cases site with
  | visit d e =>
    obtain ⟨es, ws, fs, rfl⟩ := h
    exact List.cons_ne_nil _ _
  | leave d => trivial

end Site

namespace Thread

/-- The workers that a thread has started and not waited for. -/
def waitsFor (t : Thread σ ν) : List ThreadId :=
  t.task.waitsFor ++ t.stack.flatMap Frame.workers

/-- A thread waits for workers of its task and of the directories it is inside. -/
theorem mem_waitsFor {t : Thread σ ν} {j : ThreadId} :
    j ∈ t.waitsFor ↔ j ∈ t.task.waitsFor ∨ ∃ fr ∈ t.stack, j ∈ fr.workers := by
  simp [waitsFor]

variable {walk : Walk σ ν} {o : Others} {t : Thread σ ν} {s : Shared σ ν} {m : Moved σ ν}

/-- A step leaves the task and the stack in keeping with each other. -/
theorem Does.placed {i : ThreadId} (h : Does walk o t s m) (caller : o.caller = (i == 0))
    (placed : t.task.Placed i t.stack) : m.thread.task.Placed i m.thread.stack := by
  cases h with
  | finishActing => exact Site.Placed.onward placed i
  | failActing => exact Site.Placed.afterFailure placed
  | _ => simp_all [Task.Placed, Site.Placed, Resume.Placed]

/-- A thread stops waiting for a worker only once the worker has ended. -/
theorem Does.waitsFor_kept (h : Does walk o t s m) {i : ThreadId}
    (placed : t.task.Placed i t.stack) {j : ThreadId} (hj : j ∈ t.waitsFor) :
    j ∈ m.thread.waitsFor ∨ (o.ended? j).isSome := by
  rw [mem_waitsFor] at *
  cases h with
  | finishActing =>
    left
    rw [Site.waitsFor_onward]
    exact hj
  | failActing =>
    left
    simpa only [Task.waitsFor, Site.waitsFor_afterFailure] using hj
  | _ => simp_all [Task.waitsFor, Resume.waitsFor, Task.Placed] <;> grind

/-- A thread begins to wait for fresh workers only. -/
theorem Does.waitsFor_new (h : Does walk o t s m) {j : ThreadId} (hj : j ∈ m.thread.waitsFor) :
    j ∈ t.waitsFor ∨ (j = o.fresh ∧ m.child.isSome) := by
  rw [mem_waitsFor] at *
  cases h with
  | finishActing =>
    left
    rw [Site.waitsFor_onward] at hj
    exact hj
  | failActing =>
    left
    simpa only [Task.waitsFor, Site.waitsFor_afterFailure] using hj
  | _ => simp_all [Task.waitsFor, Resume.waitsFor] <;> grind

/-- Whoever starts a worker waits for it. -/
theorem Does.fresh_mem_waitsFor (h : Does walk o t s m) {i : ThreadId}
    (placed : t.task.Placed i t.stack) (child : m.child.isSome) : o.fresh ∈ m.thread.waitsFor := by
  rw [mem_waitsFor]
  cases h <;> simp_all [Task.Placed]

/-- Only a thread that has not ended takes a step. -/
theorem Does.result?_eq_none (h : Does walk o t s m) : t.task.result? = none := by
  cases h <;> rfl

/-- Who has ended waits for nobody. -/
theorem waitsFor_of_ended {i : ThreadId} {result : Outcome Unit}
    (placed : t.task.Placed i t.stack) (ended : t.task.result? = some result) :
    t.waitsFor = [] := by
  obtain ⟨home, stack, task⟩ := t
  cases task <;> simp_all [Task.result?, Task.Placed, waitsFor, Task.waitsFor]

/-- The thread cannot go on before worker `j` has ended: it closes the directory at which it has
started the worker, or it is dying inside that directory. -/
inductive Awaits (t : Thread σ ν) (j : ThreadId) (d : Dir) : Prop
  | closing {ws} (task : t.task = .closing d (j :: ws))
  | dying {p es ws} (task : t.task = .unwinding p) (inside : ⟨d, es, ws⟩ ∈ t.stack) (worker : j ∈ ws)

/-- A worker whose directory is awaited is one that the thread waits for. -/
theorem Awaits.mem_waitsFor {j : ThreadId} {d : Dir} (h : t.Awaits j d) : j ∈ t.waitsFor := by
  rw [Thread.mem_waitsFor]
  cases h with
  | closing task => exact .inl (by simp [task, Task.waitsFor])
  | dying _ inside worker => exact .inr ⟨_, inside, worker⟩

/-- A thread that cannot go on waits for a worker that has not ended. -/
theorem exists_awaits (alive : t.task.result? = none) (stuck : t.step walk o s = none) :
    ∃ j d, t.Awaits j d ∧ o.ended? j = none := by
  obtain ⟨home, stack, task⟩ := t
  cases task with
  | closing d ws =>
    rcases ws with _ | ⟨j, ws⟩
    · simp only [step, stepClosing] at stuck
      split at stuck <;> cases stuck
    · refine ⟨j, d, .closing rfl, ?_⟩
      rcases hj : o.ended? j with _ | ⟨home, (e | p) | ⟨⟨⟩⟩⟩
      · rfl
      all_goals simp [step, stepClosing, hj, quietly] at stuck
  | unwinding p =>
    have hfalse : (⟨home, stack, .unwinding p⟩ : Thread σ ν).workersEnded o = false := by
      by_contra hall
      simp [step, hall, quietly] at stuck
    obtain ⟨⟨d, es, ws⟩, hfr, hws⟩ := List.all_eq_false.mp hfalse
    obtain ⟨j, hj, hnone⟩ : ∃ j ∈ ws, o.ended? j = none := by simpa using hws
    exact ⟨j, d, .dying rfl hfr hj, hnone⟩
  | listing d rest => rcases rest with ((e | p) | es) | ⟨change, next⟩ <;> cases stuck
  | acting site a =>
    rcases a with (e | ⟨⟨⟩⟩) | p | ⟨change, next⟩ | next | next | ⟨r, next⟩ <;> cases stuck
  | calling site r rest next =>
    rcases rest with ((e | p) | a) | ⟨change, rest⟩ <;> cases stuck
  | claiming d c => simp only [step, stepClaiming] at stuck; split at stuck <;> cases stuck
  | spawning d => simp only [step, stepSpawning] at stuck; split at stuck <;> cases stuck
  | returning d r => simp only [step, stepReturning] at stuck; split at stuck <;> cases stuck
  | releasing r result => simp only [step, stepReleasing] at stuck; split at stuck <;> cases stuck
  | scanning =>
    rcases stack with _ | ⟨⟨d, _ | ⟨e, es⟩, ws⟩, fs⟩ <;> simp only [step, stepScanning] at stuck
    · split at stuck <;> cases stuck
    · cases stuck
    · split at stuck <;> cases stuck
  | checking d => simp only [step] at stuck; split at stuck <;> cases stuck
  | concluding => simp only [step] at stuck; split at stuck <;> cases stuck
  | settling => simp only [step] at stuck; split at stuck <;> cases stuck
  | ended result => cases alive
  | asking d => cases stuck
  | reporting e resume => cases stuck
  | raising resume => cases stuck

/-- A thread that waits for nobody who is still at work can go on. -/
theorem exists_step (alive : t.task.result? = none)
    (free : ∀ j ∈ t.waitsFor, (o.ended? j).isSome) : ∃ m, t.step walk o s = some m := by
  cases hstep : t.step walk o s with
  | some m => exact ⟨m, rfl⟩
  | none =>
    obtain ⟨j, d, hawaits, hnone⟩ := exists_awaits alive hstep
    have hended := free j hawaits.mem_waitsFor
    rw [hnone] at hended
    cases hended

end Thread

namespace World

/-- Who is known to have ended is there, with that home and that result. -/
theorem ended?_eq_some {w : World σ ν} {j : ThreadId} {d : Dir} {r : Outcome Unit}
    (h : w.ended? j = some (d, r)) :
    ∃ t, w.threads[j]? = some t ∧ t.home = d ∧ t.task.result? = some r := by
  unfold ended? at h
  cases ht : w.threads[j]? with
  | none => simp [ht] at h
  | some t =>
    simp only [ht, Option.map_eq_some_iff, Prod.mk.injEq] at h
    obtain ⟨r', hr, hhome, rfl⟩ := h
    exact ⟨t, rfl, hhome, hr⟩

/-- Which threads have ended after a step. -/
theorem ended?_update {w : World σ ν} {i : ThreadId} {t : Thread σ ν}
    (h : w.threads[i]? = some t) (m : Moved σ ν) (j : ThreadId) :
    (w.update i m).ended? j =
      if j = i then m.thread.task.result?.map fun result => (m.thread.home, result)
      else w.ended? j := by
  unfold ended?
  rw [getElem?_update h]
  by_cases hj : j = i
  · simp [hj]
  · by_cases hs : j = w.threads.size
    · cases m.child <;> simp [hs, Ne.symm (Nat.ne_of_lt (lt_size h)), Thread.fresh, Task.result?]
    · simp [hj, hs]

/-- Who has ended has ended for good. -/
theorem ended?_mono {w : World σ ν} {i : Nat} {t : Thread σ ν} (ht : w.threads[i]? = some t)
    (alive : t.task.result? = none) (m : Moved σ ν) {j : Nat} {x : Dir × Outcome Unit}
    (ended : w.ended? j = some x) : (w.update i m).ended? j = some x := by
  rw [ended?_update ht]
  by_cases hj : j = i
  · subst hj
    simp [ended?, ht, alive] at ended
  · rwa [if_neg hj]

/-- A step may take the thread off the list and put a new one on it. -/
theorem live_update (w : World σ ν) (i : ThreadId) (m : Moved σ ν) :
    (w.update i m).live =
      let started := if m.child.isSome then w.threads.size :: w.live else w.live
      if m.thread.task.result?.isSome then started.erase i else started := by
  unfold update retire spawn
  cases m.child <;> cases m.thread.task.result? <;> simp

/-- A step starts at most one thread. -/
theorem size_update (w : World σ ν) (i : ThreadId) (m : Moved σ ν) :
    (w.update i m).threads.size = w.threads.size + if m.child.isSome then 1 else 0 := by
  rw [threads_update]
  cases m.child <;> simp

/-- What holds of the threads throughout a run. -/
structure Kin (w : World σ ν) : Prop where
  caller : 0 < w.threads.size
  placed : ∀ (i : Nat) (t : Thread σ ν), w.threads[i]? = some t → t.task.Placed i t.stack
  newer : ∀ (i : Nat) (t : Thread σ ν), w.threads[i]? = some t →
    ∀ j : Nat, j ∈ t.waitsFor → i < j ∧ j < w.threads.size
  awaited : ∀ j : Nat, j ≠ 0 → j < w.threads.size → w.ended? j = none →
    ∃ (i : Nat) (t : Thread σ ν), w.threads[i]? = some t ∧ j ∈ t.waitsFor
  live : ∀ j : Nat, j ∈ w.live ↔ j < w.threads.size ∧ w.ended? j = none
  sorted : w.live.Pairwise fun i j : Nat => j < i

/-- At the start there is the calling thread only. -/
theorem eq_of_initial {plan : WalkPlan} {root : Dir} {store : Flagged σ} {state : ν} {i : Nat}
    {t : Thread σ ν} (ht : (World.initial plan root store state).threads[i]? = some t) :
    i = 0 ∧ t = .fresh root := by
  have hi := lt_size ht
  simp only [World.initial, List.size_toArray, List.length_singleton] at hi
  obtain rfl : i = 0 := by omega
  simp only [World.initial, List.getElem?_toArray, List.getElem?_cons_zero,
    Option.some.injEq] at ht
  exact ⟨rfl, ht.symm⟩

/-- What holds of a fresh thread, and is kept by the steps of a thread, holds of all threads
throughout a run. -/
theorem Run.forall_threads {walk : Walk σ ν} {meddle : Flagged σ → Flagged σ → Prop}
    {plan : WalkPlan} {root : Dir} {store : Flagged σ} {state : ν} {tr : Trace} {w : World σ ν}
    {P : Thread σ ν → Prop} (run : Run walk meddle (.initial plan root store state) tr w)
    (fresh : ∀ d, P (.fresh d))
    (kept : ∀ {o t s m}, Thread.Does walk o t s m → P t → P m.thread) :
    ∀ (i : Nat) (t : Thread σ ν), w.threads[i]? = some t → P t := by
  induction run with
  | nil =>
    intro i t ht
    obtain ⟨rfl, rfl⟩ := eq_of_initial ht
    exact fresh root
  | outside _ _ ih => exact ih
  | step _ hstep ih =>
    obtain ⟨t, m, ht, hdoes, -, rfl⟩ := step_eq_some hstep
    exact forall_update ht (kept hdoes (ih _ t ht)) (fun d _ => fresh d) fun j u _ hu => ih j u hu

/-- The calling thread alone waits for nobody. -/
theorem Kin.initial (plan : WalkPlan) (root : Dir) (store : Flagged σ) (state : ν) :
    (World.initial plan root store state).Kin where
  caller := Nat.zero_lt_one
  placed i t ht := by
    obtain ⟨rfl, rfl⟩ := eq_of_initial ht
    trivial
  newer i t ht j hj := by
    obtain ⟨rfl, rfl⟩ := eq_of_initial ht
    simp [Thread.fresh, Thread.waitsFor, Task.waitsFor] at hj
  awaited j hj hsize := by
    simp only [World.initial, List.size_toArray, List.length_singleton] at hsize
    omega
  live j := by
    simp only [World.initial, List.mem_singleton, List.size_toArray, List.length_singleton]
    constructor
    · intro heq
      subst heq
      exact ⟨Nat.zero_lt_one, rfl⟩
    · intro h
      omega
  sorted := List.pairwise_singleton _ _

variable {walk : Walk σ ν} {w : World σ ν}

/-- A thread that has no result has not ended. -/
private theorem ended?_eq_none {i : ThreadId} {t : Thread σ ν} (ht : w.threads[i]? = some t)
    (alive : t.task.result? = none) : w.ended? i = none := by
  simp [ended?, ht, alive]

section Step

variable {i : Nat} {room : Bool} {t : Thread σ ν} {m : Moved σ ν}

/-- Threads wait for newer ones only, also after a step. -/
private theorem Kin.newer_update (kin : w.Kin) (ht : w.threads[i]? = some t)
    (h : t.Does walk (w.others i room) w.shared m) :
    ∀ (j : Nat) (u : Thread σ ν), (w.update i m).threads[j]? = some u →
      ∀ k : Nat, k ∈ u.waitsFor → j < k ∧ k < (w.update i m).threads.size := by
  have hsize := size_update w i m
  refine forall_update ht ?mover ?child ?others
  case mover =>
    intro k hk
    rcases h.waitsFor_new hk with hold | ⟨rfl, hchild⟩
    · have := kin.newer i t ht k hold
      omega
    · rw [if_pos hchild] at hsize
      have := lt_size ht
      simp only [World.others]
      omega
  case child =>
    intro d _ k hk
    simp [Thread.fresh, Thread.waitsFor, Task.waitsFor] at hk
  case others =>
    intro j u _ hu k hk
    have := kin.newer j u hu k hk
    omega

/-- A worker that has not ended is awaited after the step of its starter too, because a thread waits
until a worker has ended. -/
private theorem Kin.awaited_update (kin : w.Kin) (ht : w.threads[i]? = some t)
    (h : t.Does walk (w.others i room) w.shared m) {j : Nat} (hj : j ≠ 0)
    (hsize : j < (w.update i m).threads.size) (alive : (w.update i m).ended? j = none) :
    ∃ (k : Nat) (u : Thread σ ν), (w.update i m).threads[k]? = some u ∧ j ∈ u.waitsFor := by
  have placed := kin.placed i t ht
  have hmoved : (w.update i m).threads[i]? = some m.thread := getElem?_update_self ht m
  have hold : w.ended? j = none := by
    rw [ended?_update ht] at alive
    by_cases hji : j = i
    · exact hji ▸ ended?_eq_none ht h.result?_eq_none
    · rwa [if_neg hji] at alive
  rw [size_update] at hsize
  by_cases hfresh : j < w.threads.size
  · obtain ⟨k, u, hu, hju⟩ := kin.awaited j hj hfresh hold
    by_cases hk : k = i
    · subst hk
      obtain rfl : u = t := Option.some.inj (hu.symm.trans ht)
      rcases h.waitsFor_kept placed hju with hkept | hended
      · exact ⟨k, _, hmoved, hkept⟩
      · simp [World.others, hold] at hended
    · exact ⟨k, u, getElem?_update_of_ne ht m hu hk, hju⟩
  · have hchild : m.child.isSome := by
      by_contra hnone
      rw [if_neg hnone] at hsize
      omega
    rw [if_pos hchild] at hsize
    obtain rfl : j = w.threads.size := by omega
    exact ⟨i, _, hmoved, h.fresh_mem_waitsFor placed hchild⟩

/-- The list of threads is right after a step, and the newest is the first in it. -/
private theorem Kin.live_update (kin : w.Kin) (ht : w.threads[i]? = some t)
    (alive : t.task.result? = none) :
    (∀ j : Nat, j ∈ (w.update i m).live ↔
      j < (w.update i m).threads.size ∧ (w.update i m).ended? j = none) ∧
    (w.update i m).live.Pairwise fun i j : Nat => j < i := by
  have hi := lt_size ht
  have hnone : w.ended? w.threads.size = none := by simp [ended?]
  -- The live threads before anybody is struck off.
  let started := if m.child.isSome then w.threads.size :: w.live else w.live
  have hstarted : ∀ j : Nat, j ∈ started ↔ j < (w.update i m).threads.size ∧ w.ended? j = none := by
    intro j
    rw [size_update]
    by_cases hchild : m.child.isSome
    · simp only [started, if_pos hchild, List.mem_cons, kin.live]
      constructor
      · intro h
        rcases h with rfl | ⟨h1, h2⟩
        · exact ⟨by omega, hnone⟩
        · exact ⟨by omega, h2⟩
      · intro h
        obtain ⟨h1, h2⟩ := h
        by_cases hj : j = w.threads.size
        · exact .inl hj
        · exact .inr ⟨by omega, h2⟩
    · simp only [started, if_neg hchild, kin.live, Nat.add_zero]
  have hsorted : started.Pairwise fun i j : Nat => j < i := by
    by_cases hchild : m.child.isSome
    · simp only [started, if_pos hchild, List.pairwise_cons]
      refine ⟨?_, kin.sorted⟩
      intro j hj
      exact ((kin.live j).mp hj).1
    · simp only [started, if_neg hchild]
      exact kin.sorted
  have hnodup : started.Nodup := hsorted.imp fun h => Nat.ne_of_gt h
  rw [World.live_update]
  change (∀ j : Nat,
    j ∈ (if m.thread.task.result?.isSome then started.erase i else started) ↔ _) ∧ _
  cases hr : m.thread.task.result? with
  | none =>
    simp only [Option.isSome_none, Bool.false_eq_true, if_false]
    refine ⟨?_, hsorted⟩
    intro j
    rw [hstarted, ended?_update ht]
    by_cases hj : j = i
    · subst hj
      simp [hr, ended?_eq_none ht alive]
    · rw [if_neg hj]
  | some result =>
    simp only [Option.isSome_some, if_true]
    refine ⟨?_, hsorted.sublist List.erase_sublist⟩
    intro j
    rw [hnodup.mem_erase_iff, hstarted, ended?_update ht]
    by_cases hj : j = i
    · simp [hj, hr]
    · simp [hj]

/-- A step keeps who waits for whom in order. -/
theorem Kin.step (kin : w.Kin) {w' : World σ ν} {e : Event}
    (h : w.step walk i room = some (e, w')) : w'.Kin := by
  obtain ⟨t, m, ht, hdoes, rfl, rfl⟩ := step_eq_some h
  obtain ⟨hlive, hsorted⟩ := kin.live_update (m := m) ht hdoes.result?_eq_none
  refine ⟨?_, ?_, kin.newer_update ht hdoes, fun j => kin.awaited_update ht hdoes, hlive, hsorted⟩
  · rw [size_update]
    have := kin.caller
    omega
  · refine forall_update ht ?_ (fun _ _ => trivial) fun j u _ hu => kin.placed j u hu
    exact hdoes.placed rfl (kin.placed i t ht)

end Step

/-- So do all steps, and everybody else. -/
theorem Kin.of_run {meddle : Flagged σ → Flagged σ → Prop} {start : World σ ν} {tr : Trace}
    (kin : start.Kin) (run : Run walk meddle start tr w) : w.Kin := by
  induction run with
  | nil => exact kin
  | step _ hstep ih => exact ih.step hstep
  | outside _ _ ih => exact ⟨ih.caller, ih.placed, ih.newer, ih.awaited, ih.live, ih.sorted⟩

/-- Once the calling thread waits for nobody, all others have ended. -/
theorem Kin.all_ended (kin : w.Kin) (free : ∀ t, w.threads[0]? = some t → t.waitsFor = [])
    {j : Nat} (hj : j ≠ 0) (hsize : j < w.threads.size) : (w.ended? j).isSome := by
  induction j using Nat.strongRecOn with
  | ind j ih =>
    by_contra hnone
    obtain ⟨i, t, ht, hjt⟩ := kin.awaited j hj hsize (by simpa using hnone)
    have hij := (kin.newer i t ht j hjt).1
    by_cases hi : i = 0
    · subst hi
      simp [free t ht] at hjt
    · have hended := ih i hij hi (lt_size ht)
      obtain ⟨⟨home, result⟩, hresult⟩ := Option.isSome_iff_exists.mp hended
      simp only [ended?, ht, Option.map_eq_some_iff] at hresult
      obtain ⟨result, hresult, -⟩ := hresult
      simp [Thread.waitsFor_of_ended (kin.placed i t ht) hresult] at hjt

/-- When the calling thread has ended, all have. -/
theorem Kin.ended_of_result (kin : w.Kin) (done : w.result?.isSome) :
    ∀ (i : Nat) (t : Thread σ ν), w.threads[i]? = some t → ∃ r, t.task.result? = some r := by
  have hended : ∀ {i t}, w.threads[i]? = some t → (w.ended? i).isSome →
      ∃ r, t.task.result? = some r := by
    intro i t ht h
    simpa [ended?, ht, Option.isSome_iff_exists] using h
  have hcaller : (w.ended? 0).isSome := by simpa [result?] using done
  intro i t ht
  by_cases hi : i = 0
  · subst hi
    exact hended ht hcaller
  · refine hended ht (kin.all_ended ?_ hi (lt_size ht))
    intro u hu
    obtain ⟨r, hr⟩ := hended hu hcaller
    exact Thread.waitsFor_of_ended (kin.placed 0 u hu) hr

/-- The step that ends a walk is one of the calling thread. -/
theorem caller_of_result {i : ThreadId} {t : Thread σ ν} {m : Moved σ ν} {r : Outcome Unit}
    (kin : w.Kin) (ht : w.threads[i]? = some t) (alive : t.task.result? = none)
    (done : (w.update i m).result? = some r) :
    i = 0 ∧ w.result? = none ∧ m.thread.task.result? = some r := by
  have hgoing : w.result? = none := by
    cases hr : w.result? with
    | none => rfl
    | some r' =>
      obtain ⟨r', hr'⟩ := kin.ended_of_result (by simp [hr]) i t ht
      simp [hr'] at alive
  rw [result?, ended?_update ht] at done
  by_cases hi : 0 = i
  · subst hi
    rw [if_pos rfl] at done
    exact ⟨rfl, hgoing, by simpa using done⟩
  · rw [if_neg hi, ← result?, hgoing] at done
    cases done

/-- The newest thread that has not ended can always go on. -/
theorem Kin.exists_step (kin : w.Kin) (walk : Walk σ ν) {i : Nat} {older : List ThreadId}
    (newest : w.live = i :: older) (room : Bool) :
    ∃ e w', w.step walk i room = some (e, w') := by
  have hi := (kin.live i).mp (by simp [newest])
  obtain ⟨t, ht⟩ : ∃ t, w.threads[i]? = some t := ⟨_, Array.getElem?_eq_getElem hi.1⟩
  have alive : t.task.result? = none := by simpa [ended?, ht] using hi.2
  have free : ∀ j ∈ t.waitsFor, ((w.others i room).ended? j).isSome := by
    intro j hj
    have hij := kin.newer i t ht j hj
    change (w.ended? j).isSome
    by_contra hnone
    have hlive : j ∈ w.live := (kin.live j).mpr ⟨hij.2, by simpa using hnone⟩
    have hsorted := kin.sorted
    rw [newest, List.pairwise_cons] at hsorted
    rw [newest, List.mem_cons] at hlive
    rcases hlive with rfl | hlive
    · omega
    · have := hsorted.1 j hlive
      omega
  obtain ⟨m, hm⟩ : ∃ m, t.step walk (w.others i room) w.shared = some m :=
    Thread.exists_step alive free
  exact ⟨m.event, w.update i m, by simp [World.step, ht, hm]⟩

end World

end ShardSweep
