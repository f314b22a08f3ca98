import ShardSweep.Proofs.Walk.Ahead

/-!
# Threads in single file

In a subtree that goes down in one line a thread that has started a worker has nothing left to
visit.  So only the newest thread can be on its way down, and as long as it is, each of the others
waits for the next one and holds its slot: no slot comes back before the last claim was made.

* `Thread.Upward`, `Thread.Does.upward`: who has begun to go back up goes on doing so;
* `World.SingleFile`, `World.Run.singleFile`: how the threads stand in a line throughout a run;
* `World.SingleFile.at_work`: while somebody is on its way down nobody has finished;
* `World.SingleFile.tokens`, `World.SingleFile.held`: the slots that are held meanwhile.
-/

namespace ShardSweep

variable {σ ν : Type}

/-- There is nothing to visit here. -/
def Site.Upward : Site → Prop
  | .visit _ _ => False
  | .leave _ => True

/-- A thread with this task lists nothing and visits nothing before it goes back to its stack. -/
def Task.Upward : Task σ ν → Prop
  | .checking _ => False
  | .asking _ => False
  | .listing _ _ => False
  | .acting site _ => site.Upward
  | .calling site _ _ _ => site.Upward
  | .claiming _ _ => False
  | .spawning _ => False
  | .returning _ _ => False
  | _ => True

/-- Who is on its way up has claimed nothing. -/
theorem Task.nothing_of_upward {task : Task σ ν} (h : task.Upward) :
    task.claimed = 0 ∧ task.counted = 0 := by
  cases task with
  | claiming | spawning | returning => exact h.elim
  | _ => exact ⟨rfl, rfl⟩

theorem Task.alive_of_not_finished {task : Task σ ν} (h : ¬ task.Finished) :
    task.alive = 1 ∧ task.busy = 1 := by
  cases task with
  | releasing | ended => exact absurd trivial h
  | _ => exact ⟨rfl, rfl⟩

namespace Thread

/-- What remains is to wait, to leave directories and to end. -/
structure Upward (t : Thread σ ν) : Prop where
  task : t.task.Upward
  spent : Spent t.stack

variable {walk : Walk σ ν} {o : Others} {t : Thread σ ν} {s : Shared σ ν} {m : Moved σ ν}

theorem not_upward_of_claiming {d : Dir} {c : Claim} (h : t.task = .claiming d c) :
    ¬ t.Upward := by
  intro hup
  simpa [h, Task.Upward] using hup.task

/-- A thread on its way up has no entries left. -/
theorem Upward.neat (h : t.Upward) : t.task.Neat t.stack := by
  obtain ⟨home, stack, task⟩ := t
  obtain ⟨htask, hspent⟩ := h
  have hresume : ∀ resume : Resume, resume.Neat stack := by
    intro resume
    cases resume with
    | close => exact hspent.neat
    | scan | join => exact hspent
  cases task with
  | scanning => exact hspent.neat
  | acting site _ | calling site _ _ _ =>
    cases site with
    | visit => exact htask.elim
    | leave => exact hspent
  | reporting _ resume => exact hresume resume
  | raising resume => exact hresume resume
  | unwinding | releasing | ended => trivial
  | _ => exact hspent

/-- Whoever has begun to go back up goes on doing so, and starts no worker. -/
theorem Does.upward (h : Does walk o t s m) (upward : t.Upward) :
    m.thread.Upward ∧ m.child = none := by
  obtain ⟨htask, hspent⟩ := upward
  cases h with
  | visit | giveUp => exact absurd (hspent _ List.mem_cons_self) (List.cons_ne_nil _ _)
  | useUp | raiseClose =>
    exact ⟨⟨trivial, fun fr hfr => hspent fr (List.mem_cons_of_mem _ hfr)⟩, rfl⟩
  | @finishActing _ _ site | @failActing _ _ site =>
    cases site with
    | visit => exact htask.elim
    | leave => exact ⟨⟨trivial, hspent⟩, rfl⟩
  | update | cancel | look | offer | lookFailed | take | beginCall | stepCall | endCall |
      failCall =>
    exact ⟨⟨htask, hspent⟩, rfl⟩
  | unwindCaller | unwindWorker | concludeFailed | settleCancelled | settleWell =>
    exact ⟨⟨trivial, fun _ hfr => absurd hfr List.not_mem_nil⟩, rfl⟩
  | skipListing | check | beginListing | stepListing | endListing | failListing | dieListing |
      claim | grant | stayInline | spawn | spawnOutside | missSpawn | «return» | endReturn =>
    exact htask.elim
  | _ => exact ⟨⟨trivial, hspent⟩, rfl⟩

/-- Whoever has started a worker goes back up. -/
theorem Does.upward_of_child (h : Does walk o t s m) (neat : t.task.Neat t.stack)
    (child : m.child.isSome) : m.thread.Upward := by
  cases h with
  | spawn => exact ⟨trivial, List.forall_mem_cons.mpr (List.forall_mem_cons.mp neat)⟩
  | spawnOutside => exact ⟨trivial, neat⟩
  | _ => cases child

theorem upward_of_finished {i : ThreadId} (placed : t.task.Placed i t.stack)
    (finished : t.task.Finished) : t.Upward := by
  obtain ⟨home, stack, task⟩ := t
  obtain ⟨hempty, -⟩ := nothing_of_finished placed finished
  refine ⟨?_, fun fr hfr => ?_⟩
  · cases task with
    | releasing | ended => trivial
    | _ => exact finished.elim
  · rw [hempty] at hfr
    cases hfr

end Thread

namespace World

variable {f : Forest} {walk : Walk σ ν} {meddle : Flagged σ → Flagged σ → Prop} {root : Dir}
  {store : Flagged σ} {state : ν} {tr : Trace} {w w' : World σ ν} {i : Nat} {t : Thread σ ν}
  {threads : Nat}

/-- The threads stand in a line: each waits for the next one at most, and only the last may be on
its way down. -/
structure SingleFile (w : World σ ν) : Prop where
  upward : ∀ (i : Nat) (t : Thread σ ν), w.threads[i]? = some t → i + 1 < w.threads.size → t.Upward
  neat : ∀ (i : Nat) (t : Thread σ ν), w.threads[i]? = some t → t.task.Neat t.stack
  next : ∀ (i : Nat) (t : Thread σ ν), w.threads[i]? = some t → ∀ j ∈ t.waitsFor, j = i + 1

/-- There is one thread at the start. -/
theorem SingleFile.initial (plan : WalkPlan) (root : Dir) (store : Flagged σ) (state : ν) :
    (World.initial plan root store state).SingleFile where
  upward i t ht hlast := by
    obtain ⟨rfl, -⟩ := eq_of_initial ht
    exact absurd hlast (by simp [World.initial])
  neat i t ht := by
    obtain ⟨-, rfl⟩ := eq_of_initial ht
    exact fun _ h => absurd h List.not_mem_nil
  next i t ht j hj := by
    obtain ⟨-, rfl⟩ := eq_of_initial ht
    cases hj

section SingleFile

variable (file : w.SingleFile) (ht : w.threads[i]? = some t)

include file ht

/-- Whoever is on its way down is the last. -/
theorem SingleFile.last (down : ¬ t.Upward) : i + 1 = w.threads.size := by
  have hlt := lt_size ht
  have hlast : ¬ i + 1 < w.threads.size := fun h => down (file.upward i t ht h)
  omega

/-- While one thread is on its way down all others are on their way up. -/
theorem SingleFile.others (down : ¬ t.Upward) {j : Nat} {u : Thread σ ν} (hj : j ≠ i)
    (hu : w.threads[j]? = some u) : u.Upward := by
  have hlast := file.last ht down
  have hlt := lt_size hu
  exact file.upward j u hu (by omega)

/-- A new thread goes down while its starter waits, so there is still one on its way down. -/
theorem SingleFile.step {room : Bool} {m : Moved σ ν} (kin : w.Kin)
    (h : t.Does walk (w.others i room) w.shared m)
    (first : ∀ d es, m.event = .listed d (.ok es) → FilesFirst es) :
    (w.update i m).SingleFile := by
  have hneat := file.neat i t ht
  have hsize := size_update w i m
  have hlast : m.child.isSome → i + 1 = w.threads.size := by
    intro hchild
    refine file.last ht fun hup => ?_
    rw [(h.upward hup).2] at hchild
    cases hchild
  refine ⟨?upward, ?neat, ?next⟩
  case upward =>
    refine forall_update ht (fun hlt => ?_) (fun d hd hlt => ?_) (fun j u hj hu hlt => ?_)
    · by_cases hchild : m.child.isSome
      · exact h.upward_of_child hneat hchild
      · rw [hsize, if_neg hchild] at hlt
        exact (h.upward (file.upward i t ht hlt)).1
    · rw [hsize, if_pos (by rw [hd]; rfl)] at hlt
      omega
    · have hju := lt_size hu
      refine file.upward j u hu ?_
      by_cases hchild : m.child.isSome
      · have := hlast hchild
        have := Nat.lt_or_gt_of_ne hj
        omega
      · rwa [hsize, if_neg hchild] at hlt
  case neat =>
    refine forall_update ht ?_ (fun _ _ _ h => absurd h List.not_mem_nil)
      fun j u _ hu => file.neat j u hu
    by_cases hchild : m.child.isSome
    · exact (h.upward_of_child hneat hchild).neat
    · exact h.neat (kin.placed i t ht) first hneat (by simpa using hchild)
  case next =>
    refine forall_update ht (fun j hj => ?_) (fun _ _ _ hj => absurd hj List.not_mem_nil)
      fun j u _ hu => file.next j u hu
    rcases h.waitsFor_new hj with hold | ⟨rfl, hchild⟩
    · exact file.next i t ht j hold
    · exact (hlast hchild).symm

/-- Where a claim is under way no worker was started with this step. -/
theorem SingleFile.of_claiming {room : Bool} {m : Moved σ ν}
    (h : t.Does walk (w.others i room) w.shared m) {j : Nat} {u : Thread σ ν} {d : Dir} {c : Claim}
    (hu : (w.update i m).threads[j]? = some u) (claiming : u.task = .claiming d c) :
    (w.update i m).threads.size = w.threads.size ∧ (u = m.thread ∨ w.threads[j]? = some u) := by
  have hsize : ¬ m.child.isSome → (w.update i m).threads.size = w.threads.size := by
    intro hchild
    rw [size_update, if_neg hchild, Nat.add_zero]
  refine forall_update (P := fun j u => u.task = .claiming d c →
    (w.update i m).threads.size = w.threads.size ∧ (u = m.thread ∨ w.threads[j]? = some u)) ht
    (fun hclaiming => ?mover) (fun _ _ hclaiming => by cases hclaiming)
    (fun j u hj hu hclaiming => ?others) j u hu claiming
  case mover =>
    refine ⟨hsize fun hchild => ?_, .inl rfl⟩
    exact Thread.not_upward_of_claiming hclaiming (h.upward_of_child (file.neat i t ht) hchild)
  case others =>
    refine ⟨hsize fun hchild => ?_, .inr hu⟩
    have hdown : ¬ t.Upward := fun hup => by simp [(h.upward hup).2] at hchild
    exact Thread.not_upward_of_claiming hclaiming (file.others ht hdown hj hu)

/-- While somebody is on its way down nobody has finished: each thread waits for the next one. -/
theorem SingleFile.at_work (kin : w.Kin) (down : ¬ t.Upward) {j : Nat} {u : Thread σ ν}
    (hu : w.threads[j]? = some u) : ¬ u.task.Finished := by
  have hlast := file.last ht down
  have hlt := lt_size hu
  obtain ⟨n, hn⟩ : ∃ n, j + n = i := ⟨i - j, by omega⟩
  induction n generalizing j u with
  | zero =>
    obtain rfl : j = i := hn
    obtain rfl := Option.some.inj (hu.symm.trans ht)
    exact fun hfinished => down (Thread.upward_of_finished (kin.placed j u hu) hfinished)
  | succ n ih =>
    obtain ⟨v, hv⟩ : ∃ v, w.threads[j + 1]? = some v :=
      ⟨_, Array.getElem?_eq_getElem (by omega : j + 1 < w.threads.size)⟩
    have hnext := ih hv (lt_size hv) (by omega)
    have halive : w.ended? (j + 1) = none := by
      rw [ended?, hv, Option.map_eq_none_iff, Option.eq_none_iff_forall_ne_some]
      exact fun r hr => hnext (Task.nothing_of_ended hr).2.2
    obtain ⟨k, x, hx, hwaits⟩ := kin.awaited (j + 1) (Nat.succ_ne_zero j) (lt_size hv) halive
    obtain rfl : j = k := Nat.succ.inj (file.next k x hx _ hwaits)
    obtain rfl := Option.some.inj (hu.symm.trans hx)
    intro hfinished
    rw [(Thread.nothing_of_finished (kin.placed j u hu) hfinished).2] at hwaits
    cases hwaits

end SingleFile

/-- A count over the threads is that of one thread if the others count for nothing. -/
theorem tally_eq_of_others {g : ThreadId → Thread σ ν → Nat} (ht : w.threads[i]? = some t)
    (zero : ∀ (j : Nat) (u : Thread σ ν), j ≠ i → w.threads[j]? = some u → g j u = 0) :
    w.tally g = g i t := by
  unfold tally
  rw [Finset.sum_eq_single_of_mem i (Finset.mem_range.mpr (lt_size ht)), ht]
  · rfl
  · intro j _ hj
    cases hu : w.threads[j]? with
    | none => rfl
    | some u => exact zero j u hj hu

/-- Where each worker counts for one the count is the number of the workers. -/
theorem tally_workers {g : Thread σ ν → Nat}
    (one : ∀ (j : Nat) (u : Thread σ ν), w.threads[j]? = some u → g u = 1) :
    (w.tally fun j u => if j = 0 then 0 else g u) = w.threads.size - 1 := by
  have hone : ∀ j ∈ Finset.range w.threads.size,
      ((w.threads[j]?).elim 0 fun u => if j = 0 then 0 else g u) = if j = 0 then 0 else 1 := by
    intro j hj
    have hu := Array.getElem?_eq_getElem (Finset.mem_range.mp hj)
    rw [hu, Option.elim_some, one j _ hu]
  rw [tally, Finset.sum_congr rfl hone]
  cases w.threads.size with
  | zero => rfl
  | succ n => simp [Finset.sum_range_succ']

section Slots

variable (file : w.SingleFile) (kin : w.Kin) (audit : w.Audit threads)
  (ht : w.threads[i]? = some t) (down : ¬ t.Upward)

include file kin audit ht down

/-- While somebody is on its way down every worker holds its token. -/
theorem SingleFile.tokens : w.shared.slots.tokens + 1 = w.threads.size + t.task.claimed := by
  have hworkers : w.workers = w.threads.size - 1 := tally_workers fun j u hu =>
    (Task.alive_of_not_finished (file.at_work ht kin down hu)).1
  have hclaimed : w.claimed = t.task.claimed := tally_eq_of_others ht fun j u hj hu =>
    (Task.nothing_of_upward (file.others ht down hj hu).task).1
  have hcaller := kin.caller
  rw [audit.tokens, hworkers, hclaimed]
  omega

/-- The gauge counts these workers. -/
theorem SingleFile.held : w.shared.slots.held + 1 = w.threads.size + t.task.counted := by
  have hbusy : w.busy = w.threads.size - 1 := tally_workers fun j u hu =>
    (Task.alive_of_not_finished (file.at_work ht kin down hu)).2
  have hcounted : w.counted = t.task.counted := tally_eq_of_others ht fun j u hj hu =>
    (Task.nothing_of_upward (file.others ht down hj hu).task).2
  have hcaller := kin.caller
  rw [audit.held, hbusy, hcounted]
  omega

end Slots

/-- Throughout a walk through a subtree that goes down in one line the threads stand in a line. -/
theorem Run.singleFile {plan : WalkPlan}
    (run : Run walk meddle (.initial plan root store state) tr w) (agrees : tr.Agrees f)
    (line : ∀ d ∈ f.dirs root, FilesFirst (f.listing d.inode)) : w.SingleFile := by
  induction run with
  | nil => exact .initial plan root store state
  | outside _ _ ih => exact ⟨(ih agrees).upward, (ih agrees).neat, (ih agrees).next⟩
  | @step tr w w' i room e run hstep ih =>
    have hlineal := Lineal.of_run (.initial ..) (.initial f plan root store state) run agrees.init
    obtain ⟨t, m, ht, hdoes, rfl, rfl⟩ := step_eq_some hstep
    refine (ih agrees.init).step ht ((Kin.initial ..).of_run run) hdoes fun d es hlisted => ?_
    rw [agrees.last d es hlisted]
    exact line d (hlineal.mem_dirs ht (hdoes.hangs_of_listed (hlineal.lineal i t ht) hlisted))

end World

end ShardSweep
