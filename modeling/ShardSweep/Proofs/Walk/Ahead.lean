import ShardSweep.Proofs.Walk.Complete
import ShardSweep.Proofs.Walk.Tour

/-!
# What a thread has ahead of it

A thread keeps on its stack what a recursion would keep on its own: what is left to do in each
directory that it is inside.  `Walk.ahead` reads off a thread the passage that is still to come if
nobody else is at work, and a step of the thread shows the beginning of it and leaves the rest.  A
subdirectory that is left to a worker comes first in what the worker and its starter have ahead of
them together, and the starter waits meanwhile.

* `Thread.errands`, `Walk.ahead`: what is left of the recursive traversal;
* `Thread.Does.ahead`: a step takes the first event off it;
* `Thread.Does.handOver`: a worker and its starter have ahead of them what the starter had;
* `Thread.Does.of_waits`: a thread that waits goes on as soon as its worker has ended;
* `Thread.Does.off`: once a walk is called off nothing more is begun.
-/

namespace ShardSweep

variable {σ ν : Type}

/-- Nothing is left to visit in the directories of a stack. -/
def Spent (stack : List Frame) : Prop :=
  ∀ fr ∈ stack, fr.entries = []

/-- Only the innermost directory has entries left, and the last of them may be a subdirectory. -/
def Neat : List Frame → Prop
  | [] => True
  | fr :: fs => FilesFirst fr.entries ∧ Spent fs

/-- A stack that has no entries left is neat. -/
theorem Spent.neat {stack : List Frame} (h : Spent stack) : Neat stack := by
  cases stack with
  | nil => trivial
  | cons fr fs =>
    refine ⟨?_, fun fr' hfr' => h fr' (List.mem_cons_of_mem _ hfr')⟩
    rw [h fr List.mem_cons_self]
    trivial

/-- There is nothing left to do in these directories but to leave them. -/
theorem Spent.mem_trip {f : Forest} {stack : List Frame} (h : Spent stack) {x : Errand} :
    x ∈ f.trip stack ↔ ∃ fr ∈ stack, x = .act (.leave fr.dir) := by
  unfold Forest.trip
  rw [List.mem_flatMap]
  apply exists_congr
  intro fr
  apply and_congr_right
  intro hfr
  simp [h fr hfr]

/-- What is left to do in the directories around `d` is above it. -/
theorem Forest.Stacked.height_lt_of_mem_trip {f : Forest} {home d : Dir} {stack : List Frame}
    (stacked : f.Stacked home stack) (hangs : f.Hangs home d stack) (spent : Spent stack)
    {x : Errand} (hx : x ∈ f.trip stack) : f.height d.inode < f.height x.dir.inode := by
  obtain ⟨fr, hfr, rfl⟩ := spent.mem_trip.mp hx
  change f.height d.inode < f.height fr.dir.inode
  clear hx spent
  induction stack generalizing d with
  | nil => cases hfr
  | cons top fs ih =>
    obtain ⟨-, hhangs, hstacked⟩ := stacked
    have hlt := Forest.height_lt_of_mem_subdirs hangs
    rcases List.mem_cons.mp hfr with rfl | hfr
    · exact hlt
    · exact hlt.trans (ih hstacked hhangs hfr)

/-- Whoever goes into a subdirectory has visited all entries beside it. -/
def Site.Neat (stack : List Frame) : Site → Prop
  | .visit _ e => ShardSweep.Neat stack ∧ (e.kind.isDir = true → Spent stack)
  | .leave _ => Spent stack

/-- The same when a failure has been left. -/
def Resume.Neat (stack : List Frame) : Resume → Prop
  | .scan => Spent stack
  | .close => ShardSweep.Neat stack
  | .join _ _ => Spent stack

/-- There are entries left only where a thread is about to take the next one. -/
def Task.Neat (stack : List Frame) : Task σ ν → Prop
  | .scanning => ShardSweep.Neat stack
  | .acting site _ => site.Neat stack
  | .calling site _ _ _ => site.Neat stack
  | .reporting _ resume => resume.Neat stack
  | .raising resume => resume.Neat stack
  | .unwinding _ => True
  | .releasing _ _ => True
  | .ended _ => True
  | _ => Spent stack

/-- What thread `i` knows of the place for a failure and of the flag when it has looked for them for
the last time, if nobody else is at work. -/
def Task.Sound (i : ThreadId) (s : Shared σ ν) : Task σ ν → Prop
  | .settling => s.failure = none
  | .ended (.ok ()) => i = 0 → s.failure = none ∧ s.store.raised = false
  | _ => True

/-- The errands that are left after a failure. -/
def Resume.errands : Resume → List Errand
  | .scan => []
  | .close => []
  | .join d _ => [.act (.leave d)]

/-- The errands of a task, beginning with the one under way. -/
def Task.errands (f : Forest) : Task σ ν → List Errand
  | .checking d => f.tour d
  | .asking d => f.tour d
  | .listing d _ => f.tour d
  | .acting site _ => .act site :: site.sequel f
  | .calling site _ _ _ => .act site :: site.sequel f
  | .claiming d _ => f.tour d
  | .spawning d => f.tour d
  | .returning d _ => f.tour d
  | .reporting _ resume => resume.errands
  | .raising resume => resume.errands
  | .closing d _ => [.act (.leave d)]
  | _ => []

/-- What a thread is about to do that has found the worker it waited for ended. -/
def Task.joined (home d : Dir) : Outcome Unit → Task σ ν
  | .error (.panicked p) => .reporting (workerDeath home p) (.join d [])
  | _ => .closing d []

/-- The directory that a thread is listing or acting in. -/
def Task.place? : Task σ ν → Option Dir
  | .listing d _ => some d
  | .acting site _ => some site.dir
  | .calling site _ _ _ => some site.dir
  | _ => none

/-- The errands of a thread, beginning with the one under way. -/
def Thread.errands (f : Forest) (t : Thread σ ν) : List Errand :=
  t.task.errands f ++ f.trip t.stack

section Joined

variable (home d : Dir) (r : Outcome Unit)

/-- A thread that has heard of its last worker waits for nobody. -/
@[simp] theorem Task.waitsFor_joined : (joined home d r : Task σ ν).waitsFor = [] := by
  rcases r with (e | p) | a <;> rfl

/-- The errand that is left to it is to leave the directory. -/
@[simp] theorem Task.errands_joined (f : Forest) :
    (joined home d r : Task σ ν).errands f = [.act (.leave d)] := by
  rcases r with (e | p) | a <;> rfl

/-- It is not on its way to die. -/
theorem Task.not_dead_joined : ¬ (joined home d r : Task σ ν).Dead := by
  rcases r with (e | p) | a <;> exact id

/-- It is neat if its stack is. -/
theorem Task.neat_joined {stack : List Frame} (spent : Spent stack) :
    (joined home d r : Task σ ν).Neat stack := by
  rcases r with (e | p) | a <;> exact spent

/-- It is sound whatever is shared. -/
theorem Task.sound_joined (i : ThreadId) (s : Shared σ ν) :
    (joined home d r : Task σ ν).Sound i s := by
  rcases r with (e | p) | a <;> trivial

end Joined

/-- What the threads share apart from the slots. -/
def Shared.standing (s : Shared σ ν) : Standing σ ν :=
  ⟨s.store, s.state, s.failure⟩

namespace Walk

variable (walk : Walk σ ν) (f : Forest)

/-- What a thread has ahead of it: the rest of the errand under way, its other errands, and those
that are left for `later`. -/
def ahead (t : Thread σ ν) (later : List Errand) (s : Shared σ ν) : Passage σ ν :=
  match t.task with
  | .asking d => (walk.stay (.list d) s.standing).andThen (walk.along ((t.errands f).tail ++ later))
  | .listing d rest =>
    (Passage.listed d (rest.run s.store).1 (s.standing.after (rest.run s.store).2)).andThen
      (walk.along ((t.errands f).tail ++ later))
  | .acting site a =>
    (a.play walk.metadata site s.standing).andThen (walk.along ((t.errands f).tail ++ later))
  | .calling site r rest next =>
    (Passage.answered site r (rest.run s.store).1
      (fun x => (next x).play walk.metadata site (s.standing.after (rest.run s.store).2))
      (s.standing.after (rest.run s.store).2)).andThen (walk.along ((t.errands f).tail ++ later))
  | .reporting e _ => .off e s.standing
  | .raising _ => .settled s.standing.raise
  | .concluding => .settled s.standing
  | .settling => .settled s.standing
  | .unwinding p => .dead p s.standing
  | .releasing _ (.error (.panicked p)) => .dead p s.standing
  | .ended (.error h) => ⟨[], .error h, s.standing⟩
  | _ => walk.along (t.errands f ++ later) s.standing

end Walk

section

variable {walk : Walk σ ν} {s : Shared σ ν}

/-- Once the flag is up it makes no difference what is ahead. -/
private theorem Walk.along_raised (raised : s.store.raised = true) (xs ys : List Errand) :
    walk.along xs s.standing = walk.along ys s.standing := by
  have hraised : s.standing.store.raised = true := raised
  rw [walk.along_of_raised hraised, walk.along_of_raised hraised]

/-- When the calling thread has ended, nothing but its result is left. -/
theorem Walk.ahead_ended (walk : Walk σ ν) (f : Forest) {r : Outcome Unit}
    (sound : (.ended r : Task σ ν).Sound 0 s) (home : Dir) :
    walk.ahead f ⟨home, [], .ended r⟩ [] s = ⟨[], r, s.standing⟩ := by
  rcases r with h | ⟨⟨⟩⟩
  · rfl
  · obtain ⟨hclean, hdown⟩ := sound rfl
    have halong : walk.ahead f ⟨home, [], .ended (.ok ())⟩ [] s = .settled s.standing := rfl
    exact halong.trans (Passage.settled_of_down hclean hdown)

end

namespace Thread

variable {walk : Walk σ ν} {f : Forest} {o : Others} {t : Thread σ ν} {s : Shared σ ν}
  {m : Moved σ ν}

/-- A step that starts no worker takes the first event off what the thread has ahead of it. -/
theorem Does.ahead (h : Does walk o t s m) {i : ThreadId} (placed : t.task.Placed i t.stack)
    (sound : t.task.Sound i s) (free : t.waitsFor = []) (agrees : m.event.Agrees f)
    (alone : m.child = none) {later : List Errand}
    (caller : o.caller = true ∨ i = 0 → later = []) :
    walk.ahead f t later s = (walk.ahead f m.thread later m.shared).after m.event.work := by
  cases h with
  -- Errands that the raised flag calls off are as good as done.
  | skipListing raised | giveUp raised | skipLeaving raised => exact Walk.along_raised raised _ _
  -- The flag was down, so the next errand begins.
  | check down =>
    simp only [Walk.ahead, errands, Task.errands, Forest.tour_eq]
    exact walk.along_of_down down _ _
  | @visit _ d e es ws fs _ down =>
    have htrip : f.trip (⟨d, e :: es, ws⟩ :: fs) =
        .act (.visit d e) :: (f.inside e ++ f.trip (⟨d, es, ws⟩ :: fs)) := by
      simp
    simp only [Walk.ahead, errands, Task.errands, htrip]
    exact (walk.along_of_down down _ _).trans (Passage.andThen_after _ _ _)
  | leave down =>
    simp only [Walk.ahead, errands, Task.errands]
    exact (walk.along_of_down down _ _).trans (Passage.andThen_after _ _ _)
  -- The errand goes on, and its passage unfolds with it.
  | beginListing | beginCall | endCall | failCall => exact Passage.andThen_after _ _ _
  | stepListing | update | cancel | look | offer | lookFailed | take | stepCall => rfl
  -- The errand ends.
  | endListing =>
    obtain rfl := agrees _ _ rfl
    simp only [Walk.ahead, errands, Task.errands, Forest.tour_eq]
    rfl
  | @finishActing _ _ site =>
    cases site with
    | leave d =>
      simp only [Walk.ahead, errands, Task.errands, Site.onward]
      rfl
    | visit d e =>
      by_cases hd : e.kind.isDir = true <;>
        simp only [Walk.ahead, errands, Task.errands, Site.onward, Site.sequel, Forest.inside,
          hd] <;>
        rfl
  | failListing | dieListing | failActing | dieActing | dieCall => rfl
  -- A failure is left, and the flag goes up.
  | report => rfl
  | raiseScan | raiseJoin | raiseClose =>
    exact (walk.along_of_raised (s := s.standing.raise) rfl _).symm
  -- What is left to do stays the same.
  | claim | grant | stayInline | missSpawn | «return» | endReturn | goHome | useUp => rfl
  | conclude hcaller =>
    obtain rfl := caller (.inl hcaller)
    rfl
  -- The thread ends.
  | unwindCaller | unwindWorker | concludeClean => rfl
  | @release _ _ _ _ result => rcases result with (e | p) | ⟨⟨⟩⟩ <;> rfl
  | @endRelease _ _ _ result =>
    rcases result with (e | p) | ⟨⟨⟩⟩
    · exact absurd rfl (placed.2.2 e)
    · rfl
    · rfl
  | concludeFailed kept => exact Passage.settled_of_kept kept
  | settleCancelled raised => exact Passage.settled_of_raised sound raised
  | settleWell down =>
    obtain ⟨rfl, rfl⟩ := placed
    obtain rfl := caller (.inr rfl)
    rfl
  | join | joinDead => simp [waitsFor, Task.waitsFor] at free
  | spawn | spawnOutside => cases alone
  | raiseOutside => exact absurd rfl placed

/-- A step keeps a task sound. -/
theorem Does.sound (h : Does walk o t s m) {i : ThreadId} (placed : t.task.Placed i t.stack)
    (sound : t.task.Sound i s) : m.thread.task.Sound i m.shared := by
  cases h with
  | finishActing => exact Site.onward_ind _ (fun _ => trivial) trivial
  | concludeClean clean => exact clean
  | settleWell down => exact fun _ => ⟨sound, down⟩
  | @endRelease _ _ _ result =>
    rcases result with h | ⟨⟨⟩⟩
    · trivial
    · exact fun hi => absurd hi placed.1
  | _ => trivial

/-- A step that starts no worker keeps a thread neat, because the listings have their files first.
-/
theorem Does.neat (h : Does walk o t s m) {i : ThreadId} (placed : t.task.Placed i t.stack)
    (first : ∀ d es, m.event = .listed d (.ok es) → FilesFirst es) (neat : t.task.Neat t.stack)
    (alone : m.child = none) : m.thread.task.Neat m.thread.stack := by
  cases h with
  | endListing => exact ⟨first _ _ rfl, neat⟩
  | skipListing | skipLeaving => exact neat.neat
  | conclude => exact fun _ h => nomatch h
  | useUp | giveUp => exact neat.2
  | @visit _ d e es ws fs =>
    obtain ⟨⟨hlast, hfirst⟩, hspent⟩ := neat
    refine ⟨⟨hfirst, hspent⟩, fun hd => ?_⟩
    rw [hlast hd]
    exact List.forall_mem_cons.mpr ⟨rfl, hspent⟩
  | @finishActing _ _ site =>
    cases site with
    | visit d e =>
      by_cases hd : e.kind.isDir = true
      · rw [Site.onward, if_pos hd]
        exact neat.2 hd
      · rw [Site.onward, if_neg hd]
        exact neat.1
    | leave d => exact neat.neat
  | @failActing _ _ site =>
    cases site with
    | visit d e => exact neat.1
    | leave d => exact neat
  | raiseScan => exact neat.neat
  | raiseClose => exact neat.2
  | raiseJoin => exact neat
  | dieListing | dieActing | dieCall | unwindCaller | unwindWorker | goHome | endRelease |
      concludeFailed | settleCancelled | settleWell => trivial
  | raiseOutside => exact absurd rfl placed
  | spawn | spawnOutside => cases alone
  | _ => exact neat

/-- No step that starts no worker adds an errand. -/
theorem Does.errands_subset (h : Does walk o t s m) (agrees : m.event.Agrees f)
    (alone : m.child = none) : m.thread.errands f ⊆ t.errands f := by
  cases h with
  | endListing =>
    obtain rfl := agrees _ _ rfl
    simp [errands, Task.errands, Forest.tour_eq]
  | visit => simp [errands, Task.errands, Site.sequel]
  | @finishActing _ _ site =>
    cases site with
    | visit d e =>
      by_cases hd : e.kind.isDir = true <;>
        simp [errands, Task.errands, Site.onward, Site.sequel, Forest.inside, hd]
    | leave d => simp [errands, Task.errands, Site.onward]
  | @failActing _ _ site =>
    cases site <;> simp [errands, Task.errands, Site.afterFailure, Resume.errands]
  | spawn | spawnOutside => cases alone
  | giveUp =>
    intro x hx
    simp only [errands, Task.errands, List.cons_append, List.mem_cons] at hx
    rcases hx with rfl | hx <;> simp_all [errands, Task.errands, Forest.round]
  | _ => simp [errands, Task.errands, Resume.errands, Forest.round, Site.sequel]

/-- The thread waits for one worker in directory `d`, and all that it has left to do is to leave
this directory and those around it. -/
inductive Waits (j : ThreadId) (d : Dir) (fs : List Frame) : Thread σ ν → Prop
  | scanning {h} : Waits j d fs ⟨h, ⟨d, [], [j]⟩ :: fs, .scanning⟩
  | closing {h} : Waits j d fs ⟨h, fs, .closing d [j]⟩

/-- Who waits has not ended. -/
theorem Waits.alive {j : ThreadId} {d : Dir} {fs : List Frame} (waits : Waits j d fs t) :
    t.task.result? = none := by
  cases waits <;> rfl

/-- A worker that is waited for is among those the thread waits for. -/
theorem Waits.mem_waitsFor {j : ThreadId} {d : Dir} {fs : List Frame} (waits : Waits j d fs t) :
    j ∈ t.waitsFor := by
  cases waits <;> simp [waitsFor, Task.waitsFor]

/-- A thread waits for one worker at a time. -/
theorem Waits.unique {j j' : ThreadId} {d d' : Dir} {fs fs' : List Frame} (waits : Waits j d fs t)
    (waits' : Waits j' d' fs' t) : j = j' ∧ d = d' ∧ fs = fs' := by
  cases waits <;> cases waits' <;> exact ⟨rfl, rfl, rfl⟩

/-- The directory of the worker hangs below the home of the one who waits for it. -/
theorem Waits.hangs {j : ThreadId} {d : Dir} {fs : List Frame} (waits : Waits j d fs t)
    (stacked : f.Stacked t.home t.stack) (lineal : t.task.Lineal f t.home t.stack) :
    f.Hangs t.home d fs ∧ f.Stacked t.home fs := by
  cases waits with
  | scanning => exact stacked.2
  | closing => exact ⟨lineal, stacked⟩

/-- A thread that waits goes on waiting until its worker has ended. -/
theorem Does.of_waits (h : Does walk o t s m) {j : ThreadId} {d : Dir} {fs : List Frame}
    (waits : Waits j d fs t) :
    m.event = .quiet ∧ m.shared = s ∧ m.child = none ∧ (Waits j d fs m.thread ∨
      ∃ home r, o.ended? j = some (home, r) ∧ m.thread = ⟨t.home, fs, .joined home d r⟩) := by
  cases waits with
  | scanning =>
    cases h with
    | useUp => exact ⟨rfl, rfl, rfl, .inl .closing⟩
  | closing =>
    cases h with
    | joinDead dead => exact ⟨rfl, rfl, rfl, .inr ⟨_, _, dead, rfl⟩⟩
    | @join _ _ _ _ _ _ r _ ended alive =>
      refine ⟨rfl, rfl, rfl, .inr ⟨_, _, ended, ?_⟩⟩
      rcases r with (e | p) | a
      · rfl
      · exact absurd rfl (alive p)
      · rfl

/-- A thread leaves all that is below a subdirectory to a worker, and waits for it. -/
theorem Does.handOver (h : Does walk o t s m) {i : ThreadId} (placed : t.task.Placed i t.stack)
    (neat : t.task.Neat t.stack) (lineal : t.task.Lineal f t.home t.stack)
    (free : t.waitsFor = []) {c : Dir} (child : m.child = some c) :
    m.event = .spawned o.fresh c ∧ m.shared = s ∧ t.task = .spawning c ∧ ∃ d fs,
      c ∈ f.subdirs d ∧ Spent fs ∧ (∀ fr ∈ fs, fr.workers = []) ∧ Waits o.fresh d fs m.thread ∧
      t.errands f = f.tour c ++ .act (.leave d) :: f.trip fs := by
  cases h with
  | @spawn _ d es ws fs =>
    cases child
    obtain ⟨rfl, hspent⟩ := List.forall_mem_cons.mp neat
    have hfree : ∀ fr ∈ (⟨d, [], ws⟩ :: fs : List Frame), fr.workers = [] := by
      simpa [waitsFor, Task.waitsFor] using free
    obtain ⟨rfl, hnobody⟩ := List.forall_mem_cons.mp hfree
    exact ⟨rfl, rfl, rfl, d, fs, lineal, hspent, hnobody, .scanning, rfl⟩
  | spawnOutside => exact absurd rfl placed
  | _ => cases child

/-- The thread only goes back to where it was started, with the flag up or about to go up. -/
def Off (s : Shared σ ν) (t : Thread σ ν) : Prop :=
  match t.task with
  | .reporting _ _ => True
  | .raising _ => True
  | .scanning => s.store.raised = true
  | .closing _ _ => s.store.raised = true
  | .concluding => s.store.raised = true
  | .settling => s.store.raised = true
  | .releasing _ _ => s.store.raised = true
  | .ended _ => s.store.raised = true
  | _ => False

/-- Once a walk is called off nothing more is begun. -/
theorem Does.off (h : Does walk o t s m) (off : t.Off s) :
    m.thread.Off m.shared ∧ m.child = none := by
  cases h with
  | report => exact ⟨trivial, rfl⟩
  | raiseScan | raiseClose | raiseJoin | raiseOutside => exact ⟨rfl, rfl⟩
  | joinDead => exact ⟨trivial, rfl⟩
  | visit down | leave down | settleWell down => exact absurd (off.symm.trans down) (by simp)
  | conclude | goHome | useUp | giveUp | skipLeaving | join | release | endRelease |
      concludeFailed | concludeClean | settleCancelled => exact ⟨off, rfl⟩
  | _ => exact off.elim

/-- Whoever dies does so in the directory that it is listing or acting in. -/
theorem Does.dies (h : Does walk o t s m) (dead : m.thread.task.Dead) :
    t.task.Dead ∧ m.event.work = [] ∨
      ∃ d, t.task.place? = some d ∧ m.event.work = [m.event] ∧ m.event.dir? = some d := by
  cases h with
  | dieListing | dieActing | dieCall => exact .inr ⟨_, rfl, rfl, rfl⟩
  | unwindCaller | unwindWorker => exact .inl ⟨trivial, rfl⟩
  | release | endRelease => exact .inl ⟨dead, rfl⟩
  | finishActing => exact absurd dead (Site.not_dead_onward _)
  | _ => cases dead

/-- What a listing brings is part of what the thread has ahead of it. -/
theorem Does.listed_mem (h : Does walk o t s m) {d : Dir} {es : List Entry}
    (listed : m.event = .listed d (.ok es)) (later : List Errand) :
    .listed d (.ok es) ∈ (walk.ahead f t later s).work := by
  cases h with
  | endListing =>
    cases listed
    exact List.mem_cons_self
  | _ => cases listed

/-- A directory that is listed hangs below the home of the thread that lists it. -/
theorem Does.hangs_of_listed (h : Does walk o t s m) (lineal : t.task.Lineal f t.home t.stack)
    {d : Dir} {es : List Entry} (listed : m.event = .listed d (.ok es)) :
    f.Hangs t.home d t.stack := by
  cases h with
  | endListing =>
    cases listed
    exact lineal
  | _ => cases listed

/-- What the thread is listing or acting in is below its home, and one of its errands is there. -/
theorem mem_dirs_of_place {i : ThreadId} (placed : t.task.Placed i t.stack)
    (stacked : f.Stacked t.home t.stack) (lineal : t.task.Lineal f t.home t.stack) {d : Dir}
    (place : t.task.place? = some d) : d ∈ f.dirs t.home ∧ ∃ x ∈ t.errands f, x.dir = d := by
  obtain ⟨h, fs, task⟩ := t
  cases task with
  | listing d' rest =>
    cases place
    refine ⟨(stacked.mem_dirs (Forest.self_mem_dirs _)).2 _ lineal, .list d, ?_, rfl⟩
    simp [errands, Task.errands, Forest.tour_eq]
  | acting site a =>
    cases place
    exact ⟨Site.dir_mem stacked placed lineal, .act site, List.mem_cons_self, rfl⟩
  | calling site r rest next =>
    cases place
    exact ⟨Site.dir_mem stacked placed lineal, .act site, List.mem_cons_self, rfl⟩
  | _ => cases place

end Thread

end ShardSweep
