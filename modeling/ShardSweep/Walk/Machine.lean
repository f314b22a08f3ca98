import ShardSweep.Walk.Slots
import ShardSweep.Walk.Visitor

/-!
# The walk, step by step

A walk goes through a subtree with several threads.  Per directory a thread lists
the entries, visits them in their order, and at a subdirectory takes a slot and
leaves it to a new worker thread, or goes into it itself if no slot is free or no
thread can be started.  When the entries are used up it waits for the workers it
started there and leaves the directory.  A thread keeps the directories it is inside
on a stack, so the depth of a tree costs it nothing but memory.

The first failure is kept and calls the walk off; from then on no thread starts
anything new, because each looks at the flag before every listing, every visit and
every leaving.  A worker that dies is found out by the thread that waits for it.  If
the calling thread dies it still waits for every worker it started.

`Task` says what a thread is about to do, in steps that touch shared state at most
once.  `Thread.step` is one step of one thread, and `none` if it has to wait;
`World.step` is the same within the whole walk.  Each step is labelled with the
`Event` that it shows.

* `Thread.step_ended`: a thread that has ended does nothing more;
* `World.initial`: the calling thread alone, about to enter the root of the subtree.
-/

namespace ShardSweep

/-- Number of a thread in the order of their start; the calling thread is 0. -/
abbrev ThreadId := Nat

/-- A listed directory while its entries are visited. -/
structure Frame where
  dir : Dir
  /-- Entries still to be visited. -/
  entries : List Entry
  /-- Workers started for subdirectories, the oldest first. -/
  workers : List ThreadId
  deriving DecidableEq, Repr

/-- Where a visitor acts. -/
inductive Site where
  | visit (dir : Dir) (entry : Entry)
  | leave (dir : Dir)
  deriving DecidableEq, Repr

/-- How a thread goes on once it has left a failure. -/
inductive Resume where
  /-- With the innermost directory. -/
  | scan
  /-- By giving the innermost directory up. -/
  | close
  /-- With waiting for the other workers of a directory. -/
  | join (dir : Dir) (workers : List ThreadId)
  deriving DecidableEq, Repr

/-- What a thread is about to do. -/
inductive Task (σ ν : Type) where
  /-- Look at the flag before listing a directory. -/
  | checking (dir : Dir)
  /-- Begin listing a directory. -/
  | asking (dir : Dir)
  /-- Go on listing a directory. -/
  | listing (dir : Dir) (rest : Proc (Flagged σ) (Outcome (List Entry)))
  /-- Take the next entry of the innermost directory. -/
  | scanning
  /-- Go on acting as the visitor. -/
  | acting (site : Site) (action : Action ν)
  /-- Go on with a request of the visitor. -/
  | calling (site : Site) (r : Request) (rest : Proc (Flagged σ) (Outcome r.Answer))
      (next : Except WalkError r.Answer → Action ν)
  /-- Go on claiming a slot for a subdirectory. -/
  | claiming (dir : Dir) (claim : Claim)
  /-- Start a worker for a subdirectory. -/
  | spawning (dir : Dir)
  /-- Give the slot of a worker back that could not be started, and go into its directory. -/
  | returning (dir : Dir) (release : Release)
  /-- Leave a failure. -/
  | reporting (e : WalkError) (resume : Resume)
  /-- Raise the flag. -/
  | raising (resume : Resume)
  /-- Wait for the workers of a directory, look at the flag and leave it. -/
  | closing (dir : Dir) (workers : List ThreadId)
  /-- Die, but not before every worker has ended. -/
  | unwinding (p : Panic)
  /-- Give the slot back and end. -/
  | releasing (release : Release) (result : Outcome Unit)
  /-- Look for a kept failure. -/
  | concluding
  /-- Look at the flag for the last time. -/
  | settling
  /-- Nothing any more: it is through with the walk, and its slot is back. -/
  | ended (result : Outcome Unit)

/-- What a step shows to somebody who follows the walk. -/
inductive Event where
  | quiet
  /-- The walk begins to list a directory. -/
  | listing (dir : Dir)
  /-- The listing of a directory ends. -/
  | listed (dir : Dir) (outcome : Outcome (List Entry))
  /-- The visitor starts at a place. -/
  | acting (site : Site)
  /-- The visitor has finished at a place, or has died there. -/
  | acted (site : Site) (outcome : Outcome Unit)
  /-- A request of the visitor begins. -/
  | began (site : Site) (r : Request)
  /-- A request of the visitor ends. -/
  | answered (site : Site) (r : Request) (outcome : Outcome r.Answer)
  /-- A failure was left; `first` says whether it was kept. -/
  | reported (e : WalkError) (first : Bool)
  /-- The visitor has left a failure itself. -/
  | offered (site : Site) (e : WalkError) (first : Bool)
  /-- The visitor has taken the kept failure away, if there was one. -/
  | took (site : Site) (kept : Option WalkError)
  /-- A worker was started for a directory. -/
  | spawned (child : ThreadId) (dir : Dir)

/-- A thread of the walk. -/
structure Thread (σ ν : Type) where
  /-- The directory it was started for. -/
  home : Dir
  /-- The directories it is inside, the innermost first. -/
  stack : List Frame
  task : Task σ ν

/-- What the threads share. -/
structure Shared (σ ν : Type) where
  /-- The store of the metadata, and the flag. -/
  store : Flagged σ
  /-- The state of the visitor. -/
  state : ν
  /-- The first failure. -/
  failure : Option WalkError
  slots : Slots

/-- The place for a failure, and the flag.  A thread goes to one of them at a time. -/
def Shared.verdict {σ ν : Type} (s : Shared σ ν) : Verdict :=
  ⟨s.failure, s.store.raised⟩

/-- What a walk is made with. -/
structure Walk (σ ν : Type) where
  metadata : Metadata (Flagged σ)
  visitor : Visitor ν
  plan : WalkPlan

/-- What a step of a thread changes. -/
structure Moved (σ ν : Type) where
  event : Event
  thread : Thread σ ν
  shared : Shared σ ν
  /-- The directory that a new worker is to be started for. -/
  child : Option Dir

/-- What a thread can see of the others. -/
structure Others where
  /-- Whether it is the calling thread itself. -/
  caller : Bool
  /-- The number that the next thread will get. -/
  fresh : ThreadId
  /-- Whether the system can start another thread at this moment. -/
  room : Bool
  /-- The home and the result of a thread that has ended. -/
  ended? : ThreadId → Option (Dir × Outcome Unit)

/-- The name of the worker for a directory. -/
def workerName (home : Dir) : String :=
  "walker-" ++ toString home.inode

/-- The failure that a dead worker leaves. -/
def workerDeath (home : Dir) (p : Panic) : WalkError :=
  .workerDied (workerName home) p.message

variable {σ ν : Type}

namespace Task

/-- The result of a thread that has ended. -/
def result? : Task σ ν → Option (Outcome Unit)
  | .ended result => some result
  | _ => none

end Task

namespace Frame

/-- One worker more. -/
def addWorker (child : ThreadId) (fr : Frame) : Frame :=
  { fr with workers := fr.workers ++ [child] }

end Frame

namespace Site

/-- What follows a visitor that has finished well: a visited subdirectory is walked next. -/
def onward : Site → Task σ ν
  | .visit _ entry => if entry.kind.isDir then .claiming (Dir.ofEntry entry) .start else .scanning
  | .leave _ => .scanning

/-- What follows a visitor that has failed: the directory it was inside is given up. -/
def afterFailure : Site → Resume
  | .visit _ _ => .close
  | .leave _ => .scan

end Site

namespace Thread

/-- Take another task. -/
def become (t : Thread σ ν) (task : Task σ ν) : Thread σ ν :=
  { t with task := task }

/-- Give the innermost directory up: what remains is to wait for its workers. -/
def close (t : Thread σ ν) : Thread σ ν :=
  match t.stack with
  | [] => t.become .scanning
  | fr :: outer => { t with stack := outer, task := .closing fr.dir fr.workers }

/-- Go on after a failure was left. -/
def resume (t : Thread σ ν) : Resume → Thread σ ν
  | .scan => t.become .scanning
  | .close => t.close
  | .join dir workers => t.become (.closing dir workers)

/-- Note a new worker with the innermost directory. -/
def adopt (t : Thread σ ν) (child : ThreadId) : Thread σ ν :=
  match t.stack with
  | [] => t.become .scanning
  | fr :: outer => { t with stack := fr.addWorker child :: outer, task := .scanning }

/-- End with a result: the calling thread at once, a worker after it has given its slot back. -/
def finish (t : Thread σ ν) (caller : Bool) (result : Outcome Unit) : Thread σ ν :=
  if caller then { t with stack := [], task := .ended result }
  else { t with stack := [], task := .releasing .start result }

/-- Every worker that the thread has started and not waited for has ended. -/
def workersEnded (t : Thread σ ν) (others : Others) : Bool :=
  t.stack.all fun fr => fr.workers.all fun w => (others.ended? w).isSome

/-- A step that shows nothing and changes nothing shared. -/
def quietly (t : Thread σ ν) (shared : Shared σ ν) : Option (Moved σ ν) :=
  some ⟨.quiet, t, shared, none⟩

/-- A step that shows an event and changes nothing shared. -/
def showing (event : Event) (t : Thread σ ν) (shared : Shared σ ν) : Option (Moved σ ν) :=
  some ⟨event, t, shared, none⟩

/-- One step of listing a directory. -/
def stepListing (t : Thread σ ν) (shared : Shared σ ν) (dir : Dir) :
    Proc (Flagged σ) (Outcome (List Entry)) → Option (Moved σ ν)
  | .step change next =>
    (t.become (.listing dir (next shared.store))).quietly
      { shared with store := change shared.store }
  | .done outcome =>
    showing (.listed dir outcome)
      (match outcome with
        | .ok entries => { t with stack := ⟨dir, entries, []⟩ :: t.stack, task := .scanning }
        | .error (.failed e) => t.become (.reporting e .scan)
        | .error (.panicked p) => t.become (.unwinding p))
      shared

/-- One step of taking the next entry of the innermost directory. -/
def stepScanning (walk : Walk σ ν) (others : Others) (t : Thread σ ν) (shared : Shared σ ν) :
    Option (Moved σ ν) :=
  match t.stack with
  | [] =>
    if others.caller then (t.become .concluding).quietly shared
    else (t.finish false (.ok ())).quietly shared
  | fr :: outer =>
    match fr.entries with
    | [] => t.close.quietly shared
    | entry :: entries =>
      if shared.store.raised then t.close.quietly shared
      else
        showing (.acting (.visit fr.dir entry))
          { t with
            stack := { fr with entries := entries } :: outer
            task := .acting (.visit fr.dir entry) (walk.visitor.visit walk.plan fr.dir entry) }
          shared

/-- One step of a visitor. -/
def stepActing (walk : Walk σ ν) (t : Thread σ ν) (shared : Shared σ ν) (site : Site) :
    Action ν → Option (Moved σ ν)
  | .done (.ok ()) => (t.become site.onward).showing (.acted site (.ok ())) shared
  | .done (.error e) =>
    (t.become (.reporting e site.afterFailure)).showing (.acted site (.error (.failed e))) shared
  | .die p => (t.become (.unwinding p)).showing (.acted site (.error (.panicked p))) shared
  | .update change next =>
    (t.become (.acting site (next shared.state))).quietly
      { shared with state := change shared.state }
  | .cancel next =>
    (t.become (.acting site next)).quietly { shared with store := shared.store.raise }
  | .look next => (t.become (.acting site (next shared.store.raised))).quietly shared
  | .fail e next =>
    (t.become (.acting site (.cancel (next (offerFailure e shared.failure).1)))).showing
      (.offered site e (offerFailure e shared.failure).1)
      { shared with failure := (offerFailure e shared.failure).2 }
  | .failed next => (t.become (.acting site (next shared.failure.isSome))).quietly shared
  | .take next =>
    (t.become (.acting site (next shared.failure))).showing (.took site shared.failure)
      { shared with failure := none }
  | .request r next =>
    (t.become (.calling site r (walk.metadata.call r) next)).showing (.began site r) shared

/-- One step of a request that a visitor has made. -/
def stepCalling (t : Thread σ ν) (shared : Shared σ ν) (site : Site) (r : Request)
    (next : Except WalkError r.Answer → Action ν) :
    Proc (Flagged σ) (Outcome r.Answer) → Option (Moved σ ν)
  | .step change rest =>
    (t.become (.calling site r (rest shared.store) next)).quietly
      { shared with store := change shared.store }
  | .done outcome =>
    showing (.answered site r outcome)
      (match outcome with
        | .ok answer => t.become (.acting site (next (.ok answer)))
        | .error (.failed e) => t.become (.acting site (next (.error e)))
        | .error (.panicked p) => t.become (.unwinding p))
      shared

/-- One step of claiming a slot. -/
def stepClaiming (t : Thread σ ν) (shared : Shared σ ν) (dir : Dir) (claim : Claim) :
    Option (Moved σ ν) :=
  match claim.step shared.slots with
  | (.stage claim', slots) => (t.become (.claiming dir claim')).quietly { shared with slots := slots }
  | (.granted, slots) => (t.become (.spawning dir)).quietly { shared with slots := slots }
  | (.inline, slots) => (t.become (.checking dir)).quietly { shared with slots := slots }

/-- One step of starting a worker.  If the system refuses the thread, the slot goes back and
the directory is walked on this thread. -/
def stepSpawning (others : Others) (t : Thread σ ν) (shared : Shared σ ν) (dir : Dir) :
    Option (Moved σ ν) :=
  if others.room then
    some ⟨.spawned others.fresh dir, t.adopt others.fresh, shared, some dir⟩
  else (t.become (.returning dir .start)).quietly shared

/-- One step of giving the slot of a worker back that could not be started. -/
def stepReturning (t : Thread σ ν) (shared : Shared σ ν) (dir : Dir) (release : Release) :
    Option (Moved σ ν) :=
  match release.step shared.slots with
  | (some release', slots) =>
    (t.become (.returning dir release')).quietly { shared with slots := slots }
  | (none, slots) => (t.become (.checking dir)).quietly { shared with slots := slots }

/-- One step of waiting for the workers of a directory and leaving it. -/
def stepClosing (walk : Walk σ ν) (others : Others) (t : Thread σ ν) (shared : Shared σ ν)
    (dir : Dir) : List ThreadId → Option (Moved σ ν)
  | [] =>
    if shared.store.raised then (t.become .scanning).quietly shared
    else
      (t.become (.acting (.leave dir) (walk.visitor.leave walk.plan dir))).showing
        (.acting (.leave dir)) shared
  | w :: ws =>
    match others.ended? w with
    | none => none
    | some (home, .error (.panicked p)) =>
      (t.become (.reporting (workerDeath home p) (.join dir ws))).quietly shared
    | some _ => (t.become (.closing dir ws)).quietly shared

/-- One step of giving the slot back.  With the return of the token a worker is through with the
walk and counts as ended; the system may take a moment longer to end its thread, in which nothing
of the walk happens. -/
def stepReleasing (t : Thread σ ν) (shared : Shared σ ν) (release : Release)
    (result : Outcome Unit) : Option (Moved σ ν) :=
  match release.step shared.slots with
  | (some release', slots) =>
    (t.become (.releasing release' result)).quietly { shared with slots := slots }
  | (none, slots) => (t.become (.ended result)).quietly { shared with slots := slots }

/-- One step of a thread, or `none` if it has to wait or has ended. -/
def step (walk : Walk σ ν) (others : Others) (t : Thread σ ν) (shared : Shared σ ν) :
    Option (Moved σ ν) :=
  match t.task with
  | .checking dir =>
    if shared.store.raised then (t.become .scanning).quietly shared
    else (t.become (.asking dir)).quietly shared
  | .asking dir =>
    let r := Request.listEntries walk.plan.fs dir.inode walk.plan.epoch
    (t.become (.listing dir (walk.metadata.call r))).showing (.listing dir) shared
  | .listing dir rest => t.stepListing shared dir rest
  | .scanning => t.stepScanning walk others shared
  | .acting site action => t.stepActing walk shared site action
  | .calling site r rest next => t.stepCalling shared site r next rest
  | .claiming dir claim => t.stepClaiming shared dir claim
  | .spawning dir => t.stepSpawning others shared dir
  | .returning dir release => t.stepReturning shared dir release
  | .reporting e resume =>
    (t.become (.raising resume)).showing (.reported e (offerFailure e shared.failure).1)
      { shared with failure := (offerFailure e shared.failure).2 }
  | .raising resume => (t.resume resume).quietly { shared with store := shared.store.raise }
  | .closing dir workers => t.stepClosing walk others shared dir workers
  | .unwinding p =>
    if t.workersEnded others then (t.finish others.caller (.error (.panicked p))).quietly shared
    else none
  | .releasing release result => t.stepReleasing shared release result
  | .concluding =>
    match shared.failure with
    | some e => (t.finish true (.error (.failed e))).quietly { shared with failure := none }
    | none => (t.become .settling).quietly shared
  | .settling =>
    if shared.store.raised then (t.finish true (.error (.failed .cancelled))).quietly shared
    else (t.finish true (.ok ())).quietly shared
  | .ended _ => none

/-- A thread that has ended does nothing more. -/
theorem step_ended {walk : Walk σ ν} {others : Others} {t : Thread σ ν} {shared : Shared σ ν}
    {result : Outcome Unit} (h : t.task = .ended result) : t.step walk others shared = none := by
  simp [step, h]

end Thread

/-- A walk under way. -/
structure World (σ ν : Type) where
  shared : Shared σ ν
  /-- The threads in the order of their start. -/
  threads : Array (Thread σ ν)
  /-- The threads that have not ended, the newest first. -/
  live : List ThreadId

namespace World

/-- The calling thread alone, about to enter the root of the subtree. -/
def initial (plan : WalkPlan) (root : Dir) (store : Flagged σ) (state : ν) : World σ ν where
  shared := ⟨store, state, none, .free plan.threads⟩
  threads := #[⟨root, [], .checking root⟩]
  live := [0]

/-- The home and the result of a thread that has ended. -/
def ended? (w : World σ ν) (i : ThreadId) : Option (Dir × Outcome Unit) :=
  match w.threads[i]? with
  | none => none
  | some t => t.task.result?.map fun result => (t.home, result)

/-- The outcome of the walk, once the calling thread has it. -/
def result? (w : World σ ν) : Option (Outcome Unit) :=
  (w.ended? 0).map Prod.snd

/-- What a thread can see of the others. -/
def others (w : World σ ν) (i : ThreadId) (room : Bool) : Others :=
  ⟨i == 0, w.threads.size, room, w.ended?⟩

/-- Put a new worker beside the other threads. -/
def spawn (w : World σ ν) : Option Dir → World σ ν
  | none => w
  | some dir =>
    { w with
      threads := w.threads.push ⟨dir, [], .checking dir⟩
      live := w.threads.size :: w.live }

/-- Strike a thread that has ended off the live ones. -/
def retire (w : World σ ν) (i : ThreadId) (task : Task σ ν) : World σ ν :=
  match task.result? with
  | none => w
  | some _ => { w with live := w.live.erase i }

/-- The walk after a step of thread `i`. -/
def update (w : World σ ν) (i : ThreadId) (m : Moved σ ν) : World σ ν :=
  (spawn { w with shared := m.shared, threads := w.threads.setIfInBounds i m.thread }
    m.child).retire i m.thread.task

/-- One step of thread `i` and what it shows, or `none` if it cannot take one; `room` says
whether the system can start another thread. -/
def step (walk : Walk σ ν) (w : World σ ν) (i : ThreadId) (room : Bool) :
    Option (Event × World σ ν) :=
  match w.threads[i]? with
  | none => none
  | some t =>
    match t.step walk (w.others i room) w.shared with
    | none => none
    | some m => some (m.event, w.update i m)

end World

end ShardSweep
