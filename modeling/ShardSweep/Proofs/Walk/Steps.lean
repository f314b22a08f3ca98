import ShardSweep.Walk.Schedule

/-!
# What one step of a thread can be

`Thread.Does` lists the steps of a thread one by one, each with what the thread was
about to do, what it found, and what it is about to do next.  It says the same as
`Thread.step`, and whatever is kept by every step of a walk is proved by looking
through this list.

* `Thread.does_of_step`: a step is one of the list;
* `Claim.does_of_step`: so is a step of a claim;
* `Site.onward_ind`: what follows a visitor that has finished well;
* `World.step_eq_some`: a step of the walk is a step of one of its threads.
-/

namespace ShardSweep

variable {σ ν : Type}

/-- The steps of a claim, each with what it makes of the slots. -/
inductive Claim.Does (s : Slots) : Claim → Claim.Next → Slots → Prop
  | take (room : s.hasRoom = true) : Does s .start (.stage .taken) s.takeToken
  | miss (full : s.hasRoom = false) : Does s .start (.stage .refused) s
  | count : Does s .taken (.stage (.counted (s.held + 1))) s.hold
  | note {now} : Does s (.counted now) (.stage .noted) (s.notePeak now)
  | grant : Does s .noted .granted s.countSpawned
  | refuse : Does s .refused .inline s.countInlined

/-- The steps of a claim are these. -/
theorem Claim.does_of_step {s s' : Slots} {c : Claim} {next : Claim.Next}
    (h : c.step s = (next, s')) :
    Claim.Does s c next s' := by
  cases c with
  | start =>
    cases hroom : s.hasRoom <;> simp [step, hroom] at h <;> obtain ⟨rfl, rfl⟩ := h
    · exact .miss hroom
    · exact .take hroom
  | taken => cases h; exact .count
  | counted => cases h; exact .note
  | noted => cases h; exact .grant
  | refused => cases h; exact .refuse

namespace Thread

/-- The steps of a thread. -/
inductive Does (walk : Walk σ ν) (o : Others) : Thread σ ν → Shared σ ν → Moved σ ν → Prop
  | skipListing {h fs d s} (raised : s.store.raised = true) :
      Does walk o ⟨h, fs, .checking d⟩ s ⟨.quiet, ⟨h, fs, .scanning⟩, s, none⟩
  | check {h fs d s} (down : s.store.raised = false) :
      Does walk o ⟨h, fs, .checking d⟩ s ⟨.quiet, ⟨h, fs, .asking d⟩, s, none⟩
  | beginListing {h fs d s} :
      Does walk o ⟨h, fs, .asking d⟩ s
        ⟨.listing d, ⟨h, fs, .listing d
          (walk.metadata.call (.listEntries walk.plan.fs d.inode walk.plan.epoch))⟩, s, none⟩
  | stepListing {h fs d change next s} :
      Does walk o ⟨h, fs, .listing d (.step change next)⟩ s
        ⟨.quiet, ⟨h, fs, .listing d (next s.store)⟩, { s with store := change s.store }, none⟩
  | endListing {h fs d es s} :
      Does walk o ⟨h, fs, .listing d (.done (.ok es))⟩ s
        ⟨.listed d (.ok es), ⟨h, ⟨d, es, []⟩ :: fs, .scanning⟩, s, none⟩
  | failListing {h fs d e s} :
      Does walk o ⟨h, fs, .listing d (.done (.error (.failed e)))⟩ s
        ⟨.listed d (.error (.failed e)), ⟨h, fs, .reporting e .scan⟩, s, none⟩
  | dieListing {h fs d p s} :
      Does walk o ⟨h, fs, .listing d (.done (.error (.panicked p)))⟩ s
        ⟨.listed d (.error (.panicked p)), ⟨h, fs, .unwinding p⟩, s, none⟩
  | conclude {h s} (caller : o.caller = true) :
      Does walk o ⟨h, [], .scanning⟩ s ⟨.quiet, ⟨h, [], .concluding⟩, s, none⟩
  | goHome {h s} (worker : o.caller = false) :
      Does walk o ⟨h, [], .scanning⟩ s ⟨.quiet, ⟨h, [], .releasing .start (.ok ())⟩, s, none⟩
  | useUp {h d ws fs s} :
      Does walk o ⟨h, ⟨d, [], ws⟩ :: fs, .scanning⟩ s ⟨.quiet, ⟨h, fs, .closing d ws⟩, s, none⟩
  | giveUp {h d e es ws fs s} (raised : s.store.raised = true) :
      Does walk o ⟨h, ⟨d, e :: es, ws⟩ :: fs, .scanning⟩ s
        ⟨.quiet, ⟨h, fs, .closing d ws⟩, s, none⟩
  | visit {h d e es ws fs s} (down : s.store.raised = false) :
      Does walk o ⟨h, ⟨d, e :: es, ws⟩ :: fs, .scanning⟩ s
        ⟨.acting (.visit d e), ⟨h, ⟨d, es, ws⟩ :: fs,
          .acting (.visit d e) (walk.visitor.visit walk.plan d e)⟩, s, none⟩
  | finishActing {h fs site s} :
      Does walk o ⟨h, fs, .acting site (.done (.ok ()))⟩ s
        ⟨.acted site (.ok ()), ⟨h, fs, site.onward⟩, s, none⟩
  | failActing {h fs site e s} :
      Does walk o ⟨h, fs, .acting site (.done (.error e))⟩ s
        ⟨.acted site (.error (.failed e)), ⟨h, fs, .reporting e site.afterFailure⟩, s, none⟩
  | dieActing {h fs site p s} :
      Does walk o ⟨h, fs, .acting site (.die p)⟩ s
        ⟨.acted site (.error (.panicked p)), ⟨h, fs, .unwinding p⟩, s, none⟩
  | update {h fs site change next s} :
      Does walk o ⟨h, fs, .acting site (.update change next)⟩ s
        ⟨.quiet, ⟨h, fs, .acting site (next s.state)⟩, { s with state := change s.state }, none⟩
  | cancel {h fs site next s} :
      Does walk o ⟨h, fs, .acting site (.cancel next)⟩ s
        ⟨.quiet, ⟨h, fs, .acting site next⟩, { s with store := s.store.raise }, none⟩
  | look {h fs site next s} :
      Does walk o ⟨h, fs, .acting site (.look next)⟩ s
        ⟨.quiet, ⟨h, fs, .acting site (next s.store.raised)⟩, s, none⟩
  | offer {h fs site e next s} :
      Does walk o ⟨h, fs, .acting site (.fail e next)⟩ s
        ⟨.offered site e (offerFailure e s.failure).1,
          ⟨h, fs, .acting site (.cancel (next (offerFailure e s.failure).1))⟩,
          { s with failure := (offerFailure e s.failure).2 }, none⟩
  | lookFailed {h fs site next s} :
      Does walk o ⟨h, fs, .acting site (.failed next)⟩ s
        ⟨.quiet, ⟨h, fs, .acting site (next s.failure.isSome)⟩, s, none⟩
  | take {h fs site next s} :
      Does walk o ⟨h, fs, .acting site (.take next)⟩ s
        ⟨.took site s.failure, ⟨h, fs, .acting site (next s.failure)⟩, { s with failure := none },
          none⟩
  | beginCall {h fs site r next s} :
      Does walk o ⟨h, fs, .acting site (.request r next)⟩ s
        ⟨.began site r, ⟨h, fs, .calling site r (walk.metadata.call r) next⟩, s, none⟩
  | stepCall {h fs site r change rest next s} :
      Does walk o ⟨h, fs, .calling site r (.step change rest) next⟩ s
        ⟨.quiet, ⟨h, fs, .calling site r (rest s.store) next⟩,
          { s with store := change s.store }, none⟩
  | endCall {h fs site r a next s} :
      Does walk o ⟨h, fs, .calling site r (.done (.ok a)) next⟩ s
        ⟨.answered site r (.ok a), ⟨h, fs, .acting site (next (.ok a))⟩, s, none⟩
  | failCall {h fs site r e next s} :
      Does walk o ⟨h, fs, .calling site r (.done (.error (.failed e))) next⟩ s
        ⟨.answered site r (.error (.failed e)), ⟨h, fs, .acting site (next (.error e))⟩, s, none⟩
  | dieCall {h fs site r p next s} :
      Does walk o ⟨h, fs, .calling site r (.done (.error (.panicked p))) next⟩ s
        ⟨.answered site r (.error (.panicked p)), ⟨h, fs, .unwinding p⟩, s, none⟩
  | claim {h fs d c c' slots s} (stage : c.step s.slots = (.stage c', slots)) :
      Does walk o ⟨h, fs, .claiming d c⟩ s
        ⟨.quiet, ⟨h, fs, .claiming d c'⟩, { s with slots := slots }, none⟩
  | grant {h fs d c slots s} (granted : c.step s.slots = (.granted, slots)) :
      Does walk o ⟨h, fs, .claiming d c⟩ s
        ⟨.quiet, ⟨h, fs, .spawning d⟩, { s with slots := slots }, none⟩
  | stayInline {h fs d c slots s} (refused : c.step s.slots = (.inline, slots)) :
      Does walk o ⟨h, fs, .claiming d c⟩ s
        ⟨.quiet, ⟨h, fs, .checking d⟩, { s with slots := slots }, none⟩
  | spawn {h c es ws fs d s} (room : o.room = true) :
      Does walk o ⟨h, ⟨c, es, ws⟩ :: fs, .spawning d⟩ s
        ⟨.spawned o.fresh d, ⟨h, ⟨c, es, ws ++ [o.fresh]⟩ :: fs, .scanning⟩, s, some d⟩
  | spawnOutside {h d s} (room : o.room = true) :
      Does walk o ⟨h, [], .spawning d⟩ s ⟨.spawned o.fresh d, ⟨h, [], .scanning⟩, s, some d⟩
  | missSpawn {h fs d s} (full : o.room = false) :
      Does walk o ⟨h, fs, .spawning d⟩ s ⟨.quiet, ⟨h, fs, .returning d .start⟩, s, none⟩
  | return {h fs d r r' slots s} (stage : r.step s.slots = (some r', slots)) :
      Does walk o ⟨h, fs, .returning d r⟩ s
        ⟨.quiet, ⟨h, fs, .returning d r'⟩, { s with slots := slots }, none⟩
  | endReturn {h fs d r slots s} (last : r.step s.slots = (none, slots)) :
      Does walk o ⟨h, fs, .returning d r⟩ s
        ⟨.quiet, ⟨h, fs, .checking d⟩, { s with slots := slots }, none⟩
  | report {h fs e resume s} :
      Does walk o ⟨h, fs, .reporting e resume⟩ s
        ⟨.reported e (offerFailure e s.failure).1, ⟨h, fs, .raising resume⟩,
          { s with failure := (offerFailure e s.failure).2 }, none⟩
  | raiseScan {h fs s} :
      Does walk o ⟨h, fs, .raising .scan⟩ s
        ⟨.quiet, ⟨h, fs, .scanning⟩, { s with store := s.store.raise }, none⟩
  | raiseClose {h d es ws fs s} :
      Does walk o ⟨h, ⟨d, es, ws⟩ :: fs, .raising .close⟩ s
        ⟨.quiet, ⟨h, fs, .closing d ws⟩, { s with store := s.store.raise }, none⟩
  | raiseOutside {h s} :
      Does walk o ⟨h, [], .raising .close⟩ s
        ⟨.quiet, ⟨h, [], .scanning⟩, { s with store := s.store.raise }, none⟩
  | raiseJoin {h d ws fs s} :
      Does walk o ⟨h, fs, .raising (.join d ws)⟩ s
        ⟨.quiet, ⟨h, fs, .closing d ws⟩, { s with store := s.store.raise }, none⟩
  | skipLeaving {h fs d s} (raised : s.store.raised = true) :
      Does walk o ⟨h, fs, .closing d []⟩ s ⟨.quiet, ⟨h, fs, .scanning⟩, s, none⟩
  | leave {h fs d s} (down : s.store.raised = false) :
      Does walk o ⟨h, fs, .closing d []⟩ s
        ⟨.acting (.leave d), ⟨h, fs, .acting (.leave d) (walk.visitor.leave walk.plan d)⟩, s,
          none⟩
  | joinDead {h fs d w ws home p s} (dead : o.ended? w = some (home, .error (.panicked p))) :
      Does walk o ⟨h, fs, .closing d (w :: ws)⟩ s
        ⟨.quiet, ⟨h, fs, .reporting (workerDeath home p) (.join d ws)⟩, s, none⟩
  | join {h fs d w ws home result s} (ended : o.ended? w = some (home, result))
      (alive : ∀ p, result ≠ .error (.panicked p)) :
      Does walk o ⟨h, fs, .closing d (w :: ws)⟩ s ⟨.quiet, ⟨h, fs, .closing d ws⟩, s, none⟩
  | unwindCaller {h fs p s} (caller : o.caller = true)
      (all : ∀ fr ∈ fs, ∀ w ∈ fr.workers, (o.ended? w).isSome) :
      Does walk o ⟨h, fs, .unwinding p⟩ s
        ⟨.quiet, ⟨h, [], .ended (.error (.panicked p))⟩, s, none⟩
  | unwindWorker {h fs p s} (worker : o.caller = false)
      (all : ∀ fr ∈ fs, ∀ w ∈ fr.workers, (o.ended? w).isSome) :
      Does walk o ⟨h, fs, .unwinding p⟩ s
        ⟨.quiet, ⟨h, [], .releasing .start (.error (.panicked p))⟩, s, none⟩
  | release {h fs r r' result slots s} (stage : r.step s.slots = (some r', slots)) :
      Does walk o ⟨h, fs, .releasing r result⟩ s
        ⟨.quiet, ⟨h, fs, .releasing r' result⟩, { s with slots := slots }, none⟩
  | endRelease {h fs r result slots s} (last : r.step s.slots = (none, slots)) :
      Does walk o ⟨h, fs, .releasing r result⟩ s
        ⟨.quiet, ⟨h, fs, .ended result⟩, { s with slots := slots }, none⟩
  | concludeFailed {h fs e s} (kept : s.failure = some e) :
      Does walk o ⟨h, fs, .concluding⟩ s
        ⟨.quiet, ⟨h, [], .ended (.error (.failed e))⟩, { s with failure := none }, none⟩
  | concludeClean {h fs s} (clean : s.failure = none) :
      Does walk o ⟨h, fs, .concluding⟩ s ⟨.quiet, ⟨h, fs, .settling⟩, s, none⟩
  | settleCancelled {h fs s} (raised : s.store.raised = true) :
      Does walk o ⟨h, fs, .settling⟩ s
        ⟨.quiet, ⟨h, [], .ended (.error (.failed .cancelled))⟩, s, none⟩
  | settleWell {h fs s} (down : s.store.raised = false) :
      Does walk o ⟨h, fs, .settling⟩ s ⟨.quiet, ⟨h, [], .ended (.ok ())⟩, s, none⟩

section

variable {walk : Walk σ ν} {o : Others} {h : Dir} {fs : List Frame} {task : Task σ ν}
  {s : Shared σ ν} {m : Moved σ ν}

/-- The steps of a listing. -/
private theorem does_of_stepListing {d : Dir} {rest : Proc (Flagged σ) (Outcome (List Entry))}
    (hm : stepListing ⟨h, fs, .listing d rest⟩ s d rest = some m) :
    Does walk o ⟨h, fs, .listing d rest⟩ s m := by
  rcases rest with ((e | p) | es) | ⟨change, next⟩ <;>
    simp [stepListing, become, showing, quietly] at hm <;> subst hm
  · exact .failListing
  · exact .dieListing
  · exact .endListing
  · exact .stepListing

/-- The choice of the next entry. -/
private theorem does_of_stepScanning (hm : stepScanning walk o ⟨h, fs, .scanning⟩ s = some m) :
    Does walk o ⟨h, fs, .scanning⟩ s m := by
  rcases fs with _ | ⟨⟨d, _ | ⟨e, es⟩, ws⟩, fs⟩
  · cases hc : o.caller <;> simp [stepScanning, become, finish, quietly, hc] at hm <;> subst hm
    · exact .goHome hc
    · exact .conclude hc
  · simp [stepScanning, close, quietly] at hm
    exact hm ▸ .useUp
  · cases hr : s.store.raised <;> simp [stepScanning, close, quietly, showing, hr] at hm <;>
      subst hm
    · exact .visit hr
    · exact .giveUp hr

/-- The steps of a visitor. -/
private theorem does_of_stepActing {site : Site} {a : Action ν}
    (hm : stepActing walk ⟨h, fs, .acting site a⟩ s site a = some m) :
    Does walk o ⟨h, fs, .acting site a⟩ s m := by
  rcases a with
    (e | ⟨⟨⟩⟩) | p | ⟨change, next⟩ | next | next | ⟨e, next⟩ | next | next | ⟨r, next⟩ <;>
    simp [stepActing, become, showing, quietly] at hm <;> subst hm
  · exact .failActing
  · exact .finishActing
  · exact .dieActing
  · exact .update
  · exact .cancel
  · exact .look
  · exact .offer
  · exact .lookFailed
  · exact .take
  · exact .beginCall

/-- The steps of a request that a visitor made. -/
private theorem does_of_stepCalling {site : Site} {r : Request}
    {rest : Proc (Flagged σ) (Outcome r.Answer)} {next : Except WalkError r.Answer → Action ν}
    (hm : stepCalling ⟨h, fs, .calling site r rest next⟩ s site r next rest = some m) :
    Does walk o ⟨h, fs, .calling site r rest next⟩ s m := by
  rcases rest with ((e | p) | a) | ⟨change, rest⟩ <;>
    simp [stepCalling, become, showing, quietly] at hm <;> subst hm
  · exact .failCall
  · exact .dieCall
  · exact .endCall
  · exact .stepCall

/-- The stages of a claim within the thread that makes it. -/
private theorem does_of_stepClaiming {d : Dir} {c : Claim}
    (hm : stepClaiming ⟨h, fs, .claiming d c⟩ s d c = some m) :
    Does walk o ⟨h, fs, .claiming d c⟩ s m := by
  rcases hc : c.step s.slots with ⟨c' | _ | _, slots⟩ <;>
    simp [stepClaiming, become, quietly, hc] at hm <;> subst hm
  · exact .claim hc
  · exact .grant hc
  · exact .stayInline hc

/-- The start of a worker, or the failure of the system to start one. -/
private theorem does_of_stepSpawning {d : Dir}
    (hm : stepSpawning o ⟨h, fs, .spawning d⟩ s d = some m) :
    Does walk o ⟨h, fs, .spawning d⟩ s m := by
  cases hroom : o.room
  · simp [stepSpawning, become, quietly, hroom] at hm
    exact hm ▸ .missSpawn hroom
  · rcases fs with _ | ⟨fr, fs⟩ <;>
      simp [stepSpawning, adopt, become, Frame.addWorker, hroom] at hm <;> subst hm
    · exact .spawnOutside hroom
    · exact .spawn hroom

/-- The return of a slot for which no thread was started. -/
private theorem does_of_stepReturning {d : Dir} {r : Release}
    (hm : stepReturning ⟨h, fs, .returning d r⟩ s d r = some m) :
    Does walk o ⟨h, fs, .returning d r⟩ s m := by
  rcases hr : r.step s.slots with ⟨_ | r', slots⟩ <;>
    simp [stepReturning, become, quietly, hr] at hm <;> subst hm
  · exact .endReturn hr
  · exact .return hr

/-- The raise of the flag, and what a failure makes the thread give up. -/
private theorem does_of_raising {resume : Resume}
    (hm : quietly (Thread.resume ⟨h, fs, .raising resume⟩ resume)
      { s with store := s.store.raise } = some m) :
    Does walk o ⟨h, fs, .raising resume⟩ s m := by
  rcases resume with _ | _ | ⟨d, ws⟩
  · simp [Thread.resume, become, quietly] at hm
    exact hm ▸ .raiseScan
  · rcases fs with _ | ⟨fr, fs⟩ <;>
      simp [Thread.resume, close, become, quietly] at hm <;> subst hm
    · exact .raiseOutside
    · exact .raiseClose
  · simp [Thread.resume, become, quietly] at hm
    exact hm ▸ .raiseJoin

/-- The wait for the workers of a directory. -/
private theorem does_of_stepClosing {d : Dir} {ws : List ThreadId}
    (hm : stepClosing walk o ⟨h, fs, .closing d ws⟩ s d ws = some m) :
    Does walk o ⟨h, fs, .closing d ws⟩ s m := by
  rcases ws with _ | ⟨w, ws⟩
  · cases hr : s.store.raised <;> simp [stepClosing, become, quietly, showing, hr] at hm <;>
      subst hm
    · exact .leave hr
    · exact .skipLeaving hr
  · rcases hw : o.ended? w with _ | ⟨home, (e | p) | ⟨⟨⟩⟩⟩ <;>
      simp [stepClosing, become, quietly, hw] at hm <;> subst hm
    · exact .join hw (by simp)
    · exact .joinDead hw
    · exact .join hw (by simp)

/-- The return of a slot by the worker that has it. -/
private theorem does_of_stepReleasing {r : Release} {result : Outcome Unit}
    (hm : stepReleasing ⟨h, fs, .releasing r result⟩ s r result = some m) :
    Does walk o ⟨h, fs, .releasing r result⟩ s m := by
  rcases hr : r.step s.slots with ⟨_ | r', slots⟩ <;>
    simp [stepReleasing, become, quietly, hr] at hm <;> subst hm
  · exact .endRelease hr
  · exact .release hr

/-- A step is one of the list. -/
theorem does_of_step {t : Thread σ ν} (hm : t.step walk o s = some m) : Does walk o t s m := by
  obtain ⟨h, fs, task⟩ := t
  cases task with
  | checking d =>
      cases hr : s.store.raised <;> simp [step, become, quietly, hr] at hm <;> subst hm
      · exact .check hr
      · exact .skipListing hr
  | asking d =>
      simp [step, become, showing] at hm
      exact hm ▸ .beginListing
  | listing d rest => exact does_of_stepListing hm
  | scanning => exact does_of_stepScanning hm
  | acting site a => exact does_of_stepActing hm
  | calling site r rest next => exact does_of_stepCalling hm
  | claiming d c => exact does_of_stepClaiming hm
  | spawning d => exact does_of_stepSpawning hm
  | returning d r => exact does_of_stepReturning hm
  | reporting e resume =>
      simp [step, become, showing] at hm
      exact hm ▸ .report
  | raising resume => exact does_of_raising hm
  | closing d ws => exact does_of_stepClosing hm
  | unwinding p =>
      simp [step, workersEnded, quietly, finish] at hm
      obtain ⟨hall, rfl⟩ := hm
      cases hc : o.caller
      · simpa [hc] using Does.unwindWorker hc (by simpa using hall)
      · simpa [hc] using Does.unwindCaller hc (by simpa using hall)
  | releasing r result => exact does_of_stepReleasing hm
  | concluding =>
      cases hf : s.failure <;> simp [step, become, finish, quietly, hf] at hm <;> subst hm
      · exact .concludeClean hf
      · exact .concludeFailed hf
  | settling =>
      cases hr : s.store.raised <;> simp [step, finish, quietly, hr] at hm <;> subst hm
      · exact .settleWell hr
      · exact .settleCancelled hr
  | ended result => simp [step] at hm

end

/-! What the threads make of the place for a failure and of the flag is what a `Verdict` does, one
step after another. -/

section

variable {walk : Walk σ ν} {o o' : Others} {t : Thread σ ν} {s : Shared σ ν} {m m' : Moved σ ν}

/-- A failure that the walk leaves: first the place for it, then the flag. -/
theorem Does.report_raise (report : Does walk o t s m) (raise : Does walk o' m.thread m.shared m')
    {e : WalkError} {resume : Resume} (task : t.task = .reporting e resume) :
    m.event = .reported e (s.verdict.fail e).1 ∧ m'.shared.verdict = (s.verdict.fail e).2 := by
  cases report with
  | report =>
    cases task
    refine ⟨rfl, ?_⟩
    cases raise <;> rfl
  | _ => cases task

/-- A failure that the visitor leaves itself: the same. -/
theorem Does.offer_cancel (offer : Does walk o t s m) (cancel : Does walk o' m.thread m.shared m')
    {site : Site} {e : WalkError} {next : Bool → Action ν}
    (task : t.task = .acting site (.fail e next)) :
    m.event = .offered site e (s.verdict.fail e).1 ∧ m'.shared.verdict = (s.verdict.fail e).2 := by
  cases offer with
  | offer =>
    cases task
    refine ⟨rfl, ?_⟩
    cases cancel
    rfl
  | _ => cases task

/-- The visitor takes the kept failure away. -/
theorem Does.takes (take : Does walk o t s m) {site : Site} {next : Option WalkError → Action ν}
    (task : t.task = .acting site (.take next)) :
    m.event = .took site s.verdict.take.1 ∧ m.shared.verdict = s.verdict.take.2 := by
  cases take with
  | take =>
    cases task
    exact ⟨rfl, rfl⟩
  | _ => cases task

/-- The calling thread concludes: it ends with the kept failure, or has one more look at the
flag. -/
theorem Does.concludes (h : Does walk o t s m) (task : t.task = .concluding) :
    m.shared.verdict = s.verdict.conclude.2 ∧
      ((∃ e, s.failure = some e) ∧
          m.thread.task = .ended (s.verdict.conclude.1.mapError Halt.failed) ∨
        s.failure = none ∧ m.thread.task = .settling) := by
  cases h with
  | @concludeFailed _ _ e s kept =>
    have hkept : s.verdict.conclude.1 = .error e := Verdict.conclude_of_kept kept
    exact ⟨rfl, .inl ⟨⟨e, kept⟩, by rw [hkept]; rfl⟩⟩
  | concludeClean clean =>
    exact ⟨(Verdict.take_of_none clean).symm, .inr ⟨clean, rfl⟩⟩
  | _ => cases task

/-- The calling thread has its last look at the flag. -/
theorem Does.settles (h : Does walk o t s m) (task : t.task = .settling)
    (clean : s.failure = none) :
    m.shared.verdict = s.verdict.conclude.2 ∧
      m.thread.task = .ended (s.verdict.conclude.1.mapError Halt.failed) := by
  have hsame : s.verdict = s.verdict.conclude.2 := (Verdict.take_of_none clean).symm
  cases h with
  | settleCancelled raised =>
    have hcancelled : s.verdict.conclude.1 = .error .cancelled :=
      Verdict.conclude_of_raised clean raised
    exact ⟨hsame, by rw [hcancelled]; rfl⟩
  | settleWell down =>
    have hwell : s.verdict.conclude.1 = .ok () := Verdict.conclude_of_down clean down
    exact ⟨hsame, by rw [hwell]; rfl⟩
  | _ => cases task

end

end Thread

/-- After a visitor that has finished well the thread claims a slot for a subdirectory, or goes on
with its entries. -/
theorem Site.onward_ind {P : Task σ ν → Prop} (site : Site) (claiming : ∀ d, P (.claiming d .start))
    (scanning : P .scanning) : P site.onward := by
  cases site with
  | visit d e =>
    simp only [onward]
    split
    · exact claiming _
    · exact scanning
  | leave d => exact scanning

namespace World

/-- A step of the walk is a step of one of its threads. -/
theorem step_eq_some {walk : Walk σ ν} {w w' : World σ ν} {i : ThreadId} {room : Bool} {e : Event}
    (h : w.step walk i room = some (e, w')) :
    ∃ t m, w.threads[i]? = some t ∧ t.Does walk (w.others i room) w.shared m ∧
      m.event = e ∧ w.update i m = w' := by
  unfold step at h
  cases ht : w.threads[i]? with
  | none => simp [ht] at h
  | some t =>
    cases hm : t.step walk (w.others i room) w.shared with
    | none => simp [ht, hm] at h
    | some m =>
      simp only [ht, hm, Option.some.injEq, Prod.mk.injEq] at h
      exact ⟨t, m, rfl, Thread.does_of_step hm, h.1, h.2⟩

end World

end ShardSweep
