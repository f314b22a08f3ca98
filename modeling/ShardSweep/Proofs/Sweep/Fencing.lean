import ShardSweep.Proofs.Client.Stale
import ShardSweep.Proofs.Sweep.Usage
import ShardSweep.Proofs.Walk.Calls

/-!
# Walks at another generation

A walk keeps the generation that it was started at, and while it runs new generations of its
filesystem may begin at any moment, between two calls, between two attempts of a call, or between
the answer of the service and the end of the call.  The service grants its requests only as long
as their generation is current.

* `World.GrantedAt`: a request is granted with a move;
* `Fenced`: what the generation means for a walk;
* `Sweep.walk_fenced`: it means this for every walk that counts or removes.
-/

namespace ShardSweep

variable {ν : Type}

/-- A walk with a client of a service. -/
def Client.walk (c : Client) (visitor : Visitor ν) (plan : WalkPlan) : Walk Deployment ν :=
  ⟨(Deployment.metadata c).on Flagged.innerPart, visitor, plan⟩

/-- A new generation of a filesystem begins, and nothing else happens. -/
def Deployment.Bumped (fs : FsId) (s s' : Flagged Deployment) : Prop :=
  s' = ⟨s.inner.onService (·.bumpEpoch fs), s.raised⟩

/-- All that the two visitors ask for they ask for at the generation of the walk. -/
theorem Visitor.BuiltIn.pinned {visitor : Visitor ν} (h : visitor.BuiltIn) (plan : WalkPlan)
    (site : Site) : (visitor.act plan site).Makes (Request.Pinned plan.fs plan.epoch) := by
  have hask : ∀ {ν : Type} {r : Request} {next : r.Answer → Action ν},
      r.Pinned plan.fs plan.epoch →
      (∀ a, (next a).Makes (Request.Pinned plan.fs plan.epoch)) →
      (Action.ask r next).Makes (Request.Pinned plan.fs plan.epoch) := by
    intro ν r next hr hnext
    refine ⟨hr, fun answer => ?_⟩
    cases answer with
    | ok a => exact hnext a
    | error e => trivial
  cases h with
  | tally once =>
    rcases site with ⟨d, e⟩ | d
    · simp only [act, tallyVisitor]
      cases e.kind with
      | dir => exact fun _ => trivial
      | file =>
        refine fun _ => hask ⟨rfl, rfl⟩ fun attr => ?_
        unfold Action.countFile
        split
        · intro before
          dsimp only
          split
          · exact fun _ => trivial
          · trivial
        · exact fun _ => trivial
    · trivial
  | removal =>
    rcases site with ⟨d, e⟩ | d
    · simp only [act, removalVisitor]
      cases e.kind with
      | dir => trivial
      | file => exact hask ⟨rfl, rfl⟩ fun _ _ => trivial
    · simp only [act, removalVisitor]
      split
      · trivial
      · exact hask ⟨rfl, rfl⟩ fun _ _ => trivial

namespace World

/-- The service before a move. -/
def serviceAt (start : World Deployment ν) (walk : Walk Deployment ν)
    (schedule : Schedule (Flagged Deployment)) (n : Nat) : Service :=
  (start.after walk schedule n).shared.store.inner.service

/-- With a move a request is granted, by a service that is at the generation of the walk. -/
structure GrantedAt (start : World Deployment ν) (walk : Walk Deployment ν)
    (schedule : Schedule (Flagged Deployment)) (n : Nat) (r : Request) (a : r.Answer) : Prop where
  answer : ((start.serviceAt walk schedule n).serve r).1 = .ok a
  current : ∃ f, (start.serviceAt walk schedule n).current walk.plan.fs walk.plan.epoch = .ok f
  after : ((start.serviceAt walk schedule n).serve r).2.SameNames
    (start.serviceAt walk schedule (n + 1))

end World

/-- What the generation means for a walk from the directory `root`. -/
structure Fenced (c : Client) (root : Dir) (walk : Walk Deployment ν) (start : World Deployment ν)
    (schedule : Schedule (Flagged Deployment)) : Prop where
  /-- Each call of a walk that ends well was granted while it lasted, at a moment when the
  generation was current. -/
  well : ∀ n, (start.after walk schedule n).result? = some (.ok ()) →
    ∀ i e k r, (i, e) ∈ start.shownAt walk schedule k → e.request? walk.plan = some r →
      ∃ l e' a m, start.Calling walk schedule i r k l ∧ (i, e') ∈ start.shownAt walk schedule l ∧
        e'.Replies walk.plan r (.ok a) ∧ k < m ∧ m < l ∧ start.GrantedAt walk schedule m r a
  /-- Once the filesystem is past the generation it remains so, nothing changes but its generation,
  and whatever call succeeds was granted before. -/
  past : ∀ b, (start.serviceAt walk schedule b).Past walk.plan.fs walk.plan.epoch →
    (∀ n, b ≤ n → (start.serviceAt walk schedule n).Past walk.plan.fs walk.plan.epoch ∧
      (start.serviceAt walk schedule b).Aged walk.plan.fs (start.serviceAt walk schedule n)) ∧
    ∀ i e l r a, (i, e) ∈ start.shownAt walk schedule l → e.Replies walk.plan r (.ok a) →
      ∃ k m, start.Calling walk schedule i r k l ∧ k < m ∧ m < l ∧ m < b ∧
        start.GrantedAt walk schedule m r a
  /-- If the generation is never current nothing changes but generations. -/
  never : (∀ n f, (start.serviceAt walk schedule n).current walk.plan.fs walk.plan.epoch ≠ .ok f) →
    ∀ n, (start.serviceAt walk schedule 0).Aged walk.plan.fs (start.serviceAt walk schedule n)
  /-- If nothing else is in the way then, the walk fails: the listing of its root is refused as
  often as the client may ask, and nothing else is asked for. -/
  refused : (∀ n f, (start.serviceAt walk schedule n).current walk.plan.fs walk.plan.epoch ≠ .ok f) →
    (∃ f, (start.serviceAt walk schedule 0).filesystem? walk.plan.fs = some f) →
    ∀ endpoint,
      c.Clear root.inode endpoint (Deployment.clientPart.get start.shared.store.inner) →
      schedule.Fair → ∃ bound text, ∀ n, bound ≤ n →
        (start.after walk schedule n).result? = some (.error (.failed (.rpc
          (.exhausted .listEntries endpoint c.rpc.maxAttempts (.status ⟨.staleEpoch, text⟩))))) ∧
        (start.serviceAt walk schedule n).counts =
          { (start.serviceAt walk schedule 0).counts with
            listEntries := (start.serviceAt walk schedule 0).counts.listEntries + c.rpc.maxAttempts }

namespace Fenced

variable {c : Client} {visitor : Visitor ν} {plan : WalkPlan} {root : Dir} {d : Deployment}
  {state : ν} {schedule : Schedule (Flagged Deployment)} {start : World Deployment ν}

/-- What a request of a walk may do, and how it is granted. -/
private def asks (c : Client) (r : Request) : Contract (Flagged Deployment) (Option r.Answer) :=
  ((c.contract False r).on Deployment.clientPart).on Flagged.innerPart

/-- What a request is told it was granted by the service at one moment. -/
private theorem grants (c : Client) (visitor : Visitor ν) (plan : WalkPlan) :
    World.Grants (c.walk visitor plan).metadata (Request.Pinned plan.fs plan.epoch) (asks c) where
  assume r g s h := h.elim
  once r g s s' g' h := by
    obtain ⟨⟨⟨hmoves, -⟩, -⟩, -⟩ := h
    cases hmoves with
    | idle => exact .inl rfl
    | grant => exact .inr rfl
  obeys r hr := by
    obtain ⟨i, hi⟩ := hr.exists_shard
    refine (((Client.call_obeys hi).on Deployment.clientPart).on Flagged.innerPart).mono ?_
    intro outcome g hgranted a hok
    rw [hok] at hgranted
    exact hgranted

/-- No request lowers the flag. -/
private theorem requests (c : Client) (visitor : Visitor ν) (plan : WalkPlan) :
    (c.walk visitor plan).metadata.Within Flagged.Keeps := fun r =>
  (Proc.within_innerPart _).mono fun s s' hsame hup => by rw [hsame, hup]

/-- A new generation has nothing to do with the flag. -/
private theorem bumped_keeps {fs : FsId} {s s' : Flagged Deployment}
    (h : Deployment.Bumped fs s s') : s.Keeps s' := by
  rw [h]
  exact id

/-- The walk asks only about its filesystem, at its generation. -/
private theorem makes (c : Client) (builtIn : visitor.BuiltIn) (plan : WalkPlan) :
    (c.walk visitor plan).Makes (Request.Pinned plan.fs plan.epoch) where
  listings _ := ⟨rfl, rfl⟩
  visitor := builtIn.pinned plan

variable (builtIn : visitor.BuiltIn) (bumps : schedule.Within (Deployment.Bumped plan.fs))
  (fresh : start = .initial plan root ⟨d, false⟩ state)

include builtIn bumps fresh

/-- What is shown as a reply was granted while the request was under way. -/
private theorem granted_of_reply {l : Nat} {i : ThreadId} {e : Event} {r : Request} {a : r.Answer}
    (shown : (i, e) ∈ start.shownAt (c.walk visitor plan) schedule l)
    (replies : e.Replies plan r (.ok a)) :
    ∃ k m, start.Calling (c.walk visitor plan) schedule i r k l ∧ k < m ∧ m < l ∧
      start.GrantedAt (c.walk visitor plan) schedule m r a := by
  obtain ⟨hpinned, k, hcalling, hgranted⟩ :=
    World.granted_of_reply (grants c visitor plan) (makes c builtIn plan) bumps fresh shown replies
  obtain ⟨m, hk, hl, ⟨⟨hmoves, -⟩, -⟩, -⟩ := hgranted a rfl
  cases hmoves with
  | grant hanswer hafter =>
    exact ⟨k, m, hcalling, hk, hl, hanswer, Service.current_of_serve hpinned hanswer, hafter⟩

/-- Unless the generation is current a move changes nothing but the generation. -/
private theorem aged_succ {n : Nat}
    (stale : ∀ f, (start.serviceAt (c.walk visitor plan) schedule n).current plan.fs plan.epoch ≠
      .ok f) :
    (start.serviceAt (c.walk visitor plan) schedule n).Aged plan.fs
      (start.serviceAt (c.walk visitor plan) schedule (n + 1)) := by
  unfold World.serviceAt at *
  rcases World.store_after (grants c visitor plan) (makes c builtIn plan) bumps fresh n with
    hbumped | hsame | ⟨r, g, g', hpinned, hstep⟩
  · rw [hbumped]
    exact .bump _ _
  · rw [hsame]
    exact .same (.refl _)
  · obtain ⟨⟨⟨hmoves, -⟩, -⟩, -⟩ := hstep
    cases hmoves with
    | idle hsame => exact .same hsame
    | grant hanswer =>
      obtain ⟨f, hcurrent⟩ := Service.current_of_serve hpinned hanswer
      exact absurd hcurrent (stale f)

/-- As long as all is refused nothing but the generation changes. -/
private theorem aged_of_stale
    (stale : ∀ n f, (start.serviceAt (c.walk visitor plan) schedule n).current plan.fs plan.epoch ≠
      .ok f) (n : Nat) :
    (start.serviceAt (c.walk visitor plan) schedule 0).Aged plan.fs
      (start.serviceAt (c.walk visitor plan) schedule n) := by
  induction n with
  | zero => exact .same (.refl _)
  | succ n ih => exact ih.trans (aged_succ builtIn bumps fresh (stale n))

/-- A generation that has passed does not come back. -/
private theorem past_of_le {b n : Nat}
    (past : (start.serviceAt (c.walk visitor plan) schedule b).Past plan.fs plan.epoch)
    (le : b ≤ n) :
    (start.serviceAt (c.walk visitor plan) schedule n).Past plan.fs plan.epoch ∧
      (start.serviceAt (c.walk visitor plan) schedule b).Aged plan.fs
        (start.serviceAt (c.walk visitor plan) schedule n) := by
  induction n, le using Nat.le_induction with
  | base => exact ⟨past, .same (.refl _)⟩
  | succ n _ ih =>
    have haged := aged_succ builtIn bumps fresh ih.1.current_ne
    exact ⟨ih.1.aged haged, ih.2.trans haged⟩

/-- Each call of a walk that ends well was granted while it lasted. -/
private theorem granted_of_well {n k : Nat} {i : ThreadId} {e : Event} {r : Request}
    (done : (start.after (c.walk visitor plan) schedule n).result? = some (.ok ()))
    (shown : (i, e) ∈ start.shownAt (c.walk visitor plan) schedule k)
    (request : e.request? plan = some r) :
    ∃ l e' a m, start.Calling (c.walk visitor plan) schedule i r k l ∧
      (i, e') ∈ start.shownAt (c.walk visitor plan) schedule l ∧ e'.Replies plan r (.ok a) ∧
      k < m ∧ m < l ∧ start.GrantedAt (c.walk visitor plan) schedule m r a := by
  obtain ⟨tr, hrun, htr⟩ := World.run_after (c.walk visitor plan) bumps start n
  rcases World.reply_of_call bumps shown request (World.lt_of_shownAt shown done) with
    ⟨t, rest, ht, hasks, -⟩ | ⟨l, hl, e', outcome, hcalling, hshown, hreplies⟩
  · subst fresh
    obtain ⟨result, hresult⟩ :=
      ((World.Kin.initial plan root _ state).of_run hrun).ended_of_result (by simp [done]) i t ht
    rw [hasks.result?] at hresult
    cases hresult
  · have hmem := (htr _).mpr ⟨l, hl, hshown⟩
    have hanswered : ∃ a, outcome = .ok a := by
      subst fresh
      exact World.Run.ok_of_replies hrun (requests c visitor plan)
        (fun _ _ => bumped_keeps) (fun site => (builtIn.plain plan site).2) done hmem hreplies
    obtain ⟨a, rfl⟩ := hanswered
    obtain ⟨k', m, hcalling', hk, hm, hgranted⟩ :=
      granted_of_reply builtIn bumps fresh hshown hreplies
    obtain rfl := hcalling.unique hcalling'
    exact ⟨l, e', a, m, hcalling, hshown, hreplies, hk, hm, hgranted⟩

omit builtIn bumps fresh

/-- What the walk fails with if it is refused until the last attempt. -/
private def failure (c : Client) (endpoint : Endpoint) (text : String) : WalkError :=
  .rpc (c.staleError .listEntries endpoint text)

/-- What the listing of its root may do then. -/
private def asksStale (c : Client) (root : Dir) (endpoint : Endpoint) (plan : WalkPlan) :
    Contract (Flagged Deployment) Nat :=
  ((c.staleContract root.inode endpoint plan.fs plan.epoch .listEntries).on
    Deployment.clientPart).on Flagged.innerPart

/-- How far the calling thread has come with a walk that is refused the listing of its root.  The
number says how often it was refused. -/
private inductive Turning (c : Client) (root : Dir) (endpoint : Endpoint) (plan : WalkPlan)
    (s : Shared Deployment ν) : Task Deployment ν → Nat → Prop
  | checking (down : s.store.raised = false) (clean : s.failure = none) :
      Turning c root endpoint plan s (.checking root) 0
  | asking (clean : s.failure = none) : Turning c root endpoint plan s (.asking root) 0
  | listing {rest g} (clean : s.failure = none)
      (obeys : rest.Obeys (asksStale c root endpoint plan) g fun outcome g =>
        g = c.rpc.maxAttempts ∧ ∃ text, outcome = .error (.failed (failure c endpoint text))) :
      Turning c root endpoint plan s (.listing root rest) g
  | reporting {text} (clean : s.failure = none) :
      Turning c root endpoint plan s (.reporting (failure c endpoint text) .scan) c.rpc.maxAttempts
  | raising {text} (kept : s.failure = some (failure c endpoint text)) :
      Turning c root endpoint plan s (.raising .scan) c.rpc.maxAttempts
  | scanning {text} (kept : s.failure = some (failure c endpoint text)) :
      Turning c root endpoint plan s .scanning c.rpc.maxAttempts
  | concluding {text} (kept : s.failure = some (failure c endpoint text)) :
      Turning c root endpoint plan s .concluding c.rpc.maxAttempts
  | ended {text} :
      Turning c root endpoint plan s (.ended (.error (.failed (failure c endpoint text))))
        c.rpc.maxAttempts

/-- The same of the walk. -/
private structure Turns (c : Client) (root : Dir) (endpoint : Endpoint) (plan : WalkPlan)
    (before : CallCounts) (w : World Deployment ν) : Prop where
  clear : c.Clear root.inode endpoint (Deployment.clientPart.get w.shared.store.inner)
  alone : ∃ task g, w.threads = #[⟨root, [], task⟩] ∧ Turning c root endpoint plan w.shared task g ∧
    w.shared.store.inner.service.counts = { before with listEntries := before.listEntries + g }

variable {endpoint : Endpoint} {before : CallCounts} {w w' : World Deployment ν}

/-- One step of the calling thread, at a moment when the generation is not current. -/
private theorem Turning.step {walk : Walk Deployment ν} (hwalk : walk = c.walk visitor plan)
    {o : Others} {s : Shared Deployment ν} {task : Task Deployment ν} {g : Nat}
    {m : Moved Deployment ν}
    (h : Turning c root endpoint plan s task g) (does : Thread.Does walk o ⟨root, [], task⟩ s m)
    (caller : o.caller = true)
    (clear : c.Clear root.inode endpoint (Deployment.clientPart.get s.store.inner))
    (stale : ∃ text, s.store.inner.service.current plan.fs plan.epoch = .error ⟨.staleEpoch, text⟩) :
    ∃ task' g', m.thread = ⟨root, [], task'⟩ ∧ m.child = none ∧
      Turning c root endpoint plan m.shared task' g' ∧
      c.Clear root.inode endpoint (Deployment.clientPart.get m.shared.store.inner) ∧
      (g' = g ∧ m.shared.store.inner.service.counts = s.store.inner.service.counts ∨
        g' = g + 1 ∧ m.shared.store.inner.service.counts =
          s.store.inner.service.counts.bump .listEntries) ∧
      ∀ d es, m.event ≠ .listed d (.ok es) := by
  subst hwalk
  cases h with
  | checking down clean =>
    cases does with
    | skipListing raised => simp [down] at raised
    | check => exact ⟨_, _, rfl, rfl, .asking clean, clear, .inl ⟨rfl, rfl⟩, nofun⟩
  | asking clean =>
    cases does with
    | beginListing =>
      have hobeys := @Client.call_exhausts c root.inode endpoint plan.fs plan.epoch
        (.listEntries plan.fs root.inode plan.epoch) ⟨rfl, rfl⟩ rfl
      exact ⟨_, _, rfl, rfl,
        .listing clean ((hobeys.on Deployment.clientPart).on Flagged.innerPart), clear,
        .inl ⟨rfl, rfl⟩, nofun⟩
  | listing clean obeys =>
    cases does with
    | stepListing =>
      obtain ⟨g', ⟨⟨⟨hclear, hcounts⟩, -⟩, -⟩, hnext⟩ := obeys s.store ⟨clear, stale⟩
      exact ⟨_, g', rfl, rfl, .listing clean hnext, hclear, hcounts, nofun⟩
    | endListing =>
      obtain ⟨-, text, heq⟩ := obeys
      cases heq
    | failListing =>
      obtain ⟨rfl, text, heq⟩ := obeys
      cases heq
      exact ⟨_, _, rfl, rfl, .reporting clean, clear, .inl ⟨rfl, rfl⟩, nofun⟩
    | dieListing =>
      obtain ⟨-, text, heq⟩ := obeys
      cases heq
  | @reporting text clean =>
    cases does with
    | report =>
      have hkept : (offerFailure (failure c endpoint text) s.failure).2 =
          some (failure c endpoint text) := by
        rw [clean]
        rfl
      exact ⟨_, _, rfl, rfl, .raising hkept, clear, .inl ⟨rfl, rfl⟩, nofun⟩
  | raising kept =>
    cases does with
    | raiseScan => exact ⟨_, _, rfl, rfl, .scanning kept, clear, .inl ⟨rfl, rfl⟩, nofun⟩
  | scanning kept =>
    cases does with
    | conclude => exact ⟨_, _, rfl, rfl, .concluding kept, clear, .inl ⟨rfl, rfl⟩, nofun⟩
    | goHome worker => simp [caller] at worker
  | concluding kept =>
    cases does with
    | concludeFailed kept' =>
      obtain rfl := Option.some.inj (kept'.symm.trans kept)
      exact ⟨_, _, rfl, rfl, .ended, clear, .inl ⟨rfl, rfl⟩, nofun⟩
    | concludeClean clean => simp [kept] at clean
  | ended => cases does

/-- A step of the walk, at such a moment. -/
private theorem Turns.step (h : Turns c root endpoint plan before w) {i : ThreadId} {room : Bool}
    {e : Event} (step : w.step (c.walk visitor plan) i room = some (e, w'))
    (stale : ∃ text, w.shared.store.inner.service.current plan.fs plan.epoch =
      .error ⟨.staleEpoch, text⟩) :
    Turns c root endpoint plan before w' ∧ ∀ d es, e ≠ .listed d (.ok es) := by
  obtain ⟨task, g, hthreads, hturning, hcounts⟩ := h.alone
  obtain ⟨t, m, ht, hdoes, rfl, rfl⟩ := World.step_eq_some step
  obtain ⟨rfl, rfl⟩ : i = 0 ∧ t = ⟨root, [], task⟩ := by
    rw [hthreads] at ht
    have hi : i = 0 := by simpa using (Array.getElem?_eq_some_iff.mp ht).1
    subst hi
    simpa [eq_comm] using ht
  obtain ⟨task', g', hthread, hchild, hturning', hclear, hcounts', hevent⟩ :=
    hturning.step rfl hdoes rfl h.clear stale
  refine ⟨⟨?_, task', g', ?_, ?_, ?_⟩, hevent⟩
  · rwa [World.shared_update]
  · rw [World.threads_update, hchild, hthreads, hthread]
    rfl
  · rwa [World.shared_update]
  · rw [World.shared_update]
    rcases hcounts' with ⟨rfl, hsame⟩ | ⟨rfl, hmore⟩
    · rw [hsame, hcounts]
    · rw [hmore, hcounts]
      rfl

/-- A new generation is not in the way. -/
private theorem Turns.bump (h : Turns c root endpoint plan before w) {s : Flagged Deployment}
    (bumped : Deployment.Bumped plan.fs w.shared.store s) :
    Turns c root endpoint plan before (w.withStore s) := by
  obtain ⟨task, g, hthreads, hturning, hcounts⟩ := h.alone
  obtain ⟨filesystems, hbump⟩ :=
    w.shared.store.inner.service.exists_bumpEpoch_eq plan.fs
  obtain rfl : s = ⟨{ w.shared.store.inner with
      service := { w.shared.store.inner.service with filesystems := filesystems } },
      w.shared.store.raised⟩ := by
    rw [bumped, Deployment.onService, hbump]
  have hclear := h.clear
  refine ⟨⟨hclear.active, hclear.there, hclear.reached, hclear.inTime, hclear.dials,
    hclear.transport, hclear.status, hclear.idle⟩, task, g, hthreads, ?_, hcounts⟩
  -- Neither the flag nor the kept failure has changed.
  cases hturning with
  | checking down clean => exact .checking down clean
  | asking clean => exact .asking clean
  | listing clean obeys => exact .listing clean obeys
  | reporting clean => exact .reporting clean
  | raising kept => exact .raising kept
  | scanning kept => exact .scanning kept
  | concluding kept => exact .concluding kept
  | ended => exact .ended

/-- The walk ends with the refusal of its one listing, after all tries. -/
private theorem Turns.result (h : Turns c root endpoint plan before w) {result : Outcome Unit}
    (done : w.result? = some result) :
    ∃ text, result = .error (.failed (failure c endpoint text)) ∧
      w.shared.store.inner.service.counts =
        { before with listEntries := before.listEntries + c.rpc.maxAttempts } := by
  obtain ⟨task, g, hthreads, hturning, hcounts⟩ := h.alone
  have hended : task.result? = some result := by
    simpa [World.result?, World.ended?, hthreads] using done
  rw [Task.eq_ended_of_result? hended] at hturning
  cases hturning
  exact ⟨_, rfl, hcounts⟩

section

variable (bumps : schedule.Within (Deployment.Bumped plan.fs))
  (fresh : start = .initial plan root ⟨d, false⟩ state)
  (clear : c.Clear root.inode endpoint (Deployment.clientPart.get d))
  (stale : ∀ n, ∃ text, (start.serviceAt (c.walk visitor plan) schedule n).current plan.fs
    plan.epoch = .error ⟨.staleEpoch, text⟩)

include bumps fresh clear stale

/-- The calling thread goes through these turns, and nobody else acts. -/
private theorem turns_after (n : Nat) :
    Turns c root endpoint plan d.service.counts (start.after (c.walk visitor plan) schedule n) := by
  induction n with
  | zero =>
    subst fresh
    exact ⟨clear, .checking root, 0, rfl, .checking rfl rfl, rfl⟩
  | succ n ih =>
    have hturn := World.turn_after (c.walk visitor plan) bumps start n
    have hstale := stale n
    unfold World.serviceAt at hstale
    generalize start.shownAt (c.walk visitor plan) schedule n = shown at hturn
    generalize start.after (c.walk visitor plan) schedule (n + 1) = w' at hturn ⊢
    generalize start.after (c.walk visitor plan) schedule n = w at hturn hstale ih
    cases hturn with
    | rest => exact ih
    | outside hbumped => exact ih.bump hbumped
    | step hstep => exact (ih.step hstep hstale).1

/-- A walk whose generation is never current is over when the listing of its root was refused
often enough. -/
private theorem refused_after (fair : schedule.Fair) :
    ∃ bound text, ∀ n, bound ≤ n →
      (start.after (c.walk visitor plan) schedule n).result? =
        some (.error (.failed (failure c endpoint text))) ∧
      (start.serviceAt (c.walk visitor plan) schedule n).counts =
        { d.service.counts with
          listEntries := d.service.counts.listEntries + c.rpc.maxAttempts } := by
  have hturns := turns_after bumps fresh clear stale
  -- No listing is ever seen, so any forest will do.
  have hagrees : ∀ n, Trace.Agrees .bare (start.shownAt (c.walk visitor plan) schedule n) := by
    intro n shown hshown e es hlisted
    rcases World.still_or_step (c.walk visitor plan) bumps start n with
      ⟨-, hnothing⟩ | ⟨i, room, event, hstep, hevent⟩
    · simp [hnothing] at hshown
    · obtain rfl : shown = (i, event) := by simpa [hevent] using hshown
      exact absurd hlisted (((hturns n).step hstep (stale n)).2 e es)
  have hkin : start.Kin := fresh ▸ World.Kin.initial plan root ⟨d, false⟩ state
  obtain ⟨bound, result, hresult⟩ := World.exists_result_after bumps fair hkin hagrees
  obtain ⟨text, rfl, hcounts⟩ := (hturns bound).result hresult
  refine ⟨bound, text, fun n hn => ?_⟩
  unfold World.serviceAt
  rw [World.after_eq_of_le hn hresult]
  exact ⟨hresult, hcounts⟩

end

end Fenced

namespace Sweep

variable {c : Client} {visitor : Visitor ν} {plan : WalkPlan} {root : Dir} {d : Deployment}
  {state : ν} {schedule : Schedule (Flagged Deployment)}

/-- A walk that counts or removes is fenced by its generation, however its threads take turns with
each other and with the generations that begin. -/
theorem walk_fenced (builtIn : visitor.BuiltIn)
    (bumps : schedule.Within (Deployment.Bumped plan.fs)) :
    Fenced c root (c.walk visitor plan) (.initial plan root ⟨d, false⟩ state) schedule where
  well n done i e k r shown request := Fenced.granted_of_well builtIn bumps rfl done shown request
  past b past := by
    refine ⟨fun n hn => Fenced.past_of_le builtIn bumps rfl past hn, ?_⟩
    intro i e l r a shown replies
    obtain ⟨k, m, hcalling, hk, hl, hgranted⟩ :=
      Fenced.granted_of_reply builtIn bumps rfl shown replies
    refine ⟨k, m, hcalling, hk, hl, ?_, hgranted⟩
    -- A moment after `b` is past the generation, so nothing is granted then.
    by_contra hle
    obtain ⟨f, hcurrent⟩ := hgranted.current
    exact (Fenced.past_of_le builtIn bumps rfl past (Nat.le_of_not_lt hle)).1.current_ne f hcurrent
  never stale n := Fenced.aged_of_stale builtIn bumps rfl stale n
  refused stale known endpoint clear fair := by
    obtain ⟨f, hfound⟩ := known
    refine Fenced.refused_after bumps rfl clear (fun n => ?_) fair
    obtain ⟨later, hlater⟩ := (Fenced.aged_of_stale builtIn bumps rfl stale n).filesystem? hfound
    exact Service.current_of_ne hlater (stale n)

end Sweep

/-- A new generation begins at one moment; otherwise workers run to their end one after another. -/
def Schedule.bumping (fs : FsId) (moment : Nat) : Schedule Deployment := fun now =>
  if now = moment then some (.outside (·.onService (·.bumpEpoch fs))) else none

/-- A plan at the generation before the first one. -/
def WalkPlan.outdated : WalkPlan :=
  ⟨1, ⟨0⟩, 4, by decide, by decide⟩

/-- Another generation begins before the fourth move. -/
def Schedule.outdated : Schedule (Flagged Deployment) := fun now =>
  (Schedule.bumping 1 3 now).map (Move.on Flagged.innerPart)

/-- A usage with both after a number of moves. -/
def World.outdated (moves : Nat) : World Deployment Tally :=
  (World.initial .outdated ⟨rootInode, 0, ""⟩ ⟨.sample, false⟩ .empty).after
    (Client.walk .sample (tallyVisitor true) .outdated) .outdated moves

namespace Sweep

theorem walk_fenced_outdated :
    ∃ bound text, ∀ n, bound ≤ n →
      (World.outdated n).result? = some (.error (.failed (.rpc
        (.exhausted .listEntries .sample 4 (.status ⟨.staleEpoch, text⟩))))) ∧
      (World.outdated n).shared.store.inner.service.counts =
        { CallCounts.zero with listEntries := 4 } := by
  have hbumps : Schedule.outdated.Within (Deployment.Bumped 1) := by
    intro now change hmove s
    obtain ⟨move, hinner, hon⟩ := Option.map_eq_some_iff.mp hmove
    unfold Schedule.bumping at hinner
    split at hinner
    · cases hinner
      cases hon
      rfl
    · cases hinner
  have hfair : Schedule.outdated.Fair := by
    refine fun now => ⟨now + 4, by omega, fun change hmove => ?_⟩
    simp [Schedule.outdated, Schedule.bumping] at hmove
  have hfenced : Fenced .sample ⟨rootInode, 0, ""⟩
      (Client.walk .sample (tallyVisitor true) .outdated)
      (.initial .outdated ⟨rootInode, 0, ""⟩ ⟨.sample, false⟩ .empty) .outdated :=
    walk_fenced (.tally true) hbumps
  have hstale := fun n => ((hfenced.past 0 ⟨.sample, rfl, rfl⟩).1 n (Nat.zero_le n)).1.current_ne
  have hclear : Client.sample.Clear rootInode .sample (Deployment.clientPart.get .sample) :=
    ⟨rfl, ⟨[], rfl⟩, List.not_mem_nil, Nat.zero_le _, rfl, rfl, rfl,
      fun _ h => absurd h List.not_mem_nil⟩
  exact hfenced.refused hstale ⟨.sample, rfl⟩ .sample hclear hfair

/-- A generation that is ahead when a deletion starts can begin while it runs, and then the
deletion goes well.  And a client can get ready although the shard of the root has no endpoint;
then a usage at another generation fails without an attempt. -/
theorem stale_walk_goes_well :
    (∀ f, Service.sample.current 1 ⟨2⟩ ≠ .ok f) ∧
    (∀ budget, 200 ≤ budget →
      (delete (Deployment.metadata .sample) ⟨fun _ => .bumping 1 0, budget⟩ 1 rootInode 2 "t" ⟨2⟩ 1
        .sample).1 = some (.ok 2)) ∧
    ((Deployment.metadata .lopsided).prepare 1).run (.fresh .sample) = (.ok (), .sample) ∧
    Tree.sample.Reachable ∧ Service.sample.faults = .none ∧ Service.sample.unreachable = [] ∧
    Service.sample.latency.nanos = 0 ∧ (∀ f, Service.sample.current 1 ⟨0⟩ ≠ .ok f) ∧
    ∀ budget, 60 ≤ budget →
      (usage (Deployment.metadata .lopsided) ⟨fun _ => .newestFirst, budget⟩ 1 rootInode false ⟨0⟩ 1
        .sample).1 = some (.error (.failed (.rpc (.noEndpoint .listEntries)))) := by
  refine ⟨nofun, fun budget hbudget => ?_, rfl, Tree.reachable_sample, rfl, rfl, rfl, nofun,
    fun budget hbudget => ?_⟩
  · have hdone : (delete (Deployment.metadata .sample) ⟨fun _ => .bumping 1 0, 200⟩ 1 rootInode 2 "t"
        ⟨2⟩ 1 .sample).1 = some (.ok 2) := rfl
    rw [delete_eq_of_le hbudget hdone]
    exact hdone
  · have hdone : (usage (Deployment.metadata .lopsided) ⟨fun _ => .newestFirst, 60⟩ 1 rootInode false
        ⟨0⟩ 1 .sample).1 = some (.error (.failed (.rpc (.noEndpoint .listEntries)))) := rfl
    rw [usage_eq_of_le hbudget hdone]
    exact hdone

end Sweep

end ShardSweep
