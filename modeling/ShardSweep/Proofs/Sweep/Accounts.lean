import ShardSweep.Proofs.Client.Accounts
import ShardSweep.Proofs.Client.Lines
import ShardSweep.Proofs.Sweep.Job
import ShardSweep.Proofs.Sweep.Delete
import ShardSweep.Proofs.Walk.Calls

/-!
# Jobs on account

All that a job does with a client is done by requests, and its threads make them in any order.
So a job is a course of events like any other, also if others use the same client meanwhile: a
request of a thread is under way from its first step until the thread goes on.

* `Bustle`: a client with the requests that others have under way in it;
* `World.Come.run`: what has come of a walk, with the requests that its threads have under way;
* `Job.course`: a job is a course of events, and leaves no request under way;
* `Client.accountable`: so the counters agree after jobs, too.
-/

namespace ShardSweep

variable {τ κ σ ν α β : Type}

/-- A client with the requests that others have under way in it. -/
structure Bustle (τ κ : Type) where
  client : ClientState τ κ
  others : Multiset (Underway τ κ)

namespace Bustle

/-- The client. -/
def clientPart : Proc.Part (Bustle τ κ) (ClientState τ κ) where
  get := client
  set st s := { s with client := st }
  get_set _ _ := rfl
  set_get _ := rfl
  set_set _ _ _ := rfl

variable (transport : Transport τ κ) (c : Client) (aside : τ → τ → Prop)

/-- Events lead from one state to another; `mine` are requests under way that are not among those of
the others. -/
def Leads (s s' : Bustle τ κ) (mine : Multiset (Underway τ κ)) : Prop :=
  ∀ bill, ∃ bill', Client.Leads transport c aside ⟨s.client, s.others, bill⟩
    ⟨s'.client, s'.others + mine, bill'⟩

/-- The client as somebody who answers. -/
def metadata : Metadata (Bustle τ κ) :=
  (c.metadata transport).on clientPart

variable {transport : Transport τ κ} {c : Client} {aside : τ → τ → Prop}
  {s s' s'' : Bustle τ κ} {mine mine' : Multiset (Underway τ κ)}

/-- Nothing happens. -/
theorem Leads.refl (s : Bustle τ κ) : Leads transport c aside s s 0 :=
  fun bill => ⟨bill, by rw [add_zero]⟩

/-- What happens next is not disturbed by what is under way. -/
theorem Leads.trans (h : Leads transport c aside s s' mine)
    (h' : Leads transport c aside s' s'' mine') :
    Leads transport c aside s s'' (mine' + mine) := by
  intro bill
  obtain ⟨bill', hfirst⟩ := h bill
  obtain ⟨bill'', hnext⟩ := h' bill'
  refine ⟨bill'', hfirst.trans ?_⟩
  rw [← add_assoc]
  exact hnext.frame mine

/-- A call that is under way can run to its end with nobody else around. -/
private theorem leads_run (transport : Transport τ κ) (c : Client) (aside : τ → τ → Prop)
    (r : Request) (p : Proc (ClientState τ κ) (Outcome r.Answer))
    (sought : Option Bool) (st : ClientState τ κ) (us : Multiset (Underway τ κ)) (bill : Bill) :
    ∃ bill', Client.Leads transport c aside ⟨st, ⟨r, sought, p⟩ ::ₘ us, bill⟩
      ⟨(p.run st).2, us, bill'⟩ := by
  induction p generalizing sought st with
  | done outcome => exact ⟨_, .single .finish⟩
  | step change next ih =>
    obtain ⟨bill', hrest⟩ := ih st (some (sought.getD (c.seeks r st))) (change st)
    exact ⟨bill', .head .step hrest⟩

/-- A request with nobody else around. -/
theorem Leads.call (r : Request) (s : Bustle τ κ) :
    Leads transport c aside s { s with client := ((c.call transport r).run s.client).2 } 0 := by
  intro bill
  obtain ⟨bill', hrun⟩ := leads_run transport c aside r (c.call transport r) none s.client s.others
    bill
  refine ⟨bill', ?_⟩
  rw [add_zero]
  exact .head (.begin r) hrun

/-- Getting ready for a filesystem is one event. -/
theorem Leads.prepare (fs : FsId) (s : Bustle τ κ) :
    Leads transport c aside s { s with client := ((c.prepare fs).run s.client).2 } 0 := by
  intro bill
  refine ⟨bill, ?_⟩
  rw [add_zero]
  exact .single (.prepare fs)

/-! One event more, about a request that is not among those of the others. -/

/-- A call is begun, and is under way from then on. -/
private theorem Leads.begin (h : Leads transport c aside s s' mine) (r : Request) :
    Leads transport c aside s s' (⟨r, none, c.call transport r⟩ ::ₘ mine) := by
  intro bill
  obtain ⟨bill', hleads⟩ := h bill
  rw [Multiset.add_cons]
  exact ⟨bill', hleads.tail (.begin r)⟩

/-- A call that is under way takes one step. -/
private theorem Leads.step {r : Request} {sought : Option Bool} {change next}
    (h : Leads transport c aside s s' (⟨r, sought, .step change next⟩ ::ₘ mine)) :
    Leads transport c aside s { s' with client := change s'.client }
      (⟨r, some (sought.getD (c.seeks r s'.client)), next s'.client⟩ ::ₘ mine) := by
  intro bill
  obtain ⟨bill', hleads⟩ := h bill
  rw [Multiset.add_cons] at hleads ⊢
  exact ⟨bill', hleads.tail .step⟩

/-- A call that has come to its end is under way no more. -/
private theorem Leads.finish {r : Request} {sought : Option Bool} {outcome : Outcome r.Answer}
    (h : Leads transport c aside s s' (⟨r, sought, .done outcome⟩ ::ₘ mine)) :
    Leads transport c aside s s' mine := by
  intro bill
  obtain ⟨bill', hleads⟩ := h bill
  rw [Multiset.add_cons] at hleads
  exact ⟨_, hleads.tail .finish⟩

end Bustle

/-! ### Walks -/

/-- The request that a thread has under way, with what is left of it. -/
def Thread.asked (plan : WalkPlan) (t : Thread σ ν) :
    Multiset ((r : Request) × Proc (Flagged σ) (Outcome r.Answer)) :=
  match t.task with
  | .listing d rest => {⟨.listEntries plan.fs d.inode plan.epoch, rest⟩}
  | .calling _ r rest _ => {⟨r, rest⟩}
  | _ => 0

/-- What a step of a thread does about requests. -/
inductive Thread.Asking (walk : Walk σ ν) (t : Thread σ ν) (s : Shared σ ν) (m : Moved σ ν) : Prop
  | idle (asked : m.thread.asked walk.plan = t.asked walk.plan)
      (store : m.shared.store.inner = s.store.inner)
  | begin (r : Request) (before : t.asked walk.plan = 0)
      (after : m.thread.asked walk.plan = {⟨r, walk.metadata.call r⟩})
      (store : m.shared.store.inner = s.store.inner)
  | step (r : Request) (change next) (before : t.asked walk.plan = {⟨r, .step change next⟩})
      (after : m.thread.asked walk.plan = {⟨r, next s.store⟩})
      (store : m.shared.store = change s.store)
  | finish (r : Request) (outcome) (before : t.asked walk.plan = {⟨r, .done outcome⟩})
      (after : m.thread.asked walk.plan = 0) (store : m.shared.store.inner = s.store.inner)

namespace Thread

/-- No step of a thread does more about requests than to begin one, to take one a step further or to
take its outcome. -/
theorem Does.asking {walk : Walk σ ν} {o : Others} {t : Thread σ ν} {s : Shared σ ν}
    {m : Moved σ ν} (does : Does walk o t s m) : Asking walk t s m := by
  cases does with
  | beginListing => exact .begin _ rfl rfl rfl
  | beginCall => exact .begin _ rfl rfl rfl
  | stepListing => exact .step _ _ _ rfl rfl rfl
  | stepCall => exact .step _ _ _ rfl rfl rfl
  | endListing | failListing | dieListing => exact .finish _ _ rfl rfl rfl
  | endCall | failCall | dieCall => exact .finish _ _ rfl rfl rfl
  | @finishActing h fs site =>
    refine .idle ?_ rfl
    exact site.onward_ind (P := fun task => Thread.asked walk.plan ⟨h, fs, task⟩ = 0)
      (fun _ => rfl) rfl
  | _ => exact .idle rfl rfl

end Thread

/-- A request of the client, as a walk has it under way. -/
def Underway.shown (u : Underway τ κ) :
    (r : Request) × Proc (Flagged (Bustle τ κ)) (Outcome r.Answer) :=
  ⟨u.request, (u.rest.on Bustle.clientPart).on Flagged.innerPart⟩

namespace World

variable (transport : Transport τ κ) (c : Client) (aside : τ → τ → Prop)

/-- What a walk has come to by events, with its own requests under way. -/
def Come (plan : WalkPlan) (s : Bustle τ κ) (w : World (Bustle τ κ) ν) : Prop :=
  ∃ mine : Multiset (Underway τ κ), mine.map Underway.shown = w.total (Thread.asked plan) ∧
    Bustle.Leads transport c aside s w.shared.store.inner mine

variable {transport : Transport τ κ} {c : Client} {aside : τ → τ → Prop}
  {walk : Walk (Bustle τ κ) ν} {s : Bustle τ κ} {w w' : World (Bustle τ κ) ν} {i : ThreadId}
  {room : Bool} {e : Event}

/-- What is shown of the requests under way shows one only if it is among them. -/
private theorem exists_shown {mine : Multiset (Underway τ κ)} {r : Request}
    {p : Proc (Flagged (Bustle τ κ)) (Outcome r.Answer)} {rest}
    (h : mine.map Underway.shown = {⟨r, p⟩} + rest) :
    ∃ sought q mine', mine = ⟨r, sought, q⟩ ::ₘ mine' ∧
      p = (q.on Bustle.clientPart).on Flagged.innerPart ∧ mine'.map Underway.shown = rest := by
  classical
  rw [Multiset.singleton_add] at h
  obtain ⟨⟨r', sought, q⟩, hmem, hshown, hrest⟩ := (Multiset.map_eq_cons _ _ _ _).mpr h
  cases hshown
  exact ⟨sought, q, _, (Multiset.cons_erase hmem).symm, rfl, hrest⟩

/-- What a thread does about its request is an event of the client. -/
theorem Come.step (metadata : walk.metadata = (Bustle.metadata transport c).on Flagged.innerPart)
    (come : Come transport c aside walk.plan s w) (step : w.step walk i room = some (e, w')) :
    Come transport c aside walk.plan s w' := by
  obtain ⟨t, m, ht, hdoes, rfl, rfl⟩ := step_eq_some step
  obtain ⟨mine, hmine, hleads⟩ := come
  obtain ⟨rest, hrest, hupdate⟩ := total_update (Thread.asked walk.plan) ht
  have htotal : (w.update i m).total (Thread.asked walk.plan) =
      m.thread.asked walk.plan + rest := by
    rw [hupdate m]
    cases m.child <;> exact congrArg (· + rest) (add_zero _)
  rw [hrest] at hmine
  unfold Come
  rw [htotal, shared_update]
  cases hdoes.asking with
  | idle asked store => exact ⟨mine, by rw [asked, hmine], by rwa [store]⟩
  | begin r before after store =>
    rw [before, zero_add] at hmine
    refine ⟨⟨r, none, c.call transport r⟩ ::ₘ mine, ?_, ?_⟩
    · rw [after, Multiset.map_cons, hmine, Multiset.singleton_add, metadata]
      rfl
    · rw [store]
      exact hleads.begin r
  | step r change next before after store =>
    rw [before] at hmine
    obtain ⟨sought, q, mine, rfl, hq, hrest⟩ := exists_shown hmine
    cases q with
    | done outcome => cases hq
    | step change' next' =>
      cases hq
      refine ⟨⟨r, some (sought.getD (c.seeks r w.shared.store.inner.client)),
        next' w.shared.store.inner.client⟩ ::ₘ mine, ?_, ?_⟩
      · rw [after, Multiset.map_cons, hrest, Multiset.singleton_add]
        rfl
      · rw [store]
        exact hleads.step
  | finish r outcome before after store =>
    rw [before] at hmine
    obtain ⟨sought, q, mine, rfl, hq, hrest⟩ := exists_shown hmine
    cases q with
    | step change' next' => cases hq
    | done outcome' =>
      cases hq
      refine ⟨mine, by rw [after, zero_add, hrest], ?_⟩
      rw [store]
      exact hleads.finish

/-- A walk is a course of events, and so is what others do meanwhile. -/
theorem Come.run {meddle : Flagged (Bustle τ κ) → Flagged (Bustle τ κ) → Prop} {root : Dir}
    {store : Flagged (Bustle τ κ)} {state : ν} {tr : Trace}
    (metadata : walk.metadata = (Bustle.metadata transport c).on Flagged.innerPart)
    (others : ∀ {s s'}, meddle s s' → Bustle.Leads transport c aside s.inner s'.inner 0)
    (run : Run walk meddle (.initial walk.plan root store state) tr w) :
    Come transport c aside walk.plan store.inner w := by
  induction run with
  | nil => exact ⟨0, rfl, .refl _⟩
  | step _ hstep ih => exact ih.step metadata hstep
  | outside _ hchange ih =>
    obtain ⟨mine, hmine, hleads⟩ := ih
    refine ⟨mine, hmine, ?_⟩
    rw [← zero_add mine]
    exact hleads.trans (others hchange)

/-- A walk that has its outcome has no request under way. -/
theorem Come.leads {plan : WalkPlan} (come : Come transport c aside plan s w) (kin : w.Kin)
    (done : w.result?.isSome) : Bustle.Leads transport c aside s w.shared.store.inner 0 := by
  obtain ⟨mine, hmine, hleads⟩ := come
  have hnone : w.total (Thread.asked plan) = 0 := by
    refine List.sum_eq_zero fun asked hasked => ?_
    obtain ⟨t, ht, rfl⟩ := List.mem_map.mp hasked
    obtain ⟨i, hi⟩ := List.mem_iff_getElem?.mp ht
    obtain ⟨result, hresult⟩ := kin.ended_of_result done i t (by simpa using hi)
    rw [Thread.asked, Task.eq_ended_of_result? hresult]
  rw [hnone, Multiset.map_eq_zero] at hmine
  rwa [hmine] at hleads

end World

/-! ### Jobs -/

namespace Sweep

variable (transport : Transport τ κ) (c : Client) (aside : τ → τ → Prop)
  (inner : σ → Bustle τ κ)

/-- A sweep is a course of events, and leaves no request under way unless it has to stop for want
of moves. -/
def Course (x : Sweep σ α) : Prop :=
  ∀ s, ∃ mine, Bustle.Leads transport c aside (inner s) (inner (x s).2) mine ∧
    ((x s).1.isSome → mine = 0)

variable {transport : Transport τ κ} {c : Client} {aside : τ → τ → Prop} {inner : σ → Bustle τ κ}

namespace Course

/-- A sweep that leaves everything as it is asks for nothing. -/
private theorem unmoved {x : Sweep σ α} (h : ∀ s, (x s).2 = s) :
    x.Course transport c aside inner := by
  refine fun s => ⟨0, ?_, fun _ => rfl⟩
  rw [h]
  exact .refl _

theorem pure (a : α) : (Pure.pure a : Sweep σ α).Course transport c aside inner :=
  unmoved fun _ => rfl

theorem fail (e : WalkError) : (Sweep.fail e : Sweep σ α).Course transport c aside inner :=
  unmoved fun _ => rfl

theorem exhausted : (Sweep.exhausted : Sweep σ α).Course transport c aside inner :=
  unmoved fun _ => rfl

theorem accept (checked : Except Refusal α) :
    (Sweep.accept checked).Course transport c aside inner := by
  cases checked with
  | error r => exact .fail _
  | ok a => exact .pure a

/-- A sweep that has an outcome leaves nothing under way that the next one could disturb. -/
theorem bind {x : Sweep σ α} {k : α → Sweep σ β} (first : x.Course transport c aside inner)
    (next : ∀ a, (k a).Course transport c aside inner) :
    (x >>= k).Course transport c aside inner := by
  intro s
  obtain ⟨mine, hfirst, hnone⟩ := first s
  rw [bind_apply]
  rcases hx : x s with ⟨_ | _ | a, s'⟩
  · exact ⟨mine, by rwa [hx] at hfirst, nofun⟩
  · rw [hx] at hfirst hnone
    exact ⟨mine, hfirst, fun _ => hnone rfl⟩
  · rw [hx] at hfirst hnone
    obtain ⟨mine', hnext, hnone'⟩ := next a s'
    refine ⟨mine', ?_, hnone'⟩
    rw [← add_zero mine', ← hnone rfl]
    exact hfirst.trans hnext

/-- A single request runs from its beginning to its end. -/
theorem ask (r : Request) :
    (Sweep.ask (Bustle.metadata transport c) r).Course transport c aside id := by
  refine fun s => ⟨0, ?_, fun _ => rfl⟩
  have hrun : (Sweep.ask (Bustle.metadata transport c) r s).2 =
      { s with client := ((c.call transport r).run s.client).2 } :=
    congrArg Prod.snd (Proc.run_on Bustle.clientPart (c.call transport r) s)
  rw [hrun]
  exact .call r s

/-- Getting ready is an event as well. -/
theorem prepare (fs : FsId) :
    (Sweep.prepare (Bustle.metadata transport c) fs).Course transport c aside id := by
  refine fun s => ⟨0, ?_, fun _ => rfl⟩
  have hrun : (Sweep.prepare (Bustle.metadata transport c) fs s).2 =
      { s with client := ((c.prepare fs).run s.client).2 } :=
    congrArg Prod.snd (Proc.run_on Bustle.clientPart (c.prepare fs) s)
  rw [hrun]
  exact .prepare fs s

/-- What others do to the store of a walk. -/
private abbrev Meddle (transport : Transport τ κ) (c : Client) (aside : τ → τ → Prop)
    (s s' : Flagged (Bustle τ κ)) : Prop :=
  Bustle.Leads transport c aside s.inner s'.inner 0

/-- The threads of a walk and everybody else take turns, and each turn is an event of the client or
none. -/
theorem walk {runner : Runner (Flagged (Bustle τ κ))}
    (others : ∀ s, (runner.schedule s).Within (Meddle transport c aside))
    (visitor : Visitor ν) (plan : WalkPlan) (root : Dir) (state : ν) :
    (Sweep.walk ((Bustle.metadata transport c).on Flagged.innerPart) runner visitor plan root
      state).Course transport c aside Flagged.inner := by
  intro s
  let walk : Walk (Bustle τ κ) ν :=
    ⟨(Bustle.metadata transport c).on Flagged.innerPart, visitor, plan⟩
  have hstart : World.Run walk (Meddle transport c aside) (.initial plan root s state) []
      (.initial plan root s state) := .nil
  obtain ⟨tr, hrun⟩ := World.exists_run_drive (others s) hstart runner.budget 0
  have hcome : World.Come transport c aside plan s.inner (walk.run runner root s state) :=
    World.Come.run rfl id hrun
  cases hresult : (walk.run runner root s state).result? with
  | none =>
    obtain ⟨mine, -, hleads⟩ := hcome
    refine ⟨mine, hleads, fun hsome => ?_⟩
    have hnone : (Sweep.walk walk.metadata runner visitor plan root state s).1 = none :=
      Option.map_eq_none_iff.mpr hresult
    rw [hnone] at hsome
    cases hsome
  | some result =>
    have hkin := (World.Kin.initial plan root s state).of_run hrun
    exact ⟨0, hcome.leads hkin (by rw [hresult]; rfl), fun _ => rfl⟩

/-- A flag of its own is nobody else's business. -/
theorem withOwnFlag {x : Sweep (Flagged (Bustle τ κ)) α}
    (course : x.Course transport c aside Flagged.inner) :
    (Sweep.withOwnFlag x).Course transport c aside id :=
  fun s => course ⟨s, false⟩

end Course

variable {metadata : Metadata (Bustle τ κ)} {runner : Runner (Bustle τ κ)}

/-- Others do the same beside a job that has a flag of its own. -/
private theorem others_withFlag
    (others : ∀ s, (runner.schedule s).Within fun s s' => Bustle.Leads transport c aside s s' 0) :
    ∀ s, (runner.withFlag.schedule s).Within (Course.Meddle transport c aside) :=
  fun s now change hmove s' =>
    (Runner.within_withFlag (others s.inner) s.raised now change hmove s').2

/-- The way down a path is a course of events. -/
theorem descend_course (fs : FsId) (epoch : Epoch) (dir : Inode) (trail names : List String) :
    (descend (Bustle.metadata transport c) fs epoch dir trail names).Course transport c aside
      id := by
  induction names generalizing dir trail with
  | nil => exact .pure dir
  | cons name names ih =>
    refine .bind (.ask _) fun entry => ?_
    split
    · exact ih _ _
    · exact .fail _

/-- Finding a directory is a course of events. -/
theorem resolveDir_course (fs : FsId) (path : String) (epoch : Epoch) :
    (resolveDir (Bustle.metadata transport c) fs path epoch).Course transport c aside id :=
  .bind (.accept _) fun _ => descend_course _ _ _ _ _

/-- The way up to the root is a course of events. -/
theorem climb_course (fs : FsId) (epoch : Epoch) (budget : Nat) (inode : Inode)
    (names : List String) :
    (climb (Bustle.metadata transport c) fs epoch budget inode names).Course transport c aside
      id := by
  induction budget generalizing inode names with
  | zero => exact .exhausted
  | succ budget ih =>
    unfold climb
    split
    · exact .pure _
    · refine .bind (.ask _) fun attr => ?_
      split
      · exact .fail _
      · refine .bind (.ask _) fun entries => ?_
        split
        · exact .fail _
        · exact ih _ _

section Walks

variable (others : ∀ s, (runner.schedule s).Within fun s s' =>
  Bustle.Leads transport c aside s s' 0)
include others

/-- A usage is a course of events. -/
theorem usage_course (fs : FsId) (root : Inode) (once : Bool) (epoch : Epoch) (threads : Nat) :
    (usage (Bustle.metadata transport c) runner fs root once epoch threads).Course transport c aside
      id :=
  .bind (.accept _) fun _ => .withOwnFlag <|
    .bind (.walk (others_withFlag others) _ _ _ _) fun _ => .pure _

/-- A deletion is a course of events. -/
theorem delete_course (fs : FsId) (parent target : Inode) (name : String) (epoch : Epoch)
    (threads : Nat) :
    (delete (Bustle.metadata transport c) runner fs parent target name epoch threads).Course
      transport c aside id :=
  .bind (.accept _) fun _ => .bind (.accept _) fun _ => .withOwnFlag <|
    .bind (.accept _) fun _ => .walk (others_withFlag others) _ _ _ _

/-- One usage after another is a course of events. -/
theorem usageOfEach_course (threads : Nat) (infos : List FsInfo) :
    (usageOfEach (Bustle.metadata transport c) runner threads infos).Course transport c aside
      id := by
  induction infos with
  | nil => exact .pure _
  | cons info infos ih =>
    exact .bind (.prepare _) fun _ => .bind (usage_course others _ _ _ _ _) fun _ =>
      .bind ih fun _ => .pure _

/-- The deletion of a path is a course of events. -/
theorem deletePath_course (fs : FsId) (path : String) (threads : Nat) :
    (deletePath (Bustle.metadata transport c) runner fs path threads).Course transport c aside
      id := by
  refine .bind (.accept _) fun names => ?_
  split
  · exact .fail _
  · refine .bind (.accept _) fun _ => .bind (.ask _) fun info => .bind (.prepare _) fun _ => ?_
    refine .bind (resolveDir_course _ _ _) fun parent => .bind (.ask _) fun entries => ?_
    split
    · exact .fail _
    · split
      · exact delete_course others _ _ _ _ _ _
      · exact .fail _

end Walks

end Sweep

/-- A job is a course of events, also if others use its client meanwhile. -/
theorem Job.course {transport : Transport τ κ} {c : Client} {aside : τ → τ → Prop} (e : Job)
    {runner : Runner (e.Store (Bustle τ κ))}
    (others : ∀ s, (runner.schedule s).Within fun s s' =>
      Bustle.Leads transport c aside (e.inner s) (e.inner s') 0) :
    (e.run (e.metadata (Bustle.metadata transport c)) runner).Course transport c aside e.inner := by
  cases e with
  | usage fs root once epoch threads => exact Sweep.usage_course others _ _ _ _ _
  | usageWith plan root once => exact .bind (.walk others _ _ _ _) fun _ => .pure _
  | delete fs parent target name epoch threads => exact Sweep.delete_course others _ _ _ _ _ _
  | deleteWith plan parent target name =>
    exact .bind (.accept _) fun _ => .walk others _ _ _ _
  | fsUsage fs threads =>
    exact .bind (.accept _) fun _ => .bind (.ask _) fun _ => .bind (.prepare _) fun _ =>
      Sweep.usage_course others _ _ _ _ _
  | fsUsageAll threads =>
    exact .bind (.accept _) fun _ => .bind (.ask _) fun _ => Sweep.usageOfEach_course others _ _
  | findFilesystem name =>
    refine .bind (.ask _) fun infos => ?_
    split
    · exact .pure _
    · exact .fail _
  | resolveDir fs path epoch => exact Sweep.resolveDir_course _ _ _
  | inodePath budget fs inode epoch => exact Sweep.climb_course _ _ _ _ _
  | deletePath fs path threads => exact Sweep.deletePath_course others _ _ _

namespace Client

/-- All that is counted agrees.  The first field is about events in any order; the next two say that
walks and jobs, too, consist of such events. -/
structure Accountable (c : Client) : Prop where
  /-- From a fresh service on the counters agree whenever no request is under way. -/
  balanced : ∀ (fs : FsId) (name : String) (scene : Scene Service Link),
    Leads Service.transport c Service.Spares ⟨.fresh (.new fs name), 0, ⟨0, 0⟩⟩ scene →
      scene.underway = 0 → Balanced scene.state scene.bill
  /-- At each moment of a walk its threads have the requests under way that it has begun. -/
  walks : ∀ (ν : Type) (visitor : Visitor ν) (plan : WalkPlan) (root : Dir)
    (s : Flagged (Bustle Service Link)) (state : ν) (tr : Trace)
    (w : World (Bustle Service Link) ν),
    World.Run ⟨(Bustle.metadata Service.transport c).on Flagged.innerPart, visitor, plan⟩
      (fun s s' => Bustle.Leads Service.transport c Service.Spares s.inner s'.inner 0)
      (.initial plan root s state) tr w →
    World.Come Service.transport c Service.Spares plan s.inner w
  /-- A job leaves no request under way unless it has to stop for want of moves. -/
  jobs : ∀ (e : Job) (runner : Runner (e.Store (Bustle Service Link))),
    (∀ s, (runner.schedule s).Within fun s s' =>
      Bustle.Leads Service.transport c Service.Spares (e.inner s) (e.inner s') 0) →
    (e.run (e.metadata (Bustle.metadata Service.transport c)) runner).Course Service.transport c
      Service.Spares e.inner
  /-- Nothing goes over a connection on which a request was lost. -/
  lost : ∀ (fs : FsId) (name : String) (scene : Scene (Watched Service) (Line Link))
    (later earlier : List Sighting) (n : Nat) (endpoint : Endpoint) (r : Request),
    Leads Service.transport.watch c (fun watched watched' => watched'.seen = watched.seen)
      ⟨.fresh ⟨.new fs name, []⟩, 0, ⟨0, 0⟩⟩ scene →
    scene.state.wire.seen = later ++ .lost n :: earlier → .call n endpoint r ∉ later

/-- Every client is accountable, whatever is done with it. -/
theorem accountable (c : Client) : c.Accountable where
  balanced _ _ _ leads idle := c.balanced leads idle
  walks _ _ _ _ _ _ _ _ run := .run rfl id run
  jobs e _ others := e.course others
  lost _ _ _ _ _ _ endpoint r leads lost := never_again leads lost endpoint r

/-- A fresh service on which one request will be lost and one connection be broken. -/
def shaky : Service :=
  ((Service.new 1 "data").failTransport 1).breakConnections 1

/-- Two of three attempts fail; the third one is answered. -/
theorem accountable_shaky :
    let st := ((Client.sample.call Service.transport .listFsInfo).run (.fresh shaky)).2
    st.wire.tally.attempts = 3 ∧ ∃ bill, Balanced st bill ∧ bill = ⟨1, 0⟩ := by
  intro st
  have hshaken : Service.Spares (.new 1 "data") shaky := ⟨rfl, rfl⟩
  have hcalled : Bustle.Leads Service.transport .sample Service.Spares ⟨.fresh shaky, 0⟩
      ⟨st, 0⟩ 0 :=
    .call .listFsInfo _
  obtain ⟨bill, hcall⟩ := hcalled ⟨0, 0⟩
  have hleads : Leads Service.transport .sample Service.Spares
      ⟨.fresh (.new 1 "data"), 0, ⟨0, 0⟩⟩ ⟨st, 0, bill⟩ :=
    .head (.aside hshaken) hcall
  have hbalanced : Balanced st bill := (accountable .sample).balanced 1 "data" _ hleads rfl
  have htries : st.wire.tally.attempts = 3 ∧ st.wire.tally.retries = 2 := ⟨rfl, rfl⟩
  have hfailures : st.wire.tally.failures = 0 := rfl
  have hsought : bill.sought = 1 := by
    have := hbalanced.tries
    omega
  have hfailed : bill.failed = 0 := by
    have := hbalanced.failures
    omega
  exact ⟨htries.1, bill, hbalanced, by rw [← hsought, ← hfailed]⟩

end Client

end ShardSweep
