import ShardSweep.Proofs.Walk.Ending
import ShardSweep.Proofs.Walk.Orderly

/-!
# What a walk owes

A `Ledger` says what a visitor is to achieve at each place, and what the store and the state of
the visitor look like once some part of it is achieved.  A request or a visitor that still owes
something pays part of it with each step and nothing is owed at the end.  Before a step it may
count on the books being right, on its debt being none of what was paid already, and, when a
directory is left, on everything below it being paid.

If the ledger is `sure` nothing may fail.  Otherwise a failure is allowed as long as nothing was
paid at its place.

* `Proc.Pays`, `Action.Pays`: what it means to pay;
* `Task.Holds`: what a thread has paid at the place where it is;
* `Thread.Does.holds`: a step keeps the books right.
-/

namespace ShardSweep

variable {σ ν M α β : Type}

/-- What is to be achieved during a walk, and how it shows. -/
structure Ledger (σ ν M : Type) where
  forest : Forest
  root : Dir
  /-- What the visitor is to achieve at a place. -/
  worth : Site → M
  /-- The store and the state of the visitor, once some of it is achieved. -/
  books : Flagged σ → ν → M → Prop
  /-- Nothing may fail. -/
  sure : Prop

namespace Ledger

variable [AddCancelCommMonoid M] (L : Ledger σ ν M)

/-- What is achieved by the end of the stay at a place. -/
def weights : Moment → M
  | .acted site => L.worth site
  | _ => 0

/-- All that is to be achieved. -/
def all : M :=
  L.forest.weigh L.weights L.root

/-- All that is to be achieved in a listed directory. -/
def owedIn (d : Dir) : M :=
  L.forest.ahead L.weights d (L.forest.listing d.inode) + (Site.leave d).weight L.weights

/-- What is owed in a subtree is the worth of all its visits and leavings. -/
theorem weigh_eq (d : Dir) :
    L.forest.weigh L.weights d = ((L.forest.dirs d).map fun c =>
      ((L.forest.listing c.inode).map fun e => L.worth (.visit c e)).sum +
        L.worth (.leave c)).sum := by
  have hown : ∀ c, L.forest.own L.weights c = ((L.forest.listing c.inode).map fun e =>
      L.worth (.visit c e)).sum + L.worth (.leave c) := by
    intro c
    simp [Forest.own, Site.weight, weights]
  rw [Forest.weigh, List.map_congr_left fun c _ => hown c]

theorem owedIn_eq (d : Dir) : L.owedIn d = L.forest.weigh L.weights d := by
  rw [L.forest.weigh_eq]
  simp [owedIn, weights]

/-- What has to be achieved before the visitor comes to a place. -/
def Ready (done : M) : Site → Prop
  | .visit _ _ => True
  | .leave d => (∀ e ∈ L.forest.listing d.inode, ∃ more, done = L.worth (.visit d e) + more) ∧
    ∀ c ∈ L.forest.subdirs d, ∃ more, done = L.worth (.leave c) + more

/-- What somebody who owes `due` finds. -/
structure Finds (pre : M → Prop) (due : M) (s : Flagged σ) (n : ν) (done : M) : Prop where
  books : L.books s n done
  due : ∃ rest, L.all = done + due + rest
  ready : pre done

/-- An outcome is what it should be, or a failure before anything was paid. -/
def Fine (whole : M) (good : α → M → Prop) : Outcome α → M → Prop
  | .ok a, due => good a due
  | .error _, due => ¬ L.sure ∧ due = whole

end Ledger

section

variable [AddCancelCommMonoid M] (L : Ledger σ ν M)

/-- A procedure pays what it owes, or what it leaves unpaid is all right. -/
def Proc.Pays (pre : M → Prop) : Proc (Flagged σ) α → M → (α → M → Prop) → Prop
  | .done a, due, good => good a due
  | .step change next, due, good => ∀ s n done, L.Finds pre due s n done →
    ∃ paid due', due = paid + due' ∧ L.books (change s) n (done + paid) ∧
      (next s).Pays pre due' good

/-- More may be allowed of what comes of a payment. -/
theorem Proc.Pays.mono {pre : M → Prop} {p : Proc (Flagged σ) α} {due : M}
    {good good' : α → M → Prop} (h : p.Pays L pre due good)
    (weaker : ∀ a due, good a due → good' a due) : p.Pays L pre due good' := by
  induction p generalizing due with
  | done a => exact weaker a due h
  | step change next ih =>
    intro s n done hfinds
    obtain ⟨paid, due', hdue, hbooks, hnext⟩ := h s n done hfinds
    exact ⟨paid, due', hdue, hbooks, ih s hnext⟩

/-- A visitor pays all it owes, or fails before it has paid anything. -/
def Action.Pays (metadata : Metadata (Flagged σ)) (pre : M → Prop) (whole : M) :
    Action ν → M → Prop
  | .done (.ok _), due => due = 0
  | .done (.error _), due => ¬ L.sure ∧ due = whole
  | .die _, due => ¬ L.sure ∧ due = whole
  | .update change next, due => ∀ s n done, L.Finds pre due s n done →
    ∃ paid due', due = paid + due' ∧ L.books s (change n) (done + paid) ∧
      (next n).Pays metadata pre whole due'
  | .cancel next, due => ¬ L.sure ∧ next.Pays metadata pre whole due
  | .look next, due => ∀ raised, (next raised).Pays metadata pre whole due
  | .fail _ next, due => ¬ L.sure ∧ ∀ first, (next first).Pays metadata pre whole due
  | .failed next, due => ∀ kept, (next kept).Pays metadata pre whole due
  | .take next, due => ∀ kept, (next kept).Pays metadata pre whole due
  | .request r next, due => (metadata.call r).Pays L pre due
    fun outcome due' => match outcome with
      | .ok a => (next (.ok a)).Pays metadata pre whole due'
      | .error (.failed e) => ¬ L.sure ∧ (next (.error e)).Pays metadata pre whole due'
      | .error (.panicked _) => ¬ L.sure ∧ due' = whole

/-- A visitor goes on paying with the outcome of a request. -/
def Action.Resumes (metadata : Metadata (Flagged σ)) (pre : M → Prop) (whole : M) {r : Request}
    (next : Except WalkError r.Answer → Action ν) (outcome : Outcome r.Answer) (due : M) : Prop :=
  match outcome with
  | .ok a => (next (.ok a)).Pays L metadata pre whole due
  | .error (.failed e) => ¬ L.sure ∧ (next (.error e)).Pays L metadata pre whole due
  | .error (.panicked _) => ¬ L.sure ∧ due = whole

theorem Action.pays_request (metadata : Metadata (Flagged σ)) (pre : M → Prop) (whole : M)
    {r : Request} (next : Except WalkError r.Answer → Action ν) (due : M) :
    (Action.request r next).Pays L metadata pre whole due ↔
      (metadata.call r).Pays L pre due (Action.Resumes L metadata pre whole next) := by
  unfold Action.Pays
  refine Iff.of_eq (congrArg _ ?_)
  funext outcome due
  rcases outcome with (e | p) | a <;> rfl

/-- What is credited for the end of a stay. -/
def Outcome.credit (worth : M) : Outcome α → M
  | .ok _ => worth
  | .error _ => 0

/-- What an event credits: an action that went well is worth its site. -/
def Event.credit : Event → M
  | .acted site outcome => Outcome.credit (L.worth site) outcome
  | _ => 0

/-- What is credited altogether. -/
def Trace.credit (tr : Trace) : M :=
  (tr.map fun shown => shown.2.credit L).sum

/-- What a visitor does at a place. -/
def Visitor.act (visitor : Visitor ν) (plan : WalkPlan) : Site → Action ν
  | .visit d e => visitor.visit plan d e
  | .leave d => visitor.leave plan d

/-- The requests and the visitor of a walk pay what they owe. -/
structure Ledger.Fits (walk : Walk σ ν) : Prop where
  raise : ∀ s n done, L.books s n done → L.books s.raise n done
  lists : ∀ d ∈ L.forest.dirs L.root,
    (walk.metadata.call (.listEntries walk.plan.fs d.inode walk.plan.epoch)).Pays L
      (fun _ => True) (L.owedIn d)
      (L.Fine (L.owedIn d) fun es due => es = L.forest.listing d.inode ∧ due = L.owedIn d)
  acts : ∀ site : Site, site.Belongs L.forest L.root →
    (walk.visitor.act walk.plan site).Pays L walk.metadata (L.Ready · site) (L.worth site)
      (L.worth site)

/-- What a thread has paid at the place where it is. -/
def Task.Holds (metadata : Metadata (Flagged σ)) (paid : M) : Task σ ν → Prop
  | .listing d rest => ∃ due, paid + due = L.owedIn d ∧
    rest.Pays L (fun _ => True) due
      (L.Fine (L.owedIn d) fun es due => es = L.forest.listing d.inode ∧ due = L.owedIn d)
  | .acting site action => ∃ due, paid + due = L.worth site ∧
    action.Pays L metadata (L.Ready · site) (L.worth site) due
  | .calling site _ rest next => ∃ due, paid + due = L.worth site ∧
    rest.Pays L (L.Ready · site) due
      (Action.Resumes L metadata (L.Ready · site) (L.worth site) next)
  | .reporting _ _ => ¬ L.sure ∧ paid = 0
  | .raising _ => ¬ L.sure ∧ paid = 0
  | .unwinding _ => ¬ L.sure ∧ paid = 0
  | .releasing _ result => (L.sure → result = .ok ()) ∧ paid = 0
  | .ended result => (L.sure → result = .ok ()) ∧ paid = 0
  | _ => paid = 0

/-- The books are right for a thread that has paid something, at a moment when `before` was paid
by others. -/
structure Thread.Fair (t : Thread σ ν) (s : Shared σ ν) (before paid : M) : Prop where
  books : L.books s.store s.state (before + paid)
  open_ : ∃ rest, L.all = before + t.outlook L.forest L.weights + rest
  ready : ∀ site, t.task.site? = some site → L.Ready (before + paid) site

variable {L}

theorem Site.holds_onward (metadata : Metadata (Flagged σ)) (site : Site) :
    (site.onward : Task σ ν).Holds L metadata 0 :=
  site.onward_ind (P := fun task => task.Holds L metadata 0) (fun _ => rfl) rfl

namespace Thread

variable {walk : Walk σ ν} {o : Others} {t : Thread σ ν} {s : Shared σ ν} {m : Moved σ ν}
  {before paid : M}

private theorem Fair.finds (fair : t.Fair L s before paid) (due : M) (pre : M → Prop)
    (outlook : ∃ rest, t.outlook L.forest L.weights = paid + due + rest)
    (ready : pre (before + paid)) : L.Finds pre due s.store s.state (before + paid) := by
  obtain ⟨rest, hrest⟩ := fair.open_
  obtain ⟨rest', hrest'⟩ := outlook
  refine ⟨fair.books, ⟨rest' + rest, ?_⟩, ready⟩
  rw [hrest, hrest']
  abel

/-- A step keeps the books right. -/
theorem Does.holds (h : Does walk o t s m) (fits : L.Fits walk) {i : ThreadId}
    (placed : t.task.Placed i t.stack) (stacked : L.forest.Stacked t.home t.stack)
    (lineal : t.task.Lineal L.forest t.home t.stack) (home : t.home ∈ L.forest.dirs L.root)
    (holds : t.task.Holds L walk.metadata paid) (fair : t.Fair L s before paid)
    (calm : L.sure → s.store.raised = false ∧ s.failure = none ∧
      ∀ j d p, o.ended? j ≠ some (d, .error (.panicked p))) :
    m.event.Agrees L.forest ∧ ∃ paid', m.thread.task.Holds L walk.metadata paid' ∧
      L.books m.shared.store m.shared.state (before + m.event.credit L + paid') := by
  have hdirs := stacked.mem_dirs home
  have hagrees : m.event.Agrees L.forest := by
    apply h.agrees
    intro d es htask
    rw [htask] at holds
    obtain ⟨due, -, hes, -⟩ := holds
    exact hes
  refine ⟨hagrees, ?_⟩
  cases h with
  | beginListing =>
    obtain rfl : paid = 0 := holds
    refine ⟨0, ⟨L.owedIn _, zero_add _, ?_⟩, ?_⟩
    · exact fits.lists _ (hdirs.2 _ lineal)
    · simpa [Event.credit] using fair.books
  | @stepListing home fs d change next =>
    obtain ⟨due, hdue, hpays⟩ := holds
    have hfinds := fair.finds due (fun _ => True)
      ⟨L.forest.stackWeight L.weights fs, by rw [hdue]; simp [Thread.outlook, Task.outlook,
        Ledger.owedIn, Ledger.weights]⟩ trivial
    obtain ⟨more, due, rfl, hbooks, hnext⟩ := hpays _ _ _ hfinds
    refine ⟨paid + more, ⟨due, by rw [← hdue, add_assoc], hnext⟩, ?_⟩
    simpa [Event.credit, add_assoc] using hbooks
  | endListing =>
    obtain ⟨due, hdue, rfl, rfl⟩ := holds
    obtain rfl : paid = 0 := add_eq_right.mp hdue
    exact ⟨0, rfl, by simpa [Event.credit] using fair.books⟩
  | failListing | dieListing =>
    obtain ⟨due, hdue, hsure, rfl⟩ := holds
    obtain rfl : paid = 0 := add_eq_right.mp hdue
    refine ⟨0, ⟨hsure, rfl⟩, ?_⟩
    simpa [Event.credit] using fair.books
  | visit =>
    obtain rfl : paid = 0 := holds
    have hdir := hdirs.1 _ List.mem_cons_self
    have hentry := stacked.1 _ List.mem_cons_self
    refine ⟨0, ⟨L.worth _, zero_add _, ?_⟩, ?_⟩
    · exact fits.acts (.visit _ _) ⟨hdir, hentry⟩
    · simpa [Event.credit] using fair.books
  | leave =>
    obtain rfl : paid = 0 := holds
    refine ⟨0, ⟨L.worth _, zero_add _, ?_⟩, ?_⟩
    · exact fits.acts (.leave _) (hdirs.2 _ lineal)
    · simpa [Event.credit] using fair.books
  | @finishActing _ _ site =>
    obtain ⟨due, hdue, hpays⟩ := holds
    obtain rfl : due = 0 := hpays
    rw [add_zero] at hdue
    refine ⟨0, Site.holds_onward _ site, ?_⟩
    simpa [Event.credit, Outcome.credit, hdue] using fair.books
  | failActing | dieActing =>
    obtain ⟨due, hdue, hsure, rfl⟩ := holds
    obtain rfl : paid = 0 := add_eq_right.mp hdue
    refine ⟨0, ⟨hsure, rfl⟩, ?_⟩
    simpa [Event.credit, Outcome.credit] using fair.books
  | @update home fs site change next =>
    obtain ⟨due, hdue, hpays⟩ := holds
    have hfinds := fair.finds due (L.Ready · site)
      ⟨site.beyond L.forest L.weights + L.forest.stackWeight L.weights fs, by rw [hdue]; simp [
        Thread.outlook, Task.outlook, Ledger.weights, add_assoc]⟩ (fair.ready site rfl)
    obtain ⟨more, due, rfl, hbooks, hnext⟩ := hpays _ _ _ hfinds
    refine ⟨paid + more, ⟨due, by rw [← hdue, add_assoc], hnext⟩, ?_⟩
    simpa [Event.credit, add_assoc] using hbooks
  | @stepCall home fs site r change rest next =>
    obtain ⟨due, hdue, hpays⟩ := holds
    have hfinds := fair.finds due (L.Ready · site)
      ⟨site.beyond L.forest L.weights + L.forest.stackWeight L.weights fs, by rw [hdue]; simp [
        Thread.outlook, Task.outlook, Ledger.weights, add_assoc]⟩ (fair.ready site rfl)
    obtain ⟨more, due, rfl, hbooks, hnext⟩ := hpays _ _ _ hfinds
    refine ⟨paid + more, ⟨due, by rw [← hdue, add_assoc], hnext⟩, ?_⟩
    simpa [Event.credit, add_assoc] using hbooks
  | cancel =>
    obtain ⟨due, hdue, hpays⟩ := holds
    refine ⟨paid, ⟨due, hdue, hpays.2⟩, ?_⟩
    simpa [Event.credit] using fits.raise _ _ _ fair.books
  | look | lookFailed | take =>
    obtain ⟨due, hdue, hpays⟩ := holds
    refine ⟨paid, ⟨due, hdue, hpays _⟩, ?_⟩
    simpa [Event.credit] using fair.books
  | offer =>
    obtain ⟨due, hdue, hpays⟩ := holds
    refine ⟨paid, ⟨due, hdue, hpays.1, hpays.2 _⟩, ?_⟩
    simpa [Event.credit] using fair.books
  | beginCall =>
    obtain ⟨due, hdue, hpays⟩ := holds
    have hcall := (Action.pays_request L _ _ _ _ _).mp hpays
    refine ⟨paid, ⟨due, hdue, hcall⟩, ?_⟩
    simpa [Event.credit] using fair.books
  | endCall =>
    obtain ⟨due, hdue, hpays⟩ := holds
    refine ⟨paid, ⟨due, hdue, hpays⟩, ?_⟩
    simpa [Event.credit] using fair.books
  | failCall =>
    obtain ⟨due, hdue, hpays⟩ := holds
    refine ⟨paid, ⟨due, hdue, hpays.2⟩, ?_⟩
    simpa [Event.credit] using fair.books
  | dieCall =>
    obtain ⟨due, hdue, hsure, rfl⟩ := holds
    obtain rfl : paid = 0 := add_eq_right.mp hdue
    refine ⟨0, ⟨hsure, rfl⟩, ?_⟩
    simpa [Event.credit] using fair.books
  | joinDead dead =>
    obtain rfl : paid = 0 := holds
    refine ⟨0, ⟨fun hsure => (calm hsure).2.2 _ _ _ dead, rfl⟩, ?_⟩
    simpa [Event.credit] using fair.books
  | raiseScan | raiseClose | raiseOutside | raiseJoin =>
    obtain ⟨-, rfl⟩ := holds
    refine ⟨0, rfl, ?_⟩
    simpa [Event.credit] using fits.raise _ _ _ fair.books
  | report =>
    refine ⟨paid, holds, ?_⟩
    simpa [Event.credit] using fair.books
  | unwindCaller | unwindWorker =>
    obtain ⟨hsure, rfl⟩ := holds
    refine ⟨0, ⟨fun h => absurd h hsure, rfl⟩, ?_⟩
    simpa [Event.credit] using fair.books
  | release | endRelease =>
    refine ⟨paid, holds, ?_⟩
    simpa [Event.credit] using fair.books
  | concludeFailed kept =>
    obtain rfl : paid = 0 := holds
    refine ⟨0, ⟨?_, rfl⟩, by simpa [Event.credit] using fair.books⟩
    intro hsure
    exact absurd kept (by simp [(calm hsure).2.1])
  | settleCancelled raised =>
    obtain rfl : paid = 0 := holds
    refine ⟨0, ⟨?_, rfl⟩, by simpa [Event.credit] using fair.books⟩
    intro hsure
    exact absurd raised (by simp [(calm hsure).1])
  | goHome | settleWell =>
    obtain rfl : paid = 0 := holds
    refine ⟨0, ⟨fun _ => rfl, rfl⟩, ?_⟩
    simpa [Event.credit] using fair.books
  | _ =>
    obtain rfl : paid = 0 := holds
    refine ⟨0, rfl, ?_⟩
    simpa [Event.credit] using fair.books

end Thread

end

end ShardSweep
