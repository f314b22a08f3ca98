import Mathlib.Algebra.Order.BigOperators.Group.List
import Mathlib.Algebra.Order.Group.Nat
import Mathlib.Data.List.Nodup
import Mathlib.Tactic.Abel
import ShardSweep.Proofs.Walk.Lineage

/-!
# What a walk still has before it

A walk comes to the listing of each directory, to the visit of each entry and to each leaving
once, in a tree at most.  Give each of these moments a weight, from any commutative monoid.
The outlook of a thread is the weight of the moments that it would still come to if nothing
went wrong.  A step that comes to a moment takes its weight from the outlook, a worker gets
its part of the outlook of the thread that starts it, and a failure or a raised flag gives
some of it up.

* `Forest.weigh_eq`: the weight of a subtree, from its entries;
* `Thread.Does.outlook`: what a step takes from the outlook;
* `World.Run.weigh_eq`: what the walk has come to, what is before it and what it has lost make
  up the weight of the whole tree;
* `Forest.weigh_only`: what one moment alone weighs is how often it is due;
* `World.Run.once`, `World.Run.belongs`: a walk through a tree comes to each moment once at
  most, and to no other.
-/

namespace ShardSweep

variable {σ ν : Type}

/-- What a walk comes to once for each directory or entry. -/
inductive Moment where
  | listing (dir : Dir)
  | listed (dir : Dir)
  | acting (site : Site)
  | acted (site : Site)
  deriving DecidableEq

/-- The thread has died instead. -/
def Outcome.isPanic {α : Type} : Outcome α → Bool
  | .ok _ => false
  | .error (.failed _) => false
  | .error (.panicked _) => true

/-- The moment that an event is.  A request that the thread dies of ends the stay at its place. -/
def Event.moment? : Event → Option Moment
  | .listing d => some (.listing d)
  | .listed d _ => some (.listed d)
  | .acting site => some (.acting site)
  | .acted site _ => some (.acted site)
  | .answered site _ outcome => if Outcome.isPanic outcome then some (.acted site) else none
  | _ => none

section

variable {M : Type} [AddCommMonoid M] (f : Forest) (ω : Moment → M)

/-- The weight of an event. -/
def Event.weight (e : Event) : M :=
  e.moment?.elim 0 ω

/-- The weight of all that was shown. -/
def Trace.weight (tr : Trace) : M :=
  (tr.map fun shown => shown.2.weight ω).sum

/-- The weight of a visitor's whole stay at a place. -/
def Site.weight (site : Site) : M :=
  ω (.acting site) + ω (.acted site)

namespace Forest

/-- The weight of a directory without what is below its subdirectories. -/
def own (d : Dir) : M :=
  ω (.listing d) + (ω (.listed d) + (((f.listing d.inode).map fun e =>
    (Site.visit d e).weight ω).sum + (Site.leave d).weight ω))

/-- The weight of a subtree. -/
def weigh (d : Dir) : M :=
  ((f.dirs d).map (f.own ω)).sum

/-- The weight of what is below an entry. -/
def beyond (e : Entry) : M :=
  if e.kind.isDir then f.weigh ω (.ofEntry e) else 0

/-- The weight of entries and of what is below them. -/
def ahead (d : Dir) (es : List Entry) : M :=
  (es.map fun e => (Site.visit d e).weight ω + f.beyond ω e).sum

/-- The weight of the directories of a stack. -/
def stackWeight (stack : List Frame) : M :=
  (stack.map fun fr => f.ahead ω fr.dir fr.entries + (Site.leave fr.dir).weight ω).sum

/-- The entries ahead weigh what their visits and what is inside them weigh. -/
private theorem ahead_eq (d : Dir) (es : List Entry) :
    f.ahead ω d es = (es.map fun e => (Site.visit d e).weight ω).sum +
      (((es.filter (·.kind.isDir)).map Dir.ofEntry).map (f.weigh ω)).sum := by
  induction es with
  | nil => simp [ahead]
  | cons e es ih =>
    have hcons : f.ahead ω d (e :: es) =
        (Site.visit d e).weight ω + f.beyond ω e + f.ahead ω d es := by
      simp [ahead]
    rw [hcons, ih]
    by_cases hd : e.kind.isDir = true
    · simp only [beyond, hd, if_true, List.map_cons, List.sum_cons, List.filter_cons_of_pos]
      abel
    · simp only [beyond, hd, if_false, List.map_cons, List.sum_cons, List.filter_cons_of_neg,
        not_false_eq_true, Bool.false_eq_true]
      abel

/-- The weight of a subtree is made up of its listing, its entries with what is below them, and
its leaving. -/
theorem weigh_eq (d : Dir) :
    f.weigh ω d = ω (.listing d) + (ω (.listed d) +
      (f.ahead ω d (f.listing d.inode) + (Site.leave d).weight ω)) := by
  have hsubdirs : (((f.subdirs d).flatMap f.dirs).map (f.own ω)).sum =
      ((f.subdirs d).map (f.weigh ω)).sum := by
    induction f.subdirs d with
    | nil => rfl
    | cons c cs ih => simp [weigh, ih]
  rw [weigh, dirs_eq, List.map_cons, List.sum_cons, hsubdirs, ahead_eq, own, subdirs]
  abel

/-- A sum over all entries of a subtree, directory by directory. -/
theorem sum_below (g : Entry → M) (d : Dir) :
    ((f.below d.inode).map g).sum =
      ((f.dirs d).map fun c => ((f.listing c.inode).map g).sum).sum := by
  rw [((below_perm d).map g).sum_eq]
  induction f.dirs d with
  | nil => rfl
  | cons c cs ih => simp [ih]

end Forest

/-- What follows the stay at a place. -/
def Site.beyond : Site → M
  | .visit _ e => f.beyond ω e
  | .leave _ => 0

/-- What a thread comes to before it goes back to its stack. -/
def Resume.outlook : Resume → M
  | .scan => 0
  | .close => 0
  | .join d _ => (Site.leave d).weight ω

/-- What a thread with a task comes to, if its stack weighs `rest`. -/
def Task.outlook (rest : M) : Task σ ν → M
  | .checking d => f.weigh ω d + rest
  | .asking d => f.weigh ω d + rest
  | .listing d _ =>
    ω (.listed d) + (f.ahead ω d (f.listing d.inode) + (Site.leave d).weight ω) + rest
  | .scanning => rest
  | .acting site _ => ω (.acted site) + site.beyond f ω + rest
  | .calling site _ _ _ => ω (.acted site) + site.beyond f ω + rest
  | .claiming d _ => f.weigh ω d + rest
  | .spawning d => f.weigh ω d + rest
  | .returning d _ => f.weigh ω d + rest
  | .reporting _ resume => resume.outlook ω + rest
  | .raising resume => resume.outlook ω + rest
  | .closing d _ => (Site.leave d).weight ω + rest
  | .unwinding _ => 0
  | .releasing _ _ => 0
  | .concluding => 0
  | .settling => 0
  | .ended _ => 0

/-- What a thread comes to if nothing goes wrong. -/
def Thread.outlook (t : Thread σ ν) : M :=
  t.task.outlook f ω (f.stackWeight ω t.stack)

end

/-- The task has nothing to do with a failure. -/
def Task.Calm : Task σ ν → Prop
  | .reporting _ _ => False
  | .raising _ => False
  | .unwinding _ => False
  | _ => True

section

variable {M : Type} [AddCommMonoid M] {f : Forest} {ω : Moment → M}

/-- What is shown last is weighed last. -/
theorem Trace.weight_append (tr : Trace) (i : ThreadId) (e : Event) :
    Trace.weight ω (tr ++ [(i, e)]) = tr.weight ω + e.weight ω := by
  simp [Trace.weight]

@[simp] theorem Forest.stackWeight_nil : f.stackWeight ω [] = 0 := rfl

@[simp] theorem Forest.stackWeight_cons (fr : Frame) (fs : List Frame) :
    f.stackWeight ω (fr :: fs) =
      f.ahead ω fr.dir fr.entries + (Site.leave fr.dir).weight ω + f.stackWeight ω fs := by
  simp [stackWeight]

@[simp] theorem Forest.ahead_cons (d : Dir) (e : Entry) (es : List Entry) :
    f.ahead ω d (e :: es) = (Site.visit d e).weight ω + f.beyond ω e + f.ahead ω d es := by
  simp [ahead]

@[simp] theorem Forest.ahead_nil (d : Dir) : f.ahead ω d [] = 0 := rfl

@[simp] theorem Thread.outlook_fresh (d : Dir) :
    (Thread.fresh d : Thread σ ν).outlook f ω = f.weigh ω d := by
  simp [outlook, fresh, Task.outlook]

/-- After an action there is what is beyond its site. -/
theorem Site.outlook_onward (site : Site) (rest : M) :
    (site.onward : Task σ ν).outlook f ω rest = site.beyond f ω + rest := by
  cases site with
  | visit d e =>
    by_cases hd : e.kind.isDir = true <;> simp [onward, beyond, Forest.beyond, hd, Task.outlook]
  | leave d => simp [onward, beyond, Task.outlook]

/-- After a failed action there is nothing. -/
@[simp] theorem Site.outlook_afterFailure (site : Site) :
    site.afterFailure.outlook ω = 0 := by
  cases site <;> rfl

variable {walk : Walk σ ν} {o : Others} {t : Thread σ ν} {s : Shared σ ν} {m : Moved σ ν}

/-- A step takes the weight of its moment and of its worker from the outlook of the thread,
and loses nothing unless the flag is up or a failure is involved. -/
theorem Thread.Does.outlook (h : Does walk o t s m) (f : Forest) (ω : Moment → M) {i : ThreadId}
    (placed : t.task.Placed i t.stack) (agrees : m.event.Agrees f) :
    ∃ lost, t.outlook f ω =
        m.event.weight ω + m.thread.outlook f ω + m.child.elim 0 (f.weigh ω) + lost ∧
      (s.store.raised = false → t.task.Calm → m.thread.task.Calm → lost = 0) := by
  cases h with
  | @skipListing home fs d s raised =>
    refine ⟨f.weigh ω d, ?_, by simp [raised]⟩
    simp [Thread.outlook, Task.outlook, Event.weight, Event.moment?, add_comm]
  | beginListing =>
    refine ⟨0, ?_, fun _ _ _ => rfl⟩
    simp only [Thread.outlook, Task.outlook, Event.weight, Event.moment?, Option.elim,
      Forest.weigh_eq]
    abel
  | @endListing home fs d es s =>
    obtain rfl : es = f.listing d.inode := agrees _ _ rfl
    refine ⟨0, ?_, fun _ _ _ => rfl⟩
    simp only [Thread.outlook, Task.outlook, Event.weight, Event.moment?, Option.elim,
      Forest.stackWeight_cons]
    abel
  | @failListing home fs d =>
    refine ⟨f.ahead ω d (f.listing d.inode) + (Site.leave d).weight ω, ?_,
      fun _ _ calm => calm.elim⟩
    simp only [Thread.outlook, Task.outlook, Event.weight, Event.moment?, Option.elim,
      Resume.outlook]
    abel
  | @dieListing home fs d =>
    refine ⟨f.ahead ω d (f.listing d.inode) + (Site.leave d).weight ω + f.stackWeight ω fs, ?_,
      fun _ _ calm => calm.elim⟩
    simp only [Thread.outlook, Task.outlook, Event.weight, Event.moment?, Option.elim]
    abel
  | @giveUp home d e es ws fs s raised =>
    refine ⟨f.ahead ω d (e :: es), ?_, by simp [raised]⟩
    simp only [Thread.outlook, Task.outlook, Event.weight, Event.moment?, Option.elim,
      Forest.stackWeight_cons]
    abel
  | visit =>
    refine ⟨0, ?_, fun _ _ _ => rfl⟩
    simp only [Thread.outlook, Task.outlook, Event.weight, Event.moment?, Option.elim,
      Forest.stackWeight_cons, Forest.ahead_cons, Site.weight, Site.beyond]
    abel
  | @finishActing home fs site =>
    refine ⟨0, ?_, fun _ _ _ => rfl⟩
    simp only [Thread.outlook, Event.weight, Event.moment?, Option.elim]
    rw [Site.outlook_onward]
    simp only [Task.outlook]
    abel
  | @failActing home fs site =>
    refine ⟨site.beyond f ω, ?_, fun _ _ calm => calm.elim⟩
    simp only [Thread.outlook, Task.outlook, Event.weight, Event.moment?, Option.elim,
      Site.outlook_afterFailure]
    abel
  | @dieActing home fs site =>
    refine ⟨site.beyond f ω + f.stackWeight ω fs, ?_, fun _ _ calm => calm.elim⟩
    simp only [Thread.outlook, Task.outlook, Event.weight, Event.moment?, Option.elim]
    abel
  | @dieCall home fs site =>
    refine ⟨site.beyond f ω + f.stackWeight ω fs, ?_, fun _ _ calm => calm.elim⟩
    simp only [Thread.outlook, Task.outlook, Event.weight, Event.moment?, Outcome.isPanic, if_true,
      Option.elim]
    abel
  | spawn =>
    refine ⟨0, ?_, fun _ _ _ => rfl⟩
    simp only [Thread.outlook, Task.outlook, Event.weight, Event.moment?, Option.elim,
      Forest.stackWeight_cons]
    abel
  | spawnOutside => exact absurd rfl placed
  | @raiseClose home d es ws fs s =>
    refine ⟨f.ahead ω d es, ?_, fun _ calm => calm.elim⟩
    simp only [Thread.outlook, Task.outlook, Event.weight, Event.moment?, Option.elim,
      Resume.outlook, Forest.stackWeight_cons]
    abel
  | @skipLeaving home fs d s raised =>
    refine ⟨(Site.leave d).weight ω, ?_, by simp [raised]⟩
    simp [Thread.outlook, Task.outlook, Event.weight, Event.moment?, add_comm]
  | leave =>
    refine ⟨0, ?_, fun _ _ _ => rfl⟩
    simp only [Thread.outlook, Task.outlook, Event.weight, Event.moment?, Option.elim, Site.weight,
      Site.beyond]
    abel
  | _ =>
    refine ⟨0, ?_, fun _ _ _ => rfl⟩
    simp [Thread.outlook, Task.outlook, Event.weight, Event.moment?, Resume.outlook,
      Outcome.isPanic]

/-- What the walk has come to, what is before it and what it has lost make up the weight of the
whole tree. -/
theorem World.Run.weigh_eq {meddle : Flagged σ → Flagged σ → Prop} {plan : WalkPlan} {root : Dir}
    {store : Flagged σ} {state : ν} {tr : Trace} {w : World σ ν}
    (run : Run walk meddle (.initial plan root store state) tr w) (agrees : tr.Agrees f)
    (ω : Moment → M) :
    ∃ lost, f.weigh ω root = tr.weight ω + w.total (Thread.outlook f ω) + lost := by
  induction run with
  | nil =>
    refine ⟨0, ?_⟩
    have hfresh : (World.initial plan root store state).total (Thread.outlook f ω) =
        (Thread.fresh root : Thread σ ν).outlook f ω + 0 := rfl
    rw [hfresh, Thread.outlook_fresh]
    simp [Trace.weight]
  | @step tr w w' i room e run hstep ih =>
    obtain ⟨lost, hlost⟩ := ih agrees.init
    obtain ⟨t, m, ht, hdoes, rfl, rfl⟩ := step_eq_some hstep
    have hkin := (Kin.initial plan root store state).of_run run
    obtain ⟨more, hmore, -⟩ := hdoes.outlook f ω (hkin.placed i t ht) agrees.last
    obtain ⟨rest, hrest, hupdate⟩ := total_update (Thread.outlook f ω) ht
    refine ⟨more + lost, ?_⟩
    simp only [Thread.outlook_fresh] at hupdate
    rw [hlost, hrest, hmore, hupdate, Trace.weight_append]
    abel
  | outside _ _ ih => exact ih agrees

end

/-- Counts one moment only. -/
def Moment.only (mo mo' : Moment) : Nat :=
  if mo' = mo then 1 else 0

/-- The directory where a visitor acts. -/
def Site.dir : Site → Dir
  | .visit d _ => d
  | .leave d => d

/-- The place is one of the subtree. -/
def Site.Belongs (f : Forest) (root : Dir) : Site → Prop
  | .visit d e => d ∈ f.dirs root ∧ e ∈ f.listing d.inode
  | .leave d => d ∈ f.dirs root

/-- The moment is one of the subtree. -/
def Moment.Belongs (f : Forest) (root : Dir) : Moment → Prop
  | .listing d => d ∈ f.dirs root
  | .listed d => d ∈ f.dirs root
  | .acting site => site.Belongs f root
  | .acted site => site.Belongs f root

/-- How often a moment comes in a directory. -/
private def Moment.times (f : Forest) (d : Dir) : Moment → Nat
  | .listing d' => if d = d' then 1 else 0
  | .listed d' => if d = d' then 1 else 0
  | .acting (.visit d' e) => if d = d' then (f.listing d.inode).count e else 0
  | .acting (.leave d') => if d = d' then 1 else 0
  | .acted (.visit d' e) => if d = d' then (f.listing d.inode).count e else 0
  | .acted (.leave d') => if d = d' then 1 else 0

/-- The number of times that something is in a list. -/
private theorem sum_map_only {α : Type} [DecidableEq α] (l : List α) (a : α) :
    (l.map fun x => if x = a then 1 else 0).sum = l.count a := by
  induction l with
  | nil => rfl
  | cons x l ih => by_cases hx : x = a <;> simp [hx, ih, add_comm]

/-- A directory has a moment of its own as often as that comes up in it. -/
private theorem Forest.own_only (f : Forest) (d : Dir) (mo : Moment) :
    f.own mo.only d = mo.times f d := by
  rcases mo with d' | d' | (⟨d', e⟩ | d') | (⟨d', e⟩ | d') <;> by_cases hd : d = d' <;>
    simp [own, Site.weight, Moment.only, Moment.times, hd, sum_map_only]

/-- In a tree no moment comes up twice. -/
private theorem Forest.IsTree.weigh_only_le {f : Forest} {root : Dir} (tree : f.IsTree root)
    (mo : Moment) : f.weigh mo.only root ≤ 1 := by
  have hnodup : (f.dirs root).Nodup := List.Nodup.of_map _ tree.dirs
  have hmain : ∀ d', (∀ d ∈ f.dirs root, f.own mo.only d ≤ if d = d' then 1 else 0) →
      f.weigh mo.only root ≤ 1 := by
    intro d' h
    calc
      f.weigh mo.only root ≤ ((f.dirs root).map fun d => if d = d' then 1 else 0).sum :=
        List.sum_le_sum h
      _ = (f.dirs root).count d' := sum_map_only _ _
      _ ≤ 1 := List.nodup_iff_count.mp hnodup _
  have hcount : ∀ d ∈ f.dirs root, ∀ e, (f.listing d.inode).count e ≤ 1 := fun d hd =>
    List.nodup_iff_count.mp (tree.entries d hd)
  rcases mo with d' | d' | (⟨d', e⟩ | d') | (⟨d', e⟩ | d') <;> refine hmain d' ?_ <;> intro d hd <;>
    rw [own_only] <;> by_cases heq : d = d' <;> simp [Moment.times, heq]
  all_goals exact heq ▸ hcount d hd e

/-- A moment that comes up belongs to the subtree. -/
private theorem Forest.belongs_of_weigh_only {f : Forest} {root : Dir} {mo : Moment}
    (pos : f.weigh mo.only root ≠ 0) : mo.Belongs f root := by
  obtain ⟨d, hd, hown⟩ : ∃ d ∈ f.dirs root, mo.times f d ≠ 0 := by
    by_contra hnone
    push Not at hnone
    refine pos (List.sum_eq_zero ?_)
    intro n hn
    obtain ⟨d, hd, rfl⟩ := List.mem_map.mp hn
    rw [own_only, hnone d hd]
  rcases mo with d' | d' | (⟨d', e⟩ | d') | (⟨d', e⟩ | d') <;> by_cases heq : d = d' <;>
    simp_all [Moment.times, Moment.Belongs, Site.Belongs]
  all_goals exact List.count_pos_iff.mp (Nat.pos_of_ne_zero hown)

/-- How often a walk comes to a place: to a visit as often as the entry is listed, and once to a
leaving. -/
def Site.due (f : Forest) (root : Dir) : Site → Nat
  | .visit d e => if d ∈ f.dirs root then (f.listing d.inode).count e else 0
  | .leave d => if d ∈ f.dirs root then 1 else 0

/-- How often a walk comes to a moment if nothing goes wrong. -/
def Moment.due (f : Forest) (root : Dir) : Moment → Nat
  | .listing d => if d ∈ f.dirs root then 1 else 0
  | .listed d => if d ∈ f.dirs root then 1 else 0
  | .acting site => site.due f root
  | .acted site => site.due f root

/-- Only one element of a list without repetitions adds anything. -/
private theorem sum_map_ite {α : Type} [DecidableEq α] {l : List α} (nodup : l.Nodup) (a : α)
    (g : α → Nat) : (l.map fun x => if x = a then g x else 0).sum = if a ∈ l then g a else 0 := by
  induction l with
  | nil => rfl
  | cons x l ih =>
    obtain ⟨hx, hl⟩ := List.nodup_cons.mp nodup
    rw [List.map_cons, List.sum_cons, ih hl]
    by_cases ha : x = a
    · subst ha
      simp [hx]
    · simp [ha, Ne.symm ha]

/-- A moment is due as often as it weighs. -/
theorem Forest.weigh_only {f : Forest} {root : Dir} (nodup : (f.dirs root).Nodup) (mo : Moment) :
    f.weigh mo.only root = mo.due f root := by
  have hown : f.weigh mo.only root = ((f.dirs root).map (mo.times f)).sum :=
    congrArg List.sum (List.map_congr_left fun d _ => f.own_only d mo)
  rw [hown]
  rcases mo with d' | d' | (⟨d', e⟩ | d') | (⟨d', e⟩ | d') <;> exact sum_map_ite nodup d' _

/-- A trace weighs for one moment what it shows of it. -/
theorem Trace.weight_only (tr : Trace) (mo : Moment) :
    tr.weight mo.only = tr.countP fun shown => shown.2.moment? = some mo := by
  induction tr with
  | nil => rfl
  | cons shown tr ih =>
    have hcons : Trace.weight mo.only (shown :: tr) =
        shown.2.weight mo.only + Trace.weight mo.only tr := by
      simp [weight]
    rw [hcons, ih, List.countP_cons, add_comm]
    cases hm : shown.2.moment? with
    | none => simp [Event.weight, hm]
    | some mo' => simp [Event.weight, hm, Moment.only]

section

variable {f : Forest} {walk : Walk σ ν} {meddle : Flagged σ → Flagged σ → Prop} {plan : WalkPlan}
  {root : Dir} {store : Flagged σ} {state : ν} {tr : Trace} {w : World σ ν}

/-- A walk through a tree comes to each moment once at most. -/
theorem World.Run.once (run : Run walk meddle (.initial plan root store state) tr w)
    (agrees : tr.Agrees f) (tree : f.IsTree root) (mo : Moment) :
    tr.countP (fun shown => shown.2.moment? = some mo) ≤ 1 := by
  obtain ⟨lost, hlost⟩ := run.weigh_eq agrees mo.only
  have hle := tree.weigh_only_le mo
  rw [← Trace.weight_only]
  omega

/-- A walk comes to the moments of its subtree only. -/
theorem World.Run.belongs (run : Run walk meddle (.initial plan root store state) tr w)
    (agrees : tr.Agrees f) {e : Event} (shown : tr.Shows e) {mo : Moment}
    (moment : e.moment? = some mo) : mo.Belongs f root := by
  obtain ⟨lost, hlost⟩ := run.weigh_eq agrees mo.only
  obtain ⟨i, hi⟩ := shown
  have hpos : 0 < tr.countP fun shown => shown.2.moment? = some mo :=
    List.countP_pos_iff.mpr ⟨(i, e), hi, by simpa using moment⟩
  rw [← Trace.weight_only] at hpos
  apply Forest.belongs_of_weigh_only
  omega

end

end ShardSweep
