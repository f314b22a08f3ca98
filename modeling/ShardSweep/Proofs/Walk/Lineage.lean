import ShardSweep.Proofs.Walk.Forest
import ShardSweep.Proofs.Walk.Kinship

/-!
# Where a thread is

The directories on the stack of a thread are a way down from its home, each a subdirectory
of the next, and the directory that its task is about hangs below them.  Workers are at home
strictly below the root of the walk, so only the calling thread ever gets to the root, and
only with an empty stack.

* `World.Lineal`: what holds of the homes and the stacks throughout a run;
* `World.Lineal.mem_dirs`, `World.Lineal.mem_listing`: a visitor acts inside the subtree only;
-/

namespace ShardSweep

variable {σ ν : Type}

/-- A directory comes right below the stack of a thread that is at home somewhere. -/
def Forest.Hangs (f : Forest) (home d : Dir) : List Frame → Prop
  | [] => d = home
  | fr :: _ => d ∈ f.subdirs fr.dir

/-- The stack is a way down from the home. -/
def Forest.Stacked (f : Forest) (home : Dir) : List Frame → Prop
  | [] => True
  | fr :: fs => (∀ e ∈ fr.entries, e ∈ f.listing fr.dir.inode) ∧ f.Hangs home fr.dir fs ∧
    f.Stacked home fs

/-- The visitor is at a listed entry or at the directory below the stack. -/
def Site.Lineal (f : Forest) (home : Dir) (stack : List Frame) : Site → Prop
  | .visit d e => e ∈ f.listing d.inode
  | .leave d => f.Hangs home d stack

/-- The directory to go on with is the one below the stack. -/
def Resume.Lineal (f : Forest) (home : Dir) (stack : List Frame) : Resume → Prop
  | .scan => True
  | .close => True
  | .join d _ => f.Hangs home d stack

/-- What a task is about comes right below the stack. -/
def Task.Lineal (f : Forest) (home : Dir) (stack : List Frame) : Task σ ν → Prop
  | .checking d => f.Hangs home d stack
  | .asking d => f.Hangs home d stack
  | .listing d _ => f.Hangs home d stack
  | .acting site _ => site.Lineal f home stack
  | .calling site _ _ _ => site.Lineal f home stack
  | .claiming d _ => f.Hangs home d stack
  | .spawning d => f.Hangs home d stack
  | .returning d _ => f.Hangs home d stack
  | .reporting _ resume => resume.Lineal f home stack
  | .raising resume => resume.Lineal f home stack
  | .closing d _ => f.Hangs home d stack
  | _ => True

/-- A listing that a step shows is the one of the forest. -/
def Event.Agrees (f : Forest) (e : Event) : Prop :=
  ∀ d es, e = .listed d (.ok es) → es = f.listing d.inode

/-- All listings that a walk has seen are those of the forest. -/
def Trace.Agrees (f : Forest) (tr : Trace) : Prop :=
  ∀ shown ∈ tr, shown.2.Agrees f

/-- One listing can be compared with the forest. -/
instance Event.decidableAgrees (f : Forest) : DecidablePred (Event.Agrees f)
  | .listed d (.ok es) => decidable_of_iff (es = f.listing d.inode)
    ⟨fun h _ _ heq => by cases heq; exact h, fun h => h d es rfl⟩
  | .listed _ (.error _) | .quiet | .listing _ | .acting _ | .acted _ _ | .began _ _
  | .answered _ _ _ | .reported _ _ | .offered _ _ _ | .took _ _ | .spawned _ _ =>
    .isTrue fun _ _ h => nomatch h

/-- So can a whole trace. -/
instance Trace.decidableAgrees (f : Forest) : DecidablePred (Trace.Agrees f) :=
  fun tr => inferInstanceAs (Decidable (∀ shown ∈ tr, shown.2.Agrees f))

variable {f : Forest}

/-- A trace agrees with the forest before its last event as well. -/
theorem Trace.Agrees.init {tr : Trace} {shown : ThreadId × Event}
    (h : Trace.Agrees f (tr ++ [shown])) : tr.Agrees f :=
  fun x hx => h x (List.mem_append_left _ hx)

/-- One more event that agrees. -/
theorem Trace.Agrees.concat {tr : Trace} {shown : ThreadId × Event} (h : tr.Agrees f)
    (last : shown.2.Agrees f) : Trace.Agrees f (tr ++ [shown]) :=
  List.forall_mem_append.mpr ⟨h, List.forall_mem_singleton.mpr last⟩

/-- The last event of a trace that agrees does. -/
theorem Trace.Agrees.last {tr : Trace} {shown : ThreadId × Event}
    (h : Trace.Agrees f (tr ++ [shown])) : shown.2.Agrees f :=
  h shown (by simp)

/-- What follows an action is in the line of the thread. -/
theorem Site.Lineal.onward {home : Dir} {stack : List Frame} {site : Site}
    (lineal : site.Lineal f home stack) (placed : site.Placed stack) :
    (site.onward : Task σ ν).Lineal f home stack := by
  cases site with
  | visit d e =>
    obtain ⟨es, ws, fs, rfl⟩ := placed
    by_cases hd : e.kind.isDir = true
    · simp only [Site.onward, hd, if_true, Task.Lineal, Forest.Hangs]
      exact Forest.ofEntry_mem_subdirs lineal hd
    · simp [Site.onward, hd, Task.Lineal]
  | leave d => trivial

/-- So is what follows a failed one. -/
theorem Site.Lineal.afterFailure (home : Dir) (stack : List Frame) (site : Site) :
    site.afterFailure.Lineal f home stack := by
  cases site <;> trivial

namespace Thread

variable {walk : Walk σ ν} {o : Others} {t : Thread σ ν} {s : Shared σ ν} {m : Moved σ ν}

/-- A thread keeps its home. -/
theorem Does.home_eq (h : Does walk o t s m) : m.thread.home = t.home := by
  cases h <;> rfl

/-- A step shows what the forest lists if what a listing has brought is that. -/
theorem Does.agrees (h : Does walk o t s m) {f : Forest}
    (listed : ∀ d es, t.task = .listing d (.done (.ok es)) → es = f.listing d.inode) :
    m.event.Agrees f := by
  intro d es heq
  cases h with
  | endListing =>
    cases heq
    exact listed _ _ rfl
  | _ => cases heq

/-- A step that agrees with the forest keeps a thread in its line. -/
theorem Does.lineal (h : Does walk o t s m) {i : ThreadId} (placed : t.task.Placed i t.stack)
    (agrees : m.event.Agrees f) (stacked : f.Stacked t.home t.stack)
    (lineal : t.task.Lineal f t.home t.stack) :
    f.Stacked m.thread.home m.thread.stack ∧
      m.thread.task.Lineal f m.thread.home m.thread.stack := by
  cases h with
  | endListing =>
    have hes := agrees _ _ rfl
    subst hes
    exact ⟨⟨fun e he => he, lineal, stacked⟩, trivial⟩
  | visit =>
    obtain ⟨hentries, hhangs, hstacked⟩ := stacked
    have hrest := fun e he => hentries e (List.mem_cons_of_mem _ he)
    exact ⟨⟨hrest, hhangs, hstacked⟩, hentries _ List.mem_cons_self⟩
  | finishActing => exact ⟨stacked, lineal.onward placed⟩
  | failActing => exact ⟨stacked, Site.Lineal.afterFailure _ _ _⟩
  | _ => simp_all [Forest.Stacked, Task.Lineal, Resume.Lineal, Site.Lineal]

/-- A worker is started for a subdirectory of the innermost directory. -/
theorem Does.child_mem_subdirs (h : Does walk o t s m) {i : ThreadId}
    (placed : t.task.Placed i t.stack) (lineal : t.task.Lineal f t.home t.stack) {c : Dir}
    (child : m.child = some c) : ∃ fr fs, t.stack = fr :: fs ∧ c ∈ f.subdirs fr.dir := by
  cases h with
  | spawn =>
    cases child
    exact ⟨_, _, rfl, lineal⟩
  | spawnOutside => exact absurd rfl placed
  | _ => cases child

end Thread

/-- All directories of the stack are below the home. -/
theorem Forest.Stacked.mem_dirs {root home : Dir} {stack : List Frame}
    (stacked : f.Stacked home stack) (hhome : home ∈ f.dirs root) :
    (∀ fr ∈ stack, fr.dir ∈ f.dirs root) ∧ ∀ d, f.Hangs home d stack → d ∈ f.dirs root := by
  induction stack with
  | nil =>
    refine ⟨fun fr hfr => absurd hfr List.not_mem_nil, ?_⟩
    intro d heq
    subst heq
    exact hhome
  | cons fr fs ih =>
    obtain ⟨-, hhangs, hstacked⟩ := stacked
    obtain ⟨hbelow, hnext⟩ := ih hstacked
    have hfr : fr.dir ∈ f.dirs root := hnext fr.dir hhangs
    refine ⟨?_, ?_⟩
    · intro fr' hfr'
      rcases List.mem_cons.mp hfr' with rfl | hfr'
      · exact hfr
      · exact hbelow fr' hfr'
    · intro d hd
      exact Forest.mem_dirs_trans hfr (Forest.mem_dirs_of_mem_subdirs hd (Forest.self_mem_dirs d))

namespace World

/-- What holds of the homes and the stacks throughout a run. -/
structure Lineal (f : Forest) (root : Dir) (w : World σ ν) : Prop where
  home : ∀ (i : Nat) (t : Thread σ ν), w.threads[i]? = some t →
    (i = 0 ∧ t.home = root) ∨ (i ≠ 0 ∧ ∃ b ∈ f.dirs root, t.home ∈ f.subdirs b)
  stacked : ∀ (i : Nat) (t : Thread σ ν), w.threads[i]? = some t → f.Stacked t.home t.stack
  lineal : ∀ (i : Nat) (t : Thread σ ν), w.threads[i]? = some t →
    t.task.Lineal f t.home t.stack

variable {walk : Walk σ ν} {w : World σ ν} {root : Dir}

/-- The calling thread is at the root of the subtree. -/
theorem Lineal.initial (f : Forest) (plan : WalkPlan) (root : Dir) (store : Flagged σ)
    (state : ν) : (World.initial plan root store state).Lineal f root where
  home i t ht := by
    obtain ⟨rfl, rfl⟩ := eq_of_initial ht
    exact .inl ⟨rfl, rfl⟩
  stacked i t ht := by
    obtain ⟨rfl, rfl⟩ := eq_of_initial ht
    trivial
  lineal i t ht := by
    obtain ⟨rfl, rfl⟩ := eq_of_initial ht
    rfl

/-- Every thread has its home in the subtree. -/
theorem Lineal.home_mem (lineal : w.Lineal f root) {i : Nat} {t : Thread σ ν}
    (ht : w.threads[i]? = some t) : t.home ∈ f.dirs root := by
  rcases lineal.home i t ht with ⟨-, hhome⟩ | ⟨-, b, hb, hhome⟩
  · exact hhome ▸ Forest.self_mem_dirs _
  · exact Forest.mem_dirs_trans hb (Forest.mem_dirs_of_mem_subdirs hhome (Forest.self_mem_dirs _))

/-- A step keeps all threads in their lines, and puts a new one into the line of its starter. -/
theorem Lineal.step (kin : w.Kin) (lineal : w.Lineal f root) {i : Nat} {room : Bool} {e : Event}
    {w' : World σ ν} (h : w.step walk i room = some (e, w')) (agrees : e.Agrees f) :
    w'.Lineal f root := by
  obtain ⟨t, m, ht, hdoes, rfl, rfl⟩ := step_eq_some h
  have placed := kin.placed i t ht
  have hstacked := lineal.stacked i t ht
  have hlineal := lineal.lineal i t ht
  have hmoved := hdoes.lineal placed agrees hstacked hlineal
  refine ⟨?_, ?_, ?_⟩
  · refine forall_update ht ?_ ?_ fun j u _ hu => lineal.home j u hu
    · rw [hdoes.home_eq]
      exact lineal.home i t ht
    · intro c hc
      obtain ⟨fr, fs, hstack, hmem⟩ := hdoes.child_mem_subdirs placed hlineal hc
      have hfr := (hstacked.mem_dirs (lineal.home_mem ht)).1 fr (by simp [hstack])
      have hpos := kin.caller
      exact .inr ⟨by omega, fr.dir, hfr, hmem⟩
  · exact forall_update ht hmoved.1 (fun _ _ => trivial) fun j u _ hu => lineal.stacked j u hu
  · exact forall_update ht hmoved.2 (fun _ _ => rfl) fun j u _ hu => lineal.lineal j u hu

/-- So does a run. -/
theorem Lineal.of_run {meddle : Flagged σ → Flagged σ → Prop} {start : World σ ν} {tr : Trace}
    (kin : start.Kin) (lineal : start.Lineal f root) (run : Run walk meddle start tr w)
    (agrees : tr.Agrees f) : w.Lineal f root := by
  induction run with
  | nil => exact lineal
  | step run hstep ih =>
    have hlast := agrees.last
    exact (ih agrees.init).step (kin.of_run run) hstep hlast
  | outside _ _ ih => exact ⟨(ih agrees).home, (ih agrees).stacked, (ih agrees).lineal⟩

/-- The task of a thread is about a directory of the subtree. -/
theorem Lineal.mem_dirs (lineal : w.Lineal f root) {i : Nat} {t : Thread σ ν}
    (ht : w.threads[i]? = some t) {d : Dir} (hangs : f.Hangs t.home d t.stack) : d ∈ f.dirs root :=
  ((lineal.stacked i t ht).mem_dirs (lineal.home_mem ht)).2 d hangs

end World

end ShardSweep
