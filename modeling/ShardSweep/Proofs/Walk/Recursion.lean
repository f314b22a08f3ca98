import ShardSweep.Proofs.Walk.Relay

/-!
# A walk down one line is the recursive traversal

Where each directory lists its files first and then one subdirectory at most, no two threads ever
have anything to do at the same time.  So a walk that nobody disturbs makes the same requests as
the recursive traversal, gets the same answers and goes to the same places in the same order,
however many threads it may have.  It ends as the traversal ends; only of a panic on a worker it
tells with the name of that worker, and this depends on the workers that were started.

* `Walk.tour`: what one thread alone does by recursion;
* `Walk.Alike`: the same walk with another number of threads;
* `Passage.Yields`: what a walk returns that passes like the traversal;
* `Walk.lists_of_answers`: listings that never change bring what a forest lists;
* `World.walk_follows_tour`: a walk down one line is the recursive traversal.
-/

namespace ShardSweep

variable {σ ν : Type}

/-- What one thread alone does by recursion. -/
def Walk.tour (walk : Walk σ ν) (f : Forest) (root : Dir) (store : Flagged σ) (state : ν) :
    Passage σ ν :=
  walk.along (f.tour root) ⟨store, state, none⟩

/-- The walks differ in the number of their threads at most, and the visitor does not look at it. -/
structure Walk.Alike (walk walk' : Walk σ ν) : Prop where
  metadata : walk'.metadata = walk.metadata
  fs : walk'.plan.fs = walk.plan.fs
  epoch : walk'.plan.epoch = walk.plan.epoch
  acts : ∀ site, walk'.visitor.act walk'.plan site = walk.visitor.act walk.plan site

theorem Walk.Alike.refl (walk : Walk σ ν) : walk.Alike walk :=
  ⟨rfl, rfl, rfl, fun _ => rfl⟩

/-- The traversal does not depend on the number of threads. -/
theorem Walk.Alike.along_eq {walk walk' : Walk σ ν} (alike : walk.Alike walk') (xs : List Errand)
    (s : Standing σ ν) : walk'.along xs s = walk.along xs s := by
  have hstay : walk'.stay = walk.stay := by
    funext x s
    cases x with
    | list d =>
      simp only [stay]
      rw [alike.metadata, alike.fs, alike.epoch]
    | act site =>
      simp only [stay]
      rw [alike.metadata, alike.acts]
  induction xs generalizing s with
  | nil => rfl
  | cons x xs ih =>
    have hrest : walk'.along xs = walk.along xs := funext ih
    rw [along, along, hstay, hrest]

/-- What a walk returns that passes like this: the outcome of the passage, but for a panic in
directory `c`, of which it tells with the name of the nearest worker, unless the visitor had left a
failure before. -/
inductive Passage.Yields (f : Forest) (tr : Trace) (p : Passage σ ν) : Outcome Unit → Prop
  | plain (calm : ∀ q, p.outcome ≠ .error (.panicked q)) : Yields f tr p p.outcome
  | worker {q c home} (panicked : p.outcome = .error (.panicked q))
      (place : lastDir? p.work = some c) (nearest : tr.Nearest f c home) :
      Yields f tr p (.error (.failed
        (p.standing.failure.getD (.workerDied ("walker-" ++ toString home.inode) q.message))))
  | caller {q c} (panicked : p.outcome = .error (.panicked q))
      (place : lastDir? p.work = some c) (nobody : ∀ b, tr.Spawns b → c ∉ f.dirs b) :
      Yields f tr p (.error (.panicked q))

/-- A walk that has ended with result `r` has done what a passage says. -/
structure Passage.Done (p : Passage σ ν) (f : Forest) (tr : Trace) (w : World σ ν)
    (r : Outcome Unit) : Prop where
  work : tr.work = p.work
  inner : w.shared.store.inner = p.standing.store.inner
  state : w.shared.state = p.standing.state
  yields : p.Yields f tr r

namespace World

variable {f : Forest} {walk walk' : Walk σ ν} {plan : WalkPlan} {root : Dir} {store : Flagged σ}
  {state : ν} {tr : Trace} {w : World σ ν}

/-- When the calling thread has ended the passage is over. -/
theorem Leads.done {p : Passage σ ν} {a : ThreadId} {t : Thread σ ν} {above : List ThreadId}
    {later : List Errand} (leads : Leads walk f p tr w a t above later) (kin : w.Kin)
    {r : Outcome Unit} (done : w.result? = some r) : p.Done f tr w r := by
  -- Nobody waits any more, so the calling thread was the last one at work.
  have habove : above = [] := by
    rw [List.eq_nil_iff_forall_not_mem]
    intro i hi
    obtain ⟨u, j, d, fs, hu, hwaits, -⟩ := leads.relay.waits hi
    obtain ⟨r', hr'⟩ := kin.ended_of_result (by simp [done]) i u hu
    rw [hwaits.alive] at hr'
    cases hr'
  obtain rfl := (leads.relay.caller_iff kin).mpr habove
  obtain rfl : later = [] := by
    cases leads.relay with
    | caller => rfl
    | worker => cases habove
  have hended : t.task.result? = some r := by
    simpa [result?, ended?, leads.lead] using done
  have hplaced := kin.placed 0 t leads.lead
  have hsound := leads.sound
  have hblame := leads.blame
  have htold := leads.told
  obtain ⟨home, stack, task⟩ := t
  obtain rfl := Task.eq_ended_of_result? hended
  obtain ⟨rfl, -⟩ := hplaced
  rw [walk.ahead_ended f hsound home] at htold
  obtain ⟨hwork, hinner, hstate⟩ := htold.same
  have hwork' : tr.work = p.work := by rw [← hwork]; simp [Passage.after]
  refine ⟨hwork', hinner, hstate, ?_⟩
  generalize hp' : Passage.after _ _ = p' at htold
  have houtcome : p'.outcome = r := by rw [← hp']; rfl
  cases htold with
  | @died q c home panicked place nearest =>
    subst houtcome
    have hkept : ((Passage.off (workerDeath home q) p.standing).after p.work).outcome =
        .error (.failed (p.standing.failure.getD (workerDeath home q))) := Passage.outcome_off _ _
    rw [hkept]
    exact .worker panicked place nearest
  | plain =>
    rcases r with (e | q) | ⟨⟨⟩⟩
    · rw [← houtcome]
      exact .plain (by simp [houtcome])
    · obtain ⟨c, hc, hblames⟩ := hblame rfl
      exact .caller houtcome (hwork' ▸ hc) (hblames.caller rfl)
    · rw [← houtcome]
      exact .plain (by simp [houtcome])

/-- Where each directory lists its files first and then one subdirectory at most, a walk that nobody
disturbs does what the recursive traversal does, in the same order, however many threads it may
have: it makes the same requests and gets the same answers, and its visitor goes to the same places.
That ends with the first errand that fails, brings its thread down or leaves the flag up, and the
walk ends as the traversal does, or with the name of the nearest worker around a panic.  For a
visitor that leaves the place for a failure alone the outcome is that of this errand.  The walk has
an outcome whatever the schedule. -/
theorem walk_follows_tour
    (lists : ∀ d es, .listed d (.ok es) ∈ (walk.tour f root store state).work →
      es = f.listing d.inode)
    (line : ∀ d ∈ f.dirs root, FilesFirst (f.listing d.inode)) :
    walk.Passes (f.tour root) ⟨store, state, none⟩ (walk.tour f root store state) ∧
    ∀ walk', walk.Alike walk' →
      (∀ tr w, Run walk' (fun _ _ => False) (.initial walk'.plan root store state) tr w →
        tr.work <+: (walk.tour f root store state).work ∧
        ∀ r, w.result? = some r → (walk.tour f root store state).Done f tr w r) ∧
      ∀ schedule : Schedule (Flagged σ), (∀ now change, schedule now ≠ some (.outside change)) →
        ∃ bound, ∀ budget, bound ≤ budget → ∃ tr w r,
          (World.initial walk'.plan root store state).drive walk' schedule budget 0 = w ∧
          Run walk' (fun _ _ => False) (.initial walk'.plan root store state) tr w ∧
          w.result? = some r := by
  refine ⟨walk.passes_along _ _, fun walk' alike => ?_⟩
  have hsame : walk'.along (f.tour root) ⟨store, state, none⟩ = walk.tour f root store state :=
    alike.along_eq _ _
  have hruns : ∀ tr w, Run walk' (fun _ _ => False) (.initial walk'.plan root store state) tr w →
      tr.Agrees f ∧ ∃ a t above later,
        Leads walk' f (walk.tour f root store state) tr w a t above later := by
    intro tr w run
    rw [← hsame] at lists ⊢
    exact run.exists_leads lists line
  refine ⟨fun tr w run => ?_, fun schedule alone => ?_⟩
  · obtain ⟨-, a, t, above, later, hleads⟩ := hruns tr w run
    have hkin := (Kin.initial walk'.plan root store state).of_run run
    exact ⟨⟨_, hleads.told.same.1⟩, fun r done => hleads.done hkin done⟩
  · obtain ⟨bound, hbound⟩ := exists_result alone (.initial ..) fun tr w run => (hruns tr w run).1
    have hnobody : schedule.Within fun _ _ => False :=
      fun now change h => absurd h (alone now change)
    refine ⟨bound, fun budget hbudget => ?_⟩
    obtain ⟨r, hr⟩ := hbound budget hbudget
    obtain ⟨tr, run⟩ := exists_run_drive hnobody .nil budget 0
    exact ⟨tr, _, r, rfl, run, hr⟩

end World

section Answers

theorem Passage.mem_andThen {p : Passage σ ν} {next : Standing σ ν → Passage σ ν} {e : Event}
    (h : e ∈ (p.andThen next).work) : e ∈ p.work ∨ e ∈ (next p.standing).work := by
  unfold andThen at h
  rcases hout : p.outcome with (x | q) | ⟨⟨⟩⟩ <;> rw [hout] at h
  · exact .inl (by simpa [after, off, settled] using h)
  · exact .inl h
  · exact List.mem_append.mp h

theorem Proc.Ends.run {α : Type} {good : α → Prop} {p : Proc σ α} (h : p.Ends good) (s : σ) :
    good (p.run s).1 := by
  induction p generalizing s with
  | done a => exact h
  | step change next ih => exact ih s (h s) (change s)

/-- Listings that bring what a forest lists, whatever state they find, do so in a traversal. -/
theorem Walk.lists_of_answers {walk : Walk σ ν} {f : Forest} (answers : ∀ d : Dir,
    (walk.metadata.call (.listEntries walk.plan.fs d.inode walk.plan.epoch)).Ends
      fun outcome => ∀ es, outcome = .ok es → es = f.listing d.inode)
    (xs : List Errand) (s : Standing σ ν) {d : Dir} {es : List Entry}
    (listed : .listed d (.ok es) ∈ (walk.along xs s).work) : es = f.listing d.inode := by
  induction xs generalizing s with
  | nil => cases listed
  | cons x xs ih =>
    cases hs : s.store.raised with
    | true =>
      rw [along_of_raised walk hs] at listed
      cases listed
    | false =>
      rw [along_of_down walk hs] at listed
      rcases Passage.mem_andThen listed with hnow | hlater
      · cases x with
        | list c =>
          obtain ⟨rfl, houtcome⟩ : d = c ∧ Except.ok es = ((walk.metadata.call
              (.listEntries walk.plan.fs c.inode walk.plan.epoch)).run s.store).1 := by
            simpa [stay, Passage.after, Passage.listed] using hnow
          exact (answers d).run s.store es houtcome.symm
        | act site =>
          rcases List.mem_cons.mp hnow with heq | hduring
          · cases heq
          · exact (Action.during_play _ _ _ _ _ hduring).elim
      · exact ih _ hlater

end Answers

/-- Removing a directory with a file and a subdirectory, which holds a file and a subdirectory in
its turn, with one worker.  Listing the innermost directory brings the thread down. -/
def Walk.line : Walk (List String) Nat where
  metadata := Table.metadata
    ⟨[], (((∅ : Std.TreeMap Inode (List Entry)).insert 2
        [⟨"x", 3, 2, .file⟩, ⟨"y", 4, 2, .dir⟩]).insert 4
        [⟨"z", 5, 4, .file⟩, ⟨"d", 6, 4, .dir⟩]).insert 6 [],
      ∅, [], (∅ : Std.TreeMap String Panic).insert "list:6" (.text "boom"), ∅⟩
  visitor := removalVisitor
  plan := ⟨1, .first, 1, Nat.one_pos, maxThreads_pos⟩

/-- The same with two workers. -/
def Walk.lineOfTwo : Walk (List String) Nat :=
  { Walk.line with plan := ⟨1, .first, 2, by decide, by decide⟩ }

/-- The three directories. -/
def Forest.line : Forest where
  listing i :=
    if i = 2 then [⟨"x", 3, 2, .file⟩, ⟨"y", 4, 2, .dir⟩]
    else if i = 4 then [⟨"z", 5, 4, .file⟩, ⟨"d", 6, 4, .dir⟩]
    else []
  height i := if i = 2 then 2 else if i = 4 then 1 else 0
  height_lt i e he hd := by
    split at he
    · subst i
      simp only [List.mem_cons, List.not_mem_nil, or_false] at he
      rcases he with rfl | rfl
      · cases hd
      · decide
    · split at he
      · subst i
        simp only [List.mem_cons, List.not_mem_nil, or_false] at he
        rcases he with rfl | rfl
        · cases hd
        · decide
      · cases he

/-- The walk after a number of moves, the newest thread first. -/
def World.line (walk : Walk (List String) Nat) (moves : Nat) : World (List String) Nat :=
  (World.initial walk.plan ⟨2, 1, "t"⟩ ⟨[], false⟩ 0).drive walk .newestFirst moves 0

/-- What it shows. -/
def Trace.line (walk : Walk (List String) Nat) (moves : Nat) : Trace :=
  (World.line walk 0).trail walk .newestFirst moves 0

theorem Walk.answers_line (d : Dir) :
    (Walk.line.metadata.call
      (.listEntries Walk.line.plan.fs d.inode Walk.line.plan.epoch)).Ends
        fun outcome => ∀ es, outcome = .ok es → es = Forest.line.listing d.inode := by
  refine Table.ends_listEntries _ _ _ _ fun es h => ?_
  simp only [Std.TreeMap.getElem?_insert, Std.TreeMap.getElem?_emptyc, compare_eq_iff_eq] at h
  change es = if d.inode = 2 then _ else if d.inode = 4 then _ else []
  grind

private theorem Walk.alike_lineOfTwo : Walk.line.Alike Walk.lineOfTwo :=
  ⟨rfl, rfl, rfl, fun site => by cases site <;> rfl⟩

/-- With one worker and with two the same is done, up to the listing that brings the thread down;
but it is another worker that dies. -/
theorem World.walk_follows_tour_line :
    (line .line 45).result? = some (.error (.failed (.workerDied "walker-4" "boom"))) ∧
      (line .lineOfTwo 54).result? = some (.error (.failed (.workerDied "walker-6" "boom"))) ∧
      (Trace.line .line 45).work = (Trace.line .lineOfTwo 54).work ∧
      (Walk.line.tour .line ⟨2, 1, "t"⟩ ⟨[], false⟩ 0).starts =
        [.list ⟨2, 1, "t"⟩, .act (.visit ⟨2, 1, "t"⟩ ⟨"x", 3, 2, .file⟩),
          .act (.visit ⟨2, 1, "t"⟩ ⟨"y", 4, 2, .dir⟩), .list ⟨4, 2, "y"⟩,
          .act (.visit ⟨4, 2, "y"⟩ ⟨"z", 5, 4, .file⟩), .act (.visit ⟨4, 2, "y"⟩ ⟨"d", 6, 4, .dir⟩),
          .list ⟨6, 4, "d"⟩] := by
  have hone : (line .line 45).result? =
      some (.error (.failed (.workerDied "walker-4" "boom"))) := by
    decide +kernel
  have htwo : (line .lineOfTwo 54).result? =
      some (.error (.failed (.workerDied "walker-6" "boom"))) := by
    decide +kernel
  have hnobody : Schedule.Within .newestFirst fun _ _ : Flagged (List String) => False :=
    fun _ _ h => nomatch h
  have hfirst : ∀ d ∈ Forest.line.dirs ⟨2, 1, "t"⟩, FilesFirst (Forest.line.listing d.inode) := by
    decide
  have hstart : ∀ walk, Run walk (fun _ _ => False) (line walk 0) [] (line walk 0) := fun _ => .nil
  obtain ⟨-, hwalks⟩ := @walk_follows_tour _ _ .line .line ⟨2, 1, "t"⟩ ⟨[], false⟩ 0
    (fun d es => Walk.lists_of_answers Walk.answers_line _ _) hfirst
  have hdone := ((hwalks .line (.refl _)).1 _ _ (run_drive hnobody (hstart .line) 45 0)).2 _ hone
  have hdone' := ((hwalks .lineOfTwo Walk.alike_lineOfTwo).1 _ _
    (run_drive hnobody (hstart .lineOfTwo) 54 0)).2 _ htwo
  exact ⟨hone, htwo, hdone.work.trans hdone'.work.symm, by decide +kernel⟩

end ShardSweep
