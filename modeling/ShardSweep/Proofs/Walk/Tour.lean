import ShardSweep.Proofs.Walk.Clearance

/-!
# The recursive traversal

One thread alone can go through a subtree by recursion: it lists a directory, visits the entries
in their order and goes into a subdirectory right after visiting it, and leaves the directory in
the end.  `Forest.tour` lists these errands.  `Walk.along` does errands one after another, with
nobody else around, until one of them fails or brings the thread down, and looks at the flag
before each of them and once more at the end.

* `Forest.tour_eq`: the errands below a directory, from those below its subdirectories;
* `Standing`: how things stand for a thread alone, with the kept failure and the flag;
* `Passage`: what doing some errands shows and what it leaves;
* `Walk.Ends`: how a number of errands can end;
* `Walk.Ends.clean`: the same for a visitor that leaves the place for a failure alone;
* `Visitor.BuiltIn.aloof`: both visitors that there are leave it alone;
* `Walk.passes_along`: the errands are begun in their order, and unless all of them go well the
  passage ends with the first that does not.
-/

namespace ShardSweep

variable {σ ν : Type}

/-- Files come before subdirectories, and there is one subdirectory at most. -/
def FilesFirst : List Entry → Prop
  | [] => True
  | e :: es => (e.kind.isDir = true → es = []) ∧ FilesFirst es

/-- One look at the entries in their order decides it. -/
instance FilesFirst.decidable : DecidablePred FilesFirst
  | [] => .isTrue trivial
  | e :: es =>
    have := FilesFirst.decidable es
    inferInstanceAs (Decidable ((e.kind.isDir = true → es = []) ∧ FilesFirst es))

/-- The errands of a recursive traversal through the first `depth` levels of a subtree. -/
def errandsBelow (listing : Inode → List Entry) : (depth : Nat) → Dir → List Errand
  | 0, _ => []
  | depth + 1, d =>
    .list d :: ((listing d.inode).flatMap fun e =>
      .act (.visit d e) :: if e.kind.isDir then errandsBelow listing depth (.ofEntry e) else []) ++
        [.act (.leave d)]

namespace Forest

variable (f : Forest)

/-- The errands of a recursive traversal. -/
def tour (d : Dir) : List Errand :=
  errandsBelow f.listing (f.height d.inode + 1) d

/-- The errands that the visit of an entry leads to. -/
def inside (e : Entry) : List Errand :=
  if e.kind.isDir then f.tour (.ofEntry e) else []

/-- The errands at some entries of a directory, and leaving it. -/
def round (d : Dir) (es : List Entry) : List Errand :=
  (es.flatMap fun e => .act (.visit d e) :: f.inside e) ++ [.act (.leave d)]

/-- What is left to do in the directories of a stack. -/
def trip (stack : List Frame) : List Errand :=
  stack.flatMap fun fr => f.round fr.dir fr.entries

/-- When the entries are used up the directory is left. -/
@[simp] theorem round_nil (d : Dir) : f.round d [] = [.act (.leave d)] := rfl

/-- An entry is visited, and then there is what is inside it. -/
@[simp] theorem round_cons (d : Dir) (e : Entry) (es : List Entry) :
    f.round d (e :: es) = .act (.visit d e) :: (f.inside e ++ f.round d es) := by
  simp [round]

@[simp] theorem trip_nil : f.trip [] = [] := rfl

@[simp] theorem trip_cons (fr : Frame) (stack : List Frame) :
    f.trip (fr :: stack) = f.round fr.dir fr.entries ++ f.trip stack := rfl

variable {f}

/-- A bound on the depth makes no difference if it is high enough. -/
private theorem errandsBelow_of_height_lt {d : Dir} {depth : Nat} (h : f.height d.inode < depth) :
    errandsBelow f.listing depth d = f.tour d := by
  have main : ∀ n m (d : Dir), f.height d.inode < n → f.height d.inode < m →
      errandsBelow f.listing n d = errandsBelow f.listing m d := by
    intro n
    induction n with
    | zero => intro m d hn; omega
    | succ n ih =>
      intro m d hn hm
      obtain ⟨m, rfl⟩ : ∃ k, m = k + 1 := ⟨m - 1, by omega⟩
      simp only [errandsBelow]
      congr 2
      apply List.flatMap_congr
      intro e he
      by_cases hd : e.kind.isDir = true
      · have hlt : f.height (Dir.ofEntry e).inode < f.height d.inode := f.height_lt _ e he hd
        rw [if_pos hd, if_pos hd, ih m (.ofEntry e) (by omega) (by omega)]
      · rw [if_neg hd, if_neg hd]
  exact main _ _ d h (Nat.lt_succ_self _)

/-- A directory is listed, its entries are visited with what is below them, and it is left. -/
theorem tour_eq (f : Forest) (d : Dir) :
    f.tour d = .list d :: f.round d (f.listing d.inode) := by
  rw [tour, errandsBelow, List.cons_append, round]
  congr 2
  apply List.flatMap_congr
  intro e he
  unfold inside
  by_cases hd : e.kind.isDir = true
  · rw [if_pos hd, if_pos hd, errandsBelow_of_height_lt]
    exact f.height_lt d.inode e he hd
  · rw [if_neg hd, if_neg hd]

end Forest

/-- The errands that the stay at a place leads to. -/
def Site.sequel (f : Forest) : Site → List Errand
  | .visit _ e => f.inside e
  | .leave _ => []

/-- Where an errand leads to. -/
def Errand.dir : Errand → Dir
  | .list d => d
  | .act site => site.dir

/-- What an event shows of the requests and of the visitor, and not of the threads. -/
def Event.work : Event → List Event
  | .quiet => []
  | .reported _ _ => []
  | .offered _ _ _ => []
  | .took _ _ => []
  | .spawned _ _ => []
  | e => [e]

/-- The requests of a walk with their answers, and the stays of its visitor, in their order. -/
def Trace.work (tr : Trace) : List Event :=
  tr.flatMap fun shown => shown.2.work

/-- What is done last comes last. -/
theorem Trace.work_append (tr : Trace) (i : ThreadId) (e : Event) :
    work (tr ++ [(i, e)]) = tr.work ++ e.work := by
  simp [work]

/-- The errand that begins with an event. -/
def Event.start? : Event → Option Errand
  | .listing d => some (.list d)
  | .acting site => some (.act site)
  | _ => none

/-- The directory that is listed, or that the visitor is in. -/
def Event.dir? : Event → Option Dir
  | .listing d => some d
  | .listed d _ => some d
  | .acting site => some site.dir
  | .acted site _ => some site.dir
  | .began site _ => some site.dir
  | .answered site _ _ => some site.dir
  | _ => none

/-- The directory in which the last event was. -/
def lastDir? (work : List Event) : Option Dir :=
  work.getLast?.bind Event.dir?

/-- How things stand for one thread alone: what it finds, and what it leaves. -/
structure Standing (σ ν : Type) where
  /-- The store of the metadata, and the flag. -/
  store : Flagged σ
  /-- The state of the visitor. -/
  state : ν
  /-- The failure that is kept. -/
  failure : Option WalkError

namespace Standing

/-- The place for a failure, and the flag. -/
def verdict (s : Standing σ ν) : Verdict :=
  ⟨s.failure, s.store.raised⟩

/-- The flag goes up. -/
def raise (s : Standing σ ν) : Standing σ ν :=
  { s with store := s.store.raise }

/-- A failure is left, and the flag goes up. -/
def fail (e : WalkError) (s : Standing σ ν) : Standing σ ν :=
  { s.raise with failure := (s.verdict.fail e).2.failure }

/-- The kept failure is taken away. -/
def clear (s : Standing σ ν) : Standing σ ν :=
  { s with failure := none }

/-- A request ends. -/
def after (s : Standing σ ν) (store : Flagged σ) : Standing σ ν :=
  { s with store := store }

end Standing

/-- What doing some errands shows and what it leaves. -/
structure Passage (σ ν : Type) where
  /-- The requests with their answers, and the stays of the visitor. -/
  work : List Event
  outcome : Outcome Unit
  standing : Standing σ ν

namespace Passage

/-- Something was done before. -/
def after (events : List Event) (p : Passage σ ν) : Passage σ ν :=
  { p with work := events ++ p.work }

/-- Nothing is left to do but to conclude: with the kept failure, or else as the flag says. -/
def settled (s : Standing σ ν) : Passage σ ν :=
  ⟨[], s.verdict.conclude.1.mapError Halt.failed, s.clear⟩

/-- The walk has failed and is called off. -/
def off (e : WalkError) (s : Standing σ ν) : Passage σ ν :=
  settled (s.fail e)

/-- The thread has died. -/
def dead (p : Panic) (s : Standing σ ν) : Passage σ ν :=
  ⟨[], .error (.panicked p), s⟩

/-- Go on if all went well; a failure is left, and calls the walk off. -/
def andThen (p : Passage σ ν) (next : Standing σ ν → Passage σ ν) : Passage σ ν :=
  match p.outcome with
  | .ok () => (next p.standing).after p.work
  | .error (.failed e) => (off e p.standing).after p.work
  | .error (.panicked _) => p

/-- The stay ends. -/
def acted (site : Site) (outcome : Outcome Unit) (s : Standing σ ν) : Passage σ ν :=
  ⟨[.acted site outcome], outcome, s⟩

/-- A listing ends. -/
def listed (d : Dir) (outcome : Outcome (List Entry)) (s : Standing σ ν) : Passage σ ν :=
  ⟨[.listed d outcome], outcome.map fun _ => (), s⟩

/-- What the answer to a request leads to. -/
def answered (site : Site) (r : Request) (outcome : Outcome r.Answer)
    (go : Except WalkError r.Answer → Passage σ ν) (s : Standing σ ν) : Passage σ ν :=
  (match outcome with
    | .ok a => go (.ok a)
    | .error (.failed e) => go (.error e)
    | .error (.panicked p) => dead p s).after [.answered site r outcome]

/-- The errands that were begun. -/
def starts (p : Passage σ ν) : List Errand :=
  p.work.filterMap Event.start?

@[simp] theorem after_after (p : Passage σ ν) (es es' : List Event) :
    (p.after es').after es = p.after (es ++ es') := by
  simp [after]

@[simp] theorem after_nil (p : Passage σ ν) : p.after [] = p := rfl

@[simp] theorem andThen_after (p : Passage σ ν) (es : List Event)
    (next : Standing σ ν → Passage σ ν) :
    (p.after es).andThen next = (p.andThen next).after es := by
  unfold andThen
  rcases h : p.outcome with (e | q) | ⟨⟨⟩⟩ <;> simp [after, h]

@[simp] theorem starts_after (p : Passage σ ν) (es : List Event) :
    (p.after es).starts = es.filterMap Event.start? ++ p.starts := by
  simp [starts, after]

/-- A kept failure is the outcome, and is taken away. -/
theorem settled_of_kept {s : Standing σ ν} {e : WalkError} (kept : s.failure = some e) :
    settled s = ⟨[], .error (.failed e), s.clear⟩ := by
  have hkept : s.verdict.conclude.1 = .error e := Verdict.conclude_of_kept kept
  rw [settled, hkept]
  rfl

/-- Without one, and with the flag up, the walk was called off. -/
theorem settled_of_raised {s : Standing σ ν} (clean : s.failure = none)
    (raised : s.store.raised = true) : settled s = ⟨[], .error (.failed .cancelled), s⟩ := by
  have hcancelled : s.verdict.conclude.1 = .error .cancelled :=
    Verdict.conclude_of_raised clean raised
  rw [settled, hcancelled, Standing.clear, ← clean]
  rfl

/-- Without one, and with the flag down, all has gone well. -/
theorem settled_of_down {s : Standing σ ν} (clean : s.failure = none)
    (down : s.store.raised = false) : settled s = ⟨[], .ok (), s⟩ := by
  have hwell : s.verdict.conclude.1 = .ok () := Verdict.conclude_of_down clean down
  rw [settled, hwell, Standing.clear, ← clean]
  rfl

/-- Where the flag is up nothing is left to go well. -/
theorem outcome_settled_ne {s : Standing σ ν} (raised : s.store.raised = true) :
    (settled s).outcome ≠ .ok () := by
  cases hkept : s.failure with
  | none => simp [settled_of_raised hkept raised]
  | some e => simp [settled_of_kept hkept]

/-- A walk that has failed ends with the failure that was kept before, if there is one. -/
theorem outcome_off (e : WalkError) (s : Standing σ ν) :
    (off e s).outcome = .error (.failed (s.failure.getD e)) := by
  have hfail : (s.fail e).failure = some (s.failure.getD e) := by
    cases h : s.failure <;> simp [Standing.fail, Standing.verdict, Verdict.fail, offerFailure, h]
  rw [off, settled_of_kept hfail]

end Passage

/-- The whole stay of a visitor at a place. -/
def Action.play (metadata : Metadata (Flagged σ)) (site : Site) :
    Action ν → Standing σ ν → Passage σ ν
  | .done (.ok ()), s => .acted site (.ok ()) s
  | .done (.error e), s => .acted site (.error (.failed e)) s
  | .die p, s => .acted site (.error (.panicked p)) s
  | .update change next, s => (next s.state).play metadata site { s with state := change s.state }
  | .cancel next, s => next.play metadata site s.raise
  | .look next, s => (next s.store.raised).play metadata site s
  | .fail e next, s => (next (s.verdict.fail e).1).play metadata site (s.fail e)
  | .failed next, s => (next s.failure.isSome).play metadata site s
  | .take next, s => (next s.failure).play metadata site s.clear
  | .request r next, s =>
    let answer := (metadata.call r).run s.store
    (Passage.answered site r answer.1
      (fun x => (next x).play metadata site (s.after answer.2)) (s.after answer.2)).after
        [.began site r]

namespace Walk

variable (walk : Walk σ ν)

/-- One errand. -/
def stay : Errand → Standing σ ν → Passage σ ν
  | .list d, s =>
    let answer := (walk.metadata.call
      (.listEntries walk.plan.fs d.inode walk.plan.epoch)).run s.store
    (Passage.listed d answer.1 (s.after answer.2)).after [.listing d]
  | .act site, s =>
    ((walk.visitor.act walk.plan site).play walk.metadata site s).after [.acting site]

/-- One errand after another, with a look at the flag before each of them and in the end. -/
def along : List Errand → Standing σ ν → Passage σ ν
  | [], s => .settled s
  | x :: xs, s => if s.store.raised then .settled s else (walk.stay x s).andThen (along xs)

@[simp] theorem along_nil (s : Standing σ ν) : walk.along [] s = .settled s := rfl

/-- Once the flag is up no errand is begun. -/
theorem along_of_raised {s : Standing σ ν} (raised : s.store.raised = true) (xs : List Errand) :
    walk.along xs s = .settled s := by
  cases xs <;> simp [along, raised]

/-- As long as it is down the first errand is done, and then the others as that leaves it. -/
theorem along_of_down {s : Standing σ ν} (down : s.store.raised = false) (x : Errand)
    (xs : List Errand) : walk.along (x :: xs) s = (walk.stay x s).andThen (walk.along xs) := by
  simp [along, down]

end Walk

/-- Something that happens during a stay at a place. -/
def Event.During (site : Site) : Event → Prop
  | .acted site' _ => site' = site
  | .began site' _ => site' = site
  | .answered site' _ _ => site' = site
  | _ => False

/-- All that a visitor does it does at its site. -/
theorem Action.during_play (metadata : Metadata (Flagged σ)) (site : Site) (a : Action ν)
    (s : Standing σ ν) : ∀ e ∈ (a.play metadata site s).work, e.During site := by
  induction a generalizing s with
  | done result => rcases result with e | ⟨⟨⟩⟩ <;> exact List.forall_mem_singleton.mpr rfl
  | die p => exact List.forall_mem_singleton.mpr rfl
  | update change next ih => exact ih s.state _
  | cancel next ih => exact ih s.raise
  | look next ih => exact ih s.store.raised s
  | fail e next ih => exact ih _ (s.fail e)
  | failed next ih => exact ih s.failure.isSome s
  | take next ih => exact ih s.failure s.clear
  | request r next ih =>
    refine List.forall_mem_cons.mpr ⟨rfl, List.forall_mem_cons.mpr ⟨rfl, ?_⟩⟩
    rcases ((metadata.call r).run s.store).1 with (e | p) | a
    · exact ih (.error e) _
    · exact fun _ h => nomatch h
    · exact ih (.ok a) _

/-- The visitor does not go to the place for a failure, but for looking. -/
def Action.Aloof : Action ν → Prop
  | .done _ => True
  | .die _ => True
  | .update _ next => ∀ before, (next before).Aloof
  | .cancel next => next.Aloof
  | .look next => ∀ raised, (next raised).Aloof
  | .fail _ _ => False
  | .failed next => ∀ kept, (next kept).Aloof
  | .take _ => False
  | .request _ next => ∀ answer, (next answer).Aloof

/-- A request of which a failure is passed on leaves it alone. -/
theorem Action.aloof_ask {r : Request} {next : r.Answer → Action ν}
    (h : ∀ answer, (next answer).Aloof) : (ask r next).Aloof := by
  intro answer
  cases answer with
  | ok a => exact h a
  | error e => trivial

/-- So do both visitors that there are. -/
theorem Visitor.BuiltIn.aloof {visitor : Visitor ν} (h : visitor.BuiltIn) (plan : WalkPlan)
    (site : Site) : (visitor.act plan site).Aloof := by
  cases h with
  | tally once =>
    rcases site with ⟨d, e⟩ | d
    · simp only [act, tallyVisitor]
      cases e.kind with
      | dir => exact fun _ => trivial
      | file =>
        refine fun _ => Action.aloof_ask fun attr => ?_
        unfold Action.countFile
        split
        · intro before
          dsimp only
          split
          · exact fun _ => trivial
          · trivial
        · exact fun _ => trivial
    · trivial
  | removal =>
    have hcounted : (Action.modify (· + 1) .succeed : Action Nat).Aloof := fun _ => trivial
    rcases site with ⟨d, e⟩ | d
    · simp only [act, removalVisitor]
      cases e.kind with
      | dir => trivial
      | file => exact Action.aloof_ask fun _ => hcounted
    · simp only [act, removalVisitor]
      split
      · trivial
      · exact Action.aloof_ask fun _ => hcounted

/-- What keeps away from the place of the first failure leaves it as it is. -/
theorem Action.Aloof.failure_play {a : Action ν} (aloof : a.Aloof) (metadata : Metadata (Flagged σ))
    (site : Site) (s : Standing σ ν) : (a.play metadata site s).standing.failure = s.failure := by
  induction a generalizing s with
  | done result => rcases result with e | ⟨⟨⟩⟩ <;> rfl
  | die p => rfl
  | update change next ih => exact ih _ (aloof _) _
  | cancel next ih => exact ih aloof _
  | look next ih | failed next ih => exact ih _ (aloof _) _
  | fail | take => exact aloof.elim
  | request r next ih =>
    simp only [play, Passage.answered, Passage.after]
    rcases ((metadata.call r).run s.store).1 with (e | p) | a
    · exact ih _ (aloof _) _
    · rfl
    · exact ih _ (aloof _) _

namespace Walk

variable (walk : Walk σ ν)

/-- An errand begins with its own start, and starts nothing else. -/
theorem starts_stay (x : Errand) (s : Standing σ ν) : (walk.stay x s).starts = [x] := by
  cases x with
  | list d => rfl
  | act site =>
    have hnone : ((walk.visitor.act walk.plan site).play walk.metadata site s).starts = [] := by
      rw [Passage.starts, List.filterMap_eq_nil_iff]
      intro e he
      have hduring := Action.during_play _ _ _ _ e he
      cases e <;> first | rfl | exact hduring.elim
    rw [stay, Passage.starts_after, hnone]
    rfl

/-- A visitor that does not go to the place for a failure leaves it as it is. -/
theorem failure_stay (aloof : ∀ site, (walk.visitor.act walk.plan site).Aloof) (x : Errand)
    (s : Standing σ ν) : (walk.stay x s).standing.failure = s.failure := by
  cases x with
  | list d => rfl
  | act site => exact (aloof site).failure_play _ _ _

/-- Errands that go well one after another, with the flag down before each of them and in the end:
what they show, and what they leave. -/
inductive Through : List Errand → Standing σ ν → List Event → Standing σ ν → Prop
  | nil {s} (down : s.store.raised = false) : Through [] s [] s
  | cons {x xs s es s'} (down : s.store.raised = false) (ok : (walk.stay x s).outcome = .ok ())
      (rest : Through xs (walk.stay x s).standing es s') :
      Through (x :: xs) s ((walk.stay x s).work ++ es) s'

/-- How a passage through some errands ends.  A failure that the visitor has left itself is the
outcome before anything else, but for a panic. -/
inductive Ends (xs : List Errand) (s : Standing σ ν) : Passage σ ν → Prop
  /-- All of them went well. -/
  | well {es s'} (through : walk.Through xs s es s') : Ends xs s ((Passage.settled s').after es)
  /-- The flag was up from the start. -/
  | idle (raised : s.store.raised = true) : Ends xs s (.settled s)
  /-- An errand has failed. -/
  | fails {before x later es s' e} (split : xs = before ++ x :: later)
      (through : walk.Through before s es s')
      (failed : (walk.stay x s').outcome = .error (.failed e)) :
      Ends xs s ((Passage.off e (walk.stay x s').standing).after (es ++ (walk.stay x s').work))
  /-- An errand has brought the thread down. -/
  | dies {before x later es s' q} (split : xs = before ++ x :: later)
      (through : walk.Through before s es s')
      (died : (walk.stay x s').outcome = .error (.panicked q)) :
      Ends xs s ((walk.stay x s').after es)
  /-- An errand went well but left the flag up. -/
  | calledOff {before x later es s'} (split : xs = before ++ x :: later)
      (through : walk.Through before s es s') (ok : (walk.stay x s').outcome = .ok ())
      (raised : (walk.stay x s').standing.store.raised = true) :
      Ends xs s ((Passage.settled (walk.stay x s').standing).after (es ++ (walk.stay x s').work))

variable {walk}

/-- One errand more before the others. -/
theorem Ends.cons {x : Errand} {xs : List Errand} {s : Standing σ ν} {p : Passage σ ν}
    (down : s.store.raised = false) (ok : (walk.stay x s).outcome = .ok ())
    (ends : walk.Ends xs (walk.stay x s).standing p) :
    walk.Ends (x :: xs) s (p.after (walk.stay x s).work) := by
  cases ends with
  | well through =>
    rw [Passage.after_after]
    exact .well (.cons down ok through)
  | idle raised => exact .calledOff (List.nil_append _).symm (.nil down) ok raised
  | @fails before y later es s' e split through failed =>
    rw [Passage.after_after, ← List.append_assoc]
    exact .fails (congrArg (x :: ·) split) (.cons down ok through) failed
  | @dies before y later es s' q split through died =>
    rw [Passage.after_after]
    exact .dies (congrArg (x :: ·) split) (.cons down ok through) died
  | @calledOff before y later es s' split through ok' raised =>
    rw [Passage.after_after, ← List.append_assoc]
    exact .calledOff (congrArg (x :: ·) split) (.cons down ok through) ok' raised

variable (walk)

/-- After an errand that went well the others follow. -/
theorem along_cons_of_ok {s : Standing σ ν} (down : s.store.raised = false) {x : Errand}
    (ok : (walk.stay x s).outcome = .ok ()) (xs : List Errand) :
    walk.along (x :: xs) s =
      (walk.along xs (walk.stay x s).standing).after (walk.stay x s).work := by
  rw [along_of_down walk down, Passage.andThen, ok]

/-- The errands are begun in their order, and if all goes well each of them is. -/
theorem starts_along (xs : List Errand) (s : Standing σ ν) :
    (walk.along xs s).starts <+: xs ∧
      ((walk.along xs s).outcome = .ok () → (walk.along xs s).starts = xs) := by
  induction xs generalizing s with
  | nil => exact ⟨List.prefix_rfl, fun _ => rfl⟩
  | cons x xs ih =>
    cases hs : s.store.raised with
    | true =>
      rw [along_of_raised walk hs]
      exact ⟨List.nil_prefix, fun h => absurd h (Passage.outcome_settled_ne hs)⟩
    | false =>
      have hstart := walk.starts_stay x s
      rcases hout : (walk.stay x s).outcome with (e | q) | ⟨⟨⟩⟩
      · have hstarts : (walk.along (x :: xs) s).starts = [x] := by
          rw [along_of_down walk hs, Passage.andThen, hout, Passage.starts_after]
          exact (List.append_nil _).trans hstart
        refine ⟨hstarts ▸ ⟨xs, rfl⟩, fun h => ?_⟩
        rw [along_of_down walk hs, Passage.andThen, hout] at h
        exact absurd (h.symm.trans (Passage.outcome_off _ _)) (by simp)
      · rw [along_of_down walk hs, Passage.andThen, hout]
        exact ⟨hstart ▸ ⟨xs, rfl⟩, fun h => by simp [hout] at h⟩
      · obtain ⟨hbegins, hall⟩ := ih (walk.stay x s).standing
        unfold Passage.starts at hstart
        rw [along_cons_of_ok walk hs hout, Passage.starts_after, hstart, List.singleton_append]
        exact ⟨List.prefix_cons_inj x |>.mpr hbegins, fun h => congrArg (x :: ·) (hall h)⟩

/-- The errands end in one of these ways. -/
theorem ends_along (xs : List Errand) (s : Standing σ ν) : walk.Ends xs s (walk.along xs s) := by
  induction xs generalizing s with
  | nil =>
    cases hs : s.store.raised with
    | true => exact .idle hs
    | false => exact .well (.nil hs)
  | cons x xs ih =>
    cases hs : s.store.raised with
    | true =>
      rw [along_of_raised walk hs]
      exact .idle hs
    | false =>
      rcases hout : (walk.stay x s).outcome with (e | q) | ⟨⟨⟩⟩
      · rw [along_of_down walk hs, Passage.andThen, hout]
        exact .fails (List.nil_append _).symm (.nil hs) hout
      · rw [along_of_down walk hs, Passage.andThen, hout]
        exact .dies (List.nil_append _).symm (.nil hs) hout
      · rw [along_cons_of_ok walk hs hout]
        exact (ih _).cons hs hout

variable {walk}

/-- The flag is down after errands that went well. -/
theorem Through.down {xs : List Errand} {s s' : Standing σ ν} {es : List Event}
    (through : walk.Through xs s es s') : s'.store.raised = false := by
  induction through with
  | nil down => exact down
  | cons _ _ _ ih => exact ih

/-- If the visitor does not go to the place for a failure, it is as it was. -/
theorem Through.failure_eq (aloof : ∀ site, (walk.visitor.act walk.plan site).Aloof)
    {xs : List Errand} {s s' : Standing σ ν} {es : List Event}
    (through : walk.Through xs s es s') : s'.failure = s.failure := by
  induction through with
  | nil => rfl
  | cons _ _ _ ih => exact ih.trans (walk.failure_stay aloof _ _)

variable (walk)

/-- The passage ends with errand `x`, before which all went well, and no failure is kept then. -/
inductive StopsAt (before : List Errand) (x : Errand) (s : Standing σ ν) : Passage σ ν → Prop
  /-- It fails or brings the thread down, and this is the outcome. -/
  | fails {es s' h p} (through : walk.Through before s es s')
      (failed : (walk.stay x s').outcome = .error h) (work : p.work = es ++ (walk.stay x s').work)
      (outcome : p.outcome = .error h) : StopsAt before x s p
  /-- It leaves the flag up. -/
  | raises {es s' p} (through : walk.Through before s es s')
      (ok : (walk.stay x s').outcome = .ok ())
      (raised : (walk.stay x s').standing.store.raised = true)
      (work : p.work = es ++ (walk.stay x s').work)
      (outcome : p.outcome = .error (.failed .cancelled)) : StopsAt before x s p

/-- What a passage is that begins and ends with no failure kept: all goes well, or the flag was up
from the start, or the passage stops at some errand. -/
inductive EndsClean (xs : List Errand) (s : Standing σ ν) : Passage σ ν → Prop
  | well {p} (ok : p.outcome = .ok ()) : EndsClean xs s p
  | idle (raised : s.store.raised = true) : EndsClean xs s ⟨[], .error (.failed .cancelled), s⟩
  | stops {before x later p} (split : xs = before ++ x :: later)
      (stops : walk.StopsAt before x s p) : EndsClean xs s p

variable {walk}

/-- If the visitor does not go to the place for a failure, the outcome is that of the errand with
which the passage ends. -/
theorem Ends.clean (aloof : ∀ site, (walk.visitor.act walk.plan site).Aloof) {xs : List Errand}
    {s : Standing σ ν} (clean : s.failure = none) {p : Passage σ ν} (ends : walk.Ends xs s p) :
    p.standing.failure = none ∧ walk.EndsClean xs s p := by
  have hclean : ∀ {before : List Errand} {es : List Event} {s' : Standing σ ν} (x : Errand),
      walk.Through before s es s' → (walk.stay x s').standing.failure = none :=
    fun x through => (walk.failure_stay aloof x _).trans ((through.failure_eq aloof).trans clean)
  cases ends with
  | @well es s' through =>
    have hnone : s'.failure = none := (through.failure_eq aloof).trans clean
    rw [Passage.settled_of_down hnone through.down]
    exact ⟨hnone, .well rfl⟩
  | idle raised =>
    rw [Passage.settled_of_raised clean raised]
    exact ⟨clean, .idle raised⟩
  | @fails before x later es s' e split through failed =>
    refine ⟨rfl, .stops split (.fails through failed (List.append_nil _) ?_)⟩
    have houtcome := Passage.outcome_off e (walk.stay x s').standing
    rwa [hclean x through] at houtcome
  | @dies before x later es s' q split through died =>
    exact ⟨hclean x through, .stops split (.fails through died rfl died)⟩
  | @calledOff before x later es s' split through ok raised =>
    rw [Passage.settled_of_raised (hclean x through) raised]
    exact ⟨hclean x through, .stops split (.raises through ok raised (List.append_nil _) rfl)⟩

variable (walk)

/-- What a passage through some errands can be. -/
structure Passes (xs : List Errand) (s : Standing σ ν) (p : Passage σ ν) : Prop where
  /-- The errands are begun in their order. -/
  order : p.starts <+: xs
  all : p.outcome = .ok () → p.starts = xs
  /-- All goes well, or the flag was up from the start, or the passage ends with some errand. -/
  ends : walk.Ends xs s p
  /-- If no failure is kept at first, and the visitor does not go to the place for it, none is kept
  in the end, and the outcome is that of the errand with which the passage ends. -/
  aloof : (∀ site, (walk.visitor.act walk.plan site).Aloof) → s.failure = none →
    p.standing.failure = none ∧ walk.EndsClean xs s p

/-- Unless all errands go well the passage ends with the first that does not. -/
theorem passes_along (xs : List Errand) (s : Standing σ ν) : walk.Passes xs s (walk.along xs s) :=
  ⟨(walk.starts_along xs s).1, (walk.starts_along xs s).2, walk.ends_along xs s,
    fun aloof clean => (walk.ends_along xs s).clean aloof clean⟩

end Walk

end ShardSweep
