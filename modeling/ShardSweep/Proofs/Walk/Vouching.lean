import ShardSweep.Proofs.Walk.Calls

/-!
# What a walk that ended well stands for

A walk that ends well has done all its errands, and each of them well.  So if an errand ends well
only where something is true, all of this is true after such a walk.  The requests may count on
anything that all of them keep; nobody else changes the store.  No errand panics, and so neither
does the walk.

* `Outcome.Vouches`: an outcome that is good, or at least no panic;
* `Action.Vouches`: a visitor that ends well only where something is true;
* `Walk.Vouches`: the same of all errands of a walk;
* `World.Run.vouched`: what is kept, and what has been vouched for so far;
* `Walk.Vouches.exists_ending`: a walk comes to its end, and vouches for everything if it ends well.
-/

namespace ShardSweep

variable {σ ν α : Type}

/-- An outcome that is good, or a failure. -/
def Outcome.Vouches (good : α → Prop) : Outcome α → Prop
  | .ok a => good a
  | .error (.failed _) => True
  | .error (.panicked _) => False

section

variable (metadata : Metadata (Flagged σ)) (P : Flagged σ → Prop) (claim : Prop)

/-- As long as `P` is kept, the visitor keeps it, and it ends well only if the claim is true. -/
def Action.Vouches : Action ν → Prop
  | .done (.ok _) => claim
  | .done (.error _) => True
  | .die _ => False
  | .update _ next => ∀ before, (next before).Vouches
  | .cancel next => next.Vouches
  | .look next => ∀ raised, (next raised).Vouches
  | .fail _ next => ∀ first, (next first).Vouches
  | .failed next => ∀ kept, (next kept).Vouches
  | .take next => ∀ kept, (next kept).Vouches
  | .request r next => (metadata.call r).Always P fun outcome => match outcome with
      | .ok a => (next (.ok a)).Vouches
      | .error (.failed e) => (next (.error e)).Vouches
      | .error (.panicked _) => False

/-- What is left of a visitor when its request has come to an outcome. -/
def Action.VouchesAfter {r : Request} (next : Except WalkError r.Answer → Action ν) :
    Outcome r.Answer → Prop
  | .ok a => (next (.ok a)).Vouches metadata P claim
  | .error (.failed e) => (next (.error e)).Vouches metadata P claim
  | .error (.panicked _) => False

theorem Action.vouches_request {r : Request} (next : Except WalkError r.Answer → Action ν) :
    (Action.request r next).Vouches metadata P claim ↔
      (metadata.call r).Always P (Action.VouchesAfter metadata P claim next) := by
  unfold Action.Vouches
  refine Iff.of_eq (congrArg (fun good => (metadata.call r).Always P good) ?_)
  funext outcome
  rcases outcome with (e | p) | a <;> rfl

end

/-- A listing that ends well brings what the forest lists, and the claim is true. -/
def Forest.Lists (f : Forest) (claim : Errand → Prop) (d : Dir) : Outcome (List Entry) → Prop :=
  Outcome.Vouches fun es => es = f.listing d.inode ∧ claim (.list d)

/-- The errands of a walk keep `P` and do not panic, and they end well only where their claims are
true. -/
structure Walk.Vouches (walk : Walk σ ν) (f : Forest) (root : Dir) (P : Flagged σ → Prop)
    (claim : Errand → Prop) : Prop where
  raise : ∀ s, P s → P s.raise
  lists : ∀ d ∈ f.dirs root,
    (walk.metadata.call (.listEntries walk.plan.fs d.inode walk.plan.epoch)).Always P
      (f.Lists claim d)
  acts : ∀ site : Site, site.Belongs f root →
    (walk.visitor.act walk.plan site).Vouches walk.metadata P (claim (.act site))

/-- The same of what a thread is doing. -/
def Task.Vouches (metadata : Metadata (Flagged σ)) (f : Forest) (P : Flagged σ → Prop)
    (claim : Errand → Prop) : Task σ ν → Prop
  | .listing d rest => rest.Always P (f.Lists claim d)
  | .acting site action => action.Vouches metadata P (claim (.act site))
  | .calling site _ rest next =>
    rest.Always P (Action.VouchesAfter metadata P (claim (.act site)) next)
  | .unwinding _ => False
  | .releasing _ result | .ended result => result.Vouches fun _ => True
  | _ => True

/-- The errand that has ended well with an event. -/
def Event.well? : Event → Option Errand
  | .listed d (.ok _) => some (.list d)
  | .acted site (.ok _) => some (.act site)
  | _ => none

namespace Thread

variable {walk : Walk σ ν} {o : Others} {t : Thread σ ν} {s : Shared σ ν} {m : Moved σ ν}
  {f : Forest} {root : Dir} {P : Flagged σ → Prop} {claim : Errand → Prop}

/-- A listing agrees with the forest, and an errand that ends well has been vouched for. -/
theorem Does.vouched (h : Does walk o t s m) (vouches : t.task.Vouches walk.metadata f P claim) :
    m.event.Agrees f ∧ ∀ x, m.event.well? = some x → claim x := by
  constructor
  · refine h.agrees fun d es htask => ?_
    rw [htask] at vouches
    exact vouches.1
  · intro x hx
    cases h with
    | endListing =>
      cases hx
      exact vouches.2
    | finishActing =>
      cases hx
      exact vouches
    | _ => cases hx

/-- A step keeps what requests may count on. -/
theorem Does.keeps_store (h : Does walk o t s m) (walks : walk.Vouches f root P claim)
    (vouches : t.task.Vouches walk.metadata f P claim) (kept : P s.store) : P m.shared.store := by
  cases h with
  | stepListing | stepCall =>
    obtain ⟨⟨⟩, hstep, -⟩ := vouches _ kept
    exact hstep
  | cancel | raiseScan | raiseClose | raiseOutside | raiseJoin => exact walks.raise _ kept
  | _ => exact kept

/-- What is left after a step vouches for what the errand is to vouch for. -/
theorem Does.vouches (h : Does walk o t s m) (walks : walk.Vouches f root P claim)
    (stacked : f.Stacked t.home t.stack) (lineal : t.task.Lineal f t.home t.stack)
    (home : t.home ∈ f.dirs root) (vouches : t.task.Vouches walk.metadata f P claim)
    (kept : P s.store) : m.thread.task.Vouches walk.metadata f P claim := by
  have hdirs := stacked.mem_dirs home
  cases h with
  | beginListing => exact walks.lists _ (hdirs.2 _ lineal)
  | stepListing | stepCall =>
    obtain ⟨⟨⟩, -, hnext⟩ := vouches _ kept
    exact hnext
  | visit =>
    exact walks.acts (.visit _ _) ⟨hdirs.1 _ List.mem_cons_self, stacked.1 _ List.mem_cons_self⟩
  | leave => exact walks.acts (.leave _) (hdirs.2 _ lineal)
  | finishActing => exact Site.onward_ind _ (fun _ => trivial) trivial
  | update | look | offer | lookFailed | take => exact vouches _
  | cancel | endCall | failCall | release | endRelease => exact vouches
  | dieListing | dieActing | dieCall | unwindCaller | unwindWorker => exact vouches.elim
  | beginCall => exact (Action.vouches_request _ _ _ _).mp vouches
  | _ => trivial

end Thread

namespace World

variable {walk : Walk σ ν} {f : Forest} {root : Dir} {P : Flagged σ → Prop} {claim : Errand → Prop}
  {meddle : Flagged σ → Flagged σ → Prop} {store : Flagged σ} {state : ν} {tr : Trace}
  {w : World σ ν}

/-- What is true throughout a run. -/
structure Vouched (walk : Walk σ ν) (f : Forest) (P : Flagged σ → Prop) (claim : Errand → Prop)
    (tr : Trace) (w : World σ ν) : Prop where
  kept : P w.shared.store
  agrees : tr.Agrees f
  tasks : ∀ (i : Nat) (t : Thread σ ν), w.threads[i]? = some t →
    t.task.Vouches walk.metadata f P claim
  claims : ∀ i e x, (i, e) ∈ tr → e.well? = some x → claim x

theorem Run.vouched (run : Run walk meddle (.initial walk.plan root store state) tr w)
    (walks : walk.Vouches f root P claim) (start : P store)
    (meddled : ∀ s s', meddle s s' → P s → P s') : w.Vouched walk f P claim tr := by
  induction run with
  | nil =>
    refine ⟨start, fun _ h => absurd h List.not_mem_nil, fun i t ht => ?_, fun _ _ _ h => ?_⟩
    · obtain ⟨-, rfl⟩ := eq_of_initial ht
      trivial
    · cases h
  | outside _ hchange ih => exact ⟨meddled _ _ hchange ih.kept, ih.agrees, ih.tasks, ih.claims⟩
  | @step tr w w' i room e run hstep ih =>
    obtain ⟨hkept, hagrees, htasks, hclaims⟩ := ih
    obtain ⟨t, m, ht, hdoes, rfl, rfl⟩ := step_eq_some hstep
    have hlineal := Lineal.of_run (.initial walk.plan root store state)
      (.initial f walk.plan root store state) run hagrees
    obtain ⟨hagrees', hclaims'⟩ := hdoes.vouched (htasks i t ht)
    refine ⟨?_, ?_, ?_, ?_⟩
    · rw [shared_update]
      exact hdoes.keeps_store walks (htasks i t ht) hkept
    · intro shown hshown
      rcases List.mem_append.mp hshown with hold | hnew
      · exact hagrees shown hold
      · exact List.mem_singleton.mp hnew ▸ hagrees'
    · refine forall_update ht ?_ (fun _ _ => trivial) fun j u _ hu => htasks j u hu
      exact hdoes.vouches walks (hlineal.stacked i t ht) (hlineal.lineal i t ht)
        (hlineal.home_mem ht) (htasks i t ht) hkept
    · intro j e x hmem hx
      rcases List.mem_append.mp hmem with hold | hnew
      · exact hclaims j e x hold hx
      · obtain ⟨-, rfl⟩ := Prod.mk.inj (List.mem_singleton.mp hnew)
        exact hclaims' x hx

/-- A walk does not panic. -/
theorem Vouched.result (vouched : w.Vouched walk f P claim tr) {result : Outcome Unit}
    (done : w.result? = some result) : result.Vouches fun _ => True := by
  cases ht : w.threads[0]? with
  | none => simp [result?, ended?, ht] at done
  | some t =>
    have hresult : t.task.result? = some result := by simpa [result?, ended?, ht] using done
    have htask := vouched.tasks 0 t ht
    rwa [Task.eq_ended_of_result? hresult] at htask

/-- A walk that ends well has left its root. -/
theorem Run.left_of_ok (run : Run walk meddle (.initial walk.plan root store state) tr w)
    (requests : walk.metadata.Within Flagged.Keeps) (meddled : ∀ s s', meddle s s' → s.Keeps s')
    (agrees : tr.Agrees f) (tree : f.IsTree root)
    (visitor : ∀ site, (walk.visitor.act walk.plan site).Passes)
    (done : w.result? = some (.ok ())) : tr.Left root := by
  have hdue := run.count_eq_due requests meddled agrees (.of_map _ tree.dirs) done
    (.acted (.leave root))
  have hmine : (Moment.acted (.leave root)).due f root = 1 := by
    simp [Moment.due, Site.due, Forest.self_mem_dirs]
  obtain ⟨⟨i, e⟩, hmem, hmoment⟩ := List.countP_pos_iff.mp (by rw [hdue, hmine]; exact Nat.one_pos)
  have hleave : e.moment? = some (.acted (.leave root)) := by simpa using hmoment
  cases e with
  | acted site outcome =>
    cases hleave
    exact ⟨i, run.ok_of_acted requests meddled done hmem ▸ hmem⟩
  | answered site r outcome =>
    obtain ⟨a, rfl⟩ := run.ok_of_replies requests meddled visitor done hmem .answered
    cases hleave
  | _ => cases hleave

/-- A walk that ends well vouches for all its errands. -/
theorem Run.claims_of_ok (run : Run walk meddle (.initial walk.plan root store state) tr w)
    (requests : walk.metadata.Within Flagged.Keeps) (meddled : ∀ s s', meddle s s' → s.Keeps s')
    (tree : f.IsTree root) (visitor : ∀ site, (walk.visitor.act walk.plan site).Passes)
    (vouched : w.Vouched walk f P claim tr) (done : w.result? = some (.ok ())) :
    ∀ d ∈ f.dirs root, claim (.list d) ∧ (∀ e ∈ f.listing d.inode, claim (.act (.visit d e))) ∧
      claim (.act (.leave d)) := by
  have hleft := run.left_of_ok requests meddled vouched.agrees tree visitor done
  intro d hd
  obtain ⟨⟨i, hi⟩, hready⟩ := run.left_below requests meddled vouched.agrees hleft hd
  refine ⟨?_, fun e he => ?_, vouched.claims i _ _ hi rfl⟩
  · obtain ⟨j, hj⟩ := hready.listed
    exact vouched.claims j _ _ hj rfl
  · obtain ⟨j, hj⟩ := hready.visited e he
    exact vouched.claims j _ _ hj rfl

end World

/-- A walk that nobody disturbs comes to its end under every schedule, and not by a panic.  What the
requests may count on is kept, and a walk that ends well vouches for all its errands. -/
theorem Walk.Vouches.exists_ending {walk : Walk σ ν} {f : Forest} {root : Dir}
    {P : Flagged σ → Prop} {claim : Errand → Prop} {schedule : Schedule (Flagged σ)}
    (walks : walk.Vouches f root P claim) (store : Flagged σ) (state : ν) (start : P store)
    (requests : walk.metadata.Within Flagged.Keeps) (tree : f.IsTree root)
    (visitor : ∀ site, (walk.visitor.act walk.plan site).Passes)
    (alone : ∀ now change, schedule now ≠ some (.outside change)) :
    ∃ bound, ∀ budget, bound ≤ budget → ∃ last : World σ ν, ∃ result,
      (World.initial walk.plan root store state).drive walk schedule budget 0 = last ∧
      last.result? = some result ∧ P last.shared.store ∧
      result.Vouches fun _ => ∀ d ∈ f.dirs root, claim (.list d) ∧
        (∀ e ∈ f.listing d.inode, claim (.act (.visit d e))) ∧ claim (.act (.leave d)) := by
  have hvouched : ∀ tr w, World.Run walk (fun _ _ => False)
      (.initial walk.plan root store state) tr w → w.Vouched walk f P claim tr :=
    fun tr w run => run.vouched walks start fun _ _ h => h.elim
  obtain ⟨bound, hbound⟩ := World.exists_result alone (.initial ..) fun tr w run =>
    (hvouched tr w run).agrees
  have hnobody : schedule.Within fun _ _ => False := fun now change h => absurd h (alone now change)
  refine ⟨bound, fun budget hbudget => ?_⟩
  obtain ⟨result, hresult⟩ := hbound budget hbudget
  obtain ⟨tr, run⟩ := World.exists_run_drive hnobody .nil budget 0
  have vouched := hvouched tr _ run
  refine ⟨_, result, rfl, hresult, vouched.kept, ?_⟩
  rcases result with (e | p) | ⟨⟨⟩⟩
  · trivial
  · exact vouched.result hresult
  · exact run.claims_of_ok requests (fun _ _ h => h.elim) tree visitor vouched hresult

end ShardSweep
