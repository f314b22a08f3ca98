import ShardSweep.Proofs.Walk.Bound
import ShardSweep.Proofs.Walk.PostOrder
import ShardSweep.Proofs.Walk.Visitors

/-!
# What a raised flag lets through

A thread looks at the flag before it lists a directory and before each place where the visitor
acts, and the visitors that count and remove make one request at most at a place.  So it looks
anew for each of its requests.  When the flag goes up a thread may have looked for one already
and not made it: that one it still makes, and no other.  Who is started later has looked for
none.

* `Errand`: what a thread looks at the flag for, and what a request is made for;
* `Task.Cleared`: it has looked, and the request is still to come;
* `World.Run.looked`: whoever is cleared found the flag down and has made no request since;
* `World.Run.winds_down`: with the flag up a thread makes the request that it is cleared for;
* `World.walk_winds_down`: what that leaves of a walk that is called off.
-/

namespace ShardSweep

variable {σ ν : Type}

/-- What a request is made for. -/
inductive Errand where
  /-- To list a directory. -/
  | list (dir : Dir)
  /-- To act as the visitor at a place. -/
  | act (site : Site)
  deriving DecidableEq

/-- What a request that begins is made for. -/
def Event.errand? : Event → Option Errand
  | .listing dir => some (.list dir)
  | .began site _ => some (.act site)
  | _ => none

namespace Trace

/-- The errands for which thread `i` has made its requests, the oldest first. -/
def errandsOf (tr : Trace) (i : ThreadId) : List Errand :=
  tr.filterMap fun shown => if shown.1 = i then shown.2.errand? else none

/-- How many requests have begun. -/
def requests (tr : Trace) : Nat :=
  tr.countP fun shown => shown.2.errand?.isSome

@[simp] theorem errandsOf_nil (i : ThreadId) : errandsOf [] i = [] := rfl

/-- An errand of another thread is not among those of this one. -/
theorem errandsOf_append (tr : Trace) (j i : ThreadId) (e : Event) :
    errandsOf (tr ++ [(j, e)]) i =
      tr.errandsOf i ++ if j = i then e.errand?.toList else [] := by
  unfold errandsOf
  rw [List.filterMap_append]
  by_cases hj : j = i
  · cases h : e.errand? <;> simp [hj, h]
  · simp [hj]

/-- A request is made by one of the threads. -/
theorem requests_eq_sum {tr : Trace} {n : Nat} (known : ∀ shown ∈ tr, shown.1 < n) :
    tr.requests = ∑ i ∈ Finset.range n, (tr.errandsOf i).length := by
  induction tr with
  | nil => simp [requests]
  | cons shown tr ih =>
    obtain ⟨j, e⟩ := shown
    have hj : j < n := known _ List.mem_cons_self
    have hrest := ih fun shown h => known shown (List.mem_cons_of_mem _ h)
    have hlength : ∀ i, (errandsOf ((j, e) :: tr) i).length =
        (errandsOf tr i).length + if j = i then (if e.errand?.isSome then 1 else 0) else 0 := by
      intro i
      unfold errandsOf
      by_cases hi : j = i
      · cases h : e.errand? <;> simp [hi, h]
      · simp [hi]
    rw [Finset.sum_congr rfl fun i _ => hlength i, Finset.sum_add_distrib, Finset.sum_ite_eq,
      if_pos (Finset.mem_range.mpr hj), ← hrest]
    unfold requests
    rw [List.countP_cons]

end Trace

namespace Task

/-- The thread has looked at the flag for an errand, and may still make the request. -/
inductive Cleared : Task σ ν → Errand → Prop
  | list {d} : Cleared (.asking d) (.list d)
  | act {site action} (may : ¬ action.AtMost 0) : Cleared (.acting site action) (.act site)

/-- Who is cleared for something has not ended. -/
theorem Cleared.alive {task : Task σ ν} {x : Errand} (h : task.Cleared x) :
    task.alive = 1 ∧ task.result? = none := by
  cases h <;> exact ⟨rfl, rfl⟩

end Task

/-- The errand for which the thread looks at the flag next. -/
def Thread.looksFor? (t : Thread σ ν) : Option Errand :=
  match t.task, t.stack with
  | .checking d, _ => some (.list d)
  | .scanning, ⟨d, e :: _, _⟩ :: _ => some (.act (.visit d e))
  | .closing d [], _ => some (.act (.leave d))
  | _, _ => none

/-- Who goes on after an action has to look again. -/
theorem Site.not_cleared_onward (site : Site) (x : Errand) :
    ¬ (site.onward : Task σ ν).Cleared x :=
  site.onward_ind (P := fun task => ¬ task.Cleared x) nofun nofun

namespace Thread

variable {walk : Walk σ ν} {o : Others} {t : Thread σ ν} {s : Shared σ ν} {m : Moved σ ν}

/-- A request is made by a thread that is cleared for it, and then it is cleared for nothing. -/
theorem Does.cleared_of_errand (h : Does walk o t s m) {x : Errand}
    (errand : m.event.errand? = some x) :
    t.task.Cleared x ∧ ∀ y, ¬ m.thread.task.Cleared y := by
  cases h with
  | beginListing =>
    cases errand
    exact ⟨.list, fun _ h => nomatch h⟩
  | beginCall =>
    cases errand
    exact ⟨.act id, fun _ h => nomatch h⟩
  | _ => cases errand

/-- A thread is cleared for an errand by looking at the flag while that is down. -/
theorem Does.cleared (h : Does walk o t s m) (single : t.task.Single) {x : Errand}
    (cleared : m.thread.task.Cleared x) :
    t.task.Cleared x ∨ t.looksFor? = some x ∧ s.store.raised = false := by
  cases h with
  | check down | visit down | leave down => cases cleared; exact .inr ⟨rfl, down⟩
  | finishActing => exact absurd cleared (Site.not_cleared_onward _ x)
  | update | look | offer | lookFailed | take =>
    cases cleared with
    | act may => exact .inl (.act fun h => may (h _))
  | cancel =>
    cases cleared with
    | act may => exact .inl (.act may)
  | endCall | failCall =>
    cases cleared with
    | act may => exact absurd (single _) may
  | _ => cases cleared

end Thread

namespace World

/-- Thread `i` has looked at the flag for an errand, and may still make the request. -/
def Cleared (w : World σ ν) (i : ThreadId) (x : Errand) : Prop :=
  ∃ t, w.threads[i]? = some t ∧ t.task.Cleared x

/-- Thread `i` found the flag down when it looked for an errand, and has made no request since. -/
inductive Looked (walk : Walk σ ν) (meddle : Flagged σ → Flagged σ → Prop) (start : World σ ν)
    (tr : Trace) (w : World σ ν) (i : ThreadId) (x : Errand) : Prop
  | intro {earlier since : Trace} {w₁ w₂ : World σ ν} {t : Thread σ ν} {room : Bool} {e : Event}
      (split : tr = earlier ++ (i, e) :: since)
      (run : Run walk meddle start earlier w₁) (thread : w₁.threads[i]? = some t)
      (looks : t.looksFor? = some x) (down : w₁.shared.store.raised = false)
      (step : w₁.step walk i room = some (e, w₂)) (rest : Run walk meddle w₂ since w)
      (none : since.errandsOf i = [])

variable {walk : Walk σ ν} {meddle : Flagged σ → Flagged σ → Prop} {plan : WalkPlan} {root : Dir}
  {store : Flagged σ} {state : ν} {before after : Trace} {w w' : World σ ν}

/-- A request is made by a thread that is cleared for it, and then it is cleared for nothing. -/
theorem cleared_of_errand {i : ThreadId} {room : Bool} {e : Event}
    (h : w.step walk i room = some (e, w')) {x : Errand} (errand : e.errand? = some x) :
    w.Cleared i x ∧ ∀ y, ¬ w'.Cleared i y := by
  obtain ⟨t, m, ht, hdoes, rfl, rfl⟩ := step_eq_some h
  obtain ⟨hcleared, hnone⟩ := hdoes.cleared_of_errand errand
  refine ⟨⟨t, ht, hcleared⟩, fun y hy => ?_⟩
  obtain ⟨u, hu, hcleared'⟩ := hy
  obtain rfl := Option.some.inj (hu.symm.trans (getElem?_update_self ht m))
  exact hnone y hcleared'

/-- Who is cleared was cleared before, or has looked at the flag with this step. -/
theorem cleared_of_step {i j : ThreadId} {room : Bool} {e : Event}
    (single : ∀ (i : Nat) (t : Thread σ ν), w.threads[i]? = some t → t.task.Single)
    (h : w.step walk i room = some (e, w')) {x : Errand} (cleared : w'.Cleared j x) :
    w.Cleared j x ∨ j = i ∧ w.shared.store.raised = false ∧
      ∃ t, w.threads[i]? = some t ∧ t.looksFor? = some x := by
  obtain ⟨t, m, ht, hdoes, rfl, rfl⟩ := step_eq_some h
  obtain ⟨u, hu, hcleared⟩ := cleared
  revert u
  refine fun u hu hcleared => forall_update (P := fun j u => u.task.Cleared x → w.Cleared j x ∨
    j = i ∧ w.shared.store.raised = false ∧ ∃ t, w.threads[i]? = some t ∧ t.looksFor? = some x)
    ht ?mover ?child ?others j u hu hcleared
  case mover =>
    intro hcleared
    rcases hdoes.cleared (single i t ht) hcleared with hbefore | ⟨hlooks, hdown⟩
    · exact .inl ⟨t, ht, hbefore⟩
    · exact .inr ⟨rfl, hdown, t, ht, hlooks⟩
  case child => exact fun _ _ h => nomatch h
  case others => exact fun j u _ hu h => .inl ⟨u, hu, h⟩

/-- A step of a thread that is still cleared for something makes no request. -/
theorem errandsOf_of_cleared {i j : ThreadId} {room : Bool} {e : Event}
    (h : w.step walk j room = some (e, w')) {x : Errand} (cleared : w'.Cleared i x) (tr : Trace) :
    Trace.errandsOf (tr ++ [(j, e)]) i = tr.errandsOf i := by
  rw [Trace.errandsOf_append]
  by_cases hj : j = i
  · cases herrand : e.errand? with
    | none => simp
    | some y => exact absurd (hj ▸ cleared) ((cleared_of_errand h herrand).2 x)
  · simp [hj]

/-- Whoever is cleared for an errand found the flag down when it looked, and has made no request
since. -/
theorem Run.looked (run : Run walk meddle (.initial plan root store state) before w)
    (once : ∀ site, (walk.visitor.act walk.plan site).AtMost 1) {i : ThreadId} {x : Errand}
    (cleared : w.Cleared i x) :
    Looked walk meddle (.initial plan root store state) before w i x := by
  induction run with
  | nil =>
    obtain ⟨t, ht, hcleared⟩ := cleared
    obtain ⟨-, rfl⟩ := eq_of_initial ht
    cases hcleared
  | outside _ hchange ih =>
    obtain ⟨hsplit, hrun, ht, hlooks, hdown, hstep, hrest, hnone⟩ := ih cleared
    exact .intro hsplit hrun ht hlooks hdown hstep (hrest.outside hchange) hnone
  | @step tr w w' j room e run hstep ih =>
    rcases cleared_of_step (run.single once) hstep cleared with
      hbefore | ⟨rfl, hdown, t, ht, hlooks⟩
    · obtain ⟨hsplit, hrun, ht, hlooks, hdown, hstep', hrest, hnone⟩ := ih hbefore
      refine .intro (by rw [hsplit, List.append_assoc, List.cons_append]) hrun ht hlooks hdown
        hstep' (hrest.step hstep) ?_
      rw [errandsOf_of_cleared hstep cleared, hnone]
    · exact .intro rfl run ht hlooks hdown hstep .nil rfl

/-- With the flag up a thread makes the request that it is cleared for, and no other. -/
theorem Run.winds_down (run : Run walk meddle (.initial plan root store state) before w)
    (later : Run walk meddle w after w') (requests : walk.metadata.Within Flagged.Keeps)
    (meddled : ∀ s s', meddle s s' → s.Keeps s')
    (once : ∀ site, (walk.visitor.act walk.plan site).AtMost 1)
    (up : w.shared.store.raised = true) :
    w'.shared.store.raised = true ∧ ∀ i,
      (after.errandsOf i = [] ∧ ∀ x, w'.Cleared i x → w.Cleared i x) ∨
        ∃ x, after.errandsOf i = [x] ∧ w.Cleared i x ∧ ∀ y, ¬ w'.Cleared i y := by
  induction later with
  | nil => exact ⟨up, fun i => .inl ⟨rfl, fun _ h => h⟩⟩
  | outside _ hchange ih => exact ⟨meddled _ _ hchange ih.1, ih.2⟩
  | @step tr w₁ w₂ j room e later hstep ih =>
    obtain ⟨hup, hmade⟩ := ih
    have hrun := run.trans later
    have hold : ∀ {i x}, w₂.Cleared i x → w₁.Cleared i x := by
      intro i x h
      rcases cleared_of_step (hrun.single once) hstep h with hbefore | ⟨-, hdown, -⟩
      · exact hbefore
      · exact absurd (hup.symm.trans hdown) (by simp)
    refine ⟨hrun.stays_up requests hstep hup, fun i => ?_⟩
    rw [Trace.errandsOf_append]
    by_cases hmakes : j = i ∧ e.errand?.isSome
    · obtain ⟨rfl, hsome⟩ := hmakes
      obtain ⟨x, hx⟩ := Option.isSome_iff_exists.mp hsome
      obtain ⟨hcleared, hnone⟩ := cleared_of_errand hstep hx
      right
      rcases hmade j with ⟨hnothing, hsame⟩ | ⟨y, -, -, hnone'⟩
      · exact ⟨x, by simp [hnothing, hx], hsame x hcleared, hnone⟩
      · exact absurd hcleared (hnone' x)
    · have hquiet : (if j = i then e.errand?.toList else []) = [] := by
        split
        · rename_i hj
          rw [Option.toList_eq_nil_iff, ← Option.not_isSome_iff_eq_none]
          exact fun h => hmakes ⟨hj, h⟩
        · rfl
      rw [hquiet, List.append_nil]
      rcases hmade i with ⟨hnothing, hsame⟩ | ⟨y, hone, hcleared, hnone⟩
      · exact .inl ⟨hnothing, fun x h => hsame x (hold h)⟩
      · exact .inr ⟨y, hone, hcleared, fun z h => hnone z (hold h)⟩

/-- What happens from `w` on, after the trace `before`, if the flag is up in `w`. -/
structure WindsDown (walk : Walk σ ν) (meddle : Flagged σ → Flagged σ → Prop) (start : World σ ν)
    (before : Trace) (w : World σ ν) (after : Trace) : Prop where
  /-- A thread makes one more request at most. -/
  once : ∀ i, (after.errandsOf i).length ≤ 1
  /-- Who makes one was alive when the flag was up, and had looked for it when it was down. -/
  looked : ∀ i x, x ∈ after.errandsOf i → i ∈ w.live ∧ Looked walk meddle start before w i x
  /-- So there are no more requests than threads can be alive. -/
  bounded : after.requests ≤ walk.plan.threads + 1

/-- Threads are never forgotten, and only those that were started show anything. -/
theorem Run.known {start : World σ ν} (run : Run walk meddle start before w) :
    start.threads.size ≤ w.threads.size ∧ ∀ shown ∈ before, shown.1 < w.threads.size := by
  induction run with
  | nil => exact ⟨Nat.le_refl _, fun _ h => absurd h List.not_mem_nil⟩
  | outside _ _ ih => exact ih
  | @step tr w w' i room e _ hstep ih =>
    obtain ⟨t, m, ht, -, -, rfl⟩ := step_eq_some hstep
    have hi := lt_size ht
    rw [size_update]
    refine ⟨Nat.le_add_right_of_le ih.1, fun shown hshown => ?_⟩
    rcases List.mem_append.mp hshown with hold | hnew
    · exact Nat.lt_add_right _ (ih.2 shown hold)
    · obtain rfl := List.mem_singleton.mp hnew
      exact Nat.lt_add_right _ hi

/-- Who is cleared for something is there and has not ended. -/
theorem Cleared.alive {i : ThreadId} {x : Errand} (h : w.Cleared i x) :
    (w.threads[i]?).elim 0 (fun t => t.task.alive) = 1 ∧ i < w.threads.size ∧
      w.ended? i = none := by
  obtain ⟨t, ht, hcleared⟩ := h
  obtain ⟨halive, hgoing⟩ := hcleared.alive
  exact ⟨by simp [ht, halive], lt_size ht, by simp [ended?, ht, hgoing]⟩

/-- What is left of a walk once its flag is up. -/
theorem Run.windsDown (run : Run walk meddle (.initial walk.plan root store state) before w)
    (later : Run walk meddle w after w') (requests : walk.metadata.Within Flagged.Keeps)
    (meddled : ∀ s s', meddle s s' → s.Keeps s')
    (once : ∀ site, (walk.visitor.act walk.plan site).AtMost 1)
    (up : w.shared.store.raised = true) :
    WindsDown walk meddle (.initial walk.plan root store state) before w after := by
  obtain ⟨-, hmade⟩ := run.winds_down later requests meddled once up
  have hkin := (Kin.initial walk.plan root store state).of_run run
  have hcleared : ∀ i x, x ∈ after.errandsOf i → w.Cleared i x := by
    intro i x hx
    rcases hmade i with ⟨hnothing, -⟩ | ⟨y, hone, hcleared, -⟩
    · rw [hnothing] at hx
      cases hx
    · rw [hone, List.mem_singleton] at hx
      exact hx ▸ hcleared
  have honce : ∀ i, (after.errandsOf i).length ≤ 1 := by
    intro i
    rcases hmade i with ⟨hnothing, -⟩ | ⟨y, hone, -, -⟩
    · simp [hnothing]
    · simp [hone]
  refine ⟨honce, fun i x hx => ?_, ?_⟩
  · have hi := hcleared i x hx
    exact ⟨(hkin.live i).mpr hi.alive.2, run.looked once hi⟩
  · obtain ⟨hsize, hknown⟩ := later.known
    have hworkers := run.bounded.workers
    calc after.requests
        = ∑ i ∈ Finset.range w'.threads.size, (after.errandsOf i).length :=
          Trace.requests_eq_sum hknown
      _ ≤ ∑ i ∈ Finset.range w'.threads.size,
            (w.threads[i]?).elim 0 fun t => t.task.alive := by
          refine Finset.sum_le_sum fun i _ => ?_
          rcases hmade i with ⟨hnothing, -⟩ | ⟨y, hone, hcleared, -⟩
          · simp [hnothing]
          · rw [hone, hcleared.alive.1, List.length_singleton]
      _ = w.tally fun _ t => t.task.alive := by
          refine (Finset.sum_subset (Finset.range_mono hsize) fun i _ hi => ?_).symm
          rw [Finset.mem_range, Nat.not_lt] at hi
          rw [Array.getElem?_eq_none hi]
          rfl
      _ ≤ w.workers + 1 := tally_le_workers_add_one fun _ _ _ => Nat.le_refl _
      _ ≤ walk.plan.threads + 1 := by omega

/-- The same walk with a failure that was left before it. -/
def keeping (w : World σ ν) (kept : Option WalkError) : World σ ν :=
  { w with shared := { w.shared with failure := kept } }

@[simp] theorem threads_keeping (w : World σ ν) (kept : Option WalkError) :
    (w.keeping kept).threads = w.threads := rfl

/-- Who waits for whom does not depend on a kept failure. -/
theorem Kin.keeping (kin : w.Kin) (kept : Option WalkError) : (w.keeping kept).Kin :=
  ⟨kin.caller, kin.placed, kin.newer, kin.awaited, kin.live, kin.sorted⟩

end World

/-- What the calling thread may be about if the flag was up from the start. -/
def Task.Idle (kept : Option WalkError) : Task σ ν → Prop
  | .checking _ => True
  | .scanning => True
  | .concluding => True
  | .settling => kept = none
  | .ended result => result = .error (.failed (kept.getD .cancelled))
  | _ => False

/-- The calling thread is inside no directory, and the kept failure is in its place. -/
structure Thread.Idle (kept : Option WalkError) (t : Thread σ ν) (s : Shared σ ν) : Prop where
  up : s.store.raised = true
  stack : t.stack = []
  task : t.task.Idle kept
  failure : t.task.result? = none → s.failure = kept

/-- If the flag was up from the start the calling thread goes straight to its end. -/
theorem Thread.Does.idle {walk : Walk σ ν} {o : Others} {t : Thread σ ν} {s : Shared σ ν}
    {m : Moved σ ν} (h : Does walk o t s m) (caller : o.caller = true)
    {kept : Option WalkError} (idle : t.Idle kept s) :
    m.thread.Idle kept m.shared ∧ m.child = none ∧ m.event = .quiet := by
  obtain ⟨up, stack, task, failure⟩ := idle
  cases h with
  | skipListing => exact ⟨⟨up, stack, trivial, fun _ => failure rfl⟩, rfl, rfl⟩
  | conclude => exact ⟨⟨up, rfl, trivial, fun _ => failure rfl⟩, rfl, rfl⟩
  | concludeClean clean =>
    exact ⟨⟨up, stack, (failure rfl).symm.trans clean, fun _ => failure rfl⟩, rfl, rfl⟩
  | concludeFailed left =>
    obtain rfl := (failure rfl).symm.trans left
    exact ⟨⟨up, rfl, rfl, fun h => nomatch h⟩, rfl, rfl⟩
  | settleCancelled =>
    obtain rfl : kept = none := task
    exact ⟨⟨up, rfl, rfl, fun h => nomatch h⟩, rfl, rfl⟩
  | goHome worker => exact absurd (caller.symm.trans worker) (by simp)
  | check down | settleWell down => exact absurd (up.symm.trans down) (by simp)
  | useUp | giveUp | visit => cases stack
  | _ => exact task.elim

/-- A tree of one empty directory. -/
def Forest.bare : Forest where
  listing _ := []
  height _ := 0
  height_lt _ _ h _ := absurd h List.not_mem_nil

namespace World

variable {walk : Walk σ ν} {meddle : Flagged σ → Flagged σ → Prop} {root : Dir}
  {store : Flagged σ} {state : ν} {tr : Trace} {w : World σ ν}

/-- If the flag is up from the start the calling thread stays alone and shows nothing. -/
theorem Run.idle {kept : Option WalkError}
    (run : Run walk meddle ((initial walk.plan root store state).keeping kept) tr w)
    (meddled : ∀ s s', meddle s s' → s.Keeps s') (up : store.raised = true) :
    w.threads.size = 1 ∧ (∀ t, w.threads[0]? = some t → t.Idle kept w.shared) ∧
      ∀ shown ∈ tr, shown.2 = .quiet := by
  induction run with
  | nil =>
    refine ⟨rfl, fun t ht => ?_, fun _ h => absurd h List.not_mem_nil⟩
    rw [threads_keeping] at ht
    obtain ⟨-, rfl⟩ := eq_of_initial ht
    exact ⟨up, rfl, trivial, fun _ => rfl⟩
  | outside _ hchange ih =>
    refine ⟨ih.1, fun t ht => ?_, ih.2.2⟩
    obtain ⟨hup, hstack, htask, hfailure⟩ := ih.2.1 t ht
    exact ⟨meddled _ _ hchange hup, hstack, htask, hfailure⟩
  | @step tr w w' i room e run hstep ih =>
    obtain ⟨hsize, hidle, hquiet⟩ := ih
    obtain ⟨t, m, ht, hdoes, rfl, rfl⟩ := step_eq_some hstep
    obtain rfl : i = 0 := Nat.lt_one_iff.mp (hsize ▸ lt_size ht)
    obtain ⟨hmoved, hchild, hevent⟩ := hdoes.idle rfl (hidle t ht)
    refine ⟨by rw [size_update, hchild, hsize]; rfl, fun u hu => ?_, fun shown hshown => ?_⟩
    · rw [getElem?_update ht, if_pos rfl] at hu
      cases hu
      rwa [shared_update]
    · rcases List.mem_append.mp hshown with hold | hnew
      · exact hquiet shown hold
      · rw [List.mem_singleton.mp hnew]
        exact hevent

/-- When the flag goes up, for whatever reason, a thread that is alive makes the one request
that it has already looked for at the most, and a later one makes none.  If the flag is up from the
start no request is made, and the outcome is that the walk was called off, unless a failure was
left before. -/
theorem walk_winds_down (visitor : walk.visitor.BuiltIn)
    (requests : walk.metadata.Within Flagged.Keeps) (meddled : ∀ s s', meddle s s' → s.Keeps s') :
    (∀ before w after w',
      Run walk meddle (.initial walk.plan root store state) before w →
      w.shared.store.raised = true → Run walk meddle w after w' →
      WindsDown walk meddle (.initial walk.plan root store state) before w after) ∧
    (store.raised = true → ∀ kept,
      (∀ tr w, Run walk meddle ((initial walk.plan root store state).keeping kept) tr w →
        tr.requests = 0 ∧
        ∀ r, w.result? = some r → r = .error (.failed (kept.getD .cancelled))) ∧
      ∀ schedule : Schedule (Flagged σ), schedule.Within meddle → schedule.Fair →
        ∃ bound, ∀ budget, bound ≤ budget →
          (((initial walk.plan root store state).keeping kept).drive walk schedule budget 0).result?
            = some (.error (.failed (kept.getD .cancelled)))) := by
  refine ⟨fun before w after w' run up later => ?_, fun up kept => ?_⟩
  · exact run.windsDown later requests meddled (fun site => (visitor.plain walk.plan site).1) up
  · have hkin := (Kin.initial walk.plan root store state).keeping kept
    have hresult : ∀ tr w, Run walk meddle ((initial walk.plan root store state).keeping kept) tr w →
        ∀ r, w.result? = some r → r = .error (.failed (kept.getD .cancelled)) := by
      intro tr w run r hr
      obtain ⟨⟨d, r⟩, hended, rfl⟩ := Option.map_eq_some_iff.mp hr
      obtain ⟨t, ht, -, hdone⟩ := ended?_eq_some hended
      have htask := ((run.idle meddled up).2.1 t ht).task
      rw [Task.eq_ended_of_result? hdone] at htask
      exact htask
    refine ⟨fun tr w run => ⟨?_, hresult tr w run⟩, fun schedule within fair => ?_⟩
    · refine List.countP_eq_zero.mpr fun shown hshown => ?_
      rw [(run.idle meddled up).2.2 shown hshown]
      simp [Event.errand?]
    · have hagrees : ∀ tr w, Run walk meddle ((initial walk.plan root store state).keeping kept) tr w →
          tr.Agrees .bare := by
        intro tr w run shown hshown d es hlisted
        rw [(run.idle meddled up).2.2 shown hshown] at hlisted
        cases hlisted
      obtain ⟨bound, hbound⟩ := exists_result_of_fair within fair hkin hagrees
      refine ⟨bound, fun budget hbudget => ?_⟩
      obtain ⟨r, hr⟩ := hbound budget hbudget
      obtain ⟨tr, run⟩ := exists_run_drive within .nil budget 0
      rw [hr, hresult tr _ run r hr]

end World

/-- Removing a root directory with one file. -/
def Walk.oneFileRemoval : Walk (List String) Nat where
  metadata := Table.metadata
    ⟨[], (∅ : Std.TreeMap Inode (List Entry)).insert 1 [⟨"a", 2, 1, .file⟩], ∅, .quiet⟩
  visitor := removalVisitor
  plan := ⟨1, .first, 1, Nat.one_pos, maxThreads_pos⟩

/-- The flag goes up when the visitor has come to the file. -/
def World.oneFileCalledOff (moves : Nat) : World (List String) Nat :=
  (World.initial Walk.oneFileRemoval.plan ⟨1, 0, ""⟩ ⟨[], false⟩ 0).drive Walk.oneFileRemoval
    (fun now => if now = 5 then some (.outside Flagged.raise) else none) moves 0

/-- What the walk shows after that. -/
def Trace.oneFileCalledOff : Trace :=
  (World.oneFileCalledOff 6).trail Walk.oneFileRemoval .newestFirst 20 0

/-- The file is removed all the same, and that is all.  If the flag is up from the start the walk
ends as one that was called off. -/
theorem World.walk_winds_down_oneFileRemoval :
    (oneFileCalledOff 6).shared.store.raised = true ∧
      Trace.oneFileCalledOff.errandsOf 0 = [.act (.visit ⟨1, 0, ""⟩ ⟨"a", 2, 1, .file⟩)] ∧
      Trace.oneFileCalledOff.requests ≤ 2 ∧
      ∃ bound, ∀ budget, bound ≤ budget →
        (((initial Walk.oneFileRemoval.plan ⟨1, 0, ""⟩ ⟨[], true⟩ 0).keeping none).drive
          Walk.oneFileRemoval .newestFirst budget 0).result? = some (.error (.failed .cancelled)) := by
  have hwithin : Schedule.Within (fun now => if now = 5 then some (.outside Flagged.raise) else none)
      (Flagged.Keeps (σ := List String)) := by
    intro now change hmove s _
    obtain ⟨-, hchange⟩ := Option.ite_none_right_eq_some.mp hmove
    cases hchange
    rfl
  have hnobody : Schedule.Within .newestFirst (Flagged.Keeps (σ := List String)) :=
    fun _ _ hmove => nomatch hmove
  have hstart : Run Walk.oneFileRemoval Flagged.Keeps (oneFileCalledOff 0) []
    (oneFileCalledOff 0) := .nil
  have hraised : Run Walk.oneFileRemoval Flagged.Keeps (oneFileCalledOff 6) []
    (oneFileCalledOff 6) := .nil
  have run := run_drive hwithin hstart 6 0
  have later := run_drive hnobody hraised 20 0
  have hrequests : Walk.oneFileRemoval.metadata.Within Flagged.Keeps := Table.metadata_within _
  obtain ⟨hwinds, -⟩ := walk_winds_down .removal hrequests fun _ _ h => h
  have hup : (oneFileCalledOff 6).shared.store.raised = true := by decide +kernel
  have hfair : Schedule.Fair (.newestFirst : Schedule (Flagged (List String))) :=
    fun now => ⟨now, Nat.le_refl now, fun _ h => nomatch h⟩
  obtain ⟨-, hcalledOff⟩ := walk_winds_down .removal hrequests fun _ _ h => h
  exact ⟨hup, by decide +kernel, (hwinds _ _ _ _ run hup later).bounded,
    (hcalledOff rfl none).2 .newestFirst hnobody hfair⟩

end ShardSweep
