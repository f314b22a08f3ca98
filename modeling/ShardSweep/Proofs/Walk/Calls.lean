import ShardSweep.Proofs.Contract
import ShardSweep.Proofs.Walk.FirstFailure
import ShardSweep.Proofs.Walk.Obituary

/-!
# Calls in the course of a walk

A thread calls when it begins a request and is answered when this request ends; it shows nothing
else in between, and nobody else answers it.

If requests obey contracts, what a contract says of the step that brings the answer is true of some
move between the call and its answer.

* `Thread.Does.of_asks`, `Thread.Does.store_of_asks`: the steps of a request under way;
* `World.Calling`: a thread has called and was not answered yet;
* `World.granted_of_reply`: an answer was brought by a move in between;
* `World.Run.ok_of_replies`: a walk that ends well got all that it asked for;
* `World.reply_of_call`: a call is answered before its thread ends.
-/

namespace ShardSweep

variable {σ ν : Type}

/-- The request that begins with an event. -/
def Event.request? (plan : WalkPlan) : Event → Option Request
  | .listing d => some (.listEntries plan.fs d.inode plan.epoch)
  | .began _ r => some r
  | _ => none

/-- The event that a request ends with, and what it comes to. -/
inductive Event.Replies (plan : WalkPlan) : Event → (r : Request) → Outcome r.Answer → Prop
  | listed {d outcome} :
      Replies plan (.listed d outcome) (.listEntries plan.fs d.inode plan.epoch) outcome
  | answered {site r outcome} : Replies plan (.answered site r outcome) r outcome

/-- The request that a thread has under way, and what is left of it. -/
inductive Task.Asks (plan : WalkPlan) :
    Task σ ν → (r : Request) → Proc (Flagged σ) (Outcome r.Answer) → Prop
  | listing {d rest} : Asks plan (.listing d rest) (.listEntries plan.fs d.inode plan.epoch) rest
  | calling {site r rest next} : Asks plan (.calling site r rest next) r rest

theorem Site.not_asks_onward (plan : WalkPlan) (site : Site) (r : Request)
    (rest : Proc (Flagged σ) (Outcome r.Answer)) :
    ¬ (site.onward : Task σ ν).Asks plan r rest :=
  site.onward_ind (P := fun task => ¬ task.Asks plan r rest) nofun nofun

theorem Task.Asks.result? {plan : WalkPlan} {task : Task σ ν} {r : Request}
    {rest : Proc (Flagged σ) (Outcome r.Answer)} (h : task.Asks plan r rest) :
    task.result? = none := by
  cases h <;> rfl

namespace Thread

variable {walk : Walk σ ν} {o : Others} {t : Thread σ ν} {s : Shared σ ν} {m : Moved σ ν}
  {r : Request}

/-- A request that begins is under way. -/
theorem Does.asks_of_request (h : Does walk o t s m)
    (request : m.event.request? walk.plan = some r) :
    m.thread.task.Asks walk.plan r (walk.metadata.call r) := by
  cases h with
  | beginListing =>
    cases request
    exact .listing
  | beginCall =>
    cases request
    exact .calling
  | _ => cases request

/-- A request under way has just begun or has come one step further. -/
theorem Does.asks (h : Does walk o t s m) {rest : Proc (Flagged σ) (Outcome r.Answer)}
    (asks : m.thread.task.Asks walk.plan r rest) :
    (m.event.request? walk.plan = some r ∧ rest = walk.metadata.call r) ∨
      ∃ change next, t.task.Asks walk.plan r (.step change next) ∧ rest = next s.store ∧
        m.event = .quiet ∧ m.shared.store = change s.store := by
  cases h with
  | beginListing =>
    cases asks
    exact .inl ⟨rfl, rfl⟩
  | beginCall =>
    cases asks
    exact .inl ⟨rfl, rfl⟩
  | stepListing =>
    cases asks
    exact .inr ⟨_, _, .listing, rfl, rfl, rfl⟩
  | stepCall =>
    cases asks
    exact .inr ⟨_, _, .calling, rfl, rfl, rfl⟩
  | finishActing => exact absurd asks (Site.not_asks_onward _ _ _ _)
  | _ => cases asks

/-- A request under way comes one step further or ends. -/
theorem Does.of_asks (h : Does walk o t s m) {rest : Proc (Flagged σ) (Outcome r.Answer)}
    (asks : t.task.Asks walk.plan r rest) :
    (∃ rest', m.thread.task.Asks walk.plan r rest' ∧ m.event = .quiet) ∨
      ∃ outcome, m.event.Replies walk.plan r outcome := by
  cases h with
  | stepListing =>
    cases asks
    exact .inl ⟨_, .listing, rfl⟩
  | stepCall =>
    cases asks
    exact .inl ⟨_, .calling, rfl⟩
  | endListing | failListing | dieListing =>
    cases asks
    exact .inr ⟨_, .listed⟩
  | endCall | failCall | dieCall =>
    cases asks
    exact .inr ⟨_, .answered⟩
  | _ => cases asks

/-- What a request has come to when it ends. -/
theorem Does.of_replies (h : Does walk o t s m) {outcome : Outcome r.Answer}
    (replies : m.event.Replies walk.plan r outcome) :
    t.task.Asks walk.plan r (.done outcome) := by
  cases h with
  | endListing | failListing | dieListing =>
    cases replies
    exact .listing
  | endCall | failCall | dieCall =>
    cases replies
    exact .calling
  | _ => cases replies

/-- A request that brings its thread down leaves it dead. -/
theorem Does.dead_of_replies (h : Does walk o t s m) {p : Panic}
    (replies : m.event.Replies walk.plan r (.error (.panicked p))) : m.thread.task.Dead := by
  cases h with
  | dieListing | dieCall => trivial
  | _ => cases replies

/-- A visitor that brings its thread down leaves it dead. -/
theorem Does.dead_of_acted (h : Does walk o t s m) {site : Site} {p : Panic}
    (acted : m.event = .acted site (.error (.panicked p))) : m.thread.task.Dead := by
  cases h with
  | dieActing => trivial
  | _ => cases acted

/-- Apart from the flag only the steps of requests change the store. -/
theorem Does.store_of_asks (h : Does walk o t s m) :
    m.shared.store.inner = s.store.inner ∨
      ∃ r change next, t.task.Asks walk.plan r (.step change next) ∧
        m.shared.store = change s.store := by
  cases h with
  | stepListing => exact .inr ⟨_, _, _, .listing, rfl⟩
  | stepCall => exact .inr ⟨_, _, _, .calling, rfl⟩
  | _ => exact .inl rfl

end Thread

/-- All requests of an action are of some kind. -/
def Action.Makes (Q : Request → Prop) : Action ν → Prop
  | .done _ => True
  | .die _ => True
  | .update _ next => ∀ before, (next before).Makes Q
  | .cancel next => next.Makes Q
  | .look next => ∀ raised, (next raised).Makes Q
  | .fail _ next => ∀ first, (next first).Makes Q
  | .failed next => ∀ kept, (next kept).Makes Q
  | .take next => ∀ kept, (next kept).Makes Q
  | .request r next => Q r ∧ ∀ answer, (next answer).Makes Q

theorem Action.inherits_makes (Q : Request → Prop) :
    Inherits (fun a : Action ν => a.Makes Q) fun r next => Q r ∧ ∀ answer, (next answer).Makes Q where
  update _ _ h := h
  cancel _ h := h
  look _ h := h
  fail _ _ h := h
  failed _ h := h
  take _ h := h
  request _ _ h := h
  answer _ _ h := h.2

/-- All requests of a walk are of some kind. -/
structure Walk.Makes (walk : Walk σ ν) (Q : Request → Prop) : Prop where
  listings : ∀ i, Q (.listEntries walk.plan.fs i walk.plan.epoch)
  visitor : ∀ site, (walk.visitor.act walk.plan site).Makes Q

/-- A request that begins is one that the visitor makes, or a listing. -/
theorem Thread.Does.makes {walk : Walk σ ν} {o : Others} {t : Thread σ ν} {s : Shared σ ν}
    {m : Moved σ ν} (h : Does walk o t s m) {Q : Request → Prop} (makes : walk.Makes Q)
    (acts : t.task.Acts (fun a => a.Makes Q) fun r next => Q r ∧ ∀ answer, (next answer).Makes Q)
    {r : Request} (request : m.event.request? walk.plan = some r) : Q r := by
  cases h with
  | beginListing =>
    cases request
    exact makes.listings _
  | beginCall =>
    cases request
    exact acts.1
  | _ => cases request

namespace World

variable {walk : Walk σ ν} {meddle : Flagged σ → Flagged σ → Prop} {root : Dir}
  {store : Flagged σ} {state : ν} {schedule : Schedule (Flagged σ)} {start : World σ ν}

/-- Thread `i` has begun a request with move `k`, and until move `n` it was not answered. -/
structure Calling (start : World σ ν) (walk : Walk σ ν) (schedule : Schedule (Flagged σ))
    (i : ThreadId) (r : Request) (k n : Nat) : Prop where
  lt : k < n
  begun : ∃ e, (i, e) ∈ start.shownAt walk schedule k ∧ e.request? walk.plan = some r
  quiet : ∀ j, k < j → j < n → ∀ e, (i, e) ∈ start.shownAt walk schedule j → e = .quiet

namespace Calling

variable {i : ThreadId} {r : Request} {k k' n : Nat}

theorem succ (h : Calling start walk schedule i r k n)
    (quiet : ∀ e, (i, e) ∈ start.shownAt walk schedule n → e = .quiet) :
    Calling start walk schedule i r k (n + 1) where
  lt := Nat.lt_succ_of_lt h.lt
  begun := h.begun
  quiet j hk hn e he := by
    by_cases hj : j = n
    · exact quiet e (hj ▸ he)
    · exact h.quiet j hk (by omega) e he

/-- A thread waits for one answer at a time. -/
theorem unique {r' : Request} (h : Calling start walk schedule i r k n)
    (h' : Calling start walk schedule i r' k' n) : k = k' := by
  rcases Nat.lt_trichotomy k k' with hlt | heq | hlt
  · obtain ⟨e, he, hrequest⟩ := h'.begun
    rw [h.quiet k' hlt h'.lt e he] at hrequest
    cases hrequest
  · exact heq
  · obtain ⟨e, he, hrequest⟩ := h.begun
    rw [h'.quiet k hlt h.lt e he] at hrequest
    cases hrequest

end Calling

section

variable {C : (r : Request) → Contract (Flagged σ) (Option r.Answer)} {Q : Request → Prop}

/-- Requests of some kind obey contracts that assume nothing, are granted once at most, and do not
succeed without. -/
structure Grants (metadata : Metadata (Flagged σ)) (Q : Request → Prop)
    (C : (r : Request) → Contract (Flagged σ) (Option r.Answer)) : Prop where
  assume : ∀ r g s, (C r).assume g s
  once : ∀ r g s s' g', (C r).step g s s' g' → g' = g ∨ g = none
  obeys : ∀ r, Q r →
    (metadata.call r).Obeys (C r) none fun outcome g => ∀ a, outcome = .ok a → g = some a

/-- The request that a thread has under way obeys its contract, and if it was granted, it was by a
move since the call. -/
private def Granted (Q : Request → Prop)
    (C : (r : Request) → Contract (Flagged σ) (Option r.Answer))
    (start : World σ ν) (walk : Walk σ ν) (schedule : Schedule (Flagged σ)) (n i : Nat)
    (t : Thread σ ν) : Prop :=
  ∀ r rest, t.task.Asks walk.plan r rest → Q r ∧ ∃ k, Calling start walk schedule i r k n ∧
    ∃ g, rest.Obeys (C r) g (fun outcome g => ∀ a, outcome = .ok a → g = some a) ∧
      ∀ a, g = some a → ∃ m, k < m ∧ m < n ∧
        (C r).step none (start.after walk schedule m).shared.store
          (start.after walk schedule (m + 1)).shared.store (some a)

variable (grants : Grants walk.metadata Q C) (makes : walk.Makes Q)
  (within : schedule.Within meddle) (fresh : start = .initial walk.plan root store state)

include grants makes within fresh

private theorem granted_after (n : Nat) :
    ∀ (i : Nat) (t : Thread σ ν), (start.after walk schedule n).threads[i]? = some t →
      Granted Q C start walk schedule n i t := by
  induction n with
  | zero =>
    intro i t ht r rest asks
    subst fresh
    obtain ⟨-, rfl⟩ := eq_of_initial ht
    cases asks
  | succ n ih =>
    -- What holds of a thread that shows nothing but quiet steps.
    have hkept : ∀ (i : Nat) (t : Thread σ ν), (start.after walk schedule n).threads[i]? = some t →
        (∀ e, (i, e) ∈ start.shownAt walk schedule n → e = .quiet) →
        Granted Q C start walk schedule (n + 1) i t := by
      intro i t ht hquiet r rest asks
      obtain ⟨hmade, k, hcalling, g, hobeys, hgranted⟩ := ih i t ht r rest asks
      refine ⟨hmade, k, hcalling.succ hquiet, g, hobeys, fun a ha => ?_⟩
      obtain ⟨m, hk, hm, hstep⟩ := hgranted a ha
      exact ⟨m, hk, Nat.lt_succ_of_lt hm, hstep⟩
    rcases still_or_step walk within start n with
      ⟨hthreads, hshown⟩ | ⟨k, room, e, hstep, hshown⟩
    · intro i t ht
      rw [hthreads] at ht
      exact hkept i t ht fun e he => by simp [hshown] at he
    · have hrun := run_after walk within start n
      rw [show Run walk meddle start = Run walk meddle (.initial walk.plan root store state) from
        congrArg _ fresh] at hrun
      obtain ⟨tr, hrun, -⟩ := hrun
      obtain ⟨t, m, ht, hdoes, rfl, hupdate⟩ := step_eq_some hstep
      rw [← hupdate]
      refine forall_update (P := Granted Q C start walk schedule (n + 1)) ht ?mover
        (fun d _ r rest asks => nomatch asks) ?others
      case others =>
        intro j u hj hu
        exact hkept j u hu fun e he => by simp [hshown, hj] at he
      case mover =>
        intro r rest asks
        rcases hdoes.asks asks with ⟨hrequest, rfl⟩ | ⟨change, next, hbefore, rfl, hquiet, hstore⟩
        · have hmade := hdoes.makes makes
            (hrun.acts (Action.inherits_makes Q) makes.visitor k t ht) hrequest
          refine ⟨hmade, n, ⟨Nat.lt_succ_self n, ⟨m.event, by simp [hshown], hrequest⟩, ?_⟩, none,
            grants.obeys r hmade, nofun⟩
          intro j hj hj'
          omega
        · obtain ⟨hmade, k', hcalling, g, hobeys, hgranted⟩ := ih k t ht r _ hbefore
          obtain ⟨g', hg', hnext⟩ := hobeys _ (grants.assume r g _)
          refine ⟨hmade, k', hcalling.succ fun e he => ?_, g', hnext, fun a ha => ?_⟩
          · simp only [hshown, List.mem_singleton, Prod.mk.injEq, true_and] at he
            rw [he, hquiet]
          · rcases grants.once r g _ _ g' hg' with hsame | hnone
            · obtain ⟨l, hk', hl, hold⟩ := hgranted a (hsame ▸ ha)
              exact ⟨l, hk', Nat.lt_succ_of_lt hl, hold⟩
            · refine ⟨n, hcalling.lt, Nat.lt_succ_self n, ?_⟩
              rw [← hupdate, shared_update, hstore]
              rw [hnone, ha] at hg'
              exact hg'

/-- An answer was brought by a move since the call. -/
theorem granted_of_reply {n : Nat} {i : ThreadId} {e : Event} {r : Request}
    {outcome : Outcome r.Answer} (shown : (i, e) ∈ start.shownAt walk schedule n)
    (replies : e.Replies walk.plan r outcome) :
    Q r ∧ ∃ k, Calling start walk schedule i r k n ∧ ∀ a, outcome = .ok a → ∃ m, k < m ∧ m < n ∧
      (C r).step none (start.after walk schedule m).shared.store
        (start.after walk schedule (m + 1)).shared.store (some a) := by
  rcases still_or_step walk within start n with ⟨-, hshown⟩ | ⟨k, room, e', hstep, hshown⟩
  · simp [hshown] at shown
  · obtain ⟨rfl, rfl⟩ : i = k ∧ e = e' := by simpa [hshown] using shown
    obtain ⟨t, m, ht, hdoes, rfl, -⟩ := step_eq_some hstep
    obtain ⟨hmade, k, hcalling, g, hobeys, hgranted⟩ :=
      granted_after grants makes within fresh n i t ht r _ (hdoes.of_replies replies)
    exact ⟨hmade, k, hcalling, fun a ha => hgranted a (hobeys a ha)⟩

/-- What a move does to the store apart from the flag is done from outside, or by a step that the
contract of a request allows. -/
theorem store_after (n : Nat) :
    meddle (start.after walk schedule n).shared.store
        (start.after walk schedule (n + 1)).shared.store ∨
      (start.after walk schedule (n + 1)).shared.store.inner =
        (start.after walk schedule n).shared.store.inner ∨
      ∃ r g g', Q r ∧ (C r).step g (start.after walk schedule n).shared.store
        (start.after walk schedule (n + 1)).shared.store g' := by
  have hturn := turn_after walk within start n
  have hgranted := granted_after grants makes within fresh n
  generalize start.shownAt walk schedule n = shown at hturn
  generalize start.after walk schedule (n + 1) = w' at hturn ⊢
  generalize start.after walk schedule n = w at hturn hgranted ⊢
  cases hturn with
  | rest => exact .inr (.inl rfl)
  | outside hchange => exact .inl hchange
  | step hstep =>
    obtain ⟨t, m, ht, hdoes, rfl, rfl⟩ := step_eq_some hstep
    rw [shared_update]
    rcases hdoes.store_of_asks with hsame | ⟨r, change, next, hasks, hstore⟩
    · exact .inr (.inl hsame)
    · obtain ⟨hmade, -, -, g, hobeys, -⟩ := hgranted _ t ht r _ hasks
      obtain ⟨g', hg', -⟩ := hobeys _ (grants.assume r g _)
      exact .inr (.inr ⟨r, g, g', hmade, hstore ▸ hg'⟩)

end

namespace Run

variable {tr : Trace} {w : World σ ν} {i : ThreadId} {e : Event} {r : Request}

private theorem dead_of_event (run : Run walk meddle (.initial walk.plan root store state) tr w)
    (mem : (i, e) ∈ tr) (down : ∀ {o : Others} {t : Thread σ ν} {s : Shared σ ν} {m : Moved σ ν},
      t.Does walk o s m → m.event = e → m.thread.task.Dead) :
    ∃ t, w.threads[i]? = some t ∧ t.task.Dead := by
  induction run with
  | nil => cases mem
  | outside _ _ ih => exact ih mem
  | @step tr w w' k room e' run hstep ih =>
    obtain ⟨t, m, ht, hdoes, rfl, rfl⟩ := step_eq_some hstep
    have hmoved : (w.update k m).threads[k]? = some m.thread := getElem?_update_self ht m
    rcases List.mem_append.mp mem with hold | hnew
    · obtain ⟨u, hu, hdead⟩ := ih hold
      by_cases hi : i = k
      · subst hi
        obtain rfl := Option.some.inj (hu.symm.trans ht)
        exact ⟨m.thread, hmoved, hdoes.stays_dead hdead⟩
      · exact ⟨u, getElem?_update_of_ne ht m hu hi, hdead⟩
    · obtain ⟨rfl, rfl⟩ := Prod.mk.inj (List.mem_singleton.mp hnew)
      exact ⟨m.thread, hmoved, down hdoes rfl⟩

/-- A failure that was left is pending until the flag goes up. -/
private theorem pending_of_leaves (run : Run walk meddle (.initial walk.plan root store state) tr w)
    (requests : walk.metadata.Within Flagged.Keeps) (meddled : ∀ s s', meddle s s' → s.Keeps s')
    {e : WalkError} (leaves : Leaves tr w i e) : w.shared.store.raised = true ∨ w.Pending := by
  rcases leaves with ⟨first, hmem⟩ | ⟨t, resume, ht, htask⟩
  · induction run with
    | nil => cases hmem
    | outside _ hchange ih => exact (ih hmem).imp_left (meddled _ _ hchange)
    | @step tr w w' k room e' run hstep ih =>
      rcases List.mem_append.mp hmem with hold | hnew
      · exact run.stays_pending requests hstep (ih hold)
      · obtain ⟨t, m, ht, hdoes, rfl, rfl⟩ := step_eq_some hstep
        obtain ⟨rfl, hevent⟩ := Prod.mk.inj (List.mem_singleton.mp hnew)
        have hhurt : m.thread.task.Hurt i := hdoes.hurt_of_reported hevent.symm
        exact .inr ⟨i, m.thread, getElem?_update_self ht m, .inl hhurt⟩
  · exact .inr ⟨i, t, ht, .inl (htask ▸ trivial)⟩

/-- In a walk that ends well no failure is left. -/
private theorem not_leaves_of_ok (run : Run walk meddle (.initial walk.plan root store state) tr w)
    (requests : walk.metadata.Within Flagged.Keeps) (meddled : ∀ s s', meddle s s' → s.Keeps s')
    (done : w.result? = some (.ok ())) (e : WalkError) : ¬ Leaves tr w i e := by
  intro hleaves
  obtain ⟨s, hdown, hrun⟩ := run.exists_down_of_ok done
  rcases hrun.pending_of_leaves requests meddled hleaves with hup | hpending
  · exact absurd (hup.symm.trans hdown) (by simp)
  · exact ((Kin.initial walk.plan root store state).of_run hrun).not_pending done hpending

/-- In a walk that ends well every request was granted, if the visitor passes failures on. -/
theorem ok_of_replies (run : Run walk meddle (.initial walk.plan root store state) tr w)
    (requests : walk.metadata.Within Flagged.Keeps) (meddled : ∀ s s', meddle s s' → s.Keeps s')
    (visitor : ∀ site, (walk.visitor.act walk.plan site).Passes)
    (done : w.result? = some (.ok ())) (mem : (i, e) ∈ tr) {outcome : Outcome r.Answer}
    (replies : e.Replies walk.plan r outcome) : ∃ a, outcome = .ok a := by
  rcases outcome with (e' | p) | a
  · cases replies with
    | listed =>
      exact (run.not_leaves_of_ok requests meddled done e' (run.leaves_of_failure mem rfl)).elim
    | answered =>
      rcases run.leaves_of_answered visitor mem with hleaves | ⟨t, site, ht, htask⟩
      · exact (run.not_leaves_of_ok requests meddled done e' hleaves).elim
      · have hkin := (Kin.initial walk.plan root store state).of_run run
        obtain ⟨result, hresult⟩ := hkin.ended_of_result (by simp [done]) i t ht
        rw [htask] at hresult
        cases hresult
  · obtain ⟨t, ht, hdead⟩ := run.dead_of_event mem fun hdoes heq =>
      hdoes.dead_of_replies (heq ▸ replies)
    exact absurd done (run.not_well_of_dead requests meddled ht hdead)
  · exact ⟨a, rfl⟩

/-- In a walk that ends well the visitor has ended well everywhere. -/
theorem ok_of_acted (run : Run walk meddle (.initial walk.plan root store state) tr w)
    (requests : walk.metadata.Within Flagged.Keeps) (meddled : ∀ s s', meddle s s' → s.Keeps s')
    (done : w.result? = some (.ok ())) {site : Site} {outcome : Outcome Unit}
    (mem : (i, .acted site outcome) ∈ tr) : outcome = .ok () := by
  rcases outcome with (e' | p) | ⟨⟨⟩⟩
  · exact (run.not_leaves_of_ok requests meddled done e' (run.leaves_of_failure mem rfl)).elim
  · obtain ⟨t, ht, hdead⟩ := run.dead_of_event mem fun hdoes heq => hdoes.dead_of_acted heq
    exact absurd done (run.not_well_of_dead requests meddled ht hdead)
  · rfl

end Run

/-- A call is answered before its thread ends. -/
theorem reply_of_call (within : schedule.Within meddle) {k n : Nat} {i : ThreadId} {e : Event}
    {r : Request} (shown : (i, e) ∈ start.shownAt walk schedule k)
    (request : e.request? walk.plan = some r) (later : k < n) :
    (∃ (t : Thread σ ν) (rest : Proc (Flagged σ) (Outcome r.Answer)),
      (start.after walk schedule n).threads[i]? = some t ∧ t.task.Asks walk.plan r rest ∧
      Calling start walk schedule i r k n) ∨
    ∃ k' < n, ∃ e' outcome, Calling start walk schedule i r k k' ∧
      (i, e') ∈ start.shownAt walk schedule k' ∧ e'.Replies walk.plan r outcome := by
  induction n, later using Nat.le_induction with
  | base =>
    rcases still_or_step walk within start k with ⟨-, hshown⟩ | ⟨j, room, e', hstep, hshown⟩
    · simp [hshown] at shown
    · obtain ⟨rfl, rfl⟩ : i = j ∧ e = e' := by simpa [hshown] using shown
      obtain ⟨t, m, ht, hdoes, rfl, hupdate⟩ := step_eq_some hstep
      refine .inl ⟨m.thread, _, ?_, hdoes.asks_of_request request, Nat.lt_succ_self k,
        ⟨m.event, shown, request⟩, fun j hj hj' => by omega⟩
      rw [← hupdate]
      exact getElem?_update_self ht m
  | succ n later ih =>
    rcases ih with ⟨t, rest, ht, hasks, hcalling⟩ | ⟨k', hk', hanswered⟩
    · rcases still_or_step walk within start n with
        ⟨hthreads, hshown⟩ | ⟨j, room, e', hstep, hshown⟩
      · exact .inl ⟨t, rest, by rw [hthreads, ht], hasks,
          hcalling.succ fun e he => by simp [hshown] at he⟩
      · obtain ⟨u, m, hu, hdoes, rfl, hupdate⟩ := step_eq_some hstep
        by_cases hj : i = j
        · subst hj
          obtain rfl := Option.some.inj (hu.symm.trans ht)
          rcases hdoes.of_asks hasks with ⟨rest', hasks', hquiet⟩ | ⟨outcome, hreplies⟩
          · refine .inl ⟨m.thread, rest', ?_, hasks', hcalling.succ fun e he => ?_⟩
            · rw [← hupdate]
              exact getElem?_update_self ht m
            · simp only [hshown, List.mem_singleton, Prod.mk.injEq, true_and] at he
              rw [he, hquiet]
          · exact .inr ⟨n, Nat.lt_succ_self n, m.event, outcome, hcalling, by simp [hshown],
              hreplies⟩
        · refine .inl ⟨t, rest, ?_, hasks, hcalling.succ fun e he => by simp [hshown, hj] at he⟩
          rw [← hupdate]
          exact getElem?_update_of_ne hu m ht hj
    · exact .inr ⟨k', Nat.lt_succ_of_lt hk', hanswered⟩

end World

end ShardSweep
