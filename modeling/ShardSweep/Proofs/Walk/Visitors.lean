import ShardSweep.Proofs.Walk.Ledger
import ShardSweep.Walk.Removal
import ShardSweep.Walk.Tally

/-!
# What visitors make of their requests

What holds of the actions of a visitor, and of what is left of them after each step, holds of
every thread throughout a walk.  The visitors that count and that remove make one request at most
at a place, and if it fails this is at once their own failure.

* `Action.AtMost`: how many requests an action makes;
* `Action.Passes`: a failed request is the failure of the visitor;
* `Visitor.BuiltIn.plain`: both of them for the visitors that there are;
* `World.Run.acts`: what actions inherit, the threads of a walk have.
-/

namespace ShardSweep

variable {σ ν : Type}

/-- An action makes so many requests at most, whatever it finds. -/
def Action.AtMost : Action ν → Nat → Prop
  | .done _, _ => True
  | .die _, _ => True
  | .update _ next, n => ∀ before, (next before).AtMost n
  | .cancel next, n => next.AtMost n
  | .look next, n => ∀ raised, (next raised).AtMost n
  | .fail _ next, n => ∀ first, (next first).AtMost n
  | .failed next, n => ∀ kept, (next kept).AtMost n
  | .take next, n => ∀ kept, (next kept).AtMost n
  | .request _ _, 0 => False
  | .request _ next, n + 1 => ∀ answer, (next answer).AtMost n

/-- A failed request is at once the failure of the visitor. -/
def Action.Passes : Action ν → Prop
  | .done _ => True
  | .die _ => True
  | .update _ next => ∀ before, (next before).Passes
  | .cancel next => next.Passes
  | .look next => ∀ raised, (next raised).Passes
  | .fail _ next => ∀ first, (next first).Passes
  | .failed next => ∀ kept, (next kept).Passes
  | .take next => ∀ kept, (next kept).Passes
  | .request _ next =>
    (∀ answer, (next (.ok answer)).Passes) ∧ ∀ e, next (.error e) = .done (.error e)

/-- The two visitors that there are. -/
inductive Visitor.BuiltIn : {ν : Type} → Visitor ν → Prop
  | tally (once : Bool) : BuiltIn (tallyVisitor once)
  | removal : BuiltIn removalVisitor

namespace Action

/-- What asks at most so often asks at most once more. -/
theorem AtMost.succ {a : Action ν} {n : Nat} (h : a.AtMost n) : a.AtMost (n + 1) := by
  induction a generalizing n with
  | done | die => trivial
  | update _ _ ih | look _ ih | fail _ _ ih | failed _ ih | take _ ih =>
    exact fun found => ih found (h found)
  | cancel _ ih => exact ih h
  | request r next ih =>
    cases n with
    | zero => exact h.elim
    | succ n => exact fun answer => ih answer (h answer)

/-- Without a request there is nothing to pass on. -/
theorem AtMost.passes {a : Action ν} (h : a.AtMost 0) : a.Passes := by
  induction a with
  | done | die => trivial
  | update _ _ ih | look _ ih | fail _ _ ih | failed _ ih | take _ ih =>
    exact fun found => ih found (h found)
  | cancel _ ih => exact ih h
  | request => exact h.elim

/-- One request, and none after it. -/
theorem plain_ask {r : Request} {next : r.Answer → Action ν} (h : ∀ answer, (next answer).AtMost 0) :
    (ask r next).AtMost 1 ∧ (ask r next).Passes := by
  refine ⟨fun answer => ?_, fun answer => (h answer).passes, fun _ => rfl⟩
  cases answer with
  | ok a => exact h a
  | error e => trivial

theorem atMost_countFile (once : Bool) (attr : Attr) : (countFile once attr).AtMost 0 := by
  unfold countFile
  split
  · intro before
    dsimp only
    split
    · exact fun _ => trivial
    · trivial
  · exact fun _ => trivial

end Action

/-- Each of the visitors makes one request at a place at most, and passes its failure on. -/
theorem Visitor.BuiltIn.plain {visitor : Visitor ν} (h : visitor.BuiltIn) (plan : WalkPlan)
    (site : Site) : (visitor.act plan site).AtMost 1 ∧ (visitor.act plan site).Passes := by
  cases h with
  | tally once =>
    rcases site with ⟨d, e⟩ | d
    · simp only [act, tallyVisitor]
      cases e.kind with
      | dir => exact ⟨fun _ => trivial, fun _ => trivial⟩
      | file =>
        have hask := Action.plain_ask (r := .getAttr plan.fs e.inode d.inode plan.epoch)
          (Action.atMost_countFile once)
        exact ⟨fun _ => hask.1, fun _ => hask.2⟩
    · exact ⟨trivial, trivial⟩
  | removal =>
    rcases site with ⟨d, e⟩ | d
    · simp only [act, removalVisitor]
      cases e.kind with
      | dir => exact ⟨trivial, trivial⟩
      | file => exact Action.plain_ask fun _ _ => trivial
    · simp only [act, removalVisitor]
      split
      · exact ⟨trivial, trivial⟩
      · exact Action.plain_ask fun _ _ => trivial

section

variable {P : Action ν → Prop} {Q : (r : Request) → (Except WalkError r.Answer → Action ν) → Prop}

/-- `P` holds of what is left of an action after a step of it, and `Q` of what it will make of the
answer to a request. -/
structure Action.Inherits (P : Action ν → Prop)
    (Q : (r : Request) → (Except WalkError r.Answer → Action ν) → Prop) : Prop where
  update : ∀ change next, P (.update change next) → ∀ before, P (next before)
  cancel : ∀ next, P (.cancel next) → P next
  look : ∀ next, P (.look next) → ∀ raised, P (next raised)
  fail : ∀ e next, P (.fail e next) → ∀ first, P (.cancel (next first))
  failed : ∀ next, P (.failed next) → ∀ kept, P (next kept)
  take : ∀ next, P (.take next) → ∀ kept, P (next kept)
  request : ∀ r next, P (.request r next) → Q r next
  answer : ∀ r next, Q r next → ∀ answer, P (next answer)

/-- What the visitor of a thread is still to do is of some kind. -/
def Task.Acts (P : Action ν → Prop)
    (Q : (r : Request) → (Except WalkError r.Answer → Action ν) → Prop) : Task σ ν → Prop
  | .acting _ action => P action
  | .calling _ r _ next => Q r next
  | _ => True

theorem Site.acts_onward (site : Site) : (site.onward : Task σ ν).Acts P Q :=
  site.onward_ind (fun _ => trivial) trivial

variable {walk : Walk σ ν} (inherits : Action.Inherits P Q)
  (visitor : ∀ site, P (walk.visitor.act walk.plan site))

include inherits visitor

/-- A visitor stays within what it may do. -/
theorem Thread.Does.acts {o : Others} {t : Thread σ ν} {s : Shared σ ν} {m : Moved σ ν}
    (h : Does walk o t s m) (acts : t.task.Acts P Q) : m.thread.task.Acts P Q := by
  cases h with
  | visit => exact visitor (.visit _ _)
  | leave => exact visitor (.leave _)
  | finishActing => exact Site.acts_onward _
  | update => exact inherits.update _ _ acts _
  | cancel => exact inherits.cancel _ acts
  | look => exact inherits.look _ acts _
  | offer => exact inherits.fail _ _ acts _
  | lookFailed => exact inherits.failed _ acts _
  | take => exact inherits.take _ acts _
  | beginCall => exact inherits.request _ _ acts
  | stepCall => exact acts
  | endCall | failCall => exact inherits.answer _ _ acts _
  | _ => trivial

/-- What the actions of a visitor inherit holds of the threads throughout a run. -/
theorem World.Run.acts {meddle : Flagged σ → Flagged σ → Prop} {plan : WalkPlan} {root : Dir}
    {store : Flagged σ} {state : ν} {tr : Trace} {w : World σ ν}
    (run : Run walk meddle (.initial plan root store state) tr w) :
    ∀ (i : Nat) (t : Thread σ ν), w.threads[i]? = some t → t.task.Acts P Q :=
  run.forall_threads (fun _ => trivial) fun hdoes => hdoes.acts inherits visitor

end

theorem Action.inherits_atMost : Inherits (fun a : Action ν => a.AtMost 1)
    fun _ next => ∀ answer, (next answer).AtMost 0 where
  update _ _ h := h
  cancel _ h := h
  look _ h := h
  fail _ _ h := h
  failed _ h := h
  take _ h := h
  request _ _ h := h
  answer _ _ h answer := (h answer).succ

theorem Action.inherits_passes : Inherits (fun a : Action ν => a.Passes)
    fun _ next => (∀ answer, (next (.ok answer)).Passes) ∧
      ∀ e, next (.error e) = .done (.error e) where
  update _ _ h := h
  cancel _ h := h
  look _ h := h
  fail _ _ h := h
  failed _ h := h
  take _ h := h
  request _ _ h := h
  answer _ next h answer := by
    cases answer with
    | ok a => exact h.1 a
    | error e =>
      rw [h.2]
      trivial

/-- The visitor makes one more request at most, and none after the one that is under way. -/
def Task.Single : Task σ ν → Prop :=
  Acts (fun action => action.AtMost 1) fun _ next => ∀ answer, (next answer).AtMost 0

/-- The visitor passes on the failures that are still to come. -/
def Task.Passes : Task σ ν → Prop :=
  Acts (fun action => action.Passes) fun _ next =>
    (∀ answer, (next (.ok answer)).Passes) ∧ ∀ e, next (.error e) = .done (.error e)

namespace World

variable {walk : Walk σ ν} {meddle : Flagged σ → Flagged σ → Prop} {plan : WalkPlan} {root : Dir}
  {store : Flagged σ} {state : ν} {tr : Trace} {w : World σ ν}

/-- A visitor that asks at most once at each site is never about to ask twice. -/
theorem Run.single (run : Run walk meddle (.initial plan root store state) tr w)
    (visitor : ∀ site, (walk.visitor.act walk.plan site).AtMost 1) :
    ∀ (i : Nat) (t : Thread σ ν), w.threads[i]? = some t → t.task.Single :=
  run.acts Action.inherits_atMost visitor

/-- A visitor that passes failures on is never about to keep one. -/
theorem Run.passes (run : Run walk meddle (.initial plan root store state) tr w)
    (visitor : ∀ site, (walk.visitor.act walk.plan site).Passes) :
    ∀ (i : Nat) (t : Thread σ ν), w.threads[i]? = some t → t.task.Passes :=
  run.acts Action.inherits_passes visitor

end World

end ShardSweep
