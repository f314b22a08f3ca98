import ShardSweep.Proofs.Walk.Kinship

/-!
# What a walk does to its store

A thread changes the store by the steps of its requests and by raising the flag, and in no
other way.  So a flag that neither the requests nor anybody outside lowers stays up.

* `Thread.Does.store_cases`: the store after a step;
* `World.Run.within`: requests under way are still of the kind that they began as;
* `World.Run.stays_up`: a raised flag stays up;
* `Proc.within_innerPart`: a procedure that does not know of the flag leaves it alone.
-/

namespace ShardSweep

variable {σ τ ν α : Type}

/-- All steps of a procedure are changes of some kind. -/
def Proc.Within (kind : σ → σ → Prop) : Proc σ α → Prop
  | .done _ => True
  | .step change next => (∀ s, kind s (change s)) ∧ ∀ s, (next s).Within kind

/-- A narrower kind of change is of the wider kind. -/
theorem Proc.Within.mono {kind kind' : σ → σ → Prop} {p : Proc σ α} (h : p.Within kind)
    (weaker : ∀ s s', kind s s' → kind' s s') : p.Within kind' := by
  induction p with
  | done a => trivial
  | step change next ih => exact ⟨fun s => weaker _ _ (h.1 s), fun s => ih s (h.2 s)⟩

/-- All steps of all requests are changes of some kind. -/
def Metadata.Within (kind : σ → σ → Prop) (metadata : Metadata σ) : Prop :=
  ∀ r, (metadata.call r).Within kind

/-- The flag is not lowered. -/
def Flagged.Keeps (s s' : Flagged σ) : Prop :=
  s.raised = true → s'.raised = true

/-- The flag is not touched. -/
def Flagged.SameFlag (s s' : Flagged σ) : Prop :=
  s'.raised = s.raised

/-- What acts on the inner store leaves the flag alone. -/
theorem Proc.within_innerPart (p : Proc σ α) :
    (p.on Flagged.innerPart).Within Flagged.SameFlag := by
  induction p with
  | done a => trivial
  | step change next ih => exact ⟨fun s => rfl, fun s => ih s.inner⟩

/-- What is left of the request of a task is of some kind. -/
def Task.Within (kind : Flagged σ → Flagged σ → Prop) : Task σ ν → Prop
  | .listing _ rest => rest.Within kind
  | .calling _ _ rest _ => rest.Within kind
  | _ => True

theorem Site.within_onward (kind : Flagged σ → Flagged σ → Prop) (site : Site) :
    (site.onward : Task σ ν).Within kind :=
  site.onward_ind (fun _ => trivial) trivial

namespace Thread

variable {walk : Walk σ ν} {o : Others} {t : Thread σ ν} {s : Shared σ ν} {m : Moved σ ν}
  {kind : Flagged σ → Flagged σ → Prop}

/-- A thread stays within what requests may do. -/
theorem Does.within (h : Does walk o t s m) (requests : walk.metadata.Within kind)
    (within : t.task.Within kind) : m.thread.task.Within kind := by
  cases h with
  | beginListing => exact requests _
  | beginCall => exact requests _
  | stepListing => exact within.2 _
  | stepCall => exact within.2 _
  | finishActing => exact Site.within_onward kind _
  | _ => trivial

/-- A step leaves the store alone, raises the flag, or is a step of a request. -/
theorem Does.store_cases (h : Does walk o t s m) (within : t.task.Within kind) :
    m.shared.store = s.store ∨ m.shared.store = s.store.raise ∨ kind s.store m.shared.store := by
  cases h with
  | stepListing => exact .inr (.inr (within.1 _))
  | stepCall => exact .inr (.inr (within.1 _))
  | cancel | raiseScan | raiseClose | raiseOutside | raiseJoin => exact .inr (.inl rfl)
  | _ => exact .inl rfl

/-- No step lowers the flag. -/
theorem Does.keeps (h : Does walk o t s m) (within : t.task.Within Flagged.Keeps)
    (down : m.shared.store.raised = false) : s.store.raised = false := by
  by_contra hup
  rw [Bool.not_eq_false] at hup
  rcases h.store_cases within with hsame | hraise | hkind
  · rw [hsame, hup] at down
    cases down
  · rw [hraise] at down
    cases down
  · rw [hkind hup] at down
    cases down

end Thread

namespace World

theorem Run.within {walk : Walk σ ν} {kind meddle : Flagged σ → Flagged σ → Prop}
    {plan : WalkPlan} {root : Dir} {store : Flagged σ} {state : ν} {tr : Trace} {w : World σ ν}
    (run : Run walk meddle (.initial plan root store state) tr w)
    (requests : walk.metadata.Within kind) :
    ∀ (i : Nat) (t : Thread σ ν), w.threads[i]? = some t → t.task.Within kind :=
  run.forall_threads (fun _ => trivial) fun hdoes => hdoes.within requests

/-- Requests that do not lower the flag leave a raised flag up with each step. -/
theorem Run.stays_up {walk : Walk σ ν} {meddle : Flagged σ → Flagged σ → Prop} {plan : WalkPlan}
    {root : Dir} {store : Flagged σ} {state : ν} {tr : Trace} {w w' : World σ ν}
    (run : Run walk meddle (.initial plan root store state) tr w)
    (requests : walk.metadata.Within Flagged.Keeps) {i : ThreadId} {room : Bool} {e : Event}
    (h : w.step walk i room = some (e, w')) (up : w.shared.store.raised = true) :
    w'.shared.store.raised = true := by
  obtain ⟨t, m, ht, hdoes, -, rfl⟩ := step_eq_some h
  rw [shared_update]
  by_contra hdown
  rw [Bool.not_eq_true] at hdown
  exact absurd (up.symm.trans (hdoes.keeps (run.within requests i t ht) hdown)) (by simp)

end World

end ShardSweep
