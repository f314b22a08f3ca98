import ShardSweep.Proofs.Walk.Ledger
import ShardSweep.Proofs.Walk.PostOrder

/-!
# Why a walk fails

A walk that nobody else calls off fails only if something failed in one of its directories.
Until then no failure is kept, the flag is down, and no thread has anything to report.

* `Action.Mild`: a visitor that never calls the walk off;
* `Thread.Does.harm`: a step that shows no failure harms nothing;
* `World.Run.fails_of_error`: a walk that ends with a failure has shown one.
-/

namespace ShardSweep

variable {σ ν : Type}

/-- The visitor does not call the walk off. -/
def Action.Mild : Action ν → Prop
  | .done _ => True
  | .die _ => True
  | .update _ next => ∀ n, (next n).Mild
  | .cancel _ => False
  | .look next => ∀ raised, (next raised).Mild
  | .fail _ _ => False
  | .failed next => ∀ kept, (next kept).Mild
  | .take next => ∀ kept, (next kept).Mild
  | .request _ next => ∀ answer, (next answer).Mild

theorem Action.mild_ask {r : Request} {next : r.Answer → Action ν} (h : ∀ a, (next a).Mild) :
    (Action.ask r next).Mild := by
  intro answer
  cases answer with
  | ok a => exact h a
  | error e => trivial

/-- The task has nothing to do with a failure, and will not call the walk off. -/
def Task.Unharmed : Task σ ν → Prop
  | .acting _ action => action.Mild
  | .calling _ _ _ next => ∀ answer, (next answer).Mild
  | .reporting _ _ => False
  | .raising _ => False
  | .unwinding _ => False
  | .releasing _ result => result = .ok ()
  | .ended result => result = .ok ()
  | _ => True

/-- No failure is kept, and the flag is down. -/
structure Shared.Unharmed (s : Shared σ ν) : Prop where
  down : s.store.raised = false
  clean : s.failure = none

theorem Site.unharmed_onward (site : Site) : (site.onward : Task σ ν).Unharmed :=
  site.onward_ind (fun _ => trivial) trivial

/-- A step keeps everything unharmed, or shows a failure. -/
theorem Thread.Does.harm {walk : Walk σ ν} {o : Others} {t : Thread σ ν} {s : Shared σ ν}
    {m : Moved σ ν} (h : Does walk o t s m) {f : Forest} {i : ThreadId}
    (placed : t.task.Placed i t.stack) (stacked : f.Stacked t.home t.stack)
    (lineal : t.task.Lineal f t.home t.stack)
    (mild : ∀ site, (walk.visitor.act walk.plan site).Mild)
    (within : t.task.Within Flagged.SameFlag) (unharmed : t.task.Unharmed) (shared : s.Unharmed)
    (alive : ∀ j d p, o.ended? j ≠ some (d, .error (.panicked p))) :
    (m.thread.task.Unharmed ∧ m.shared.Unharmed) ∨ ∃ d ∈ f.dirs t.home, m.event.FailsAt d := by
  have hlisted : ∀ d, f.Hangs t.home d t.stack → d ∈ f.dirs t.home :=
    (stacked.mem_dirs (Forest.self_mem_dirs _)).2
  cases h with
  | failListing | dieListing => exact .inr ⟨_, hlisted _ lineal, .listing⟩
  | failActing | dieActing => exact .inr ⟨_, Site.dir_mem stacked placed lineal, .acting⟩
  | dieCall => exact .inr ⟨_, Site.dir_mem stacked placed lineal, .dying⟩
  | visit => exact .inl ⟨mild (.visit _ _), shared⟩
  | leave => exact .inl ⟨mild (.leave _), shared⟩
  | finishActing => exact .inl ⟨Site.unharmed_onward _, shared⟩
  | stepListing => exact .inl ⟨trivial, (within.1 _).trans shared.down, shared.clean⟩
  | stepCall => exact .inl ⟨unharmed, (within.1 _).trans shared.down, shared.clean⟩
  | update => exact .inl ⟨unharmed _, shared.down, shared.clean⟩
  | look | lookFailed | endCall | failCall => exact .inl ⟨unharmed _, shared⟩
  | take => exact .inl ⟨unharmed _, shared.down, rfl⟩
  | beginCall => exact .inl ⟨unharmed, shared⟩
  | cancel | offer => exact unharmed.elim
  | report | raiseScan | raiseClose | raiseOutside | raiseJoin => exact unharmed.elim
  | unwindCaller | unwindWorker => exact unharmed.elim
  | joinDead dead => exact absurd dead (alive _ _ _)
  | concludeFailed kept => exact absurd (shared.clean.symm.trans kept) (by simp)
  | settleCancelled raised => exact absurd (shared.down.symm.trans raised) (by simp)
  | goHome | settleWell => exact .inl ⟨rfl, shared⟩
  | release | endRelease => exact .inl ⟨unharmed, shared.down, shared.clean⟩
  | claim | grant | stayInline | «return» | endReturn =>
    exact .inl ⟨trivial, shared.down, shared.clean⟩
  | _ => exact .inl ⟨trivial, shared⟩

namespace World

variable {f : Forest} {walk : Walk σ ν} {meddle : Flagged σ → Flagged σ → Prop} {root : Dir}
  {store : Flagged σ} {state : ν} {tr : Trace} {w : World σ ν}

/-- Nothing and nobody is harmed. -/
structure Unharmed (w : World σ ν) : Prop where
  shared : w.shared.Unharmed
  threads : ∀ (i : Nat) (t : Thread σ ν), w.threads[i]? = some t → t.task.Unharmed

private theorem Unharmed.ended (unharmed : w.Unharmed) {j : ThreadId} {d : Dir}
    {result : Outcome Unit} (ended : w.ended? j = some (d, result)) : result = .ok () := by
  unfold ended? at ended
  cases ht : w.threads[j]? with
  | none => simp [ht] at ended
  | some t =>
    simp only [ht, Option.map_eq_some_iff, Prod.mk.injEq] at ended
    obtain ⟨result, hresult, -, rfl⟩ := ended
    have htask := unharmed.threads j t ht
    rw [Task.eq_ended_of_result? hresult] at htask
    exact htask

private theorem Run.unharmed_or (run : Run walk meddle (.initial walk.plan root store state) tr w)
    (requests : walk.metadata.Within Flagged.SameFlag)
    (meddled : ∀ s s', meddle s s' → s.SameFlag s')
    (mild : ∀ site, (walk.visitor.act walk.plan site).Mild) (agrees : tr.Agrees f)
    (down : store.raised = false) :
    w.Unharmed ∨ ∃ d ∈ f.dirs root, ∃ e, tr.Shows e ∧ e.FailsAt d := by
  induction run with
  | nil =>
    refine .inl ⟨⟨down, rfl⟩, ?_⟩
    intro i t ht
    obtain ⟨rfl, rfl⟩ := eq_of_initial ht
    trivial
  | @step tr w w' i room e run hstep ih =>
    rcases ih agrees.init with hunharmed | ⟨d, hd, e', hshown, hfails⟩
    · obtain ⟨t, m, ht, hdoes, rfl, rfl⟩ := step_eq_some hstep
      have hplaced := (Kin.initial walk.plan root store state).of_run run
      have hlineal := Lineal.of_run (.initial walk.plan root store state)
        (.initial f walk.plan root store state) run agrees.init
      have hharm := hdoes.harm (hplaced.placed i t ht) (hlineal.stacked i t ht)
        (hlineal.lineal i t ht) mild (run.within requests i t ht) (hunharmed.threads i t ht)
        hunharmed.shared fun j d p hended => nomatch hunharmed.ended hended
      rcases hharm with ⟨htask, hshared⟩ | ⟨d, hd, hfails⟩
      · refine .inl ⟨by rwa [shared_update], ?_⟩
        exact forall_update ht htask (fun _ _ => trivial) fun j u _ hu => hunharmed.threads j u hu
      · have hroot := Forest.mem_dirs_trans (hlineal.home_mem ht) hd
        exact .inr ⟨d, hroot, m.event, ⟨i, by simp⟩, hfails⟩
    · exact .inr ⟨d, hd, e', hshown.append _, hfails⟩
  | outside run hchange ih =>
    rcases ih agrees with hunharmed | hfailed
    · have hdown := (meddled _ _ hchange).trans hunharmed.shared.down
      exact .inl ⟨⟨hdown, hunharmed.shared.clean⟩, hunharmed.threads⟩
    · exact .inr hfailed

/-- A walk that nobody calls off ends with a failure only if it has shown one. -/
theorem Run.fails_of_error (run : Run walk meddle (.initial walk.plan root store state) tr w)
    (requests : walk.metadata.Within Flagged.SameFlag)
    (meddled : ∀ s s', meddle s s' → s.SameFlag s')
    (mild : ∀ site, (walk.visitor.act walk.plan site).Mild) (agrees : tr.Agrees f)
    (down : store.raised = false) {h : Halt} (result : w.result? = some (.error h)) :
    ∃ d ∈ f.dirs root, ∃ e, tr.Shows e ∧ e.FailsAt d := by
  rcases run.unharmed_or requests meddled mild agrees down with hunharmed | hfailed
  · obtain ⟨⟨d, outcome⟩, hended, rfl⟩ := Option.map_eq_some_iff.mp result
    exact nomatch hunharmed.ended hended
  · exact hfailed

end World

end ShardSweep
