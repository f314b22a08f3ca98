import ShardSweep.Proofs.Walk.Staffed
import ShardSweep.Proofs.Walk.Turnover

/-!
# The slots of a walk

A slot that was granted is with the thread that has claimed it until a worker is started, and then
with the worker until that has nothing left to do.  So the threads of a walk use the slots as any
threads may, and what holds of slots whatever is done with them holds of theirs.

* `Thread.Does.turns`: what a step of a thread does with the slots;
* `World.Run.exists_follows`: what is done with the slots of a walk is a `Turnover`;
* `World.Run.exists_atRest`: it has come to rest when the walk has ended, and no slot is out.
-/

namespace ShardSweep

namespace Turnover

/-- One of those who use the slots goes from `ds` under way and `n` slots out to `ds'` and `n'`,
whatever the others are at. -/
def Turns (s : Slots) (ds : Multiset Deal) (n : Nat) (s' : Slots) (ds' : Multiset Deal) (n' : Nat) :
    Prop :=
  ∀ us rest asked returned, ∃ asked' returned',
    Leads ⟨s, ds + us, n + rest, asked, returned⟩ ⟨s', ds' + us, n' + rest, asked', returned'⟩

namespace Turns

variable {s s' : Slots} {ds : Multiset Deal} {n : Nat}

/-- Nothing is done about slots. -/
theorem refl : Turns s ds n s ds n :=
  fun _ _ _ _ => ⟨_, _, .refl⟩

/-- A claim is begun. -/
theorem ask : Turns s 0 n s {.claim .start} n := by
  intro us rest asked returned
  refine ⟨asked + 1, returned, .single ?_⟩
  rw [zero_add]
  exact .ask

/-- A slot that is out is about to be given back. -/
theorem giveBack : Turns s 0 (n + 1) s {.release .start} n := by
  intro us rest asked returned
  refine ⟨asked, returned, .single ?_⟩
  rw [zero_add]
  exact .giveBack (Nat.add_right_comm n 1 rest)

/-- What is under way takes a step. -/
theorem go {u : Deal} {handed ended : Nat} (goes : u.Goes s s' ds handed ended) :
    Turns s {u} n s' ds (n + handed) := by
  intro us rest asked returned
  refine ⟨asked, returned + ended, .single ?_⟩
  rw [Nat.add_right_comm]
  exact .go u us rfl goes

end Turns

end Turnover

variable {σ ν : Type}

namespace Task

/-- The claim or the release that a thread is at. -/
def deals : Task σ ν → Multiset Deal
  | .claiming _ claim => {.claim claim}
  | .returning _ release => {.release release}
  | .releasing release _ => {.release release}
  | _ => 0

/-- A worker has its slot until it begins to give it back. -/
def keeps : Task σ ν → Nat
  | .releasing _ _ => 0
  | .ended _ => 0
  | _ => 1

end Task

namespace Thread

/-- Slots that are with thread `i`: its own if it is a worker, and one that it was granted. -/
def out (i : ThreadId) (t : Thread σ ν) : Nat :=
  (if i = 0 then 0 else t.task.keeps) + t.task.granted

theorem out_fresh {i : ThreadId} (worker : i ≠ 0) (d : Dir) :
    (Thread.fresh d : Thread σ ν).out i = 1 := by
  rw [out, if_neg worker]
  rfl

variable {walk : Walk σ ν} {o : Others} {t : Thread σ ν} {s : Shared σ ν} {m : Moved σ ν}

/-- Whatever a thread does, it claims slots and gives back what it has, or leaves them alone. -/
theorem Does.turns (h : Does walk o t s m) {i : ThreadId} (caller : o.caller = (i == 0))
    (placed : t.task.Placed i t.stack) :
    Turnover.Turns s.slots t.task.deals (t.out i) m.shared.slots m.thread.task.deals
      (m.thread.out i + if m.child.isSome then 1 else 0) := by
  cases h with
  | claim stage => exact .go (.claim stage)
  | grant stage => exact .go (.grant stage)
  | stayInline stage => exact .go (.refuse stage)
  | «return» stage => exact .go (.release stage)
  | endReturn last => exact .go (.finish last)
  | release stage => exact .go (.release stage)
  | endRelease last => exact .go (.finish last)
  | @finishActing h fs site =>
    exact site.onward_ind (P := fun task => Turnover.Turns s.slots 0 (out i ⟨h, fs, .scanning⟩)
      s.slots task.deals (out i ⟨h, fs, task⟩)) (fun _ => .ask) .refl
  | missSpawn => exact .giveBack
  | goHome worker | unwindWorker worker =>
    have hi : i ≠ 0 := by simpa [worker] using caller
    simp only [out, if_neg hi]
    exact .giveBack
  | unwindCaller isCaller =>
    obtain rfl : i = 0 := by simpa [isCaller] using caller
    exact .refl
  | concludeFailed | settleCancelled | settleWell =>
    obtain ⟨rfl, -⟩ := placed
    exact .refl
  | _ => exact .refl

end Thread

namespace World

variable {walk : Walk σ ν} {w w' : World σ ν}

/-- What is done with the slots is done by the threads of a walk. -/
structure Follows (w : World σ ν) (t : Turnover) : Prop where
  slots : t.slots = w.shared.slots
  underway : ∀ u, t.underway.count u = w.tally fun _ thread => thread.task.deals.count u
  out : t.out = w.tally Thread.out

/-- At the start all slots are free. -/
theorem Follows.initial (plan : WalkPlan) (root : Dir) (store : Flagged σ) (state : ν) :
    (World.initial plan root store state).Follows (.start plan.threads) :=
  ⟨rfl, fun _ => rfl, rfl⟩

/-- A step of a thread is one of its claim or its release, or does nothing about slots. -/
theorem Follows.step {t : Turnover} (follows : w.Follows t) (kin : w.Kin) {i : Nat} {room : Bool}
    {e : Event} (h : w.step walk i room = some (e, w')) :
    ∃ t', Turnover.Leads t t' ∧ w'.Follows t' := by
  obtain ⟨thread, m, hthread, hdoes, rfl, rfl⟩ := step_eq_some h
  obtain ⟨slots, underway, out, asked, returned⟩ := t
  obtain ⟨rfl, hunderway, rfl⟩ := follows
  -- Apart from the thread that takes the step, nobody does anything with the slots.
  have hle : thread.task.deals ≤ underway := Multiset.le_iff_count.mpr fun u =>
    (hunderway u).symm ▸ le_tally (fun _ thread => thread.task.deals.count u) hthread
  obtain ⟨us, rfl⟩ := Multiset.le_iff_exists_add.mp hle
  obtain ⟨rest, hrest, hupdate⟩ := tally_update Thread.out hthread
  obtain ⟨asked', returned', hleads⟩ :=
    hdoes.turns rfl (kin.placed i thread hthread) us rest asked returned
  rw [hrest]
  refine ⟨_, hleads, ?_, fun u => ?_, ?_⟩
  · rw [shared_update]
  · have htally := tally_update_add (fun _ thread => thread.task.deals.count u) hthread
      (fun _ _ => rfl) m
    have hbefore := hunderway u
    simp only [Multiset.count_add] at hbefore ⊢
    omega
  · have hsize : w.threads.size ≠ 0 := Nat.ne_of_gt kin.caller
    rw [hupdate, m.elim_fresh (Thread.out_fresh hsize)]

/-- Whatever happens in a walk, its threads use the slots as any threads may. -/
theorem Run.exists_follows {meddle : Flagged σ → Flagged σ → Prop} {root : Dir}
    {store : Flagged σ} {state : ν} {tr : Trace}
    (run : Run walk meddle (.initial walk.plan root store state) tr w) :
    ∃ t, Turnover.Leads (.start walk.plan.threads) t ∧ w.Follows t := by
  induction run with
  | nil => exact ⟨_, .refl, .initial ..⟩
  | step run hstep ih =>
    obtain ⟨t, hleads, hfollows⟩ := ih
    have hkin := (Kin.initial walk.plan root store state).of_run run
    obtain ⟨t', hleads', hfollows'⟩ := hfollows.step hkin hstep
    exact ⟨t', hleads.trans hleads', hfollows'⟩
  | outside _ _ ih =>
    obtain ⟨t, hleads, hfollows⟩ := ih
    exact ⟨t, hleads, hfollows.slots, hfollows.underway, hfollows.out⟩

/-- When a walk has ended every slot that was handed out was given back, and its peak is the highest
that the gauge has shown. -/
theorem Run.exists_atRest {meddle : Flagged σ → Flagged σ → Prop} {root : Dir} {store : Flagged σ}
    {state : ν} {tr : Trace} (run : Run walk meddle (.initial walk.plan root store state) tr w)
    (done : w.result?.isSome) :
    ∃ t, Turnover.Leads (.start walk.plan.threads) t ∧ t.slots = w.shared.slots ∧ t.out = 0 ∧
      t.AtRest walk.plan.threads := by
  obtain ⟨t, hleads, hslots, hunderway, hout⟩ := run.exists_follows
  have hkin := (Kin.initial walk.plan root store state).of_run run
  have hquiet : t.underway = 0 := Multiset.ext.mpr fun u =>
    (hunderway u).trans (hkin.tally_of_result _ done fun _ _ _ _ => rfl)
  have hnone : t.out = 0 :=
    hout.trans (hkin.tally_of_result _ done fun i _ _ _ => ite_self 0)
  exact ⟨t, hleads, hslots, hnone, (Turnover.kept_of_leads hleads).atRest hleads hquiet⟩

end World

end ShardSweep
