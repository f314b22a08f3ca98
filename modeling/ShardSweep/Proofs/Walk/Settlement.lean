import ShardSweep.Proofs.Walk.Ledger

/-!
# Settling a ledger

During a walk that fits its ledger the books are right at every moment: what was credited for
the stays that ended well, together with what the threads have paid where they are now, is what
the store and the state of the visitor show.  Nothing is paid twice, because what was paid, what
is still owed and what was given up make up the whole.

* `Ledger.Kept`: what holds throughout a run;
* `World.Run.kept`: a walk that fits its ledger keeps it;
* `Ledger.Kept.ended`: at the end the books show what was credited;
* `Ledger.Fits.exists_settled`: a walk that may not fail ends well, with everything achieved.
-/

namespace ShardSweep

variable {σ ν M : Type} [AddCancelCommMonoid M] {L : Ledger σ ν M}

/-- Who can pay surely knows of no failure. -/
theorem Task.Holds.calm {metadata : Metadata (Flagged σ)} {paid : M} {task : Task σ ν}
    (holds : task.Holds L metadata paid) (sure : L.sure) : task.Calm := by
  cases task with
  | reporting | raising | unwinding => exact holds.1 sure
  | _ => trivial

/-- What a thread has paid was ahead of it. -/
theorem Task.Holds.outlook {metadata : Metadata (Flagged σ)} {paid : M} {task : Task σ ν}
    (holds : task.Holds L metadata paid) (rest : M) :
    ∃ more, task.outlook L.forest L.weights rest = paid + more := by
  cases task with
  | listing d p =>
    obtain ⟨due, hdue, -⟩ := holds
    refine ⟨due + rest, ?_⟩
    rw [← add_assoc, hdue]
    simp [Task.outlook, Ledger.owedIn, Ledger.weights]
  | acting site a =>
    obtain ⟨due, hdue, -⟩ := holds
    refine ⟨due + (site.beyond L.forest L.weights + rest), ?_⟩
    rw [← add_assoc, hdue]
    simp [Task.outlook, Ledger.weights, add_assoc]
  | calling site r p next =>
    obtain ⟨due, hdue, -⟩ := holds
    refine ⟨due + (site.beyond L.forest L.weights + rest), ?_⟩
    rw [← add_assoc, hdue]
    simp [Task.outlook, Ledger.weights, add_assoc]
  | reporting | raising | unwinding | releasing | ended => exact ⟨_, by rw [holds.2, zero_add]⟩
  | _ => exact ⟨_, by rw [show paid = 0 from holds, zero_add]⟩

/-- What all threads together have paid at the places where they are. -/
inductive Ledger.Settles (L : Ledger σ ν M) (metadata : Metadata (Flagged σ)) :
    List (Thread σ ν) → M → Prop
  | nil : L.Settles metadata [] 0
  | cons {t ts paid more} (holds : t.task.Holds L metadata paid)
      (rest : L.Settles metadata ts more) : L.Settles metadata (t :: ts) (paid + more)

namespace Ledger.Settles

variable {metadata : Metadata (Flagged σ)} {ts : List (Thread σ ν)} {paid : M}

/-- What was paid was ahead of the threads. -/
private theorem outlook (h : L.Settles metadata ts paid) :
    ∃ more, (ts.map (Thread.outlook L.forest L.weights)).sum = paid + more := by
  induction h with
  | nil => exact ⟨0, by simp⟩
  | @cons t ts paid _ holds _ ih =>
    obtain ⟨more, hmore⟩ := ih
    obtain ⟨more', hmore'⟩ := holds.outlook (L.forest.stackWeight L.weights t.stack)
    refine ⟨more' + more, ?_⟩
    rw [List.map_cons, List.sum_cons, hmore, Thread.outlook, hmore']
    abel

/-- One thread and what the others have paid. -/
theorem split (h : L.Settles metadata ts paid) {i : Nat} {t : Thread σ ν} (ht : ts[i]? = some t) :
    ∃ own others, paid = own + others ∧ t.task.Holds L metadata own ∧
      (∃ more, (ts.map (Thread.outlook L.forest L.weights)).sum =
        t.outlook L.forest L.weights + others + more) ∧
      ∀ t' own', t'.task.Holds L metadata own' →
        L.Settles metadata (ts.set i t') (own' + others) := by
  induction h generalizing i with
  | nil => simp at ht
  | @cons u ts own others holds rest ih =>
    cases i with
    | zero =>
      obtain rfl : u = t := by simpa using ht
      obtain ⟨more, hmore⟩ := rest.outlook
      refine ⟨own, others, rfl, holds, ⟨more, ?_⟩, fun t' own' holds' => .cons holds' rest⟩
      rw [List.map_cons, List.sum_cons, hmore, add_assoc]
    | succ i =>
      obtain ⟨own', others', rfl, holds', ⟨more, hmore⟩, hset⟩ := ih (by simpa using ht)
      obtain ⟨more', hmore'⟩ := holds.outlook (L.forest.stackWeight L.weights u.stack)
      refine ⟨own', own + others', by rw [add_left_comm], holds', ⟨more' + more, ?_⟩, ?_⟩
      · rw [List.map_cons, List.sum_cons, hmore, Thread.outlook, hmore']
        abel
      · intro t' own'' holds''
        rw [List.set_cons_succ, add_left_comm]
        exact .cons holds (hset t' own'' holds'')

/-- A new thread has paid nothing yet. -/
theorem concat (h : L.Settles metadata ts paid) {t : Thread σ ν}
    (holds : t.task.Holds L metadata 0) : L.Settles metadata (ts ++ [t]) paid := by
  induction h with
  | nil => simpa using Settles.cons holds .nil
  | cons holds' _ ih => exact .cons holds' ih

end Ledger.Settles

namespace Thread

variable {walk : Walk σ ν} {o : Others} {t : Thread σ ν} {s : Shared σ ν} {m : Moved σ ν}

/-- What an event weighs is credited, unless a failure is involved. -/
theorem Does.credit (h : Does walk o t s m) (L : Ledger σ ν M) :
    ∃ lost, m.event.weight L.weights = m.event.credit L + lost ∧
      (m.thread.task.Calm → lost = 0) := by
  cases h with
  | @failActing _ _ site | @dieActing _ _ site =>
    refine ⟨L.worth site, ?_, fun calm => calm.elim⟩
    simp [Event.weight, Event.moment?, Event.credit, Outcome.credit, Ledger.weights]
  | @dieCall _ _ site =>
    refine ⟨L.worth site, ?_, fun calm => calm.elim⟩
    simp [Event.weight, Event.moment?, Event.credit, Ledger.weights, Outcome.isPanic]
  | _ =>
    refine ⟨0, ?_, fun _ => rfl⟩
    simp [Event.weight, Event.moment?, Event.credit, Outcome.credit, Ledger.weights,
      Outcome.isPanic]

/-- Where nothing may fail the flag stays down, and no failure is left. -/
theorem Does.stays_calm (h : Does walk o t s m) {metadata : Metadata (Flagged σ)} {paid : M}
    (within : t.task.Within Flagged.SameFlag) (holds : t.task.Holds L metadata paid)
    (sure : L.sure) (calm : s.store.raised = false ∧ s.failure = none) :
    m.shared.store.raised = false ∧ m.shared.failure = none := by
  cases h with
  | stepListing | stepCall => exact ⟨(within.1 _).trans calm.1, calm.2⟩
  | cancel | offer =>
    obtain ⟨due, hdue, hsure, hpays⟩ := holds
    exact absurd sure hsure
  | report | raiseScan | raiseClose | raiseOutside | raiseJoin => exact absurd sure holds.1
  | concludeFailed | take => exact ⟨calm.1, rfl⟩
  | _ => exact calm

end Thread

/-- What is done last is credited last. -/
theorem Trace.credit_append (tr : Trace) (i : ThreadId) (e : Event) :
    Trace.credit L (tr ++ [(i, e)]) = tr.credit L + e.credit L := by
  simp [Trace.credit]

/-- What was achieved at a place is credited. -/
theorem Trace.Shows.credit {tr : Trace} {site : Site} (h : tr.Shows (.acted site (.ok ()))) :
    ∃ more, tr.credit L = L.worth site + more := by
  obtain ⟨i, hi⟩ := h
  obtain ⟨before, after, rfl⟩ := List.append_of_mem hi
  refine ⟨Trace.credit L before + Trace.credit L after, ?_⟩
  simp only [Trace.credit, List.map_append, List.map_cons, List.sum_append, List.sum_cons,
    Event.credit, Outcome.credit]
  abel

/-- A directory that is ready to be left has all below it credited. -/
theorem Trace.Ready.credit {tr : Trace} {d : Dir} (h : tr.Ready L.forest d) (paid : M) :
    L.Ready (tr.credit L + paid) (.leave d) := by
  refine ⟨?_, ?_⟩
  · intro e he
    obtain ⟨more, hmore⟩ := (h.visited e he).credit (L := L)
    exact ⟨more + paid, by rw [hmore, add_assoc]⟩
  · intro c hc
    obtain ⟨more, hmore⟩ := Trace.Shows.credit (L := L) (h.left c hc)
    exact ⟨more + paid, by rw [hmore, add_assoc]⟩

/-- What holds throughout a run of a walk that fits its ledger. -/
structure Ledger.Kept (L : Ledger σ ν M) (walk : Walk σ ν) (tr : Trace) (w : World σ ν) : Prop where
  agrees : tr.Agrees L.forest
  calm : L.sure → w.shared.store.raised = false ∧ w.shared.failure = none
  saved : ∃ lost, L.all = tr.credit L + w.total (Thread.outlook L.forest L.weights) + lost ∧
    (L.sure → lost = 0)
  settled : ∃ paid, L.Settles walk.metadata w.threads.toList paid ∧
    L.books w.shared.store w.shared.state (tr.credit L + paid)

/-- Changes from outside that the ledger does not mind. -/
structure Ledger.Bears (L : Ledger σ ν M) (s s' : Flagged σ) : Prop where
  keeps : s.Keeps s'
  books : ∀ n done, L.books s n done → L.books s' n done
  calm : L.sure → s'.raised = s.raised

/-- What leaves the flag alone does not lower it. -/
theorem Proc.Within.keeps {α : Type} {p : Proc (Flagged σ) α} (h : p.Within Flagged.SameFlag) :
    p.Within Flagged.Keeps := by
  induction p with
  | done a => trivial
  | step change next ih => exact ⟨fun s hs => (h.1 s).trans hs, fun s => ih s (h.2 s)⟩

section Run

variable {walk : Walk σ ν} {meddle : Flagged σ → Flagged σ → Prop} {store : Flagged σ} {state : ν}
  {tr : Trace} {w : World σ ν}

/-- In a walk that may not fail no thread has died. -/
private theorem Ledger.Settles.not_panicked {metadata : Metadata (Flagged σ)} {paid : M}
    (settles : L.Settles metadata w.threads.toList paid) (sure : L.sure) (j : Nat) (d : Dir)
    (p : Panic) : w.ended? j ≠ some (d, .error (.panicked p)) := by
  intro hended
  unfold World.ended? at hended
  cases hu : w.threads[j]? with
  | none => simp [hu] at hended
  | some u =>
    simp only [hu, Option.map_eq_some_iff, Prod.mk.injEq] at hended
    obtain ⟨result, hresult, -, rfl⟩ := hended
    obtain ⟨own, others, -, holds, -, -⟩ := settles.split (t := u) (i := j) (by simpa using hu)
    rw [Task.eq_ended_of_result? hresult] at holds
    exact nomatch holds.1 sure

/-- A step of a thread keeps the books, because it pays where it acts. -/
private theorem Ledger.Kept.step (kept : L.Kept walk tr w) (fits : L.Fits walk)
    (requests : walk.metadata.Within Flagged.SameFlag)
    (run : World.Run walk meddle (.initial walk.plan L.root store state) tr w)
    (meddled : ∀ s s', meddle s s' → L.Bears s s') {i : Nat} {room : Bool} {t : Thread σ ν}
    {m : Moved σ ν} (ht : w.threads[i]? = some t)
    (hdoes : t.Does walk (w.others i room) w.shared m) :
    L.Kept walk (tr ++ [(i, m.event)]) (w.update i m) := by
  obtain ⟨agrees, calm, ⟨lost, hall, hlost⟩, paid, hsettles, hbooks⟩ := kept
  have hkin := (World.Kin.initial walk.plan L.root store state).of_run run
  have hlineal := World.Lineal.of_run (.initial walk.plan L.root store state)
    (.initial L.forest walk.plan L.root store state) run agrees
  have hplaced := hkin.placed i t ht
  have hready := fun d => run.ready (d := d) (fun r => (requests r).keeps)
    (fun s s' h => (meddled s s' h).keeps) agrees i t ht
  obtain ⟨own, others, rfl, hholds, ⟨more, hmore⟩, hset⟩ :=
    hsettles.split (i := i) (t := t) (by simpa using ht)
  have hfair : t.Fair L w.shared (tr.credit L + others) own := by
    refine ⟨?_, ⟨more + lost, ?_⟩, ?_⟩
    · rwa [add_assoc, add_comm others]
    · rw [hall, World.total, hmore]
      abel
    · intro site hsite
      cases site with
      | visit d e => trivial
      | leave d =>
        rw [add_assoc]
        exact (hready d hsite).credit _
  obtain ⟨hagrees, own', hholds', hbooks'⟩ := hdoes.holds fits hplaced (hlineal.stacked i t ht)
    (hlineal.lineal i t ht) (hlineal.home_mem ht) hholds hfair
    fun hsure => ⟨(calm hsure).1, (calm hsure).2, hsettles.not_panicked hsure⟩
  refine ⟨?_, ?_, ?_, own' + others, ?_, ?_⟩
  · intro shown hshown
    rcases List.mem_append.mp hshown with hshown | hshown
    · exact agrees shown hshown
    · exact List.mem_singleton.mp hshown ▸ hagrees
  · intro hsure
    rw [World.shared_update]
    exact hdoes.stays_calm (run.within requests i t ht) hholds hsure (calm hsure)
  · obtain ⟨missed, hmissed, hnone⟩ := hdoes.outlook L.forest L.weights hplaced hagrees
    obtain ⟨failed, hfailed, hnone'⟩ := hdoes.credit L
    obtain ⟨rest, hrest, hupdate⟩ :=
      World.total_update (Thread.outlook L.forest L.weights) ht
    simp only [Thread.outlook_fresh] at hupdate
    refine ⟨failed + missed + lost, ?_, ?_⟩
    · rw [hall, hrest, hmissed, hfailed, hupdate, Trace.credit_append]
      abel
    · intro hsure
      have hcalm := hholds'.calm hsure
      rw [hlost hsure, hnone (calm hsure).1 (hholds.calm hsure) hcalm, hnone' hcalm, add_zero,
        add_zero]
  · have hmoved := hset m.thread own' hholds'
    rw [World.threads_update]
    cases m.child with
    | none => simpa using hmoved
    | some d => simpa using hmoved.concat (t := .fresh d) rfl
  · rw [World.shared_update, Trace.credit_append]
    convert hbooks' using 1
    abel

/-- So does a run. -/
theorem World.Run.kept (run : Run walk meddle (.initial walk.plan L.root store state) tr w)
    (fits : L.Fits walk) (requests : walk.metadata.Within Flagged.SameFlag)
    (meddled : ∀ s s', meddle s s' → L.Bears s s') (books : L.books store state 0)
    (calm : L.sure → store.raised = false) : L.Kept walk tr w := by
  induction run with
  | nil =>
    refine ⟨fun _ h => absurd h List.not_mem_nil, fun h => ⟨calm h, rfl⟩, ⟨0, ?_, fun _ => rfl⟩,
      0, ?_, ?_⟩
    · have hfresh : (World.initial walk.plan L.root store state).total
          (Thread.outlook L.forest L.weights) =
          (Thread.fresh L.root : Thread σ ν).outlook L.forest L.weights + 0 := rfl
      rw [hfresh, Thread.outlook_fresh]
      simp [Trace.credit, Ledger.all]
    · have hnil : L.Settles walk.metadata [] 0 := .nil
      exact hnil.concat (t := .fresh L.root) rfl
    · rw [add_zero]
      exact books
  | @step tr w w' i room e run hstep ih =>
    obtain ⟨t, m, ht, hdoes, rfl, rfl⟩ := step_eq_some hstep
    exact ih.step fits requests run meddled ht hdoes
  | outside _ hchange ih =>
    obtain ⟨agrees, calm, saved, paid, hsettles, hbooks⟩ := ih
    have hbears := meddled _ _ hchange
    refine ⟨agrees, ?_, saved, paid, hsettles, hbears.books _ _ hbooks⟩
    intro hsure
    exact ⟨(hbears.calm hsure).trans (calm hsure).1, (calm hsure).2⟩

/-- What was achieved so far and what is left make up the whole, and the books show it. -/
theorem Ledger.Kept.books (kept : L.Kept walk tr w) :
    ∃ done left, L.all = done + left ∧ L.books w.shared.store w.shared.state done := by
  obtain ⟨-, -, ⟨lost, hall, -⟩, paid, hsettles, hbooks⟩ := kept
  obtain ⟨more, hmore⟩ := hsettles.outlook
  refine ⟨tr.credit L + paid, more + lost, ?_, hbooks⟩
  rw [hall, World.total, hmore]
  abel

/-- Threads that have ended hold no payment and have nothing ahead. -/
private theorem Ledger.Settles.of_ended {metadata : Metadata (Flagged σ)}
    {ts : List (Thread σ ν)} {paid : M} (h : L.Settles metadata ts paid)
    (ended : ∀ t ∈ ts, ∃ result, t.task = .ended result) :
    paid = 0 ∧ (ts.map (Thread.outlook L.forest L.weights)).sum = 0 := by
  induction h with
  | nil => exact ⟨rfl, rfl⟩
  | @cons t ts own more holds _ ih =>
    obtain ⟨rfl, hsum⟩ := ih fun u hu => ended u (List.mem_cons_of_mem _ hu)
    obtain ⟨result, hresult⟩ := ended t List.mem_cons_self
    rw [hresult] at holds
    refine ⟨by rw [holds.2, add_zero], ?_⟩
    rw [List.map_cons, List.sum_cons, hsum, Thread.outlook, hresult]
    simp [Task.outlook]

/-- At the end of a walk the books show what was credited. -/
theorem Ledger.Kept.ended (kept : L.Kept walk tr w) (kin : w.Kin) {result : Outcome Unit}
    (done : w.result? = some result) :
    L.books w.shared.store w.shared.state (tr.credit L) ∧
      (L.sure → result = .ok () ∧ L.all = tr.credit L) := by
  obtain ⟨-, -, ⟨lost, hall, hlost⟩, paid, hsettles, hbooks⟩ := kept
  obtain ⟨t, ht⟩ : ∃ t, w.threads[0]? = some t := ⟨_, Array.getElem?_eq_getElem kin.caller⟩
  have hresult : t.task.result? = some result := by
    simpa [World.result?, World.ended?, ht] using done
  have hended : ∀ u ∈ w.threads.toList, ∃ result, u.task = .ended result := by
    intro u hu
    obtain ⟨j, hj⟩ := List.getElem?_of_mem hu
    rw [Array.getElem?_toList] at hj
    by_cases hj0 : j = 0
    · subst hj0
      obtain rfl : u = t := Option.some.inj (hj.symm.trans ht)
      exact ⟨result, Task.eq_ended_of_result? hresult⟩
    · have hfree : ∀ t, w.threads[0]? = some t → t.waitsFor = [] := by
        intro t' ht'
        obtain rfl : t' = t := Option.some.inj (ht'.symm.trans ht)
        exact Thread.waitsFor_of_ended (kin.placed 0 t' ht) hresult
      obtain ⟨⟨home, result'⟩, hj'⟩ :=
        Option.isSome_iff_exists.mp (kin.all_ended hfree hj0 (World.lt_size hj))
      simp only [World.ended?, hj, Option.map_eq_some_iff, Prod.mk.injEq] at hj'
      obtain ⟨result'', hresult'', -⟩ := hj'
      exact ⟨result'', Task.eq_ended_of_result? hresult''⟩
  obtain ⟨own, others, -, holds, -, -⟩ := hsettles.split (i := 0) (t := t) (by simpa using ht)
  rw [Task.eq_ended_of_result? hresult] at holds
  obtain ⟨rfl, hsum⟩ := hsettles.of_ended hended
  rw [add_zero] at hbooks
  refine ⟨hbooks, ?_⟩
  intro hsure
  refine ⟨holds.1 hsure, ?_⟩
  rw [hall, hlost hsure, World.total, hsum, add_zero, add_zero]

end Run

section Drive

variable {walk : Walk σ ν} {store : Flagged σ} {state : ν} {schedule : Schedule (Flagged σ)}

/-- A walk that may not fail and that nobody disturbs ends well, with everything achieved,
whatever the schedule. -/
theorem Ledger.Fits.exists_settled (fits : L.Fits walk)
    (requests : walk.metadata.Within Flagged.SameFlag) (sure : L.sure)
    (books : L.books store state 0) (down : store.raised = false)
    (alone : ∀ now change, schedule now ≠ some (.outside change)) :
    ∃ bound, ∀ budget, bound ≤ budget → ∃ last : World σ ν,
      (World.initial walk.plan L.root store state).drive walk schedule budget 0 = last ∧
      last.result? = some (.ok ()) ∧ L.books last.shared.store last.shared.state L.all := by
  have hkept : ∀ tr w, World.Run walk (fun _ _ => False)
      (.initial walk.plan L.root store state) tr w → L.Kept walk tr w := by
    intro tr w run
    exact run.kept fits requests (fun _ _ h => h.elim) books fun _ => down
  have hkin := World.Kin.initial (ν := ν) walk.plan L.root store state
  obtain ⟨bound, hbound⟩ := World.exists_result alone hkin fun tr w run => (hkept tr w run).agrees
  refine ⟨bound, ?_⟩
  intro budget hbudget
  obtain ⟨result, hresult⟩ := hbound budget hbudget
  have hwithin : schedule.Within fun _ _ => False := by
    intro now change hmove
    exact absurd hmove (alone now change)
  obtain ⟨tr, run⟩ := World.exists_run_drive hwithin World.Run.nil budget 0
  obtain ⟨hbooks, hsettled⟩ := (hkept tr _ run).ended (hkin.of_run run) hresult
  obtain ⟨rfl, hall⟩ := hsettled sure
  refine ⟨_, rfl, hresult, ?_⟩
  rw [hall]
  exact hbooks

end Drive

end ShardSweep
