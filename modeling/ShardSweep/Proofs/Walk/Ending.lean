import Mathlib.Logic.Hydra
import ShardSweep.Proofs.Walk.Outlook
import ShardSweep.Proofs.Walk.Timeline

/-!
# Walks end

Each thread has a rank: sixteen for each moment that it still has before it, and a little for
what its task and the workers on its stack cost in between.  A step lowers the rank, or it is
one step within a request or within the visitor, and these are finite trees.  A worker begins
below the thread that starts it.  So with each step one thread gives way to threads that are
below it, and no walk goes on for ever.

* `Thread.Does.below`: what a step leaves is below what it found;
* `World.wellFounded_shrinks`: a walk cannot shrink for ever;
* `World.exists_result_of_fair`: a walk has an outcome, whatever the schedule, if its threads get
  to move again and again;
* `World.exists_result`: so a walk that nobody disturbs has one.
-/

namespace ShardSweep

variable {σ ν : Type}

/-- What is still to come of a claim, and of what follows it. -/
def Claim.cost : Claim → Nat
  | .start => 12
  | .taken => 11
  | .counted _ => 10
  | .noted => 9
  | .refused => 6

/-- What is still to come of a release. -/
def Release.cost : Release → Nat
  | .start => 2
  | .lowered => 1

/-- What is still to come after a failure. -/
def Resume.cost : Resume → Nat
  | .scan => 3
  | .close => 3
  | .join _ ws => 4 + 4 * ws.length

/-- What is still to come of a task before the next moment, or before the thread is through. -/
def Task.cost : Task σ ν → Nat
  | .checking _ => 5
  | .asking _ => 1
  | .listing _ _ => 1
  | .scanning => 3
  | .acting _ _ => 1
  | .calling _ _ _ _ => 1
  | .claiming _ claim => claim.cost
  | .spawning _ => 8
  | .returning _ release => 5 + release.cost
  | .reporting _ resume => 2 + resume.cost
  | .raising resume => 1 + resume.cost
  | .closing _ ws => 4 + 4 * ws.length
  | .unwinding _ => 3
  | .releasing release _ => release.cost
  | .concluding => 2
  | .settling => 1
  | .ended _ => 0

/-- What is still to come of a directory when its entries are used up. -/
def Frame.cost (fr : Frame) : Nat :=
  6 + 4 * fr.workers.length

namespace Thread

/-- What a thread costs besides the moments before it. -/
def cost (t : Thread σ ν) : Nat :=
  t.task.cost + (t.stack.map Frame.cost).sum

/-- What is still to come of a thread: the moments count most, and the steps between them least. -/
def rank (f : Forest) (t : Thread σ ν) : Nat :=
  16 * t.outlook f (fun _ => 1) + t.cost

end Thread

/-- One step within a request or within the visitor, whatever it finds. -/
inductive Task.Inner : Task σ ν → Task σ ν → Prop
  | list {d change next s} : Inner (.listing d (next s)) (.listing d (.step change next))
  | update {site change next n} : Inner (.acting site (next n)) (.acting site (.update change next))
  | cancel {site next} : Inner (.acting site next) (.acting site (.cancel next))
  | look {site next b} : Inner (.acting site (next b)) (.acting site (.look next))
  | offer {site e next b} :
      Inner (.acting site (.cancel (next b))) (.acting site (.fail e next))
  | lookFailed {site next b} : Inner (.acting site (next b)) (.acting site (.failed next))
  | take {site next kept} : Inner (.acting site (next kept)) (.acting site (.take next))
  | begin {site r rest next} : Inner (.calling site r rest next) (.acting site (.request r next))
  | call {site r change rest next s} :
      Inner (.calling site r (rest s) next) (.calling site r (.step change rest) next)
  | answer {site r outcome next x} :
      Inner (.acting site (next x)) (.calling site r (.done outcome) next)

namespace Task

/-- A request for a listing takes finitely many steps, because a request is a tree. -/
private theorem acc_listing (d : Dir) (p : Proc (Flagged σ) (Outcome (List Entry))) :
    Acc Inner (.listing d p : Task σ ν) := by
  induction p with
  | done a => exact ⟨_, fun _ h => nomatch h⟩
  | step change next ih =>
    refine ⟨_, ?_⟩
    intro _ h
    cases h
    exact ih _

/-- So does a request of a visitor, if what follows its answer does. -/
private theorem acc_calling (site : Site) (r : Request)
    (next : Except WalkError r.Answer → Action ν)
    (answered : ∀ x, Acc Inner (.acting site (next x) : Task σ ν))
    (p : Proc (Flagged σ) (Outcome r.Answer)) :
    Acc Inner (.calling site r p next : Task σ ν) := by
  induction p with
  | done a =>
    refine ⟨_, ?_⟩
    intro _ h
    cases h
    exact answered _
  | step change rest ih =>
    refine ⟨_, ?_⟩
    intro _ h
    cases h
    exact ih _

/-- The flag is raised in one step. -/
private theorem acc_cancel (site : Site) {next : Action ν}
    (h : Acc Inner (.acting site next : Task σ ν)) :
    Acc Inner (.acting site (.cancel next) : Task σ ν) := by
  refine ⟨_, ?_⟩
  intro _ hinner
  cases hinner
  exact h

/-- A visitor acts in finitely many steps, because an action is a tree as well. -/
private theorem acc_acting (site : Site) (a : Action ν) :
    Acc Inner (.acting site a : Task σ ν) := by
  induction a with
  | done result => exact ⟨_, fun _ h => nomatch h⟩
  | die p => exact ⟨_, fun _ h => nomatch h⟩
  | update change next ih =>
    refine ⟨_, ?_⟩
    intro _ h
    cases h
    exact ih _
  | cancel next ih => exact acc_cancel site ih
  | look next ih | failed next ih | take next ih =>
    refine ⟨_, ?_⟩
    intro _ h
    cases h
    exact ih _
  | fail e next ih =>
    refine ⟨_, ?_⟩
    intro _ h
    cases h
    exact acc_cancel site (ih _)
  | request r next ih =>
    refine ⟨_, ?_⟩
    intro _ h
    cases h
    exact acc_calling site r next ih _

/-- No thread stays within a request or a visitor forever. -/
theorem wellFounded_inner : WellFounded (Inner : Task σ ν → Task σ ν → Prop) := by
  refine ⟨fun task => ?_⟩
  cases task with
  | listing d p => exact acc_listing d p
  | acting site a => exact acc_acting site a
  | calling site r p next => exact acc_calling site r next (fun x => acc_acting site _) p
  | _ => exact ⟨_, fun _ h => nomatch h⟩

end Task

namespace Thread

/-- A thread has less before it, or is one step further within its task. -/
def Below (f : Forest) : Thread σ ν → Thread σ ν → Prop :=
  InvImage (Prod.Lex (· < ·) Task.Inner) fun t => (t.rank f, t.task)

/-- No thread goes on forever. -/
theorem wellFounded_below (f : Forest) : WellFounded (Below f : Thread σ ν → Thread σ ν → Prop) :=
  InvImage.wf _ (WellFounded.prod_lex Nat.lt_wfRel.wf Task.wellFounded_inner)

variable {walk : Walk σ ν} {o : Others} {t : Thread σ ν} {s : Shared σ ν} {m : Moved σ ν}

/-- A visit or a leaving costs more than what follows it. -/
private theorem cost_onward (site : Site) : (site.onward : Task σ ν).cost ≤ 12 :=
  site.onward_ind (P := fun task => task.cost ≤ 12) (fun _ => by simp [Task.cost, Claim.cost])
    (by simp [Task.cost])

/-- A failed action leaves only its directory to be given up. -/
private theorem cost_afterFailure (site : Site) : site.afterFailure.cost = 3 := by
  cases site <;> rfl

/-- Each stage of a claim costs less than the one before. -/
private theorem cost_claim {c : Claim} {slots : Slots} :
    match c.step slots with
    | (.stage c', _) => c'.cost < c.cost
    | (.granted, _) => 8 < c.cost
    | (.inline, _) => 5 < c.cost := by
  cases c with
  | start => by_cases h : slots.hasRoom <;> simp [Claim.step, h, Claim.cost]
  | _ => simp [Claim.step, Claim.cost]

/-- So does each stage of a release. -/
private theorem cost_release {r : Release} {slots : Slots} :
    match r.step slots with
    | (some r', _) => r'.cost < r.cost
    | (none, _) => 0 < r.cost := by
  cases r <;> simp [Release.step, Release.cost]

/-- A step that is not one within a request or the visitor lowers the cost, unless it comes to
a moment. -/
theorem Does.cost (h : Does walk o t s m) :
    (m.thread.task.Inner t.task ∧ m.thread.cost = t.cost ∧ m.child = none) ∨
      m.thread.cost < t.cost + 16 * m.event.weight (fun _ => 1) := by
  cases h with
  | stepListing => exact .inl ⟨.list, rfl, rfl⟩
  | update => exact .inl ⟨.update, rfl, rfl⟩
  | cancel => exact .inl ⟨.cancel, rfl, rfl⟩
  | look => exact .inl ⟨.look, rfl, rfl⟩
  | offer => exact .inl ⟨.offer, rfl, rfl⟩
  | lookFailed => exact .inl ⟨.lookFailed, rfl, rfl⟩
  | take => exact .inl ⟨.take, rfl, rfl⟩
  | beginCall => exact .inl ⟨.begin, rfl, rfl⟩
  | stepCall => exact .inl ⟨.call, rfl, rfl⟩
  | endCall => exact .inl ⟨.answer, rfl, rfl⟩
  | failCall => exact .inl ⟨.answer, rfl, rfl⟩
  | @finishActing _ _ site =>
    right
    have hcost : (site.onward : Task σ ν).cost ≤ 12 := cost_onward site
    have hacting : (Task.acting site (.done (.ok ())) : Task σ ν).cost = 1 := rfl
    simp only [Thread.cost, Event.weight, Event.moment?, Option.elim]
    omega
  | @failActing _ _ site =>
    right
    have hcost := cost_afterFailure site
    simp only [Thread.cost, Task.cost, Event.weight, Event.moment?, Option.elim]
    omega
  | @claim _ _ _ c c' slots s stage =>
    right
    have hcost := @cost_claim c s.slots
    rw [stage] at hcost
    simp only [Thread.cost, Task.cost]
    omega
  | @grant _ _ _ c slots s granted =>
    right
    have hcost := @cost_claim c s.slots
    rw [granted] at hcost
    simp only [Thread.cost, Task.cost]
    omega
  | @stayInline _ _ _ c slots s refused =>
    right
    have hcost := @cost_claim c s.slots
    rw [refused] at hcost
    simp only [Thread.cost, Task.cost]
    omega
  | @«return» _ _ _ r r' slots s stage | @release _ _ r r' _ slots s stage =>
    right
    have hcost := @cost_release r s.slots
    rw [stage] at hcost
    simp only [Thread.cost, Task.cost]
    omega
  | @endReturn _ _ _ r slots s last | @endRelease _ _ r _ slots s last =>
    right
    have hcost := @cost_release r s.slots
    rw [last] at hcost
    simp only [Thread.cost, Task.cost]
    omega
  | _ =>
    right
    simp [Thread.cost, Task.cost, Frame.cost, Resume.cost, Release.cost, Event.weight, Event.moment?,
      Outcome.isPanic]
    try omega

/-- What a step leaves is below what it found. -/
theorem Does.below (h : Does walk o t s m) {f : Forest} {i : ThreadId}
    (placed : t.task.Placed i t.stack) (agrees : m.event.Agrees f) :
    m.thread.Below f t ∧ ∀ d, m.child = some d → (fresh d).Below f t := by
  obtain ⟨lost, hlost, -⟩ := h.outlook f (fun _ => 1) placed agrees
  refine ⟨?_, ?_⟩
  · rcases h.cost with ⟨hinner, hcost, hchild⟩ | hcost
    · rw [hchild] at hlost
      simp only [Option.elim, Nat.add_zero] at hlost
      have hle : m.thread.rank f ≤ t.rank f := by
        unfold rank
        omega
      rcases Nat.lt_or_eq_of_le hle with hlt | heq
      · exact Prod.Lex.left _ _ hlt
      · exact Prod.lex_def.mpr (.inr ⟨heq, hinner⟩)
    · apply Prod.Lex.left _ _
      unfold rank
      omega
  · intro d hd
    apply Prod.Lex.left _ _
    have hspawn : 8 ≤ t.cost := by
      cases h with
      | spawn | spawnOutside => exact Nat.le_add_right _ _
      | _ => cases hd
    have hfresh : (fresh d : Thread σ ν).cost = 5 := rfl
    rw [hd] at hlost
    simp only [Option.elim] at hlost
    unfold rank
    rw [outlook_fresh, hfresh]
    omega

end Thread

/-- From any point of time on the threads get to move again. -/
def Schedule.Fair {τ : Type} (schedule : Schedule τ) : Prop :=
  ∀ now, ∃ later, now ≤ later ∧ ∀ change, schedule later ≠ some (.outside change)

namespace World

/-- The threads of a walk, in no order. -/
def crowd (w : World σ ν) : Multiset (Thread σ ν) :=
  w.total fun t => {t}

/-- One thread gives way to threads below it. -/
def Shrinks (f : Forest) : World σ ν → World σ ν → Prop :=
  InvImage (Relation.CutExpand (Thread.Below f)) crowd

/-- A walk cannot shrink for ever. -/
theorem wellFounded_shrinks (f : Forest) : WellFounded (Shrinks f : World σ ν → World σ ν → Prop) :=
  InvImage.wf _ (Thread.wellFounded_below f).cutExpand

/-- A step of a walk makes the whole of its threads smaller, also where it starts one. -/
theorem Kin.shrinks {walk : Walk σ ν} {w w' : World σ ν} (kin : w.Kin) {f : Forest} {i : ThreadId}
    {room : Bool} {e : Event} (step : w.step walk i room = some (e, w')) (agrees : e.Agrees f) :
    w'.Shrinks f w := by
  obtain ⟨t, m, ht, hdoes, rfl, rfl⟩ := step_eq_some step
  obtain ⟨hmoved, hchild⟩ := hdoes.below (kin.placed i t ht) agrees
  obtain ⟨rest, hrest, hupdate⟩ := total_update (fun t => ({t} : Multiset (Thread σ ν))) ht
  refine ⟨{m.thread} + m.child.elim 0 fun d => {.fresh d}, t, ?_, ?_⟩
  · intro u hu
    rcases Multiset.mem_add.mp hu with hu | hu
    · exact Multiset.mem_singleton.mp hu ▸ hmoved
    · cases hc : m.child with
      | none => simp [hc] at hu
      | some d =>
        rw [hc] at hu
        exact Multiset.mem_singleton.mp hu ▸ hchild d hc
  · unfold crowd
    rw [hrest, hupdate]
    abel

section

variable {walk : Walk σ ν} {w : World σ ν}

/-- The newest thread that can take a step takes one, as long as there is no outcome. -/
private theorem Kin.step_stepNewest (kin : w.Kin) (going : w.result? = none) :
    ∃ i room e, w.step walk i room = some (e, w.stepNewest walk) ∧
      w.shownByNewest walk = [(i, e)] := by
  have hcaller : w.ended? 0 = none := by simpa [result?] using going
  have hlive : 0 ∈ w.live := (kin.live 0).mpr ⟨kin.caller, hcaller⟩
  cases hnewest : w.live with
  | nil => simp [hnewest] at hlive
  | cons i older =>
    obtain ⟨e, w', hstep⟩ := kin.exists_step walk hnewest true
    refine ⟨i, true, e, ?_, ?_⟩
    · simp [stepNewest, hnewest, hstep]
    · simp [shownByNewest, hnewest, hstep]

/-- With every move that is not one from outside some thread takes a step. -/
private theorem Kin.step_advance (kin : w.Kin) (walk : Walk σ ν) (going : w.result? = none)
    {move : Option (Move (Flagged σ))} (alone : ∀ change, move ≠ some (.outside change)) :
    ∃ i room e, w.step walk i room = some (e, w.advance walk move) ∧
      w.shownBy walk move = [(i, e)] := by
  rcases move with _ | ⟨i, room⟩ | change
  · exact kin.step_stepNewest going
  · unfold advance shownBy
    cases hstep : w.step walk i room with
    | none => simpa [hstep] using kin.step_stepNewest going
    | some next => exact ⟨i, room, next.1, by simp [hstep]⟩
  · exact absurd rfl (alone change)

/-- A walk has an outcome after finitely many moves if its threads get to move again and again. -/
theorem exists_result_after {f : Forest} {schedule : Schedule (Flagged σ)}
    {meddle : Flagged σ → Flagged σ → Prop} {start : World σ ν} (within : schedule.Within meddle)
    (fair : schedule.Fair) (kin : start.Kin)
    (agrees : ∀ n, Trace.Agrees f (start.shownAt walk schedule n)) :
    ∃ n result, (start.after walk schedule n).result? = some result := by
  have hkin : ∀ n, (start.after walk schedule n).Kin := by
    intro n
    obtain ⟨tr, hrun, -⟩ := run_after walk within start n
    exact kin.of_run hrun
  have main : ∀ w : World σ ν, ∀ gap n, (start.after walk schedule n).crowd = w.crowd →
      (∀ change, schedule (n + gap) ≠ some (.outside change)) →
      ∃ n result, (start.after walk schedule n).result? = some result := by
    intro w
    induction w using (wellFounded_shrinks f).induction with
    | _ w ih =>
      -- Whenever a thread has moved the walk has shrunk, and waits for the next fair move.
      have hstepped : ∀ n i room e, (start.after walk schedule n).crowd = w.crowd →
          (start.after walk schedule n).step walk i room =
            some (e, start.after walk schedule (n + 1)) → e.Agrees f →
          ∃ n result, (start.after walk schedule n).result? = some result := by
        intro n i room e hcrowd hstep hagrees
        have hshrinks := (hkin n).shrinks hstep hagrees
        unfold Shrinks InvImage at hshrinks
        rw [hcrowd] at hshrinks
        obtain ⟨later, hle, hlater⟩ := fair (n + 1)
        have hgap : n + 1 + (later - (n + 1)) = later := by omega
        exact ih _ hshrinks (later - (n + 1)) (n + 1) rfl (by rwa [hgap])
      intro gap
      induction gap with
      | zero =>
        intro n hcrowd hmove
        cases hresult : (start.after walk schedule n).result? with
        | some r => exact ⟨n, r, hresult⟩
        | none =>
          obtain ⟨i, room, e, hstep, hshown⟩ := (hkin n).step_advance walk hresult hmove
          rw [Nat.add_zero, ← after_succ hresult] at hstep
          rw [Nat.add_zero, ← shownAt_of_going hresult] at hshown
          exact hstepped n i room e hcrowd hstep (agrees n (i, e) (by simp [hshown]))
      | succ gap ihgap =>
        intro n hcrowd hmove
        rcases still_or_step walk within start n with ⟨hthreads, -⟩ | ⟨i, room, e, hstep, hshown⟩
        · refine ihgap (n + 1) ?_ (by rwa [Nat.add_right_comm])
          rw [← hcrowd]
          unfold crowd total
          rw [hthreads]
        · exact hstepped n i room e hcrowd hstep (agrees n (i, e) (by simp [hshown]))
  obtain ⟨later, -, hlater⟩ := fair 0
  exact main start later 0 rfl (by simpa using hlater)

/-- A walk has an outcome after finitely many moves, whatever the schedule, if its threads get
to move again and again. -/
theorem exists_result_of_fair {f : Forest} {schedule : Schedule (Flagged σ)}
    {meddle : Flagged σ → Flagged σ → Prop} {start : World σ ν} (within : schedule.Within meddle)
    (fair : schedule.Fair) (kin : start.Kin)
    (agrees : ∀ tr w, Run walk meddle start tr w → tr.Agrees f) :
    ∃ bound, ∀ budget, bound ≤ budget →
      ∃ result, (start.drive walk schedule budget 0).result? = some result := by
  have hagrees : ∀ n, Trace.Agrees f (start.shownAt walk schedule n) := by
    intro n shown hshown
    obtain ⟨tr, hrun, htr⟩ := run_after walk within start (n + 1)
    exact agrees tr _ hrun shown ((htr shown).mpr ⟨n, Nat.lt_succ_self n, hshown⟩)
  obtain ⟨bound, result, hresult⟩ := exists_result_after within fair kin hagrees
  refine ⟨bound, fun budget hbudget => ⟨result, ?_⟩⟩
  rw [drive_eq_of_le hbudget hresult]
  exact hresult

/-- A walk that nobody disturbs has an outcome after finitely many moves, whatever the schedule. -/
theorem exists_result {f : Forest} {schedule : Schedule (Flagged σ)} {start : World σ ν}
    (alone : ∀ now change, schedule now ≠ some (.outside change)) (kin : start.Kin)
    (agrees : ∀ tr w, Run walk (fun _ _ => False) start tr w → tr.Agrees f) :
    ∃ bound, ∀ budget, bound ≤ budget →
      ∃ result, (start.drive walk schedule budget 0).result? = some result :=
  exists_result_of_fair (fun now change hmove => absurd hmove (alone now change))
    (fun now => ⟨now, Nat.le_refl now, alone now⟩) kin agrees

end

end World

end ShardSweep
