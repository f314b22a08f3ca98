import ShardSweep.Proofs.Walk.Dispatch
import ShardSweep.Proofs.Walk.Recursion
import ShardSweep.Proofs.Walk.SingleFile

/-!
# The counters of a walk that is not short of threads

If the system starts every thread that it is asked for, each slot that is handed out means another
worker.  In a subtree that goes down in one line no slot comes back before the last claim was made.
So the first claims are granted, as many as there are slots, and all later ones are refused,
however the threads are scheduled and wherever the walk is cut short.

* `World.Staffed`: a run in which every thread that is asked for is started;
* `Thread.Does.granted`, `Thread.Does.noted`, `Thread.Does.refused`: what a step does to the
  counters;
* `World.Counts`, `World.Counts.step`: what the counters say of the number of threads;
* `World.Staffed.dispatched`: what they say in the end.
-/

namespace ShardSweep

variable {σ ν : Type}

/-- The peak has been raised for a slot whose worker has not been started. -/
def Task.noted : Task σ ν → Nat
  | .claiming _ .noted => 1
  | .spawning _ => 1
  | _ => 0

/-- A slot was handed out whose worker has not been started. -/
def Task.granted : Task σ ν → Nat
  | .spawning _ => 1
  | _ => 0

/-- What was noted was claimed. -/
theorem Task.noted_le_claimed (task : Task σ ν) : task.noted ≤ task.claimed := by
  cases task with
  | claiming d c => cases c <;> simp [noted, claimed, Claim.tokens]
  | _ => simp [noted, claimed]

/-- Who goes on after an action has claimed nothing yet. -/
theorem Site.noted_onward (site : Site) : (site.onward : Task σ ν).noted = 0 :=
  site.onward_ind (P := fun task => task.noted = 0) (fun _ => rfl) rfl

theorem Site.granted_onward (site : Site) : (site.onward : Task σ ν).granted = 0 :=
  site.onward_ind (P := fun task => task.granted = 0) (fun _ => rfl) rfl

namespace Thread

variable {walk : Walk σ ν} {o : Others} {t : Thread σ ν} {s : Shared σ ν} {m : Moved σ ν}

/-- A worker is started with a token that was claimed for it. -/
theorem Does.claimed_of_child (h : Does walk o t s m) (child : m.child.isSome) :
    t.task.claimed = 1 := by
  cases h with
  | spawn | spawnOutside => rfl
  | _ => cases child

/-- A slot that was handed out goes to the worker that is started with it. -/
theorem Does.granted (h : Does walk o t s m) (room : o.room = true) :
    m.shared.slots.spawned + t.task.granted =
      s.slots.spawned + m.thread.task.granted + if m.child.isSome then 1 else 0 := by
  cases h with
  | claim stage | grant stage | stayInline stage => cases Claim.does_of_step stage <;> rfl
  | «return» stage | endReturn stage | release stage | endRelease stage =>
    rw [(Release.counters_step stage).1]
    rfl
  | missSpawn full => exact absurd (room.symm.trans full) (by simp)
  | finishActing => rw [Site.granted_onward]; rfl
  | _ => rfl

/-- The peak changes when a claim notes what it has counted. -/
theorem Does.noted (h : Does walk o t s m) (room : o.room = true) :
    (∃ d now, t.task = .claiming d (.counted now) ∧ m.thread.task = .claiming d .noted ∧
      m.child = none ∧ m.shared.slots.peak = max s.slots.peak now) ∨
    m.shared.slots.peak + t.task.noted =
      s.slots.peak + m.thread.task.noted + if m.child.isSome then 1 else 0 := by
  cases h with
  | claim stage =>
    cases Claim.does_of_step stage with
    | note => exact .inl ⟨_, _, rfl, rfl, rfl, rfl⟩
    | _ => exact .inr rfl
  | grant stage => cases Claim.does_of_step stage; exact .inr rfl
  | stayInline stage => cases Claim.does_of_step stage; exact .inr rfl
  | «return» stage | endReturn stage | release stage | endRelease stage =>
    rw [(Release.counters_step stage).2.2]
    exact .inr rfl
  | missSpawn full => exact absurd (room.symm.trans full) (by simp)
  | finishActing => rw [Site.noted_onward]; exact .inr rfl
  | _ => exact .inr rfl

/-- A directory is walked inline when its claim was refused. -/
theorem Does.inlined (h : Does walk o t s m) (inlined : 0 < m.shared.slots.inlined) :
    0 < s.slots.inlined ∨ ∃ d, t.task = .claiming d .refused := by
  cases h with
  | stayInline stage => cases Claim.does_of_step stage with
    | refuse => exact .inr ⟨_, rfl⟩
  | claim stage | grant stage => cases Claim.does_of_step stage <;> exact .inl inlined
  | «return» stage | endReturn stage | release stage | endRelease stage =>
    rw [(Release.counters_step stage).2.1] at inlined
    exact .inl inlined
  | _ => exact .inl inlined

/-- A claim is refused when every token is taken. -/
theorem Does.refused (h : Does walk o t s m) {d : Dir}
    (refused : m.thread.task = .claiming d .refused) :
    t.task = .claiming d .start ∧ s.slots.hasRoom = false := by
  cases h with
  | claim stage =>
    cases refused
    cases Claim.does_of_step stage with
    | miss full => exact ⟨rfl, full⟩
  | @finishActing _ _ site =>
    exact absurd refused (site.onward_ind (P := (· ≠ .claiming d .refused)) (by simp) (by simp))
  | _ => cases refused

end Thread

namespace World

variable {f : Forest} {walk : Walk σ ν} {meddle : Flagged σ → Flagged σ → Prop} {root : Dir}
  {store : Flagged σ} {state : ν} {tr : Trace} {w w' : World σ ν} {i : Nat} {t : Thread σ ν}
  {threads : Nat}

/-- Slots that were handed out and whose workers have not been started. -/
def granted (w : World σ ν) : Nat :=
  w.tally fun _ t => t.task.granted

/-- Slots that the peak was raised for and whose workers have not been started. -/
def noted (w : World σ ν) : Nat :=
  w.tally fun _ t => t.task.noted

/-- A run in which the system starts every thread that it is asked for. -/
inductive Staffed (walk : Walk σ ν) (meddle : Flagged σ → Flagged σ → Prop) (start : World σ ν) :
    Trace → World σ ν → Prop
  | nil : Staffed walk meddle start [] start
  | step {tr w w' i e} (staffed : Staffed walk meddle start tr w)
      (step : w.step walk i true = some (e, w')) :
      Staffed walk meddle start (tr ++ [(i, e)]) w'
  | outside {tr w s} (staffed : Staffed walk meddle start tr w)
      (change : meddle w.shared.store s) : Staffed walk meddle start tr (w.withStore s)

/-- A run in which every thread that is asked for is started is a run. -/
theorem Staffed.run {start : World σ ν} (staffed : Staffed walk meddle start tr w) :
    Run walk meddle start tr w := by
  induction staffed with
  | nil => exact .nil
  | step _ hstep ih => exact ih.step hstep
  | outside _ hchange ih => exact ih.outside hchange

section Drive

variable {start : World σ ν} {schedule : Schedule (Flagged σ)}

/-- The newest thread takes its move, and there is room. -/
private theorem Staffed.stepNewest (staffed : Staffed walk meddle start tr w) :
    Staffed walk meddle start (tr ++ w.shownByNewest walk) (w.stepNewest walk) := by
  unfold shownByNewest World.stepNewest
  cases w.live with
  | nil => simpa using staffed
  | cons i older =>
    cases hstep : w.step walk i true with
    | none => simpa [hstep] using staffed
    | some next => simpa [hstep] using staffed.step hstep

/-- A move goes on with the run, if the system never refuses a thread. -/
private theorem Staffed.advance (staffed : Staffed walk meddle start tr w)
    {move : Option (Move (Flagged σ))}
    (within : ∀ change, move = some (.outside change) → ∀ s, meddle s (change s))
    (rooms : ∀ i room, move = some (.thread i room) → room = true) :
    Staffed walk meddle start (tr ++ w.shownBy walk move) (w.advance walk move) := by
  rcases move with _ | ⟨i, room⟩ | change
  · exact staffed.stepNewest
  · obtain rfl := rooms i room rfl
    unfold shownBy World.advance
    cases hstep : w.step walk i true with
    | none => simpa [hstep] using staffed.stepNewest
    | some next => simpa [hstep] using staffed.step hstep
  · unfold shownBy
    rw [List.append_nil]
    exact staffed.outside (within change rfl _)

/-- Following a schedule under which there is always room is such a run. -/
theorem staffed_drive (within : schedule.Within meddle)
    (rooms : ∀ now i room, schedule now = some (.thread i room) → room = true)
    (staffed : Staffed walk meddle start tr w) (budget now : Nat) :
    Staffed walk meddle start (tr ++ w.trail walk schedule budget now)
      (w.drive walk schedule budget now) := by
  induction budget generalizing tr w now with
  | zero => simpa [trail, drive] using staffed
  | succ budget ih =>
    unfold drive trail
    cases w.result? with
    | some r => simpa using staffed
    | none =>
      rw [← List.append_assoc]
      exact ih (staffed.advance (within now) (rooms now)) (now + 1)

end Drive

/-- What the counters of a walk with some number of slots say while its threads stand in a line. -/
structure Counts (threads : Nat) (w : World σ ν) : Prop where
  /-- Each slot was handed out for another worker. -/
  spawned : w.shared.slots.spawned + 1 = w.threads.size + w.granted
  /-- All of them were held at once. -/
  peak : w.shared.slots.peak + 1 = w.threads.size + w.noted
  now : ∀ (i : Nat) (t : Thread σ ν) d now, w.threads[i]? = some t →
    t.task = .claiming d (.counted now) → now = w.threads.size
  /-- A claim was refused when there were as many workers as slots, and there are no more. -/
  full : 0 < w.shared.slots.inlined → w.threads.size = threads + 1
  refused : ∀ (i : Nat) (t : Thread σ ν) d, w.threads[i]? = some t →
    t.task = .claiming d .refused → w.threads.size = threads + 1

/-- Nothing is counted at the start. -/
theorem Counts.initial (plan : WalkPlan) (root : Dir) (store : Flagged σ) (state : ν) :
    (World.initial plan root store state).Counts plan.threads where
  spawned := rfl
  peak := rfl
  now i t d now ht htask := by
    obtain ⟨-, rfl⟩ := eq_of_initial ht
    cases htask
  full h := absurd h (Nat.lt_irrefl 0)
  refused i t d ht htask := by
    obtain ⟨-, rfl⟩ := eq_of_initial ht
    cases htask

section Step

variable {m : Moved σ ν} (ht : w.threads[i]? = some t)
  (h : t.Does walk (w.others i true) w.shared m)

include ht h

/-- A slot is counted as handed out just before its worker starts. -/
private theorem Counts.spawned_update (counts : w.Counts threads) :
    m.shared.slots.spawned + 1 = (w.update i m).threads.size + (w.update i m).granted := by
  have htally := tally_update_add (fun _ t => t.task.granted) ht (fun _ _ => rfl) m
  have hgranted := h.granted rfl
  have hspawned := counts.spawned
  simp only [granted] at hspawned ⊢
  rw [size_update]
  omega

/-- On a chain the peak counts one slot for each worker, because none of them ends before the next
one starts. -/
private theorem Counts.peak_update (counts : w.Counts threads) (file : w.SingleFile) :
    m.shared.slots.peak + 1 = (w.update i m).threads.size + (w.update i m).noted := by
  have htally := tally_update_add (fun _ t => t.task.noted) ht (fun _ _ => rfl) m
  have hpeak := counts.peak
  simp only [noted] at hpeak ⊢
  rw [size_update]
  rcases h.noted rfl with ⟨d, now, htask, htask', hchild, hraised⟩ | hkept
  · -- The claim is the only one, so the peak was the number of the workers before it.
    have hdown := Thread.not_upward_of_claiming htask
    have hothers : (w.tally fun _ (t : Thread σ ν) => t.task.noted) = t.task.noted :=
      tally_eq_of_others ht fun j u hj hu => Nat.eq_zero_of_le_zero <|
        (Task.nothing_of_upward (file.others ht hdown hj hu).task).1 ▸ u.task.noted_le_claimed
    have hzero : t.task.noted = 0 := by rw [htask]; rfl
    have hone : m.thread.task.noted = 1 := by rw [htask']; rfl
    have hnow := counts.now i t d now ht htask
    rw [hchild, hraised]
    simp only [Option.isSome_none, Bool.false_eq_true, if_false]
    omega
  · omega

/-- No slot is handed out once a claim was refused. -/
private theorem Counts.full_update (counts : w.Counts threads) (file : w.SingleFile) (kin : w.Kin)
    (audit : w.Audit threads) (inlined : 0 < m.shared.slots.inlined) :
    (w.update i m).threads.size = threads + 1 := by
  have hfull : w.threads.size = threads + 1 := by
    rcases h.inlined inlined with hbefore | ⟨d, hrefused⟩
    · exact counts.full hbefore
    · exact counts.refused i t d ht hrefused
  have hchild : ¬ m.child.isSome := by
    intro hchild
    have hdown : ¬ t.Upward := fun hup => by simp [(h.upward hup).2] at hchild
    have htokens := file.tokens kin audit ht hdown
    have hroom := audit.capacity ▸ audit.room
    rw [h.claimed_of_child hchild] at htokens
    omega
  rw [size_update, if_neg hchild, Nat.add_zero, hfull]

/-- A step keeps the counts. -/
theorem Counts.step (counts : w.Counts threads) (file : w.SingleFile) (kin : w.Kin)
    (audit : w.Audit threads) : (w.update i m).Counts threads := by
  refine ⟨?spawned, ?peak, ?now, ?full, ?refused⟩
  case spawned =>
    rw [shared_update]
    exact counts.spawned_update ht h
  case peak =>
    rw [shared_update]
    exact counts.peak_update ht h file
  case full =>
    rw [shared_update]
    exact counts.full_update ht h file kin audit
  case now =>
    intro j u d now hu hcounted
    obtain ⟨hsize, rfl | hold⟩ := file.of_claiming ht h hu hcounted
    · obtain ⟨htaken, rfl⟩ := h.counted hcounted
      have hdown := Thread.not_upward_of_claiming htaken
      have hheld := file.held kin audit ht hdown
      have hzero : t.task.counted = 0 := by rw [htaken]; rfl
      omega
    · rw [hsize]
      exact counts.now j u d now hold hcounted
  case refused =>
    intro j u d hu hrefused
    obtain ⟨hsize, rfl | hold⟩ := file.of_claiming ht h hu hrefused
    · obtain ⟨hstart, hfull⟩ := h.refused hrefused
      have hdown := Thread.not_upward_of_claiming hstart
      have htokens := file.tokens kin audit ht hdown
      have hzero : t.task.claimed = 0 := by rw [hstart]; rfl
      have hcapacity := audit.capacity
      have hroom := audit.room
      have hnone : w.shared.slots.capacity ≤ w.shared.slots.tokens := by
        simpa [Slots.hasRoom] using hfull
      omega
    · rw [hsize]
      exact counts.refused j u d hold hrefused

end Step

/-- On a chain the counts are right throughout. -/
theorem Staffed.counts {plan : WalkPlan}
    (staffed : Staffed walk meddle (.initial plan root store state) tr w) (agrees : tr.Agrees f)
    (line : ∀ d ∈ f.dirs root, FilesFirst (f.listing d.inode)) : w.Counts plan.threads := by
  induction staffed with
  | nil => exact .initial plan root store state
  | outside _ _ ih =>
    exact ⟨(ih agrees).spawned, (ih agrees).peak, (ih agrees).now, (ih agrees).full,
      (ih agrees).refused⟩
  | step staffed hstep ih =>
    have hrun := staffed.run
    have hkin := (Kin.initial plan root store state).of_run hrun
    have haudit := (Audit.initial plan root store state).of_run (.initial ..) hrun
    obtain ⟨t, m, ht, hdoes, rfl, rfl⟩ := step_eq_some hstep
    exact (ih agrees.init).step ht hdoes (hrun.singleFile agrees.init line) hkin haudit

/-- When a walk has ended its counters make up the subdirectories whose visit has gone well.  If it
has ended well, and nobody has lowered the flag, these are all below its root.  In a subtree that
goes down in one line the first of them, as many as there are slots, were left to workers, which
were all at work at once, and the rest were walked inline. -/
theorem Staffed.dispatched
    (staffed : Staffed walk meddle (.initial walk.plan root store state) tr w)
    (agrees : tr.Agrees f) {r : Outcome Unit} (done : w.result? = some r) :
    w.shared.slots.spawned + w.shared.slots.inlined = tr.dirVisits ∧
    (walk.metadata.Within Flagged.Keeps → (∀ s s', meddle s s' → s.Keeps s') → r = .ok () →
      tr.dirVisits = (f.below root.inode).countP (·.kind.isDir)) ∧
    ((∀ d ∈ f.dirs root, FilesFirst (f.listing d.inode)) →
      w.shared.slots.spawned = min walk.plan.threads tr.dirVisits ∧
      w.shared.slots.peak = min walk.plan.threads tr.dirVisits ∧
      w.shared.slots.inlined = tr.dirVisits - min walk.plan.threads tr.dirVisits) := by
  have hrun := staffed.run
  have hsome : w.result?.isSome := by simp [done]
  have hdecided : w.shared.slots.spawned + w.shared.slots.inlined = tr.dirVisits :=
    hrun.decided hsome
  refine ⟨hdecided, ?well, ?inline⟩
  case well =>
    intro requests meddled hok
    exact hrun.dirVisits_of_ok requests meddled agrees (done.trans (congrArg some hok))
  case inline =>
    intro line
    have hkin := (Kin.initial walk.plan root store state).of_run hrun
    have hpeak_le := ((Audit.initial walk.plan root store state).of_run (.initial ..) hrun).peak
    obtain ⟨hspawned, hpeak, -, hfull, -⟩ := staffed.counts agrees line
    have hgranted : w.granted = 0 := hkin.tally_of_result _ hsome fun _ _ _ _ => rfl
    have hnoted : w.noted = 0 := hkin.tally_of_result _ hsome fun _ _ _ _ => rfl
    rcases Nat.eq_zero_or_pos w.shared.slots.inlined with hnone | hinlined
    · omega
    · have := hfull hinlined
      omega

end World

/-- Of the two subdirectories of a line one was left to the only worker and the other was walked
inline, where the walk was cut short.  The walk that ends well has met its only subdirectory. -/
theorem World.Staffed.dispatched_line :
    (line .line 45).shared.slots.spawned = 1 ∧ (line .line 45).shared.slots.peak = 1 ∧
      (line .line 45).shared.slots.inlined = 1 ∧
      (oneDir 31).shared.slots.spawned + (oneDir 31).shared.slots.inlined =
        (Forest.oneDir.below rootInode).countP (·.kind.isDir) := by
  have hcut : (line .line 45).result? =
      some (.error (.failed (.workerDied "walker-4" "boom"))) := by
    decide +kernel
  have hwell : (oneDir 31).result? = some (.ok ()) := by decide +kernel
  have hvisits : (Trace.line .line 45).dirVisits = 2 := by decide +kernel
  have hnobody : Schedule.Within .newestFirst fun _ _ : Flagged (List String) => False :=
    fun _ _ h => (by cases h)
  have hrooms : ∀ now i room,
      (Schedule.newestFirst : Schedule (Flagged (List String))) now = some (.thread i room) →
        room = true := fun _ _ _ h => (by cases h)
  have hline : ∀ d ∈ Forest.line.dirs ⟨2, 1, "t"⟩, FilesFirst (Forest.line.listing d.inode) := by
    decide
  have hstaffed : Staffed .line (fun _ _ => False) (line .line 0) (Trace.line .line 45)
      (line .line 45) := staffed_drive hnobody hrooms .nil 45 0
  have hstaffed' : Staffed .oneDir (fun _ _ => False) (oneDir 0)
      ((oneDir 0).trail .oneDir .newestFirst 31 0) (oneDir 31) :=
    staffed_drive hnobody hrooms .nil 31 0
  obtain ⟨-, -, hcounts⟩ :=
    hstaffed.dispatched (hstaffed.run.agrees_of_answers Walk.answers_line) hcut
  obtain ⟨hdecided, hall, -⟩ :=
    hstaffed'.dispatched (hstaffed'.run.agrees_of_answers Walk.answers_oneDir) hwell
  obtain ⟨hspawned, hpeak, hinlined⟩ := hcounts hline
  rw [hvisits] at hspawned hpeak hinlined
  refine ⟨hspawned, hpeak, hinlined, hdecided.trans ?_⟩
  exact hall (Table.metadata_within _) (fun _ _ h => h.elim) rfl

end ShardSweep
