import Mathlib.Algebra.BigOperators.Group.Finset.Piecewise
import Mathlib.Algebra.Order.BigOperators.Group.Finset
import ShardSweep.Proofs.Walk.Kinship
import ShardSweep.Rehearsal.Recorder
import ShardSweep.Rehearsal.Table

/-!
# How many threads a walk has

Every token that is taken belongs to one worker that has not ended, or to one claim whose
worker has not been started.  The gauge counts the same slots, but a claim is counted only
after its token was taken, and a slot that is given back is struck off before its token
is returned.  So the gauge never runs ahead of the tokens, and the tokens never exceed the
capacity, whatever the threads and the system do in between.

A worker gives its slot back after everything it has started has ended, and so on down:
what a slot was taken for has come to its end by then, also if the worker dies.  The slots
that are taken are the tokens: a worker has ended once its token is back, though the thread
that ran it may live a moment longer.

* `World.tally_update`: a count over the threads changes with the thread that takes a step;
* `World.Audit`: both counters are accounted for, thread by thread;
* `World.Run.ended_of_descends`: whoever a finished thread has started has ended;
* `World.Run.bounded`: threads, requests and slots of a walk are bounded throughout, and
  no slot is left taken.
-/

namespace ShardSweep

variable {σ ν : Type}

/-- Tokens that a claim has taken. -/
def Claim.tokens : Claim → Nat
  | .start => 0
  | .taken => 1
  | .counted _ => 1
  | .noted => 1
  | .refused => 0

/-- Those of them that the gauge has counted. -/
def Claim.held : Claim → Nat
  | .start => 0
  | .taken => 0
  | .counted _ => 1
  | .noted => 1
  | .refused => 0

/-- What the gauge still counts of a slot that is given back. -/
def Release.held : Release → Nat
  | .start => 1
  | .lowered => 0

namespace Task

/-- Requests under way. -/
def requests : Task σ ν → Nat
  | .listing _ _ => 1
  | .calling _ _ _ _ => 1
  | _ => 0

/-- A thread that has not ended. -/
def alive : Task σ ν → Nat
  | .ended _ => 0
  | _ => 1

/-- A thread that has not ended, and whose slot the gauge has not let go. -/
def busy : Task σ ν → Nat
  | .releasing release _ => release.held
  | .ended _ => 0
  | _ => 1

/-- Tokens taken for a worker that has not been started. -/
def claimed : Task σ ν → Nat
  | .claiming _ claim => claim.tokens
  | .spawning _ => 1
  | .returning _ _ => 1
  | _ => 0

/-- Those of them that the gauge has counted. -/
def counted : Task σ ν → Nat
  | .claiming _ claim => claim.held
  | .spawning _ => 1
  | .returning _ release => release.held
  | _ => 0

/-- Nothing is left to do but to give the slot back. -/
def Finished : Task σ ν → Prop
  | .releasing _ _ => True
  | .ended _ => True
  | _ => False

/-- Only a thread that has not ended asks for anything. -/
theorem requests_le_alive (task : Task σ ν) : task.requests ≤ task.alive := by
  cases task <;> simp [requests, alive]

/-- A thread has ended or not. -/
theorem alive_le_one (task : Task σ ν) : task.alive ≤ 1 := by
  cases task <;> simp [alive]

/-- The gauge lets go of a slot before its thread ends. -/
theorem busy_le_alive (task : Task σ ν) : task.busy ≤ task.alive := by
  cases task with
  | releasing r result => cases r <;> simp [busy, alive, Release.held]
  | _ => simp [busy, alive]

/-- The gauge counts a claim after its token was taken. -/
theorem counted_le_claimed (task : Task σ ν) : task.counted ≤ task.claimed := by
  cases task with
  | claiming d c => cases c <;> simp [counted, claimed, Claim.held, Claim.tokens]
  | returning d r => cases r <;> simp [counted, claimed, Release.held]
  | _ => simp [counted, claimed]

/-- A thread that has ended has no token, and none that it took for another. -/
theorem nothing_of_ended {task : Task σ ν} {r : Outcome Unit} (h : task.result? = some r) :
    task.alive = 0 ∧ task.claimed = 0 ∧ task.Finished := by
  cases task with
  | ended => exact ⟨rfl, rfl, trivial⟩
  | _ => cases h

end Task

section Onward

variable (site : Site)

@[simp] theorem Site.alive_onward : (site.onward : Task σ ν).alive = 1 :=
  site.onward_ind (P := fun task => task.alive = 1) (fun _ => rfl) rfl

@[simp] theorem Site.busy_onward : (site.onward : Task σ ν).busy = 1 :=
  site.onward_ind (P := fun task => task.busy = 1) (fun _ => rfl) rfl

@[simp] theorem Site.claimed_onward : (site.onward : Task σ ν).claimed = 0 :=
  site.onward_ind (P := fun task => task.claimed = 0) (fun _ => rfl) rfl

@[simp] theorem Site.counted_onward : (site.onward : Task σ ν).counted = 0 :=
  site.onward_ind (P := fun task => task.counted = 0) (fun _ => rfl) rfl

end Onward

/-- The counters go along with one party, whose tokens go from `a` to `a'` and what the gauge
counts of them from `b` to `b'`. -/
structure Slots.Shift (s s' : Slots) (a a' b b' : Nat) : Prop where
  tokens : s'.tokens + a = s.tokens + a'
  held : s'.held + b = s.held + b'
  capacity : s'.capacity = s.capacity
  room : s.tokens ≤ s.capacity → s'.tokens ≤ s'.capacity

/-- Nothing that counts is touched. -/
theorem Slots.Shift.refl (s : Slots) (a b : Nat) : s.Shift s a a b b :=
  ⟨rfl, rfl, rfl, id⟩

/-- What else the party has may be counted along. -/
theorem Slots.Shift.frame {s s' : Slots} {a a' b b' : Nat} (h : s.Shift s' a a' b b')
    (c d : Nat) : s.Shift s' (c + a) (c + a') (d + b) (d + b') where
  tokens := by have := h.tokens; omega
  held := by have := h.held; omega
  capacity := h.capacity
  room := h.room

namespace Claim

variable {c c' : Claim} {s s' : Slots}

/-- From one stage of a claim to the next each counter moves by what the stages differ in. -/
theorem shift_stage (h : c.step s = (.stage c', s')) :
    s.Shift s' c.tokens c'.tokens c.held c'.held := by
  cases does_of_step h with
  | take room =>
    have hlt : s.tokens < s.capacity := by simpa [Slots.hasRoom] using room
    exact ⟨rfl, rfl, rfl, fun _ => hlt⟩
  | miss => exact .refl s _ _
  | count | note => exact ⟨rfl, rfl, rfl, id⟩

/-- A claim that is granted leaves its token and its place on the gauge to the worker. -/
theorem shift_granted (h : c.step s = (.granted, s')) : s.Shift s' c.tokens 1 c.held 1 := by
  cases does_of_step h
  exact ⟨rfl, rfl, rfl, id⟩

/-- A claim that is refused leaves nothing. -/
theorem shift_inline (h : c.step s = (.inline, s')) : s.Shift s' c.tokens 0 c.held 0 := by
  cases does_of_step h
  exact ⟨rfl, rfl, rfl, id⟩

end Claim

namespace Release

variable {r r' : Release} {s s' : Slots}

/-- The gauge is lowered while the token is still out. -/
theorem shift_stage (h : r.step s = (some r', s')) (held : r.held ≤ s.held) :
    s.Shift s' 1 1 r.held r'.held := by
  cases r with
  | start =>
    cases h
    exact ⟨rfl, Nat.sub_add_cancel held, rfl, id⟩
  | lowered => cases h

/-- The token is returned when the gauge has let go. -/
theorem shift_last (h : r.step s = (none, s')) (tokens : 1 ≤ s.tokens) :
    s.Shift s' 1 0 r.held 0 := by
  cases r with
  | start => cases h
  | lowered =>
    cases h
    exact ⟨Nat.sub_add_cancel tokens, rfl, rfl, fun hle => Nat.le_trans (Nat.sub_le _ 1) hle⟩

/-- A release touches neither the peak nor what is counted of the claims. -/
theorem counters_step {next : Option Release} (h : r.step s = (next, s')) :
    s'.spawned = s.spawned ∧ s'.inlined = s.inlined ∧ s'.peak = s.peak := by
  cases r <;> cases h <;> exact ⟨rfl, rfl, rfl⟩

end Release

namespace Thread

/-- Tokens that thread `i` accounts for: its own if it is a worker, and the claimed one. -/
def tokens (i : ThreadId) (t : Thread σ ν) : Nat :=
  (if i = 0 then 0 else t.task.alive) + t.task.claimed

/-- Those of them that the gauge counts. -/
def held (i : ThreadId) (t : Thread σ ν) : Nat :=
  (if i = 0 then 0 else t.task.busy) + t.task.counted

/-- A worker starts with its token. -/
theorem tokens_fresh {i : ThreadId} (worker : i ≠ 0) (d : Dir) :
    (Thread.fresh d : Thread σ ν).tokens i = 1 := by
  rw [tokens, if_neg worker]
  rfl

/-- The gauge has counted a worker before it starts. -/
theorem held_fresh {i : ThreadId} (worker : i ≠ 0) (d : Dir) :
    (Thread.fresh d : Thread σ ν).held i = 1 := by
  rw [held, if_neg worker]
  rfl

variable {walk : Walk σ ν} {o : Others} {t : Thread σ ν} {s : Shared σ ν} {m : Moved σ ν}

/-- With a step the counters change as what its thread accounts for, and a worker that was
started takes its token along. -/
theorem Does.shift (h : Does walk o t s m) {i : ThreadId} (caller : o.caller = (i == 0))
    (placed : t.task.Placed i t.stack) (tokens : t.tokens i ≤ s.slots.tokens)
    (held : t.held i ≤ s.slots.held) :
    s.slots.Shift m.shared.slots (t.tokens i)
      (m.thread.tokens i + if m.child.isSome then 1 else 0) (t.held i)
      (m.thread.held i + if m.child.isSome then 1 else 0) := by
  unfold Thread.tokens Thread.held at *
  cases h with
  | claim stage => exact (Claim.shift_stage stage).frame _ _
  | grant granted => exact (Claim.shift_granted granted).frame _ _
  | stayInline refused => exact (Claim.shift_inline refused).frame _ _
  | «return» stage =>
    have hheld := Nat.le_trans (Nat.le_add_left _ _) held
    exact (Release.shift_stage stage hheld).frame _ _
  | endReturn last =>
    have htokens := Nat.le_trans (Nat.le_add_left _ _) tokens
    exact (Release.shift_last last htokens).frame _ _
  | release stage =>
    have hi : i ≠ 0 := placed.1
    simp only [if_neg hi] at held ⊢
    exact Release.shift_stage stage held
  | endRelease last =>
    have hi : i ≠ 0 := placed.1
    simp only [if_neg hi] at tokens ⊢
    exact Release.shift_last last tokens
  | finishActing =>
    rw [Site.alive_onward, Site.busy_onward, Site.claimed_onward, Site.counted_onward]
    exact .refl _ _ _
  | _ =>
    -- The slots stay as they are, and so does what the thread accounts for.
    refine ⟨?_, ?_, rfl, id⟩ <;>
      simp_all [Task.claimed, Task.counted, Task.alive, Task.busy, Task.Placed, Release.held]

/-- A claim counts the slots that are held at that moment, its own included. -/
theorem Does.counted (h : Does walk o t s m) {d : Dir} {now : Nat}
    (counts : m.thread.task = .claiming d (.counted now)) :
    t.task = .claiming d .taken ∧ now = s.slots.held + 1 := by
  cases h with
  | claim stage =>
    cases counts
    cases Claim.does_of_step stage
    exact ⟨rfl, rfl⟩
  | finishActing =>
    have hclaimed := congrArg Task.claimed counts
    rw [Site.claimed_onward] at hclaimed
    cases hclaimed
  | _ => cases counts

/-- The peak rises to what a claim has counted and no further. -/
theorem Does.peak_le (h : Does walk o t s m) {bound : Nat} (peak : s.slots.peak ≤ bound)
    (counted : ∀ d now, t.task = .claiming d (.counted now) → now ≤ bound) :
    m.shared.slots.peak ≤ bound := by
  cases h with
  | @claim _ _ d _ _ _ _ stage =>
    cases Claim.does_of_step stage with
    | @note now => exact Nat.max_le.mpr ⟨peak, counted d now rfl⟩
    | _ => exact peak
  | grant stage => cases Claim.does_of_step stage; exact peak
  | stayInline stage => cases Claim.does_of_step stage; exact peak
  | «return» stage | endReturn stage | release stage | endRelease stage =>
    rw [(Release.counters_step stage).2.2]
    exact peak
  | _ => exact peak

/-- Whoever has finished is inside no directory and waits for nobody. -/
theorem nothing_of_finished {i : ThreadId} (placed : t.task.Placed i t.stack)
    (finished : t.task.Finished) : t.stack = [] ∧ t.waitsFor = [] := by
  obtain ⟨home, stack, task⟩ := t
  cases task with
  | releasing =>
    obtain ⟨-, rfl, -⟩ := placed
    exact ⟨rfl, rfl⟩
  | ended =>
    obtain ⟨rfl, -⟩ := placed
    exact ⟨rfl, rfl⟩
  | _ => exact finished.elim

/-- What shows that a worker was started. -/
theorem Does.of_spawned (h : Does walk o t s m) {j : ThreadId} {d : Dir}
    (spawned : m.event = .spawned j d) : j = o.fresh ∧ m.child.isSome := by
  cases h with
  | spawn | spawnOutside =>
    cases spawned
    exact ⟨rfl, rfl⟩
  | _ => cases spawned

end Thread

/-- A worker that was started counts for one. -/
theorem Moved.elim_fresh {g : Thread σ ν → Nat} (m : Moved σ ν) (one : ∀ d, g (.fresh d) = 1) :
    (m.child.elim 0 fun d => g (.fresh d)) = if m.child.isSome then 1 else 0 := by
  cases m.child with
  | none => rfl
  | some d => exact one d

namespace World

section Tally

variable (g : ThreadId → Thread σ ν → Nat)

/-- The sum over all threads of a number that may depend on which thread it is. -/
def tally (w : World σ ν) : Nat :=
  ∑ i ∈ Finset.range w.threads.size, (w.threads[i]?).elim 0 (g i)

/-- What the threads have does not depend on the store. -/
@[simp] theorem tally_withStore (w : World σ ν) (s : Flagged σ) :
    (w.withStore s).tally g = w.tally g := rfl

/-- A count that is lower for each thread is lower for all of them. -/
theorem tally_le_tally {g g' : ThreadId → Thread σ ν → Nat} {w : World σ ν}
    (le : ∀ i t, w.threads[i]? = some t → g i t ≤ g' i t) : w.tally g ≤ w.tally g' := by
  refine Finset.sum_le_sum fun i _ => ?_
  cases ht : w.threads[i]? with
  | none => exact Nat.le_refl 0
  | some t => exact le i t ht

/-- Two counts can be taken at once. -/
theorem tally_add (g g' : ThreadId → Thread σ ν → Nat) (w : World σ ν) :
    w.tally (fun i t => g i t + g' i t) = w.tally g + w.tally g' := by
  unfold tally
  rw [← Finset.sum_add_distrib]
  refine Finset.sum_congr rfl fun i _ => ?_
  cases w.threads[i]? <;> rfl

/-- One thread counts with the rest. -/
theorem le_tally {w : World σ ν} {i : Nat} {t : Thread σ ν} (ht : w.threads[i]? = some t) :
    g i t ≤ w.tally g := by
  have hle := Finset.single_le_sum (f := fun j => (w.threads[j]?).elim 0 (g j))
    (fun j _ => Nat.zero_le _) (Finset.mem_range.mpr (lt_size ht))
  rw [ht] at hle
  exact hle

/-- A count to which no thread adds anything. -/
theorem tally_eq_zero {w : World σ ν} (zero : ∀ i t, w.threads[i]? = some t → g i t = 0) :
    w.tally g = 0 := by
  refine Finset.sum_eq_zero fun i _ => ?_
  cases ht : w.threads[i]? with
  | none => rfl
  | some t => exact zero i t ht

/-- When a walk has ended nothing is left to count that ended threads do not have. -/
theorem Kin.tally_of_result {w : World σ ν} (kin : w.Kin) (done : w.result?.isSome)
    (zero : ∀ i home stack r, g i ⟨home, stack, .ended r⟩ = 0) : w.tally g = 0 := by
  refine tally_eq_zero g fun i t ht => ?_
  obtain ⟨r, hr⟩ := kin.ended_of_result done i t ht
  obtain ⟨home, stack, task⟩ := t
  cases task with
  | ended r => exact zero i home stack r
  | _ => cases hr

/-- A count changes with the thread that takes the step and with the fresh one. -/
theorem tally_update {w : World σ ν} {i : Nat} {t : Thread σ ν} (ht : w.threads[i]? = some t) :
    ∃ rest, w.tally g = g i t + rest ∧ ∀ m : Moved σ ν, (w.update i m).tally g =
      g i m.thread + (m.child.elim 0 fun d => g w.threads.size (.fresh d)) + rest := by
  have hi := Finset.mem_range.mpr (lt_size ht)
  refine ⟨∑ j ∈ (Finset.range w.threads.size).erase i, (w.threads[j]?).elim 0 (g j), ?_, ?_⟩
  · unfold tally
    rw [← Finset.add_sum_erase _ _ hi, ht]
    rfl
  · intro m
    -- The old numbers first; the fresh thread has the next one.
    have hold : ∑ j ∈ Finset.range w.threads.size, ((w.update i m).threads[j]?).elim 0 (g j) =
        g i m.thread +
          ∑ j ∈ (Finset.range w.threads.size).erase i, (w.threads[j]?).elim 0 (g j) := by
      rw [← Finset.add_sum_erase _ _ hi, getElem?_update ht, if_pos rfl]
      refine congrArg (g i m.thread + ·) (Finset.sum_congr rfl fun j hj => ?_)
      obtain ⟨hne, hlt⟩ := Finset.mem_erase.mp hj
      rw [getElem?_update ht, if_neg hne, if_neg (Nat.ne_of_lt (Finset.mem_range.mp hlt))]
    unfold tally
    rw [size_update]
    cases hchild : m.child with
    | none => simpa using hold
    | some d =>
      have hfresh : (w.update i m).threads[w.threads.size]? = some (.fresh d) := by
        rw [getElem?_update ht, if_neg (Nat.ne_of_gt (lt_size ht)), if_pos rfl, hchild]
        rfl
      rw [Option.isSome_some, if_pos rfl, Finset.sum_range_succ, hold, hfresh]
      exact Nat.add_right_comm _ _ _

/-- A count that a fresh thread adds nothing to changes with the thread that takes the step. -/
theorem tally_update_add {w : World σ ν} {i : Nat} {t : Thread σ ν} (ht : w.threads[i]? = some t)
    (fresh : ∀ j d, g j (.fresh d) = 0) (m : Moved σ ν) :
    (w.update i m).tally g + g i t = w.tally g + g i m.thread := by
  obtain ⟨rest, hrest, hupdate⟩ := tally_update g ht
  have hchild : (m.child.elim 0 fun d => g w.threads.size (.fresh d)) = 0 := by
    cases m.child with
    | none => rfl
    | some d => exact fresh _ d
  rw [hupdate m, hchild, hrest]
  omega

end Tally

/-- Workers that have not ended.  A worker ends as its token goes back, which is the last thing it
does for the walk; its thread may live a moment longer, and is not counted then. -/
def workers (w : World σ ν) : Nat :=
  w.tally fun i t => if i = 0 then 0 else t.task.alive

/-- Workers whose slot the gauge has not let go. -/
def busy (w : World σ ν) : Nat :=
  w.tally fun i t => if i = 0 then 0 else t.task.busy

/-- Tokens taken for workers that have not been started. -/
def claimed (w : World σ ν) : Nat :=
  w.tally fun _ t => t.task.claimed

/-- Those of them that the gauge has counted. -/
def counted (w : World σ ν) : Nat :=
  w.tally fun _ t => t.task.counted

/-- Requests under way. -/
def requests (w : World σ ν) : Nat :=
  w.tally fun _ t => t.task.requests

/-- Both counters of the slots are accounted for, and no claim has counted more slots than
there are. -/
structure Audit (threads : Nat) (w : World σ ν) : Prop where
  tokens : w.shared.slots.tokens = w.workers + w.claimed
  held : w.shared.slots.held = w.busy + w.counted
  capacity : w.shared.slots.capacity = threads
  room : w.shared.slots.tokens ≤ w.shared.slots.capacity
  peak : w.shared.slots.peak ≤ threads
  noted : ∀ (i : Nat) (t : Thread σ ν) d now, w.threads[i]? = some t →
    t.task = .claiming d (.counted now) → now ≤ threads

variable {walk : Walk σ ν} {w w' : World σ ν} {threads : Nat}

/-- The tokens of the threads are those of the workers and those just claimed. -/
theorem tally_tokens (w : World σ ν) : w.tally Thread.tokens = w.workers + w.claimed :=
  tally_add _ _ w

/-- Likewise what the gauge has counted. -/
theorem tally_held (w : World σ ν) : w.tally Thread.held = w.busy + w.counted :=
  tally_add _ _ w

/-- The gauge counts no worker that has ended. -/
theorem busy_le_workers (w : World σ ν) : w.busy ≤ w.workers := by
  refine tally_le_tally fun i t _ => ?_
  split
  · exact Nat.le_refl 0
  · exact t.task.busy_le_alive

/-- The gauge counts a claim only after its token was taken. -/
theorem counted_le_claimed (w : World σ ν) : w.counted ≤ w.claimed :=
  tally_le_tally fun _ t _ => t.task.counted_le_claimed

/-- Besides the workers there is the calling thread only. -/
theorem tally_le_workers_add_one {g : ThreadId → Thread σ ν → Nat} {w : World σ ν}
    (le : ∀ i t, w.threads[i]? = some t → g i t ≤ t.task.alive) : w.tally g ≤ w.workers + 1 := by
  have hcaller : w.tally (fun i _ => if i = 0 then 1 else 0) ≤ 1 := by
    calc w.tally (fun i _ => if i = 0 then 1 else 0)
        ≤ ∑ i ∈ Finset.range w.threads.size, if i = 0 then 1 else 0 := by
          refine Finset.sum_le_sum fun i _ => ?_
          cases w.threads[i]? with
          | none => exact Nat.zero_le _
          | some t => exact Nat.le_refl _
      _ ≤ 1 := by
          rw [Finset.sum_ite_eq']
          split <;> omega
  have hsplit : w.tally g ≤ w.tally fun i t =>
      (if i = 0 then 0 else t.task.alive) + if i = 0 then 1 else 0 := by
    refine tally_le_tally fun i t ht => ?_
    have halive := le i t ht
    have hone := t.task.alive_le_one
    split <;> omega
  rw [tally_add] at hsplit
  exact Nat.le_trans hsplit (Nat.add_le_add_left hcaller _)

/-- Each thread is at one request at most. -/
theorem requests_le (w : World σ ν) : w.requests ≤ w.workers + 1 :=
  tally_le_workers_add_one fun _ t _ => t.task.requests_le_alive

/-- The calling thread alone has no slot. -/
theorem Audit.initial (plan : WalkPlan) (root : Dir) (store : Flagged σ) (state : ν) :
    (World.initial plan root store state).Audit plan.threads where
  tokens := rfl
  held := rfl
  capacity := rfl
  room := Nat.zero_le _
  peak := Nat.zero_le _
  noted i t d now ht htask := by
    obtain ⟨-, rfl⟩ := eq_of_initial ht
    cases htask

/-- While a token waits to be counted the gauge is below the capacity. -/
private theorem Audit.held_lt (audit : w.Audit threads) {i : Nat} {t : Thread σ ν} {d : Dir}
    (ht : w.threads[i]? = some t) (htask : t.task = .claiming d .taken) :
    w.shared.slots.held < threads := by
  have hlt : w.counted < w.claimed := by
    unfold counted claimed tally
    refine Finset.sum_lt_sum (fun j _ => ?_) ⟨i, Finset.mem_range.mpr (lt_size ht), ?_⟩
    · cases w.threads[j]? with
      | none => exact Nat.le_refl 0
      | some u => exact u.task.counted_le_claimed
    · rw [ht]
      simp [htask, Task.counted, Task.claimed, Claim.held, Claim.tokens]
  have := audit.tokens
  have := audit.held
  have := audit.capacity
  have := audit.room
  have := w.busy_le_workers
  omega

/-- A step moves the counters as it moves the shares of the threads. -/
theorem Audit.step (audit : w.Audit threads) (kin : w.Kin) {i : Nat} {room : Bool} {e : Event}
    (h : w.step walk i room = some (e, w')) : w'.Audit threads := by
  obtain ⟨t, m, ht, hdoes, rfl, rfl⟩ := step_eq_some h
  have htokens := le_tally Thread.tokens ht
  have hheld := le_tally Thread.held ht
  rw [tally_tokens, ← audit.tokens] at htokens
  rw [tally_held, ← audit.held] at hheld
  obtain ⟨hstokens, hsheld, hcapacity, hroom⟩ := hdoes.shift rfl (kin.placed i t ht) htokens hheld
  have hsize : w.threads.size ≠ 0 := Nat.ne_of_gt kin.caller
  obtain ⟨rest, htally, hupdate⟩ := tally_update Thread.tokens ht
  obtain ⟨rest', htally', hupdate'⟩ := tally_update Thread.held ht
  rw [tally_tokens, ← audit.tokens] at htally
  rw [tally_held, ← audit.held] at htally'
  refine ⟨?_, ?_, ?_, ?_, ?_, ?_⟩
  · rw [shared_update, ← tally_tokens, hupdate, m.elim_fresh (Thread.tokens_fresh hsize)]
    omega
  · rw [shared_update, ← tally_held, hupdate', m.elim_fresh (Thread.held_fresh hsize)]
    omega
  · rw [shared_update, hcapacity]
    exact audit.capacity
  · rw [shared_update]
    exact hroom audit.room
  · rw [shared_update]
    exact hdoes.peak_le audit.peak fun d now htask => audit.noted i t d now ht htask
  · intro j u d now hu
    refine forall_update (P := fun _ u => ∀ d now, u.task = .claiming d (.counted now) →
      now ≤ threads) ht ?_ (fun _ _ _ _ htask => nomatch htask)
      (fun j u _ hu d now => audit.noted j u d now hu) j u hu d now
    intro d now htask
    obtain ⟨htaken, rfl⟩ := hdoes.counted htask
    exact audit.held_lt ht htaken

/-- So both counters are accounted for throughout. -/
theorem Audit.of_run {meddle : Flagged σ → Flagged σ → Prop} {start : World σ ν} {tr : Trace}
    (audit : start.Audit threads) (kin : start.Kin) (run : Run walk meddle start tr w) :
    w.Audit threads := by
  induction run with
  | nil => exact audit
  | step run hstep ih => exact ih.step (kin.of_run run) hstep
  | outside _ _ ih => exact ⟨ih.tokens, ih.held, ih.capacity, ih.room, ih.peak, ih.noted⟩

end World

/-- Thread `j` was started by thread `i`, or by one that `i` has started, and so on. -/
inductive Trace.Descends (tr : Trace) (i : ThreadId) : ThreadId → Prop
  | child {j d} (started : (i, .spawned j d) ∈ tr) : Descends tr i j
  | further {j k d} (descends : Descends tr i j) (started : (j, .spawned k d) ∈ tr) :
      Descends tr i k

namespace World

variable {walk : Walk σ ν} {meddle : Flagged σ → Flagged σ → Prop} {root : Dir}
  {store : Flagged σ} {state : ν} {tr : Trace} {w : World σ ν}

/-- Who was started is waited for or has ended. -/
private theorem Run.awaited_of_spawned {start : World σ ν} (kin : start.Kin)
    (run : Run walk meddle start tr w) {i j : ThreadId} {d : Dir}
    (spawned : (i, .spawned j d) ∈ tr) :
    ∃ t, w.threads[i]? = some t ∧ (j ∈ t.waitsFor ∨ (w.ended? j).isSome) := by
  induction run with
  | nil => cases spawned
  | outside _ _ ih => exact ih spawned
  | @step tr w w' k room e run hstep ih =>
    obtain ⟨t, m, ht, hdoes, rfl, rfl⟩ := step_eq_some hstep
    have hplaced := (kin.of_run run).placed k t ht
    rcases List.mem_append.mp spawned with hold | hnew
    · obtain ⟨u, hu, hawaited⟩ := ih hold
      have hended : (w.ended? j).isSome → ((w.update k m).ended? j).isSome := by
        intro hj
        obtain ⟨x, hx⟩ := Option.isSome_iff_exists.mp hj
        exact Option.isSome_of_eq_some (ended?_mono ht hdoes.result?_eq_none m hx)
      by_cases hik : i = k
      · subst hik
        obtain rfl : u = t := Option.some.inj (hu.symm.trans ht)
        refine ⟨m.thread, getElem?_update_self ht m, ?_⟩
        rcases hawaited with hj | hj
        · exact (hdoes.waitsFor_kept hplaced hj).imp_right hended
        · exact .inr (hended hj)
      · exact ⟨u, getElem?_update_of_ne ht m hu hik, hawaited.imp_right hended⟩
    · obtain ⟨rfl, hevent⟩ := Prod.mk.inj (List.mem_singleton.mp hnew)
      obtain ⟨rfl, hchild⟩ := hdoes.of_spawned hevent.symm
      exact ⟨m.thread, getElem?_update_self ht m, .inl (hdoes.fresh_mem_waitsFor hplaced hchild)⟩

/-- Once a thread has nothing left to do, whatever it has started has ended, and whatever that
has started. -/
theorem Run.ended_of_descends {start : World σ ν} (kin : start.Kin)
    (run : Run walk meddle start tr w) {i j : ThreadId} {t : Thread σ ν}
    (ht : w.threads[i]? = some t) (finished : t.task.Finished) (descends : tr.Descends i j) :
    (w.ended? j).isSome := by
  have hchildren : ∀ {i t}, w.threads[i]? = some t → t.task.Finished →
      ∀ {j d}, (i, Event.spawned j d) ∈ tr → (w.ended? j).isSome := by
    intro i t ht finished j d hspawned
    obtain ⟨u, hu, hawaited⟩ := run.awaited_of_spawned kin hspawned
    obtain rfl : u = t := Option.some.inj (hu.symm.trans ht)
    have hnobody := (Thread.nothing_of_finished ((kin.of_run run).placed i u ht) finished).2
    rw [hnobody] at hawaited
    exact hawaited.resolve_left List.not_mem_nil
  induction descends with
  | child hspawned => exact hchildren ht finished hspawned
  | @further j k d _ hspawned ih =>
    obtain ⟨⟨home, result⟩, hended⟩ := Option.isSome_iff_exists.mp ih
    obtain ⟨u, hu, -, hresult⟩ := ended?_eq_some hended
    exact hchildren hu (Task.nothing_of_ended hresult).2.2 hspawned

/-- What bounds a walk with `threads` slots at a moment of its run.  A slot is held as long as its
token is out, and a worker has ended once its token is back. -/
structure Bounded (threads : Nat) (tr : Trace) (w : World σ ν) : Prop where
  /-- Each token that is taken is that of one worker which has not ended, or was taken for one
  that has not been started. -/
  tokens : w.shared.slots.tokens = w.workers + w.claimed
  /-- Workers and slots are at most as many as the walk may have. -/
  workers : w.workers ≤ w.shared.slots.tokens ∧ w.shared.slots.tokens ≤ threads
  /-- The gauge counts a worker until that begins to give its slot back. -/
  held : w.busy ≤ w.shared.slots.held ∧ w.shared.slots.held ≤ w.shared.slots.tokens
  /-- The calling thread asks as well. -/
  requests : w.requests ≤ threads + 1
  /-- What is told of a walk afterwards is within its bound. -/
  peak : w.shared.slots.peak ≤ threads
  /-- A thread gives its slot back when it is inside no directory any more, and whatever it has
  started has ended. -/
  finished : ∀ (i : Nat) (t : Thread σ ν), w.threads[i]? = some t → t.task.Finished →
    t.stack = [] ∧ ∀ j, tr.Descends i j → (w.ended? j).isSome
  /-- Whatever the outcome, no thread and no slot is left. -/
  released : ∀ r, w.result? = some r →
    w.live = [] ∧ w.shared.slots.tokens = 0 ∧ w.shared.slots.held = 0

/-- A walk is bounded at every moment of every run. -/
theorem Run.bounded (run : Run walk meddle (.initial walk.plan root store state) tr w) :
    w.Bounded walk.plan.threads tr := by
  have hkin := (Kin.initial walk.plan root store state).of_run run
  have haudit := (Audit.initial walk.plan root store state).of_run (.initial ..) run
  have htokens := haudit.tokens
  have hheld := haudit.held
  have hroom := haudit.capacity ▸ haudit.room
  have hbusy := w.busy_le_workers
  have hcounted := w.counted_le_claimed
  refine ⟨htokens, ⟨by omega, hroom⟩, ⟨by omega, by omega⟩, ?requests, haudit.peak, ?finished,
    ?released⟩
  case requests =>
    have := w.requests_le
    omega
  case finished =>
    intro i t ht finished
    exact ⟨(Thread.nothing_of_finished (hkin.placed i t ht) finished).1,
      fun j => run.ended_of_descends (.initial ..) ht finished⟩
  case released =>
    intro r hr
    have hended := hkin.ended_of_result (by simp [hr])
    have hworkers : w.workers = 0 := hkin.tally_of_result _ (by simp [hr]) fun i _ _ _ => ite_self 0
    have hclaimed : w.claimed = 0 := hkin.tally_of_result _ (by simp [hr]) fun _ _ _ _ => rfl
    refine ⟨?_, by omega, by omega⟩
    refine List.eq_nil_iff_forall_not_mem.mpr fun i hi => ?_
    obtain ⟨hsize, halive⟩ := (hkin.live i).mp hi
    obtain ⟨r, hr⟩ := hended i _ (Array.getElem?_eq_getElem hsize)
    simp [ended?, Array.getElem?_eq_getElem hsize, hr] at halive

end World

/-- A recorded walk with one slot through a root directory with one empty subdirectory. -/
def Walk.oneDir : Walk (List String) (List String) where
  metadata := Table.metadata
    ⟨[], ((∅ : Std.TreeMap Inode (List Entry)).insert 1 [⟨"a", 2, 1, .dir⟩]).insert 2 [], ∅, .quiet⟩
  visitor := recorder .quiet
  plan := ⟨1, .first, 1, Nat.one_pos, maxThreads_pos⟩

/-- The same after a number of moves, the newest thread first. -/
def World.oneDir (moves : Nat) : World (List String) (List String) :=
  (World.initial Walk.oneDir.plan ⟨1, 0, ""⟩ ⟨[], false⟩ []).drive Walk.oneDir .newestFirst moves 0

/-- The worker is at its listing. -/
theorem World.Run.bounded_oneDir :
    (World.oneDir 15).workers = 1 ∧ (World.oneDir 15).requests = 1 ∧
      ∃ tr, (World.oneDir 15).Bounded 1 tr := by
  refine ⟨by decide +kernel, by decide +kernel, ?_⟩
  have hwithin : (Schedule.newestFirst : Schedule (Flagged (List String))).Within
      fun _ _ => False := fun _ _ h => nomatch h
  have hstart : Run Walk.oneDir (fun _ _ => False) (World.oneDir 0) [] (World.oneDir 0) := .nil
  obtain ⟨tr, run⟩ := exists_run_drive hwithin hstart 15 0
  exact ⟨tr, run.bounded⟩

end ShardSweep
