import Mathlib.Order.Bounds.Basic
import ShardSweep.Client.Retry

/-!
# The attempts of a request

With nobody else around a request is a row of attempts at its endpoint, each of which finds the pool
as the one before has left it.  `Wire.after` is what so many of them leave, and `Wire.outcome` what
each comes to.  Which of them are made is decided by these outcomes and by nothing else: the request
ends with the first that settles it, or else with the last that it may make.

* `Wire.attempts_run`: the attempts that are left, by induction on their number;
* `Transport.scripted`: every row of outcomes is that of some transport;
* `Wire.invoke_outcomes`: how many attempts are made, what is reported, and what is counted.
-/

namespace ShardSweep

namespace Wire

/-- No other attempt is made after this one: it has the answer, or the request was refused for
good. -/
def Settles {α : Type} : Except AttemptError α → Prop
  | .ok _ => True
  | .error (.status status) => status.isRetryable = false
  | .error (.transport _) => False

/-- What a request reports if no other attempt is made after this one. -/
def report (endpoint : Endpoint) (r : Request) (number : Nat)
    (outcome : Except AttemptError r.Answer) : Except RpcError r.Answer :=
  match judge outcome with
  | .answer a => .ok a
  | .rejected status => .error (.rejected r.kind endpoint status)
  | .retryable e => .error (.exhausted r.kind endpoint number e)

section

variable {α : Type} {outcome : Except AttemptError α}

theorem judge_of_settles (h : Settles outcome) :
    (∃ a, outcome = .ok a ∧ judge outcome = .answer a) ∨
      ∃ status, outcome = .error (.status status) ∧ status.isRetryable = false ∧
        judge outcome = .rejected status := by
  rcases outcome with (e | status) | a
  · exact h.elim
  · have hfinal : status.isRetryable = false := h
    exact .inr ⟨status, rfl, hfinal, by simp [judge, hfinal]⟩
  · exact .inl ⟨a, rfl, rfl⟩

theorem judge_of_not_settles (h : ¬ Settles outcome) :
    ∃ e, outcome = .error e ∧ e.isRetryable = true ∧ judge outcome = .retryable e := by
  rcases outcome with (e | status) | a
  · exact ⟨.transport e, rfl, rfl, rfl⟩
  · have hretry : status.isRetryable = true := by simpa [Settles] using h
    exact ⟨.status status, rfl, hretry, by simp [judge, hretry]⟩
  · exact (h trivial).elim

end

variable {τ κ : Type} (transport : Transport τ κ) (timeout : Duration) (endpoint : Endpoint)
  (r : Request)

/-- What so many attempts leave, one after another. -/
def after (n : Nat) (p : Pooled τ κ) : Pooled τ κ :=
  (fun p => ((attempt transport timeout endpoint r).run p).2)^[n] p

/-- What an attempt comes to that so many others went before. -/
def outcome (n : Nat) (p : Pooled τ κ) : Except AttemptError r.Answer :=
  ((attempt transport timeout endpoint r).run (after transport timeout endpoint r n p)).1

/-- A request that reports what its last attempt came to, which has this number and came after so
many retries. -/
def ending (number retries : Nat) (w : Wire τ κ) : Except RpcError r.Answer × Wire τ κ :=
  let result := report endpoint r number (outcome transport timeout endpoint r retries w.pooled)
  (result, ⟨after transport timeout endpoint r (retries + 1) w.pooled,
    ⟨w.tally.calls, w.tally.attempts + (retries + 1), w.tally.retries + retries,
      w.tally.failures + if result.isOk then 0 else 1⟩⟩)

section

variable {transport timeout endpoint r}

/-- An attempt, and what is made of its outcome. -/
private theorem attemptThen_run
    (again : AttemptError → Proc (Wire τ κ) (Except RpcError r.Answer)) (w : Wire τ κ) :
    (attemptThen transport timeout endpoint r again).run w =
      (match judge (outcome transport timeout endpoint r 0 w.pooled) with
        | .answer a => pure (.ok a)
        | .rejected status => giveUp (.rejected r.kind endpoint status)
        | .retryable e => again e : Proc (Wire τ κ) (Except RpcError r.Answer)).run
        ⟨after transport timeout endpoint r 1 w.pooled, w.tally.countAttempt⟩ := by
  simp only [attemptThen, note, Proc.run_bind, Proc.run_modify, Proc.run_on]
  rfl

/-- An attempt that settles its request is the last one, whatever else might be done. -/
private theorem attemptThen_run_of_settles {w : Wire τ κ} (number : Nat)
    (settles : Settles (outcome transport timeout endpoint r 0 w.pooled))
    (again : AttemptError → Proc (Wire τ κ) (Except RpcError r.Answer)) :
    (attemptThen transport timeout endpoint r again).run w =
      ending transport timeout endpoint r number 0 w := by
  rw [attemptThen_run, ending, report]
  obtain ⟨a, -, hjudge⟩ | ⟨status, -, -, hjudge⟩ := judge_of_settles settles
  · simp only [hjudge]
    rfl
  · simp only [hjudge]
    rfl

/-- A first attempt, a retry, and what the retries left report. -/
private theorem ending_after_one (number k : Nat) (w : Wire τ κ) :
    ending transport timeout endpoint r number k
        ⟨after transport timeout endpoint r 1 w.pooled, w.tally.countAttempt.countRetry⟩ =
      ending transport timeout endpoint r number (k + 1) w := by
  have hattempts : w.tally.attempts + 1 + (k + 1) = w.tally.attempts + (k + 1 + 1) := by omega
  have hretries : w.tally.retries + 1 + k = w.tally.retries + (k + 1) := by omega
  simp only [ending, CallTally.countAttempt, CallTally.countRetry, hattempts, hretries]
  rfl

/-- Another attempt follows unless the request is settled or none is left. -/
theorem attempts_run (left number : Nat) (w : Wire τ κ) :
    ∃ k ≤ left, (∀ j < k, ¬ Settles (outcome transport timeout endpoint r j w.pooled)) ∧
      (k = left ∨ Settles (outcome transport timeout endpoint r k w.pooled)) ∧
      (attempts transport timeout endpoint r left number).run w =
        ending transport timeout endpoint r (number + k) k w := by
  induction left generalizing number w with
  | zero =>
    refine ⟨0, Nat.le_refl 0, nofun, .inl rfl, ?_⟩
    by_cases hsettles : Settles (outcome transport timeout endpoint r 0 w.pooled)
    · exact attemptThen_run_of_settles number hsettles _
    · obtain ⟨e, -, -, hjudge⟩ := judge_of_not_settles hsettles
      rw [attempts, attemptThen_run, ending, report]
      simp only [hjudge]
      rfl
  | succ left ih =>
    by_cases hsettles : Settles (outcome transport timeout endpoint r 0 w.pooled)
    · exact ⟨0, Nat.zero_le _, nofun, .inr hsettles, attemptThen_run_of_settles number hsettles _⟩
    · obtain ⟨e, -, -, hjudge⟩ := judge_of_not_settles hsettles
      obtain ⟨k, hk, hbefore, hend, hrun⟩ := ih (number + 1)
        ⟨after transport timeout endpoint r 1 w.pooled, w.tally.countAttempt.countRetry⟩
      refine ⟨k + 1, Nat.succ_le_succ hk, ?_, ?_, ?_⟩
      · rintro (_ | j) hj
        · exact hsettles
        · exact hbefore j (Nat.lt_of_succ_lt_succ hj)
      · exact hend.imp (congrArg Nat.succ) id
      · rw [attempts, attemptThen_run]
        simp only [hjudge, note, Proc.run_bind, Proc.run_modify]
        rw [hrun, Nat.add_assoc number 1 k, Nat.add_comm 1 k]
        exact ending_after_one (number + (k + 1)) k w

end

/-- A request of an endpoint that makes one attempt and `k` retries. -/
structure Course (settings : RpcSettings) (w : Wire τ κ) (k : Nat)
    (result : Except RpcError r.Answer) (w' : Wire τ κ) : Prop where
  /-- The last attempt is the first that settles the request, if there are not too many before. -/
  last : IsLeast {k | k + 1 = settings.maxAttempts ∨
    Settles (outcome transport settings.timeout endpoint r k w.pooled)} k
  /-- The attempts can be counted. -/
  counted : k + 1 ≤ maxAttemptCount
  answered : ∀ a, outcome transport settings.timeout endpoint r k w.pooled = .ok a → result = .ok a
  rejected : ∀ status,
    outcome transport settings.timeout endpoint r k w.pooled = .error (.status status) →
      status.isRetryable = false → result = .error (.rejected r.kind endpoint status)
  exhausted : ∀ e, outcome transport settings.timeout endpoint r k w.pooled = .error e →
    e.isRetryable = true → k + 1 = settings.maxAttempts ∧
      result = .error (.exhausted r.kind endpoint settings.maxAttempts e)
  pooled : w'.pooled = after transport settings.timeout endpoint r (k + 1) w.pooled
  tally : w'.tally = ⟨w.tally.calls + 1, w.tally.attempts + (k + 1), w.tally.retries + k,
    w.tally.failures + if result.isOk then 0 else 1⟩

private theorem invoke_cons_run (settings : RpcSettings) (rest : List Endpoint) (w : Wire τ κ) :
    (invoke transport settings (endpoint :: rest) r).run w =
      (attempts transport settings.timeout endpoint r (settings.maxAttempts - 1) 1).run
        { w with tally := w.tally.countCall } := rfl

/-- A request of an endpoint takes its course. -/
theorem exists_course (settings : RpcSettings) (rest : List Endpoint) (w : Wire τ κ) :
    ∃ k, Course transport endpoint r settings w k
      ((invoke transport settings (endpoint :: rest) r).run w).1
      ((invoke transport settings (endpoint :: rest) r).run w).2 := by
  have hpos := settings.maxAttempts_pos
  have hmost : settings.maxAttempts ≤ maxAttemptCount := Nat.min_le_right _ _
  obtain ⟨k, hk, hbefore, hend, hrun⟩ := @attempts_run τ κ transport settings.timeout endpoint r
    (settings.maxAttempts - 1) 1 { w with tally := w.tally.countCall }
  rw [invoke_cons_run, hrun]
  refine ⟨k, ⟨⟨?_, ?_⟩, by omega, ?_, ?_, ?_, rfl, rfl⟩⟩
  · exact hend.imp (by omega) id
  · rintro j (hj | hsettles)
    · omega
    · exact Nat.le_of_not_lt fun hlt => hbefore j hlt hsettles
  · intro a ha
    change report _ _ _ (outcome transport settings.timeout endpoint r k w.pooled) = _
    rw [ha]
    rfl
  · intro status houtcome hfinal
    change report _ _ _ (outcome transport settings.timeout endpoint r k w.pooled) = _
    simp [houtcome, report, judge, hfinal]
  · intro e houtcome hretry
    have hsettles : ¬ Settles (outcome transport settings.timeout endpoint r k w.pooled) := by
      rw [houtcome]
      cases e with
      | transport e => exact id
      | status status => exact fun hfinal => by simp_all [Settles, AttemptError.isRetryable]
    obtain ⟨e', houtcome', -, hjudge⟩ := judge_of_not_settles hsettles
    obtain rfl : k = settings.maxAttempts - 1 := hend.resolve_right hsettles
    cases houtcome.symm.trans houtcome'
    refine ⟨by omega, ?_⟩
    change report _ _ _ (outcome transport settings.timeout endpoint r _ w.pooled) = _
    rw [report, hjudge, Nat.add_sub_cancel' hpos]

/-- What a request can report. -/
theorem reported (settings : RpcSettings) (endpoints : List Endpoint) (w : Wire τ κ) :
    (∃ a, ((invoke transport settings endpoints r).run w).1 = .ok a) ∨
      ((invoke transport settings endpoints r).run w).1 = .error (.noEndpoint r.kind) ∨
      (∃ endpoint status, status.isRetryable = false ∧
        ((invoke transport settings endpoints r).run w).1 =
          .error (.rejected r.kind endpoint status)) ∨
      ∃ endpoint e, e.isRetryable = true ∧ ((invoke transport settings endpoints r).run w).1 =
        .error (.exhausted r.kind endpoint settings.maxAttempts e) := by
  cases endpoints with
  | nil => exact .inr (.inl rfl)
  | cons endpoint rest =>
    obtain ⟨k, hcourse⟩ := exists_course transport endpoint r settings rest w
    by_cases hsettles : Settles (outcome transport settings.timeout endpoint r k w.pooled)
    · obtain ⟨a, ha, -⟩ | ⟨status, hstatus, hfinal, -⟩ := judge_of_settles hsettles
      · exact .inl ⟨a, hcourse.answered a ha⟩
      · exact .inr (.inr (.inl ⟨endpoint, status, hfinal, hcourse.rejected status hstatus hfinal⟩))
    · obtain ⟨e, he, hretry, -⟩ := judge_of_not_settles hsettles
      exact .inr (.inr (.inr ⟨endpoint, e, hretry, (hcourse.exhausted e he hretry).2⟩))

end Wire

namespace Transport

/-- The delivery that comes to an outcome. -/
private def delivering {α : Type} : Except AttemptError α → Delivery α
  | .ok a => .ok (.ok a)
  | .error (.status status) => .ok (.error status)
  | .error (.transport e) => .error e

/-- A transport that can always be dialed and answers by a script. -/
def scripted (script : (r : Request) → Nat → Except AttemptError r.Answer) :
    Transport Nat Unit where
  dial _ _ := pure (.ok ())
  issue _ _ r := Proc.atomic fun n => (delivering (script r n), n + 1)

variable (script : (r : Request) → Nat → Except AttemptError r.Answer) (timeout : Duration)
  (endpoint : Endpoint) (r : Request)

/-- An attempt comes to what the script has for it, over whichever connection. -/
private theorem attempt_scripted (p : Pooled Nat Unit) :
    ((Wire.attempt (scripted script) timeout endpoint r).run p).1 = script r p.net ∧
      ((Wire.attempt (scripted script) timeout endpoint r).run p).2.net = p.net + 1 := by
  have hover : ∀ p : Pooled Nat Unit,
      ((Wire.attemptOver (scripted script) timeout endpoint () r).run p).1 = script r p.net ∧
        ((Wire.attemptOver (scripted script) timeout endpoint () r).run p).2.net = p.net + 1 := by
    intro p
    rw [Wire.attemptOver]
    simp only [scripted, Proc.run_bind, Proc.run_on, Proc.run_atomic, Pooled.netPart]
    rcases script r p.net with (e | status) | a <;> exact ⟨rfl, rfl⟩
  rw [Wire.attempt, Pooled.checkout]
  simp only [Proc.run_bind, Proc.run_atomic, Pooled.lend]
  cases (p.pool.lend endpoint).1 with
  | none => exact hover _
  | some _ => exact hover _

/-- The outcomes are those of the script. -/
theorem outcome_scripted (pool : Pool Unit) (k : Nat) :
    Wire.outcome (scripted script) timeout endpoint r k ⟨0, pool⟩ = script r k := by
  have hnet : (Wire.after (scripted script) timeout endpoint r k ⟨0, pool⟩).net = k := by
    induction k with
    | zero => rfl
    | succ k ih =>
      rw [Wire.after, Function.iterate_succ_apply', ← Wire.after,
        (attempt_scripted script timeout endpoint r _).2, ih]
  rw [Wire.outcome, (attempt_scripted script timeout endpoint r _).1, hnet]

end Transport

namespace Wire

/-- A request of an endpoint makes one attempt there after another, until one settles it or no more
are allowed.  It reports what the last one came to, and counts them, for every transport and so for
every row of outcomes.  A refusal that is worth a retry is never reported as final, and nothing
else as used up; an attempt that fails and is not worth a retry was refused. -/
theorem invoke_outcomes :
    (∀ {τ κ : Type} (transport : Transport τ κ) (settings : RpcSettings) (r : Request),
      (∀ endpoint rest w, ∃ k, Course transport endpoint r settings w k
        ((invoke transport settings (endpoint :: rest) r).run w).1
        ((invoke transport settings (endpoint :: rest) r).run w).2) ∧
      (∀ w, (invoke transport settings [] r).run w = (.error (.noEndpoint r.kind),
        ⟨w.pooled, ⟨w.tally.calls + 1, w.tally.attempts, w.tally.retries,
          w.tally.failures + 1⟩⟩)) ∧
      ∀ endpoints w kind endpoint,
        (∀ status, ((invoke transport settings endpoints r).run w).1 =
          .error (.rejected kind endpoint status) → status.isRetryable = false) ∧
        ∀ n e, ((invoke transport settings endpoints r).run w).1 =
          .error (.exhausted kind endpoint n e) → e.isRetryable = true) ∧
    (∀ e : AttemptError, e.isRetryable = false → ∃ status, e = .status status) ∧
    ∀ script : (r : Request) → Nat → Except AttemptError r.Answer,
      ∃ transport : Transport Nat Unit, ∀ timeout endpoint r k,
        outcome transport timeout endpoint r k ⟨0, .empty⟩ = script r k := by
  refine ⟨fun transport settings r => ⟨fun endpoint => exists_course transport endpoint r settings,
    fun _ => rfl, fun endpoints w kind endpoint => ?_⟩, ?_, fun script => ?_⟩
  · obtain ⟨a, h⟩ | h | ⟨_, _, hfinal, h⟩ | ⟨_, _, hretry, h⟩ :=
      reported transport r settings endpoints w
    · simp [h]
    · simp [h]
    · simp only [h]
      exact ⟨fun _ heq => by cases heq; exact hfinal, nofun⟩
    · simp only [h]
      exact ⟨nofun, fun _ _ heq => by cases heq; exact hretry⟩
  · rintro (e | status) hfinal
    · cases hfinal
    · exact ⟨status, rfl⟩
  · exact ⟨.scripted script, fun timeout endpoint r k =>
      Transport.outcome_scripted script timeout endpoint r .empty k⟩

end Wire

end ShardSweep
