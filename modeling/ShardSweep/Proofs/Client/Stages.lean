import ShardSweep.Client.Deployment
import ShardSweep.Proofs.Contract

/-!
# The steps of a request and its retries

`Stage` says how far a request has come at the endpoint that it is sent to, and `Stage.Goes`
lists every step it can take, each with what it does to the wire.  Others may act between any
two of them.  What is known of requests with retries is proved by looking through this list.

* `Wire.attempts_obeys`: the attempts of a request take these steps and no others;
* `Stage.Ends`: what a request that has come to its end reports.
-/

namespace ShardSweep

/-- How far a request has come; `number` counts its attempts. -/
inductive Stage (r : Request) where
  /-- The attempt is to be counted. -/
  | between (number : Nat)
  /-- An idle connection is looked for. -/
  | seeking (number : Nat)
  /-- There is none. -/
  | dialing (number : Nat)
  /-- The outcome of the dial is to be counted. -/
  | dialed (number : Nat) (lent : Except TransportError Link)
  /-- The request has a connection. -/
  | holding (number : Nat) (link : Link)
  /-- The same, for a listing that was counted as begun. -/
  | listing (number : Nat) (link : Link)
  /-- A listing is to be counted as over. -/
  | listed (number : Nat) (link : Link) (delivery : Delivery r.Answer)
  /-- The connection is to be brought back or given up. -/
  | carried (number : Nat) (link : Link) (delivery : Delivery r.Answer)
  /-- The attempt is over. -/
  | tried (number : Nat) (outcome : Except AttemptError r.Answer)
  /-- There will be no other attempt. -/
  | over (e : RpcError)

namespace Wire

variable {τ κ : Type}

/-- The wire with other counters. -/
def tallied (w : Wire τ κ) (f : CallTally → CallTally) : Wire τ κ :=
  { w with tally := f w.tally }

/-- The wire with another pool. -/
def pooling (w : Wire τ κ) (f : Pool κ → Pool κ) : Wire τ κ :=
  { w with pooled := w.pooled.onPool f }

/-- The wire with its transport in another state. -/
def reaching (w : Wire τ κ) (net : τ) : Wire τ κ :=
  { w with pooled := { w.pooled with net := net } }

end Wire

namespace Stage

variable {r : Request}

/-- The steps of a request that may make `most` attempts. -/
inductive Goes (timeout : Duration) (endpoint : Endpoint) (most : Nat) (r : Request) :
    Stage r → Wire Service Link → Wire Service Link → Stage r → Prop
  | attempt {n w} : Goes timeout endpoint most r (.between n) w (w.tallied .countAttempt) (.seeking n)
  | lend {n w link} (found : (w.pooled.pool.lend endpoint).1 = some link) :
      Goes timeout endpoint most r (.seeking n) w (w.pooling fun p => (p.lend endpoint).2)
        (.holding n link)
  | miss {n w} (missing : (w.pooled.pool.lend endpoint).1 = none) :
      Goes timeout endpoint most r (.seeking n) w w (.dialing n)
  | dial {n w} :
      Goes timeout endpoint most r (.dialing n) w (w.reaching (w.pooled.net.open? endpoint).2)
        (.dialed n (w.pooled.net.open? endpoint).1)
  | open {n link w} :
      Goes timeout endpoint most r (.dialed n (.ok link)) w (w.pooling .countDial) (.holding n link)
  | fail {n e w} :
      Goes timeout endpoint most r (.dialed n (.error e)) w (w.pooling .countDialFailure)
        (.tried n (.error (.transport e)))
  | enter {n link w} (lists : r.kind = .listEntries) :
      Goes timeout endpoint most r (.holding n link) w (w.reaching w.pooled.net.enterListing)
        (.listing n link)
  | list {n link w} :
      Goes timeout endpoint most r (.listing n link) w
        (w.reaching (w.pooled.net.receive link timeout r).2)
        (.listed n link (w.pooled.net.receive link timeout r).1)
  | leave {n link delivery w} :
      Goes timeout endpoint most r (.listed n link delivery) w
        (w.reaching w.pooled.net.leaveListing) (.carried n link delivery)
  | send {n link w} (other : r.kind ≠ .listEntries) :
      Goes timeout endpoint most r (.holding n link) w
        (w.reaching (w.pooled.net.receive link timeout r).2)
        (.carried n link (w.pooled.net.receive link timeout r).1)
  | putBack {n link reply w} :
      Goes timeout endpoint most r (.carried n link (.ok reply)) w (w.pooling (.put endpoint link))
        (.tried n (Wire.settle (.ok reply)))
  | discard {n link e w} :
      Goes timeout endpoint most r (.carried n link (.error e)) w (w.pooling .discard)
        (.tried n (.error (.transport e)))
  | again {n e w} (retry : e.isRetryable = true) (left : n < most) :
      Goes timeout endpoint most r (.tried n (.error e)) w (w.tallied .countRetry) (.between (n + 1))
  | exhaust {e w} (retry : e.isRetryable = true) :
      Goes timeout endpoint most r (.tried most (.error e)) w (w.tallied .countFailure)
        (.over (.exhausted r.kind endpoint most e))
  | reject {n status w} (final : status.isRetryable = false) :
      Goes timeout endpoint most r (.tried n (.error (.status status))) w (w.tallied .countFailure)
        (.over (.rejected r.kind endpoint status))

/-- What a request reports at its end. -/
inductive Ends : Except RpcError r.Answer → Stage r → Prop
  | answered {n a} : Ends (.ok a) (.tried n (.ok a))
  | gaveUp {e} : Ends (.error e) (.over e)

/-- The steps as a contract that assumes nothing. -/
def contract (timeout : Duration) (endpoint : Endpoint) (most : Nat) (r : Request) :
    Contract (Wire Service Link) (Stage r) :=
  ⟨fun _ _ => True, Goes timeout endpoint most r⟩

end Stage

namespace Pool

variable {κ : Type} {endpoint : Endpoint} {p : Pool κ}

/-- A pool that lends nothing is as before. -/
theorem lend_of_none (h : (p.lend endpoint).1 = none) : (p.lend endpoint).2 = p := by
  unfold lend at h ⊢
  split at h
  · rfl
  · cases h

/-- A pool lends nothing only if there is nothing to lend. -/
theorem not_mem_of_lend (h : (p.lend endpoint).1 = none) {link : κ} :
    (endpoint, link) ∉ p.idle := by
  intro hmem
  unfold lend at h
  cases htake : takeFirst endpoint p.idle with
  | none => exact takeFirst_eq_none.mp htake _ hmem rfl
  | some found => simp [htake] at h

/-- What a pool lends is taken out of it, and counted. -/
theorem lend_of_some {link : κ} (h : (p.lend endpoint).1 = some link) :
    ∃ others, (p.lend endpoint).2 = { p with idle := others, reused := p.reused + 1 } ∧
      p.idle.Perm ((endpoint, link) :: others) := by
  unfold lend at h ⊢
  cases htake : takeFirst endpoint p.idle with
  | none => simp [htake] at h
  | some found =>
    obtain ⟨newer, older, hidle, hothers, -⟩ := takeFirst_eq_some htake
    obtain rfl : found.1 = link := by simpa [htake] using h
    refine ⟨found.2, rfl, ?_⟩
    rw [hidle, hothers]
    exact List.perm_middle

/-- What a pool lends was idle, and so is what it keeps. -/
theorem of_lend {link : κ} (h : (p.lend endpoint).1 = some link) :
    (endpoint, link) ∈ p.idle ∧ ∀ entry ∈ (p.lend endpoint).2.idle, entry ∈ p.idle := by
  obtain ⟨others, hlend, hperm⟩ := lend_of_some h
  rw [hlend]
  exact ⟨hperm.mem_iff.mpr List.mem_cons_self, fun entry h => hperm.mem_iff.mpr (.tail _ h)⟩

end Pool

/-- Over a broken connection nothing comes back. -/
theorem Service.unbroken_of_receive {s : Service} {link : Link} {timeout : Duration} {r : Request}
    {reply : Except Status r.Answer} (h : (s.receive link timeout r).1 = .ok reply) :
    link.broken = false := by
  unfold receive at h
  by_cases hbroken : link.broken = true
  · simp [hbroken] at h
  · simpa using hbroken

namespace Wire

variable {timeout : Duration} {endpoint : Endpoint} {most n : Nat} {r : Request}

private theorem dial_goes :
    ((Pooled.dial Service.transport endpoint timeout).on pooledPart).Obeys
      (Stage.contract timeout endpoint most r) (.dialing n) fun
        | .ok link, g => g = .holding n link
        | .error e, g => g = .tried n (.error (.transport e)) := by
  simp only [Pooled.dial, Service.transport, Proc.on_bind, Proc.on_atomic]
  have hdialed : (Proc.atomic fun w : Wire Service Link =>
      ((w.pooled.net.open? endpoint).1, w.reaching (w.pooled.net.open? endpoint).2)).Obeys
      (Stage.contract timeout endpoint most r) (.dialing n) fun lent g => g = .dialed n lent :=
    Proc.Obeys.atomic fun w _ => ⟨_, .dial, rfl⟩
  refine hdialed.bind ?_
  rintro (e | link) _ rfl
  · exact fun w _ => ⟨_, .fail, rfl⟩
  · exact fun w _ => ⟨_, .open, rfl⟩

private theorem checkout_goes :
    ((Pooled.checkout Service.transport endpoint timeout).on pooledPart).Obeys
      (Stage.contract timeout endpoint most r) (.seeking n) fun
        | .ok link, g => g = .holding n link
        | .error e, g => g = .tried n (.error (.transport e)) := by
  rw [Pooled.checkout, Proc.on_bind, Proc.on_atomic]
  have hlent : (Proc.atomic fun w : Wire Service Link =>
      ((w.pooled.pool.lend endpoint).1, w.pooling fun p => (p.lend endpoint).2)).Obeys
      (Stage.contract timeout endpoint most r) (.seeking n) fun
        | some link, g => g = .holding n link
        | none, g => g = .dialing n := by
    refine Proc.Obeys.atomic fun w _ => ?_
    cases hlend : (w.pooled.pool.lend endpoint).1 with
    | some link => exact ⟨_, .lend hlend, rfl⟩
    | none =>
      refine ⟨.dialing n, ?_, rfl⟩
      have hsame : w.pooling (fun p => (p.lend endpoint).2) = w := by
        rw [pooling, Pooled.onPool, Pool.lend_of_none hlend]
      simp only [hsame]
      exact .miss hlend
  refine hlent.bind ?_
  rintro (_ | link) _ rfl
  · exact dial_goes
  · rfl

private theorem issue_goes {link : Link} :
    (((Service.issue link timeout r).on Pooled.netPart).on pooledPart).Obeys
      (Stage.contract timeout endpoint most r) (.holding n link) fun delivery g =>
        g = .carried n link delivery := by
  unfold Service.issue
  split
  · rename_i hkind
    refine fun w _ => ⟨_, .enter hkind, fun w _ => ⟨_, .list, fun w _ => ⟨_, .leave, rfl⟩⟩⟩
  · rename_i hkind
    exact fun w _ => ⟨_, .send hkind, rfl⟩

private theorem attempt_goes :
    ((attempt Service.transport timeout endpoint r).on pooledPart).Obeys
      (Stage.contract timeout endpoint most r) (.seeking n) fun outcome g =>
        g = .tried n outcome := by
  rw [attempt, Proc.on_bind]
  refine checkout_goes.bind ?_
  rintro (e | link) _ rfl
  · rfl
  · simp only [attemptOver, Proc.on_bind]
    refine issue_goes.bind ?_
    rintro (e | reply) _ rfl
    · exact fun w _ => ⟨_, .discard, rfl⟩
    · exact fun w _ => ⟨_, .putBack, rfl⟩

/-- An attempt, and what is done if another one may help. -/
private theorem attemptThen_goes
    {again : AttemptError → Proc (Wire Service Link) (Except RpcError r.Answer)}
    (next : ∀ e, e.isRetryable = true → (again e).Obeys (Stage.contract timeout endpoint most r)
      (.tried n (.error e)) Stage.Ends) :
    (attemptThen Service.transport timeout endpoint r again).Obeys
      (Stage.contract timeout endpoint most r) (.between n) Stage.Ends := by
  refine fun w _ => ⟨_, .attempt, attempt_goes.bind ?_⟩
  rintro ((e | status) | a) _ rfl
  · exact next _ rfl
  · by_cases hretry : status.isRetryable = true
    · simp only [judge, if_pos hretry]
      exact next _ hretry
    · simp only [judge, if_neg hretry]
      exact fun w _ => ⟨_, .reject (by simpa using hretry), .gaveUp⟩
  · exact .answered

/-- The attempts of a request take the steps of the list and no others. -/
theorem attempts_obeys {left : Nat} (most : Nat) (number : n + left = most) :
    (attempts Service.transport timeout endpoint r left n).Obeys
      (Stage.contract timeout endpoint most r) (.between n) Stage.Ends := by
  induction left generalizing n with
  | zero =>
    obtain rfl : n = most := number
    exact attemptThen_goes fun e hretry w _ => ⟨_, .exhaust hretry, .gaveUp⟩
  | succ left ih =>
    refine attemptThen_goes fun e hretry w _ => ⟨_, .again hretry (by omega), ih (by omega)⟩

/-- All the attempts that some settings allow. -/
theorem attempts_obeys_settings (settings : RpcSettings) (endpoint : Endpoint) (r : Request) :
    (attempts Service.transport settings.timeout endpoint r (settings.maxAttempts - 1) 1).Obeys
      (Stage.contract settings.timeout endpoint settings.maxAttempts r) (.between 1) Stage.Ends := by
  have hpos := settings.maxAttempts_pos
  exact attempts_obeys settings.maxAttempts (by omega)

end Wire

end ShardSweep
