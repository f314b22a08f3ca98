import ShardSweep.Client.Pool
import ShardSweep.Settings

/-!
# Requests with retries

One request is up to `maxAttempts` attempts at one endpoint.  A transport failure and
a refusal that is worth a retry cost an attempt; any other refusal ends the request.
A connection goes back to the pool unless the transport failed on it.

Only the first endpoint of the list is ever asked.

* `RpcSettings.maxAttempts_pos`: there is always a first attempt;
* `invoke_nil`: without an endpoint nothing is attempted.
-/

namespace ShardSweep

/-- Attempts are counted in thirty-two bits. -/
def maxAttemptCount : Nat := 4294967295

/-- The first attempt and the retries, as far as they can be counted. -/
def RpcSettings.maxAttempts (s : RpcSettings) : Nat :=
  min (s.retries + 1) maxAttemptCount

/-- There is always a first attempt. -/
theorem RpcSettings.maxAttempts_pos (s : RpcSettings) : 0 < s.maxAttempts := by
  simp only [maxAttempts, maxAttemptCount]
  omega

/-- What requests have cost so far. -/
structure CallTally where
  calls : Nat
  attempts : Nat
  retries : Nat
  failures : Nat
  deriving DecidableEq, Repr

namespace CallTally

/-- No request yet. -/
def zero : CallTally :=
  ⟨0, 0, 0, 0⟩

/-- A request begins. -/
def countCall (t : CallTally) : CallTally :=
  { t with calls := t.calls + 1 }

/-- An attempt begins. -/
def countAttempt (t : CallTally) : CallTally :=
  { t with attempts := t.attempts + 1 }

/-- There will be another attempt. -/
def countRetry (t : CallTally) : CallTally :=
  { t with retries := t.retries + 1 }

/-- A request ends without an answer. -/
def countFailure (t : CallTally) : CallTally :=
  { t with failures := t.failures + 1 }

end CallTally

/-- A transport, its pool and what requests have cost. -/
structure Wire (τ κ : Type) where
  pooled : Pooled τ κ
  tally : CallTally

namespace Wire

variable {τ κ : Type}

/-- An empty pool in front of a transport. -/
def fresh (net : τ) : Wire τ κ :=
  ⟨⟨net, .empty⟩, .zero⟩

/-- The pool and the transport behind it. -/
def pooledPart : Proc.Part (Wire τ κ) (Pooled τ κ) where
  get := pooled
  set p w := { w with pooled := p }
  get_set _ _ := rfl
  set_get _ := rfl
  set_set _ _ _ := rfl

/-- Change the counters only. -/
def note (f : CallTally → CallTally) : Proc (Wire τ κ) Unit :=
  Proc.modify fun w => { w with tally := f w.tally }

/-- What is left of a delivery when the layers of its failure are put together. -/
def settle {α : Type} : Delivery α → Except AttemptError α
  | .error e => .error (.transport e)
  | .ok (.error status) => .error (.status status)
  | .ok (.ok a) => .ok a

/-- One attempt over a borrowed connection. -/
def attemptOver (transport : Transport τ κ) (timeout : Duration) (endpoint : Endpoint) (c : κ)
    (r : Request) : Proc (Pooled τ κ) (Except AttemptError r.Answer) := do
  let delivery ← (transport.issue c timeout r).on Pooled.netPart
  match delivery with
  | .error _ => Pooled.discard
  | .ok _ => Pooled.putBack endpoint c
  pure (settle delivery)

/-- One attempt. -/
def attempt (transport : Transport τ κ) (timeout : Duration) (endpoint : Endpoint)
    (r : Request) : Proc (Pooled τ κ) (Except AttemptError r.Answer) := do
  match ← Pooled.checkout transport endpoint timeout with
  | .error e => pure (.error (.transport e))
  | .ok c => attemptOver transport timeout endpoint c r

/-- What an attempt means for its request. -/
inductive Judged (α : Type) where
  | answer (a : α)
  /-- No retry will help. -/
  | rejected (status : Status)
  /-- A retry may help. -/
  | retryable (e : AttemptError)
  deriving DecidableEq

/-- Transport failures are always worth a retry, refusals by their code. -/
def judge {α : Type} : Except AttemptError α → Judged α
  | .ok a => .answer a
  | .error (.transport e) => .retryable (.transport e)
  | .error (.status status) =>
    if status.isRetryable then .retryable (.status status) else .rejected status

/-- End a request without an answer. -/
def giveUp {α : Type} (e : RpcError) : Proc (Wire τ κ) (Except RpcError α) := do
  note .countFailure
  pure (.error e)

/-- Make an attempt and, if a retry may help, go on with `again`. -/
def attemptThen (transport : Transport τ κ) (timeout : Duration) (endpoint : Endpoint)
    (r : Request) (again : AttemptError → Proc (Wire τ κ) (Except RpcError r.Answer)) :
    Proc (Wire τ κ) (Except RpcError r.Answer) := do
  note .countAttempt
  let outcome ← (attempt transport timeout endpoint r).on pooledPart
  match judge outcome with
  | .answer a => pure (.ok a)
  | .rejected status => giveUp (.rejected r.kind endpoint status)
  | .retryable e => again e

/-- Attempt number `number` and, while some are left and it is worth it, the next ones. -/
def attempts (transport : Transport τ κ) (timeout : Duration) (endpoint : Endpoint)
    (r : Request) : (left number : Nat) → Proc (Wire τ κ) (Except RpcError r.Answer)
  | 0, number => attemptThen transport timeout endpoint r fun e =>
    giveUp (.exhausted r.kind endpoint number e)
  | left + 1, number => attemptThen transport timeout endpoint r fun _ => do
    note .countRetry
    attempts transport timeout endpoint r left (number + 1)

/-- Make one request of the first endpoint. -/
def invoke (transport : Transport τ κ) (settings : RpcSettings) (endpoints : List Endpoint)
    (r : Request) : Proc (Wire τ κ) (Except RpcError r.Answer) := do
  note .countCall
  match endpoints with
  | [] => giveUp (.noEndpoint r.kind)
  | endpoint :: _ =>
    attempts transport settings.timeout endpoint r (settings.maxAttempts - 1) 1

/-- Without an endpoint nothing is attempted. -/
theorem invoke_nil (transport : Transport τ κ) (settings : RpcSettings) (r : Request)
    (w : Wire τ κ) :
    (invoke transport settings [] r).run w =
      (.error (.noEndpoint r.kind), { w with tally := w.tally.countCall.countFailure }) := rfl

end Wire

end ShardSweep
