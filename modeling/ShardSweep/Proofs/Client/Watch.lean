import ShardSweep.Proofs.Client.Stages

/-!
# What is seen of a transport

A watched transport does what the transport does, and writes down every dial, every request with
the connection that it goes over, and every connection on which a request got lost.  Connections
are told apart by the number of sightings before their dial.

A client in front of a watched transport shows where its requests go.  `Trip` says what a request
has in its hands and what was seen of it so far, and `Trip.Goes` what one step can do; others may
act between any two of them.

* `Transport.watch`: the watched transport;
* `Wire.invoke_trips`: at which endpoint a request dials and asks, and what becomes of the
  connections.
-/

namespace ShardSweep

/-- What can be seen of a transport. -/
inductive Sighting where
  /-- An endpoint is dialed; the connection will have the number `line`. -/
  | dial (line : Nat) (endpoint : Endpoint)
  /-- A request goes over a connection. -/
  | call (line : Nat) (endpoint : Endpoint) (r : Request)
  /-- It got lost there. -/
  | lost (line : Nat)
  deriving DecidableEq

/-- A transport with what was seen of it, the latest first. -/
structure Watched (τ : Type) where
  net : τ
  seen : List Sighting

/-- A connection of a watched transport. -/
structure Line (κ : Type) where
  number : Nat
  /-- The endpoint that was dialed. -/
  endpoint : Endpoint
  link : κ

variable {τ κ α : Type}

namespace Watched

/-- The transport. -/
def netPart : Proc.Part (Watched τ) τ where
  get := net
  set n w := { w with net := n }
  get_set _ _ := rfl
  set_get _ := rfl
  set_set _ _ _ := rfl

/-- Write something down. -/
def see (sighting : Sighting) (w : Watched τ) : Watched τ :=
  { w with seen := sighting :: w.seen }

/-- Change the transport only. -/
def onNet (f : τ → τ) (w : Watched τ) : Watched τ :=
  { w with net := f w.net }

end Watched

/-- The same transport, with everything written down that can be seen of it. -/
def Transport.watch (transport : Transport τ κ) : Transport (Watched τ) (Line κ) where
  dial endpoint timeout := do
    let number ← Proc.atomic fun w => (w.seen.length, w.see (.dial w.seen.length endpoint))
    match ← (transport.dial endpoint timeout).on Watched.netPart with
    | .ok link => pure (.ok ⟨number, endpoint, link⟩)
    | .error e => pure (.error e)
  issue line timeout r := do
    Proc.modify (Watched.see (.call line.number line.endpoint r))
    match ← (transport.issue line.link timeout r).on Watched.netPart with
    | .ok reply => pure (.ok reply)
    | .error e => do
      Proc.modify (Watched.see (.lost line.number))
      pure (.error e)

namespace Wire

/-- The connections that nobody is using. -/
def idle (w : Wire τ κ) : List (Endpoint × κ) :=
  w.pooled.pool.idle

/-- What was seen of the transport, the latest first. -/
def seen (w : Wire (Watched τ) κ) : List Sighting :=
  w.pooled.net.seen

/-- Every idle connection is filed under the endpoint that was dialed for it. -/
def InPlace (w : Wire τ (Line κ)) : Prop :=
  ∀ entry ∈ w.idle, entry.2.endpoint = entry.1

end Wire

/-- How far a request has come with its connections. -/
structure Trip where
  /-- The number of the connection that it has. -/
  line : Option Nat
  /-- What was seen of it. -/
  seen : List Sighting

namespace Trip

/-- What one step of a request can do that is sent to `endpoint`. -/
inductive Goes (endpoint : Endpoint) (r : Request) :
    Trip → Wire (Watched τ) (Line κ) → Wire (Watched τ) (Line κ) → Trip → Prop
  /-- Something that concerns neither the pool nor the connections. -/
  | rest {t w w'} (idle : w'.idle = w.idle) (seen : w'.seen = w.seen) : Goes endpoint r t w w' t
  | lend {t : Trip} {w w' line} (idle : w.idle.Perm ((endpoint, line) :: w'.idle))
      (seen : w'.seen = w.seen) (free : t.line = none) :
      Goes endpoint r t w w' { t with line := some line.number }
  | dial {t : Trip} {w w'} (idle : w'.idle = w.idle)
      (seen : w'.seen = .dial w.seen.length endpoint :: w.seen) (free : t.line = none) :
      Goes endpoint r t w w' ⟨some w.seen.length, .dial w.seen.length endpoint :: t.seen⟩
  /-- The connection is given up, or there is none after a dial. -/
  | drop {t : Trip} {w w'} (idle : w'.idle = w.idle) (seen : w'.seen = w.seen) :
      Goes endpoint r t w w' { t with line := none }
  | call {t : Trip} {w w' n} (idle : w'.idle = w.idle)
      (seen : w'.seen = .call n endpoint r :: w.seen) (held : t.line = some n) :
      Goes endpoint r t w w' { t with seen := .call n endpoint r :: t.seen }
  | lose {t : Trip} {w w' n} (idle : w'.idle = w.idle) (seen : w'.seen = .lost n :: w.seen)
      (held : t.line = some n) : Goes endpoint r t w w' ⟨none, .lost n :: t.seen⟩
  | putBack {t : Trip} {w w' line} (idle : w'.idle = (endpoint, line) :: w.idle)
      (seen : w'.seen = w.seen) (held : t.line = some line.number)
      (place : line.endpoint = endpoint) : Goes endpoint r t w w' { t with line := none }

variable {endpoint : Endpoint} {r : Request} {t t' : Trip} {w w' : Wire (Watched τ) (Line κ)}

/-- Every connection remains in its place. -/
theorem Goes.inPlace (h : Goes endpoint r t w w' t') (inPlace : w.InPlace) : w'.InPlace := by
  unfold Wire.InPlace at *
  cases h with
  | lend idle => exact fun entry hentry => inPlace entry (idle.mem_iff.mpr (.tail _ hentry))
  | putBack idle _ _ place =>
    intro entry hentry
    rw [idle] at hentry
    rcases List.mem_cons.mp hentry with rfl | hentry
    · exact place
    · exact inPlace entry hentry
  | rest idle | dial idle | drop idle | call idle | lose idle =>
    rw [idle]
    exact inPlace

/-- The steps as a contract that counts on connections being in their places. -/
def contract (endpoint : Endpoint) (r : Request) : Contract (Wire (Watched τ) (Line κ)) Trip where
  assume _ w := w.InPlace
  step := Goes endpoint r

/-- A request that has something to show and no connection. -/
def Over (t : Trip) : Prop :=
  t.line = none ∧ t.seen ≠ []

end Trip

namespace Wire

variable {transport : Transport τ κ} {timeout : Duration} {endpoint : Endpoint} {r : Request}
  {t : Trip}

/-- What the transport does by itself is not seen. -/
private theorem inside_trips (p : Proc τ α) :
    (((p.on Watched.netPart).on Pooled.netPart).on (pooledPart (κ := Line κ))).Obeys
      (Trip.contract endpoint r) t fun _ t' => t' = t := by
  induction p with
  | done a => exact rfl
  | step change next ih => exact fun w _ => ⟨t, .rest rfl rfl, ih _⟩

private theorem dial_trips (free : t.line = none) :
    ((Pooled.dial transport.watch endpoint timeout).on pooledPart).Obeys
      (Trip.contract endpoint r) t fun
        | .ok line, t' => t'.line = some line.number ∧ line.endpoint = endpoint
        | .error _, t' => t'.Over := by
  simp only [Pooled.dial, Transport.watch, Proc.on_bind, bind_assoc]
  refine fun w _ => ⟨_, .dial rfl rfl free, ?_⟩
  refine (inside_trips _).bind ?_
  rintro (e | link) t' rfl
  · exact fun w _ => ⟨_, .drop rfl rfl, rfl, by simp⟩
  · exact fun w _ => ⟨_, .rest rfl rfl, rfl, rfl⟩

private theorem lend_trips (free : t.line = none) :
    ((Proc.atomic (Pooled.lend endpoint)).on (pooledPart (τ := Watched τ) (κ := Line κ))).Obeys
      (Trip.contract endpoint r) t fun
        | some line, t' => t'.line = some line.number ∧ line.endpoint = endpoint
        | none, t' => t'.line = none := by
  rw [Proc.on_atomic]
  refine Proc.Obeys.atomic fun w inPlace => ?_
  simp only [Pooled.lend, pooledPart]
  cases hlend : (w.pooled.pool.lend endpoint).1 with
  | none => exact ⟨t, .rest (by rw [Pool.lend_of_none hlend]) rfl, free⟩
  | some line =>
    obtain ⟨others, hlend', hperm⟩ := Pool.lend_of_some hlend
    have hplace : line.endpoint = endpoint := inPlace _ (hperm.mem_iff.mpr List.mem_cons_self)
    exact ⟨_, .lend (by rw [hlend']; exact hperm) rfl free, rfl, hplace⟩

private theorem checkout_trips (free : t.line = none) :
    ((Pooled.checkout transport.watch endpoint timeout).on pooledPart).Obeys
      (Trip.contract endpoint r) t fun
        | .ok line, t' => t'.line = some line.number ∧ line.endpoint = endpoint
        | .error _, t' => t'.Over := by
  rw [Pooled.checkout, Proc.on_bind]
  refine (lend_trips free).bind ?_
  rintro (_ | line) t' hlent
  · exact dial_trips hlent
  · exact hlent

private theorem issue_trips {line : Line κ} (held : t.line = some line.number)
    (place : line.endpoint = endpoint) :
    (((transport.watch.issue line timeout r).on Pooled.netPart).on (pooledPart (κ := Line κ))).Obeys
      (Trip.contract endpoint r) t fun delivery t' => t'.seen ≠ [] ∧
        ∀ reply, delivery = .ok reply → t'.line = some line.number := by
  subst place
  simp only [Transport.watch, Proc.on_bind]
  refine fun w _ => ⟨_, .call rfl rfl held, ?_⟩
  refine (inside_trips _).bind ?_
  rintro (e | reply) t' rfl
  · exact fun w _ => ⟨_, .lose rfl rfl held, by simp, nofun⟩
  · exact ⟨by simp, fun _ _ => held⟩

private theorem attempt_trips (free : t.line = none) :
    ((attempt transport.watch timeout endpoint r).on pooledPart).Obeys
      (Trip.contract endpoint r) t fun _ t' => t'.Over := by
  rw [attempt, Proc.on_bind]
  refine (checkout_trips free).bind ?_
  rintro (e | line) t' hlent
  · exact hlent
  · obtain ⟨hheld, hplace⟩ := hlent
    simp only [attemptOver, Proc.on_bind]
    refine (issue_trips hheld hplace).bind ?_
    rintro (e | reply) t' ⟨hseen, hheld'⟩
    · exact fun w _ => ⟨_, .drop rfl rfl, rfl, hseen⟩
    · exact fun w _ => ⟨_, .putBack rfl rfl (hheld' reply rfl) hplace, rfl, hseen⟩

/-- What changes neither the pool nor the transport is not seen. -/
private theorem note_trips (f : CallTally → CallTally) :
    (note f : Proc (Wire (Watched τ) (Line κ)) Unit).Obeys (Trip.contract endpoint r) t
      fun _ t' => t' = t :=
  fun _ _ => ⟨t, .rest rfl rfl, rfl⟩

private theorem giveUp_trips {e : RpcError} (through : t.Over) :
    (giveUp e : Proc (Wire (Watched τ) (Line κ)) (Except RpcError α)).Obeys
      (Trip.contract endpoint r) t fun _ t' => t'.Over :=
  (note_trips _).bind fun _ _ h => h ▸ through

private theorem attemptThen_trips (free : t.line = none)
    {again : AttemptError → Proc (Wire (Watched τ) (Line κ)) (Except RpcError r.Answer)}
    (next : ∀ e t, t.Over →
      (again e).Obeys (Trip.contract endpoint r) t fun _ t' => t'.Over) :
    (attemptThen transport.watch timeout endpoint r again).Obeys (Trip.contract endpoint r) t
      fun _ t' => t'.Over := by
  refine (note_trips _).bind ?_
  rintro _ t' rfl
  refine (attempt_trips free).bind fun outcome t' hover => ?_
  cases judge outcome with
  | answer a => exact hover
  | rejected status => exact giveUp_trips hover
  | retryable e => exact next e t' hover

private theorem attempts_trips (left number : Nat) (free : t.line = none) :
    (attempts transport.watch timeout endpoint r left number).Obeys (Trip.contract endpoint r) t
      fun _ t' => t'.Over := by
  induction left generalizing number t with
  | zero => exact attemptThen_trips free fun e t hover => giveUp_trips hover
  | succ left ih =>
    refine attemptThen_trips free fun e t hover => (note_trips _).bind ?_
    rintro _ t' rfl
    exact ih (number + 1) hover.1

/-- A request that has an endpoint to be sent to is seen there and nowhere else. -/
theorem invoke_trips (settings : RpcSettings) (rest : List Endpoint) (free : t.line = none) :
    (invoke transport.watch settings (endpoint :: rest) r).Obeys (Trip.contract endpoint r) t
      fun _ t' => t'.Over := by
  refine (note_trips _).bind ?_
  rintro _ t' rfl
  exact attempts_trips _ _ free

end Wire

end ShardSweep
