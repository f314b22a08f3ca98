import Mathlib.Data.Multiset.AddSub
import Mathlib.Logic.Relation
import ShardSweep.Proofs.Client.Stages
import ShardSweep.Proofs.Client.Watch

/-!
# A pool and those who borrow from it

Any number of borrowers share a pool.  Their checkouts begin at any moment and take their steps in
any order, and what was lent is brought back or given up at any moment after that; in between it is
used, and the transport changes by itself.  `Lending.Act` is one of these.  The transport is
watched, so that its connections can be told apart, and a `Lending` remembers what there was to see
for a checkout when it looked for an idle connection.

`Quest` says how far a checkout has come, and `Quest.Goes` lists every step it can take.

* `Lending.Act`: what can happen between a pool and its borrowers;
* `Quest.checkout_obeys`: a checkout takes the steps of the list and no others.
-/

namespace ShardSweep

variable {τ κ : Type}

/-- What there is to see for a checkout when it looks for an idle connection. -/
structure Glance (κ : Type) where
  idle : List (Endpoint × Line κ)
  /-- The connections that were brought back so far, the latest first. -/
  returned : List Nat
  /-- What was seen of the transport so far, the latest first. -/
  seen : List Sighting

/-- A checkout under way. -/
structure Checkout (τ κ : Type) where
  endpoint : Endpoint
  /-- What there was to see, as soon as it has looked. -/
  glance : Option (Glance κ)
  /-- What is left to do. -/
  rest : Proc (Pooled (Watched τ) (Line κ)) (Except TransportError (Line κ))

/-- A connection that was lent. -/
structure Loan (κ : Type) where
  endpoint : Endpoint
  line : Line κ
  /-- What there was to see for its checkout. -/
  glance : Glance κ

/-- A pool and its borrowers. -/
structure Lending (τ κ : Type) where
  pooled : Pooled (Watched τ) (Line κ)
  underway : Multiset (Checkout τ κ)
  lent : Multiset (Loan κ)
  /-- The connections that were brought back so far, the latest first. -/
  returned : List Nat
  /-- The loans that were given up. -/
  discarded : Multiset (Loan κ)
  /-- Checkouts that have got a connection. -/
  served : Nat
  /-- Checkouts that have got none. -/
  failed : Nat

/-- A transport may change by itself, and borrowers use the connections that they have; no endpoint
is dialed by that. -/
def Watched.Used (w w' : Watched τ) : Prop :=
  ∃ sightings, w'.seen = sightings ++ w.seen ∧ ∀ n endpoint, .dial n endpoint ∉ sightings

namespace Lending

/-- An empty pool in front of a transport that nobody has used yet. -/
def start (net : τ) : Lending τ κ :=
  ⟨⟨⟨net, []⟩, .empty⟩, 0, 0, [], 0, 0, 0⟩

/-- The connections that nobody is using. -/
def idle (l : Lending τ κ) : List (Endpoint × Line κ) :=
  l.pooled.pool.idle

/-- What was seen of the transport, the latest first. -/
def seen (l : Lending τ κ) : List Sighting :=
  l.pooled.net.seen

/-- What there is to see for a checkout that looks now. -/
def glance (l : Lending τ κ) : Glance κ :=
  ⟨l.idle, l.returned, l.seen⟩

/-- Something that happens. -/
inductive Act (transport : Transport τ κ) : Lending τ κ → Lending τ κ → Prop
  | ask {l : Lending τ κ} (endpoint : Endpoint) (timeout : Duration) :
      Act transport l { l with underway :=
        ⟨endpoint, none, Pooled.checkout transport.watch endpoint timeout⟩ ::ₘ l.underway }
  /-- With its first step a checkout looks for an idle connection. -/
  | step {l : Lending τ κ} {us endpoint glance change next}
      (underway : l.underway = ⟨endpoint, glance, .step change next⟩ ::ₘ us) :
      Act transport l { l with
        pooled := change l.pooled
        underway := ⟨endpoint, some (glance.getD l.glance), next l.pooled⟩ ::ₘ us }
  | serve {l : Lending τ κ} {us endpoint glance line}
      (underway : l.underway = ⟨endpoint, some glance, .done (.ok line)⟩ ::ₘ us) :
      Act transport l { l with
        underway := us
        lent := ⟨endpoint, line, glance⟩ ::ₘ l.lent
        served := l.served + 1 }
  | refuse {l : Lending τ κ} {us endpoint glance e}
      (underway : l.underway = ⟨endpoint, glance, .done (.error e)⟩ ::ₘ us) :
      Act transport l { l with
        underway := us
        failed := l.failed + 1 }
  | putBack {l : Lending τ κ} {loan ls} (lent : l.lent = loan ::ₘ ls) :
      Act transport l { l with
        pooled := ((Pooled.putBack loan.endpoint loan.line).run l.pooled).2
        lent := ls
        returned := loan.line.number :: l.returned }
  | discard {l : Lending τ κ} {loan ls} (lent : l.lent = loan ::ₘ ls) :
      Act transport l { l with
        pooled := (Pooled.discard.run l.pooled).2
        lent := ls
        discarded := loan ::ₘ l.discarded }
  | use {l : Lending τ κ} {net : Watched τ} (used : l.pooled.net.Used net) :
      Act transport l { l with pooled := { l.pooled with net := net } }

/-- What can happen in any number of steps. -/
abbrev Leads (transport : Transport τ κ) : Lending τ κ → Lending τ κ → Prop :=
  Relation.ReflTransGen (Act transport)

end Lending

/-- How far a checkout has come. -/
inductive Quest (κ : Type) where
  /-- An idle connection is to be looked for. -/
  | seeking
  /-- There was none. -/
  | missed
  /-- An endpoint is dialed, and the connection will have this number. -/
  | dialing (n : Nat)
  | holding (line : Line κ)
  | failed

namespace Quest

/-- The steps of a checkout of an endpoint. -/
inductive Goes (endpoint : Endpoint) :
    Quest κ → Pooled (Watched τ) (Line κ) → Pooled (Watched τ) (Line κ) → Quest κ → Prop
  | lend {p line} (found : (p.pool.lend endpoint).1 = some line) :
      Goes endpoint .seeking p { p with pool := (p.pool.lend endpoint).2 } (.holding line)
  | miss {p} (missing : (p.pool.lend endpoint).1 = none) : Goes endpoint .seeking p p .missed
  | dial {p : Pooled (Watched τ) (Line κ)} :
      Goes endpoint .missed p
        { p with net := p.net.see (.dial p.net.seen.length endpoint) } (.dialing p.net.seen.length)
  | inside {n p} {net : Watched τ} (seen : net.seen = p.net.seen) :
      Goes endpoint (.dialing n) p { p with net := net } (.dialing n)
  | open {n p link} :
      Goes endpoint (.dialing n) p (p.onPool .countDial) (.holding ⟨n, endpoint, link⟩)
  | fail {n p} : Goes endpoint (.dialing n) p (p.onPool .countDialFailure) .failed

/-- The steps as a contract that assumes nothing. -/
def contract (endpoint : Endpoint) : Contract (Pooled (Watched τ) (Line κ)) (Quest κ) :=
  ⟨fun _ _ => True, Goes endpoint⟩

/-- What a checkout has come to at its end. -/
inductive Ends : Except TransportError (Line κ) → Quest κ → Prop
  | got {line} : Ends (.ok line) (.holding line)
  | none {e} : Ends (.error e) .failed

variable {transport : Transport τ κ} {endpoint : Endpoint} {timeout : Duration}

/-- What the transport does by itself during a dial. -/
private theorem inside_goes {α : Type} (p : Proc τ α) (n : Nat) :
    ((p.on Watched.netPart).on (Pooled.netPart (κ := Line κ))).Obeys (contract endpoint)
      (.dialing n) fun _ e => e = .dialing n := by
  induction p with
  | done a => exact rfl
  | step change next ih => exact fun p _ => ⟨.dialing n, .inside rfl, ih _⟩

private theorem dial_goes :
    (Pooled.dial transport.watch endpoint timeout).Obeys (contract endpoint) .missed Ends := by
  simp only [Pooled.dial, Transport.watch, Proc.on_bind, bind_assoc]
  refine fun p _ => ⟨_, .dial, ?_⟩
  refine (inside_goes _ _).bind ?_
  rintro (e | link) _ rfl
  · exact fun p _ => ⟨_, .fail, .none⟩
  · exact fun p _ => ⟨_, .open, .got⟩

private theorem lend_goes :
    (Proc.atomic (Pooled.lend endpoint) : Proc (Pooled (Watched τ) (Line κ)) _).Obeys
      (contract endpoint) .seeking fun
        | some line, e => e = .holding line
        | none, e => e = .missed := by
  refine Proc.Obeys.atomic fun p _ => ?_
  simp only [Pooled.lend]
  cases hlend : (p.pool.lend endpoint).1 with
  | some line => exact ⟨_, .lend hlend, rfl⟩
  | none =>
    rw [Pool.lend_of_none hlend]
    exact ⟨_, .miss hlend, rfl⟩

/-- A checkout takes these steps and no others. -/
theorem checkout_obeys : (Pooled.checkout transport.watch endpoint timeout).Obeys
    (contract endpoint) .seeking Ends := by
  rw [Pooled.checkout]
  refine lend_goes.bind ?_
  rintro (_ | line) _ rfl
  · exact dial_goes
  · exact .got

end Quest

end ShardSweep
