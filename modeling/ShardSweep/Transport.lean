import ShardSweep.Metadata

/-!
# Transports

A transport dials endpoints and carries requests over the connections it gets.  Its
state is a store of type `τ`, and a connection is a handle of type `κ` into it.  A
request can go wrong in two layers: the transport fails, or the server answers with
a refusal, which leaves the connection usable.
-/

namespace ShardSweep

/-- What comes back over a connection: a transport failure, or the server's reply. -/
abbrev Delivery (α : Type) : Type := Except TransportError (Except Status α)

/-- A way to reach metadata servers. -/
structure Transport (τ κ : Type) where
  /-- Open a connection to an endpoint. -/
  dial : Endpoint → Duration → Proc τ (Except TransportError κ)
  /-- Carry one request over a connection, within a time. -/
  issue : κ → Duration → (r : Request) → Proc τ (Delivery r.Answer)

end ShardSweep
