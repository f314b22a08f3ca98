import ShardSweep.Client.Basic
import ShardSweep.Cluster.Service

/-!
# One service and those who use it

A `Deployment` is a service in memory together with a bare pool, a wire that
retries, and a client.  Each of the three has connections of its own, and they meet
in the service only.

* `pooledPart`, `wirePart`, `clientPart`: each user with the service behind it.
-/

namespace ShardSweep

/-- A service in memory and the state of its users. -/
structure Deployment where
  service : Service
  /-- The bare pool. -/
  pool : Pool Link
  /-- The pool and the counters of the wire. -/
  wirePool : Pool Link
  wireTally : CallTally
  /-- What belongs to the client. -/
  clientPool : Pool Link
  clientTally : CallTally
  active : Option FsId
  cache : FsCache

namespace Deployment

/-- A service that nobody has used yet. -/
def fresh (service : Service) : Deployment :=
  ⟨service, .empty, .empty, .zero, .empty, .zero, none, .empty⟩

/-- Change the service from outside. -/
def onService (f : Service → Service) (d : Deployment) : Deployment :=
  { d with service := f d.service }

/-- The bare pool in front of the service. -/
def pooledPart : Proc.Part Deployment (Pooled Service Link) where
  get d := ⟨d.service, d.pool⟩
  set p d := { d with service := p.net, pool := p.pool }
  get_set _ _ := rfl
  set_get _ := rfl
  set_set _ _ _ := rfl

/-- The wire in front of the service. -/
def wirePart : Proc.Part Deployment (Wire Service Link) where
  get d := ⟨⟨d.service, d.wirePool⟩, d.wireTally⟩
  set w d := { d with
    service := w.pooled.net
    wirePool := w.pooled.pool
    wireTally := w.tally }
  get_set _ _ := rfl
  set_get _ := rfl
  set_set _ _ _ := rfl

/-- The client in front of the service. -/
def clientPart : Proc.Part Deployment (ClientState Service Link) where
  get d := ⟨⟨⟨d.service, d.clientPool⟩, d.clientTally⟩, d.active, d.cache⟩
  set s d := { d with
    service := s.wire.pooled.net
    clientPool := s.wire.pooled.pool
    clientTally := s.wire.tally
    active := s.active
    cache := s.cache }
  get_set _ _ := rfl
  set_get _ := rfl
  set_set _ _ _ := rfl

/-- A client that answers requests with the service of its deployment. -/
def metadata (c : Client) : Metadata Deployment :=
  (c.metadata Service.transport).on clientPart

end Deployment

end ShardSweep
