import ShardSweep.Client.FsCache
import ShardSweep.Client.Retry
import ShardSweep.Client.Shards

/-!
# The client

A `Client` answers requests by sending them to the endpoint that is responsible:
requests about a directory go to its shard, a fetch of attributes to the shard of the
parent if that is known and of the inode itself otherwise, and requests about
filesystems to the coordinators.  It remembers what it learns of filesystems, and a
filesystem that it remembers costs no request.

* `Request.destination`: who is responsible for a request;
* `Client.metadata`: the client as somebody who answers requests.
-/

namespace ShardSweep

/-- Who is responsible for a request. -/
inductive Destination where
  | shardOf (i : Inode)
  | coordinators
  deriving DecidableEq, Repr

/-- Who is responsible for a request. -/
def Request.destination : Request → Destination
  | .listEntries _ parent _ => .shardOf parent
  | .getAttr _ i hint _ => .shardOf (if 0 < hint then hint else i)
  | .deleteFile _ parent _ _ => .shardOf parent
  | .deleteDir _ parent _ _ => .shardOf parent
  | .getEntry _ parent _ _ => .shardOf parent
  | .getFsInfo _ => .coordinators
  | .listFsInfo => .coordinators

/-- What stays the same during the life of a client. -/
structure Client where
  rpc : RpcSettings
  shards : ShardTable
  coordinators : List Endpoint
  deriving DecidableEq

/-- What changes during the life of a client, and the state of its transport. -/
structure ClientState (τ κ : Type) where
  wire : Wire τ κ
  /-- The filesystem that the shard table is ready for. -/
  active : Option FsId
  cache : FsCache

namespace ClientState

variable {τ κ : Type}

/-- A client that has done nothing yet. -/
def fresh (net : τ) : ClientState τ κ :=
  ⟨.fresh net, none, .empty⟩

/-- The transport, its pool and the counters. -/
def wirePart : Proc.Part (ClientState τ κ) (Wire τ κ) where
  get := wire
  set w s := { s with wire := w }
  get_set _ _ := rfl
  set_get _ := rfl
  set_set _ _ _ := rfl

end ClientState

namespace Client

variable {τ κ : Type}

/-- The endpoints for a request. -/
def endpointsFor (c : Client) (r : Request) (s : ClientState τ κ) :
    Except RoutingError (List Endpoint) :=
  match r.destination with
  | .shardOf i => c.shards.resolve s.active i
  | .coordinators => .ok c.coordinators

/-- Send a request to whoever is responsible. -/
def send (transport : Transport τ κ) (c : Client) (r : Request) :
    Proc (ClientState τ κ) (Outcome r.Answer) := do
  match ← Proc.read (c.endpointsFor r) with
  | .error e => pure (.error (.failed (.routing e)))
  | .ok endpoints =>
    match ← (Wire.invoke transport c.rpc endpoints r).on ClientState.wirePart with
    | .error e => pure (.error (.failed (.rpc e)))
    | .ok answer => pure (.ok answer)

/-- Remember what was learned of filesystems. -/
def remember (infos : List FsInfo) : Proc (ClientState τ κ) Unit :=
  Proc.modify fun s => { s with cache := s.cache.putAll infos }

/-- The info of a filesystem, from memory if it is there. -/
def fsInfo (transport : Transport τ κ) (c : Client) (fs : FsId) :
    Proc (ClientState τ κ) (Outcome FsInfo) := do
  match ← Proc.read fun s => s.cache.get? fs with
  | some info => pure (.ok info)
  | none =>
    match ← c.send transport (.getFsInfo fs) with
    | .error h => pure (.error h)
    | .ok info => do
      remember [info]
      pure (.ok info)

/-- The infos of all filesystems, never from memory. -/
def fsInfos (transport : Transport τ κ) (c : Client) :
    Proc (ClientState τ κ) (Outcome (List FsInfo)) := do
  match ← c.send transport .listFsInfo with
  | .error h => pure (.error h)
  | .ok infos => do
    remember infos
    pure (.ok infos)

/-- Get the shard table ready for a filesystem. -/
def prepare (c : Client) (fs : FsId) : Proc (ClientState τ κ) (Outcome Unit) :=
  Proc.atomic fun s =>
    match c.shards.ready fs with
    | .error e => (.error (.failed (.routing e)), s)
    | .ok active => (.ok (), { s with active := some active })

/-- Answer a request. -/
def call (transport : Transport τ κ) (c : Client) :
    (r : Request) → Proc (ClientState τ κ) (Outcome r.Answer)
  | .getFsInfo fs => c.fsInfo transport fs
  | .listFsInfo => c.fsInfos transport
  | .listEntries fs parent epoch => c.send transport (.listEntries fs parent epoch)
  | .getAttr fs i hint epoch => c.send transport (.getAttr fs i hint epoch)
  | .deleteFile fs parent name epoch => c.send transport (.deleteFile fs parent name epoch)
  | .deleteDir fs parent name epoch => c.send transport (.deleteDir fs parent name epoch)
  | .getEntry fs parent name epoch => c.send transport (.getEntry fs parent name epoch)

/-- The client as somebody who answers requests. -/
def metadata (transport : Transport τ κ) (c : Client) : Metadata (ClientState τ κ) where
  prepare := c.prepare
  call := c.call transport

end Client

end ShardSweep
