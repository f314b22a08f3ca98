import ShardSweep.Cluster.Tree
import ShardSweep.Transport

/-!
# A metadata service in memory

A `Service` holds the trees of several filesystems, each with its generation, and
answers every request as a cluster of shards does.  All endpoints serve all of the
filesystems.  What can go wrong with a cluster can be arranged: endpoints that
nobody reaches, connections that are broken from the start, a number of requests
that fail on the way or are refused, inodes that cannot be listed or looked up,
and a latency, which is compared with the time a request may take.

* `Service.serve`: what a server answers, and the service afterwards;
* `Service.deliver`: the same behind the faults of the way there;
* `Service.transport`: the service as something to dial;
* `Service.serve_error`: a refused request leaves the service alone.
-/

namespace ShardSweep

/-- One filesystem of a service. -/
structure Filesystem where
  name : String
  epoch : Epoch
  tree : Tree

/-- Faults that wait for their requests. -/
structure Faults where
  /-- Requests that will fail on the way. -/
  transportBurst : Nat
  /-- Connections that will be broken from the start. -/
  brokenDials : Nat
  /-- Requests that will be refused with `statusCode`. -/
  statusBurst : Nat
  statusCode : StatusCode
  /-- Directories that cannot be listed. -/
  listFailures : Std.TreeMap Inode StatusCode
  /-- Inodes whose attributes cannot be fetched. -/
  attrFailures : Std.TreeMap Inode StatusCode

/-- Nothing waits to go wrong. -/
def Faults.none : Faults :=
  ⟨0, 0, 0, .busy, ∅, ∅⟩

/-- Requests received so far, by their kind. -/
structure CallCounts where
  listEntries : Nat
  getAttr : Nat
  deleteFile : Nat
  deleteDir : Nat
  getEntry : Nat
  getFsInfo : Nat
  listFsInfo : Nat
  deriving DecidableEq, Repr

namespace CallCounts

/-- No request yet. -/
def zero : CallCounts :=
  ⟨0, 0, 0, 0, 0, 0, 0⟩

/-- Count a request. -/
def bump (c : CallCounts) : RequestKind → CallCounts
  | .listEntries => { c with listEntries := c.listEntries + 1 }
  | .getAttr => { c with getAttr := c.getAttr + 1 }
  | .deleteFile => { c with deleteFile := c.deleteFile + 1 }
  | .deleteDir => { c with deleteDir := c.deleteDir + 1 }
  | .getEntry => { c with getEntry := c.getEntry + 1 }
  | .getFsInfo => { c with getFsInfo := c.getFsInfo + 1 }
  | .listFsInfo => { c with listFsInfo := c.listFsInfo + 1 }

/-- Requests that remove something. -/
def deletes (c : CallCounts) : Nat :=
  c.deleteFile + c.deleteDir

/-- Requests of all kinds. -/
def total (c : CallCounts) : Nat :=
  c.listEntries + c.getAttr + c.deletes + c.getEntry + c.getFsInfo + c.listFsInfo

/-- Every request is counted once. -/
theorem total_bump (c : CallCounts) (kind : RequestKind) : (c.bump kind).total = c.total + 1 := by
  cases kind <;> simp only [bump, total, deletes] <;> omega

end CallCounts

/-- How many listings are being served. -/
structure ListingGauge where
  active : Nat
  /-- The most at once. -/
  peak : Nat
  deriving DecidableEq, Repr

namespace ListingGauge

/-- A listing begins. -/
def enter (g : ListingGauge) : ListingGauge :=
  ⟨g.active + 1, max g.peak (g.active + 1)⟩

/-- A listing ends. -/
def leave (g : ListingGauge) : ListingGauge :=
  ⟨g.active - 1, g.peak⟩

end ListingGauge

/-- A metadata service in memory. -/
structure Service where
  filesystems : Std.TreeMap FsId Filesystem
  /-- Endpoints that refuse to be dialed. -/
  unreachable : List Endpoint
  /-- Endpoints that were dialed, the latest first. -/
  dials : List Endpoint
  faults : Faults
  latency : Duration
  /-- Names of the removed entries, the latest first. -/
  deleted : List String
  counts : CallCounts
  listings : ListingGauge

namespace Service

/-- A filesystem that holds its root only. -/
def freshFilesystem (name : String) : Filesystem :=
  ⟨name, .first, .rootOnly⟩

/-- A service with one empty filesystem. -/
def new (fs : FsId) (name : String) : Service where
  filesystems := (∅ : Std.TreeMap FsId Filesystem).insert fs (freshFilesystem name)
  unreachable := []
  dials := []
  faults := .none
  latency := ⟨0⟩
  deleted := []
  counts := .zero
  listings := ⟨0, 0⟩

/-- The filesystem of a number. -/
def filesystem? (s : Service) (fs : FsId) : Option Filesystem :=
  s.filesystems[fs]?

/-- What a service tells about one of its filesystems. -/
def infoOf (fs : FsId) (f : Filesystem) : FsInfo :=
  ⟨fs, f.name, f.epoch⟩

/-- Replace a filesystem. -/
def putFilesystem (s : Service) (fs : FsId) (f : Filesystem) : Service :=
  { s with filesystems := s.filesystems.insert fs f }

/-- Only the filesystem of that number is replaced. -/
theorem filesystem?_putFilesystem (s : Service) (fs fs' : FsId) (f : Filesystem) :
    (s.putFilesystem fs f).filesystem? fs' = if fs' = fs then some f else s.filesystem? fs' := by
  simp [putFilesystem, filesystem?, Std.TreeMap.getElem?_insert, @eq_comm _ fs']

/-- Add an empty filesystem, unless its number is taken. -/
def addFilesystem (s : Service) (fs : FsId) (name : String) : Service :=
  match s.filesystem? fs with
  | some _ => s
  | none => s.putFilesystem fs (freshFilesystem name)

/-- Start the next generation of a filesystem. -/
def bumpEpoch (s : Service) (fs : FsId) : Service :=
  match s.filesystem? fs with
  | none => s
  | some f => s.putFilesystem fs { f with epoch := f.epoch.next }

/-- Build something in the tree of a filesystem, if there is one; what was built stays, also
if the building was refused later on. -/
def build {α : Type} (s : Service) (fs : FsId) (edit : Tree → Except Status α × Tree) :
    Option (Except Status α) × Service :=
  match s.filesystem? fs with
  | none => (none, s)
  | some f =>
    let (result, tree) := edit f.tree
    (some result, s.putFilesystem fs { f with tree := tree })

/-- How often an endpoint was dialed. -/
def dialsTo (s : Service) (endpoint : Endpoint) : Nat :=
  s.dials.count endpoint

/-- The names of the removed entries in the order of their removal. -/
def deletedLog (s : Service) : List String :=
  s.deleted.reverse

/-- Whether one name was removed before another, if both were; of several removals of a
name the first one counts. -/
def removedBefore (s : Service) (x y : String) : Option Bool :=
  match s.deletedLog.idxOf? x, s.deletedLog.idxOf? y with
  | some i, some j => some (i < j)
  | _, _ => none

/-- Make an endpoint refuse to be dialed. -/
def setUnreachable (s : Service) (endpoint : Endpoint) : Service :=
  { s with unreachable := endpoint :: s.unreachable }

/-- Refuse the next requests with a code. -/
def failCalls (s : Service) (n : Nat) (code : StatusCode) : Service :=
  { s with faults := { s.faults with statusBurst := n, statusCode := code } }

/-- Let the next requests fail on the way. -/
def failTransport (s : Service) (n : Nat) : Service :=
  { s with faults := { s.faults with transportBurst := n } }

/-- Let the next connections be broken from the start. -/
def breakConnections (s : Service) (n : Nat) : Service :=
  { s with faults := { s.faults with brokenDials := n } }

/-- Refuse every listing of a directory. -/
def failListing (s : Service) (i : Inode) (code : StatusCode) : Service :=
  { s with faults := { s.faults with listFailures := s.faults.listFailures.insert i code } }

/-- Refuse every fetch of the attributes of an inode. -/
def failAttr (s : Service) (i : Inode) (code : StatusCode) : Service :=
  { s with faults := { s.faults with attrFailures := s.faults.attrFailures.insert i code } }

/-- Let every request take some time. -/
def setLatency (s : Service) (latency : Duration) : Service :=
  { s with latency := latency }

/-- A filesystem, whatever its generation. -/
def known (s : Service) (fs : FsId) : Except Status Filesystem :=
  match s.filesystem? fs with
  | none => .error ⟨.noSuchFilesystem, "fs " ++ toString fs⟩
  | some f => .ok f

/-- A filesystem that is still at the generation a request was made for. -/
def current (s : Service) (fs : FsId) (epoch : Epoch) : Except Status Filesystem :=
  match s.known fs with
  | .error status => .error status
  | .ok f =>
    if epoch = f.epoch then .ok f
    else .error ⟨.staleEpoch, "epoch " ++ epoch.text ++ " != " ++ f.epoch.text⟩

/-- Look something up in the tree of a filesystem. -/
def look {α : Type} (s : Service) (fs : FsId) (epoch : Epoch) (find : Tree → Except Status α) :
    Except Status α :=
  match s.current fs epoch with
  | .error status => .error status
  | .ok f => find f.tree

/-- Refuse what was arranged to be refused, and go on otherwise. -/
def orArranged {α : Type} (failures : Std.TreeMap Inode StatusCode) (i : Inode)
    (otherwise : Except Status α) : Except Status α :=
  match failures[i]? with
  | some code => .error ⟨code, Tree.inodeText i⟩
  | none => otherwise

/-- Take an entry out of the tree of a filesystem and log its name. -/
def remove (s : Service) (fs : FsId) (epoch : Epoch) (name : String)
    (edit : Tree → Except Status Tree) : Except Status Unit × Service :=
  match s.current fs epoch with
  | .error status => (.error status, s)
  | .ok f =>
    match edit f.tree with
    | .error status => (.error status, s)
    | .ok t =>
      (.ok (), { s.putFilesystem fs { f with tree := t } with deleted := name :: s.deleted })

/-- What a server answers, and the service afterwards. -/
def serve (s : Service) : (r : Request) → Except Status r.Answer × Service
  | .listEntries fs parent epoch =>
    (s.look fs epoch fun t => orArranged s.faults.listFailures parent (t.list parent), s)
  | .getAttr fs i _ epoch =>
    (s.look fs epoch fun t => orArranged s.faults.attrFailures i (t.attr i), s)
  | .deleteFile fs parent name epoch => s.remove fs epoch name (·.removeFile parent name)
  | .deleteDir fs parent name epoch => s.remove fs epoch name (·.removeDir parent name)
  | .getEntry fs parent name epoch => (s.look fs epoch fun t => t.find parent name, s)
  | .getFsInfo fs => ((s.known fs).map (infoOf fs), s)
  | .listFsInfo => (.ok (s.filesystems.toList.map fun (fs, f) => infoOf fs f), s)

/-- What happens to a request on the way to `endpoint`. -/
def onTheWay (s : Service) (endpoint : Endpoint) (timeout : Duration) :
    Option TransportError × Service :=
  if 0 < s.faults.transportBurst then
    (some (.disconnected endpoint "injected transport failure"),
      s.failTransport (s.faults.transportBurst - 1))
  else if timeout.nanos < s.latency.nanos then (some (.timedOut endpoint timeout), s)
  else (none, s)

/-- A refusal that was arranged for the next requests. -/
def arrangedRefusal (s : Service) : Option Status × Service :=
  if 0 < s.faults.statusBurst then
    (some ⟨s.faults.statusCode, "injected status"⟩,
      s.failCalls (s.faults.statusBurst - 1) s.faults.statusCode)
  else (none, s)

/-- Count a request as received. -/
def count (s : Service) (kind : RequestKind) : Service :=
  { s with counts := s.counts.bump kind }

/-- A request behind the faults of the way there. -/
def deliver (s : Service) (endpoint : Endpoint) (timeout : Duration) (r : Request) :
    Delivery r.Answer × Service :=
  match (s.count r.kind).onTheWay endpoint timeout with
  | (some e, s') => (.error e, s')
  | (none, s') =>
    match s'.arrangedRefusal with
    | (some status, s'') => (.ok (.error status), s'')
    | (none, s'') =>
      let (reply, s''') := s''.serve r
      (.ok reply, s''')

end Service

/-- A connection to a service. -/
structure Link where
  endpoint : Endpoint
  broken : Bool
  deriving DecidableEq

namespace Service

/-- Open a connection.  Every dial counts, and a dial that is refused leaves the broken
connections to those that are not. -/
def open? (s : Service) (endpoint : Endpoint) : Except TransportError Link × Service :=
  let dialed := { s with dials := endpoint :: s.dials }
  if s.unreachable.contains endpoint then
    (.error (.connectFailed endpoint "connection refused"), dialed)
  else
    (.ok ⟨endpoint, 0 < s.faults.brokenDials⟩, dialed.breakConnections (s.faults.brokenDials - 1))

/-- A request over a connection; over a broken one it only gets counted. -/
def receive (s : Service) (link : Link) (timeout : Duration) (r : Request) :
    Delivery r.Answer × Service :=
  if link.broken then
    (.error (.disconnected link.endpoint "connection reset by peer"), s.count r.kind)
  else s.deliver link.endpoint timeout r

/-- A listing begins. -/
def enterListing (s : Service) : Service :=
  { s with listings := s.listings.enter }

/-- A listing ends. -/
def leaveListing (s : Service) : Service :=
  { s with listings := s.listings.leave }

/-- Carry a request; listings are counted while they last. -/
def issue (link : Link) (timeout : Duration) (r : Request) : Proc Service (Delivery r.Answer) :=
  match r.kind with
  | .listEntries => do
    Proc.modify enterListing
    let delivery ← Proc.atomic fun s => s.receive link timeout r
    Proc.modify leaveListing
    pure delivery
  | _ => Proc.atomic fun s => s.receive link timeout r

/-- The service as something to dial. -/
def transport : Transport Service Link where
  dial endpoint _ := Proc.atomic fun s => s.open? endpoint
  issue := issue

/-- A refused request leaves the service alone. -/
theorem serve_error {s s' : Service} {r : Request} {status : Status}
    (h : s.serve r = (.error status, s')) : s' = s := by
  have hremove : ∀ fs epoch name edit, s.remove fs epoch name edit = (.error status, s') → s' = s := by
    intro fs epoch name edit h
    unfold remove at h
    split at h
    · exact (Prod.mk.inj h).2.symm
    · split at h
      · exact (Prod.mk.inj h).2.symm
      · cases h
  cases r with
  | deleteFile fs parent name epoch => exact hremove fs epoch name (·.removeFile parent name) h
  | deleteDir fs parent name epoch => exact hremove fs epoch name (·.removeDir parent name) h
  | _ => exact (Prod.mk.inj h).2.symm

end Service

end ShardSweep
