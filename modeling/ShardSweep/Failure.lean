import ShardSweep.Duration
import ShardSweep.Endpoint.Parse
import ShardSweep.Entry

/-!
# Failures and their wording

Failures come in layers, and each layer keeps the cause it wraps:

* `TransportError`: an endpoint could not be dialed or talked to;
* `Status`: an endpoint answered with a code, some of which are worth a retry;
* `AttemptError`: one of these two, the outcome of a single attempt;
* `RpcError`: what is left of a request when its attempts are used up;
* `RoutingError`, `SettingsError`, `Refusal`: no request was sent at all;
* `WalkError`: any of them, or what a walk itself can run into.

`message` is the wording of each, `sources` the messages of the wrapped causes
from the outside in, and `WalkError.status?` the status that a server answered.

* `StatusCode.isRetryable_iff`: the three codes that are worth a retry;
* `WalkError.isPermanent_iff`: only a rejected request is permanent.
-/

namespace ShardSweep

/-- The kinds of request a metadata server answers. -/
inductive RequestKind where
  | listEntries
  | getAttr
  | deleteFile
  | deleteDir
  | getEntry
  | getFsInfo
  | listFsInfo
  deriving DecidableEq, Repr

/-- The name of a kind of request in messages. -/
def RequestKind.name : RequestKind → String
  | .listEntries => "ListEntries"
  | .getAttr => "GetInodeAttr"
  | .deleteFile => "DeleteFileEntry"
  | .deleteDir => "DeleteDirectoryEntry"
  | .getEntry => "GetDentry"
  | .getFsInfo => "GetFsInfo"
  | .listFsInfo => "ListFsInfo"

/-- An endpoint could not be dialed or talked to. -/
inductive TransportError where
  | connectFailed (endpoint : Endpoint) (reason : String)
  | timedOut (endpoint : Endpoint) (timeout : Duration)
  | disconnected (endpoint : Endpoint) (reason : String)
  deriving DecidableEq

/-- The wording of a transport failure. -/
def TransportError.message : TransportError → String
  | .connectFailed endpoint reason =>
    "Failed to connect to '" ++ endpoint.text ++ "': " ++ reason
  | .timedOut endpoint timeout =>
    "RPC to '" ++ endpoint.text ++ "' timed out after " ++ timeout.text
  | .disconnected endpoint reason =>
    "Connection to '" ++ endpoint.text ++ "' lost: " ++ reason

/-- The codes a server refuses a request with. -/
inductive StatusCode where
  /-- The request belongs to another generation of the namespace. -/
  | staleEpoch
  /-- The inode has moved to another shard. -/
  | shardMoved
  | busy
  | notFound
  | notDirectory
  | isDirectory
  | notEmpty
  | noSuchFilesystem
  | internal
  deriving DecidableEq, Repr

namespace StatusCode

/-- A retry may find the server in a better state. -/
def isRetryable : StatusCode → Bool
  | .staleEpoch | .shardMoved | .busy => true
  | _ => false

/-- The three codes that are worth a retry. -/
theorem isRetryable_iff (c : StatusCode) :
    c.isRetryable = true ↔ c = .staleEpoch ∨ c = .shardMoved ∨ c = .busy := by
  cases c <;> simp [isRetryable]

/-- The wording of a code. -/
def message : StatusCode → String
  | .staleEpoch => "stale epoch"
  | .shardMoved => "shard moved"
  | .busy => "server busy"
  | .notFound => "not found"
  | .notDirectory => "not a directory"
  | .isDirectory => "is a directory"
  | .notEmpty => "directory not empty"
  | .noSuchFilesystem => "no such filesystem"
  | .internal => "internal error"

end StatusCode

/-- A server's refusal: its code and what it says about it. -/
structure Status where
  code : StatusCode
  text : String
  deriving DecidableEq, Repr

namespace Status

/-- Decided by the code alone. -/
def isRetryable (s : Status) : Bool :=
  s.code.isRetryable

/-- The wording of a refusal. -/
def message (s : Status) : String :=
  s.code.message ++ ": " ++ s.text

end Status

/-- Why one attempt failed. -/
inductive AttemptError where
  | transport (e : TransportError)
  | status (s : Status)
  deriving DecidableEq

namespace AttemptError

/-- Transport failures are always worth a retry, refusals by their code. -/
def isRetryable : AttemptError → Bool
  | .transport _ => true
  | .status s => s.isRetryable

/-- The wording of a failed attempt. -/
def message : AttemptError → String
  | .transport e => e.message
  | .status s => "server returned " ++ s.message

/-- A refusal is the cause of its attempt; a transport failure is the attempt's own. -/
def sources : AttemptError → List String
  | .transport _ => []
  | .status s => [s.message]

/-- The server's refusal, if the server answered. -/
def status? : AttemptError → Option Status
  | .transport _ => none
  | .status s => some s

end AttemptError

/-- What is left of a request that has no answer. -/
inductive RpcError where
  /-- There was no endpoint to send it to. -/
  | noEndpoint (kind : RequestKind)
  /-- A server refused it for good. -/
  | rejected (kind : RequestKind) (endpoint : Endpoint) (status : Status)
  /-- Every attempt failed, the last one with `last`. -/
  | exhausted (kind : RequestKind) (endpoint : Endpoint) (attempts : Nat) (last : AttemptError)
  deriving DecidableEq

namespace RpcError

/-- The wording of a failed request. -/
def message : RpcError → String
  | .noEndpoint kind => kind.name ++ ": no endpoint to send the request to"
  | .rejected kind endpoint status =>
    kind.name ++ " on '" ++ endpoint.text ++ "' rejected: " ++ status.message
  | .exhausted kind endpoint attempts last =>
    kind.name ++ " on '" ++ endpoint.text ++ "' failed after " ++ toString attempts ++
      " attempts: " ++ last.message

/-- The last attempt is the cause of running out of attempts. -/
def sources : RpcError → List String
  | .exhausted _ _ _ last => last.message :: last.sources
  | _ => []

/-- The server's refusal, if the server answered at all. -/
def status? : RpcError → Option Status
  | .noEndpoint _ => none
  | .rejected _ _ status => some status
  | .exhausted _ _ _ last => last.status?

end RpcError

/-- No shard could be chosen. -/
inductive RoutingError where
  | notInitialized
  | noShards (fs : FsId)
  | invalidFilesystem (fs : FsId)
  deriving DecidableEq, Repr

/-- The wording of a routing failure. -/
def RoutingError.message : RoutingError → String
  | .notInitialized => "Router not initialized - call init_for_filesystem first"
  | .noShards fs => "No shards configured for filesystem " ++ toString fs
  | .invalidFilesystem fs => "Invalid filesystem id " ++ toString fs

/-- Settings that cannot be used. -/
inductive SettingsError where
  | invalidThreadCount (count max : Nat)
  | invalidEndpoint (address reason : String)
  | invalidTimeout (timeout : Duration)
  | noCoordinator
  deriving DecidableEq, Repr

namespace SettingsError

/-- A bad address in the settings. -/
def ofBadAddress (bad : BadAddress) : SettingsError :=
  .invalidEndpoint bad.address bad.fault.message

/-- The wording of a failure of the settings. -/
def message : SettingsError → String
  | .invalidThreadCount count max =>
    "Invalid thread count " ++ toString count ++ ": must be between 1 and " ++ toString max
  | .invalidEndpoint address reason => "Invalid endpoint '" ++ address ++ "': " ++ reason
  | .invalidTimeout timeout =>
    "Invalid RPC timeout " ++ timeout.text ++ ": must be greater than zero"
  | .noCoordinator => "No coordinator address configured"

end SettingsError

/-- A call whose arguments make no sense, refused before any request is sent. -/
inductive Refusal where
  | rootDeletion
  | invalidConcurrency (threads max : Nat)
  | relativePath (path : String)
  | emptyName
  deriving DecidableEq, Repr

/-- The wording of a refused call. -/
def Refusal.message : Refusal → String
  | .rootDeletion => "Root directory can not be deleted"
  | .invalidConcurrency threads max =>
    "Invalid concurrency bound " ++ toString threads ++ ": must be between 1 and " ++ toString max
  | .relativePath path => "Path '" ++ path ++ "' is not absolute"
  | .emptyName => "Entry name must not be empty"

/-- Everything a walk or a lookup can fail with. -/
inductive WalkError where
  | rpc (e : RpcError)
  | routing (e : RoutingError)
  | settings (e : SettingsError)
  | refused (e : Refusal)
  /-- A thread of the walk died; `text` is what it died with. -/
  | workerDied (name text : String)
  | notFound (parent : Inode) (name : String)
  | unknownFilesystem (name : String)
  | notADirectory (path : String)
  | cancelled
  deriving DecidableEq

namespace WalkError

/-- The wording of a failure. -/
def message : WalkError → String
  | .rpc e => "RPC error: " ++ e.message
  | .routing e => "Router error: " ++ e.message
  | .settings e => "Configuration error: " ++ e.message
  | .refused e => "Rejected: " ++ e.message
  | .workerDied name text => "Worker error: Worker " ++ name ++ " panicked: " ++ text
  | .notFound parent name => "'" ++ name ++ "' not found under inode " ++ toString parent
  | .unknownFilesystem name => "Filesystem '" ++ name ++ "' not found"
  | .notADirectory path => "'" ++ path ++ "' is not a directory"
  | .cancelled => "Walk cancelled"

/-- The wrapped causes, outermost first. -/
def sources : WalkError → List String
  | .rpc e => e.message :: e.sources
  | .routing e => [e.message]
  | .settings e => [e.message]
  | .refused e => [e.message]
  | .workerDied name text => ["Worker " ++ name ++ " panicked: " ++ text]
  | _ => []

/-- A server has refused the request for good. -/
def isPermanent : WalkError → Bool
  | .rpc (.rejected ..) => true
  | _ => false

/-- The server's refusal, if a server answered. -/
def status? : WalkError → Option Status
  | .rpc e => e.status?
  | _ => none

/-- Only a rejected request is permanent. -/
theorem isPermanent_iff (e : WalkError) :
    e.isPermanent = true ↔ ∃ kind endpoint status, e = .rpc (.rejected kind endpoint status) := by
  constructor
  · intro h
    match e, h with
    | .rpc (.rejected kind endpoint status), _ => exact ⟨kind, endpoint, status, rfl⟩
  · intro h
    obtain ⟨_, _, _, rfl⟩ := h
    rfl

end WalkError

end ShardSweep
