import ShardSweep.Failure

/-!
# Shards

The inodes of a filesystem are spread over shards: of `n` groups of replicas, group
`i % n` holds inode `i`.  Before the first request the table is told which filesystem
it is for; that is refused for filesystem 0 and for a table without any endpoint.

* `groupOf_mem`: a table that is ready has a group for every inode.
-/

namespace ShardSweep

/-- Groups of replicas, each in the order in which they are to be asked. -/
structure ShardTable where
  groups : List (List Endpoint)
  deriving DecidableEq

namespace ShardTable

/-- One group for everything. -/
def single (replicas : List Endpoint) : ShardTable :=
  ⟨[replicas]⟩

/-- How many groups there are. -/
def size (t : ShardTable) : Nat :=
  t.groups.length

/-- Some group has an endpoint. -/
def hasEndpoint (t : ShardTable) : Bool :=
  t.groups.any fun group => !group.isEmpty

/-- Get ready for a filesystem: the outcome, and the filesystem in use afterwards. -/
def ready (t : ShardTable) (fs : FsId) : Except RoutingError FsId :=
  if fs = 0 then .error (.invalidFilesystem fs)
  else if t.hasEndpoint then .ok fs
  else .error (.noShards fs)

/-- The group that holds an inode. -/
def groupOf (t : ShardTable) (i : Inode) : List Endpoint :=
  t.groups[i % t.size]?.getD []

/-- The endpoints for an inode, once the table is ready for some filesystem. -/
def resolve (t : ShardTable) (active : Option FsId) (i : Inode) :
    Except RoutingError (List Endpoint) :=
  match active with
  | none => .error .notInitialized
  | some _ => .ok (t.groupOf i)

/-- A table that is ready has a group for every inode. -/
theorem groupOf_mem {t : ShardTable} {fs active : FsId} (h : t.ready fs = .ok active)
    (i : Inode) : t.groupOf i ∈ t.groups := by
  have hne : t.groups ≠ [] := by
    intro hnil
    simp only [ready, hasEndpoint, hnil] at h
    split at h <;> simp at h
  have hlt : i % t.groups.length < t.groups.length :=
    Nat.mod_lt _ (List.length_pos_iff.2 hne)
  simp [groupOf, size, List.getElem?_eq_getElem hlt]

end ShardTable

end ShardSweep
