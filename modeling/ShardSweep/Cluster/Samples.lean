import ShardSweep.Cluster.Tree

/-!
# Trees to try things on

`Tree.growBush` fills a directory with files and equally filled subdirectories, and
`Tree.growChain` nests directories in each other.  Both stop at the first entry that
cannot be created, and keep what was created before.
-/

namespace ShardSweep

/-- Building a tree step by step; what was built stays if a step fails. -/
abbrev Growing (α : Type) : Type := ExceptT Status (StateM Tree) α

namespace Tree

/-- One step of building. -/
def growing {α : Type} (edit : Tree → Except Status (α × Tree)) : Growing α := fun t =>
  match edit t with
  | .ok (a, t') => (.ok a, t')
  | .error status => (.error status, t)

/-- Fill a directory with `fanout` files, and with as many subdirectories that are filled
in the same way until `depth` is used up; the result is the sum of the lengths and
the number of entries. -/
def growBush (fanout : Nat) : (depth : Nat) → (parent : Inode) → Growing (Nat × Nat)
  | 0, parent =>
    (List.range fanout).foldlM (fun (bytes, entries) i => do
      let _ ← growing fun t => t.create parent ("f" ++ toString i) (100 + i).toUInt64
      pure (bytes + 100 + i, entries + 1)) (0, 0)
  | depth + 1, parent =>
    (List.range fanout).foldlM (fun (bytes, entries) i => do
      let length := (depth + 2) * 100 + i
      let _ ← growing fun t => t.create parent ("f" ++ toString i) length.toUInt64
      let dir ← growing fun t => t.mkdir parent ("d" ++ toString i)
      let (bytes', entries') ← growBush fanout depth dir
      pure (bytes + length + bytes', entries + 2 + entries')) (0, 0)

/-- Fill a directory with files of one, two, three bytes and so on. -/
def growFiles (files : Nat) (parent : Inode) : Growing Unit :=
  (List.range files).forM fun i => do
    let _ ← growing fun t => t.create parent ("a" ++ toString i) (i + 1).toUInt64

/-- Nest `left` directories in each other, numbered from `number` on, each with its files;
the result is the innermost. -/
def growChain (files : Nat) : (left number : Nat) → (parent : Inode) → Growing Inode
  | 0, _, parent => pure parent
  | left + 1, number, parent => do
    let dir ← growing fun t => t.mkdir parent ("d" ++ toString number)
    growFiles files dir
    growChain files left (number + 1) dir

end Tree

end ShardSweep
