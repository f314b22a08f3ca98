import Std.Data.TreeMap
import ShardSweep.Failure
import ShardSweep.Text.Pieces

/-!
# The tree of a filesystem

A `Tree` is the namespace of one filesystem: its nodes by inode, each with its
attributes and, for a directory, its entries in the order of their names.  Every
operation either succeeds or refuses with the status that a server answers, and
leaves the tree alone in that case.

* `dir`, `child`, `entry`: looking things up;
* `mkdir`, `create`, `link`, `makePath`: building;
* `removeFile`, `removeDir`: taking away;
* `lookup`: the inode at a path;
* `node?_modifyNode`, `node?_freeIfNameless`: each changes one node only.
-/

namespace ShardSweep

/-- A file or directory. -/
structure Node where
  attr : Attr
  /-- The entries of a directory. -/
  children : Std.TreeMap String Inode

/-- The namespace of one filesystem. -/
structure Tree where
  nodes : Std.TreeMap Inode Node
  /-- The inode that the next node gets. -/
  nextInode : Inode

namespace Tree

/-- A file of some length under a directory, or a directory under another. -/
def newNode (inode parent : Inode) (kind : Kind) (length : UInt64) : Node where
  attr := ⟨inode, length, if kind.isDir then 2 else 1, kind, [parent]⟩
  children := ∅

/-- The root directory alone. -/
def rootOnly : Tree where
  nodes := (∅ : Std.TreeMap Inode Node).insert rootInode ⟨⟨rootInode, 0, 2, .dir, []⟩, ∅⟩
  nextInode := rootInode + 1

/-- The node of an inode. -/
def node? (t : Tree) (i : Inode) : Option Node :=
  t.nodes[i]?

/-- A tree that holds its root only has no other node. -/
theorem node?_rootOnly (i : Inode) (h : i ≠ rootInode) : rootOnly.node? i = none := by
  simp [rootOnly, node?, Ne.symm h]

/-- The inode is in use. -/
def contains (t : Tree) (i : Inode) : Bool :=
  t.nodes.contains i

/-- How many inodes are in use, the root included. -/
def size (t : Tree) : Nat :=
  t.nodes.size

/-- How messages name an inode. -/
def inodeText (i : Inode) : String :=
  "inode " ++ toString i

/-- How messages name an entry. -/
def entryText (parent : Inode) (name : String) : String :=
  "'" ++ name ++ "' under inode " ++ toString parent

/-- The directory of an inode. -/
def dir (t : Tree) (i : Inode) : Except Status Node :=
  match t.node? i with
  | none => .error ⟨.notFound, inodeText i⟩
  | some node => if node.attr.kind.isDir then .ok node else .error ⟨.notDirectory, inodeText i⟩

/-- The inode of an entry. -/
def child (t : Tree) (parent : Inode) (name : String) : Except Status Inode :=
  match t.dir parent with
  | .error status => .error status
  | .ok node =>
    match node.children[name]? with
    | none => .error ⟨.notFound, entryText parent name⟩
    | some i => .ok i

/-- An entry as it is listed; an inode that is not in use counts as a file. -/
def entry (t : Tree) (parent : Inode) (name : String) (i : Inode) : Entry where
  name := name
  inode := i
  parent := parent
  kind := match t.node? i with
    | none => .file
    | some node => node.attr.kind

/-- The entries of a directory in the order of their names. -/
def list (t : Tree) (parent : Inode) : Except Status (List Entry) :=
  match t.dir parent with
  | .error status => .error status
  | .ok node => .ok (node.children.toList.map fun (name, i) => t.entry parent name i)

/-- The attributes of an inode. -/
def attr (t : Tree) (i : Inode) : Except Status Attr :=
  match t.node? i with
  | none => .error ⟨.notFound, inodeText i⟩
  | some node => .ok node.attr

/-- One entry of a directory. -/
def find (t : Tree) (parent : Inode) (name : String) : Except Status Entry :=
  match t.child parent name with
  | .error status => .error status
  | .ok i => .ok (t.entry parent name i)

/-- Change the node of an inode, if it is in use. -/
def modifyNode (t : Tree) (i : Inode) (f : Node → Node) : Tree :=
  match t.node? i with
  | none => t
  | some node => { t with nodes := t.nodes.insert i (f node) }

/-- Only the node of that inode changes. -/
theorem node?_modifyNode (t : Tree) (i j : Inode) (f : Node → Node) :
    (t.modifyNode i f).node? j = if j = i then (t.node? i).map f else t.node? j := by
  unfold modifyNode
  cases h : t.node? i with
  | none => by_cases hj : j = i <;> simp [hj, h]
  | some node => simp [node?, Std.TreeMap.getElem?_insert, @eq_comm _ j]

/-- Give a node an entry. -/
def putChild (name : String) (i : Inode) (node : Node) : Node :=
  { node with children := node.children.insert name i }

/-- Take an entry from a node. -/
def dropChild (name : String) (node : Node) : Node :=
  { node with children := node.children.erase name }

/-- Count one name more, held by `parent`. -/
def addName (parent : Inode) (node : Node) : Node :=
  { node with attr := { node.attr with
    nlink := node.attr.nlink + 1
    parents := node.attr.parents ++ [parent] } }

/-- Count one name less, of those held by `parent`. -/
def dropName (parent : Inode) (node : Node) : Node :=
  { node with attr := { node.attr with
    nlink := node.attr.nlink - 1
    parents := node.attr.parents.erase parent } }

/-- The directory is free for an entry of this name. -/
def checkFree (t : Tree) (parent : Inode) (name : String) : Except Status Unit :=
  match t.dir parent with
  | .error status => .error status
  | .ok node =>
    if node.children.contains name then
      .error ⟨.internal, "'" ++ name ++ "' already exists under inode " ++ toString parent⟩
    else .ok ()

/-- A name that a path can go through. -/
def isName (name : String) : Bool :=
  name != "" && !name.toList.contains '/'

/-- Put a new node under a directory. -/
def insert (t : Tree) (parent : Inode) (name : String) (kind : Kind) (length : UInt64) :
    Except Status (Inode × Tree) :=
  if isName name then
    match t.checkFree parent name with
    | .error status => .error status
    | .ok () =>
      let i := t.nextInode
      .ok (i, modifyNode
        { nodes := t.nodes.insert i (newNode i parent kind length), nextInode := i + 1 }
        parent (putChild name i))
  else .error ⟨.internal, "invalid name '" ++ name ++ "'"⟩

/-- Create an empty directory. -/
def mkdir (t : Tree) (parent : Inode) (name : String) : Except Status (Inode × Tree) :=
  t.insert parent name .dir 0

/-- Create a file. -/
def create (t : Tree) (parent : Inode) (name : String) (length : UInt64) :
    Except Status (Inode × Tree) :=
  t.insert parent name .file length

/-- Give a file another name.  The name may be any text: nothing but `mkdir` and `create`
asks for one that a path can go through. -/
def link (t : Tree) (parent : Inode) (name : String) (target : Inode) : Except Status Tree :=
  match t.node? target with
  | none => .error ⟨.notFound, inodeText target⟩
  | some node =>
    if node.attr.kind.isDir then .error ⟨.isDirectory, inodeText target⟩
    else
      match t.checkFree parent name with
      | .error status => .error status
      | .ok () =>
        .ok ((t.modifyNode parent (putChild name target)).modifyNode target (addName parent))

/-- The pieces of a path that are names. -/
def names (path : String) : List String :=
  (Text.split '/' path).filter (· ≠ "")

/-- Go down the names from a directory and create a directory wherever one is missing.  The
tree is handed on whatever happens, as each directory is created by an operation of its own. -/
def makeNames (t : Tree) (dir : Inode) : List String → Except Status Inode × Tree
  | [] => (.ok dir, t)
  | name :: names =>
    match t.child dir name with
    | .ok i => t.makeNames i names
    | .error _ =>
      match t.mkdir dir name with
      | .error status => (.error status, t)
      | .ok (i, t') => t'.makeNames i names

/-- Create every directory that is missing along a path; what is at its end may be a file
that was there before. -/
def makePath (t : Tree) (path : String) : Except Status Inode × Tree :=
  t.makeNames rootInode (names path)

/-- Go down the names from a directory. -/
def lookupNames (t : Tree) (dir : Inode) : List String → Option Inode
  | [] => some dir
  | name :: names =>
    match t.child dir name with
    | .ok i => t.lookupNames i names
    | .error _ => none

/-- The inode at a path. -/
def lookup (t : Tree) (path : String) : Option Inode :=
  t.lookupNames rootInode (names path)

/-- Free an inode that has no name left. -/
def freeIfNameless (t : Tree) (i : Inode) : Tree :=
  match t.node? i with
  | none => t
  | some node => if node.attr.nlink = 0 then { t with nodes := t.nodes.erase i } else t

/-- Other nodes stay, and so does a node that has a name. -/
theorem node?_freeIfNameless (t : Tree) (i j : Inode) :
    (t.freeIfNameless i).node? j =
      if j = i then (t.node? i).filter (·.attr.nlink ≠ 0) else t.node? j := by
  unfold freeIfNameless
  cases h : t.node? i with
  | none => by_cases hj : j = i <;> simp [hj, h]
  | some node =>
    by_cases hn : node.attr.nlink = 0 <;> by_cases hj : j = i
    · simp [hn, hj, node?, Option.filter]
    · simp [hn, hj, Ne.symm hj, node?, Std.TreeMap.getElem?_erase]
    · simp [hn, hj, h, Option.filter]
    · simp [hn, hj]

/-- Remove a name of a file, and the file with its last name. -/
def removeFile (t : Tree) (parent : Inode) (name : String) : Except Status Tree :=
  match t.find parent name with
  | .error status => .error status
  | .ok entry =>
    if entry.kind.isDir then .error ⟨.isDirectory, entryText parent name⟩
    else
      .ok (((t.modifyNode parent (dropChild name)).modifyNode entry.inode
        (dropName parent)).freeIfNameless entry.inode)

/-- Remove an empty directory. -/
def removeDir (t : Tree) (parent : Inode) (name : String) : Except Status Tree :=
  match t.child parent name with
  | .error status => .error status
  | .ok i =>
    match t.dir i with
    | .error status => .error status
    | .ok node =>
      if node.children.isEmpty then
        .ok (modifyNode { t with nodes := t.nodes.erase i } parent (dropChild name))
      else
        .error ⟨.notEmpty, "'" ++ name ++ "' has " ++ toString node.children.size ++ " entries"⟩

end Tree

end ShardSweep
