/-!
# What a namespace is made of

A filesystem is a tree of directories.  A directory holds entries, each a name
for an inode; a file may have several names, a directory has one.  Inode numbers
are never reused, and the root is inode 1 in every filesystem.

* `Attr.isHardlinked_iff`: several names matter for files only.
-/

namespace ShardSweep

/-- Number of a filesystem; 0 belongs to none. -/
abbrev FsId := Nat

/-- Number of a file or directory within its filesystem. -/
abbrev Inode := Nat

/-- The root directory of every filesystem. -/
def rootInode : Inode := 1

/-- The generation of a namespace.  A walk keeps the one it started with, and the
service refuses requests of another generation. -/
structure Epoch where
  number : Nat
  deriving DecidableEq, Repr, Inhabited

namespace Epoch

/-- Generations are counted. -/
def text (e : Epoch) : String :=
  toString e.number

/-- An earlier generation. -/
def before (a b : Epoch) : Bool :=
  a.number < b.number

/-- The generation that follows. -/
def next (e : Epoch) : Epoch :=
  ⟨e.number + 1⟩

/-- The generation of a namespace nobody has touched. -/
def first : Epoch := ⟨1⟩

end Epoch

/-- Directories, and all that is none. -/
inductive Kind where
  | file
  | dir
  deriving DecidableEq, Repr

namespace Kind

/-- All but directories. -/
def isFile : Kind → Bool
  | .file => true
  | .dir => false

/-- Directories. -/
def isDir : Kind → Bool
  | .file => false
  | .dir => true

end Kind

/-- One name in a listed directory. -/
structure Entry where
  name : String
  inode : Inode
  /-- The directory that holds the name. -/
  parent : Inode
  kind : Kind
  deriving DecidableEq, Repr

/-- What is known of an inode itself. -/
structure Attr where
  inode : Inode
  /-- Length in bytes. -/
  length : UInt64
  /-- Number of names; a directory has two from the start. -/
  nlink : Nat
  kind : Kind
  /-- The directories that hold a name of it, the oldest name first. -/
  parents : List Inode
  deriving DecidableEq, Repr

/-- A file that has more than one name. -/
def Attr.isHardlinked (a : Attr) : Bool :=
  a.kind.isFile && 2 ≤ a.nlink

/-- Several names matter for files only: the two that every directory has do not count. -/
theorem Attr.isHardlinked_iff (a : Attr) : a.isHardlinked = true ↔ a.kind = .file ∧ 2 ≤ a.nlink := by
  cases h : a.kind <;> simp [isHardlinked, h, Kind.isFile]

/-- What the coordinators tell about a filesystem. -/
structure FsInfo where
  fs : FsId
  name : String
  epoch : Epoch
  deriving DecidableEq, Repr

/-- A directory to be walked, with the name it is removed by. -/
structure Dir where
  inode : Inode
  parent : Inode
  name : String
  deriving DecidableEq, Repr

namespace Dir

/-- The directory that an entry names. -/
def ofEntry (e : Entry) : Dir :=
  ⟨e.inode, e.parent, e.name⟩

/-- The root can be walked but not removed. -/
def isRoot (d : Dir) : Bool :=
  d.inode == rootInode

end Dir

end ShardSweep
