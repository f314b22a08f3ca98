import ShardSweep.Failure
import ShardSweep.Proc

/-!
# Requests and whoever answers them

A `Request` is one question to the metadata service or one change to it, and
`Request.Answer` is the type of its answer.  A `Metadata σ` is anybody who
answers requests by procedures over a store of type `σ`: a client of a real
service, or a prepared table.  A request may fail, and it may also bring down
the thread that makes it (`Panic`).

* `Request.kind`: the kind that messages name;
* `Metadata.on`: the same answers from a part of a larger store.
-/

namespace ShardSweep

/-- A question to the metadata service, or a change to it. -/
inductive Request where
  /-- The entries of a directory. -/
  | listEntries (fs : FsId) (parent : Inode) (epoch : Epoch)
  /-- What is known of an inode; `hint` is its parent, or 0 if unknown. -/
  | getAttr (fs : FsId) (inode hint : Inode) (epoch : Epoch)
  /-- Remove a name of a file. -/
  | deleteFile (fs : FsId) (parent : Inode) (name : String) (epoch : Epoch)
  /-- Remove an empty directory. -/
  | deleteDir (fs : FsId) (parent : Inode) (name : String) (epoch : Epoch)
  /-- One entry of a directory, by its name. -/
  | getEntry (fs : FsId) (parent : Inode) (name : String) (epoch : Epoch)
  /-- Name and generation of a filesystem. -/
  | getFsInfo (fs : FsId)
  /-- The same of every filesystem. -/
  | listFsInfo
  deriving DecidableEq, Repr

namespace Request

/-- What a request is answered with. -/
abbrev Answer : Request → Type
  | .listEntries .. => List Entry
  | .getAttr .. => Attr
  | .deleteFile .. => Unit
  | .deleteDir .. => Unit
  | .getEntry .. => Entry
  | .getFsInfo .. => FsInfo
  | .listFsInfo => List FsInfo

/-- The kind that messages name. -/
def kind : Request → RequestKind
  | .listEntries .. => .listEntries
  | .getAttr .. => .getAttr
  | .deleteFile .. => .deleteFile
  | .deleteDir .. => .deleteDir
  | .getEntry .. => .getEntry
  | .getFsInfo .. => .getFsInfo
  | .listFsInfo => .listFsInfo

end Request

/-- What a thread dies with. -/
inductive Panic where
  | text (s : String)
  /-- Nothing that can be read as a text. -/
  | silent
  deriving DecidableEq, Repr

/-- What is reported of a dead thread. -/
def Panic.message : Panic → String
  | .text s => s
  | .silent => "worker thread panicked"

/-- How a thread can be kept from its result: by a failure that it can report, or by
one that it dies of. -/
inductive Halt where
  | failed (e : WalkError)
  | panicked (p : Panic)
  deriving DecidableEq

/-- A result, or what came in between. -/
abbrev Outcome (α : Type) : Type := Except Halt α

/-- Anybody who answers requests over a store. -/
structure Metadata (σ : Type) where
  /-- Get ready for requests about a filesystem. -/
  prepare : FsId → Proc σ (Outcome Unit)
  /-- Answer one request. -/
  call : (r : Request) → Proc σ (Outcome r.Answer)

/-- The same answers from a part of a larger store. -/
def Metadata.on {σ τ : Type} (part : Proc.Part τ σ) (m : Metadata σ) : Metadata τ where
  prepare fs := (m.prepare fs).on part
  call r := (m.call r).on part

/-- A store together with the flag that calls walks over it off. -/
structure Flagged (σ : Type) where
  inner : σ
  raised : Bool
  deriving DecidableEq, Repr

namespace Flagged

variable {σ : Type}

/-- The store without its flag. -/
def innerPart : Proc.Part (Flagged σ) σ where
  get := inner
  set s f := { f with inner := s }
  get_set _ _ := rfl
  set_get _ := rfl
  set_set _ _ _ := rfl

/-- Call off. -/
def raise (f : Flagged σ) : Flagged σ :=
  { f with raised := true }

end Flagged

end ShardSweep
