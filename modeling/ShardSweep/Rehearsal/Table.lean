import Std.Data.TreeMap
import ShardSweep.Metadata

/-!
# Metadata from a table

A rehearsal answers requests from a table that never changes, and keeps a log of them.
Any request can be chosen to raise the flag of the store, to bring its thread down or
to fail; a request is named by its key, such as `list:5` or `rmfile:1/a`.

* `Table.log_call`: every request is logged, whatever comes of it.
-/

namespace ShardSweep

/-- The name of a request in logs and choices. -/
def Request.key : Request → String
  | .listEntries _ parent _ => "list:" ++ toString parent
  | .getAttr _ i hint _ => "attr:" ++ toString i ++ "@" ++ toString hint
  | .deleteFile _ parent name _ => "rmfile:" ++ toString parent ++ "/" ++ name
  | .deleteDir _ parent name _ => "rmdir:" ++ toString parent ++ "/" ++ name
  | .getEntry _ parent name _ => "dentry:" ++ toString parent ++ "/" ++ name
  | .getFsInfo fs => "fs_info:" ++ toString fs
  | .listFsInfo => "list_fs"

/-- What is chosen to happen at certain places, by their keys. -/
structure Script where
  /-- Where to raise the flag. -/
  cancels : List String
  /-- Where to die, and of what. -/
  panics : Std.TreeMap String Panic
  /-- Where to fail, and with what. -/
  failures : Std.TreeMap String WalkError

namespace Script

/-- Nothing happens anywhere. -/
def quiet : Script :=
  ⟨[], ∅, ∅⟩

/-- What happens at a place instead of a result: dying comes before failing. -/
def halt? (s : Script) (key : String) : Option Halt :=
  match s.panics[key]? with
  | some p => some (.panicked p)
  | none => (s.failures[key]?).map Halt.failed

end Script

/-- A namespace written down, and what is chosen to happen at requests. -/
structure Table where
  infos : List FsInfo
  listings : Std.TreeMap Inode (List Entry)
  attrs : Std.TreeMap Inode Attr
  script : Script

/-- The requests made so far, the latest first, and the flag. -/
abbrev Rehearsed : Type := Flagged (List String)

namespace Table

/-- The endpoint that refusals name. -/
def server : Endpoint :=
  ⟨"10.0.0.1", 7400, by decide +kernel, by decide, by decide⟩

/-- A refusal as a client would report it. -/
def rejected (kind : RequestKind) (code : StatusCode) (text : String) : WalkError :=
  .rpc (.rejected kind server ⟨code, text⟩)

/-- What is not in the table is refused. -/
def found {α : Type} (kind : RequestKind) (i : Inode) : Option α → Except WalkError α
  | some a => .ok a
  | none => .error (rejected kind .notFound ("inode " ++ toString i))

/-- The answer of the table. -/
def answer (t : Table) : (r : Request) → Except WalkError r.Answer
  | .listEntries _ parent _ => found .listEntries parent t.listings[parent]?
  | .getAttr _ i _ _ => found .getAttr i t.attrs[i]?
  | .deleteFile .. => .ok ()
  | .deleteDir .. => .ok ()
  | .getEntry _ parent name _ =>
    match (t.listings[parent]?.getD []).find? (·.name == name) with
    | some entry => .ok entry
    | none => .error (.notFound parent name)
  | .getFsInfo fs =>
    match t.infos.find? (·.fs == fs) with
    | some info => .ok info
    | none => .error (rejected .getFsInfo .noSuchFilesystem ("fs " ++ toString fs))
  | .listFsInfo => .ok t.infos

/-- Log a request, and raise the flag if that was chosen. -/
def note (t : Table) (key : String) (s : Rehearsed) : Rehearsed :=
  ⟨key :: s.inner, s.raised || t.script.cancels.contains key⟩

/-- The outcome of a request. -/
def outcome (t : Table) (r : Request) : Outcome r.Answer :=
  match t.script.halt? r.key with
  | some h => .error h
  | none =>
    match t.answer r with
    | .ok a => .ok a
    | .error e => .error (.failed e)

/-- The table as somebody who answers requests; it is ready for every filesystem. -/
def metadata (t : Table) : Metadata Rehearsed where
  prepare _ := pure (.ok ())
  call r := Proc.atomic fun s => (t.outcome r, t.note r.key s)

/-- Every request is logged, whatever comes of it. -/
theorem log_call (t : Table) (r : Request) (s : Rehearsed) :
    ((t.metadata.call r).run s).2.inner = r.key :: s.inner := rfl

end Table

end ShardSweep
