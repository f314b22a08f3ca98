import ShardSweep.Sweep.Lookup
import ShardSweep.Walk.Removal

/-!
# Deleting a subtree

`delete` removes a directory, named by an entry of its parent, with everything below
it, and `deletePath` the directory at a path.  The outcome is the number of entries
removed; after a failure the entries removed before it stay removed.

* `checkTarget`: the root and an entry without a name are refused;
* `delete_refused`: a refused target costs no request.
-/

namespace ShardSweep.Sweep

variable {σ : Type}

/-- Refuse the root, under its number or its name, and the empty name. -/
def checkTarget (target : Inode) (name : String) : Except Refusal Unit :=
  if target = rootInode ∨ Text.strip name = "/" then .error .rootDeletion
  else if name = "" then .error .emptyName
  else .ok ()

/-- Remove a directory and everything below it, with a plan and a flag of the caller's. -/
def deleteWith (metadata : Metadata (Flagged σ)) (runner : Runner (Flagged σ)) (plan : WalkPlan)
    (parent target : Inode) (name : String) : Sweep (Flagged σ) Nat := do
  accept (checkTarget target name)
  walk metadata runner removalVisitor plan ⟨target, parent, name⟩ 0

/-- Remove a directory and everything below it. -/
def delete (metadata : Metadata σ) (runner : Runner σ) (fs : FsId) (parent target : Inode)
    (name : String) (epoch : Epoch) (threads : Nat) : Sweep σ Nat := do
  accept (checkTarget target name)
  let plan ← accept (WalkPlan.make fs epoch threads)
  withOwnFlag
    (deleteWith (metadata.on Flagged.innerPart) runner.withFlag plan parent target name)

/-- Remove the directory at an absolute path, at the current generation of its filesystem. -/
def deletePath (metadata : Metadata σ) (runner : Runner σ) (fs : FsId) (path : String)
    (threads : Nat) : Sweep σ Nat := do
  let names ← accept (Path.components path)
  match names.getLast? with
  | none => fail (.refused .rootDeletion)
  | some name =>
    accept (checkThreads threads)
    let info ← ask metadata (.getFsInfo fs)
    prepare metadata fs
    let parent ← resolveDir metadata fs (Path.text names.dropLast) info.epoch
    let entries ← ask metadata (.listEntries fs parent info.epoch)
    match entries.find? (·.name == name) with
    | none => fail (.notFound parent name)
    | some entry =>
      if entry.kind.isDir then
        delete metadata runner fs parent entry.inode name info.epoch threads
      else fail (.notADirectory (Text.strip path))

/-- A refused target costs no request. -/
theorem delete_refused (metadata : Metadata σ) (runner : Runner σ) (fs : FsId)
    (parent : Inode) (epoch : Epoch) (threads : Nat) {target : Inode} {name : String} {r : Refusal}
    (h : checkTarget target name = .error r) (s : σ) :
    delete metadata runner fs parent target name epoch threads s =
      (some (.error (.failed (.refused r))), s) := by
  simp [delete, h, bind_apply, accept_error_apply]

end ShardSweep.Sweep
