import ShardSweep.Path
import ShardSweep.Sweep.Basic

/-!
# Paths and inodes

The service knows no paths.  `resolveDir` goes down a path one name at a time, and
`inodePath` climbs from an inode to the root, looking in each parent for the name
that the inode has there; of several parents it takes the first.

* `resolveDir_relative`: a path that does not start at the root costs no request.
-/

namespace ShardSweep.Sweep

variable {σ : Type}

/-- Go down from a directory, name by name; `trail` holds the names so far, the last one
first. -/
def descend (metadata : Metadata σ) (fs : FsId) (epoch : Epoch) :
    (dir : Inode) → (trail names : List String) → Sweep σ Inode
  | dir, _, [] => pure dir
  | dir, trail, name :: names => do
    let entry ← ask metadata (.getEntry fs dir name epoch)
    if entry.kind.isDir then descend metadata fs epoch entry.inode (name :: trail) names
    else fail (.notADirectory (Path.text (name :: trail).reverse))

/-- The inode of the directory at an absolute path; the root costs no request. -/
def resolveDir (metadata : Metadata σ) (fs : FsId) (path : String) (epoch : Epoch) :
    Sweep σ Inode := do
  let names ← accept (Path.components path)
  descend metadata fs epoch rootInode [] names

/-- Climb from an inode to the root; `names` holds the names below it.  A chain of parents
that does not reach the root uses the moves up. -/
def climb (metadata : Metadata σ) (fs : FsId) (epoch : Epoch) :
    (budget : Nat) → (inode : Inode) → (names : List String) → Sweep σ String
  | 0, _, _ => exhausted
  | budget + 1, inode, names =>
    if inode = rootInode then pure (Path.text names)
    else do
      let attr ← ask metadata (.getAttr fs inode 0 epoch)
      match attr.parents with
      | [] => fail (.notFound 0 ("parent of inode " ++ toString inode))
      | parent :: _ =>
        let entries ← ask metadata (.listEntries fs parent epoch)
        match entries.find? (·.inode == inode) with
        | none => fail (.notFound parent ("inode " ++ toString inode))
        | some entry => climb metadata fs epoch budget parent (entry.name :: names)

/-- An absolute path of an inode. -/
def inodePath (metadata : Metadata σ) (budget : Nat) (fs : FsId) (inode : Inode)
    (epoch : Epoch) : Sweep σ String :=
  climb metadata fs epoch budget inode []

/-- A path that does not start at the root costs no request. -/
theorem resolveDir_relative (metadata : Metadata σ) (fs : FsId) (epoch : Epoch) {path : String}
    {r : Refusal} (h : Path.components path = .error r) (s : σ) :
    resolveDir metadata fs path epoch s = (some (.error (.failed (.refused r))), s) := by
  simp [resolveDir, h, bind_apply, accept_error_apply]

end ShardSweep.Sweep
