import ShardSweep.Sweep.Basic
import ShardSweep.Walk.Tally

/-!
# Usage

The bytes and inodes under a directory, the directory itself counted as one inode.
`usage` walks from a known inode at a known generation, `fsUsage` through a whole
filesystem at its current one, and `fsUsageAll` through every filesystem that the
coordinators list, in their order, until one fails.

* `usage_refused`: a number of threads out of range costs no request.
-/

namespace ShardSweep.Sweep

variable {σ : Type}

/-- Bytes and inodes under a directory, with a plan and a flag of the caller's.  Told to
count each physical file `once`, further names of a file add no bytes. -/
def usageWith (metadata : Metadata (Flagged σ)) (runner : Runner (Flagged σ)) (plan : WalkPlan)
    (root : Inode) (once : Bool) : Sweep (Flagged σ) Totals := do
  let tally ← walk metadata runner (tallyVisitor once) plan ⟨root, 0, ""⟩ .empty
  pure (tally.totals.addInodes 1)

/-- Bytes and inodes under a directory. -/
def usage (metadata : Metadata σ) (runner : Runner σ) (fs : FsId) (root : Inode) (once : Bool)
    (epoch : Epoch) (threads : Nat) : Sweep σ Totals := do
  let plan ← accept (WalkPlan.make fs epoch threads)
  withOwnFlag (usageWith (metadata.on Flagged.innerPart) runner.withFlag plan root once)

/-- Bytes and inodes of a whole filesystem, each physical file counted once. -/
def fsUsage (metadata : Metadata σ) (runner : Runner σ) (fs : FsId) (threads : Nat) :
    Sweep σ Totals := do
  accept (checkThreads threads)
  let info ← ask metadata (.getFsInfo fs)
  prepare metadata fs
  usage metadata runner fs rootInode true info.epoch threads

/-- Bytes and inodes of each listed filesystem, until one fails. -/
def usageOfEach (metadata : Metadata σ) (runner : Runner σ) (threads : Nat) :
    List FsInfo → Sweep σ (List (FsInfo × Totals))
  | [] => pure []
  | info :: infos => do
    prepare metadata info.fs
    let totals ← usage metadata runner info.fs rootInode true info.epoch threads
    let rest ← usageOfEach metadata runner threads infos
    pure ((info, totals) :: rest)

/-- Bytes and inodes of every filesystem that the coordinators list. -/
def fsUsageAll (metadata : Metadata σ) (runner : Runner σ) (threads : Nat) :
    Sweep σ (List (FsInfo × Totals)) := do
  accept (checkThreads threads)
  let infos ← ask metadata .listFsInfo
  usageOfEach metadata runner threads infos

/-- The filesystem of a name. -/
def findFilesystem (metadata : Metadata σ) (name : String) : Sweep σ FsInfo := do
  let infos ← ask metadata .listFsInfo
  match infos.find? (·.name == name) with
  | some info => pure info
  | none => fail (.unknownFilesystem name)

/-- A number of threads out of range costs no request. -/
theorem usage_refused (metadata : Metadata σ) (runner : Runner σ) (fs : FsId) (root : Inode)
    (once : Bool) (epoch : Epoch) {threads : Nat} {r : Refusal}
    (h : checkThreads threads = .error r) (s : σ) :
    usage metadata runner fs root once epoch threads s = (some (.error (.failed (.refused r))), s) := by
  simp [usage, (WalkPlan.make_eq_error_iff fs epoch threads r).2 h, bind_apply, accept_error_apply]

end ShardSweep.Sweep
