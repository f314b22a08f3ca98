import ShardSweep.Sweep.Delete
import ShardSweep.Sweep.Usage

/-!
# Jobs

A job is a sweep with its arguments, whoever answers and however its walk is run.  What is true
of all sweeps is said of jobs.

* `Job.run`: the sweep itself;
* `Job.metadata`: those who answer, for a job whose caller keeps a flag.
-/

namespace ShardSweep

/-- A sweep with its arguments. -/
inductive Job where
  | usage (fs : FsId) (root : Inode) (once : Bool) (epoch : Epoch) (threads : Nat)
  | usageWith (plan : WalkPlan) (root : Inode) (once : Bool)
  | delete (fs : FsId) (parent target : Inode) (name : String) (epoch : Epoch) (threads : Nat)
  | deleteWith (plan : WalkPlan) (parent target : Inode) (name : String)
  | fsUsage (fs : FsId) (threads : Nat)
  | fsUsageAll (threads : Nat)
  | findFilesystem (name : String)
  | resolveDir (fs : FsId) (path : String) (epoch : Epoch)
  | inodePath (budget : Nat) (fs : FsId) (inode : Inode) (epoch : Epoch)
  | deletePath (fs : FsId) (path : String) (threads : Nat)

namespace Job

/-- What a sweep is done for. -/
abbrev Answer : Job → Type
  | .usage .. | .usageWith .. | .fsUsage .. => Totals
  | .delete .. | .deleteWith .. | .deletePath .. => Nat
  | .fsUsageAll .. => List (FsInfo × Totals)
  | .findFilesystem .. => FsInfo
  | .resolveDir .. => Inode
  | .inodePath .. => String

/-- What it changes; a flag that the caller keeps is part of it. -/
abbrev Store (σ : Type) : Job → Type
  | .usageWith .. | .deleteWith .. => Flagged σ
  | _ => σ

/-- Run a job with those who answer. -/
def run {σ : Type} : (e : Job) → Metadata (e.Store σ) → Runner (e.Store σ) →
    Sweep (e.Store σ) e.Answer
  | .usage fs root once epoch threads, m, runner => Sweep.usage m runner fs root once epoch threads
  | .usageWith plan root once, m, runner => Sweep.usageWith m runner plan root once
  | .delete fs parent target name epoch threads, m, runner =>
    Sweep.delete m runner fs parent target name epoch threads
  | .deleteWith plan parent target name, m, runner =>
    Sweep.deleteWith m runner plan parent target name
  | .fsUsage fs threads, m, runner => Sweep.fsUsage m runner fs threads
  | .fsUsageAll threads, m, runner => Sweep.fsUsageAll m runner threads
  | .findFilesystem name, m, _ => Sweep.findFilesystem m name
  | .resolveDir fs path epoch, m, _ => Sweep.resolveDir m fs path epoch
  | .inodePath budget fs inode epoch, m, _ => Sweep.inodePath m budget fs inode epoch
  | .deletePath fs path threads, m, runner => Sweep.deletePath m runner fs path threads

/-- The store without the flag. -/
def inner {σ : Type} : (e : Job) → e.Store σ → σ
  | .usageWith .. | .deleteWith .. => Flagged.inner
  | .usage .. | .delete .. | .fsUsage .. | .fsUsageAll .. | .findFilesystem .. | .resolveDir ..
  | .inodePath .. | .deletePath .. => id

/-- Those who answer; they know nothing of a flag. -/
def metadata {σ : Type} (m : Metadata σ) : (e : Job) → Metadata (e.Store σ)
  | .usageWith .. | .deleteWith .. => m.on Flagged.innerPart
  | .usage .. | .delete .. | .fsUsage .. | .fsUsageAll .. | .findFilesystem .. | .resolveDir ..
  | .inodePath .. | .deletePath .. => m

end Job

end ShardSweep
