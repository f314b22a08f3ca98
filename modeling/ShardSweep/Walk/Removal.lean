import ShardSweep.Walk.Visitor

/-!
# Removing a subtree

`removalVisitor` removes every file where it is listed and every directory
after all that is below it, so no directory is removed before it is empty.  Its
state is the number of entries removed.  The root of a filesystem has no entry
and is refused.
-/

namespace ShardSweep

/-- Removes files on the way down and directories on the way up, and counts both. -/
def removalVisitor : Visitor Nat where
  visit plan dir entry :=
    match entry.kind with
    | .dir => .succeed
    | .file =>
      .ask (.deleteFile plan.fs dir.inode entry.name plan.epoch) fun _ =>
        .modify (· + 1) .succeed
  leave plan dir :=
    if dir.isRoot then .done (.error (.refused .rootDeletion))
    else
      .ask (.deleteDir plan.fs dir.parent dir.name plan.epoch) fun _ =>
        .modify (· + 1) .succeed

end ShardSweep
