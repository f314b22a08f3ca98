import ShardSweep.Rehearsal.Table
import ShardSweep.Walk.Visitor

/-!
# A visitor that writes down where it was

The recorder notes each place it comes to and makes no request.  Any place can be
chosen to call the walk off, to bring its thread down or to fail.

* `visitKey`, `leaveKey`: the names of the places, such as `visit:1/a` and `leave:5`.
-/

namespace ShardSweep

/-- The name of visiting an entry. -/
def visitKey (dir : Dir) (entry : Entry) : String :=
  "visit:" ++ toString dir.inode ++ "/" ++ entry.name

/-- The name of leaving a directory. -/
def leaveKey (dir : Dir) : String :=
  "leave:" ++ toString dir.inode

/-- Come to a place: note it, then call off, die or fail if that was chosen. -/
def Script.record (script : Script) (key : String) : Action (List String) :=
  let ending : Action (List String) :=
    match script.halt? key with
    | some (.panicked p) => .die p
    | some (.failed e) => .done (.error e)
    | none => .succeed
  .modify (key :: ·) (if script.cancels.contains key then .cancel ending else ending)

/-- Notes every place, the latest first. -/
def recorder (script : Script) : Visitor (List String) where
  visit _ dir entry := script.record (visitKey dir entry)
  leave _ dir := script.record (leaveKey dir)

end ShardSweep
