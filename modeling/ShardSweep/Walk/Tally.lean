import Std.Data.TreeSet
import ShardSweep.Walk.Visitor

/-!
# Counting bytes and inodes

`tallyVisitor` adds up the lengths of the files and the number of entries it
meets.  Told to count each physical file once, it remembers every file that has
several names and leaves its later sightings out of the bytes; a file with one
name cannot show up twice.  Totals are words and wrap around.

* `Seen.sight`: whether an inode is new, and the set with it;
* `Seen.sight_again`: nothing is new twice.
-/

namespace ShardSweep

/-- Bytes and inodes, counted in words. -/
structure Totals where
  bytes : UInt64
  inodes : UInt64
  deriving DecidableEq, Repr

namespace Totals

/-- Nothing counted. -/
def zero : Totals :=
  ⟨0, 0⟩

/-- Count bytes. -/
def addBytes (n : UInt64) (t : Totals) : Totals :=
  { t with bytes := t.bytes + n }

/-- Count inodes. -/
def addInodes (n : UInt64) (t : Totals) : Totals :=
  { t with inodes := t.inodes + n }

end Totals

/-- The physical files counted so far. -/
structure Seen where
  inodes : Std.TreeSet Inode

namespace Seen

/-- No file counted. -/
def empty : Seen :=
  ⟨∅⟩

/-- The file has been counted. -/
def contains (s : Seen) (i : Inode) : Bool :=
  s.inodes.contains i

/-- How many files have been counted. -/
def size (s : Seen) : Nat :=
  s.inodes.size

/-- Whether a file is new, and the set with it. -/
def sight (i : Inode) (s : Seen) : Bool × Seen :=
  (!s.contains i, ⟨s.inodes.insert i⟩)

/-- Nothing is new twice. -/
theorem sight_again (i : Inode) (s : Seen) : ((s.sight i).2.sight i).1 = false := by
  simp [sight, contains]

/-- A sighting adds one file or none. -/
theorem size_sight (i : Inode) (s : Seen) :
    (s.sight i).2.size = if (s.sight i).1 then s.size + 1 else s.size := by
  simp only [sight, size, contains, Std.TreeSet.size_insert]
  by_cases h : s.inodes.contains i = true <;> simp [h]

end Seen

/-- What a counting visitor knows. -/
structure Tally where
  totals : Totals
  /-- The hard-linked files met so far. -/
  seen : Seen

namespace Tally

/-- Nothing counted. -/
def empty : Tally :=
  ⟨.zero, .empty⟩

/-- Count one entry. -/
def countEntry (t : Tally) : Tally :=
  { t with totals := t.totals.addInodes 1 }

/-- Count the bytes of a file. -/
def countBytes (n : UInt64) (t : Tally) : Tally :=
  { t with totals := t.totals.addBytes n }

/-- Remember a hard-linked file. -/
def remember (i : Inode) (t : Tally) : Tally :=
  { t with seen := (t.seen.sight i).2 }

end Tally

/-- Add the length of a file, unless it is to be counted once and was met before. -/
def Action.countFile (once : Bool) (attr : Attr) : Action Tally :=
  if once && attr.isHardlinked then
    .update (Tally.remember attr.inode) fun before =>
      if (before.seen.sight attr.inode).1 then .modify (Tally.countBytes attr.length) .succeed
      else .succeed
  else .modify (Tally.countBytes attr.length) .succeed

/-- Counts every entry, and the bytes of every file or of every physical file `once`. -/
def tallyVisitor (once : Bool) : Visitor Tally where
  visit plan dir entry :=
    .modify Tally.countEntry <|
      match entry.kind with
      | .dir => .succeed
      | .file =>
        .ask (.getAttr plan.fs entry.inode dir.inode plan.epoch) (Action.countFile once)
  leave _ _ := .succeed

end ShardSweep
