import Std.Data.TreeMap
import ShardSweep.Entry

/-!
# What a client remembers of filesystems

One info per filesystem, kept until it is replaced or dropped.

* `get?_put`, `get?_drop`: each changes what is known of one filesystem only.
-/

namespace ShardSweep

/-- The last info of each filesystem. -/
structure FsCache where
  infos : Std.TreeMap FsId FsInfo

namespace FsCache

/-- Nothing known. -/
def empty : FsCache :=
  ⟨∅⟩

/-- What is known of a filesystem. -/
def get? (c : FsCache) (fs : FsId) : Option FsInfo :=
  c.infos[fs]?

/-- Remember an info. -/
def put (c : FsCache) (info : FsInfo) : FsCache :=
  ⟨c.infos.insert info.fs info⟩

/-- Remember several infos, later ones in place of earlier ones. -/
def putAll (c : FsCache) (infos : List FsInfo) : FsCache :=
  infos.foldl put c

/-- Forget a filesystem. -/
def drop (c : FsCache) (fs : FsId) : FsCache :=
  ⟨c.infos.erase fs⟩

/-- How many filesystems are known. -/
def size (c : FsCache) : Nat :=
  c.infos.size

/-- A remembered info is found, and the others are still there. -/
theorem get?_put (c : FsCache) (info : FsInfo) (fs : FsId) :
    (c.put info).get? fs = if fs = info.fs then some info else c.get? fs := by
  simp [put, get?, Std.TreeMap.getElem?_insert, @eq_comm _ fs]

/-- A forgotten filesystem is not found, and the others are still there. -/
theorem get?_drop (c : FsCache) (dropped fs : FsId) :
    (c.drop dropped).get? fs = if fs = dropped then none else c.get? fs := by
  simp [drop, get?, Std.TreeMap.getElem?_erase, @eq_comm _ fs]

end FsCache

end ShardSweep
