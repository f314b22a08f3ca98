import ShardSweep.Cluster.Service
import ShardSweep.Proofs.Cluster.Removes

/-!
# Services that lose entries

A service that has lost some entries of one of its filesystems has lost nothing else, and its
log names them, the latest first.

* `Service.SameNames`: nothing was lost;
* `Service.Alike`: nothing was lost, and the answers are the same;
* `Service.Clear`: nothing is in the way of a request, so it is answered;
* `Service.Left`: what is left;
* `Service.Left.look_eq`, `Service.Left.remove_eq_ok`: what is left is what is served;
* `Service.Left.of_remove`: one more entry is lost and logged.
-/

namespace ShardSweep

/-- The namespaces and the log of removed entries are the same. -/
structure Service.SameNames (s s' : Service) : Prop where
  filesystems : s'.filesystems = s.filesystems
  deleted : s'.deleted = s.deleted

/-- Nothing changes when nothing happens. -/
theorem Service.SameNames.refl (s : Service) : s.SameNames s :=
  ⟨rfl, rfl⟩

/-- What changes nothing can follow what changes nothing. -/
theorem Service.SameNames.trans {s s' s'' : Service} (h : s.SameNames s') (h' : s'.SameNames s'') :
    s.SameNames s'' :=
  ⟨h'.filesystems.trans h.filesystems, h'.deleted.trans h.deleted⟩

/-- Each filesystem is as it was. -/
theorem Service.SameNames.filesystem?_eq {s s' : Service} (h : s.SameNames s') (fs : FsId) :
    s'.filesystem? fs = s.filesystem? fs := by
  rw [filesystem?, filesystem?, h.filesystems]

namespace Service

/-- The same, and requests are refused for the same inodes. -/
structure Alike (s s' : Service) : Prop extends s.SameNames s' where
  lists : s'.faults.listFailures = s.faults.listFailures
  attrs : s'.faults.attrFailures = s.faults.attrFailures

/-- The check of the generation has the outcome it had. -/
theorem SameNames.current {s s' : Service} (same : s.SameNames s') (fs : FsId) (epoch : Epoch) :
    s'.current fs epoch = s.current fs epoch := by
  simp [Service.current, known, same.filesystem?_eq]

/-- Services that hold the same names remove the same. -/
theorem SameNames.remove {s s' : Service} (same : s.SameNames s') (fs : FsId) (epoch : Epoch)
    (name : String) (edit : Tree → Except Status Tree) :
    (s'.remove fs epoch name edit).1 = (s.remove fs epoch name edit).1 ∧
      (s.remove fs epoch name edit).2.SameNames (s'.remove fs epoch name edit).2 := by
  unfold Service.remove
  rw [same.current]
  cases s.current fs epoch with
  | error status => exact ⟨rfl, same⟩
  | ok f =>
    cases hedit : edit f.tree with
    | error status => simpa [hedit] using same
    | ok t =>
      obtain ⟨hfilesystems, hdeleted⟩ := same
      exact ⟨by simp [hedit], by simp [hedit, putFilesystem, hfilesystems], by simp [hedit, hdeleted]⟩

/-- Services that hold the same answer the same. -/
theorem Alike.serve {s s' : Service} (h : s.Alike s') (r : Request) :
    (s'.serve r).1 = (s.serve r).1 ∧ (s.serve r).2.SameNames (s'.serve r).2 := by
  obtain ⟨hsame, hlists, hattrs⟩ := h
  cases r with
  | deleteFile fs parent name epoch => exact hsame.remove fs epoch name _
  | deleteDir fs parent name epoch => exact hsame.remove fs epoch name _
  | _ =>
    simp only [Service.serve, look, hsame.current, hlists, hattrs, known, filesystem?,
      hsame.filesystems]
    exact ⟨trivial, hsame⟩

/-- Nothing is in the way of a request over a link that may take some time. -/
structure Clear (s : Service) (link : Link) (timeout : Duration) : Prop where
  whole : link.broken = false
  transport : s.faults.transportBurst = 0
  status : s.faults.statusBurst = 0
  latency : s.latency.nanos ≤ timeout.nanos
  lists : ∀ i : Inode, s.faults.listFailures[i]? = none
  attrs : ∀ i : Inode, s.faults.attrFailures[i]? = none

/-- Where nothing is in the way a request is counted and answered. -/
theorem receive_of_clear {s : Service} {link : Link} {timeout : Duration}
    (clear : s.Clear link timeout) (r : Request) :
    s.receive link timeout r = (.ok (s.serve r).1, ((s.count r.kind).serve r).2) := by
  have halike : s.Alike (s.count r.kind) := ⟨⟨rfl, rfl⟩, rfl, rfl⟩
  have htransport : (s.count r.kind).faults.transportBurst = 0 := clear.transport
  have hstatus : (s.count r.kind).faults.statusBurst = 0 := clear.status
  have hlatency : ¬ timeout.nanos < (s.count r.kind).latency.nanos := Nat.not_lt.mpr clear.latency
  rw [← (halike.serve r).1, receive, if_neg (by simp [clear.whole])]
  unfold deliver onTheWay arrangedRefusal
  simp [htransport, hstatus, hlatency]

end Service

/-- A service that has lost some entries of a filesystem, the latest first in the list. -/
structure Service.Left (s₀ : Service) (fs : FsId) (f : Filesystem) (gone : List Entry) (t : Tree)
    (s : Service) : Prop where
  removes : f.tree.Removes gone t
  filesystems : ∀ fs', s.filesystem? fs' =
    if fs' = fs then some { f with tree := t } else s₀.filesystem? fs'
  deleted : s.deleted = gone.map Entry.name ++ s₀.deleted

/-- A success is none of the arranged failures. -/
theorem Service.of_orArranged {α : Type} {failures : Std.TreeMap Inode StatusCode} {i : Inode}
    {otherwise : Except Status α} {a : α} (h : orArranged failures i otherwise = .ok a) :
    otherwise = .ok a := by
  unfold orArranged at h
  split at h
  · cases h
  · exact h

namespace Service.Left

variable {s₀ s s' : Service} {fs : FsId} {f : Filesystem} {gone : List Entry} {t : Tree}

/-- At the start nothing is gone. -/
theorem start (h : s₀.filesystem? fs = some f) : s₀.Left fs f [] f.tree s₀ := by
  refine ⟨.nil, ?_, rfl⟩
  intro fs'
  by_cases hfs : fs' = fs
  · rw [if_pos hfs, hfs, h]
  · rw [if_neg hfs]

/-- What changes no name leaves as much as before. -/
theorem same (h : s₀.Left fs f gone t s) (same : s.SameNames s') : s₀.Left fs f gone t s' := by
  refine ⟨h.removes, ?_, same.deleted.trans h.deleted⟩
  intro fs'
  rw [← h.filesystems fs', filesystem?, filesystem?, same.filesystems]

/-- A request of the current generation is served from what is left. -/
private theorem current_eq (h : s₀.Left fs f gone t s) {epoch : Epoch} (now : epoch = f.epoch) :
    s.current fs epoch = .ok { f with tree := t } := by
  simp [current, known, h.filesystems fs, now]

/-- So is one that only looks. -/
theorem look_eq (h : s₀.Left fs f gone t s) {epoch : Epoch} (now : epoch = f.epoch) {α : Type}
    (find : Tree → Except Status α) : s.look fs epoch find = find t := by
  simp [look, h.current_eq now]

/-- A success was found in what is left, whichever generation was asked for. -/
theorem of_look (h : s₀.Left fs f gone t s) {epoch : Epoch} {α : Type}
    {find : Tree → Except Status α} {a : α} (ok : s.look fs epoch find = .ok a) :
    find t = .ok a := by
  by_cases hnow : epoch = f.epoch
  · rwa [h.look_eq hnow] at ok
  · simp [look, current, known, h.filesystems fs, hnow] at ok

/-- What is left decides what is removed. -/
theorem remove_eq (h : s₀.Left fs f gone t s) {epoch : Epoch} (now : epoch = f.epoch)
    (edit : Tree → Except Status Tree) (name : String) :
    (s.remove fs epoch name edit).1 = (edit t).map fun _ => () := by
  simp only [remove, h.current_eq now]
  cases edit t with
  | error status => rfl
  | ok t' => rfl

/-- A removal that the tree grants is granted. -/
theorem remove_eq_ok (h : s₀.Left fs f gone t s) {epoch : Epoch} (now : epoch = f.epoch)
    {edit : Tree → Except Status Tree} {t' : Tree} (ok : edit t = .ok t') (name : String) :
    (s.remove fs epoch name edit).1 = .ok () := by
  rw [h.remove_eq now, ok]
  rfl

/-- A directory is listed unless that was arranged to be refused. -/
theorem listEntries_eq (h : s₀.Left fs f gone t s) {epoch : Epoch} (now : epoch = f.epoch)
    {i : Inode} (free : s.faults.listFailures[i]? = none) :
    (s.serve (.listEntries fs i epoch)).1 = t.list i := by
  change s.look fs epoch (fun t => orArranged s.faults.listFailures i (t.list i)) = t.list i
  rw [h.look_eq now, orArranged, free]

/-- A listing is one of what is left. -/
theorem of_listEntries (h : s₀.Left fs f gone t s) {epoch : Epoch} {i : Inode} {es : List Entry}
    (ok : (s.serve (.listEntries fs i epoch)).1 = .ok es) : t.list i = .ok es := by
  change s.look fs epoch (fun t => orArranged s.faults.listFailures i (t.list i)) = .ok es at ok
  exact of_orArranged (h.of_look ok)

/-- Attributes are found just if there are any. -/
private theorem attr_eq_ok {t : Tree} {i : Inode} {a : Attr} :
    t.attr i = .ok a ↔ t.attr? i = some a := by
  unfold Tree.attr Tree.attr?
  cases t.node? i <;> simp

/-- Attributes are fetched unless that was arranged to be refused. -/
theorem getAttr_eq (h : s₀.Left fs f gone t s) {epoch : Epoch} (now : epoch = f.epoch) {i : Inode}
    (free : s.faults.attrFailures[i]? = none) (hint : Inode) :
    (s.serve (.getAttr fs i hint epoch)).1 = t.attr i := by
  change s.look fs epoch (fun t => orArranged s.faults.attrFailures i (t.attr i)) = t.attr i
  rw [h.look_eq now, orArranged, free]

/-- Attributes of what is left are told, unless a failure was arranged. -/
theorem getAttr_eq_ok (h : s₀.Left fs f gone t s) {epoch : Epoch} (now : epoch = f.epoch) {i : Inode}
    (free : s.faults.attrFailures[i]? = none) {a : Attr} (ha : t.attr? i = some a) (hint : Inode) :
    (s.serve (.getAttr fs i hint epoch)).1 = .ok a :=
  (h.getAttr_eq now free hint).trans (attr_eq_ok.mpr ha)

/-- Attributes that are told are those of what is left. -/
theorem of_getAttr (h : s₀.Left fs f gone t s) {epoch : Epoch} {i hint : Inode} {a : Attr}
    (ok : (s.serve (.getAttr fs i hint epoch)).1 = .ok a) : t.attr? i = some a := by
  change s.look fs epoch (fun t => orArranged s.faults.attrFailures i (t.attr i)) = .ok a at ok
  exact attr_eq_ok.mp (of_orArranged (h.of_look ok))

/-- An entry that is removed is gone too, and logged. -/
theorem of_remove (h : s₀.Left fs f gone t s) {epoch : Epoch} {edit : Tree → Except Status Tree}
    {name : String} (ok : (s.remove fs epoch name edit).1 = .ok ()) :
    ∃ t', edit t = .ok t' ∧ ∀ e, t.Drops e t' → e.name = name →
      s₀.Left fs f (e :: gone) t' (s.remove fs epoch name edit).2 := by
  by_cases hnow : epoch = f.epoch
  · cases hedit : edit t with
    | error status => simp [remove, h.current_eq hnow, hedit] at ok
    | ok t' =>
      refine ⟨t', rfl, ?_⟩
      intro e hdrops heq
      subst heq
      have hremove : (s.remove fs epoch e.name edit).2 =
          { s.putFilesystem fs { f with tree := t' } with deleted := e.name :: s.deleted } := by
        simp [remove, h.current_eq hnow, hedit]
      rw [hremove]
      refine ⟨h.removes.cons hdrops, ?_, ?_⟩
      · intro fs'
        refine (filesystem?_putFilesystem s fs fs' _).trans ?_
        by_cases hfs : fs' = fs
        · rw [if_pos hfs, if_pos hfs]
        · rw [if_neg hfs, if_neg hfs, h.filesystems fs', if_neg hfs]
      · simp [h.deleted]
  · simp [remove, current, known, h.filesystems fs, hnow] at ok

end Service.Left

end ShardSweep
