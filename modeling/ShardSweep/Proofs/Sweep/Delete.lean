import ShardSweep.Proofs.Cluster.Intact
import ShardSweep.Proofs.Sweep.Removal
import ShardSweep.Proofs.Walk.Settlement
import ShardSweep.Sweep.Delete

/-!
# What a deletion removes

If nothing is in the way and nobody else is at work, a deletion removes the entry of a directory
and all entries below it, and nothing else, however its threads are scheduled.

* `Service.Lost`: just some entries of a filesystem are gone, and logged;
* `Sweep.delete_walk`: a deletion whose target is accepted is a walk;
* `Sweep.delete_eq_of_le`: more moves change nothing about an outcome;
* `Sweep.checkTarget_eq_ok`: which targets are accepted;
* `Sweep.delete_removes_subtree`: a deletion that nothing is in the way of.
-/

namespace ShardSweep

/-- Just some entries of one filesystem are gone, and logged; the latest is the first in the
list. -/
structure Service.Lost (s : Service) (fs : FsId) (f : Filesystem) (gone : List Entry)
    (s' : Service) : Prop where
  tree : ∃ t, s'.filesystem? fs = some { f with tree := t } ∧ f.tree.Cleared gone t
  others : ∀ fs', fs' ≠ fs → s'.filesystem? fs' = s.filesystem? fs'
  log : s'.deletedLog = s.deletedLog ++ (gone.map Entry.name).reverse

/-- What the steps of a deletion leave, seen from outside. -/
theorem Service.Left.lost {s s' : Service} {fs : FsId} {f : Filesystem} {gone : List Entry}
    {t : Tree} (h : s.Left fs f gone t s') (sound : f.tree.Sound) : s.Lost fs f gone s' := by
  refine ⟨⟨t, ?_, h.removes.cleared sound⟩, ?_, ?_⟩
  · rw [h.filesystems fs, if_pos rfl]
  · intro fs' hne
    rw [h.filesystems fs', if_neg hne]
  · rw [deletedLog, deletedLog, h.deleted, List.reverse_append]

namespace Sweep

/-- A deletion whose target is accepted is a walk. -/
theorem delete_walk {σ : Type} (metadata : Metadata σ) (runner : Runner σ) {fs : FsId}
    {parent target : Inode} {name : String} {epoch : Epoch} {threads : Nat} {plan : WalkPlan}
    (accepted : checkTarget target name = .ok ()) (made : WalkPlan.make fs epoch threads = .ok plan)
    (s : σ) {last : World σ Nat}
    (run : Walk.run ⟨metadata.on Flagged.innerPart, removalVisitor, plan⟩ runner.withFlag
      ⟨target, parent, name⟩ ⟨s, false⟩ 0 = last) :
    delete metadata runner fs parent target name epoch threads s =
      (last.result?.map fun outcome => outcome.map fun _ => last.shared.state,
        last.shared.store.inner) := by
  simp [delete, deleteWith, bind_apply, accept, accepted, made, withOwnFlag, walk, pure_apply, run]

/-- A deletion whose number of threads is refused changes nothing. -/
theorem delete_eq_refused {σ : Type} (metadata : Metadata σ) (runner : Runner σ) {fs : FsId}
    {parent target : Inode} {name : String} {epoch : Epoch} {threads : Nat} {r : Refusal}
    (accepted : checkTarget target name = .ok ())
    (refused : WalkPlan.make fs epoch threads = .error r)
    (s : σ) :
    delete metadata runner fs parent target name epoch threads s =
      (some (.error (.failed (.refused r))), s) := by
  simp [delete, bind_apply, accept, accepted, refused, pure_apply, fail]

/-- A deletion with a plan and a flag of the caller's is a walk as well. -/
theorem deleteWith_walk {σ : Type} (metadata : Metadata (Flagged σ)) (runner : Runner (Flagged σ))
    (plan : WalkPlan) {parent target : Inode} {name : String}
    (accepted : checkTarget target name = .ok ()) (s : Flagged σ) :
    deleteWith metadata runner plan parent target name s =
      walk metadata runner removalVisitor plan ⟨target, parent, name⟩ 0 s := by
  simp [deleteWith, bind_apply, accept, accepted, pure_apply]

/-- A deletion that comes to its outcome has the same one if it may take more moves. -/
theorem delete_eq_of_le {σ : Type} {metadata : Metadata σ} {schedule : σ → Schedule σ}
    {budget more : Nat} {fs : FsId} {parent target : Inode} {name : String} {epoch : Epoch}
    {threads : Nat} {s : σ} {outcome : Outcome Nat} (le : budget ≤ more)
    (done : (delete metadata ⟨schedule, budget⟩ fs parent target name epoch threads s).1 =
      some outcome) :
    delete metadata ⟨schedule, more⟩ fs parent target name epoch threads s =
      delete metadata ⟨schedule, budget⟩ fs parent target name epoch threads s := by
  cases haccepted : checkTarget target name with
  | error r => rw [delete_refused _ _ _ _ _ _ haccepted, delete_refused _ _ _ _ _ _ haccepted]
  | ok =>
    cases hmade : WalkPlan.make fs epoch threads with
    | error r => rw [delete_eq_refused _ _ haccepted hmade, delete_eq_refused _ _ haccepted hmade]
    | ok plan =>
      rw [delete_walk _ _ haccepted hmade s rfl] at done
      obtain ⟨result, hresult, -⟩ := Option.map_eq_some_iff.mp done
      let walk : Walk σ Nat := ⟨metadata.on Flagged.innerPart, removalVisitor, plan⟩
      have hlast : walk.run (Runner.withFlag ⟨schedule, more⟩) ⟨target, parent, name⟩ ⟨s, false⟩ 0 =
          walk.run (Runner.withFlag ⟨schedule, budget⟩) ⟨target, parent, name⟩ ⟨s, false⟩ 0 :=
        World.drive_eq_of_le le hresult
      rw [delete_walk _ ⟨schedule, more⟩ haccepted hmade s hlast,
        delete_walk _ ⟨schedule, budget⟩ haccepted hmade s rfl]

/-- A name has no slash, so nothing of it is one. -/
private theorem strip_ne_slash {name : String} (h : Tree.isName name = true) :
    Text.strip name ≠ "/" := by
  intro heq
  have hslash : '/' ∈ (Text.strip name).toList := by
    rw [heq]
    decide
  have hsub : ∀ c ∈ (Text.strip name).toList, c ∈ name.toList := by
    intro c hc
    rw [Text.toList_strip, Text.stripChars, Text.stripRight, List.mem_reverse] at hc
    have hc := List.mem_reverse.mp ((Text.stripLeft_suffix _).subset hc)
    exact (Text.stripLeft_suffix _).subset hc
  simp only [Tree.isName, Bool.and_eq_true, Bool.not_eq_true'] at h
  have hnot := h.2
  rw [List.contains_eq_mem] at hnot
  simp [hsub _ hslash] at hnot

/-- A directory that has a name can be a target. -/
theorem checkTarget_eq_ok {t : Tree} (sound : t.Sound) {d : Dir} (has : t.Has d.entry) :
    checkTarget d.inode d.name = .ok () := by
  obtain ⟨hat, a, ha, hdir⟩ := has
  obtain ⟨b, hb, -⟩ := sound.parent _ _ _ hat
  obtain ⟨a', ha', hdown⟩ := sound.child _ _ _ hat
  obtain rfl := Option.some.inj (ha.symm.trans ha')
  obtain ⟨hlt, hname⟩ := hdown hdir
  have hroot : d.inode ≠ rootInode :=
    Nat.ne_of_gt (Nat.lt_of_le_of_lt (sound.inode _ b hb).2.1 hlt)
  have hslash : Text.strip d.name ≠ "/" := strip_ne_slash hname
  have hempty : d.name ≠ "" := by
    intro heq
    rw [show d.entry.name = d.name from rfl, heq] at hname
    exact absurd hname (by decide)
  unfold checkTarget
  rw [if_neg (not_or.mpr ⟨hroot, hslash⟩), if_neg hempty]

end Sweep

namespace Removal

variable (R : Removal)

/-- The requests of a removal leave the flag alone. -/
theorem within_sameFlag : R.walk.metadata.Within Flagged.SameFlag := by
  intro r
  exact Proc.within_innerPart _

/-- The books are right before anything is removed. -/
theorem books_start {d : Deployment} (service : d.service = R.service)
    (calm : R.sure → (Deployment.clientPart.get d).Calm R.client) (raised : Bool) :
    R.ledger.books ⟨d, raised⟩ 0 0 := by
  refine ⟨rfl, ⟨[], R.tree, rfl, ?_⟩, calm⟩
  rw [service]
  exact .start R.found

/-- What is gone once the books show that it is. -/
theorem lost_of_books {s : Flagged Deployment} {n : Nat} {done : Multiset Entry × Nat}
    (books : R.ledger.books s n done) : ∃ gone : List Entry, (gone : Multiset Entry) = done.1 ∧
      R.service.Lost R.plan.fs R.filesystem gone s.inner.service := by
  obtain ⟨-, ⟨gone, t, hgone, hleft⟩, -⟩ := books
  exact ⟨gone, hgone, hleft.lost R.sound⟩

/-- What is to be removed is the directory and all that is under it. -/
theorem mem_targets {e : Entry} :
    e ∈ R.targets ↔ e = R.root.entry ∨ R.tree.Under R.root.inode e := by
  rw [targets, List.mem_cons]
  exact or_congr_right (R.sound.mem_below)

end Removal

namespace Sweep

/-- A deletion through a client that nothing is in the way of removes the directory and all
that is below it, and nothing else.  It has an outcome under every schedule, after finitely many
moves, and the outcome is the number of entries that are gone. -/
theorem delete_removes_subtree {d : Deployment} {c : Client} {fs : FsId} {f : Filesystem}
    {parent target : Inode} {name : String} {a : Attr} {epoch : Epoch} {threads : Nat}
    {schedule : Deployment → Schedule Deployment}
    (calm : (Deployment.clientPart.get d).Calm c) (found : d.service.filesystem? fs = some f)
    (current : epoch = f.epoch) (reachable : f.tree.Reachable)
    (named : f.tree.At parent name target) (known : f.tree.attr? target = some a)
    (isDir : a.kind = .dir) (inRange : 1 ≤ threads ∧ threads ≤ maxThreads)
    (alone : ∀ now change, schedule d now ≠ some (.outside change)) :
    ∃ bound, ∀ budget, bound ≤ budget → ∃ gone d',
      delete (Deployment.metadata c) ⟨schedule, budget⟩ fs parent target name epoch threads d =
        (some (.ok gone.length), d') ∧ gone.Nodup ∧
      (∀ e, e ∈ gone ↔ e = ⟨name, target, parent, .dir⟩ ∨ f.tree.Under target e) ∧
      d.service.Lost fs f gone d'.service := by
  have sound := reachable.sound
  let plan : WalkPlan := ⟨fs, epoch, threads, inRange.1, inRange.2⟩
  have hmade : WalkPlan.make fs epoch threads = .ok plan := dif_pos inRange
  let root : Dir := ⟨target, parent, name⟩
  have hhas : f.tree.Has root.entry := ⟨named, a, known, isDir⟩
  let R : Removal := ⟨c, d.service, plan, f, found, sound, root, hhas, True, fun _ => current⟩
  have haccepted := checkTarget_eq_ok sound hhas
  have hbooks : R.ledger.books ⟨d, false⟩ 0 0 := R.books_start rfl (fun _ => calm) false
  have halone := Runner.alone_withFlag ⟨schedule, 0⟩ alone false
  obtain ⟨bound, hbound⟩ :=
    R.fits.exists_settled R.within_sameFlag trivial hbooks rfl halone
  refine ⟨bound, ?_⟩
  intro budget hbudget
  obtain ⟨last, hlast, hresult, hfinal⟩ := hbound budget hbudget
  obtain ⟨gone, hgone, hlost⟩ := R.lost_of_books hfinal
  rw [R.all_eq] at hgone
  have hperm : gone.Perm R.targets := Multiset.coe_eq_coe.mp hgone
  refine ⟨gone, last.shared.store.inner, ?_, hperm.nodup_iff.mpr R.nodup_targets, ?_, hlost⟩
  · have hcount : R.ledger.all.2 = last.shared.state := hfinal.1
    rw [R.all_eq, ← hperm.length_eq] at hcount
    have hrun : Walk.run ⟨(Deployment.metadata c).on Flagged.innerPart, removalVisitor, plan⟩
        (Runner.withFlag ⟨schedule, budget⟩) ⟨target, parent, name⟩ ⟨d, false⟩ 0 = last := hlast
    rw [delete_walk _ _ haccepted hmade d hrun]
    rw [hresult, ← hcount]
    rfl
  · intro e
    rw [hperm.mem_iff]
    exact R.mem_targets

end Sweep

/-! A directory with a file in it, behind two shards. -/

/-- The root with one directory, and in that a file. -/
def Tree.sample : Tree where
  nodes := (((∅ : Std.TreeMap Inode Node).insert rootInode
      ⟨⟨rootInode, 0, 2, .dir, []⟩, (∅ : Std.TreeMap String Inode).insert "t" 2⟩).insert 2
      ⟨⟨2, 0, 2, .dir, [rootInode]⟩, (∅ : Std.TreeMap String Inode).insert "a" 3⟩).insert 3
      ⟨⟨3, 5, 1, .file, [2]⟩, ∅⟩
  nextInode := 4

def Filesystem.sample : Filesystem :=
  ⟨"fs1", .first, .sample⟩

def Service.sample : Service :=
  (Service.new 1 "fs1").putFilesystem 1 .sample

def Endpoint.sample : Endpoint :=
  ⟨"a", 1, by decide, by decide, by decide⟩

/-- A client of two shards that are served at the same place. -/
def Client.sample : Client :=
  ⟨.standard, ⟨[[.sample], [.sample]]⟩, [.sample]⟩

/-- One of the shards has no endpoint. -/
def Client.lopsided : Client :=
  ⟨.standard, ⟨[[.sample], []]⟩, [.sample]⟩

/-- The service with a client that is ready for it. -/
def Deployment.sample : Deployment :=
  { Deployment.fresh .sample with active := some 1 }

/-- The sample was built by two operations. -/
theorem Tree.reachable_sample : Tree.sample.Reachable := by
  have hbuilt : ∃ t, Tree.rootOnly.mkdir rootInode "t" = .ok (2, t) ∧
      t.create 2 "a" 5 = .ok (3, .sample) := ⟨_, rfl, rfl⟩
  obtain ⟨t, hdir, hfile⟩ := hbuilt
  exact .create (.mkdir .root hdir) hfile

theorem Tree.at_sample : Tree.sample.At rootInode "t" 2 :=
  ⟨_, rfl, rfl⟩

/-- Nothing is in the way of the sample client. -/
theorem Deployment.calm_sample : (clientPart.get sample).Calm .sample where
  active := rfl
  service := by
    have hreach : ∀ i, Client.sample.shards.groupOf i = [.sample] := by
      intro i
      have hgroup : i % 2 = 0 ∨ i % 2 = 1 := Nat.mod_two_eq_zero_or_one i
      rcases hgroup with h | h <;> simp [Client.sample, ShardTable.groupOf, ShardTable.size, h]
    exact ⟨rfl, rfl, rfl, Nat.zero_le _, fun i => rfl, fun i => rfl,
      fun i => ⟨_, _, hreach i, List.not_mem_nil⟩⟩
  idle _ h := absurd h List.not_mem_nil

/-- What is in the way does not depend on what a service holds. -/
theorem Service.Calm.putFilesystem {c : Client} {s : Service} (calm : s.Calm c) (fs : FsId)
    (f : Filesystem) : (s.putFilesystem fs f).Calm c :=
  ⟨calm.transport, calm.dials, calm.status, calm.latency, calm.lists, calm.attrs, calm.reach⟩

/-! A file that has a name in a directory, one in a subdirectory of it, and one outside. -/

/-- The file is the inode 3, and has three names. -/
def Tree.linked : Tree :=
  rootOnly.after [.mkdir rootInode "t", .create 2 "a" 5, .link rootInode "b" 3, .mkdir 2 "u",
    .link 4 "c" 3]

/-- What is in the directory, at both levels. -/
def Tree.insideLinked : List Entry :=
  [⟨"a", 3, 2, .file⟩, ⟨"u", 4, 2, .dir⟩, ⟨"c", 3, 4, .file⟩]

def Filesystem.linked : Filesystem :=
  ⟨"fs1", .first, .linked⟩

def Deployment.linked : Deployment :=
  { Deployment.sample with service := Service.sample.putFilesystem 1 .linked }

/-- Nothing is in the way of the client here either. -/
theorem Deployment.calm_linked : (clientPart.get linked).Calm .sample :=
  ⟨rfl, calm_sample.service.putFilesystem 1 .linked, calm_sample.idle⟩

theorem Tree.reachable_linked : Tree.linked.Reachable :=
  Reachable.root.steps (steps_after _ _)

theorem Tree.at_linked : Tree.linked.At rootInode "t" 2 :=
  ⟨_, rfl, rfl⟩

/-- The list is what is under the directory. -/
theorem Tree.mem_insideLinked {e : Entry} : e ∈ Tree.insideLinked ↔ Tree.linked.Under 2 e := by
  have hbelow : Tree.reachable_linked.sound.forest.below 2 = Tree.insideLinked := rfl
  rw [← hbelow]
  exact Tree.reachable_linked.sound.mem_below

namespace Sweep

/-- All four entries of the subtree go, and the file is left with the name it has outside. -/
theorem delete_removes_subtree_linked :
    ∃ bound, ∀ budget, bound ≤ budget → ∃ gone d' t,
      delete (Deployment.metadata .sample) ⟨fun _ => .newestFirst, budget⟩ 1 rootInode 2 "t" .first 4
        .linked = (some (.ok 4), d') ∧
      gone.Perm (⟨"t", 2, rootInode, .dir⟩ :: Tree.insideLinked) ∧
      Deployment.linked.service.Lost 1 .linked gone d'.service ∧
      d'.service.filesystem? 1 = some { Filesystem.linked with tree := t } ∧
      t.At rootInode "b" 3 ∧ t.attr? 3 = some ⟨3, 5, 1, .file, [rootInode]⟩ := by
  have hfound : Deployment.linked.service.filesystem? 1 = some .linked := rfl
  have hknown : Filesystem.linked.tree.attr? 2 = some ⟨2, 0, 2, .dir, [rootInode]⟩ := rfl
  have hthreads : 1 ≤ 4 ∧ 4 ≤ maxThreads := by decide
  let schedule : Deployment → Schedule Deployment := fun _ => .newestFirst
  have halone : ∀ now change, schedule .linked now ≠ some (.outside change) :=
    Schedule.newestFirst_alone
  obtain ⟨bound, hbound⟩ := delete_removes_subtree Deployment.calm_linked hfound rfl
    Tree.reachable_linked Tree.at_linked hknown rfl hthreads halone
  refine ⟨bound, fun budget hbudget => ?_⟩
  obtain ⟨gone, d', hdelete, hnodup, hall, hlost⟩ := hbound budget hbudget
  have hperm : gone.Perm (⟨"t", 2, rootInode, .dir⟩ :: Tree.insideLinked) := by
    refine (List.perm_ext_iff_of_nodup hnodup (by decide)).mpr fun e => ?_
    rw [hall, List.mem_cons, Tree.mem_insideLinked]
    rfl
  obtain ⟨t, htree, hcleared⟩ := hlost.tree
  have hhas : Tree.linked.Has ⟨"b", 3, rootInode, .file⟩ := ⟨⟨_, rfl, rfl⟩, _, rfl, rfl⟩
  have hleft : (⟨"b", 3, rootInode, .file⟩ : Entry) ∉ gone := by
    rw [hperm.mem_iff]
    decide
  have hother : ∀ e ∈ (⟨"t", 2, rootInode, .dir⟩ :: Tree.insideLinked : List Entry),
      ¬ (rootInode = e.parent ∧ "b" = e.name) := by decide
  have hnames : (lostNames gone 3).Perm [2, 4] := (hperm.filter _).map Entry.parent
  refine ⟨gone, d', t, ?_, hperm, hlost, htree, (hcleared.names _ _ _).mpr ⟨hhas.1, ?_⟩, ?_⟩
  · rw [hperm.length_eq] at hdelete
    exact hdelete
  · exact fun e he => hother e (hperm.mem_iff.mp he)
  · rw [hcleared.survives _ _ hhas hleft rfl rfl, Attr.withoutAll, hnames.diff_left, hnames.length_eq]
    rfl

/-- A client can get ready although one of its shards has no endpoint.  Nothing else is wrong, and
a deletion that comes to that shard fails. -/
theorem delete_without_endpoint :
    ((Deployment.metadata .lopsided).prepare 1).run (.fresh .sample) = (.ok (), .sample) ∧
    Tree.sample.Reachable ∧ Tree.sample.At rootInode "t" 2 ∧
    Service.sample.faults = .none ∧ Service.sample.unreachable = [] ∧
    Service.sample.latency.nanos = 0 ∧
    ∀ budget, 60 ≤ budget →
      (delete (Deployment.metadata .lopsided) ⟨fun _ => .newestFirst, budget⟩ 1 rootInode 2 "t" .first
        1 .sample).1 = some (.error (.failed (.rpc (.noEndpoint .deleteDir)))) := by
  refine ⟨rfl, Tree.reachable_sample, Tree.at_sample, rfl, rfl, rfl, ?_⟩
  intro budget hbudget
  have hdone : (delete (Deployment.metadata .lopsided) ⟨fun _ => .newestFirst, 60⟩ 1 rootInode 2 "t"
      .first 1 .sample).1 = some (.error (.failed (.rpc (.noEndpoint .deleteDir)))) := rfl
  rw [delete_eq_of_le hbudget hdone]
  exact hdone

end Sweep

end ShardSweep
