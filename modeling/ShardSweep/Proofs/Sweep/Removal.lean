import Mathlib.Algebra.Order.Group.Multiset
import ShardSweep.Proofs.Client.Dues
import ShardSweep.Proofs.Cluster.Left
import ShardSweep.Walk.Removal

/-!
# The ledger of a removal

Every file is worth itself where it is visited, and every directory where it is left.  The
books are right if just those entries are gone from the tree of the filesystem, their names are
in the log, and the visitor has counted as many.

* `Removal`: a directory that is removed through a client;
* `Removal.ledger`: its ledger;
* `Removal.all_eq`: all that is to be removed;
* `Removal.fits`: a removal pays what it owes.
-/

namespace ShardSweep

/-- A directory that is removed through a client, from a service that has its entry.  If the
removal is `sure` to succeed the generation is the current one. -/
structure Removal where
  client : Client
  service : Service
  plan : WalkPlan
  filesystem : Filesystem
  found : service.filesystem? plan.fs = some filesystem
  sound : filesystem.tree.Sound
  root : Dir
  has : filesystem.tree.Has root.entry
  sure : Prop
  current : sure → plan.epoch = filesystem.epoch

namespace Removal

variable (R : Removal)

def tree : Tree :=
  R.filesystem.tree

def forest : Forest :=
  R.sound.forest

def walk : Walk Deployment Nat :=
  ⟨(Deployment.metadata R.client).on Flagged.innerPart, removalVisitor, R.plan⟩

/-- What is removed, and how many that are. -/
def value (e : Entry) : Multiset Entry × Nat :=
  ({e}, 1)

/-- A file goes when it is visited, and a directory when it is left. -/
def worth : Site → Multiset Entry × Nat
  | .visit _ e => if e.kind.isDir then 0 else value e
  | .leave d => value d.entry

/-- Some entries are gone, and all but the latest are counted. -/
def ledger : Ledger Deployment Nat (Multiset Entry × Nat) where
  forest := R.forest
  root := R.root
  worth := worth
  books s n done := done.2 = n ∧
    (∃ (gone : List Entry) (t : Tree), (gone : Multiset Entry) = done.1 ∧
      R.service.Left R.plan.fs R.filesystem gone t s.inner.service) ∧
    (R.sure → (Deployment.client s).Calm R.client)
  sure := R.sure

/-- All that is to be removed. -/
def targets : List Entry :=
  R.root.entry :: R.forest.below R.root.inode

/-- What some entries are worth together. -/
theorem sum_value (es : List Entry) : (es.map value).sum = ((es : Multiset Entry), es.length) := by
  induction es with
  | nil => rfl
  | cons e es ih =>
    rw [List.map_cons, List.sum_cons, ih, value, Prod.mk_add_mk, Multiset.singleton_add,
      Multiset.cons_coe, List.length_cons, Nat.add_comm]

/-- The directories among some entries are worth what they are when they are left. -/
private theorem sum_dirs (es : List Entry) :
    (((es.filter (·.kind.isDir)).map Dir.ofEntry).map fun c => worth (.leave c)).sum =
      (es.map fun e => if e.kind.isDir then value e else 0).sum := by
  induction es with
  | nil => rfl
  | cons e es ih =>
    by_cases hd : e.kind.isDir = true
    · rw [List.filter_cons_of_pos (by simpa using hd), List.map_cons, List.map_cons, List.sum_cons, ih,
        List.map_cons, List.sum_cons, if_pos hd, worth, Dir.entry_ofEntry (Kind.isDir_iff.mp hd)]
    · rw [List.filter_cons_of_neg (by simpa using hd), ih, List.map_cons, List.sum_cons, if_neg hd,
        zero_add]

/-- What is to be removed in a subtree. -/
theorem weigh_eq (d : Dir) :
    R.forest.weigh R.ledger.weights d = ((d.entry :: R.forest.below d.inode).map value).sum := by
  have hfiles := R.forest.sum_below (fun e => if e.kind.isDir then 0 else value e) d
  have hdirs : ((R.forest.dirs d).map fun c => worth (.leave c)).sum = value d.entry +
      ((R.forest.below d.inode).map fun e => if e.kind.isDir then value e else 0).sum := by
    rw [Forest.dirs, List.map_cons, List.sum_cons, sum_dirs]
    rfl
  have hboth : ∀ e : Entry, (if e.kind.isDir then value e else 0) +
      (if e.kind.isDir then 0 else value e) = value e := by
    intro e
    by_cases hd : e.kind.isDir = true
    · rw [if_pos hd, if_pos hd, add_zero]
    · rw [if_neg hd, if_neg hd, zero_add]
  calc R.forest.weigh R.ledger.weights d
      = ((R.forest.dirs d).map fun c => ((R.forest.listing c.inode).map fun e =>
          worth (.visit c e)).sum + worth (.leave c)).sum := R.ledger.weigh_eq d
    _ = ((R.forest.below d.inode).map fun e => if e.kind.isDir then 0 else value e).sum +
          ((R.forest.dirs d).map fun c => worth (.leave c)).sum := by
        rw [List.sum_map_add, hfiles]
        rfl
    _ = value d.entry + ((R.forest.below d.inode).map value).sum := by
        rw [hdirs, add_comm, add_assoc, ← List.sum_map_add, List.map_congr_left fun e _ => hboth e]
    _ = ((d.entry :: R.forest.below d.inode).map value).sum := by
        rw [List.map_cons, List.sum_cons]

/-- All that is to be removed. -/
theorem all_eq : R.ledger.all = ((R.targets : Multiset Entry), R.targets.length) :=
  (R.weigh_eq R.root).trans (sum_value _)

/-- What is owed in a directory is itself and all that is below it. -/
theorem owedIn_eq (d : Dir) : R.ledger.owedIn d =
    (((d.entry :: R.forest.below d.inode : List Entry) : Multiset Entry),
      (R.forest.below d.inode).length + 1) :=
  (Ledger.owedIn_eq R.ledger d).trans ((R.weigh_eq d).trans (sum_value _))

/-- What the subtree names: entries of the tree. -/
theorem has_of_mem_targets {e : Entry} (he : e ∈ R.targets) : R.tree.Has e := by
  rcases List.mem_cons.mp he with rfl | he
  · exact R.has
  · obtain ⟨c, -, hc⟩ := Forest.mem_below.mp he
    exact (Tree.Sound.mem_forest.mp hc).2

/-- Nothing is to be removed twice. -/
theorem nodup_targets : R.targets.Nodup := by
  refine List.nodup_cons.mpr ⟨?_, R.sound.nodup_below R.root⟩
  intro hmem
  obtain ⟨c, hc, he⟩ := Forest.mem_below.mp hmem
  exact Forest.not_mem_subdirs_of_mem_dirs hc (Forest.ofEntry_mem_subdirs he rfl)

variable {R} {pre : Multiset Entry × Nat → Prop} {due done : Multiset Entry × Nat}
  {s s' : Flagged Deployment} {n : Nat} {e : Entry} {d : Dir}

/-- What is still due is not gone. -/
private theorem left_of_finds (h : R.ledger.Finds pre due s n done) :
    ∃ (gone : List Entry) (t : Tree), (gone : Multiset Entry) = done.1 ∧
      R.service.Left R.plan.fs R.filesystem gone t s.inner.service ∧ ∀ e ∈ due.1, e ∉ gone := by
  obtain ⟨⟨-, ⟨gone, t, hgone, hleft⟩, -⟩, ⟨rest, hall⟩, -⟩ := h
  refine ⟨gone, t, hgone, hleft, ?_⟩
  intro e he hmem
  have hnodup : (done.1 + due.1 + rest.1).Nodup := by
    have hfst := congrArg Prod.fst (R.all_eq.symm.trans hall)
    rw [show done.1 + due.1 + rest.1 = (done + due + rest).1 from rfl, ← hfst]
    exact Multiset.coe_nodup.mpr R.nodup_targets
  have hdisjoint := (Multiset.nodup_add.mp (Multiset.nodup_add.mp hnodup).1).2.2
  refine Multiset.disjoint_left.mp hdisjoint ?_ he
  rw [← hgone]
  exact Multiset.mem_coe.mpr hmem

/-- The books stay right as long as no name changes. -/
theorem books_same (h : R.ledger.books s n done)
    (same : s.inner.service.SameNames s'.inner.service)
    (calm : R.sure → (Deployment.client s').Calm R.client) : R.ledger.books s' n done := by
  obtain ⟨hcount, ⟨gone, t, hgone, hleft⟩, -⟩ := h
  exact ⟨hcount, ⟨gone, t, hgone, hleft.same same⟩, calm⟩

/-- Every directory of the subtree has its entry in the tree. -/
theorem has_entry (hd : d ∈ R.forest.dirs R.root) : R.tree.Has d.entry := by
  rcases R.sound.has_of_mem_dirs hd with rfl | h
  · exact R.has
  · exact h

/-- A directory whose entries are still due is listed as it was. -/
private theorem list_of_finds (hd : d ∈ R.forest.dirs R.root)
    (h : R.ledger.Finds pre (R.ledger.owedIn d) s n done) :
    ∃ (gone : List Entry) (t : Tree), R.service.Left R.plan.fs R.filesystem gone t s.inner.service ∧
      t.list d.inode = .ok (R.forest.listing d.inode) := by
  obtain ⟨gone, t, -, hleft, hdue⟩ := left_of_finds h
  rw [owedIn_eq] at hdue
  obtain ⟨hat, a, ha, hdir⟩ := has_entry hd
  refine ⟨gone, t, hleft, hleft.removes.listing_eq R.sound ha hdir ?_ ?_⟩
  · intro e he hinode
    have hhas := hleft.removes.had R.sound e he
    obtain rfl := R.sound.eq_entry hhas (has_entry hd) hinode
    exact hdue _ (Multiset.mem_coe.mpr List.mem_cons_self) he
  · intro e he
    refine hdue e (Multiset.mem_coe.mpr (List.mem_cons_of_mem _ ?_))
    exact Forest.mem_below.mpr ⟨d, Forest.self_mem_dirs d, he⟩

/-- A listing is what it was at the start, because nothing in it has gone yet, and nothing was paid
for it. -/
private theorem lists (hd : d ∈ R.forest.dirs R.root) :
    (R.walk.metadata.call (.listEntries R.plan.fs d.inode R.plan.epoch)).Pays R.ledger
      (fun _ => True) (R.ledger.owedIn d)
      (R.ledger.Fine (R.ledger.owedIn d)
        fun es due => es = R.forest.listing d.inode ∧ due = R.ledger.owedIn d) := by
  refine Deployment.call_pays (c := R.client) (r := .listEntries R.plan.fs d.inode R.plan.epoch)
    (i := d.inode) rfl (fun _ => R.ledger.owedIn d) (fun es => es = R.forest.listing d.inode) ?_ ?_ ?_
  · intro g s n done hfinds hsure
    have hcalm := hfinds.books.2.2 hsure
    refine ⟨hcalm, fun _ => ⟨R.forest.listing d.inode, ?_⟩⟩
    obtain ⟨gone, t, hleft, hlist⟩ := list_of_finds hd hfinds
    rw [hleft.listEntries_eq (R.current hsure) (hcalm.service.lists d.inode)]
    exact hlist
  · exact fun s s' n done => books_same
  · intro s s' n done es hfinds hserve hafter hcalm
    obtain ⟨gone, t, hleft, hlist⟩ := list_of_finds hd hfinds
    have hes := (hleft.of_listEntries hserve).symm.trans hlist
    refine ⟨Except.ok.inj hes, 0, (zero_add _).symm, ?_⟩
    rw [add_zero]
    exact books_same hfinds.books hafter hcalm

/-- A visitor removes an entry and counts it. -/
private theorem removes {r : Request} {i : Inode} (goes : r.destination = .shardOf i) (e : Entry)
    (ready : ∀ s n done (gone : List Entry) t, R.ledger.Finds pre (value e) s n done →
      R.service.Left R.plan.fs R.filesystem gone t s.inner.service →
      (gone : Multiset Entry) = done.1 →
      e ∉ gone → (R.sure → ∃ a, (s.inner.service.serve r).1 = .ok a) ∧
        ∀ a, (s.inner.service.serve r).1 = .ok a → ∃ t',
          R.service.Left R.plan.fs R.filesystem (e :: gone) t' (s.inner.service.serve r).2) :
    (Action.ask r fun _ => .modify (· + 1) .succeed).Pays R.ledger R.walk.metadata pre (value e)
      (value e) := by
  apply (Action.pays_request _ _ _ _ _ _).mpr
  have hcall := Deployment.call_pays (L := R.ledger) (c := R.client) goes
    (fun g => if g.isSome then (0, 1) else value e) (fun _ => True)
    (fun g s n done (hfinds : R.ledger.Finds pre _ s n done) => ?_) ?_ ?_
  · apply hcall.mono R.ledger
    intro r due hfine
    rcases r with h | a
    · obtain ⟨hsure, rfl⟩ := hfine
      cases h with
      | failed error => exact ⟨hsure, hsure, rfl⟩
      | panicked p => exact ⟨hsure, rfl⟩
    · obtain ⟨-, rfl⟩ := hfine
      intro s n done hfinds
      refine ⟨(0, 1), 0, rfl, ?_, rfl⟩
      obtain ⟨⟨hcount, hgone, hcalm⟩, -, -⟩ := hfinds
      refine ⟨?_, ?_, hcalm⟩
      · exact congrArg (· + 1) hcount
      · simpa using hgone
  · intro hsure
    refine ⟨hfinds.books.2.2 hsure, ?_⟩
    intro heq
    subst heq
    obtain ⟨gone, t, hgone, hleft, hdue⟩ := left_of_finds hfinds
    have he := hdue e (Multiset.mem_singleton_self e)
    exact (ready s n done gone t hfinds hleft hgone he).1 hsure
  · exact fun s s' n done => books_same
  · intro s s' n done a hfinds hserve hafter hcalm
    obtain ⟨gone, t, hgone, hleft, hdue⟩ := left_of_finds hfinds
    have he := hdue e (Multiset.mem_singleton_self e)
    obtain ⟨t', hleft'⟩ := (ready s n done gone t hfinds hleft hgone he).2 a hserve
    refine ⟨trivial, ({e}, 0), rfl, ?_, ⟨e :: gone, t', ?_, hleft'.same hafter⟩, hcalm⟩
    · exact hfinds.books.1
    · rw [← Multiset.cons_coe, hgone, ← Multiset.singleton_add, add_comm]
      rfl

/-- A visit to a file pays for it with one request, which is granted as the file is there. -/
private theorem visitFile (he : e ∈ R.forest.listing d.inode)
    (file : e.kind = .file) :
    (Action.ask (.deleteFile R.plan.fs d.inode e.name R.plan.epoch) fun _ =>
      .modify (· + 1) .succeed).Pays R.ledger R.walk.metadata pre (value e) (value e) := by
  obtain ⟨hparent, hhas⟩ := Tree.Sound.mem_forest.mp he
  apply removes (i := d.inode) rfl e
  intro s n done gone t hfinds hleft hgone hleave
  have hsound := hleft.removes.sound R.sound
  obtain ⟨hat, a, ha, hkind⟩ := (hleft.removes.has_iff R.sound).mpr ⟨hhas, hleave⟩
  refine ⟨?_, ?_⟩
  · intro hsure
    obtain ⟨t', ht'⟩ := hsound.removeFile hat ha (hkind.trans file)
    rw [hparent] at ht'
    exact ⟨(), hleft.remove_eq_ok (R.current hsure) ht' e.name⟩
  · intro a hserve
    obtain ⟨t', ht', hremoved⟩ := hleft.of_remove hserve
    obtain ⟨i, hdrops⟩ := hsound.drops_of_removeFile ht'
    have heq := hdrops.has.unique ⟨hat, _, ha, hkind⟩ hparent.symm rfl
    rw [heq] at hdrops
    exact ⟨t', hremoved e hdrops rfl⟩

/-- All that is in a directory is gone when it is left. -/
private theorem gone_of_ready (ready : R.ledger.Ready done (.leave d))
    (he : e ∈ R.forest.listing d.inode) : e ∈ done.1 := by
  obtain ⟨hfiles, hdirs⟩ := ready
  have hgone : ∃ more, done = value e + more := by
    by_cases hd : e.kind.isDir = true
    · obtain ⟨more, hmore⟩ := hdirs _ (Forest.ofEntry_mem_subdirs he hd)
      have hworth : R.ledger.worth (.leave (.ofEntry e)) = value e := by
        rw [← Dir.entry_ofEntry (Kind.isDir_iff.mp hd)]
        rfl
      exact ⟨more, by rw [hmore, hworth]⟩
    · obtain ⟨more, hmore⟩ := hfiles e he
      have hworth : R.ledger.worth (.visit d e) = value e := if_neg hd
      exact ⟨more, by rw [hmore, hworth]⟩
  obtain ⟨more, rfl⟩ := hgone
  exact Multiset.mem_add.mpr (.inl (Multiset.mem_singleton_self e))

/-- Leaving a directory pays for it with one request, which is granted as nothing is left inside. -/
private theorem leaveDir (hd : d ∈ R.forest.dirs R.root) :
    (Action.ask (.deleteDir R.plan.fs d.parent d.name R.plan.epoch) fun _ =>
      .modify (· + 1) .succeed).Pays R.ledger R.walk.metadata (R.ledger.Ready · (.leave d))
      (value d.entry) (value d.entry) := by
  apply removes (i := d.parent) rfl d.entry
  intro s n done gone t hfinds hleft hgone hleave
  have hsound := hleft.removes.sound R.sound
  obtain ⟨hat, a, ha, hdir⟩ := (hleft.removes.has_iff R.sound).mpr ⟨has_entry hd, hleave⟩
  refine ⟨?_, ?_⟩
  · intro hsure
    have hempty : ∀ name j, ¬ t.At d.inode name j := by
      intro name j hbelow
      obtain ⟨b, hb, -⟩ := hsound.child _ _ _ hbelow
      have hthere : t.Has ⟨name, j, d.inode, b.kind⟩ := ⟨hbelow, b, hb, rfl⟩
      obtain ⟨hhas, hstays⟩ := (hleft.removes.has_iff R.sound).mp hthere
      have hlisted := gone_of_ready hfinds.ready (Tree.Sound.mem_forest.mpr ⟨rfl, hhas⟩)
      rw [← hgone] at hlisted
      exact hstays (Multiset.mem_coe.mp hlisted)
    obtain ⟨t', ht'⟩ := hsound.removeDir hat ha hdir hempty
    exact ⟨(), hleft.remove_eq_ok (R.current hsure) ht' d.name⟩
  · intro a hserve
    obtain ⟨t', ht', hremoved⟩ := hleft.of_remove hserve
    obtain ⟨i, hdrops⟩ := hsound.drops_of_removeDir ht'
    have heq := hdrops.has.unique ⟨hat, _, ha, hdir⟩ rfl rfl
    rw [heq] at hdrops
    exact ⟨t', hremoved d.entry hdrops rfl⟩

/-- The root of a filesystem has no entry. -/
private theorem not_isRoot (hd : d ∈ R.forest.dirs R.root) : d.isRoot = false := by
  obtain ⟨hat, a, ha, hdir⟩ := has_entry hd
  obtain ⟨b, hb, -⟩ := R.sound.parent _ _ _ hat
  obtain ⟨a', ha', hdown⟩ := R.sound.child _ _ _ hat
  obtain rfl := Option.some.inj (ha.symm.trans ha')
  have hle := (R.sound.inode _ b hb).2.1
  have hlt := Nat.lt_of_le_of_lt hle (hdown hdir).1
  exact beq_false_of_ne (Nat.ne_of_gt hlt)

/-- Nothing is done at the entry of a directory. -/
theorem act_dir (isDir : e.kind = .dir) :
    R.walk.visitor.act R.walk.plan (.visit d e) = .succeed := by
  simp [walk, Visitor.act, removalVisitor, isDir]

/-- A file is removed and counted. -/
theorem act_file (file : e.kind = .file) : R.walk.visitor.act R.walk.plan (.visit d e) =
    .ask (.deleteFile R.plan.fs d.inode e.name R.plan.epoch) fun _ => .modify (· + 1) .succeed := by
  simp [walk, Visitor.act, removalVisitor, file]

/-- A directory is removed and counted. -/
theorem act_leave (inside : d.isRoot = false) : R.walk.visitor.act R.walk.plan (.leave d) =
    .ask (.deleteDir R.plan.fs d.parent d.name R.plan.epoch) fun _ => .modify (· + 1) .succeed := by
  simp [walk, Visitor.act, removalVisitor, inside]

/-- The root of the namespace is refused. -/
theorem act_root (root : d.isRoot = true) : R.walk.visitor.act R.walk.plan (.leave d) =
    .done (.error (.refused .rootDeletion)) := by
  simp [walk, Visitor.act, removalVisitor, root]

/-- A removal pays what it owes. -/
theorem fits (R : Removal) : R.ledger.Fits R.walk := by
  refine ⟨fun s n done h => h, fun d hd => lists hd, ?_⟩
  intro site hbelongs
  cases site with
  | visit d e =>
    obtain ⟨hd, he⟩ := hbelongs
    cases hkind : e.kind with
    | dir =>
      have hworth : R.ledger.worth (.visit d e) = 0 := if_pos (Kind.isDir_iff.mpr hkind)
      rw [act_dir hkind, hworth]
      rfl
    | file =>
      have hworth : R.ledger.worth (.visit d e) = value e := if_neg (by simp [hkind, Kind.isDir])
      rw [act_file hkind, hworth]
      exact visitFile he hkind
  | leave d =>
    rw [act_leave (not_isRoot hbelongs)]
    exact leaveDir hbelongs

end Removal

end ShardSweep
