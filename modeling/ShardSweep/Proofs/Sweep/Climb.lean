import ShardSweep.Proofs.Client.Prompt
import ShardSweep.Proofs.Cluster.Named
import ShardSweep.Proofs.Sweep.Delete
import ShardSweep.Proofs.Sweep.Lookup

/-!
# Climbing to the root, and coming back

A client builds a path of an inode by climbing: it takes the first of the parents that the inode
has, and looks in the listing of that parent for the inode.  The parents are kept in step with the
entries by every operation, so there is an entry to find, and of a file with several names it does
not matter which one it is.

The induction is on the way up, which ends at the root whichever parents one takes.

* `Tree.Sound.parent_at`: the first parent holds an entry of the inode;
* `Sweep.climb_up`: one move up, and what it costs;
* `Sweep.climb_rooted`: all the moves up;
* `Sweep.inodePath_leads_back`: the service finds the inode at the path that was built.
-/

namespace ShardSweep

namespace Tree

variable {t : Tree} {i : Inode} {a : Attr}

/-- The first of the parents of an inode holds an entry of it. -/
theorem Sound.parent_at (sound : t.Sound) (homed : t.Homed) (ha : t.attr? i = some a)
    (below : i ≠ rootInode) : ∃ p rest name, a.parents = p :: rest ∧ t.At p name i := by
  cases hkind : a.kind with
  | dir =>
    obtain ⟨p, name, hat, hparents⟩ := homed i a ha hkind below
    exact ⟨p, [], name, hparents, hat⟩
  | file =>
    obtain ⟨names, hnames, hne, hparents, -⟩ := sound.named i a ha hkind
    cases hlist : a.parents with
    | nil =>
      rw [hlist, List.nil_perm, List.map_eq_nil_iff] at hparents
      exact absurd hparents hne
    | cons p rest =>
      rw [hlist] at hparents
      obtain ⟨⟨q, name⟩, hmem, rfl⟩ := List.mem_map.mp (hparents.mem_iff.mp List.mem_cons_self)
      exact ⟨q, rest, name, rfl, (hnames.mem_iff q name).mp hmem⟩

/-- The listing of a directory that holds an entry of an inode shows one. -/
theorem Sound.exists_find? (sound : t.Sound) {p : Inode} {name : String} (hat : t.At p name i) :
    ∃ e, (t.listing p).find? (·.inode == i) = some e ∧ t.At p e.name i := by
  obtain ⟨a, ha, -⟩ := sound.child p name i hat
  have hmem : ⟨name, i, p, a.kind⟩ ∈ t.listing p := sound.mem_listing.mpr ⟨rfl, hat, a, ha, rfl⟩
  cases hfind : (t.listing p).find? (·.inode == i) with
  | none => simpa using List.find?_eq_none.mp hfind _ hmem
  | some e =>
    have hinode : e.inode = i := by simpa using List.find?_some hfind
    obtain ⟨hparent, hhas⟩ := sound.mem_listing.mp (List.mem_of_find?_eq_some hfind)
    exact ⟨e, rfl, hinode ▸ hparent ▸ hhas.1⟩

end Tree

namespace Sweep

variable {c : Client} {d d' : Deployment} {fs : FsId} {f : Filesystem} {epoch : Epoch} {i : Inode}

/-- The requests of so many moves up: the attributes of an inode, and the listing of a parent. -/
def climbing (moves : Nat) : List RequestKind :=
  (List.replicate moves [.getAttr, .listEntries]).flatten

private theorem foldl_bump_climbing (counts : CallCounts) (moves : Nat) :
    (climbing moves).foldl .bump counts = { counts with
      getAttr := counts.getAttr + moves
      listEntries := counts.listEntries + moves } := by
  induction moves generalizing counts with
  | zero => rfl
  | succ n ih =>
    rw [climbing, List.replicate_succ, List.flatten_cons, List.foldl_append, ← climbing, ih]
    simp [CallCounts.bump, Nat.add_comm n, Nat.add_assoc]

/-- An inode that is not the root costs two requests, and the client is in a directory that holds
an entry of it. -/
theorem climb_up (sound : f.tree.Sound) (homed : f.tree.Homed) (current : epoch = f.epoch)
    (found : d.service.filesystem? fs = some f) (calm : (Deployment.clientPart.get d).Calm c)
    {a : Attr} (ha : f.tree.attr? i = some a) (below : i ≠ rootInode) :
    ∃ p name d', p ∈ a.parents ∧ f.tree.At p name i ∧ Noted c (climbing 1) d d' ∧
      ∀ budget names, climb (Deployment.metadata c) fs epoch (budget + 1) i names d =
        climb (Deployment.metadata c) fs epoch budget p (name :: names) d' := by
  obtain ⟨p, rest, name, hparents, hat⟩ := sound.parent_at homed ha below
  obtain ⟨e, hfind, hate⟩ := sound.exists_find? hat
  obtain ⟨b, hb, hdir⟩ := sound.parent p name i hat
  obtain ⟨d₁, hattr, hnoted⟩ := ask_granted (r := .getAttr fs i 0 epoch) rfl (fun _ => rfl) calm
    fun s hsame hcalm => (Service.Left.start ((hsame.filesystem?_eq fs).trans found)).getAttr_eq_ok
      current (hcalm.attrs i) ha 0
  have hfound := (hnoted.same.filesystem?_eq fs).trans found
  obtain ⟨d₂, hlist, hnoted'⟩ := ask_granted (r := .listEntries fs p epoch) rfl (fun _ => rfl)
    hnoted.calm fun s hsame hcalm =>
      ((Service.Left.start ((hsame.filesystem?_eq fs).trans hfound)).listEntries_eq current
        (hcalm.lists p)).trans (Tree.list_eq_ok hb hdir)
  refine ⟨p, e.name, d₂, by simp [hparents], hate, hnoted.trans hnoted', fun budget names => ?_⟩
  rw [climb, if_neg below, bind_eq_of_ok hattr]
  simp only [hparents]
  rw [bind_eq_of_ok hlist, hfind]

/-- The way from an inode to the root, through names that lead back to the inode. -/
structure Ascent (c : Client) (fs : FsId) (t : Tree) (epoch : Epoch) (i : Inode)
    (names : List String) (d d' : Deployment) : Prop where
  back : t.lookupNames rootInode names = some i
  good : ∀ name ∈ names, Tree.isName name = true
  root : i = rootInode → names = []
  noted : Noted c (climbing names.length) d d'
  path : ∀ budget, names.length < budget → ∀ below,
    climb (Deployment.metadata c) fs epoch budget i below d =
      (some (.ok (Path.text (names ++ below))), d')

/-- At the root there is nothing to climb. -/
theorem ascent_root (t : Tree) (calm : (Deployment.clientPart.get d).Calm c) :
    Ascent c fs t epoch rootInode [] d d := by
  refine ⟨rfl, nofun, fun _ => rfl, .refl calm, fun budget hbudget below => ?_⟩
  obtain ⟨budget, rfl⟩ := Nat.exists_eq_add_of_lt hbudget
  rfl

/-- From every inode there is a way to the root. -/
theorem climb_rooted (sound : f.tree.Sound) (homed : f.tree.Homed) (wellNamed : f.tree.WellNamed)
    (current : epoch = f.epoch) (rooted : f.tree.Rooted i) :
    ∀ {d : Deployment}, d.service.filesystem? fs = some f →
      (Deployment.clientPart.get d).Calm c → ∃ names d', Ascent c fs f.tree epoch i names d d' := by
  induction rooted with
  | root => exact fun _ calm => ⟨[], _, ascent_root f.tree calm⟩
  | @up i a known _ _ ih =>
    intro d found calm
    by_cases hi : i = rootInode
    · exact ⟨[], d, hi ▸ ascent_root f.tree calm⟩
    obtain ⟨p, name, d₁, hp, hat, hnoted, hup⟩ := climb_up sound homed current found calm known hi
    obtain ⟨names, d₂, hascent⟩ :=
      ih p hp ((hnoted.same.filesystem?_eq fs).trans found) hnoted.calm
    refine ⟨names ++ [name], d₂, ?_, ?_, fun h => absurd h hi, ?_, fun budget hbudget below => ?_⟩
    · exact Tree.lookupNames_concat.mpr ⟨p, hascent.back, sound.child_eq hat⟩
    · simpa using fun n hn => hn.elim (hascent.good n) fun h => h ▸ wellNamed p name i hat
    · rw [List.length_append, List.length_singleton, climbing, List.replicate_succ]
      exact hnoted.trans hascent.noted
    · rw [List.length_append, List.length_singleton] at hbudget
      obtain ⟨budget, rfl⟩ := Nat.exists_eq_add_of_lt hbudget
      rw [hup, hascent.path _ (by omega), List.append_assoc, List.singleton_append]

/-- A client that nothing is in the way of builds a path of every inode in use, with two requests
for each of its names, and the service finds the inode there.  An inode that is not in use has no
path. -/
theorem inodePath_leads_back {edits : List Tree.Edit} (good : ∀ edit ∈ edits, edit.WellNamed)
    (built : f.tree = Tree.rootOnly.after edits) (found : d.service.filesystem? fs = some f)
    (current : epoch = f.epoch) (calm : (Deployment.clientPart.get d).Calm c) (i : Inode) :
    (∀ a, f.tree.attr? i = some a → ∃ path d' bound,
      (∀ budget, bound ≤ budget →
        inodePath (Deployment.metadata c) budget fs i epoch d = (some (.ok path), d')) ∧
      f.tree.lookup path = some i ∧ (path = "/" ↔ i = rootInode) ∧
      d.service.SameNames d'.service ∧
      d'.service.counts = { d.service.counts with
        getAttr := d.service.counts.getAttr + (Tree.names path).length
        listEntries := d.service.counts.listEntries + (Tree.names path).length }) ∧
    (f.tree.attr? i = none → ∃ endpoint status d',
      (∀ budget, 1 ≤ budget → inodePath (Deployment.metadata c) budget fs i epoch d =
        (some (.error (.failed (.rpc (.rejected .getAttr endpoint status)))), d')) ∧
      status.code = .notFound ∧ d.service.SameNames d'.service ∧
      d'.service.counts =
        { d.service.counts with getAttr := d.service.counts.getAttr + 1 }) := by
  have hsteps : Tree.Steps .rootOnly f.tree := built ▸ Tree.steps_after edits .rootOnly
  have sound := (Tree.Reachable.root.steps hsteps).sound
  have homed := hsteps.homed .root Tree.homed_rootOnly
  have wellNamed : f.tree.WellNamed := built ▸ Tree.wellNamed_after good
  refine ⟨fun a ha => ?_, fun hnone => ?_⟩
  · obtain ⟨names, d', hascent⟩ :=
      climb_rooted sound homed wellNamed current (sound.rooted homed ha) found calm
    have hnames := Tree.names_text hascent.good
    refine ⟨Path.text names, d', names.length + 1, fun budget hbudget => ?_, ?_, ?_,
      hascent.noted.same, ?_⟩
    · rw [inodePath, hascent.path budget hbudget, List.append_nil]
    · rw [Tree.lookup_text hascent.good, hascent.back]
    · constructor
      · intro h
        have hnil : names = [] := by rw [← hnames, h]; rfl
        have hback := hascent.back
        rw [hnil] at hback
        exact (Option.some.inj hback).symm
      · intro h
        rw [hascent.root h]
        rfl
    · rw [hnames]
      exact hascent.noted.counts.trans (foldl_bump_climbing _ _)
  · have hi : i ≠ rootInode := by
      rintro rfl
      obtain ⟨a, ha, -⟩ := sound.root
      cases hnone.symm.trans ha
    have hattr : f.tree.attr i = .error ⟨.notFound, Tree.inodeText i⟩ := by
      rw [Tree.attr, Option.map_eq_none_iff.mp hnone]
    obtain ⟨endpoint, d', -, hask, hnoted⟩ := ask_rejected (r := .getAttr fs i 0 epoch) rfl
      (fun _ => rfl) calm (fun s hsame hcalm => ((Service.Left.start
        ((hsame.filesystem?_eq fs).trans found)).getAttr_eq current (hcalm.attrs i) 0).trans hattr)
      rfl
    refine ⟨endpoint, ⟨.notFound, Tree.inodeText i⟩, d', fun budget hbudget => ?_, rfl,
      hnoted.same, hnoted.counts⟩
    obtain ⟨budget, rfl⟩ := Nat.exists_eq_add_of_le' hbudget
    rw [inodePath, climb, if_neg hi, bind_eq_of_error hask]
    rfl

end Sweep

/-! A file that has lost the first of its two names. -/

def Tree.renaming : List Tree.Edit :=
  [.mkdir rootInode "t", .create 2 "a" 5, .link rootInode "b" 3, .removeFile 2 "a"]

def Filesystem.renamed : Filesystem :=
  ⟨"fs1", .first, Tree.rootOnly.after Tree.renaming⟩

def Deployment.renamed : Deployment :=
  { Deployment.sample with service := Service.sample.putFilesystem 1 .renamed }

theorem Deployment.calm_renamed : (clientPart.get renamed).Calm .sample :=
  ⟨rfl, calm_sample.service.putFilesystem 1 .renamed, calm_sample.idle⟩

namespace Sweep

theorem inodePath_leads_back_renamed : ∃ path d' bound,
    (∀ budget, bound ≤ budget →
      inodePath (Deployment.metadata .sample) budget 1 3 .first .renamed = (some (.ok path), d')) ∧
    Filesystem.renamed.tree.lookup path = some 3 ∧ (path = "/" ↔ 3 = rootInode) ∧
    Deployment.renamed.service.SameNames d'.service ∧
    d'.service.counts = { Service.sample.counts with
      getAttr := Service.sample.counts.getAttr + (Tree.names path).length
      listEntries := Service.sample.counts.listEntries + (Tree.names path).length } := by
  have hgood : ∀ edit ∈ Tree.renaming, edit.WellNamed := by
    simp only [Tree.renaming, List.forall_mem_cons]
    exact ⟨trivial, trivial, rfl, trivial, nofun⟩
  have hknown : ∃ a, Filesystem.renamed.tree.attr? 3 = some a := ⟨_, rfl⟩
  obtain ⟨a, ha⟩ := hknown
  exact (inodePath_leads_back hgood rfl rfl rfl Deployment.calm_renamed 3).1 a ha

/-- A client can get ready although one of its shards has no endpoint.  Nothing else is wrong, and
an inode that is there has no path. -/
theorem inodePath_without_endpoint :
    ((Deployment.metadata .lopsided).prepare 1).run (.fresh .sample) = (.ok (), .sample) ∧
    Tree.sample = Tree.rootOnly.after [.mkdir rootInode "t", .create 2 "a" 5] ∧
    Service.sample.faults = .none ∧ Service.sample.unreachable = [] ∧
    Service.sample.latency.nanos = 0 ∧ (Tree.sample.attr? 2).isSome ∧
    ∀ budget, 1 ≤ budget →
      (inodePath (Deployment.metadata .lopsided) budget 1 2 .first .sample).1 =
        some (.error (.failed (.rpc (.noEndpoint .listEntries)))) := by
  refine ⟨rfl, rfl, rfl, rfl, rfl, rfl, fun budget hbudget => ?_⟩
  obtain ⟨budget, rfl⟩ := Nat.exists_eq_add_of_le' hbudget
  rfl

end Sweep

end ShardSweep
