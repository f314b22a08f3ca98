import ShardSweep.Proofs.Cluster.Left
import ShardSweep.Proofs.Cluster.Lookup
import ShardSweep.Proofs.Text.ByteOrder
import ShardSweep.Rehearsal.Table

/-!
# What a directory is said to hold

Five requests tell what is in a directory, each in its own way: the listing, the look for one entry,
the attributes, and the two removals, which refuse an entry of the wrong kind.  A listing calls
a node that is missing a file, and so does the look for an entry; the removals do not.  In a
namespace that was built by operations no node is missing, and the five agree.

* `Tree.Stands`: what the operations make of a name in a directory;
* `Service.Holds`: the replies about a directory agree on its entries;
* `Service.holds_listing`: they are the entries that are listed;
* `Service.replies_agree`: so it is for every directory, whoever asks and when.
-/

namespace ShardSweep

namespace Tree

variable {t : Tree} {p : Inode} {name : String}

/-- A directory lists one entry of a name. -/
theorem Sound.eq_of_name (sound : t.Sound) {e e' : Entry} (h : e ∈ t.listing p)
    (h' : e' ∈ t.listing p) (same : e'.name = e.name) : e' = e := by
  obtain ⟨hparent, hat, a, ha, hkind⟩ := sound.mem_listing.mp h
  obtain ⟨hparent', hat', a', ha', hkind'⟩ := sound.mem_listing.mp h'
  rw [hparent] at hat
  rw [hparent', same] at hat'
  have hinode := hat'.unique hat
  rw [hinode] at ha'
  obtain rfl := Option.some.inj (ha.symm.trans ha')
  cases e
  cases e'
  simp_all

/-- What a name in a directory stands for, and what the operations make of it. -/
inductive Stands (t : Tree) (p : Inode) (name : String) : Prop
  | dir {e : Entry} (only : ∀ e', e' ∈ t.listing p ∧ e'.name = name ↔ e' = e) (kind : e.kind = .dir)
      (find : t.find p name = .ok e)
      (removeFile : t.removeFile p name = .error ⟨.isDirectory, entryText p name⟩)
      (removeDir : (∃ t', t.removeDir p name = .ok t') ∨
        ∃ message, t.removeDir p name = .error ⟨.notEmpty, message⟩)
  | file {e : Entry} (only : ∀ e', e' ∈ t.listing p ∧ e'.name = name ↔ e' = e)
      (kind : e.kind = .file) (find : t.find p name = .ok e)
      (removeFile : ∃ t', t.removeFile p name = .ok t')
      (removeDir : t.removeDir p name = .error ⟨.notDirectory, inodeText e.inode⟩)
  | nothing (free : ∀ e' ∈ t.listing p, e'.name ≠ name)
      (find : t.find p name = .error ⟨.notFound, entryText p name⟩)
      (removeFile : t.removeFile p name = .error ⟨.notFound, entryText p name⟩)
      (removeDir : t.removeDir p name = .error ⟨.notFound, entryText p name⟩)

/-- A name in a directory stands for a directory, for a file or for nothing. -/
theorem Sound.stands (sound : t.Sound) (isDir : t.IsDir p) (name : String) :
    t.Stands p name := by
  cases hchild : t.child p name with
  | error status =>
    obtain rfl := child_eq_error isDir hchild
    have hfind : t.find p name = .error ⟨.notFound, entryText p name⟩ := by rw [find, hchild]
    refine .nothing ?_ hfind (by rw [Tree.removeFile, hfind]) (by rw [Tree.removeDir, hchild])
    intro e he heq
    obtain ⟨rfl, hat, -⟩ := sound.mem_listing.mp he
    rw [← heq, sound.child_eq hat] at hchild
    cases hchild
  | ok i =>
    have hat := at_of_child hchild
    obtain ⟨a, ha, -⟩ := sound.child _ _ _ hat
    have hfind := sound.find_eq hat ha
    have honly : ∀ e', e' ∈ t.listing p ∧ e'.name = name ↔ e' = ⟨name, i, p, a.kind⟩ := by
      have hlisted : ⟨name, i, p, a.kind⟩ ∈ t.listing p :=
        sound.mem_listing.mpr ⟨rfl, hat, a, ha, rfl⟩
      intro e'
      refine ⟨fun h => sound.eq_of_name hlisted h.1 h.2, ?_⟩
      intro heq
      subst heq
      exact ⟨hlisted, rfl⟩
    obtain ⟨node, hnode, rfl⟩ := attr?_eq_some.mp ha
    cases hkind : node.attr.kind with
    | dir =>
      rw [hkind] at hfind honly
      have hdir : t.dir i = .ok node := dir_eq_ok.mpr ⟨hnode, hkind⟩
      refine .dir honly rfl hfind (by rw [Tree.removeFile, hfind]; rfl) ?_
      rw [Tree.removeDir, hchild]
      simp only [hdir]
      split
      · exact .inl ⟨_, rfl⟩
      · exact .inr ⟨_, rfl⟩
    | file =>
      rw [hkind] at hfind honly
      have hdir : t.dir i = .error ⟨.notDirectory, inodeText i⟩ := by
        rw [dir, hnode]
        simp [hkind, Kind.isDir]
      refine .file honly rfl hfind ⟨_, by rw [Tree.removeFile, hfind]; rfl⟩ ?_
      rw [Tree.removeDir, hchild]
      simp only [hdir]

namespace Stands

variable {k : Kind}

/-- Only one entry has the name. -/
private theorem exists_kind_iff {e : Entry}
    (only : ∀ e', e' ∈ t.listing p ∧ e'.name = name ↔ e' = e) :
    (∃ e' ∈ t.listing p, e'.name = name ∧ e'.kind = k) ↔ e.kind = k := by
  simp [← and_assoc, only]

/-- No entry has the name. -/
private theorem not_exists_kind (free : ∀ e' ∈ t.listing p, e'.name ≠ name) :
    ¬ ∃ e' ∈ t.listing p, e'.name = name ∧ e'.kind = k := by
  rintro ⟨e, he, hname, -⟩
  exact free e he hname

/-- An entry is found by its name just if it is listed. -/
theorem find_eq_ok (h : t.Stands p name) {e : Entry} :
    t.find p name = .ok e ↔ e ∈ t.listing p ∧ e.name = name := by
  cases h with
  | dir only _ find | file only _ find => rw [find, only, Except.ok.injEq, eq_comm]
  | nothing free find => simpa [find] using free e

/-- A name is not found just if it is not listed. -/
theorem find_notFound (h : t.Stands p name) :
    (∃ m, t.find p name = .error ⟨.notFound, m⟩) ↔ ∀ e ∈ t.listing p, e.name ≠ name := by
  cases h with
  | dir only _ find | file only _ find =>
    obtain ⟨hmem, hname⟩ := (only _).mpr rfl
    simp only [find, reduceCtorEq, exists_false, false_iff]
    exact fun free => free _ hmem hname
  | nothing free find => simpa [find] using free

/-- The removal of a file is refused for a directory just where the listing shows one. -/
theorem removeFile_isDirectory (h : t.Stands p name) :
    (∃ m, t.removeFile p name = .error ⟨.isDirectory, m⟩) ↔
      ∃ e ∈ t.listing p, e.name = name ∧ e.kind = .dir := by
  cases h with
  | dir only kind _ removeFile => simp [removeFile, exists_kind_iff only, kind]
  | file only kind _ removeFile =>
    obtain ⟨t', ht'⟩ := removeFile
    simp [ht', exists_kind_iff only, kind]
  | nothing free _ removeFile => simpa [removeFile] using not_exists_kind free

/-- It is granted just where the listing shows a file. -/
theorem removeFile_granted (h : t.Stands p name) :
    (∃ t', t.removeFile p name = .ok t') ↔
      ∃ e ∈ t.listing p, e.name = name ∧ e.kind = .file := by
  cases h with
  | dir only kind _ removeFile => simp [removeFile, exists_kind_iff only, kind]
  | file only kind _ removeFile => simpa [exists_kind_iff only, kind] using removeFile
  | nothing free _ removeFile => simpa [removeFile] using not_exists_kind free

/-- The removal of a directory is refused for a file just where the listing shows one. -/
theorem removeDir_notDirectory (h : t.Stands p name) :
    (∃ m, t.removeDir p name = .error ⟨.notDirectory, m⟩) ↔
      ∃ e ∈ t.listing p, e.name = name ∧ e.kind = .file := by
  cases h with
  | dir only kind _ _ removeDir =>
    obtain ⟨t', ht'⟩ | ⟨m, hm⟩ := removeDir
    · simp [ht', exists_kind_iff only, kind]
    · simp [hm, exists_kind_iff only, kind]
  | file only kind _ _ removeDir => simp [removeDir, exists_kind_iff only, kind]
  | nothing free _ _ removeDir => simpa [removeDir] using not_exists_kind free

/-- It goes by what is inside just where the listing shows a directory. -/
theorem removeDir_tried (h : t.Stands p name) :
    ((∃ t', t.removeDir p name = .ok t') ∨ ∃ m, t.removeDir p name = .error ⟨.notEmpty, m⟩) ↔
      ∃ e ∈ t.listing p, e.name = name ∧ e.kind = .dir := by
  cases h with
  | dir only kind _ _ removeDir => simpa [exists_kind_iff only, kind] using removeDir
  | file only kind _ _ removeDir => simp [removeDir, exists_kind_iff only, kind]
  | nothing free _ _ removeDir => simpa [removeDir] using not_exists_kind free

end Stands

/-- What has attributes is there. -/
theorem contains_of_attr? {i : Inode} {a : Attr} (ha : t.attr? i = some a) :
    t.contains i = true := by
  obtain ⟨node, hnode, -⟩ := attr?_eq_some.mp ha
  have hsome : t.nodes[i]? = some node := hnode
  rw [contains, Std.TreeMap.contains_eq_isSome_getElem?, hsome, Option.isSome_some]

/-- Who is listed in a directory knows that. -/
theorem Intact.mem_parents (intact : t.Intact) {i : Inode} {a : Attr} (hat : t.At p name i)
    (ha : t.attr? i = some a) : p ∈ a.parents := by
  cases hkind : a.kind with
  | dir =>
    have hroot : i ≠ rootInode := by
      intro heq
      subst heq
      exact intact.root.2 p name hat
    obtain ⟨q, m, hparents, hnames⟩ := intact.dir i a ha hkind hroot
    rw [hparents, ((hnames p name).mp hat).1]
    exact List.mem_singleton_self q
  | file =>
    obtain ⟨names, hnames, -, -, hparents⟩ := intact.file i a ha hkind
    exact hparents.mem_iff.mpr (List.mem_map_of_mem ((hnames.mem_iff p name).mpr hat))

end Tree

namespace Service

variable {s : Service} {link : Link} {timeout : Duration} {fs : FsId} {f : Filesystem} {p : Inode}

/-- What comes back over a link. -/
def reply (s : Service) (link : Link) (timeout : Duration) (r : Request) : Delivery r.Answer :=
  ((transport.issue link timeout r).run s).1

/-- A request over a link is refused with a code. -/
def Refuses (s : Service) (link : Link) (timeout : Duration) (r : Request) (code : StatusCode) :
    Prop :=
  ∃ message, s.reply link timeout r = .ok (.error ⟨code, message⟩)

/-- Whatever is asked over a link about a directory, the replies agree on its entries. -/
structure Holds (s : Service) (link : Link) (timeout : Duration) (fs : FsId) (f : Filesystem)
    (p : Inode) (entries : List Entry) : Prop where
  listed : s.reply link timeout (.listEntries fs p f.epoch) = .ok (.ok entries)
  sorted : entries.Pairwise fun e e' => Text.bytes e.name < Text.bytes e'.name
  parent : ∀ e ∈ entries, e.parent = p
  found : ∀ name e, s.reply link timeout (.getEntry fs p name f.epoch) = .ok (.ok e) ↔
    e ∈ entries ∧ e.name = name
  missing : ∀ name, s.Refuses link timeout (.getEntry fs p name f.epoch) .notFound ↔
    ∀ e ∈ entries, e.name ≠ name
  /-- No entry is called a file because its node is missing. -/
  refers : ∀ e ∈ entries, f.tree.contains e.inode = true
  attr : ∀ e ∈ entries, ∀ hint, ∃ a,
    s.reply link timeout (.getAttr fs e.inode hint f.epoch) = .ok (.ok a) ∧
      a.kind = e.kind ∧ p ∈ a.parents
  dirKept : ∀ name, s.Refuses link timeout (.deleteFile fs p name f.epoch) .isDirectory ↔
    ∃ e ∈ entries, e.name = name ∧ e.kind = .dir
  fileTaken : ∀ name, s.reply link timeout (.deleteFile fs p name f.epoch) = .ok (.ok ()) ↔
    ∃ e ∈ entries, e.name = name ∧ e.kind = .file
  fileKept : ∀ name, s.Refuses link timeout (.deleteDir fs p name f.epoch) .notDirectory ↔
    ∃ e ∈ entries, e.name = name ∧ e.kind = .file
  dirTaken : ∀ name, s.reply link timeout (.deleteDir fs p name f.epoch) = .ok (.ok ()) ∨
      s.Refuses link timeout (.deleteDir fs p name f.epoch) .notEmpty ↔
    ∃ e ∈ entries, e.name = name ∧ e.kind = .dir

/-- Where nothing is in the way the service answers. -/
theorem reply_of_clear (clear : s.Clear link timeout) (r : Request) :
    s.reply link timeout r = .ok (s.serve r).1 := by
  have halike : s.Alike s.enterListing := ⟨⟨rfl, rfl⟩, rfl, rfl⟩
  have hentered : s.enterListing.Clear link timeout :=
    ⟨clear.whole, clear.transport, clear.status, clear.latency, clear.lists, clear.attrs⟩
  cases r with
  | listEntries fs p epoch =>
    have hrun : s.reply link timeout (.listEntries fs p epoch) =
        (s.enterListing.receive link timeout (.listEntries fs p epoch)).1 := rfl
    rw [hrun, receive_of_clear hentered, (halike.serve _).1]
  | _ =>
    simp only [reply, transport, issue, Request.kind, Proc.run_atomic]
    rw [receive_of_clear clear]

/-- A reply is a refusal if the operation was refused. -/
private theorem map_eq_error {r : Except Status Tree} {status : Status} :
    (r.map fun _ => ()) = .error status ↔ r = .error status := by
  cases r <;> simp [Except.map]

/-- A reply is a success if the operation succeeded. -/
private theorem map_eq_ok {r : Except Status Tree} :
    (r.map fun _ => ()) = .ok () ↔ ∃ t, r = .ok t := by
  cases r <;> simp [Except.map]

section

variable (found : s.filesystem? fs = some f) (clear : s.Clear link timeout) (name : String)

include found clear

/-- A lookup is answered from the tree. -/
theorem reply_getEntry :
    s.reply link timeout (.getEntry fs p name f.epoch) = .ok (f.tree.find p name) := by
  rw [reply_of_clear clear]
  exact congrArg _ ((Left.start found).look_eq rfl (·.find p name))

/-- The removal of a file is answered as the tree has it. -/
theorem reply_deleteFile : s.reply link timeout (.deleteFile fs p name f.epoch) =
    .ok ((f.tree.removeFile p name).map fun _ => ()) := by
  rw [reply_of_clear clear]
  exact congrArg _ ((Left.start found).remove_eq rfl (·.removeFile p name) name)

/-- So is the removal of a directory. -/
theorem reply_deleteDir : s.reply link timeout (.deleteDir fs p name f.epoch) =
    .ok ((f.tree.removeDir p name).map fun _ => ()) := by
  rw [reply_of_clear clear]
  exact congrArg _ ((Left.start found).remove_eq rfl (·.removeDir p name) name)

end

/-- Where nothing is in the way all requests about a directory agree on what is listed. -/
theorem holds_listing (reachable : f.tree.Reachable) (isDir : f.tree.IsDir p)
    (found : s.filesystem? fs = some f) (clear : s.Clear link timeout) :
    s.Holds link timeout fs f p (f.tree.listing p) := by
  have sound := reachable.sound
  have hleft := Left.start found
  have hstands := sound.stands isDir
  have hfind := reply_getEntry (p := p) found clear
  have hfile := reply_deleteFile (p := p) found clear
  have hdir := reply_deleteDir (p := p) found clear
  have hknown : ∀ e ∈ f.tree.listing p, ∃ a, f.tree.attr? e.inode = some a ∧ a.kind = e.kind ∧
      p ∈ a.parents := by
    intro e he
    obtain ⟨rfl, hat, a, ha, hkind⟩ := sound.mem_listing.mp he
    exact ⟨a, ha, hkind, (sound.intact reachable.homed).mem_parents hat ha⟩
  exact {
    listed := by
      obtain ⟨a, ha, hkind⟩ := isDir
      rw [reply_of_clear clear, hleft.listEntries_eq rfl (clear.lists p), Tree.list_eq_ok ha hkind]
    sorted := (f.tree.sorted_listing p).imp Text.bytes_lt_bytes
    parent := fun e he => (sound.mem_listing.mp he).1
    found := by
      intro name e
      rw [hfind, Except.ok.injEq, (hstands name).find_eq_ok]
    missing := by
      intro name
      simp only [Refuses, hfind, Except.ok.injEq]
      exact (hstands name).find_notFound
    refers := by
      intro e he
      obtain ⟨a, ha, -⟩ := hknown e he
      exact Tree.contains_of_attr? ha
    attr := by
      intro e he hint
      obtain ⟨a, ha, hkind, hparents⟩ := hknown e he
      refine ⟨a, ?_, hkind, hparents⟩
      rw [reply_of_clear clear, hleft.getAttr_eq_ok rfl (clear.attrs e.inode) ha]
    dirKept := by
      intro name
      simp only [Refuses, hfile, Except.ok.injEq, map_eq_error]
      exact (hstands name).removeFile_isDirectory
    fileTaken := by
      intro name
      rw [hfile, Except.ok.injEq, map_eq_ok]
      exact (hstands name).removeFile_granted
    fileKept := by
      intro name
      simp only [Refuses, hdir, Except.ok.injEq, map_eq_error]
      exact (hstands name).removeDir_notDirectory
    dirTaken := by
      intro name
      simp only [Refuses, hdir, Except.ok.injEq, map_eq_error, map_eq_ok]
      exact (hstands name).removeDir_tried }

/-- A directory of a namespace that was built by operations has entries on which all replies about
it agree, over every link that nothing is in the way of and from every service that holds the
namespace, whatever else that service holds and was asked before. -/
theorem replies_agree (reachable : f.tree.Reachable) (isDir : f.tree.IsDir p) :
    ∃ entries, ∀ (s : Service) link timeout fs, s.filesystem? fs = some f →
      s.Clear link timeout → s.Holds link timeout fs f p entries :=
  ⟨f.tree.listing p, fun _ _ _ _ found clear => holds_listing reachable isDir found clear⟩

end Service

/-! A directory and a file of two names, of which one has a slash. -/

def Filesystem.shadowed : Filesystem :=
  ⟨"fs1", .first, Tree.rootOnly.after Tree.shadowing⟩

def Service.shadowed : Service :=
  (Service.new 1 "fs1").putFilesystem 1 .shadowed

def Link.shadowed : Link :=
  ⟨Table.server, false⟩

/-- All replies agree on the name with the slash as well. -/
theorem Service.replies_agree_shadowed :
    ∃ entries, Service.shadowed.Holds .shadowed ⟨0⟩ 1 .shadowed rootInode entries := by
  have hreachable : Filesystem.shadowed.tree.Reachable :=
    Tree.Reachable.root.steps (Tree.steps_after Tree.shadowing _)
  have hclear : Service.shadowed.Clear .shadowed ⟨0⟩ :=
    ⟨rfl, rfl, rfl, Nat.le_refl _, fun _ => rfl, fun _ => rfl⟩
  have hdir : Filesystem.shadowed.tree.IsDir rootInode := ⟨_, rfl, rfl⟩
  obtain ⟨entries, hholds⟩ := replies_agree hreachable hdir
  exact ⟨entries, hholds .shadowed .shadowed ⟨0⟩ 1 rfl hclear⟩

end ShardSweep
