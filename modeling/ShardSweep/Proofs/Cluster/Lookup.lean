import ShardSweep.Proofs.Cluster.Named
import ShardSweep.Proofs.Cluster.Subtree

/-!
# Where paths lead

A name behind a path is looked for in the directory that the path leads to.  So an entry that is
listed there is found at the path with its name behind, as long as the name can be read from a
path again.  Nodes are created under no other names, but a file can be linked under any text: no
path leads to such an entry, and the one with its name behind may lead to something else.

* `Tree.lookupNames_concat`: the last name is looked for where the others lead;
* `Tree.names_slash`: a name that is written behind a path is read last;
* `Tree.entry_at_path`: an entry is at its path, or it was linked under a name that is not read
  from any path.
-/

namespace ShardSweep

namespace Tree

variable {t : Tree} {i j p : Inode} {name : String}

/-- The inode is a directory of the tree. -/
def IsDir (t : Tree) (i : Inode) : Prop :=
  ∃ a, t.attr? i = some a ∧ a.kind = .dir

/-- Names are followed on from where those before them lead. -/
theorem lookupNames_append {dir : Inode} {names rest : List String} :
    t.lookupNames dir (names ++ rest) = (t.lookupNames dir names).bind (t.lookupNames · rest) := by
  induction names generalizing dir with
  | nil => rfl
  | cons n names ih =>
    simp only [List.cons_append, lookupNames]
    cases t.child dir n with
    | error status => rfl
    | ok j => exact ih

/-- The last name is looked for in the directory that the others lead to. -/
theorem lookupNames_concat {dir : Inode} {names : List String} :
    t.lookupNames dir (names ++ [name]) = some i ↔
      ∃ p, t.lookupNames dir names = some p ∧ t.child p name = .ok i := by
  induction names generalizing dir with
  | nil =>
    simp only [List.nil_append, lookupNames, Option.some.injEq, exists_eq_left']
    cases t.child dir name <;> simp
  | cons n names ih =>
    simp only [List.cons_append, lookupNames]
    cases t.child dir n with
    | error status => simp
    | ok j => exact ih

/-- What holds an entry is a directory. -/
theorem isDir_of_child (h : t.child p name = .ok i) : t.IsDir p := by
  obtain ⟨node, hdir, -⟩ := child_eq_ok.mp h
  exact attr?_of_dir hdir

/-- Where a directory has no entry of a name, it is said that it was not found. -/
theorem child_eq_error {status : Status} (isDir : t.IsDir p)
    (h : t.child p name = .error status) : status = ⟨.notFound, entryText p name⟩ := by
  obtain ⟨a, ha, hdir⟩ := isDir
  obtain ⟨node, hnode, rfl⟩ := attr?_eq_some.mp ha
  have hok : t.dir p = .ok node := dir_eq_ok.mpr ⟨hnode, hdir⟩
  simp only [child, hok] at h
  split at h
  · exact (Except.error.inj h).symm
  · cases h

/-- Names lead no further from a file. -/
theorem not_isDir_of_lookupNames {names : List String} (file : ¬ t.IsDir i)
    (h : t.lookupNames i names = some j) : ¬ t.IsDir j := by
  cases names with
  | nil =>
    obtain rfl := Option.some.inj h
    exact file
  | cons name names =>
    rw [lookupNames] at h
    cases hchild : t.child i name with
    | error status => simp [hchild] at h
    | ok k => exact absurd (isDir_of_child hchild) file

/-- An entry is found as it is listed. -/
theorem Sound.find_eq (sound : t.Sound) (h : t.At p name i) {a : Attr} (ha : t.attr? i = some a) :
    t.find p name = .ok ⟨name, i, p, a.kind⟩ := by
  obtain ⟨node, hnode, rfl⟩ := attr?_eq_some.mp ha
  simp [find, sound.child_eq h, entry, hnode]

/-- A listed entry of some name is the entry of that name. -/
theorem Sound.at_of_find? (sound : t.Sound) {e : Entry}
    (h : (t.listing p).find? (·.name == name) = some e) :
    t.At p name e.inode ∧ ∃ a, t.attr? e.inode = some a ∧ a.kind = e.kind := by
  obtain ⟨hparent, hhas⟩ := sound.mem_listing.mp (List.mem_of_find?_eq_some h)
  have hname : e.name = name := by simpa using List.find?_some h
  rw [← hparent, ← hname]
  exact hhas

/-- A name that is not listed stands for nothing. -/
theorem Sound.not_at_of_find? (sound : t.Sound)
    (h : (t.listing p).find? (·.name == name) = none) : ¬ t.At p name i := by
  intro hat
  obtain ⟨a, ha, -⟩ := sound.child _ _ _ hat
  have hmem : ⟨name, i, p, a.kind⟩ ∈ t.listing p := sound.mem_listing.mpr ⟨rfl, hat, a, ha, rfl⟩
  simpa using List.find?_eq_none.mp h _ hmem

/-- A name that is written behind a path is read last. -/
theorem names_slash (path : String) (good : isName name = true) :
    names (path ++ "/" ++ name) = names path ++ [name] := by
  obtain ⟨hname, hwhole⟩ := isName_iff.mp good
  have hchars : (path ++ "/" ++ name).toList = path.toList ++ '/' :: name.toList := by simp
  rw [names, Text.split, hchars, Text.pieces_append_separator, Text.pieces_eq_singleton hwhole]
  simp [names, Text.split, hname]

/-- What is read from a path is neither empty nor has it a slash. -/
theorem isName_of_mem_names {path : String} (h : name ∈ names path) : isName name = true := by
  obtain ⟨hpiece, hname⟩ := List.mem_filter.mp h
  obtain ⟨piece, hmem, rfl⟩ := List.mem_map.mp hpiece
  refine isName_iff.mpr ⟨by simpa using hname, ?_⟩
  rw [String.toList_ofList]
  exact Text.not_mem_of_mem_pieces hmem

/-- A name behind a path leads to the entry of that name. -/
theorem Sound.lookup_slash (sound : t.Sound) {path : String} (here : t.lookup path = some p)
    (hat : t.At p name i) (good : isName name = true) :
    t.lookup (path ++ "/" ++ name) = some i := by
  rw [lookup, names_slash path good]
  exact lookupNames_concat.mpr ⟨p, here, sound.child_eq hat⟩

/-- Whatever was done to a namespace, an entry that is listed in the directory at a path has a name
without a slash and is at the path with that name behind.  The only others are those that a file got
by a link under a text that is not read from any path. -/
theorem entry_at_path {edits : List Edit} {path : String} {dir : Inode}
    (here : (rootOnly.after edits).lookup path = some dir)
    (isDir : (rootOnly.after edits).IsDir dir) :
    ∃ entries, (rootOnly.after edits).list dir = .ok entries ∧ ∀ e ∈ entries,
      (e.name ≠ "" ∧ '/' ∉ e.name.toList ∧
        (rootOnly.after edits).lookup (path ++ "/" ++ e.name) = some e.inode) ∨
      (.link dir e.name e.inode ∈ edits ∧ ∀ path', e.name ∉ names path') := by
  have sound : (rootOnly.after edits).Sound := (Reachable.root.steps (steps_after edits _)).sound
  obtain ⟨a, ha, hdir⟩ := isDir
  refine ⟨_, list_eq_ok ha hdir, ?_⟩
  intro e he
  obtain ⟨rfl, hat, -⟩ := sound.mem_listing.mp he
  cases hgood : isName e.name with
  | true =>
    obtain ⟨hname, hwhole⟩ := isName_iff.mp hgood
    exact .inl ⟨hname, hwhole, sound.lookup_slash here hat hgood⟩
  | false =>
    have hlinked := (at_after hat).resolve_left (by simp [hgood])
    refine .inr ⟨hlinked, ?_⟩
    intro path' hmem
    rw [isName_of_mem_names hmem] at hgood
    cases hgood

/-! A file in a directory, and another that is linked under what is the path of the first. -/

/-- Changes after which two files claim a path. -/
def shadowing : List Edit :=
  [.mkdir rootInode "a", .create 2 "b" 7, .create rootInode "f" 0, .link rootInode "a/b" 4]

theorem entry_at_path_shadowing :
    ∃ entries, (rootOnly.after shadowing).list 2 = .ok entries ∧ ∀ e ∈ entries,
      (e.name ≠ "" ∧ '/' ∉ e.name.toList ∧
        (rootOnly.after shadowing).lookup ("/a" ++ "/" ++ e.name) = some e.inode) ∨
      (.link 2 e.name e.inode ∈ shadowing ∧ ∀ path', e.name ∉ names path') := by
  have hnames : names "/a" = ["a"] := by cbv
  have hlookup : (rootOnly.after shadowing).lookup "/a" = some 2 := by
    rw [lookup, hnames]
    rfl
  exact entry_at_path hlookup ⟨_, rfl, rfl⟩

/-- A link takes any text for a name.  This one has a slash, and at the path with it behind is the
file that was there before. -/
theorem link_hidden_by_path :
    (rootOnly.after shadowing).lookup "" = some rootInode ∧
    (rootOnly.after shadowing).list rootInode =
      .ok [⟨"a", 2, rootInode, .dir⟩, ⟨"a/b", 4, rootInode, .file⟩, ⟨"f", 4, rootInode, .file⟩] ∧
    (rootOnly.after shadowing).lookup ("" ++ "/" ++ "a/b") = some 3 := by
  have hnames : names ("" ++ "/" ++ "a/b") = ["a", "b"] := by cbv
  refine ⟨rfl, rfl, ?_⟩
  rw [lookup, hnames]
  rfl

end Tree

end ShardSweep
