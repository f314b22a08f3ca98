import ShardSweep.Cluster.Tree

/-!
# What an edit does to a tree

A tree is looked at through two things: which names stand for which inode, and the attributes
of each inode.  Here every operation is described by what becomes of these two.

* `Tree.At`, `Tree.attr?`: the names and the attributes of a tree;
* `Tree.Sound`: what holds of every tree that was built by operations;
* `Tree.insert_eq_ok`, `Tree.link_eq_ok`: an entry more;
* `Tree.removeFile_eq_ok`, `Tree.removeDir_eq_ok`: an entry less.
-/

namespace ShardSweep

/-- What is left of the attributes of a file that loses a name. -/
def Attr.without (a : Attr) (p : Inode) : Attr :=
  { a with nlink := a.nlink - 1, parents := a.parents.erase p }

namespace Tree

/-- The name stands for the inode. -/
def At (t : Tree) (p : Inode) (name : String) (i : Inode) : Prop :=
  ∃ node, t.node? p = some node ∧ node.children[name]? = some i

/-- The attributes of an inode that is in use. -/
def attr? (t : Tree) (i : Inode) : Option Attr :=
  (t.node? i).map (·.attr)

/-- All names of an inode, each with its directory. -/
structure Names (t : Tree) (i : Inode) (names : List (Inode × String)) : Prop where
  nodup : names.Nodup
  mem_iff : ∀ p name, (p, name) ∈ names ↔ t.At p name i

/-- The root is a directory and has no name.  Every name is in a directory and stands for
something; a directory has one name and comes after the directory that holds it, and a file
counts its names. -/
structure Sound (t : Tree) : Prop where
  root : ∃ a, t.attr? rootInode = some a ∧ a.kind = .dir
  inode : ∀ i a, t.attr? i = some a → a.inode = i ∧ rootInode ≤ i ∧ i < t.nextInode
  parent : ∀ p name i, t.At p name i → ∃ a, t.attr? p = some a ∧ a.kind = .dir
  child : ∀ p name i, t.At p name i →
    ∃ a, t.attr? i = some a ∧ (a.kind = .dir → p < i ∧ isName name = true)
  single : ∀ i a, t.attr? i = some a → a.kind = .dir →
    ∀ p name p' name', t.At p name i → t.At p' name' i → p = p' ∧ name = name'
  named : ∀ i a, t.attr? i = some a → a.kind = .file → ∃ names, t.Names i names ∧ names ≠ [] ∧
    a.parents.Perm (names.map Prod.fst) ∧ a.nlink = names.length

variable {t t' : Tree} {p q i j : Inode} {name m : String}

/-- A name stands for one thing. -/
theorem At.unique (h : t.At p name i) (h' : t.At p name j) : i = j := by
  obtain ⟨node, hnode, hi⟩ := h
  obtain ⟨node', hnode', hj⟩ := h'
  obtain rfl := Option.some.inj (hnode.symm.trans hnode')
  exact Option.some.inj (hi.symm.trans hj)

/-- Attributes are those of a node. -/
theorem attr?_eq_some {a : Attr} :
    t.attr? i = some a ↔ ∃ node, t.node? i = some node ∧ node.attr = a := by
  simp [attr?]

/-- A directory is a node of that kind. -/
theorem dir_eq_ok {node : Node} :
    t.dir i = .ok node ↔ t.node? i = some node ∧ node.attr.kind = .dir := by
  unfold dir
  cases h : t.node? i with
  | none => simp
  | some node' =>
    cases hk : node'.attr.kind
    · simp only [hk, Kind.isDir, Bool.false_eq_true, if_false, reduceCtorEq, false_iff, not_and]
      intro heq
      obtain rfl := Option.some.inj heq
      simp [hk]
    · simp only [hk, Kind.isDir, if_true, Except.ok.injEq, Option.some.injEq]
      refine ⟨?_, fun h => h.1⟩
      intro heq
      subst heq
      exact ⟨rfl, hk⟩

/-- A child is an entry of a directory. -/
theorem child_eq_ok :
    t.child p name = .ok i ↔ ∃ node, t.dir p = .ok node ∧ node.children[name]? = some i := by
  unfold child
  cases h : t.dir p with
  | error status => simp
  | ok node => cases hc : node.children[name]? <;> simp [hc]

/-- What is found as a child has that name. -/
theorem at_of_child (h : t.child p name = .ok i) : t.At p name i := by
  obtain ⟨node, hnode, hi⟩ := child_eq_ok.mp h
  exact ⟨node, (dir_eq_ok.mp hnode).1, hi⟩

theorem attr?_of_dir {node : Node} (h : t.dir p = .ok node) :
    ∃ a, t.attr? p = some a ∧ a.kind = .dir := by
  have hnode := dir_eq_ok.mp h
  exact ⟨node.attr, attr?_eq_some.mpr ⟨node, hnode.1, rfl⟩, hnode.2⟩

/-- A name is free in a directory that has no such entry. -/
theorem checkFree_eq_ok (h : t.checkFree p name = .ok ()) :
    ∃ node, t.dir p = .ok node ∧ node.children[name]? = none := by
  unfold checkFree at h
  cases hdir : t.dir p with
  | error status => simp [hdir] at h
  | ok node => exact ⟨node, rfl, by simpa [hdir] using h⟩

/-- A free name stands for nothing. -/
private theorem not_at_of_free {node : Node} (h : t.node? p = some node)
    (free : node.children[name]? = none) : ¬ t.At p name j := by
  intro h
  obtain ⟨node', hnode', hj⟩ := h
  obtain rfl := Option.some.inj (h.symm.trans hnode')
  rw [free] at hj
  cases hj

/-- A change of the entries leaves the attributes alone. -/
private theorem attr?_modifyNode (f : Node → Node) (keeps : ∀ node, (f node).attr = node.attr) :
    (t.modifyNode i f).attr? j = t.attr? j := by
  unfold attr?
  rw [node?_modifyNode]
  by_cases hj : j = i
  · subst hj
    cases h : t.node? j <;> simp [keeps]
  · rw [if_neg hj]

/-- A change of the attributes leaves the names alone. -/
private theorem at_modifyNode (f : Node → Node)
    (keeps : ∀ node, (f node).children = node.children) :
    (t.modifyNode i f).At q m j ↔ t.At q m j := by
  unfold At
  rw [node?_modifyNode]
  by_cases hq : q = i
  · subst hq
    cases h : t.node? q <;> simp [keeps]
  · rw [if_neg hq]

private theorem nextInode_modifyNode (t : Tree) (i : Inode) (f : Node → Node) :
    (t.modifyNode i f).nextInode = t.nextInode := by
  unfold modifyNode
  split <;> rfl

private theorem nextInode_freeIfNameless (t : Tree) (i : Inode) :
    (t.freeIfNameless i).nextInode = t.nextInode := by
  unfold freeIfNameless
  split
  · rfl
  · split <;> rfl

/-- A node that gets an entry under a free name. -/
private theorem at_putChild {node : Node} (h : t.node? p = some node)
    (free : node.children[name]? = none) :
    (t.modifyNode p (putChild name i)).At q m j ↔ t.At q m j ∨ (q = p ∧ m = name ∧ j = i) := by
  unfold At
  rw [node?_modifyNode]
  by_cases hq : q = p
  · subst hq
    by_cases hm : m = name
    · subst hm
      simp [h, free, putChild, @eq_comm _ i]
    · simp [h, putChild, Std.TreeMap.getElem?_insert, hm, Ne.symm hm]
  · simp [hq]

/-- A node that loses an entry. -/
private theorem at_dropChild {node : Node} (h : t.node? p = some node) :
    (t.modifyNode p (dropChild name)).At q m j ↔ t.At q m j ∧ ¬ (q = p ∧ m = name) := by
  unfold At
  rw [node?_modifyNode]
  by_cases hq : q = p
  · subst hq
    by_cases hm : m = name
    · subst hm
      simp [h, dropChild]
    · simp [h, dropChild, Std.TreeMap.getElem?_erase, hm, Ne.symm hm]
  · simp [hq]

/-- One name more. -/
structure Gains (t : Tree) (p : Inode) (name : String) (i : Inode) (t' : Tree) : Prop where
  dir : ∃ a, t.attr? p = some a ∧ a.kind = .dir
  free : ∀ j, ¬ t.At p name j
  names : ∀ q m j, t'.At q m j ↔ t.At q m j ∨ (q = p ∧ m = name ∧ j = i)
  others : ∀ j, j ≠ i → t'.attr? j = t.attr? j

/-- One name less. -/
structure Loses (t : Tree) (p : Inode) (name : String) (i : Inode) (t' : Tree) : Prop where
  dir : ∃ a, t.attr? p = some a ∧ a.kind = .dir
  had : t.At p name i
  names : ∀ q m j, t'.At q m j ↔ t.At q m j ∧ ¬ (q = p ∧ m = name)
  others : ∀ j, j ≠ i → t'.attr? j = t.attr? j
  next : t'.nextInode = t.nextInode

/-- A new node gets the next number, and one name. -/
theorem insert_eq_ok {kind : Kind} {length : UInt64} (fresh : t.node? t.nextInode = none)
    (h : t.insert p name kind length = .ok (i, t')) :
    t.Gains p name i t' ∧ isName name = true ∧ i = t.nextInode ∧ t'.nextInode = i + 1 ∧
      t'.attr? i = some (newNode i p kind length).attr := by
  unfold insert at h
  split at h
  case isFalse => cases h
  case isTrue hname =>
    cases hcheck : t.checkFree p name with
    | error status => simp [hcheck] at h
    | ok u =>
      obtain ⟨node, hdir, hfree⟩ := checkFree_eq_ok hcheck
      have hnode := (dir_eq_ok.mp hdir).1
      simp only [hcheck, Except.ok.injEq, Prod.mk.injEq] at h
      obtain ⟨rfl, rfl⟩ := h
      let grown : Tree :=
        ⟨t.nodes.insert t.nextInode (newNode t.nextInode p kind length), t.nextInode + 1⟩
      have hgrown : ∀ j, grown.node? j =
          if j = t.nextInode then some (newNode t.nextInode p kind length) else t.node? j := by
        intro j
        simp [grown, node?, Std.TreeMap.getElem?_insert, @eq_comm _ j]
      have hp : grown.node? p = some node := by
        rw [hgrown, if_neg, hnode]
        intro heq
        subst heq
        rw [fresh] at hnode
        cases hnode
      have hat : ∀ q m j, grown.At q m j ↔ t.At q m j := by
        intro q m j
        unfold At
        rw [hgrown]
        by_cases hq : q = t.nextInode
        · simp [hq, fresh, newNode]
        · rw [if_neg hq]
      refine ⟨⟨attr?_of_dir hdir, fun j => not_at_of_free hnode hfree, ?_, ?_⟩, hname, rfl,
        nextInode_modifyNode _ _ _, ?_⟩
      · intro q m j
        rw [← hat]
        exact at_putChild hp hfree
      · intro j hj
        refine (attr?_modifyNode (putChild name _) fun node => rfl).trans ?_
        rw [attr?, hgrown, if_neg hj, attr?]
      · refine (attr?_modifyNode (putChild name _) fun node => rfl).trans ?_
        rw [attr?, hgrown, if_pos rfl, Option.map_some]

/-- A file gets one name more, and counts it. -/
theorem link_eq_ok (h : t.link p name i = .ok t') :
    t.Gains p name i t' ∧ t'.nextInode = t.nextInode ∧ ∃ a, t.attr? i = some a ∧ a.kind = .file ∧
      t'.attr? i = some { a with nlink := a.nlink + 1, parents := a.parents ++ [p] } := by
  unfold link at h
  cases hi : t.node? i with
  | none => simp [hi] at h
  | some target =>
    cases hkind : target.attr.kind with
    | dir => simp [hi, hkind, Kind.isDir] at h
    | file =>
      cases hcheck : t.checkFree p name with
      | error status => simp [hi, hkind, Kind.isDir, hcheck] at h
      | ok u =>
        obtain ⟨node, hdir, hfree⟩ := checkFree_eq_ok hcheck
        have hnode := (dir_eq_ok.mp hdir).1
        simp only [hi, hkind, Kind.isDir, hcheck, Bool.false_eq_true, if_false, Except.ok.injEq] at h
        subst h
        have hne : i ≠ p := by
          intro heq
          subst heq
          obtain rfl := Option.some.inj (hi.symm.trans hnode)
          rw [(dir_eq_ok.mp hdir).2] at hkind
          cases hkind
        have hattr : ∀ j, ((t.modifyNode p (putChild name i)).modifyNode i (addName p)).attr? j =
            if j = i then (t.attr? i).map fun a =>
              { a with nlink := a.nlink + 1, parents := a.parents ++ [p] } else t.attr? j := by
          intro j
          by_cases hj : j = i
          · subst hj
            simp [attr?, node?_modifyNode, hne, hi, addName]
          · rw [if_neg hj, attr?, node?_modifyNode, if_neg hj]
            exact attr?_modifyNode (putChild name i) fun node => rfl
        refine ⟨⟨attr?_of_dir hdir, fun j => not_at_of_free hnode hfree, ?_, ?_⟩, ?_, target.attr,
          attr?_eq_some.mpr ⟨target, hi, rfl⟩, hkind, ?_⟩
        · intro q m j
          rw [at_modifyNode (addName p) fun node => rfl]
          exact at_putChild hnode hfree
        · intro j hj
          rw [hattr, if_neg hj]
        · rw [nextInode_modifyNode, nextInode_modifyNode]
        · rw [hattr, if_pos rfl, attr?_eq_some.mpr ⟨target, hi, rfl⟩, Option.map_some]

/-- The next inode is not in use. -/
theorem Sound.fresh (sound : t.Sound) : t.node? t.nextInode = none := by
  cases h : t.node? t.nextInode with
  | none => rfl
  | some node =>
    have hlt := (sound.inode t.nextInode node.attr (attr?_eq_some.mpr ⟨node, h, rfl⟩)).2.2
    exact absurd hlt (Nat.lt_irrefl _)

/-- Files hold no names. -/
theorem Sound.leaf (sound : t.Sound) {a : Attr} (ha : t.attr? i = some a) (hfile : a.kind = .file) :
    ¬ t.At i m j := by
  intro hbelow
  obtain ⟨b, hb, hdir⟩ := sound.parent i m j hbelow
  obtain rfl := Option.some.inj (ha.symm.trans hb)
  rw [hfile] at hdir
  cases hdir

/-- A file loses one name, and is freed with the last one. -/
theorem removeFile_eq_ok (sound : t.Sound) (h : t.removeFile p name = .ok t') :
    ∃ i a, t.Loses p name i t' ∧ t.attr? i = some a ∧ a.kind = .file ∧
      t'.attr? i = if a.nlink - 1 = 0 then none else some (a.without p) := by
  unfold removeFile find at h
  cases hchild : t.child p name with
  | error status => simp [hchild] at h
  | ok i =>
    obtain ⟨node, hdir, hi⟩ := child_eq_ok.mp hchild
    have hnode := dir_eq_ok.mp hdir
    have hat := at_of_child hchild
    obtain ⟨a, ha, -⟩ := sound.child p name i hat
    obtain ⟨file, hfile, rfl⟩ := attr?_eq_some.mp ha
    cases hkind : file.attr.kind with
    | dir => simp [hchild, entry, hfile, hkind, Kind.isDir] at h
    | file =>
      simp only [hchild, entry, hfile, hkind, Kind.isDir, Bool.false_eq_true, if_false,
        Except.ok.injEq] at h
      subst h
      have hne : i ≠ p := by
        intro heq
        subst heq
        exact sound.leaf ha hkind hat
      have hnodes : ∀ j, (((t.modifyNode p (dropChild name)).modifyNode i
          (dropName p)).freeIfNameless i).node? j =
          if j = i then (some (dropName p file)).filter (·.attr.nlink ≠ 0)
          else (t.modifyNode p (dropChild name)).node? j := by
        intro j
        rw [node?_freeIfNameless]
        by_cases hj : j = i
        · rw [if_pos hj, if_pos hj, node?_modifyNode, if_pos rfl, node?_modifyNode, if_neg hne, hfile,
            Option.map_some]
        · rw [if_neg hj, if_neg hj, node?_modifyNode, if_neg hj]
      have hempty : ∀ (m : String) (j : Inode), file.children[m]? ≠ some j := by
        intro m j hj
        exact sound.leaf ha hkind ⟨file, hfile, hj⟩
      refine ⟨i, file.attr, ⟨attr?_of_dir hdir, hat, ?_, ?_, ?_⟩, ha, hkind, ?_⟩
      · intro q m j
        rw [← at_dropChild hnode.1]
        unfold At
        rw [hnodes]
        by_cases hq : q = i
        · subst hq
          simp [node?_modifyNode, hne, hfile, hempty, Option.filter_eq_some_iff, dropName]
        · rw [if_neg hq]
      · intro j hj
        rw [attr?, hnodes, if_neg hj]
        exact attr?_modifyNode (dropChild name) fun node => rfl
      · rw [nextInode_freeIfNameless, nextInode_modifyNode, nextInode_modifyNode]
      · rw [attr?, hnodes, if_pos rfl]
        by_cases hlast : file.attr.nlink - 1 = 0
        · simp [hlast, dropName, Option.filter]
        · simp [hlast, dropName, Option.filter, Attr.without]

/-- An empty directory loses its name and is freed. -/
theorem removeDir_eq_ok (sound : t.Sound) (h : t.removeDir p name = .ok t') :
    ∃ i a, t.Loses p name i t' ∧ t.attr? i = some a ∧ a.kind = .dir ∧ (∀ m j, ¬ t.At i m j) ∧
      t'.attr? i = none := by
  unfold removeDir at h
  cases hchild : t.child p name with
  | error status => simp [hchild] at h
  | ok i =>
    cases hdir : t.dir i with
    | error status => simp [hchild, hdir] at h
    | ok node =>
      simp only [hchild, hdir] at h
      split at h
      case isFalse => cases h
      case isTrue hempty =>
        obtain rfl := Except.ok.inj h
        obtain ⟨parent, hparent, hi⟩ := child_eq_ok.mp hchild
        have hat := at_of_child hchild
        have hnode := dir_eq_ok.mp hdir
        have ha : t.attr? i = some node.attr := attr?_eq_some.mpr ⟨node, hnode.1, rfl⟩
        have hne : p ≠ i := by
          obtain ⟨b, hb, hdown⟩ := sound.child p name i hat
          obtain rfl := Option.some.inj (ha.symm.trans hb)
          exact Nat.ne_of_lt (hdown hnode.2).1
        have hleaf : ∀ m j, ¬ t.At i m j := by
          intro m j h
          obtain ⟨node', hnode', hj⟩ := h
          obtain rfl := Option.some.inj (hnode.1.symm.trans hnode')
          have hmem := Std.TreeMap.isEmpty_iff_forall_not_mem.mp hempty m
          rw [Std.TreeMap.mem_iff_isSome_getElem?, hj] at hmem
          exact hmem rfl
        have hless : ∀ j, node? { t with nodes := t.nodes.erase i } j =
            if j = i then none else t.node? j := by
          intro j
          by_cases hj : j = i
          · simp [node?, hj]
          · simp [node?, Std.TreeMap.getElem?_erase, hj, Ne.symm hj]
        have hp : node? { t with nodes := t.nodes.erase i } p = some parent := by
          rw [hless, if_neg hne]
          exact (dir_eq_ok.mp hparent).1
        have hattr : ∀ j, (modifyNode { t with nodes := t.nodes.erase i } p
            (dropChild name)).attr? j = if j = i then none else t.attr? j := by
          intro j
          refine (attr?_modifyNode (dropChild name) fun node => rfl).trans ?_
          rw [attr?, hless]
          by_cases hj : j = i
          · rw [if_pos hj, if_pos hj, Option.map_none]
          · rw [if_neg hj, if_neg hj, attr?]
        refine ⟨i, node.attr, ⟨attr?_of_dir hparent, hat, ?_, ?_, ?_⟩, ha, hnode.2, hleaf, ?_⟩
        · intro q m j
          refine (at_dropChild hp).trans (and_congr_left' ?_)
          unfold At
          rw [hless]
          by_cases hq : q = i
          · subst hq
            simpa [At] using hleaf m j
          · rw [if_neg hq]
        · intro j hj
          rw [hattr, if_neg hj]
        · rw [nextInode_modifyNode]
        · rw [hattr, if_pos rfl]

/-- A name that stands for something is found as a child. -/
theorem Sound.child_eq (sound : t.Sound) (h : t.At p name i) : t.child p name = .ok i := by
  obtain ⟨node, hnode, hi⟩ := h
  obtain ⟨a, ha, hdir⟩ := sound.parent p name i ⟨node, hnode, hi⟩
  obtain ⟨node', hnode', rfl⟩ := attr?_eq_some.mp ha
  obtain rfl := Option.some.inj (hnode.symm.trans hnode')
  exact child_eq_ok.mpr ⟨node, dir_eq_ok.mpr ⟨hnode, hdir⟩, hi⟩

/-- A name of a file can be removed. -/
theorem Sound.removeFile (sound : t.Sound) (h : t.At p name i) {a : Attr} (ha : t.attr? i = some a)
    (file : a.kind = .file) : ∃ t', t.removeFile p name = .ok t' := by
  obtain ⟨node, hnode, rfl⟩ := attr?_eq_some.mp ha
  unfold Tree.removeFile find
  rw [sound.child_eq h]
  simp [entry, hnode, file, Kind.isDir]

/-- A directory without entries can be removed. -/
theorem Sound.removeDir (sound : t.Sound) (h : t.At p name i) {a : Attr} (ha : t.attr? i = some a)
    (isDir : a.kind = .dir) (empty : ∀ m j, ¬ t.At i m j) : ∃ t', t.removeDir p name = .ok t' := by
  obtain ⟨node, hnode, rfl⟩ := attr?_eq_some.mp ha
  have hempty : node.children.isEmpty = true := by
    apply Std.TreeMap.isEmpty_iff_forall_not_mem.mpr
    intro m hm
    rw [Std.TreeMap.mem_iff_isSome_getElem?] at hm
    obtain ⟨j, hj⟩ := Option.isSome_iff_exists.mp hm
    exact empty m j ⟨node, hnode, hj⟩
  unfold Tree.removeDir
  rw [sound.child_eq h]
  simp only [dir_eq_ok.mpr ⟨hnode, isDir⟩]
  rw [if_pos hempty]
  exact ⟨_, rfl⟩

end Tree

end ShardSweep
