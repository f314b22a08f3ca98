import ShardSweep.Proofs.Cluster.Sound
import ShardSweep.Proofs.Walk.Forest

/-!
# The subtrees of a sound tree

The listings of a sound tree are a forest, because a directory comes after the directory that
holds it, and what is below a directory is a tree, because a directory has one name.

* `Tree.Has`: an entry of a tree;
* `Tree.Sound.forest`: the listings of a sound tree;
* `Tree.Sound.mem_below`: what is found below a directory;
* `Tree.Sound.isTree`: no entry is listed twice below a directory;
* `Tree.list_congr`: a listing depends on the names in the directory and their kinds only.
-/

namespace ShardSweep

/-- The entry that names a directory. -/
def Dir.entry (d : Dir) : Entry :=
  ⟨d.name, d.inode, d.parent, .dir⟩

/-- A directory has the entry it was found by. -/
theorem Dir.entry_ofEntry {e : Entry} (h : e.kind = .dir) : (Dir.ofEntry e).entry = e := by
  cases e
  subst h
  rfl

theorem Kind.isDir_iff {k : Kind} : k.isDir = true ↔ k = .dir := by
  cases k <;> simp [isDir]

namespace Tree

/-- The entry is in the tree. -/
def Has (t : Tree) (e : Entry) : Prop :=
  t.At e.parent e.name e.inode ∧ ∃ a, t.attr? e.inode = some a ∧ a.kind = e.kind

/-- The entry is somewhere below a directory. -/
inductive Under (t : Tree) : Inode → Entry → Prop
  | here {i : Inode} {e : Entry} (has : t.Has e) (inside : e.parent = i) : Under t i e
  | deeper {i : Inode} {e e' : Entry} (has : t.Has e) (inside : e.parent = i) (isDir : e.kind = .dir)
      (under : Under t e.inode e') : Under t i e'

/-- The entries of a directory, none if there is no such directory. -/
def listing (t : Tree) (i : Inode) : List Entry :=
  match t.list i with
  | .ok es => es
  | .error _ => []

variable {t t' : Tree} {i : Inode} {e : Entry}

/-- A directory can be listed. -/
theorem list_eq_ok {a : Attr} (ha : t.attr? i = some a) (isDir : a.kind = .dir) :
    t.list i = .ok (t.listing i) := by
  obtain ⟨node, hnode, rfl⟩ := attr?_eq_some.mp ha
  unfold listing list
  rw [dir_eq_ok.mpr ⟨hnode, isDir⟩]

/-- A listing has the names of the directory, each with what it stands for. -/
private theorem mem_list {node : Node} (hdir : t.dir i = .ok node) :
    e ∈ t.listing i ↔
      node.children[e.name]? = some e.inode ∧ e = t.entry i e.name e.inode := by
  simp only [listing, list, hdir, List.mem_map, Prod.exists,
    Std.TreeMap.mem_toList_iff_getElem?_eq_some]
  refine ⟨?_, fun h => ⟨e.name, e.inode, h.1, h.2.symm⟩⟩
  intro h
  obtain ⟨name, j, hj, rfl⟩ := h
  exact ⟨hj, rfl⟩

/-- A listing has just the entries that are in the directory. -/
theorem Sound.mem_listing (sound : t.Sound) : e ∈ t.listing i ↔ e.parent = i ∧ t.Has e := by
  cases hdir : t.dir i with
  | error status =>
    simp only [listing, list, hdir, List.not_mem_nil, false_iff, not_and]
    intro rfl h
    obtain ⟨⟨node, hnode, hname⟩, -⟩ := h
    obtain ⟨a, ha, hkind⟩ := sound.parent e.parent e.name e.inode ⟨node, hnode, hname⟩
    obtain ⟨node', hnode', rfl⟩ := attr?_eq_some.mp ha
    rw [dir_eq_ok.mpr ⟨hnode', hkind⟩] at hdir
    cases hdir
  | ok node =>
    have hnode := (dir_eq_ok.mp hdir).1
    rw [mem_list hdir]
    have hentry : ∀ a, t.attr? e.inode = some a →
        t.entry i e.name e.inode = ⟨e.name, e.inode, i, a.kind⟩ := by
      intro a ha
      obtain ⟨child, hchild, rfl⟩ := attr?_eq_some.mp ha
      simp [entry, hchild]
    refine ⟨?_, ?_⟩
    · intro h
      obtain ⟨hname, heq⟩ := h
      have hat : t.At i e.name e.inode := ⟨node, hnode, hname⟩
      obtain ⟨a, ha, -⟩ := sound.child _ _ _ hat
      rw [hentry a ha] at heq
      rw [heq]
      exact ⟨rfl, hat, a, ha, rfl⟩
    · intro h
      obtain ⟨rfl, ⟨node', hnode', hname⟩, a, ha, hkind⟩ := h
      obtain rfl := Option.some.inj (hnode.symm.trans hnode')
      refine ⟨hname, ?_⟩
      rw [hentry a ha, hkind]

/-- A listing is in the order of the names. -/
theorem sorted_listing (t : Tree) (i : Inode) :
    (t.listing i).Pairwise fun e e' => e.name < e'.name := by
  unfold listing list
  cases t.dir i with
  | error status => exact .nil
  | ok node =>
    refine List.pairwise_map.mpr (node.children.ordered_keys_toList.imp ?_)
    intro a b hlt
    exact compareOfLessAndEq_eq_lt.mp hlt

/-- Nothing is listed twice. -/
theorem nodup_listing (t : Tree) (i : Inode) : (t.listing i).Nodup := by
  refine (t.sorted_listing i).imp ?_
  intro e e' hlt heq
  exact absurd (heq ▸ hlt) (String.lt_irrefl _)

/-- The names in a directory are the keys of its children. -/
private theorem at_iff {node : Node} (h : t.node? i = some node) {name : String} {j : Inode} :
    t.At i name j ↔ node.children[name]? = some j := by
  simp [At, h]

/-- Where the names of a directory and their kinds are the same, so is its listing. -/
theorem listing_congr {a a' : Attr} (ha : t.attr? i = some a) (ha' : t'.attr? i = some a')
    (isDir : a.kind = .dir) (isDir' : a'.kind = .dir)
    (names : ∀ name j, t'.At i name j ↔ t.At i name j)
    (kinds : ∀ name j, t.At i name j → (t'.attr? j).map Attr.kind = (t.attr? j).map Attr.kind) :
    t'.listing i = t.listing i := by
  obtain ⟨node, hnode, rfl⟩ := attr?_eq_some.mp ha
  obtain ⟨node', hnode', rfl⟩ := attr?_eq_some.mp ha'
  have hsame : ∀ name : String, node'.children[name]? = node.children[name]? := by
    intro name
    apply Option.ext
    intro j
    rw [← at_iff hnode', ← at_iff hnode, names]
  have htoList : node'.children.toList = node.children.toList :=
    (Std.TreeMap.Equiv.of_forall_constGet?_eq hsame).toList_eq
  unfold listing list
  rw [dir_eq_ok.mpr ⟨hnode, isDir⟩, dir_eq_ok.mpr ⟨hnode', isDir'⟩]
  simp only [htoList]
  apply List.map_congr_left
  intro child hj
  obtain ⟨name, j⟩ := child
  rw [Std.TreeMap.mem_toList_iff_getElem?_eq_some] at hj
  have hkind := kinds name j ((at_iff hnode).mpr hj)
  simp only [attr?, Option.map_map] at hkind
  unfold entry
  cases h : t.node? j <;> cases h' : t'.node? j <;> simp_all

namespace Sound

/-- The listings of a sound tree. -/
def forest (sound : t.Sound) : Forest where
  listing := t.listing
  height i := t.nextInode - i
  height_lt := by
    intro i e he hd
    obtain ⟨rfl, hat, a, ha, hkind⟩ := sound.mem_listing.mp he
    obtain ⟨b, hb, hdown⟩ := sound.child _ _ _ hat
    obtain rfl := Option.some.inj (ha.symm.trans hb)
    have hlt := (hdown (hkind.trans (Kind.isDir_iff.mp hd))).1
    have hbound := (sound.inode _ _ ha).2.2
    change t.nextInode - e.inode < t.nextInode - e.parent
    exact Nat.sub_lt_sub_left (Nat.lt_trans hlt hbound) hlt

variable (sound : t.Sound)

/-- The same as the listings of a forest. -/
theorem mem_forest {sound : t.Sound} : e ∈ sound.forest.listing i ↔ e.parent = i ∧ t.Has e :=
  sound.mem_listing

/-- What is found below a directory is what is under it. -/
theorem mem_below : e ∈ sound.forest.below i ↔ t.Under i e := by
  refine ⟨?_, ?_⟩
  · have main : ∀ d : Dir, ∀ e ∈ sound.forest.below d.inode, t.Under d.inode e := by
      intro d
      induction d using sound.forest.induct with
      | step d ih =>
        intro e he
        rw [Forest.below_eq, List.mem_flatMap] at he
        obtain ⟨x, hx, he⟩ := he
        obtain ⟨hinside, hhas⟩ := mem_forest.mp hx
        rcases List.mem_cons.mp he with rfl | he
        · exact .here hhas hinside
        · by_cases hd : x.kind.isDir = true
          · rw [if_pos hd] at he
            exact .deeper hhas hinside (Kind.isDir_iff.mp hd)
              (ih (.ofEntry x) (Forest.ofEntry_mem_subdirs hx hd) e he)
          · rw [if_neg hd] at he
            cases he
    exact main ⟨i, 0, ""⟩ e
  · intro h
    induction h with
    | here has inside =>
      rw [Forest.below_eq, List.mem_flatMap]
      exact ⟨_, mem_forest.mpr ⟨inside, has⟩, List.mem_cons_self⟩
    | @deeper i e e' has inside isDir _ ih =>
      rw [Forest.below_eq, List.mem_flatMap]
      refine ⟨e, mem_forest.mpr ⟨inside, has⟩, List.mem_cons_of_mem _ ?_⟩
      rw [if_pos (Kind.isDir_iff.mpr isDir)]
      exact ih

/-- A subdirectory has its entry in the directory above. -/
theorem has_of_mem_subdirs {c d : Dir} (h : c ∈ sound.forest.subdirs d) :
    c.parent = d.inode ∧ t.Has c.entry := by
  obtain ⟨e, he, hd, rfl⟩ := Forest.mem_subdirs.mp h
  rw [Dir.entry_ofEntry (Kind.isDir_iff.mp hd)]
  exact mem_forest.mp he

/-- A directory of the subtree is its root, or has an entry. -/
theorem has_of_mem_dirs {c d : Dir} (h : c ∈ sound.forest.dirs d) : c = d ∨ t.Has c.entry := by
  rcases Forest.exists_holder h with rfl | ⟨b, -, hc⟩
  · exact .inl rfl
  · exact .inr (sound.has_of_mem_subdirs hc).2

/-- A subdirectory comes after its parent. -/
theorem lt_of_mem_subdirs {c d : Dir} (h : c ∈ sound.forest.subdirs d) : d.inode < c.inode := by
  obtain ⟨hparent, hat, a, ha, hdir⟩ := sound.has_of_mem_subdirs h
  obtain ⟨a', ha', hdown⟩ := sound.child _ _ _ hat
  obtain rfl := Option.some.inj (ha.symm.trans ha')
  rw [← hparent]
  exact (hdown hdir).1

/-- No directory of the subtree comes before its root. -/
theorem le_of_mem_dirs {c d : Dir} (h : c ∈ sound.forest.dirs d) : d.inode ≤ c.inode := by
  induction d using sound.forest.induct with
  | step d ih =>
    rcases Forest.mem_dirs.mp h with rfl | ⟨b, hb, hc⟩
    · exact Nat.le_refl _
    · exact Nat.le_trans (Nat.le_of_lt (sound.lt_of_mem_subdirs hb)) (ih b hb hc)

/-- Directories of one number have one entry. -/
theorem dir_unique (sound : t.Sound) {c c' : Dir} (h : t.Has c.entry) (h' : t.Has c'.entry)
    (inode : c.inode = c'.inode) : c = c' := by
  obtain ⟨hat, a, ha, hdir⟩ := h
  obtain ⟨hat', -⟩ := h'
  cases c
  cases c'
  obtain rfl := inode
  obtain ⟨hparent, hname⟩ := sound.single _ a ha hdir _ _ _ _ hat hat'
  obtain rfl : _ = _ := hparent
  obtain rfl : _ = _ := hname
  rfl

/-- What has the inode of a directory is its entry. -/
theorem eq_entry (sound : t.Sound) {d : Dir} (h : t.Has e) (h' : t.Has d.entry)
    (inode : e.inode = d.inode) : e = d.entry := by
  have hkind : e.kind = .dir := by
    obtain ⟨-, a, ha, hkind⟩ := h
    obtain ⟨-, b, hb, hdir⟩ := h'
    rw [inode] at ha
    obtain rfl := Option.some.inj (ha.symm.trans hb)
    exact hkind.symm.trans hdir
  rw [← Dir.entry_ofEntry hkind] at h
  rw [← sound.dir_unique h h' inode, Dir.entry_ofEntry hkind]

/-- No directory is in the subtrees of two siblings. -/
private theorem sibling_unique {b b' c c' d : Dir} (hb : b ∈ sound.forest.subdirs d)
    (hb' : b' ∈ sound.forest.subdirs d) (hc : c ∈ sound.forest.dirs b)
    (hc' : c' ∈ sound.forest.dirs b') (inode : c.inode = c'.inode) : b = b' := by
  have main : ∀ (n : Nat) (c c' : Dir), c.inode ≤ n → c ∈ sound.forest.dirs b →
      c' ∈ sound.forest.dirs b' → c.inode = c'.inode → b = b' := by
    intro n
    induction n with
    | zero =>
      intro c c' hn hc hc' inode
      have hle := sound.le_of_mem_dirs hc
      have hlt := sound.lt_of_mem_subdirs hb
      exact absurd (Nat.lt_of_lt_of_le hlt (Nat.le_trans hle hn)) (Nat.not_lt_zero _)
    | succ n ih =>
      intro c c' hn hc hc' inode
      obtain ⟨hparent, hhas⟩ := sound.has_of_mem_subdirs hb
      obtain ⟨hparent', hhas'⟩ := sound.has_of_mem_subdirs hb'
      rcases Forest.exists_holder hc with rfl | ⟨a, ha, hca⟩
      · rcases Forest.exists_holder hc' with rfl | ⟨a', ha', hca'⟩
        · exact sound.dir_unique hhas hhas' inode
        · obtain ⟨hcparent, hchas⟩ := sound.has_of_mem_subdirs hca'
          obtain rfl := sound.dir_unique hhas hchas inode
          have hle := sound.le_of_mem_dirs ha'
          have hlt := sound.lt_of_mem_subdirs hb'
          rw [← hcparent, hparent] at hle
          exact absurd hlt (Nat.not_lt.mpr hle)
      · obtain ⟨hcparent, hchas⟩ := sound.has_of_mem_subdirs hca
        rcases Forest.exists_holder hc' with rfl | ⟨a', ha', hca'⟩
        · obtain rfl := sound.dir_unique hchas hhas' inode
          have hle := sound.le_of_mem_dirs ha
          have hlt := sound.lt_of_mem_subdirs hb
          rw [← hcparent, hparent'] at hle
          exact absurd hlt (Nat.not_lt.mpr hle)
        · obtain ⟨hcparent', hchas'⟩ := sound.has_of_mem_subdirs hca'
          obtain rfl := sound.dir_unique hchas hchas' inode
          have hlt := sound.lt_of_mem_subdirs hca
          refine ih a a' ?_ ha ha' (hcparent.symm.trans hcparent')
          exact Nat.le_of_lt_succ (Nat.lt_of_lt_of_le hlt hn)
  exact main _ c c' (Nat.le_refl _) hc hc' inode

/-- No directory and no entry is listed twice below a directory. -/
theorem isTree (d : Dir) : sound.forest.IsTree d := by
  refine ⟨?_, fun c _ => t.nodup_listing c.inode⟩
  induction d using sound.forest.induct with
  | step d ih =>
    rw [Forest.dirs_eq, List.map_cons, List.nodup_cons, List.map_flatMap, List.nodup_flatMap]
    refine ⟨?_, ih, ?_⟩
    · intro hmem
      obtain ⟨b, hb, hmem⟩ := List.mem_flatMap.mp hmem
      obtain ⟨c, hc, hinode⟩ := List.mem_map.mp hmem
      have hle := sound.le_of_mem_dirs hc
      have hlt := sound.lt_of_mem_subdirs hb
      rw [hinode] at hle
      exact absurd hlt (Nat.not_lt.mpr hle)
    · refine List.pairwise_map.mpr (((t.nodup_listing d.inode).filter _).pairwise_of_forall_ne ?_)
      intro e he e' he' hne x hx hx'
      obtain ⟨hmem, hd⟩ := List.mem_filter.mp he
      obtain ⟨hmem', hd'⟩ := List.mem_filter.mp he'
      obtain ⟨c, hc, hinode⟩ := List.mem_map.mp hx
      obtain ⟨c', hc', hinode'⟩ := List.mem_map.mp hx'
      have hsame := sound.sibling_unique (Forest.ofEntry_mem_subdirs (f := sound.forest) hmem hd)
        (Forest.ofEntry_mem_subdirs (f := sound.forest) hmem' hd') hc hc'
        (hinode.trans hinode'.symm)
      have hentry := congrArg Dir.entry hsame
      rw [Dir.entry_ofEntry (Kind.isDir_iff.mp hd), Dir.entry_ofEntry (Kind.isDir_iff.mp hd')]
        at hentry
      exact hne hentry

/-- Nothing is found twice below a directory. -/
theorem nodup_below (d : Dir) : (sound.forest.below d.inode).Nodup :=
  (sound.isTree d).nodup_below fun _ _ he => (mem_forest.mp he).1

end Sound

end Tree

end ShardSweep
