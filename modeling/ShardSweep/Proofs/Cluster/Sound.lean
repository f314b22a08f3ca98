import Mathlib.Data.List.Perm.Basic
import ShardSweep.Proofs.Cluster.Edits

/-!
# Trees that were built by operations

A tree that began with its root alone and was changed by operations only is sound: no
directory can be reached in two ways or contains itself, and every file knows in how many
places it is named.

* `Tree.Sound.named_of_gains`, `Tree.Sound.named_without`: a file counts its names after one more
  or one less;
* `Tree.Sound.gains`, `Tree.Sound.loses`: a name more or less keeps a tree sound;
* `Tree.Reachable.sound`: so all reachable trees are.
-/

namespace ShardSweep.Tree

variable {t t' : Tree} {p q i j : Inode} {name m : String} {names : List (Inode × String)} {a : Attr}

/-- A root alone has no entry. -/
theorem not_at_rootOnly : ¬ rootOnly.At p name i := by
  intro h
  obtain ⟨node, hnode, hi⟩ := h
  by_cases hp : p = rootInode
  · subst hp
    have hnone : node.children[name]? = none := by
      simp only [node?, rootOnly, Std.TreeMap.getElem?_insert_self, Option.some.injEq] at hnode
      subst hnode
      simp
    rw [hnone] at hi
    cases hi
  · rw [node?_rootOnly p hp] at hnode
    cases hnode

/-- A root alone. -/
theorem sound_rootOnly : rootOnly.Sound := by
  have hattr : ∀ i a, rootOnly.attr? i = some a →
      i = rootInode ∧ a = ⟨rootInode, 0, 2, .dir, []⟩ := by
    intro i a ha
    obtain ⟨node, hnode, rfl⟩ := attr?_eq_some.mp ha
    by_cases hi : i = rootInode
    · subst hi
      simp only [node?, rootOnly, Std.TreeMap.getElem?_insert_self, Option.some.injEq] at hnode
      subst hnode
      exact ⟨rfl, rfl⟩
    · rw [node?_rootOnly i hi] at hnode
      cases hnode
  refine ⟨⟨⟨rootInode, 0, 2, .dir, []⟩, by simp [attr?, node?, rootOnly], rfl⟩, ?_,
    fun p name i h => absurd h not_at_rootOnly, fun p name i h => absurd h not_at_rootOnly,
    fun i a _ _ p name _ _ h => absurd h not_at_rootOnly, ?_⟩
  · intro i a ha
    obtain ⟨rfl, rfl⟩ := hattr i a ha
    exact ⟨rfl, Nat.le_refl _, Nat.lt_succ_self _⟩
  · intro i a ha hfile
    obtain ⟨rfl, rfl⟩ := hattr i a ha
    cases hfile

/-- An inode that gets a name has this one and those it had. -/
theorem Gains.names_self (gains : t.Gains p name i t') (h : t.Names i names) :
    t'.Names i ((p, name) :: names) where
  nodup := List.nodup_cons.mpr ⟨fun hmem => gains.free i ((h.mem_iff p name).mp hmem), h.nodup⟩
  mem_iff q m := by
    rw [List.mem_cons, h.mem_iff, gains.names, Prod.mk.injEq, or_comm]
    simp

/-- The other inodes have the names they had. -/
theorem Gains.names_of_ne (gains : t.Gains p name i t') (h : t.Names j names) (ne : j ≠ i) :
    t'.Names j names := by
  refine ⟨h.nodup, fun q m => ?_⟩
  rw [h.mem_iff, gains.names]
  simp [ne]

/-- Every file counts its names after an entry more if the one that got it does. -/
theorem Sound.named_of_gains (sound : t.Sound) (gains : t.Gains p name i t')
    (ha : t'.attr? i = some a)
    (named : a.kind = .file → ∃ names, t.Names i names ∧
      a.parents.Perm (names.map Prod.fst ++ [p]) ∧ a.nlink = names.length + 1) {b : Attr}
    (hb : t'.attr? j = some b) (file : b.kind = .file) :
    ∃ names, t'.Names j names ∧ names ≠ [] ∧ b.parents.Perm (names.map Prod.fst) ∧
      b.nlink = names.length := by
  by_cases hj : j = i
  · subst hj
    obtain rfl := Option.some.inj (ha.symm.trans hb)
    obtain ⟨names, hnames, hparents, hlength⟩ := named file
    exact ⟨(p, name) :: names, gains.names_self hnames, List.cons_ne_nil _ _,
      hparents.trans (List.perm_append_singleton p _), hlength⟩
  · rw [gains.others j hj] at hb
    obtain ⟨names, hnames, hrest⟩ := sound.named j b hb file
    exact ⟨names, gains.names_of_ne hnames hj, hrest⟩

/-- A new directory, or a file that gets a name, keeps a tree sound. -/
theorem Sound.gains (sound : t.Sound) (gains : t.Gains p name i t')
    (later : t.nextInode ≤ t'.nextInode)
    (ha : t'.attr? i = some a) (inode : a.inode = i ∧ rootInode < i ∧ i < t'.nextInode)
    (old : ∀ b, t.attr? i = some b → b.kind = .file ∧ a.kind = .file)
    (down : a.kind = .dir → p < i ∧ isName name = true)
    (named : a.kind = .file → ∃ names, t.Names i names ∧
      a.parents.Perm (names.map Prod.fst ++ [p]) ∧ a.nlink = names.length + 1) : t'.Sound := by
  have hparent : ∀ q b, t.attr? q = some b → b.kind = .dir → t'.attr? q = some b := by
    intro q b hb hdir
    rw [gains.others q, hb]
    intro heq
    subst heq
    rw [(old b hb).1] at hdir
    cases hdir
  -- what gets a name and is no file is new, and had no name before
  have hnew : a.kind = .dir → ∀ q m, t'.At q m i → q = p ∧ m = name := by
    intro hdir q m hat
    rcases (gains.names q m i).mp hat with hat | ⟨hq, hm, -⟩
    · obtain ⟨b, hb, -⟩ := sound.child q m i hat
      rw [(old b hb).2] at hdir
      cases hdir
    · exact ⟨hq, hm⟩
  refine ⟨?root, ?inode, ?parent, ?child, ?single,
    fun j b hb file => sound.named_of_gains gains ha named hb file⟩
  case root =>
    obtain ⟨b, hb, hdir⟩ := sound.root
    exact ⟨b, hparent rootInode b hb hdir, hdir⟩
  case inode =>
    intro j b hb
    by_cases hj : j = i
    · subst hj
      obtain rfl := Option.some.inj (ha.symm.trans hb)
      exact ⟨inode.1, Nat.le_of_lt inode.2.1, inode.2.2⟩
    · rw [gains.others j hj] at hb
      obtain ⟨hself, hroot, hlt⟩ := sound.inode j b hb
      exact ⟨hself, hroot, Nat.lt_of_lt_of_le hlt later⟩
  case parent =>
    intro q m j hat
    rcases (gains.names q m j).mp hat with hat | ⟨rfl, -, -⟩
    · obtain ⟨b, hb, hdir⟩ := sound.parent q m j hat
      exact ⟨b, hparent q b hb hdir, hdir⟩
    · obtain ⟨b, hb, hdir⟩ := gains.dir
      exact ⟨b, hparent q b hb hdir, hdir⟩
  case child =>
    intro q m j hat
    rcases (gains.names q m j).mp hat with hat | ⟨rfl, rfl, rfl⟩
    · obtain ⟨b, hb, hdown⟩ := sound.child q m j hat
      by_cases hj : j = i
      · subst hj
        refine ⟨a, ha, ?_⟩
        intro hdir
        rw [(old b hb).2] at hdir
        cases hdir
      · exact ⟨b, (gains.others j hj).trans hb, hdown⟩
    · exact ⟨a, ha, down⟩
  case single =>
    intro j b hb hdir q m q' m' hat hat'
    by_cases hj : j = i
    · subst hj
      obtain rfl := Option.some.inj (ha.symm.trans hb)
      obtain ⟨rfl, rfl⟩ := hnew hdir q m hat
      obtain ⟨rfl, rfl⟩ := hnew hdir q' m' hat'
      exact ⟨rfl, rfl⟩
    · rw [gains.others j hj] at hb
      refine sound.single j b hb hdir q m q' m' ?_ ?_
      · exact ((gains.names q m j).mp hat).resolve_right fun h => hj h.2.2
      · exact ((gains.names q' m' j).mp hat').resolve_right fun h => hj h.2.2

/-- An inode that loses a name has the others. -/
theorem Loses.names_self (loses : t.Loses p name i t') (h : t.Names i names) :
    t'.Names i (names.erase (p, name)) := by
  refine ⟨h.nodup.erase _, fun q m => ?_⟩
  rw [h.nodup.mem_erase_iff, h.mem_iff, loses.names, ne_eq, Prod.mk.injEq, and_comm]

/-- The other inodes lose no name. -/
theorem Loses.names_of_ne (loses : t.Loses p name i t') (h : t.Names j names) (ne : j ≠ i) :
    t'.Names j names := by
  refine ⟨h.nodup, fun q m => ?_⟩
  rw [h.mem_iff, loses.names]
  refine ⟨fun hat => ⟨hat, ?_⟩, fun h => h.1⟩
  intro h
  obtain ⟨rfl, rfl⟩ := h
  exact ne (hat.unique loses.had)

/-- What has a name besides another one has at least two. -/
theorem Names.two_le_length (h : t.Names i names) (had : t.At p name i) (hat : t.At q m i)
    (ne : ¬ (q = p ∧ m = name)) : 2 ≤ names.length := by
  have hsub : [(q, m), (p, name)] ⊆ names := by
    intro x hx
    simp only [List.mem_cons, List.not_mem_nil, or_false] at hx
    rcases hx with rfl | rfl
    · exact (h.mem_iff q m).mpr hat
    · exact (h.mem_iff p name).mpr had
  have hnodup : [(q, m), (p, name)].Nodup := by
    simpa using fun h => not_and.mp ne h
  exact (List.subperm_of_subset hnodup hsub).length_le

/-- A file that lost one of several names counts those that are left. -/
theorem Sound.named_without (sound : t.Sound) (loses : t.Loses p name i t')
    (ha : t.attr? i = some a) (file : a.kind = .file) (more : a.nlink - 1 ≠ 0) :
    ∃ names, t'.Names i names ∧ names ≠ [] ∧ (a.without p).parents.Perm (names.map Prod.fst) ∧
      (a.without p).nlink = names.length := by
  obtain ⟨names, hnames, -, hparents, hlength⟩ := sound.named i a ha file
  have hmem : (p, name) ∈ names := (hnames.mem_iff p name).mpr loses.had
  have hless : (names.erase (p, name)).length = names.length - 1 := List.length_erase_of_mem hmem
  refine ⟨names.erase (p, name), loses.names_self hnames, ?_, ?_, ?_⟩
  · intro hnil
    rw [hnil, List.length_nil] at hless
    omega
  · have hperm : (names.map Prod.fst).Perm (p :: (names.erase (p, name)).map Prod.fst) :=
      (List.perm_cons_erase hmem).map Prod.fst
    have herased := (hparents.trans hperm).erase p
    rwa [List.erase_cons_head] at herased
  · rw [hless, ← hlength]
    rfl

/-- An empty directory that is freed, or a file that loses a name, keeps a tree sound. -/
theorem Sound.loses (sound : t.Sound) (loses : t.Loses p name i t') (ha : t.attr? i = some a)
    (file : a.kind = .file → t'.attr? i = if a.nlink - 1 = 0 then none else some (a.without p))
    (dir : a.kind = .dir → (∀ m j, ¬ t.At i m j) ∧ t'.attr? i = none) : t'.Sound := by
  have hkept : ∀ b, t'.attr? i = some b → a.kind = .file ∧ a.nlink - 1 ≠ 0 ∧ b = a.without p := by
    intro b hb
    cases hkind : a.kind with
    | dir =>
      rw [(dir hkind).2] at hb
      cases hb
    | file =>
      rw [file hkind] at hb
      split at hb
      · cases hb
      · exact ⟨rfl, ‹_›, (Option.some.inj hb).symm⟩
  have hleaf : ∀ m j, ¬ t.At i m j := by
    cases hkind : a.kind with
    | dir => exact (dir hkind).1
    | file => exact fun m j => sound.leaf ha hkind
  refine ⟨?root, ?inode, ?parent, ?child, ?single, ?named⟩
  case root =>
    obtain ⟨b, hb, hdir⟩ := sound.root
    refine ⟨b, ?_, hdir⟩
    rw [loses.others rootInode, hb]
    intro heq
    subst heq
    obtain ⟨c, hc, hdown⟩ := sound.child p name rootInode loses.had
    obtain rfl := Option.some.inj (hb.symm.trans hc)
    obtain ⟨d, hd, -⟩ := loses.dir
    have hle := (sound.inode p d hd).2.1
    exact absurd (hdown hdir).1 (Nat.not_lt.mpr hle)
  case inode =>
    intro j b hb
    rw [loses.next]
    by_cases hj : j = i
    · subst hj
      obtain ⟨-, -, rfl⟩ := hkept b hb
      exact sound.inode j a ha
    · rw [loses.others j hj] at hb
      exact sound.inode j b hb
  case parent =>
    intro q m j hat
    have hat := ((loses.names q m j).mp hat).1
    obtain ⟨b, hb, hdir⟩ := sound.parent q m j hat
    refine ⟨b, ?_, hdir⟩
    rw [loses.others q, hb]
    intro heq
    subst heq
    exact hleaf m j hat
  case child =>
    intro q m j hat
    obtain ⟨hat, hne⟩ := (loses.names q m j).mp hat
    obtain ⟨b, hb, hdown⟩ := sound.child q m j hat
    by_cases hj : j = i
    · subst hj
      obtain rfl := Option.some.inj (ha.symm.trans hb)
      cases hkind : a.kind with
      | dir => exact absurd (sound.single j a ha hkind q m p name hat loses.had) hne
      | file =>
        -- the name that is removed is not its only one, so the file stays
        obtain ⟨names, hnames, -, -, hlength⟩ := sound.named j a ha hkind
        have htwo := hnames.two_le_length loses.had hat hne
        refine ⟨a.without p, ?_, ?_⟩
        · rw [file hkind, if_neg]
          omega
        · intro hdir
          rw [show (a.without p).kind = a.kind from rfl, hkind] at hdir
          cases hdir
    · exact ⟨b, (loses.others j hj).trans hb, hdown⟩
  case single =>
    intro j b hb hdir q m q' m' hat hat'
    by_cases hj : j = i
    · subst hj
      obtain ⟨hkind, -, rfl⟩ := hkept b hb
      rw [show (a.without p).kind = a.kind from rfl, hkind] at hdir
      cases hdir
    · rw [loses.others j hj] at hb
      exact sound.single j b hb hdir q m q' m' ((loses.names q m j).mp hat).1
        ((loses.names q' m' j).mp hat').1
  case named =>
    intro j b hb hfile
    by_cases hj : j = i
    · subst hj
      obtain ⟨hkind, hmore, rfl⟩ := hkept b hb
      exact sound.named_without loses ha hkind hmore
    · rw [loses.others j hj] at hb
      obtain ⟨names, hnames, hrest⟩ := sound.named j b hb hfile
      exact ⟨names, loses.names_of_ne hnames hj, hrest⟩

/-- A namespace as it comes about: from a root alone by operations that succeed. -/
inductive Reachable : Tree → Prop
  | root : Reachable rootOnly
  | mkdir {t t' : Tree} {p i : Inode} {name : String} (before : Reachable t)
      (ok : t.mkdir p name = .ok (i, t')) : Reachable t'
  | create {t t' : Tree} {p i : Inode} {name : String} {length : UInt64} (before : Reachable t)
      (ok : t.create p name length = .ok (i, t')) : Reachable t'
  | link {t t' : Tree} {p i : Inode} {name : String} (before : Reachable t)
      (ok : t.link p name i = .ok t') : Reachable t'
  | removeFile {t t' : Tree} {p : Inode} {name : String} (before : Reachable t)
      (ok : t.removeFile p name = .ok t') : Reachable t'
  | removeDir {t t' : Tree} {p : Inode} {name : String} (before : Reachable t)
      (ok : t.removeDir p name = .ok t') : Reachable t'

private theorem Sound.insert (sound : t.Sound) {kind : Kind} {length : UInt64}
    (h : t.insert p name kind length = .ok (i, t')) : t'.Sound := by
  obtain ⟨hgains, hname, rfl, hnext, hattr⟩ := insert_eq_ok sound.fresh h
  obtain ⟨b, hb, hdir⟩ := hgains.dir
  obtain ⟨-, hroot, hlt⟩ := sound.inode p b hb
  have hnew : t.attr? t.nextInode = none := by
    rw [attr?, sound.fresh]
    rfl
  refine sound.gains hgains ?_ hattr ⟨rfl, Nat.lt_of_le_of_lt hroot hlt, ?_⟩ ?_ ?_ ?_
  · rw [hnext]
    exact Nat.le_succ _
  · rw [hnext]
    exact Nat.lt_succ_self _
  · intro c hc
    rw [hnew] at hc
    cases hc
  · intro _
    exact ⟨hlt, hname⟩
  · intro hfile
    refine ⟨[], ⟨List.nodup_nil, ?_⟩, ?_, ?_⟩
    · intro q m
      refine ⟨fun h => absurd h List.not_mem_nil, ?_⟩
      intro hat
      obtain ⟨c, hc, -⟩ := sound.child q m _ hat
      rw [hnew] at hc
      cases hc
    · exact List.Perm.refl _
    · obtain rfl : kind = .file := hfile
      rfl

private theorem Sound.link (sound : t.Sound) (h : t.link p name i = .ok t') : t'.Sound := by
  obtain ⟨hgains, hnext, a, ha, hfile, hattr⟩ := link_eq_ok h
  obtain ⟨hself, hroot, hlt⟩ := sound.inode i a ha
  have hne : i ≠ rootInode := by
    intro heq
    subst heq
    obtain ⟨b, hb, hdir⟩ := sound.root
    obtain rfl := Option.some.inj (ha.symm.trans hb)
    rw [hfile] at hdir
    cases hdir
  refine sound.gains hgains (Nat.le_of_eq hnext.symm) hattr
    ⟨hself, Nat.lt_of_le_of_ne hroot (Ne.symm hne), ?_⟩ ?_ ?_ ?_
  · rw [hnext]
    exact hlt
  · intro b hb
    obtain rfl := Option.some.inj (ha.symm.trans hb)
    exact ⟨hfile, hfile⟩
  · intro hdir
    rw [show Attr.kind _ = a.kind from rfl, hfile] at hdir
    cases hdir
  · intro _
    obtain ⟨names, hnames, -, hparents, hlength⟩ := sound.named i a ha hfile
    refine ⟨names, hnames, hparents.append_right [p], ?_⟩
    rw [show Attr.nlink _ = a.nlink + 1 from rfl, hlength]

theorem Reachable.sound (h : t.Reachable) : t.Sound := by
  induction h with
  | root => exact sound_rootOnly
  | mkdir _ ok ih => exact ih.insert ok
  | create _ ok ih => exact ih.insert ok
  | link _ ok ih => exact ih.link ok
  | removeFile _ ok ih =>
    obtain ⟨i, a, hloses, ha, hfile, hattr⟩ := removeFile_eq_ok ih ok
    apply ih.loses hloses ha (fun _ => hattr)
    intro hdir
    rw [hfile] at hdir
    cases hdir
  | removeDir _ ok ih =>
    obtain ⟨i, a, hloses, ha, hdir, hempty, hattr⟩ := removeDir_eq_ok ih ok
    refine ih.loses hloses ha ?_ fun _ => ⟨hempty, hattr⟩
    intro hfile
    rw [hdir] at hfile
    cases hfile

end ShardSweep.Tree
