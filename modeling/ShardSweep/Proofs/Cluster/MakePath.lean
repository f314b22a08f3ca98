import ShardSweep.Proofs.Cluster.Lookup

/-!
# Directories that are made along a path

`makePath` follows a path as far as there are entries and makes the rest.  It can only be refused
where it comes to a file before the end, and there it has made nothing yet: behind the first
directory that it makes everything is new and empty.  So it makes all that is missing, or nothing.

At the end of the path a file is taken as well as a directory.

* `Tree.GainsPath`: what becomes of a tree that gets directories under each other;
* `Tree.lookupNames_cases`: how far names can be followed;
* `Tree.BlockedBy.makeNames_eq`: what is refused, with nothing made;
* `Tree.makes_of_missing`: from the first missing name on everything is made;
* `Tree.makePath_all_or_nothing`: what is there after `makePath`, and that a second time changes
  nothing.
-/

namespace ShardSweep.Tree

variable {t t' t'' : Tree} {dir i j p : Inode} {name : String} {ns : List String}

/-- Names of directories under each other, each with its parent and its inode. -/
def newPath (dir next : Inode) : List String → List (Inode × String × Inode)
  | [] => []
  | name :: ns => (dir, name, next) :: newPath next (next + 1) ns

/-- The tree gets directories under each other and stays as it was apart from that. -/
structure GainsPath (t : Tree) (dir : Inode) (ns : List String) (t' : Tree) : Prop where
  entries : ∀ p m j, t'.At p m j ↔ t.At p m j ∨ (p, m, j) ∈ newPath dir t.nextInode ns
  made : ∀ p m j, (p, m, j) ∈ newPath dir t.nextInode ns →
    (∀ k, ¬ t.At p m k) ∧ t.attr? j = none ∧ t'.attr? j = some ⟨j, 0, 2, .dir, [p]⟩
  kept : ∀ j a, t.attr? j = some a → t'.attr? j = some a
  others : ∀ j, t.attr? j = none → t'.attr? j = none ∨ ∃ p m, (p, m, j) ∈ newPath dir t.nextInode ns
  next : t'.nextInode = t.nextInode + ns.length

theorem gainsPath_nil (t : Tree) (dir : Inode) : t.GainsPath dir [] t where
  entries := by simp [newPath]
  made := nofun
  kept := fun _ _ h => h
  others := fun _ h => .inl h
  next := rfl

/-- A directory in front of those that are made under it. -/
theorem gainsPath_mkdir (sound : t.Sound) (ok : t.mkdir dir name = .ok (i, t'))
    (rest : t'.GainsPath i ns t'') : t.GainsPath dir (name :: ns) t'' := by
  obtain ⟨hgains, -, rfl, hnext, hattr⟩ := insert_eq_ok sound.fresh ok
  have hnew : t.attr? t.nextInode = none := by
    rw [attr?, sound.fresh]
    rfl
  have hpath : newPath dir t.nextInode (name :: ns) =
      (dir, name, t.nextInode) :: newPath t.nextInode t'.nextInode ns := by rw [hnext, newPath]
  have hold : ∀ j, t'.attr? j = none → j ≠ t.nextInode := by
    rintro j hj rfl
    rw [hj] at hattr
    cases hattr
  refine ⟨?_, ?_, ?_, ?_, ?_⟩
  · intro p m j
    rw [hpath, rest.entries, hgains.names, List.mem_cons, Prod.mk.injEq, Prod.mk.injEq, or_assoc]
  · intro p m j hmem
    rw [hpath] at hmem
    rcases List.mem_cons.mp hmem with heq | hmem
    · obtain ⟨rfl, rfl, rfl⟩ := heq
      exact ⟨hgains.free, hnew, rest.kept _ _ hattr⟩
    · obtain ⟨hfree, hnone, hmade⟩ := rest.made p m j hmem
      refine ⟨fun k hk => hfree k ((hgains.names p m k).mpr (.inl hk)), ?_, hmade⟩
      rw [← hgains.others j (hold j hnone), hnone]
  · intro j a ha
    refine rest.kept j a ?_
    rw [hgains.others j, ha]
    rintro rfl
    rw [hnew] at ha
    cases ha
  · intro j hj
    rw [hpath]
    by_cases hi : j = t.nextInode
    · subst hi
      exact .inr ⟨dir, name, List.mem_cons_self⟩
    · rcases rest.others j ((hgains.others j hi).trans hj) with hnone | ⟨p, m, hmem⟩
      · exact .inl hnone
      · exact .inr ⟨p, m, List.mem_cons_of_mem _ hmem⟩
  · rw [rest.next, hnext, List.length_cons, Nat.add_assoc, Nat.add_comm 1]

/-! ## Following names -/

theorem lookupNames_cons {front : List String} : t.lookupNames dir (name :: front) = some p ↔
    ∃ k, t.child dir name = .ok k ∧ t.lookupNames k front = some p := by
  rw [lookupNames]
  cases t.child dir name <;> simp

/-- Names are made on from where those before them lead. -/
theorem makeNames_append {front : List String} (h : t.lookupNames dir front = some p) :
    t.makeNames dir (front ++ ns) = t.makeNames p ns := by
  induction front generalizing dir with
  | nil =>
    obtain rfl := Option.some.inj h
    rfl
  | cons m front ih =>
    obtain ⟨k, hchild, hk⟩ := lookupNames_cons.mp h
    rw [List.cons_append, makeNames, hchild]
    exact ih hk

/-- Where all names lead somewhere nothing is made. -/
theorem makeNames_of_lookupNames (h : t.lookupNames dir ns = some i) :
    t.makeNames dir ns = (.ok i, t) := by
  rw [← List.append_nil ns, makeNames_append h]
  rfl

/-- Where names led to they still lead. -/
theorem GainsPath.lookupNames_eq (gains : t.GainsPath dir ns t') (sound' : t'.Sound)
    {front : List String} (h : t.lookupNames p front = some j) :
    t'.lookupNames p front = some j := by
  induction front generalizing p with
  | nil => exact h
  | cons m front ih =>
    obtain ⟨k, hchild, hk⟩ := lookupNames_cons.mp h
    have hat : t'.At p m k := (gains.entries p m k).mpr (.inl (at_of_child hchild))
    exact lookupNames_cons.mpr ⟨k, sound'.child_eq hat, ih hk⟩

/-- The names lead to a file before the last of them. -/
def BlockedBy (t : Tree) (dir : Inode) (ns : List String) (f : Inode) : Prop :=
  ∃ front name back, ns = front ++ name :: back ∧ t.lookupNames dir front = some f ∧
    ∃ a, t.attr? f = some a ∧ a.kind = .file

/-- Names can be followed to the end, or to a file before it, or to a directory in which the next
one is missing. -/
theorem lookupNames_cases (sound : t.Sound) (here : ∃ a, t.attr? dir = some a) (ns : List String) :
    (∃ i, t.lookupNames dir ns = some i) ∨ (∃ f, t.BlockedBy dir ns f) ∨
    ∃ old name new q status, ns = old ++ name :: new ∧ t.lookupNames dir old = some q ∧ t.IsDir q ∧
      t.child q name = .error status := by
  induction ns generalizing dir with
  | nil => exact .inl ⟨dir, rfl⟩
  | cons name ns ih =>
    cases hchild : t.child dir name with
    | ok j =>
      obtain ⟨b, hb, -⟩ := sound.child _ _ _ (at_of_child hchild)
      have hnext : ∀ {ns p}, t.lookupNames j ns = some p →
          t.lookupNames dir (name :: ns) = some p := fun h => lookupNames_cons.mpr ⟨j, hchild, h⟩
      rcases ih ⟨b, hb⟩ with ⟨i, hi⟩ | ⟨f, front, m, back, rfl, hf, file⟩ |
        ⟨old, m, new, q, status, rfl, hq, hdir, hmissing⟩
      · exact .inl ⟨i, hnext hi⟩
      · exact .inr (.inl ⟨f, name :: front, m, back, rfl, hnext hf, file⟩)
      · exact .inr (.inr ⟨name :: old, m, new, q, status, rfl, hnext hq, hdir, hmissing⟩)
    | error status =>
      obtain ⟨a, ha⟩ := here
      cases hkind : a.kind with
      | file => exact .inr (.inl ⟨dir, [], name, ns, rfl, rfl, a, ha, hkind⟩)
      | dir => exact .inr (.inr ⟨[], name, ns, dir, status, rfl, rfl, ⟨a, ha, hkind⟩, hchild⟩)

/-! ## Making what is missing -/

/-- Under a file nothing can be made. -/
theorem mkdir_of_file {a : Attr} (ha : t.attr? dir = some a) (file : a.kind = .file)
    (good : isName name = true) : t.mkdir dir name = .error ⟨.notDirectory, inodeText dir⟩ := by
  obtain ⟨node, hnode, rfl⟩ := attr?_eq_some.mp ha
  rw [mkdir, insert, if_pos good, checkFree, Tree.dir, hnode]
  simp [file, Kind.isDir]

/-- Where a name is missing in a directory, another directory can be made, and it is empty. -/
theorem mkdir_of_missing {status : Status} (sound : t.Sound) (isDir : t.IsDir dir)
    (missing : t.child dir name = .error status) (good : isName name = true) :
    ∃ i t', t.mkdir dir name = .ok (i, t') ∧ t'.IsDir i ∧
      ∀ m, ∃ status, t'.child i m = .error status := by
  obtain ⟨a, ha, hdir⟩ := isDir
  obtain ⟨node, hnode, rfl⟩ := attr?_eq_some.mp ha
  have hfree : t.checkFree dir name = .ok () := by
    rw [child, dir_eq_ok.mpr ⟨hnode, hdir⟩] at missing
    rw [checkFree, dir_eq_ok.mpr ⟨hnode, hdir⟩]
    cases hget : node.children[name]? with
    | none => simp [Std.TreeMap.contains_eq_isSome_getElem?, hget]
    | some j => simp [hget] at missing
  have hmade : ∃ i t', t.mkdir dir name = .ok (i, t') := by simp [mkdir, insert, good, hfree]
  obtain ⟨i, t', hmkdir⟩ := hmade
  obtain ⟨hgains, -, rfl, -, hattr⟩ := insert_eq_ok sound.fresh hmkdir
  refine ⟨_, t', hmkdir, ⟨_, hattr, rfl⟩, fun m => ?_⟩
  have hunused : ∀ b, t.attr? t.nextInode ≠ some b := by
    intro b hb
    exact absurd (sound.inode _ b hb).2.2 (Nat.lt_irrefl _)
  cases hchild : t'.child t.nextInode m with
  | error status => exact ⟨status, rfl⟩
  | ok j =>
    rcases (hgains.names _ m j).mp (at_of_child hchild) with hat | ⟨heq, -⟩
    · obtain ⟨b, hb, -⟩ := sound.parent _ m j hat
      exact absurd hb (hunused b)
    · exact absurd (heq ▸ ha) (hunused _)

/-- All that is missing is made, and the names lead to the last directory. -/
structure Makes (t : Tree) (dir : Inode) (ns : List String) (i : Inode) (t' : Tree) : Prop where
  result : t.makeNames dir ns = (.ok i, t')
  gains : t.GainsPath dir ns t'
  reachable : t'.Reachable
  isDir : t'.IsDir i
  found : t'.lookupNames dir ns = some i

/-- A directory is made, and then those under it. -/
theorem Makes.of_mkdir {status : Status} (reachable : t.Reachable)
    (missing : t.child dir name = .error status) (ok : t.mkdir dir name = .ok (i, t'))
    (rest : t'.Makes i ns j t'') : t.Makes dir (name :: ns) j t'' where
  result := by
    rw [makeNames, missing, ok]
    exact rest.result
  gains := gainsPath_mkdir reachable.sound ok rest.gains
  reachable := rest.reachable
  isDir := rest.isDir
  found := by
    obtain ⟨hgains, -⟩ := insert_eq_ok reachable.sound.fresh ok
    have hat : t''.At dir name i :=
      (rest.gains.entries _ _ _).mpr (.inl ((hgains.names _ _ _).mpr (.inr ⟨rfl, rfl, rfl⟩)))
    exact lookupNames_cons.mpr ⟨i, rest.reachable.sound.child_eq hat, rest.found⟩

/-- Where a name is missing in a directory, it is made with all that come behind it: what is made
first is empty, so the next name is missing there too. -/
theorem makes_of_missing {status : Status} (reachable : t.Reachable) (isDir : t.IsDir dir)
    (missing : t.child dir name = .error status) (good : ∀ m ∈ name :: ns, isName m = true) :
    ∃ i t', t.Makes dir (name :: ns) i t' := by
  induction ns generalizing t dir name status with
  | nil =>
    obtain ⟨i, t', hmkdir, hdir, -⟩ :=
      mkdir_of_missing reachable.sound isDir missing (good name List.mem_cons_self)
    exact ⟨i, t', .of_mkdir reachable missing hmkdir
      ⟨rfl, gainsPath_nil t' i, reachable.mkdir hmkdir, hdir, rfl⟩⟩
  | cons m ns ih =>
    obtain ⟨hname, hgood⟩ := List.forall_mem_cons.mp good
    obtain ⟨i, t', hmkdir, hdir, hempty⟩ := mkdir_of_missing reachable.sound isDir missing hname
    obtain ⟨status', hmissing⟩ := hempty m
    obtain ⟨j, t'', hmakes⟩ := ih (reachable.mkdir hmkdir) hdir hmissing hgood
    exact ⟨j, t'', .of_mkdir reachable missing hmkdir hmakes⟩

/-- What is made in a directory is made behind the names that lead there. -/
theorem Makes.behind {old : List String} (makes : t.Makes p ns i t')
    (h : t.lookupNames dir old = some p) :
    t.makeNames dir (old ++ ns) = (.ok i, t') ∧ t'.lookupNames dir (old ++ ns) = some i := by
  have hold : t'.lookupNames dir old = some p :=
    makes.gains.lookupNames_eq makes.reachable.sound h
  constructor
  · rw [makeNames_append h, makes.result]
  · rw [lookupNames_append, hold]
    exact makes.found

/-- A path that is blocked by a file is refused, and nothing is made. -/
theorem BlockedBy.makeNames_eq {f : Inode} (blocked : t.BlockedBy dir ns f)
    (good : ∀ m ∈ ns, isName m = true) :
    t.makeNames dir ns = (.error ⟨.notDirectory, inodeText f⟩, t) := by
  obtain ⟨front, name, back, rfl, hf, a, ha, hfile⟩ := blocked
  have hmissing : ∃ status, t.child f name = .error status := by
    cases hchild : t.child f name with
    | error status => exact ⟨status, rfl⟩
    | ok j =>
      obtain ⟨b, hb, hdir⟩ := isDir_of_child hchild
      obtain rfl := Option.some.inj (ha.symm.trans hb)
      rw [hfile] at hdir
      cases hdir
  obtain ⟨status, hmissing⟩ := hmissing
  rw [makeNames_append hf, makeNames, hmissing, mkdir_of_file ha hfile (good name (by simp))]

/-- If `makePath` succeeds, its path leads to the inode that it gives; there are the entries of
before and those of directories at the end of the path, each under the one before; and a second time
it gives the same and changes nothing.  The inode is a directory, or a file that was at the path
before.  If it is refused, the path is blocked by a file, and nothing has changed. -/
theorem makePath_all_or_nothing (reachable : t.Reachable) (path : String) :
    (∀ i t', t.makePath path = (.ok i, t') →
      (t'.IsDir i ∨ t' = t ∧ t.lookup path = some i ∧ ¬ t.IsDir i) ∧ t'.lookup path = some i ∧
      (∃ old new q, names path = old ++ new ∧ t.lookupNames rootInode old = some q ∧
        t.GainsPath q new t') ∧
      t'.makePath path = (.ok i, t')) ∧
    ∀ status t', t.makePath path = (.error status, t') → t' = t ∧
      ∃ f, t.BlockedBy rootInode (names path) f ∧ status = ⟨.notDirectory, inodeText f⟩ := by
  have hgood : ∀ m ∈ names path, isName m = true := fun m hm => isName_of_mem_names hm
  obtain ⟨root, hroot, -⟩ := reachable.sound.root
  rcases lookupNames_cases reachable.sound ⟨root, hroot⟩ (names path) with ⟨j, hj⟩ | ⟨f, hf⟩ |
    ⟨old, name, new, q, status, hnames, hq, hdir, hmissing⟩
  · have hmake : t.makePath path = (.ok j, t) := makeNames_of_lookupNames hj
    constructor
    · intro i t' h
      obtain ⟨hi, rfl⟩ := Prod.mk.inj (hmake.symm.trans h)
      obtain rfl := Except.ok.inj hi
      refine ⟨?_, hj, ⟨names path, [], j, (List.append_nil _).symm, hj, gainsPath_nil t j⟩, hmake⟩
      by_cases hdir : t.IsDir j
      · exact .inl hdir
      · exact .inr ⟨rfl, hj, hdir⟩
    · intro status t' h
      cases hmake.symm.trans h
  · have hmake : t.makePath path = (.error ⟨.notDirectory, inodeText f⟩, t) := hf.makeNames_eq hgood
    constructor
    · intro i t' h
      cases hmake.symm.trans h
    · intro status t' h
      obtain ⟨hstatus, rfl⟩ := Prod.mk.inj (hmake.symm.trans h)
      exact ⟨rfl, f, hf, (Except.error.inj hstatus).symm⟩
  · have hgood' : ∀ m ∈ name :: new, isName m = true := fun m hm => hgood m (by simp [hnames, hm])
    obtain ⟨j, t₁, hmakes⟩ := makes_of_missing reachable hdir hmissing hgood'
    obtain ⟨hmake, hfound⟩ := hmakes.behind hq
    rw [← hnames] at hmake hfound
    constructor
    · intro i t' h
      obtain ⟨hi, rfl⟩ := Prod.mk.inj (hmake.symm.trans h)
      obtain rfl := Except.ok.inj hi
      exact ⟨.inl hmakes.isDir, hfound, ⟨old, name :: new, q, hnames, hq, hmakes.gains⟩,
        makeNames_of_lookupNames hfound⟩
    · intro status t' h
      cases hmake.symm.trans h

/-! A directory with a file in it, and a path that leads into the directory. -/

/-- Changes after which there is a directory with a file. -/
def started : List Edit :=
  [.mkdir rootInode "a", .create 2 "f" 7]

theorem makePath_all_or_nothing_started :
    (rootOnly.after started).Reachable ∧
    ((rootOnly.after started).makePath "/a//b/c").1 = .ok 5 ∧
    (((rootOnly.after started).makePath "/a//b/c").2.IsDir 5 ∨
      ((rootOnly.after started).makePath "/a//b/c").2 = rootOnly.after started ∧
        (rootOnly.after started).lookup "/a//b/c" = some 5 ∧ ¬ (rootOnly.after started).IsDir 5) ∧
    ((rootOnly.after started).makePath "/a//b/c").2.makePath "/a//b/c" =
      (.ok 5, ((rootOnly.after started).makePath "/a//b/c").2) := by
  have hreachable : (rootOnly.after started).Reachable := Reachable.root.steps (steps_after _ _)
  have hnames : names "/a//b/c" = ["a", "b", "c"] := by cbv
  have hresult : ((rootOnly.after started).makePath "/a//b/c").1 = .ok 5 := by
    rw [makePath, hnames]
    rfl
  obtain ⟨hdir, -, -, hagain⟩ :=
    (makePath_all_or_nothing hreachable "/a//b/c").1 5 _ (Prod.ext hresult rfl)
  exact ⟨hreachable, hresult, hdir, hagain⟩

/-- At the end of a path a file is taken for a directory. -/
theorem makePath_takes_file :
    (rootOnly.after [.create rootInode "f" 1]).Reachable ∧
    (rootOnly.after [.create rootInode "f" 1]).makePath "/f" =
      (.ok 2, rootOnly.after [.create rootInode "f" 1]) ∧
    ¬ (rootOnly.after [.create rootInode "f" 1]).IsDir 2 := by
  have hnames : names "/f" = ["f"] := by cbv
  refine ⟨Reachable.root.steps (steps_after _ _), ?_, ?_⟩
  · rw [makePath, hnames]
    exact makeNames_of_lookupNames rfl
  · rintro ⟨a, ha, hdir⟩
    cases ha
    cases hdir

end ShardSweep.Tree
