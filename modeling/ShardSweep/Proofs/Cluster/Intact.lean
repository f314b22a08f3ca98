import Mathlib.Logic.Relation
import ShardSweep.Proofs.Cluster.Sound

/-!
# What every change leaves intact

A namespace is changed by operations with any arguments, and a refused one leaves it as it
is.  Whatever is done to a namespace in whatever order, what its nodes say about each other
stays true.

An operation that succeeds is a `Step`, and every change is a number of steps.

* `Tree.Edit.apply_steps`: a change is a number of steps;
* `Tree.Step.homed`: a directory keeps its one name and knows who holds it;
* `Tree.Step.later`: inodes are given out once;
* `Tree.Sound.rooted`: the way up ends at the root;
* `Tree.intact_after`: all changes leave a namespace intact, and no inode comes back.
-/

namespace ShardSweep.Tree

/-- A change that somebody asks for. -/
inductive Edit where
  | mkdir (parent : Inode) (name : String)
  | create (parent : Inode) (name : String) (length : UInt64)
  | link (parent : Inode) (name : String) (target : Inode)
  | makePath (path : String)
  | removeFile (parent : Inode) (name : String)
  | removeDir (parent : Inode) (name : String)
  deriving DecidableEq, Repr

/-- What becomes of a tree by an operation: nothing if it is refused. -/
def orSame (t : Tree) : Except Status Tree → Tree
  | .ok t' => t'
  | .error _ => t

/-- The tree after a change was asked for. -/
def Edit.apply (t : Tree) : Edit → Tree
  | .mkdir parent name => t.orSame ((t.mkdir parent name).map Prod.snd)
  | .create parent name length => t.orSame ((t.create parent name length).map Prod.snd)
  | .link parent name target => t.orSame (t.link parent name target)
  | .makePath path => (t.makePath path).2
  | .removeFile parent name => t.orSame (t.removeFile parent name)
  | .removeDir parent name => t.orSame (t.removeDir parent name)

/-- The tree after changes were asked for one after another. -/
def after (t : Tree) (edits : List Edit) : Tree :=
  edits.foldl Edit.apply t

/-- One operation that succeeds. -/
inductive Step : Tree → Tree → Prop
  | mkdir {t t' : Tree} {p i : Inode} {name : String} (ok : t.mkdir p name = .ok (i, t')) :
      Step t t'
  | create {t t' : Tree} {p i : Inode} {name : String} {length : UInt64}
      (ok : t.create p name length = .ok (i, t')) : Step t t'
  | link {t t' : Tree} {p i : Inode} {name : String} (ok : t.link p name i = .ok t') : Step t t'
  | removeFile {t t' : Tree} {p : Inode} {name : String} (ok : t.removeFile p name = .ok t') :
      Step t t'
  | removeDir {t t' : Tree} {p : Inode} {name : String} (ok : t.removeDir p name = .ok t') :
      Step t t'

/-- Operations one after another. -/
abbrev Steps : Tree → Tree → Prop :=
  Relation.ReflTransGen Step

variable {t t' : Tree}

/-- An operation that may be refused is one step or none. -/
theorem steps_orSame {r : Except Status Tree} (step : ∀ t', r = .ok t' → Step t t') :
    Steps t (t.orSame r) := by
  cases r with
  | error status => exact .refl
  | ok t' => exact .single (step t' rfl)

/-- Making a path is a number of steps. -/
theorem steps_makeNames (names : List String) (t : Tree) (dir : Inode) :
    Steps t (t.makeNames dir names).2 := by
  induction names generalizing t dir with
  | nil => exact .refl
  | cons name names ih =>
    unfold makeNames
    cases t.child dir name with
    | ok i => exact ih t i
    | error status =>
      cases hmkdir : t.mkdir dir name with
      | error status => exact .refl
      | ok made => exact .head (.mkdir hmkdir) (ih made.2 made.1)

/-- A change is a number of operations that succeed. -/
theorem Edit.apply_steps (edit : Edit) (t : Tree) : Steps t (edit.apply t) := by
  have hmade : ∀ {r : Except Status (Inode × Tree)} {t' : Tree}, r.map Prod.snd = .ok t' →
      ∃ i, r = .ok (i, t') := by
    intro r t' h
    cases r with
    | error status => cases h
    | ok made =>
      cases h
      exact ⟨made.1, rfl⟩
  cases edit with
  | mkdir parent name =>
    refine steps_orSame fun t' h => ?_
    obtain ⟨i, hi⟩ := hmade h
    exact .mkdir hi
  | create parent name length =>
    refine steps_orSame fun t' h => ?_
    obtain ⟨i, hi⟩ := hmade h
    exact .create hi
  | link parent name target => exact steps_orSame fun t' h => .link h
  | makePath path => exact steps_makeNames (names path) t rootInode
  | removeFile parent name => exact steps_orSame fun t' h => .removeFile h
  | removeDir parent name => exact steps_orSame fun t' h => .removeDir h

/-- So are changes one after another. -/
theorem steps_after (edits : List Edit) (t : Tree) : Steps t (t.after edits) := by
  induction edits generalizing t with
  | nil => exact .refl
  | cons edit edits ih => exact (edit.apply_steps t).trans (ih (edit.apply t))

/-- A step leads from a tree that was built by operations to another one. -/
theorem Reachable.step (h : t.Reachable) (step : Step t t') : t'.Reachable := by
  cases step with
  | mkdir ok => exact .mkdir h ok
  | create ok => exact .create h ok
  | link ok => exact .link h ok
  | removeFile ok => exact .removeFile h ok
  | removeDir ok => exact .removeDir h ok

/-- Every directory but the root has one name, and its parent is the directory that holds it. -/
def Homed (t : Tree) : Prop :=
  ∀ i a, t.attr? i = some a → a.kind = .dir → i ≠ rootInode →
    ∃ p name, t.At p name i ∧ a.parents = [p]

/-- The root has no parent. -/
theorem homed_rootOnly : rootOnly.Homed := by
  intro i a ha _ hroot
  obtain ⟨node, hnode, -⟩ := attr?_eq_some.mp ha
  rw [node?_rootOnly i hroot] at hnode
  cases hnode

/-- A name more changes no directory but the one that was just created. -/
theorem Gains.homed {p i : Inode} {name : String} {a : Attr} (gains : t.Gains p name i t')
    (homed : t.Homed) (ha : t'.attr? i = some a) (new : a.kind = .dir → a.parents = [p]) :
    t'.Homed := by
  intro j b hb hdir hroot
  by_cases hj : j = i
  · subst hj
    obtain rfl := Option.some.inj (ha.symm.trans hb)
    exact ⟨p, name, (gains.names p name j).mpr (.inr ⟨rfl, rfl, rfl⟩), new hdir⟩
  · rw [gains.others j hj] at hb
    obtain ⟨q, m, hat, hparents⟩ := homed j b hb hdir hroot
    exact ⟨q, m, (gains.names q m j).mpr (.inl hat), hparents⟩

/-- A name less is that of a file or of the directory that is freed. -/
theorem Loses.homed {p i : Inode} {name : String} (loses : t.Loses p name i t')
    (homed : t.Homed) (rest : ∀ a, t'.attr? i = some a → a.kind = .file) : t'.Homed := by
  intro j b hb hdir hroot
  by_cases hj : j = i
  · subst hj
    rw [rest b hb] at hdir
    cases hdir
  · rw [loses.others j hj] at hb
    obtain ⟨q, m, hat, hparents⟩ := homed j b hb hdir hroot
    refine ⟨q, m, (loses.names q m j).mpr ⟨hat, ?_⟩, hparents⟩
    intro h
    obtain ⟨rfl, rfl⟩ := h
    exact hj (hat.unique loses.had)

/-- A directory has its one name from its creation to its removal. -/
theorem Step.homed (step : Step t t') (sound : t.Sound) (homed : t.Homed) : t'.Homed := by
  cases step with
  | mkdir ok | create ok =>
    obtain ⟨hgains, -, rfl, -, hattr⟩ := insert_eq_ok sound.fresh ok
    exact hgains.homed homed hattr fun _ => rfl
  | link ok =>
    obtain ⟨hgains, -, a, -, hfile, hattr⟩ := link_eq_ok ok
    refine hgains.homed homed hattr fun hdir => ?_
    rw [hfile] at hdir
    cases hdir
  | removeFile ok =>
    obtain ⟨i, a, hloses, -, hfile, hattr⟩ := removeFile_eq_ok sound ok
    refine hloses.homed homed fun b hb => ?_
    rw [hattr] at hb
    split at hb
    · cases hb
    · cases hb
      exact hfile
  | removeDir ok =>
    obtain ⟨i, a, hloses, -, -, -, hattr⟩ := removeDir_eq_ok sound ok
    refine hloses.homed homed fun b hb => ?_
    rw [hattr] at hb
    cases hb

/-- An inode that was given out and is not in use any more stays out of use. -/
structure Later (t t' : Tree) : Prop where
  next : t.nextInode ≤ t'.nextInode
  unused : ∀ i, i < t.nextInode → t.attr? i = none → t'.attr? i = none

/-- What was out of use stays so over any stretch. -/
theorem Later.trans {t'' : Tree} (h : t.Later t') (h' : t'.Later t'') : t.Later t'' where
  next := Nat.le_trans h.next h'.next
  unused i hi hnone := h'.unused i (Nat.lt_of_lt_of_le hi h.next) (h.unused i hi hnone)

/-- An operation takes the next inode or none. -/
theorem Step.later (step : Step t t') (sound : t.Sound) : t.Later t' := by
  cases step with
  | mkdir ok | create ok =>
    obtain ⟨hgains, -, rfl, hnext, -⟩ := insert_eq_ok sound.fresh ok
    refine ⟨Nat.le_of_lt (hnext ▸ Nat.lt_succ_self _), fun j hj hnone => ?_⟩
    rw [hgains.others j (Nat.ne_of_lt hj), hnone]
  | link ok =>
    obtain ⟨hgains, hnext, a, ha, -, -⟩ := link_eq_ok ok
    refine ⟨Nat.le_of_eq hnext.symm, fun j _ hnone => ?_⟩
    rw [hgains.others j, hnone]
    intro heq
    subst heq
    rw [hnone] at ha
    cases ha
  | removeFile ok =>
    obtain ⟨i, a, hloses, ha, -, -⟩ := removeFile_eq_ok sound ok
    refine ⟨Nat.le_of_eq hloses.next.symm, fun j _ hnone => ?_⟩
    rw [hloses.others j, hnone]
    intro heq
    subst heq
    rw [hnone] at ha
    cases ha
  | removeDir ok =>
    obtain ⟨i, a, hloses, -, -, -, hattr⟩ := removeDir_eq_ok sound ok
    refine ⟨Nat.le_of_eq hloses.next.symm, fun j _ hnone => ?_⟩
    by_cases hj : j = i
    · rw [hj, hattr]
    · rw [hloses.others j hj, hnone]

/-- Steps lead from a tree that was built by operations to others. -/
theorem Reachable.steps (h : t.Reachable) (steps : Steps t t') : t'.Reachable := by
  induction steps with
  | refl => exact h
  | tail _ step ih => exact ih.step step

/-- Directories keep their names over any number of steps. -/
theorem Steps.homed (steps : Steps t t') (h : t.Reachable) (homed : t.Homed) : t'.Homed := by
  induction steps with
  | refl => exact homed
  | tail before step ih => exact step.homed (h.steps before).sound ih

/-- What was built by operations was built from the root in steps. -/
theorem Reachable.steps_rootOnly (h : t.Reachable) : Steps rootOnly t := by
  induction h with
  | root => exact .refl
  | mkdir _ ok ih => exact ih.tail (.mkdir ok)
  | create _ ok ih => exact ih.tail (.create ok)
  | link _ ok ih => exact ih.tail (.link ok)
  | removeFile _ ok ih => exact ih.tail (.removeFile ok)
  | removeDir _ ok ih => exact ih.tail (.removeDir ok)

/-- So its directories have one name each. -/
theorem Reachable.homed (h : t.Reachable) : t.Homed :=
  h.steps_rootOnly.homed .root homed_rootOnly

/-- No number of steps brings an inode back. -/
theorem Steps.later (steps : Steps t t') (h : t.Reachable) : t.Later t' := by
  induction steps with
  | refl => exact ⟨Nat.le_refl _, fun _ _ hnone => hnone⟩
  | tail before step ih => exact ih.trans (step.later (h.steps before).sound)

/-- Whichever parents one follows from an inode on, one gets to the root. -/
inductive Rooted (t : Tree) : Inode → Prop
  | root : Rooted t rootInode
  | up {i : Inode} {a : Attr} (known : t.attr? i = some a) (some : a.parents ≠ [])
      (rooted : ∀ p ∈ a.parents, Rooted t p) : Rooted t i

/-- The parent of a directory has a lower inode, and the parents of a file are directories. -/
theorem Sound.rooted (sound : t.Sound) (homed : t.Homed) {i : Inode} {a : Attr}
    (ha : t.attr? i = some a) : t.Rooted i := by
  have hdirs : ∀ i a, t.attr? i = some a → a.kind = .dir → t.Rooted i := by
    intro i
    induction i using Nat.strongRecOn with
    | ind i ih =>
      intro a ha hdir
      by_cases hroot : i = rootInode
      · exact hroot ▸ .root
      · obtain ⟨p, name, hat, hparents⟩ := homed i a ha hdir hroot
        obtain ⟨b, hb, hbdir⟩ := sound.parent p name i hat
        obtain ⟨c, hc, hdown⟩ := sound.child p name i hat
        obtain rfl := Option.some.inj (ha.symm.trans hc)
        refine .up ha (by simp [hparents]) fun q hq => ?_
        rw [hparents, List.mem_singleton] at hq
        subst hq
        exact ih q (hdown hdir).1 b hb hbdir
  cases hkind : a.kind with
  | dir => exact hdirs i a ha hkind
  | file =>
    obtain ⟨names, hnames, hne, hparents, -⟩ := sound.named i a ha hkind
    refine .up ha ?_ fun p hp => ?_
    · intro hnil
      rw [hnil, List.nil_perm, List.map_eq_nil_iff] at hparents
      exact hne hparents
    · obtain ⟨⟨q, m⟩, hmem, rfl⟩ := List.mem_map.mp (hparents.mem_iff.mp hp)
      obtain ⟨b, hb, hbdir⟩ := sound.parent q m i ((hnames.mem_iff q m).mp hmem)
      exact hdirs q b hb hbdir

/-- What the nodes of a namespace say about each other. -/
structure Intact (t : Tree) : Prop where
  /-- The root is a directory that nobody holds. -/
  root : (∃ a, t.attr? rootInode = some a ∧ a.kind = .dir) ∧ ∀ p name, ¬ t.At p name rootInode
  /-- An entry refers to a node. -/
  refers : ∀ p name i, t.At p name i → ∃ a, t.attr? i = some a
  /-- Only directories have entries. -/
  holds : ∀ p name i, t.At p name i → ∃ a, t.attr? p = some a ∧ a.kind = .dir
  /-- One entry refers to a directory, and that is in its only parent. -/
  dir : ∀ i a, t.attr? i = some a → a.kind = .dir → i ≠ rootInode →
    ∃ p name, a.parents = [p] ∧ ∀ q m, t.At q m i ↔ q = p ∧ m = name
  /-- A file counts the entries that refer to it, and lists where they are. -/
  file : ∀ i a, t.attr? i = some a → a.kind = .file →
    ∃ names, t.Names i names ∧ 1 ≤ a.nlink ∧ a.nlink = names.length ∧
      a.parents.Perm (names.map Prod.fst)
  /-- The way up ends at the root. -/
  rooted : ∀ i a, t.attr? i = some a → t.Rooted i
  /-- Inodes in use were given out. -/
  given : ∀ i a, t.attr? i = some a → i < t.nextInode

/-- What the changes keep is all that the nodes say about each other. -/
theorem Sound.intact (sound : t.Sound) (homed : t.Homed) : t.Intact where
  root := by
    refine ⟨sound.root, fun p name hat => ?_⟩
    obtain ⟨a, ha, hdir⟩ := sound.root
    obtain ⟨b, hb, hdown⟩ := sound.child p name rootInode hat
    obtain rfl := Option.some.inj (ha.symm.trans hb)
    obtain ⟨c, hc, -⟩ := sound.parent p name rootInode hat
    exact absurd (hdown hdir).1 (Nat.not_lt.mpr (sound.inode p c hc).2.1)
  refers p name i hat := by
    obtain ⟨a, ha, -⟩ := sound.child p name i hat
    exact ⟨a, ha⟩
  holds := sound.parent
  dir i a ha hdir hroot := by
    obtain ⟨p, name, hat, hparents⟩ := homed i a ha hdir hroot
    refine ⟨p, name, hparents, fun q m => ⟨fun h => ?_, fun h => h.1 ▸ h.2 ▸ hat⟩⟩
    exact sound.single i a ha hdir q m p name h hat
  file i a ha hfile := by
    obtain ⟨names, hnames, hne, hparents, hlength⟩ := sound.named i a ha hfile
    exact ⟨names, hnames, hlength ▸ List.length_pos_of_ne_nil hne, hlength, hparents⟩
  rooted i a ha := sound.rooted homed ha
  given i a ha := (sound.inode i a ha).2.2

/-- Whatever is done to a namespace, granted or refused, it stays intact, and an inode that was
given out and is not in use any more is never given out again. -/
theorem intact_after (edits : List Edit) :
    (rootOnly.after edits).Intact ∧
    ∀ later i, i < (rootOnly.after edits).nextInode → (rootOnly.after edits).attr? i = none →
      (rootOnly.after (edits ++ later)).attr? i = none := by
  have hsteps := steps_after edits rootOnly
  have hreach := Reachable.root.steps hsteps
  refine ⟨hreach.sound.intact (hsteps.homed .root homed_rootOnly), fun later i hi hnone => ?_⟩
  have hmore : rootOnly.after (edits ++ later) = (rootOnly.after edits).after later :=
    List.foldl_append
  rw [hmore]
  exact ((steps_after later _).later hreach).unused i hi hnone

end ShardSweep.Tree
