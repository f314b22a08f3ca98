import Mathlib.Data.List.Basic
import ShardSweep.Proofs.Cluster.Subtree

/-!
# Trees that lose entries

What a tree looks like after some of its entries were removed, one after another: the others
are still there, a file lives as long as it has a name left and counts what it has lost, and a
directory that was removed had lost everything in it before.

* `Tree.Drops`: one entry is removed;
* `Tree.Removes`: some entries are removed, the latest first in the list;
* `Tree.Without`: the tree that is left, as each step leaves it;
* `Tree.Removes.closed`: a directory is removed after all that was in it;
* `Tree.Cleared`, `Tree.Removes.cleared`: the tree that is left, seen from outside.
-/

namespace ShardSweep

/-- What is left of the attributes of a file that loses several names. -/
def Attr.withoutAll (a : Attr) (ps : List Inode) : Attr :=
  { a with nlink := a.nlink - ps.length, parents := a.parents.diff ps }

/-- Names are lost one after another. -/
theorem Attr.withoutAll_cons (a : Attr) (p : Inode) (ps : List Inode) :
    a.withoutAll (p :: ps) = (a.withoutAll ps).without p := by
  simp only [withoutAll, without, List.length_cons, List.diff_cons_right, Nat.sub_sub]

/-- The directories in which an inode has lost a name. -/
def lostNames (gone : List Entry) (i : Inode) : List Inode :=
  (gone.filter (·.inode == i)).map Entry.parent

namespace Tree

variable {t t' t₀ : Tree} {e e' : Entry} {gone : List Entry} {i p : Inode} {name : String}

/-- One entry is removed, with what it named if that has no name left. -/
structure Drops (t : Tree) (e : Entry) (t' : Tree) : Prop where
  has : t.Has e
  loses : t.Loses e.parent e.name e.inode t'
  file : ∀ a, t.attr? e.inode = some a → a.kind = .file →
    t'.attr? e.inode = if a.nlink - 1 = 0 then none else some (a.without e.parent)
  dir : ∀ a, t.attr? e.inode = some a → a.kind = .dir →
    (∀ name j, ¬ t.At e.inode name j) ∧ t'.attr? e.inode = none

/-- A name in a directory has one entry. -/
theorem Has.unique (h : t.Has e) (h' : t.Has e') (parent : e.parent = e'.parent)
    (name : e.name = e'.name) : e = e' := by
  obtain ⟨hat, a, ha, hkind⟩ := h
  obtain ⟨hat', a', ha', hkind'⟩ := h'
  have hinode : e.inode = e'.inode := by
    rw [parent, name] at hat
    exact hat.unique hat'
  have hsame : e.kind = e'.kind := by
    rw [hinode] at ha
    obtain rfl := Option.some.inj (ha.symm.trans ha')
    exact hkind.symm.trans hkind'
  cases e
  cases e'
  simp_all

/-- The removal of a file drops one entry. -/
theorem Sound.drops_of_removeFile (sound : t.Sound) (h : t.removeFile p name = .ok t') :
    ∃ i, t.Drops ⟨name, i, p, .file⟩ t' := by
  obtain ⟨i, a, hloses, ha, hfile, hattr⟩ := removeFile_eq_ok sound h
  refine ⟨i, ⟨hloses.had, a, ha, hfile⟩, hloses, ?_, ?_⟩
  · intro b hb _
    obtain rfl := Option.some.inj (ha.symm.trans hb)
    exact hattr
  · intro b hb hdir
    obtain rfl := Option.some.inj (ha.symm.trans hb)
    rw [hfile] at hdir
    cases hdir

/-- So does the removal of a directory. -/
theorem Sound.drops_of_removeDir (sound : t.Sound) (h : t.removeDir p name = .ok t') :
    ∃ i, t.Drops ⟨name, i, p, .dir⟩ t' := by
  obtain ⟨i, a, hloses, ha, hdir, hempty, hattr⟩ := removeDir_eq_ok sound h
  refine ⟨i, ⟨hloses.had, a, ha, hdir⟩, hloses, ?_, ?_⟩
  · intro b hb hfile
    obtain rfl := Option.some.inj (ha.symm.trans hb)
    rw [hdir] at hfile
    cases hfile
  · intro b hb _
    exact ⟨hempty, hattr⟩

/-- A tree that drops an entry stays sound. -/
theorem Drops.sound (drops : t.Drops e t') (sound : t.Sound) : t'.Sound := by
  obtain ⟨hat, a, ha, -⟩ := drops.has
  exact sound.loses drops.loses ha (drops.file a ha) (drops.dir a ha)

/-- Some entries are removed, the latest first in the list. -/
inductive Removes (t₀ : Tree) : List Entry → Tree → Prop
  | nil : Removes t₀ [] t₀
  | cons {gone : List Entry} {t t' : Tree} {e : Entry} (before : Removes t₀ gone t)
      (drops : t.Drops e t') : Removes t₀ (e :: gone) t'

/-- The tree that is left without some of the entries. -/
structure Without (t₀ : Tree) (gone : List Entry) (t : Tree) : Prop where
  names : ∀ p name i, t.At p name i ↔
    t₀.At p name i ∧ ∀ e ∈ gone, ¬ (p = e.parent ∧ name = e.name)
  dirs : ∀ i a, t₀.attr? i = some a → a.kind = .dir →
    t.attr? i = if ∃ e ∈ gone, e.inode = i then none else some a
  files : ∀ i a, t₀.attr? i = some a → a.kind = .file →
    t.attr? i = if a.nlink - (lostNames gone i).length = 0 then none
      else some (a.withoutAll (lostNames gone i))
  others : ∀ i, t₀.attr? i = none → t.attr? i = none

namespace Without

/-- An inode that loses one more name loses it in that directory. -/
private theorem lostNames_cons_self :
    lostNames (e :: gone) e.inode = e.parent :: lostNames gone e.inode := by
  simp [lostNames]

/-- The other inodes lose nothing by it. -/
private theorem lostNames_cons_of_ne (h : i ≠ e.inode) :
    lostNames (e :: gone) i = lostNames gone i := by
  simp [lostNames, Ne.symm h]

/-- What is left after one more entry was removed. -/
theorem cons (h : t₀.Without gone t) (drops : t.Drops e t') : t₀.Without (e :: gone) t' := by
  obtain ⟨hat, b, hb, hkind⟩ := drops.has
  refine ⟨?_, ?_, ?_, ?_⟩
  · intro p name i
    rw [drops.loses.names, h.names, List.forall_mem_cons, and_assoc, and_comm (b := ¬ _)]
  · intro i a ha hdir
    have hold := h.dirs i a ha hdir
    by_cases hi : i = e.inode
    · subst hi
      have hgone : ¬ ∃ x ∈ gone, x.inode = e.inode := by
        intro hgone
        rw [hb, if_pos hgone] at hold
        cases hold
      rw [hb, if_neg hgone] at hold
      obtain rfl := Option.some.inj hold
      rw [(drops.dir b hb hdir).2, if_pos ⟨e, List.mem_cons_self, rfl⟩]
    · rw [drops.loses.others i hi, hold]
      simp [Ne.symm hi]
  · intro i a ha hfile
    have hold := h.files i a ha hfile
    by_cases hi : i = e.inode
    · subst hi
      rw [hb] at hold
      split at hold
      · cases hold
      · obtain rfl := Option.some.inj hold
        rw [drops.file _ hb hfile, lostNames_cons_self, Attr.withoutAll_cons, List.length_cons,
          Nat.sub_add_eq]
        rfl
    · rw [drops.loses.others i hi, hold, lostNames_cons_of_ne hi]
  · intro i hnone
    have hold := h.others i hnone
    rw [drops.loses.others i, hold]
    intro heq
    subst heq
    rw [hb] at hold
    cases hold

/-- What is left of an inode is of the same kind. -/
theorem kind_eq (h : t₀.Without gone t) {a : Attr} (ha : t.attr? i = some a) :
    ∃ b, t₀.attr? i = some b ∧ b.kind = a.kind := by
  cases hb : t₀.attr? i with
  | none =>
    rw [h.others i hb] at ha
    cases ha
  | some b =>
    refine ⟨b, rfl, ?_⟩
    cases hkind : b.kind with
    | dir =>
      rw [h.dirs i b hb hkind] at ha
      split at ha
      · cases ha
      · rw [← Option.some.inj ha, hkind]
    | file =>
      rw [h.files i b hb hkind] at ha
      split at ha
      · cases ha
      · rw [← Option.some.inj ha, ← hkind]
        rfl

/-- What is left was there, and is not among what was removed. -/
theorem has (h : t₀.Without gone t) (has : t.Has e) : t₀.Has e ∧ e ∉ gone := by
  obtain ⟨hat, a, ha, hkind⟩ := has
  obtain ⟨hat₀, hleft⟩ := (h.names _ _ _).mp hat
  obtain ⟨b, hb, hsame⟩ := h.kind_eq ha
  exact ⟨⟨hat₀, b, hb, hsame.trans hkind⟩, fun he => hleft e he ⟨rfl, rfl⟩⟩

end Without

namespace Removes

/-- A tree that loses entries stays sound. -/
theorem sound (h : t₀.Removes gone t) (sound : t₀.Sound) : t.Sound := by
  induction h with
  | nil => exact sound
  | cons _ drops ih => exact drops.sound ih

/-- What is left, as each removal leaves it. -/
theorem without (h : t₀.Removes gone t) (sound : t₀.Sound) : t₀.Without gone t := by
  induction h with
  | nil =>
    refine ⟨by simp, fun i a ha _ => by simpa using ha, ?_, fun _ h => h⟩
    intro i a ha hfile
    obtain ⟨names, -, hne, -, hlength⟩ := sound.named i a ha hfile
    have hpos := List.length_pos_iff.mpr hne
    rw [if_neg]
    · simpa [Attr.withoutAll, lostNames] using ha
    · simp only [lostNames, List.filter_nil, List.map_nil, List.length_nil]
      omega
  | cons _ drops ih => exact ih.cons drops

/-- What is removed was there. -/
theorem had (h : t₀.Removes gone t) (sound : t₀.Sound) : ∀ e ∈ gone, t₀.Has e := by
  induction h with
  | nil => simp
  | cons before drops ih =>
    intro e' he'
    rcases List.mem_cons.mp he' with rfl | he'
    · exact ((before.without sound).has drops.has).1
    · exact ih e' he'

/-- Nothing is removed twice. -/
theorem nodup (h : t₀.Removes gone t) (sound : t₀.Sound) : gone.Nodup := by
  induction h with
  | nil => exact List.nodup_nil
  | cons before drops ih =>
    exact List.nodup_cons.mpr ⟨((before.without sound).has drops.has).2, ih⟩

/-- An entry is left if it was there and is not among those removed. -/
theorem has_iff (h : t₀.Removes gone t) (sound : t₀.Sound) : t.Has e ↔ t₀.Has e ∧ e ∉ gone := by
  have hwithout := h.without sound
  refine ⟨hwithout.has, ?_⟩
  intro h
  obtain ⟨⟨hat, a, ha, hkind⟩, hleft⟩ := h
  have hstill : t.At e.parent e.name e.inode := by
    refine (hwithout.names _ _ _).mpr ⟨hat, ?_⟩
    intro x hx h
    obtain ⟨hparent, hname⟩ := h
    obtain rfl := Has.unique ⟨hat, a, ha, hkind⟩ (h.had sound x hx) hparent hname
    exact hleft hx
  obtain ⟨b, hb, -⟩ := (h.sound sound).child _ _ _ hstill
  obtain ⟨a', ha', hsame⟩ := hwithout.kind_eq hb
  obtain rfl := Option.some.inj (ha.symm.trans ha')
  exact ⟨hstill, b, hb, hsame.symm.trans hkind⟩

/-- A directory is removed after all that was in it. -/
theorem closed (h : t₀.Removes gone t) (sound : t₀.Sound) (he : e ∈ gone) (isDir : e.kind = .dir)
    (has : t₀.Has e') (inside : e'.parent = e.inode) : e' ∈ gone := by
  induction h with
  | nil => cases he
  | cons before drops ih =>
    rcases List.mem_cons.mp he with rfl | he
    · apply List.mem_cons_of_mem _
      by_contra hleft
      have hstill := (before.has_iff sound).mpr ⟨has, hleft⟩
      obtain ⟨-, a, ha, hkind⟩ := drops.has
      apply (drops.dir a ha (hkind.trans isDir)).1 e'.name e'.inode
      rw [← inside]
      exact hstill.1
    · exact List.mem_cons_of_mem _ (ih he)

/-- A directory is removed after all that was below it. -/
theorem closed_under (h : t₀.Removes gone t) (sound : t₀.Sound) (he : e ∈ gone)
    (isDir : e.kind = .dir) (under : t₀.Under e.inode e') : e' ∈ gone := by
  generalize hi : e.inode = i at under
  induction under generalizing e with
  | here has inside => exact h.closed sound he isDir has (inside.trans hi.symm)
  | deeper has inside isDir' _ ih =>
    have hmem := h.closed sound he isDir has (inside.trans hi.symm)
    exact ih hmem isDir' rfl

/-- A directory that is left and has lost nothing is listed as before. -/
theorem listing_eq (h : t₀.Removes gone t) (sound : t₀.Sound) {a : Attr} (ha : t₀.attr? i = some a)
    (isDir : a.kind = .dir) (left : ∀ e ∈ gone, e.inode ≠ i)
    (whole : ∀ e ∈ t₀.listing i, e ∉ gone) : t.list i = .ok (t₀.listing i) := by
  have hwithout := h.without sound
  have hstill : t.attr? i = some a := by
    rw [hwithout.dirs i a ha isDir, if_neg]
    intro h
    obtain ⟨e, he, hinode⟩ := h
    exact left e he hinode
  have hsame : ∀ name j, t.At i name j ↔ t₀.At i name j := by
    intro name j
    refine ⟨fun hat => ((hwithout.names _ _ _).mp hat).1, ?_⟩
    intro hat
    refine (hwithout.names _ _ _).mpr ⟨hat, ?_⟩
    intro e he h
    obtain ⟨hparent, -⟩ := h
    exact whole e (sound.mem_listing.mpr ⟨hparent.symm, h.had sound e he⟩) he
  rw [list_eq_ok hstill isDir, listing_congr ha hstill isDir isDir hsame]
  intro name j hat
  obtain ⟨b, hb, -⟩ := (h.sound sound).child i name j ((hsame name j).mpr hat)
  obtain ⟨c, hc, hkind⟩ := hwithout.kind_eq hb
  rw [hb, hc, Option.map_some, Option.map_some, hkind]

/-- A file that has a name left is left, and knows what it has lost. -/
theorem attr?_of_has (h : t₀.Removes gone t) (sound : t₀.Sound) {a : Attr}
    (ha : t₀.attr? e.inode = some a) (file : a.kind = .file) (has : t₀.Has e) (left : e ∉ gone) :
    t.attr? e.inode = some (a.withoutAll (lostNames gone e.inode)) := by
  have hfiles := (h.without sound).files _ a ha file
  obtain ⟨-, b, hb, -⟩ := (h.has_iff sound).mpr ⟨has, left⟩
  rw [hb] at hfiles ⊢
  split at hfiles
  · cases hfiles
  · exact hfiles

/-- A file that has no name left is freed. -/
theorem attr?_eq_none (h : t₀.Removes gone t) (sound : t₀.Sound) {a : Attr}
    (ha : t₀.attr? i = some a) (file : a.kind = .file)
    (lost : ∀ e, t₀.Has e → e.inode = i → e ∈ gone) : t.attr? i = none := by
  cases hb : t.attr? i with
  | none => rfl
  | some b =>
    obtain ⟨a', ha', hkind⟩ := (h.without sound).kind_eq hb
    obtain rfl := Option.some.inj (ha.symm.trans ha')
    obtain ⟨names, hnames, hne, -⟩ := (h.sound sound).named i b hb (hkind.symm.trans file)
    obtain ⟨⟨p, name⟩, hmem⟩ := List.exists_mem_of_ne_nil names hne
    have hat := (hnames.mem_iff p name).mp hmem
    have hhas : t.Has ⟨name, i, p, b.kind⟩ := ⟨hat, b, hb, rfl⟩
    obtain ⟨hhas₀, hleft⟩ := (h.has_iff sound).mp hhas
    exact absurd (lost _ hhas₀ rfl) hleft

end Removes

/-- Just some entries are gone from a tree.  Directories go with their entry, and files with
their last one; a file with a name left has forgotten the others. -/
structure Cleared (t : Tree) (gone : List Entry) (t' : Tree) : Prop where
  names : ∀ p name i, t'.At p name i ↔ t.At p name i ∧ ∀ e ∈ gone, ¬ (p = e.parent ∧ name = e.name)
  dirs : ∀ i a, t.attr? i = some a → a.kind = .dir →
    t'.attr? i = if ∃ e ∈ gone, e.inode = i then none else some a
  survives : ∀ e a, t.Has e → e ∉ gone → t.attr? e.inode = some a → a.kind = .file →
    t'.attr? e.inode = some (a.withoutAll (lostNames gone e.inode))
  freed : ∀ i a, t.attr? i = some a → a.kind = .file → (∀ e, t.Has e → e.inode = i → e ∈ gone) →
    t'.attr? i = none

/-- What is left, seen from outside. -/
theorem Removes.cleared (h : t₀.Removes gone t) (sound : t₀.Sound) : t₀.Cleared gone t where
  names := (h.without sound).names
  dirs := (h.without sound).dirs
  survives _ _ has left ha file := h.attr?_of_has sound ha file has left
  freed _ _ ha file lost := h.attr?_eq_none sound ha file lost

end Tree

end ShardSweep
