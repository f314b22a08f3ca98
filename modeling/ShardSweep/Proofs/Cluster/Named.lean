import ShardSweep.Proofs.Cluster.Intact
import ShardSweep.Proofs.Path

/-!
# Names that paths can go through

A service cuts a path at its slashes and skips what is empty.  Of a path that was written down from
names without slashes it reads just these names, so it finds there what they lead to.

All directories and files are created under names like that.  As long as files are linked under no
others, every entry of a namespace has one.

* `Tree.lookup_text`: what is found at a path that was written down;
* `Tree.at_after`: only a link can have brought an entry with another name;
* `Tree.wellNamed_after`: what is done to a namespace keeps its names good.
-/

namespace ShardSweep.Tree

variable {t t' : Tree} {p i : Inode} {name : String} {ns : List String}

theorem isName_iff : isName name = true ↔ name ≠ "" ∧ '/' ∉ name.toList := by
  simp [isName]

theorem isName_of_plain (plain : Path.Plain name) : isName name = true :=
  isName_iff.mpr ⟨plain.nonempty, plain.whole⟩

/-- The names of a path that was written down are read again. -/
theorem names_text (good : ∀ name ∈ ns, isName name = true) : names (Path.text ns) = ns := by
  cases hns : ns with
  | nil => rfl
  | cons n rest =>
    rw [← hns, names, Path.split_text (by simp [hns]) fun m hm => (isName_iff.mp (good m hm)).2]
    have hfilter : ns.filter (· ≠ "") = ns :=
      List.filter_eq_self.mpr fun m hm => by simpa using (isName_iff.mp (good m hm)).1
    simpa using hfilter

/-- At a path that was written down is what its names lead to. -/
theorem lookup_text (good : ∀ name ∈ ns, isName name = true) :
    t.lookup (Path.text ns) = t.lookupNames rootInode ns := by
  rw [lookup, names_text good]

/-- A path can go through the name of every entry. -/
def WellNamed (t : Tree) : Prop :=
  ∀ p name i, t.At p name i → isName name = true

/-- A change that gives a file only a name that a path can go through. -/
def Edit.WellNamed : Edit → Prop
  | .link _ name _ => isName name = true
  | _ => True

/-- A new node has a good name. -/
private theorem at_insert {kind : Kind} {length : UInt64} {parent j : Inode} {m : String}
    (sound : t.Sound) (h : t.insert parent m kind length = .ok (j, t')) (hat : t'.At p name i) :
    t.At p name i ∨ isName name = true := by
  obtain ⟨hgains, hgood, -⟩ := insert_eq_ok sound.fresh h
  rcases (hgains.names p name i).mp hat with hat | ⟨-, rfl, -⟩
  · exact .inl hat
  · exact .inr hgood

/-- What an operation leaves was there before, or the operation succeeded. -/
private theorem at_orSame {r : Except Status Tree} (hat : (t.orSame r).At p name i) :
    t.At p name i ∨ ∃ t', r = .ok t' ∧ t'.At p name i := by
  cases r with
  | error status => exact .inl hat
  | ok t' => exact .inr ⟨t', rfl, hat⟩

private theorem at_orSame_insert {kind : Kind} {length : UInt64} {parent : Inode} {m : String}
    (sound : t.Sound)
    (hat : (t.orSame ((t.insert parent m kind length).map Prod.snd)).At p name i) :
    t.At p name i ∨ isName name = true := by
  obtain hat | ⟨t', hmade, hat⟩ := at_orSame hat
  · exact .inl hat
  · cases hinsert : t.insert parent m kind length with
    | error status =>
      rw [hinsert] at hmade
      cases hmade
    | ok made =>
      rw [hinsert] at hmade
      obtain rfl := Except.ok.inj hmade
      exact at_insert sound hinsert hat

/-- Missing directories are created under good names, whichever the path. -/
private theorem at_makeNames (ns : List String) (reachable : t.Reachable) (dir : Inode)
    (hat : (t.makeNames dir ns).2.At p name i) : t.At p name i ∨ isName name = true := by
  induction ns generalizing t dir with
  | nil => exact .inl hat
  | cons m ns ih =>
    unfold makeNames at hat
    cases hchild : t.child dir m with
    | ok j =>
      rw [hchild] at hat
      exact ih reachable j hat
    | error status =>
      rw [hchild] at hat
      cases hmkdir : t.mkdir dir m with
      | error status =>
        rw [hmkdir] at hat
        exact .inl hat
      | ok made =>
        rw [hmkdir] at hat
        obtain hat | hgood := ih (reachable.mkdir hmkdir) made.1 hat
        · exact at_insert reachable.sound hmkdir hat
        · exact .inr hgood

/-- An entry that a change brings has a good name, or the change was to give a file this name. -/
theorem Edit.at_apply {edit : Edit} (reachable : t.Reachable) (hat : (edit.apply t).At p name i) :
    t.At p name i ∨ isName name = true ∨ edit = .link p name i := by
  have sound := reachable.sound
  cases edit with
  | mkdir parent m | create parent m length =>
    exact (at_orSame_insert sound hat).imp_right .inl
  | link parent m target =>
    obtain hat | ⟨t', hlink, hat⟩ := at_orSame hat
    · exact .inl hat
    · obtain hat | ⟨rfl, rfl, rfl⟩ := ((link_eq_ok hlink).1.names p name i).mp hat
      · exact .inl hat
      · exact .inr (.inr rfl)
  | makePath path => exact (at_makeNames (names path) reachable rootInode hat).imp_right .inl
  | removeFile parent m =>
    obtain hat | ⟨t', hremove, hat⟩ := at_orSame hat
    · exact .inl hat
    · obtain ⟨j, a, hloses, -⟩ := removeFile_eq_ok sound hremove
      exact .inl ((hloses.names p name i).mp hat).1
  | removeDir parent m =>
    obtain hat | ⟨t', hremove, hat⟩ := at_orSame hat
    · exact .inl hat
    · obtain ⟨j, a, hloses, -⟩ := removeDir_eq_ok sound hremove
      exact .inl ((hloses.names p name i).mp hat).1

/-- Whatever is done to a namespace, an entry has a good name unless a file was linked there. -/
theorem at_after {edits : List Edit} (hat : (rootOnly.after edits).At p name i) :
    isName name = true ∨ .link p name i ∈ edits := by
  have hall : ∀ t : Tree, t.Reachable → (t.after edits).At p name i →
      t.At p name i ∨ isName name = true ∨ .link p name i ∈ edits := by
    clear hat
    induction edits with
    | nil => exact fun t _ hat => .inl hat
    | cons edit edits ih =>
      intro t reachable hat
      obtain hat | hgood | hlinked := ih (edit.apply t) (reachable.steps (edit.apply_steps t)) hat
      · obtain hat | hgood | rfl := Edit.at_apply reachable hat
        · exact .inl hat
        · exact .inr (.inl hgood)
        · exact .inr (.inr List.mem_cons_self)
      · exact .inr (.inl hgood)
      · exact .inr (.inr (List.mem_cons_of_mem _ hlinked))
  exact (hall rootOnly .root hat).resolve_left not_at_rootOnly

/-- As long as files are linked under good names only, all names are good. -/
theorem wellNamed_after {edits : List Edit} (good : ∀ edit ∈ edits, edit.WellNamed) :
    (rootOnly.after edits).WellNamed := by
  intro p name i hat
  obtain hname | hlinked := at_after hat
  · exact hname
  · exact good _ hlinked

end ShardSweep.Tree
