import ShardSweep.Proofs.Cluster.Intact
import ShardSweep.Proofs.Path
import ShardSweep.Proofs.Sweep.Delete
import ShardSweep.Proofs.Sweep.Lookup

/-!
# What a deletion by path removes

A path is taken apart, the names before the last one are written as a path again, and that path
is taken apart once more.  What is deleted is the directory with the last name in the directory
that the second path leads to.  The two paths agree unless the name before the last ends in a
blank.

* `Removal.exists_removed`: the deletion of a directory that is there;
* `Sweep.deletePath_cases`: a deletion by path finds its directory, or fails and changes nothing;
* `Sweep.deletePath_removes`: what it removes, if the second path is known;
* `Sweep.deletePath_removes_named`: what it removes, if the two paths agree;
* `Sweep.deletePath_takes_twin`: what it removes if they do not.
-/

namespace ShardSweep

/-- A removal that is sure to succeed, from a service that has the same names, has an outcome after
finitely many moves.  It removes the directory and all that is below it, and nothing else. -/
theorem Removal.exists_removed (R : Removal) (sure : R.sure) {d : Deployment}
    (same : R.service.SameNames d.service) (calm : (Deployment.clientPart.get d).Calm R.client)
    {schedule : Deployment → Schedule Deployment}
    (alone : ∀ now change, schedule d now ≠ some (.outside change)) :
    ∃ bound, ∀ budget, bound ≤ budget → ∃ gone d',
      Sweep.delete (Deployment.metadata R.client) ⟨schedule, budget⟩ R.plan.fs R.root.parent
        R.root.inode R.root.name R.plan.epoch R.plan.threads d = (some (.ok gone.length), d') ∧
      gone.Perm R.targets ∧ R.service.Lost R.plan.fs R.filesystem gone d'.service := by
  have hmade : WalkPlan.make R.plan.fs R.plan.epoch R.plan.threads = .ok R.plan :=
    dif_pos ⟨R.plan.threads_pos, R.plan.threads_le⟩
  have haccepted := Sweep.checkTarget_eq_ok R.sound R.has
  have hstart : R.ledger.books ⟨d, false⟩ 0 0 :=
    ⟨rfl, ⟨[], R.tree, rfl, (Service.Left.start R.found).same same⟩, fun _ => calm⟩
  have halone := Runner.alone_withFlag ⟨schedule, 0⟩ alone false
  obtain ⟨bound, hbound⟩ := R.fits.exists_settled R.within_sameFlag sure hstart rfl halone
  refine ⟨bound, ?_⟩
  intro budget hbudget
  obtain ⟨last, hlast, hresult, hbooks⟩ := hbound budget hbudget
  obtain ⟨gone, hgone, hlost⟩ := R.lost_of_books hbooks
  have hcount := hbooks.1
  rw [R.all_eq] at hgone hcount
  have hperm : gone.Perm R.targets := Multiset.coe_eq_coe.mp hgone
  refine ⟨gone, last.shared.store.inner, ?_, hperm, hlost⟩
  have hrun : R.walk.run (Runner.withFlag ⟨schedule, budget⟩) R.root ⟨d, false⟩ 0 = last := hlast
  rw [Sweep.delete_walk (Deployment.metadata R.client) _ haccepted hmade d hrun, hresult,
    hperm.length_eq, ← hcount]
  rfl

namespace Sweep

variable {c : Client} {d : Deployment} {fs : FsId} {f : Filesystem} {path name : String}
  {names parents : List String} {threads : Nat}

/-- The directory of some name in a directory, as a deletion by path looks for it. -/
def target {σ : Type} (metadata : Metadata σ) (fs : FsId) (parent : Inode) (name path : String)
    (epoch : Epoch) : Sweep σ Inode := do
  let entries ← ask metadata (.listEntries fs parent epoch)
  match entries.find? (·.name == name) with
  | none => fail (.notFound parent name)
  | some entry =>
    if entry.kind.isDir then pure entry.inode else fail (.notADirectory (Text.strip path))

/-- A deletion by path whose arguments are accepted looks for a directory and for another one in
it, which it deletes. -/
theorem deletePath_eq {σ : Type} {metadata : Metadata σ} {runner : Runner σ}
    (goes : Path.components path = .ok names) (last : names.getLast? = some name)
    (accepted : checkThreads threads = .ok ()) :
    deletePath metadata runner fs path threads = (do
      let info ← ask metadata (.getFsInfo fs)
      prepare metadata fs
      let parent ← resolveDir metadata fs (Path.text names.dropLast) info.epoch
      let dir ← target metadata fs parent name path info.epoch
      delete metadata runner fs parent dir name info.epoch threads) := by
  simp only [deletePath, target, goes, last, accept, accepted, pure_bind, bind_assoc]
  refine bind_congr fun info => bind_congr fun _ => bind_congr fun parent => ?_
  refine bind_congr fun entries => ?_
  cases entries.find? (·.name == name) with
  | none => rfl
  | some entry => by_cases hdir : entry.kind.isDir = true <;> simp only [hdir] <;> rfl

/-- The directory is found that has the name. -/
theorem target_sought (sound : f.tree.Sound) {epoch : Epoch} (current : epoch = f.epoch)
    (found : d.service.filesystem? fs = some f) (calm : (Deployment.clientPart.get d).Calm c)
    {parent : Inode} (isDir : f.tree.IsDir parent) (name path : String) :
    Sought c d f.tree (f.tree.At parent name)
      (target (Deployment.metadata c) fs parent name path epoch d) := by
  obtain ⟨a, ha, hdir⟩ := isDir
  have hserve : ∀ s, d.service.SameNames s → s.Calm c →
      (s.serve (.listEntries fs parent epoch)).1 = .ok (f.tree.listing parent) := by
    intro s hsame hcalm
    have hfound := (hsame.filesystem?_eq fs).trans found
    rw [(Service.Left.start hfound).listEntries_eq current (hcalm.lists parent)]
    exact Tree.list_eq_ok ha hdir
  obtain ⟨d', hlist, hsame, hcalm⟩ := ask_answered (i := parent) rfl (fun _ => rfl) calm hserve
  rw [target, bind_eq_of_ok hlist]
  cases hfind : (f.tree.listing parent).find? (·.name == name) with
  | none => exact .missing (fun x hx => absurd hx (sound.not_at_of_find? hfind)) hsame
  | some e =>
    obtain ⟨hat, b, hb, hkind⟩ := sound.at_of_find? hfind
    cases he : e.kind with
    | dir =>
      simp only [he, Kind.isDir, if_true]
      exact .found hat ⟨b, hb, hkind.trans he⟩ hsame hcalm
    | file =>
      simp only [he, Kind.isDir, Bool.false_eq_true, if_false]
      refine .missing ?_ hsame
      intro x hx hisDir
      obtain rfl := hat.unique hx
      obtain ⟨b', hb', hbdir⟩ := hisDir
      obtain rfl := Option.some.inj (hb.symm.trans hb')
      rw [hkind, he] at hbdir
      cases hbdir

/-- A deletion by path finds the directory that the second path and the last name lead to, and
deletes it; or there is none, and it fails. -/
theorem deletePath_cases (quiet : d.Quiet c) (numbered : fs ≠ 0)
    (found : d.service.filesystem? fs = some f)
    (cached : ∀ info, d.cache.get? fs = some info → info.epoch = f.epoch) (sound : f.tree.Sound)
    (goes : Path.components path = .ok names) (last : names.getLast? = some name)
    (rebuilt : Path.components (Path.text names.dropLast) = .ok parents)
    (inRange : 1 ≤ threads ∧ threads ≤ maxThreads) :
    (∃ parent x d', f.tree.lookupNames rootInode (parents ++ [name]) = some x ∧
      f.tree.At parent name x ∧ f.tree.IsDir x ∧ d.service.SameNames d'.service ∧
      (Deployment.clientPart.get d').Calm c ∧
      ∀ runner, deletePath (Deployment.metadata c) runner fs path threads d =
        delete (Deployment.metadata c) runner fs parent x name f.epoch threads d') ∨
    (∃ h d', (∀ x, f.tree.lookupNames rootInode (parents ++ [name]) = some x → ¬ f.tree.IsDir x) ∧
      d.service.SameNames d'.service ∧
      ∀ runner, deletePath (Deployment.metadata c) runner fs path threads d =
        (some (.error h), d')) := by
  have hthreads : checkThreads threads = .ok () := (checkThreads_eq_ok_iff threads).mpr inRange
  obtain ⟨info, d₁, hinfo, hepoch, hsame₁, hquiet⟩ := ask_info quiet found cached
  obtain ⟨d₂, hprepare, hsame₂, hcalm₂⟩ := prepare_ready hquiet numbered
  have hsame := hsame₁.trans hsame₂
  have hfound := (hsame.filesystem?_eq fs).trans found
  have hparent := resolveDir_sought sound hepoch rebuilt hfound hcalm₂
  generalize hresolve : resolveDir (Deployment.metadata c) fs (Path.text names.dropLast) info.epoch
    d₂ = result at hparent
  cases hparent with
  | @missing h d₃ nowhere hsame₃ =>
    refine .inr ⟨h, d₃, ?_, hsame.trans hsame₃, ?_⟩
    · intro x hx
      obtain ⟨parent, hparent, hchild⟩ := Tree.lookupNames_concat.mp hx
      exact absurd (Tree.isDir_of_child hchild) (nowhere parent hparent)
    · intro runner
      rw [deletePath_eq goes last hthreads, bind_eq_of_ok hinfo, bind_eq_of_ok hprepare,
        bind_eq_of_error hresolve]
  | @found parent d₃ leads isDir hsame₃ hcalm₃ =>
    have hfound₃ := (hsame₃.filesystem?_eq fs).trans hfound
    have hdir := target_sought sound hepoch hfound₃ hcalm₃ isDir name path
    generalize htarget : target (Deployment.metadata c) fs parent name path info.epoch d₃ = result
      at hdir
    cases hdir with
    | @missing h d₄ nowhere hsame₄ =>
      refine .inr ⟨h, d₄, ?_, (hsame.trans hsame₃).trans hsame₄, ?_⟩
      · intro x hx
        obtain ⟨p, hp, hchild⟩ := Tree.lookupNames_concat.mp hx
        obtain rfl := Option.some.inj (hp.symm.trans leads)
        exact nowhere x (Tree.at_of_child hchild)
      · intro runner
        rw [deletePath_eq goes last hthreads, bind_eq_of_ok hinfo, bind_eq_of_ok hprepare,
          bind_eq_of_ok hresolve, bind_eq_of_error htarget]
    | @found x d₄ hat isDir hsame₄ hcalm₄ =>
      have hx := Tree.lookupNames_concat.mpr ⟨parent, leads, sound.child_eq hat⟩
      refine .inl ⟨parent, x, d₄, hx, hat, isDir, (hsame.trans hsame₃).trans hsame₄, hcalm₄, ?_⟩
      intro runner
      rw [deletePath_eq goes last hthreads, bind_eq_of_ok hinfo, bind_eq_of_ok hprepare,
        bind_eq_of_ok hresolve, bind_eq_of_ok htarget, hepoch]

/-- What a deletion by path removes: the directory that the second path and the last name lead to,
with all that is below it.  If they lead to none, it fails and removes nothing. -/
theorem deletePath_removes {schedule : Deployment → Schedule Deployment} (quiet : d.Quiet c)
    (numbered : fs ≠ 0) (found : d.service.filesystem? fs = some f)
    (cached : ∀ info, d.cache.get? fs = some info → info.epoch = f.epoch) (sound : f.tree.Sound)
    (goes : Path.components path = .ok names) (last : names.getLast? = some name)
    (rebuilt : Path.components (Path.text names.dropLast) = .ok parents)
    (inRange : 1 ≤ threads ∧ threads ≤ maxThreads)
    (alone : ∀ s now change, schedule s now ≠ some (.outside change)) :
    (∀ x, f.tree.lookupNames rootInode (parents ++ [name]) = some x → f.tree.IsDir x →
      ∃ bound, ∀ budget, bound ≤ budget → ∃ gone d',
        deletePath (Deployment.metadata c) ⟨schedule, budget⟩ fs path threads d =
          (some (.ok gone.length), d') ∧ gone.Nodup ∧
        (∀ e, e ∈ gone ↔ f.tree.Has e ∧ e.inode = x ∨ f.tree.Under x e) ∧
        d.service.Lost fs f gone d'.service) ∧
    ((∀ x, f.tree.lookupNames rootInode (parents ++ [name]) = some x → ¬ f.tree.IsDir x) →
      ∀ budget, ∃ h d', deletePath (Deployment.metadata c) ⟨schedule, budget⟩ fs path threads d =
        (some (.error h), d') ∧ d.service.SameNames d'.service) := by
  rcases deletePath_cases quiet numbered found cached sound goes last rebuilt inRange with
    ⟨parent, x, d', hx, hat, hdir, hsame, hcalm, hdelete⟩ | ⟨h, d', hnowhere, hsame, hfails⟩
  · refine ⟨?_, fun hnowhere => absurd hdir (hnowhere x hx)⟩
    intro y hy _
    obtain rfl := Option.some.inj (hx.symm.trans hy)
    let plan : WalkPlan := ⟨fs, f.epoch, threads, inRange.1, inRange.2⟩
    let root : Dir := ⟨x, parent, name⟩
    have hhas : f.tree.Has root.entry := ⟨hat, hdir⟩
    let R : Removal := ⟨c, d.service, plan, f, found, sound, root, hhas, True, fun _ => rfl⟩
    obtain ⟨bound, hbound⟩ := R.exists_removed trivial hsame hcalm (alone d')
    refine ⟨bound, ?_⟩
    intro budget hbudget
    obtain ⟨gone, d'', hrun, hperm, hlost⟩ := hbound budget hbudget
    refine ⟨gone, d'', (hdelete _).trans hrun, hperm.nodup_iff.mpr R.nodup_targets, ?_, hlost⟩
    intro e
    rw [hperm.mem_iff, R.mem_targets]
    refine or_congr_left ⟨?_, fun h => sound.eq_entry h.1 hhas h.2⟩
    intro heq
    rw [heq]
    exact ⟨hhas, rfl⟩
  · refine ⟨fun x hx hdir => absurd hdir (hnowhere x hx), ?_⟩
    intro _ budget
    exact ⟨h, d', hfails _, hsame⟩

/-- A deletion by path removes the directory that its names lead to and all that is below it, and
nothing else; if they lead to a file or to nothing, it fails and removes nothing.  The name before
the last may not end in a blank. -/
theorem deletePath_removes_named {schedule : Deployment → Schedule Deployment} (quiet : d.Quiet c)
    (numbered : fs ≠ 0) (found : d.service.filesystem? fs = some f)
    (cached : ∀ info, d.cache.get? fs = some info → info.epoch = f.epoch)
    (reachable : f.tree.Reachable) (goes : Path.components path = .ok names) (below : names ≠ [])
    (tidy : ∀ name, names.dropLast.getLast? = some name →
      ∀ c, name.toList.getLast? = some c → Text.isBlank c = false)
    (inRange : 1 ≤ threads ∧ threads ≤ maxThreads)
    (alone : ∀ s now change, schedule s now ≠ some (.outside change)) :
    (∀ x, f.tree.lookupNames rootInode names = some x → f.tree.IsDir x →
      ∃ bound, ∀ budget, bound ≤ budget → ∃ gone d',
        deletePath (Deployment.metadata c) ⟨schedule, budget⟩ fs path threads d =
          (some (.ok gone.length), d') ∧ gone.Nodup ∧
        (∀ e, e ∈ gone ↔ f.tree.Has e ∧ e.inode = x ∨ f.tree.Under x e) ∧
        d.service.Lost fs f gone d'.service) ∧
    ((∀ x, f.tree.lookupNames rootInode names = some x → ¬ f.tree.IsDir x) →
      ∀ budget, ∃ h d', deletePath (Deployment.metadata c) ⟨schedule, budget⟩ fs path threads d =
        (some (.error h), d') ∧ d.service.SameNames d'.service) := by
  have hplain : ∀ name ∈ names.dropLast, Path.Plain name :=
    fun name hname => Path.plain_of_components goes name (List.mem_of_mem_dropLast hname)
  have hrebuilt := Path.components_text hplain tidy
  have hremoves := deletePath_removes quiet numbered found cached reachable.sound goes
    (List.getLast?_eq_some_getLast below) hrebuilt inRange alone
  rwa [List.dropLast_append_getLast below] at hremoves

end Sweep

/-! Two directories whose names differ in a blank at the end, and in each of them a directory of the
same name. -/

/-- The directory without the blank is 3, and the one in it 5. -/
def Tree.twins : Tree :=
  rootOnly.after [.mkdir rootInode "a ", .mkdir rootInode "a", .mkdir 2 "b", .mkdir 3 "b"]

def Filesystem.twins : Filesystem :=
  ⟨"fs1", .first, .twins⟩

/-- The service with a client that has not asked for anything. -/
def Deployment.twins : Deployment :=
  .fresh ((Service.new 1 "fs1").putFilesystem 1 .twins)

/-- The two were built by operations. -/
theorem Tree.reachable_twins : Tree.twins.Reachable :=
  Reachable.root.steps (steps_after _ _)

/-- Nothing is in the way of a fresh client. -/
theorem Deployment.quiet_twins : Deployment.twins.Quiet .sample where
  shards := by
    have hcalm := Deployment.calm_sample.service
    exact ⟨rfl, rfl, rfl, Nat.zero_le _, fun _ => rfl, fun _ => rfl, hcalm.reach⟩
  coordinators := ⟨_, _, rfl, List.not_mem_nil⟩
  idle _ h := absurd h List.not_mem_nil

theorem Deployment.not_cached_twins (epoch : Epoch) (info : FsInfo) :
    twins.cache.get? 1 = some info → info.epoch = epoch := by
  intro hinfo
  have hnone : twins.cache.get? 1 = none := rfl
  rw [hnone] at hinfo
  cases hinfo

namespace Tree

theorem isDir_twins_plain : twins.lookupNames rootInode ["a", "b"] = some 5 ∧ twins.IsDir 5 :=
  ⟨rfl, _, rfl, rfl⟩

theorem isDir_twins_blank : twins.lookupNames rootInode ["a ", "b"] = some 4 ∧ twins.IsDir 4 :=
  ⟨rfl, _, rfl, rfl⟩

theorem has_twins : twins.Has ⟨"b", 5, 3, .dir⟩ :=
  ⟨⟨_, rfl, rfl⟩, _, rfl, rfl⟩

/-- The directories of the same name are empty. -/
theorem not_under_twins (e : Entry) : ¬ twins.Under 5 e := by
  have hnode : twins.node? 5 = some ⟨⟨5, 0, 2, .dir, [3]⟩, ∅⟩ := rfl
  have hempty : ∀ e, twins.Has e → e.parent ≠ 5 := by
    intro e hhas hparent
    obtain ⟨⟨node, hnode', hchild⟩, -⟩ := hhas
    rw [hparent] at hnode'
    obtain rfl := Option.some.inj (hnode.symm.trans hnode')
    simp at hchild
  intro h
  cases h with
  | here has inside => exact hempty e has inside
  | deeper has inside => exact hempty _ has inside

/-- The directory without a blank in its path is all that is in its subtree. -/
theorem eq_of_gone_twins {gone : List Entry} (nodup : gone.Nodup)
    (all : ∀ e, e ∈ gone ↔ twins.Has e ∧ e.inode = 5 ∨ twins.Under 5 e) :
    gone = [⟨"b", 5, 3, .dir⟩] := by
  have honly : ∀ e, e ∈ gone ↔ e = ⟨"b", 5, 3, .dir⟩ := by
    intro e
    refine (all e).trans ⟨?_, ?_⟩
    · intro h
      rcases h with ⟨hhas, hinode⟩ | hunder
      · exact reachable_twins.sound.eq_entry (d := ⟨5, 3, "b"⟩) hhas has_twins hinode
      · exact absurd hunder (not_under_twins e)
    · intro heq
      rw [heq]
      exact .inl ⟨has_twins, rfl⟩
  have hperm := List.perm_ext_iff_of_nodup nodup (List.nodup_singleton (⟨"b", 5, 3, .dir⟩ : Entry))
  exact List.perm_singleton.mp (hperm.mpr (by simpa using honly))

end Tree

namespace Sweep

/-- A path with a dot and a slash at the end leads to the plain directory. -/
theorem deletePath_removes_named_twins :
    ∃ bound, ∀ budget, bound ≤ budget → ∃ gone d',
      deletePath (Deployment.metadata .sample) ⟨fun _ => .newestFirst, budget⟩ 1 "/a/./b/" 4
        .twins = (some (.ok gone.length), d') ∧ gone.Nodup ∧
      (∀ e, e ∈ gone ↔ Tree.twins.Has e ∧ e.inode = 5 ∨ Tree.twins.Under 5 e) ∧
      Deployment.twins.service.Lost 1 .twins gone d'.service := by
  have hgoes : Path.components "/a/./b/" = .ok ["a", "b"] := by cbv
  have htidy : ∀ name, ["a", "b"].dropLast.getLast? = some name →
      ∀ c, name.toList.getLast? = some c → Text.isBlank c = false := by
    intro name hname c hc
    obtain rfl : "a" = name := Option.some.inj hname
    obtain rfl : 'a' = c := by simpa using hc
    decide
  have hnumbered : (1 : FsId) ≠ 0 := by decide
  have hfound : Deployment.twins.service.filesystem? 1 = some .twins := rfl
  have hcached := Deployment.not_cached_twins Filesystem.twins.epoch
  have hthreads : 1 ≤ 4 ∧ 4 ≤ maxThreads := by decide
  have hremoves := deletePath_removes_named Deployment.quiet_twins hnumbered hfound hcached
    Tree.reachable_twins hgoes (by simp) htidy hthreads fun _ => Schedule.newestFirst_alone
  exact hremoves.1 5 Tree.isDir_twins_plain.1 Tree.isDir_twins_plain.2

/-- The name before the last ends in a blank, and the directory is deleted that has the same path
without that blank. -/
theorem deletePath_takes_twin :
    Deployment.twins.Quiet .sample ∧ Deployment.twins.cache.get? 1 = none ∧
    Tree.twins.Reachable ∧ Path.components "/a /b" = .ok ["a ", "b"] ∧
    Tree.twins.lookupNames rootInode ["a ", "b"] = some 4 ∧ Tree.twins.IsDir 4 ∧
    ∃ bound, ∀ budget, bound ≤ budget → ∃ t d',
      deletePath (Deployment.metadata .sample) ⟨fun _ => .newestFirst, budget⟩ 1 "/a /b" 1 .twins =
        (some (.ok 1), d') ∧
      d'.service.filesystem? 1 = some { Filesystem.twins with tree := t } ∧
      t.At 2 "b" 4 ∧ ¬ t.At 3 "b" 5 := by
  have hgoes : Path.components "/a /b" = .ok ["a ", "b"] := by cbv
  have hrebuilt : Path.components (Path.text ["a ", "b"].dropLast) = .ok ["a"] := by cbv
  have hnumbered : (1 : FsId) ≠ 0 := by decide
  have hfound : Deployment.twins.service.filesystem? 1 = some .twins := rfl
  have hcached := Deployment.not_cached_twins Filesystem.twins.epoch
  have hthreads : 1 ≤ 1 ∧ 1 ≤ maxThreads := by decide
  refine ⟨Deployment.quiet_twins, rfl, Tree.reachable_twins, hgoes, Tree.isDir_twins_blank.1,
    Tree.isDir_twins_blank.2, ?_⟩
  have hremoves := deletePath_removes Deployment.quiet_twins hnumbered hfound hcached
    Tree.reachable_twins.sound hgoes rfl hrebuilt hthreads fun _ => Schedule.newestFirst_alone
  obtain ⟨bound, hbound⟩ := hremoves.1 5 Tree.isDir_twins_plain.1 Tree.isDir_twins_plain.2
  refine ⟨bound, ?_⟩
  intro budget hbudget
  obtain ⟨gone, d', hrun, hnodup, hgone, hlost⟩ := hbound budget hbudget
  obtain ⟨t, ht, hcleared⟩ := hlost.tree
  obtain rfl := Tree.eq_of_gone_twins hnodup hgone
  refine ⟨t, d', hrun, ht, ?_, ?_⟩
  · refine (hcleared.names 2 "b" 4).mpr ⟨⟨_, rfl, rfl⟩, ?_⟩
    simp
  · intro hat
    have hleft := ((hcleared.names 3 "b" 5).mp hat).2
    simp at hleft

end Sweep

end ShardSweep
