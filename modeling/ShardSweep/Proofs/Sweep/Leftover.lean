import ShardSweep.Proofs.Sweep.Delete
import ShardSweep.Proofs.Walk.Harm

/-!
# What a deletion leaves behind

However a deletion ends, what is gone by then lies inside the directory, each directory that is
gone has lost everything below it before, and nothing else has changed.  If nobody else can call
the deletion off and it fails, the directory itself is still there.

* `Service.Cut`: some of a directory is gone, from below;
* `Removal.cut_of_books`: what is gone at any moment of a removal;
* `Removal.stays`: a removal that fails keeps its root;
* `Sweep.delete_leaves_cut`: both for a deletion through a client.
-/

namespace ShardSweep

/-- Some entries of a directory are gone, perhaps its own, each with everything below it, and
nothing else has changed. -/
structure Service.Cut (s : Service) (fs : FsId) (f : Filesystem) (root : Entry)
    (gone : List Entry) (s' : Service) : Prop where
  nodup : gone.Nodup
  inside : ∀ e ∈ gone, e = root ∨ f.tree.Under root.inode e
  closed : ∀ e ∈ gone, e.kind = .dir → ∀ e', f.tree.Under e.inode e' → e' ∈ gone
  lost : s.Lost fs f gone s'

theorem Service.Cut.nothing {s : Service} {fs : FsId} {f : Filesystem}
    (found : s.filesystem? fs = some f) (sound : f.tree.Sound) (root : Entry) :
    s.Cut fs f root [] s where
  nodup := List.nodup_nil
  inside _ h := absurd h List.not_mem_nil
  closed _ h := absurd h List.not_mem_nil
  lost := (Service.Left.start found).lost sound

/-- Changes from outside that leave the names alone. -/
def Deployment.SameNames (d d' : Deployment) : Prop :=
  d.service.SameNames d'.service

namespace Removal

variable {R : Removal} {s s' : Flagged Deployment} {n : Nat} {done left : Multiset Entry × Nat}

/-- What is gone at any moment of a removal. -/
theorem cut_of_books (books : R.ledger.books s n done) (all : R.ledger.all = done + left) :
    ∃ gone : List Entry, (gone : Multiset Entry) = done.1 ∧
      R.service.Cut R.plan.fs R.filesystem R.root.entry gone s.inner.service := by
  obtain ⟨-, ⟨gone, t, hgone, hleft⟩, -⟩ := books
  have hle : (gone : Multiset Entry) ≤ (R.targets : Multiset Entry) := by
    have hfst := congrArg Prod.fst (R.all_eq.symm.trans all)
    rw [show (R.targets : Multiset Entry) = done.1 + left.1 from hfst, hgone]
    exact Multiset.le_add_right _ _
  have hnodup := Multiset.nodup_of_le hle (Multiset.coe_nodup.mpr R.nodup_targets)
  refine ⟨gone, hgone, Multiset.coe_nodup.mp hnodup, ?_, ?_, hleft.lost R.sound⟩
  · intro e he
    exact R.mem_targets.mp (Multiset.mem_coe.mp (Multiset.mem_of_le hle (Multiset.mem_coe.mpr he)))
  · intro e he isDir e' under
    exact hleft.removes.closed_under R.sound he isDir under

theorem bears (careless : ¬ R.sure) (keeps : s.Keeps s') (same : s.inner.SameNames s'.inner) :
    R.ledger.Bears s s' where
  keeps := keeps
  books _ _ books := books_same books same fun sure => absurd sure careless
  calm sure := absurd sure careless

/-- A removal does not call itself off. -/
theorem mild (R : Removal) (site : Site) : (R.walk.visitor.act R.walk.plan site).Mild := by
  have hcount : ∀ r : Request, (Action.ask r fun _ => .modify (· + 1) .succeed : Action Nat).Mild :=
    fun r => Action.mild_ask fun _ _ => trivial
  cases site with
  | visit d e =>
    cases hkind : e.kind with
    | dir =>
      rw [act_dir hkind]
      trivial
    | file =>
      rw [act_file hkind]
      exact hcount _
  | leave d =>
    cases hroot : d.isRoot with
    | true =>
      rw [act_root hroot]
      trivial
    | false =>
      rw [act_leave hroot]
      exact hcount _

private theorem mem_credit {tr : Trace} {e : Entry} (he : e ∈ (tr.credit R.ledger).1) :
    ∃ i event, (i, event) ∈ tr ∧ e ∈ (event.credit R.ledger).1 := by
  induction tr with
  | nil => exact absurd he (Multiset.notMem_zero e)
  | cons shown tr ih =>
    have hcons : Trace.credit R.ledger (shown :: tr) =
        shown.2.credit R.ledger + Trace.credit R.ledger tr := by
      simp [Trace.credit]
    rw [hcons, Prod.fst_add, Multiset.mem_add] at he
    rcases he with he | he
    · exact ⟨shown.1, shown.2, List.mem_cons_self, he⟩
    · obtain ⟨i, event, hmem, he⟩ := ih he
      exact ⟨i, event, List.mem_cons_of_mem _ hmem, he⟩

/-- The entry of a directory is credited when the directory was left. -/
private theorem left_of_mem_credit {tr : Trace} {d : Dir} (hd : d.entry ∈ (tr.credit R.ledger).1) :
    tr.Left d := by
  obtain ⟨i, event, hmem, he⟩ := mem_credit hd
  cases event with
  | acted site outcome =>
    cases outcome with
    | error h => exact absurd he (Multiset.notMem_zero _)
    | ok a =>
      cases site with
      | visit c e =>
        by_cases isDir : e.kind.isDir = true
        · have hnone : R.ledger.worth (.visit c e) = 0 := if_pos isDir
          rw [Event.credit, Outcome.credit, hnone] at he
          exact absurd he (Multiset.notMem_zero _)
        · have hworth : R.ledger.worth (.visit c e) = value e := if_neg isDir
          rw [Event.credit, Outcome.credit, hworth] at he
          have heq : d.entry = e := Multiset.mem_singleton.mp he
          exact absurd (Kind.isDir_iff.mpr (congrArg Entry.kind heq).symm) isDir
      | leave c =>
        have heq : d.entry = c.entry := Multiset.mem_singleton.mp he
        have hsame : d = c := by
          cases d
          cases c
          simp_all [Dir.entry]
        rw [hsame]
        exact ⟨i, hmem⟩
  | _ => exact absurd he (Multiset.notMem_zero _)

section

variable {meddle : Flagged Deployment → Flagged Deployment → Prop} {store : Flagged Deployment}
  {tr : Trace} {w : World Deployment Nat}
  (run : World.Run R.walk meddle (.initial R.walk.plan R.root store 0) tr w)
  (careless : ¬ R.sure) (start : store.inner.service = R.service)

include run careless start

private theorem kept (meddled : ∀ s s', meddle s s' → s.Keeps s' ∧ s.inner.SameNames s'.inner) :
    R.ledger.Kept R.walk tr w := by
  have hbooks : R.ledger.books ⟨store.inner, store.raised⟩ 0 0 :=
    R.books_start start (fun sure => absurd sure careless) _
  have hbears : ∀ s s', meddle s s' → R.ledger.Bears s s' := by
    intro s s' hchange
    obtain ⟨hkeeps, hsame⟩ := meddled s s' hchange
    exact bears careless hkeeps hsame
  exact run.kept R.fits R.within_sameFlag hbears hbooks fun sure => absurd sure careless

/-- At any moment of a removal it is some of the directory that is gone. -/
theorem exists_cut (meddled : ∀ s s', meddle s s' → s.Keeps s' ∧ s.inner.SameNames s'.inner) :
    ∃ gone,
      R.service.Cut R.plan.fs R.filesystem R.root.entry gone w.shared.store.inner.service := by
  have hkept := kept run careless start meddled
  obtain ⟨done, left, hall, hbooks⟩ := hkept.books
  obtain ⟨gone, -, hcut⟩ := cut_of_books hbooks hall
  exact ⟨gone, hcut⟩

/-- If nobody can call the removal off and it fails its root is still there. -/
theorem exists_cut_without_root (down : store.raised = false)
    (meddled : ∀ s s', meddle s s' → s.SameFlag s' ∧ s.inner.SameNames s'.inner) :
    ∃ gone, R.service.Cut R.plan.fs R.filesystem R.root.entry gone w.shared.store.inner.service ∧
      ∀ h, w.result? = some (.error h) → R.root.entry ∉ gone := by
  have hkeeps : ∀ s s', meddle s s' → s.Keeps s' ∧ s.inner.SameNames s'.inner := by
    intro s s' hchange
    obtain ⟨hflag, hsame⟩ := meddled s s' hchange
    exact ⟨fun hs => hflag.trans hs, hsame⟩
  by_cases hfailed : ∃ h, w.result? = some (.error h)
  case neg =>
    obtain ⟨gone, hcut⟩ := exists_cut run careless start hkeeps
    exact ⟨gone, hcut, fun h hresult => absurd ⟨h, hresult⟩ hfailed⟩
  obtain ⟨h, result⟩ := hfailed
  have hkept := kept run careless start hkeeps
  have hkin := (World.Kin.initial R.walk.plan R.root store 0).of_run run
  obtain ⟨lost, hall, -⟩ := hkept.saved
  rw [add_assoc] at hall
  obtain ⟨gone, hgone, hcut⟩ := cut_of_books (hkept.ended hkin result).1 hall
  refine ⟨gone, hcut, ?_⟩
  intro _ _ hmem
  rw [← Multiset.mem_coe, hgone] at hmem
  have hleft := left_of_mem_credit hmem
  obtain ⟨d, hd, e, hshown, hfails⟩ := run.fails_of_error R.within_sameFlag
    (fun s s' hchange => (meddled s s' hchange).1) R.mild hkept.agrees down result
  have htree := R.sound.isTree R.root
  exact run.not_failsAt_of_left (fun r => (R.within_sameFlag r).keeps)
    (fun s s' hchange => (hkeeps s s' hchange).1) hkept.agrees htree hleft hd hshown hfails

end

/-- What a runner does is a run. -/
private theorem exists_run (R : Removal) (runner : Runner (Flagged Deployment))
    (store : Flagged Deployment) {meddle : Flagged Deployment → Flagged Deployment → Prop}
    (within : (runner.schedule store).Within meddle) :
    ∃ tr, World.Run R.walk meddle (.initial R.walk.plan R.root store 0) tr
      (R.walk.run runner R.root store 0) :=
  World.exists_run_drive within World.Run.nil runner.budget 0

end Removal

namespace Sweep

/-- However a deletion through a client ends, it is some of the directory that is gone: an entry
of the directory or its own, each directory with everything below it, and the log names just
these.  A deletion with a flag of its own that fails has left the directory itself.  Requests may
fail in any way, and others may do what they like as long as they neither change the names nor
lower the flag. -/
theorem delete_leaves_cut {d : Deployment} {c : Client} {fs : FsId} {f : Filesystem}
    {parent target : Inode} {name : String} {a : Attr}
    (found : d.service.filesystem? fs = some f) (reachable : f.tree.Reachable)
    (named : f.tree.At parent name target) (known : f.tree.attr? target = some a)
    (isDir : a.kind = .dir) :
    (∀ (runner : Runner (Flagged Deployment)) (plan : WalkPlan) (raised : Bool)
        (outcome : Option (Outcome Nat)) (s' : Flagged Deployment), plan.fs = fs →
      (runner.schedule ⟨d, raised⟩).Within (fun s s' => s.Keeps s' ∧ s.inner.SameNames s'.inner) →
      deleteWith ((Deployment.metadata c).on Flagged.innerPart) runner plan parent target name
        ⟨d, raised⟩ = (outcome, s') →
      ∃ gone, d.service.Cut fs f ⟨name, target, parent, .dir⟩ gone s'.inner.service) ∧
    ∀ (runner : Runner Deployment) (epoch : Epoch) (threads : Nat)
        (outcome : Option (Outcome Nat)) (d' : Deployment),
      (runner.schedule d).Within Deployment.SameNames →
      delete (Deployment.metadata c) runner fs parent target name epoch threads d = (outcome, d') →
      ∃ gone, d.service.Cut fs f ⟨name, target, parent, .dir⟩ gone d'.service ∧
        ∀ h, outcome = some (.error h) → (⟨name, target, parent, .dir⟩ : Entry) ∉ gone := by
  have sound := reachable.sound
  let root : Dir := ⟨target, parent, name⟩
  have hhas : f.tree.Has root.entry := ⟨named, a, known, isDir⟩
  have haccepted : checkTarget target name = .ok () := checkTarget_eq_ok sound hhas
  refine ⟨?shared, ?own⟩
  case shared =>
    intro runner plan raised outcome s' hfs hwithin hdelete
    rw [deleteWith_walk _ _ _ haccepted] at hdelete
    let R : Removal :=
      ⟨c, d.service, plan, f, hfs ▸ found, sound, root, hhas, False, fun sure => sure.elim⟩
    obtain ⟨tr, run⟩ := R.exists_run runner ⟨d, raised⟩ hwithin
    obtain ⟨gone, hcut⟩ := Removal.exists_cut run id rfl fun s s' hchange => hchange
    have hlast : (R.walk.run runner R.root ⟨d, raised⟩ 0).shared.store = s' :=
      congrArg Prod.snd hdelete
    rw [hlast] at hcut
    subst hfs
    exact ⟨gone, hcut⟩
  case own =>
    intro runner epoch threads outcome d' hwithin hdelete
    by_cases inRange : 1 ≤ threads ∧ threads ≤ maxThreads
    · let plan : WalkPlan := ⟨fs, epoch, threads, inRange.1, inRange.2⟩
      have hmade : WalkPlan.make fs epoch threads = .ok plan := dif_pos inRange
      rw [delete_walk _ _ haccepted hmade d rfl] at hdelete
      let R : Removal :=
        ⟨c, d.service, plan, f, found, sound, root, hhas, False, fun sure => sure.elim⟩
      obtain ⟨tr, run⟩ := R.exists_run runner.withFlag ⟨d, false⟩
        (Runner.within_withFlag hwithin false)
      obtain ⟨houtcome, hstore⟩ := Prod.mk.inj hdelete
      change (R.walk.run runner.withFlag R.root ⟨d, false⟩ 0).shared.store.inner = d' at hstore
      obtain ⟨gone, hcut, hstays⟩ := Removal.exists_cut_without_root run id rfl rfl fun s s' h => h
      rw [hstore] at hcut
      refine ⟨gone, hcut, ?_⟩
      intro h hfailed
      rw [hfailed] at houtcome
      obtain ⟨result, hresult, herror⟩ := Option.map_eq_some_iff.mp houtcome
      cases result with
      | ok => cases herror
      | error h => exact hstays h hresult
    · have hrefused : WalkPlan.make fs epoch threads = .error _ := dif_neg inRange
      rw [delete_eq_refused _ _ haccepted hrefused d] at hdelete
      have hsame : d' = d := (congrArg Prod.snd hdelete).symm
      rw [hsame]
      exact ⟨[], .nothing found sound _, fun _ _ => List.not_mem_nil⟩

theorem delete_leaves_cut_sample : ∃ gone d',
    delete (Deployment.metadata .lopsided) ⟨fun _ => .newestFirst, 60⟩ 1 rootInode 2 "t" .first 1
      .sample = (some (.error (.failed (.rpc (.noEndpoint .deleteDir)))), d') ∧
    Service.sample.Cut 1 .sample ⟨"t", 2, rootInode, .dir⟩ gone d'.service ∧
    (⟨"t", 2, rootInode, .dir⟩ : Entry) ∉ gone := by
  have hfound : Deployment.sample.service.filesystem? 1 = some .sample := rfl
  have hknown : Filesystem.sample.tree.attr? 2 = some ⟨2, 0, 2, .dir, [rootInode]⟩ := rfl
  have hwithin : Schedule.Within (fun _ => none) Deployment.SameNames := by
    intro now change hmove
    cases hmove
  have hfailed : (delete (Deployment.metadata .lopsided) ⟨fun _ => .newestFirst, 60⟩ 1 rootInode 2
      "t" .first 1 .sample).1 = some (.error (.failed (.rpc (.noEndpoint .deleteDir)))) := rfl
  have hdelete := Prod.ext hfailed (rfl : _ = (delete (Deployment.metadata .lopsided)
    ⟨fun _ => .newestFirst, 60⟩ 1 rootInode 2 "t" .first 1 .sample).2)
  obtain ⟨gone, hcut, hstays⟩ := (delete_leaves_cut hfound Tree.reachable_sample Tree.at_sample hknown
    rfl).2 _ _ _ _ _ hwithin hdelete
  exact ⟨gone, _, hdelete, hcut, hstays _ rfl⟩

end Sweep

end ShardSweep
