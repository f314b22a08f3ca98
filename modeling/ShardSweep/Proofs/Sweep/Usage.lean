import ShardSweep.Proofs.Sweep.Census
import ShardSweep.Proofs.Sweep.Delete
import ShardSweep.Sweep.Usage

/-!
# What a usage tells

If nothing is in the way and nobody else is at work, the usage of a directory is the number of its
entries at all levels, itself included, and the bytes of its files, in words that wrap around.  It
does not depend on how the threads are scheduled, not even if each file counts once and its names
are met by different threads.

* `Sweep.usage_walk`: a usage is a walk;
* `Sweep.usage_eq_of_le`: more moves change nothing about an outcome;
* `Census.totals_of_shows`: what a tally tells once it shows everything;
* `Census.totals_of_books`: what the tally is once the books show that everything was counted;
* `Sweep.usage_counts_subtree`: a usage that nothing is in the way of.
-/

namespace ShardSweep

namespace Sweep

/-- A usage whose number of threads is accepted is a walk. -/
theorem usage_walk {σ : Type} (metadata : Metadata σ) (runner : Runner σ) {fs : FsId} {root : Inode}
    {once : Bool} {epoch : Epoch} {threads : Nat} {plan : WalkPlan}
    (made : WalkPlan.make fs epoch threads = .ok plan) (s : σ) {last : World σ Tally}
    (run : Walk.run ⟨metadata.on Flagged.innerPart, tallyVisitor once, plan⟩ runner.withFlag
      ⟨root, 0, ""⟩ ⟨s, false⟩ .empty = last) :
    usage metadata runner fs root once epoch threads s =
      (last.result?.map fun outcome => outcome.map fun _ => last.shared.state.totals.addInodes 1,
        last.shared.store.inner) := by
  have hwalk : walk (metadata.on Flagged.innerPart) runner.withFlag (tallyVisitor once) plan
      ⟨root, 0, ""⟩ .empty ⟨s, false⟩ =
        (last.result?.map fun outcome => outcome.map fun _ => last.shared.state,
          last.shared.store) := by
    unfold walk
    simp only [run]
  have hwith : usageWith (metadata.on Flagged.innerPart) runner.withFlag plan root once ⟨s, false⟩ =
      (last.result?.map fun outcome => outcome.map fun _ => last.shared.state.totals.addInodes 1,
        last.shared.store) := by
    rw [usageWith, bind_apply, hwalk]
    rcases last.result? with _ | _ | _ <;> rfl
  simp [usage, bind_apply, accept, made, withOwnFlag, pure_apply, hwith]

/-- A usage that comes to its outcome has the same one if it may take more moves. -/
theorem usage_eq_of_le {σ : Type} {metadata : Metadata σ} {schedule : σ → Schedule σ}
    {budget more : Nat} {fs : FsId} {root : Inode} {once : Bool} {epoch : Epoch} {threads : Nat}
    {s : σ} {outcome : Outcome Totals} (le : budget ≤ more)
    (done : (usage metadata ⟨schedule, budget⟩ fs root once epoch threads s).1 = some outcome) :
    usage metadata ⟨schedule, more⟩ fs root once epoch threads s =
      usage metadata ⟨schedule, budget⟩ fs root once epoch threads s := by
  cases hmade : WalkPlan.make fs epoch threads with
  | error r =>
    have hrefused := (WalkPlan.make_eq_error_iff fs epoch threads r).mp hmade
    rw [usage_refused _ _ _ _ _ _ hrefused, usage_refused _ _ _ _ _ _ hrefused]
  | ok plan =>
    rw [usage_walk _ _ hmade s rfl] at done
    obtain ⟨result, hresult, -⟩ := Option.map_eq_some_iff.mp done
    let walk : Walk σ Tally := ⟨metadata.on Flagged.innerPart, tallyVisitor once, plan⟩
    have hlast : walk.run (Runner.withFlag ⟨schedule, more⟩) ⟨root, 0, ""⟩ ⟨s, false⟩ .empty =
        walk.run (Runner.withFlag ⟨schedule, budget⟩) ⟨root, 0, ""⟩ ⟨s, false⟩ .empty :=
      World.drive_eq_of_le le hresult
    rw [usage_walk _ ⟨schedule, more⟩ hmade s hlast, usage_walk _ ⟨schedule, budget⟩ hmade s rfl]

end Sweep

namespace Census

/-- What a count is to tell: the entries and the directory itself, and the bytes of the files. -/
def totals (C : Census) : Totals :=
  ⟨.ofNat (C.tree.bytesOf C.once C.targets), .ofNat (C.targets.length + 1)⟩

/-- What a tally tells once it shows everything. -/
theorem totals_of_shows {C : Census} {P : Deployment → Prop} {n : Tally}
    (full : C.Shows n (C.ledgerIn P).all) : n.totals.addInodes 1 = C.totals := by
  rw [C.allIn_eq] at full
  obtain ⟨k, hk, hsum⟩ := full.bytes
  have hdistinct : C.bytes (C.distinct (Tree.fileInodes C.targets)) =
      C.tree.bytesOf C.once C.targets := by
    unfold distinct Tree.bytesOf
    cases C.once <;> simp [bytes]
  have hbytes : k = C.tree.bytesOf C.once C.targets := by
    rw [← hdistinct]
    change k + C.bytes (Tree.fileInodes C.targets) =
      C.bytes (Tree.fileInodes C.targets) + C.bytes (C.distinct (Tree.fileInodes C.targets)) at hsum
    omega
  have hinodes : n.totals.inodes + 1 = .ofNat (C.targets.length + 1) := by
    rw [full.inodes, UInt64.ofNat_add]
    rfl
  rw [hbytes] at hk
  simp only [Totals.addInodes, totals, hk, hinodes]

/-- What the tally is once the books show that everything was counted. -/
theorem totals_of_books {C : Census} {s : Flagged Deployment} {n : Tally}
    (books : C.ledger.books s n C.ledger.all) :
    (n.totals.addInodes 1).inodes.toNat = (C.targets.length + 1) % 2 ^ 64 ∧
    (n.totals.addInodes 1).bytes.toNat = C.tree.bytesOf C.once C.targets % 2 ^ 64 := by
  rw [C.ledger_eq] at books
  rw [totals_of_shows books.2]
  exact ⟨UInt64.toNat_ofNat', UInt64.toNat_ofNat'⟩

end Census

namespace Sweep

/-- A usage through a client that nothing is in the way of has an outcome under every schedule,
after finitely many moves: the number of entries at all levels and the directory itself, and the
bytes of the files, in words.  Told to count each file once it adds the bytes of each file that
has a name below the directory just once.  Nothing is changed. -/
theorem usage_counts_subtree {d : Deployment} {c : Client} {fs : FsId} {f : Filesystem}
    {root : Inode} {a : Attr} {epoch : Epoch} {threads : Nat}
    {schedule : Deployment → Schedule Deployment}
    (calm : (Deployment.clientPart.get d).Calm c) (found : d.service.filesystem? fs = some f)
    (current : epoch = f.epoch) (reachable : f.tree.Reachable) (known : f.tree.attr? root = some a)
    (isDir : a.kind = .dir) (inRange : 1 ≤ threads ∧ threads ≤ maxThreads)
    (alone : ∀ now change, schedule d now ≠ some (.outside change)) (once : Bool) :
    ∃ below : List Entry, below.Nodup ∧ (∀ e, e ∈ below ↔ f.tree.Under root e) ∧
      ∃ bound, ∀ budget, bound ≤ budget → ∃ totals d',
        usage (Deployment.metadata c) ⟨schedule, budget⟩ fs root once epoch threads d =
          (some (.ok totals), d') ∧
        totals.inodes.toNat = (below.length + 1) % 2 ^ 64 ∧
        totals.bytes.toNat = f.tree.bytesOf once below % 2 ^ 64 ∧
        d.service.SameNames d'.service := by
  have sound := reachable.sound
  let plan : WalkPlan := ⟨fs, epoch, threads, inRange.1, inRange.2⟩
  have hmade : WalkPlan.make fs epoch threads = .ok plan := dif_pos inRange
  let C : Census :=
    ⟨c, d.service, plan, f, found, sound, current, ⟨root, 0, ""⟩, ⟨a, known, isDir⟩, once⟩
  have hbooks : C.ledger.books ⟨d, false⟩ .empty 0 := ⟨.refl _, calm, .empty C⟩
  have hrequests : C.walk.metadata.Within Flagged.SameFlag := fun r => Proc.within_innerPart _
  have halone := Runner.alone_withFlag ⟨schedule, 0⟩ alone false
  obtain ⟨bound, hbound⟩ := C.fits.exists_settled hrequests trivial hbooks rfl halone
  refine ⟨C.targets, C.sound.nodup_below C.root, fun e => Census.mem_targets, bound, ?_⟩
  intro budget hbudget
  obtain ⟨last, hlast, hresult, hfinal⟩ := hbound budget hbudget
  obtain ⟨hinodes, hbytes⟩ := Census.totals_of_books hfinal
  have husage := usage_walk (Deployment.metadata c) ⟨schedule, budget⟩ hmade d hlast
  rw [hresult] at husage
  exact ⟨_, _, husage, hinodes, hbytes, hfinal.1⟩

/-- The file that has two of its three names in the subtree counts five bytes or ten. -/
theorem usage_counts_subtree_linked :
    (∃ bound, ∀ budget, bound ≤ budget → ∃ totals d',
      usage (Deployment.metadata .sample) ⟨fun _ => .newestFirst, budget⟩ 1 2 true .first 4 .linked =
        (some (.ok totals), d') ∧
      totals.inodes.toNat = 4 ∧ totals.bytes.toNat = 5 ∧
      Deployment.linked.service.SameNames d'.service) ∧
    ∃ bound, ∀ budget, bound ≤ budget → ∃ totals d',
      usage (Deployment.metadata .sample) ⟨fun _ => .newestFirst, budget⟩ 1 2 false .first 4 .linked =
        (some (.ok totals), d') ∧
      totals.inodes.toNat = 4 ∧ totals.bytes.toNat = 10 ∧
      Deployment.linked.service.SameNames d'.service := by
  have hfound : Deployment.linked.service.filesystem? 1 = some .linked := rfl
  have hknown : Filesystem.linked.tree.attr? 2 = some ⟨2, 0, 2, .dir, [rootInode]⟩ := rfl
  have hthreads : 1 ≤ 4 ∧ 4 ≤ maxThreads := by decide
  let schedule : Deployment → Schedule Deployment := fun _ => .newestFirst
  have halone : ∀ now change, schedule .linked now ≠ some (.outside change) :=
    Schedule.newestFirst_alone
  have hcounts : ∀ once, ∃ bound, ∀ budget, bound ≤ budget → ∃ totals d',
      usage (Deployment.metadata .sample) ⟨schedule, budget⟩ 1 2 once .first 4 .linked =
        (some (.ok totals), d') ∧
      totals.inodes.toNat = 4 ∧
      totals.bytes.toNat = Tree.linked.bytesOf once Tree.insideLinked % 2 ^ 64 ∧
      Deployment.linked.service.SameNames d'.service := by
    intro once
    obtain ⟨below, hnodup, hbelow, bound, hbound⟩ := usage_counts_subtree Deployment.calm_linked
      hfound rfl Tree.reachable_linked hknown rfl hthreads halone once
    have hperm : below.Perm Tree.insideLinked := by
      refine (List.perm_ext_iff_of_nodup hnodup (by decide)).mpr fun e => ?_
      rw [hbelow, Tree.mem_insideLinked]
      rfl
    rw [hperm.length_eq] at hbound
    simp only [Filesystem.linked, Tree.bytesOf_perm hperm] at hbound
    exact ⟨bound, hbound⟩
  exact ⟨hcounts true, hcounts false⟩

/-- A client can get ready although one of its shards has no endpoint.  Nothing else is wrong, and
a usage that comes to that shard fails. -/
theorem usage_without_endpoint :
    ((Deployment.metadata .lopsided).prepare 1).run (.fresh .sample) = (.ok (), .sample) ∧
    Tree.sample.Reachable ∧ Service.sample.faults = .none ∧ Service.sample.unreachable = [] ∧
    Service.sample.latency.nanos = 0 ∧
    ∀ budget, 60 ≤ budget →
      (usage (Deployment.metadata .lopsided) ⟨fun _ => .newestFirst, budget⟩ 1 rootInode false .first
        1 .sample).1 = some (.error (.failed (.rpc (.noEndpoint .listEntries)))) := by
  refine ⟨rfl, Tree.reachable_sample, rfl, rfl, rfl, ?_⟩
  intro budget hbudget
  have hdone : (usage (Deployment.metadata .lopsided) ⟨fun _ => .newestFirst, 60⟩ 1 rootInode false
      .first 1 .sample).1 = some (.error (.failed (.rpc (.noEndpoint .listEntries)))) := rfl
  rw [usage_eq_of_le hbudget hdone]
  exact hdone

end Sweep

end ShardSweep
