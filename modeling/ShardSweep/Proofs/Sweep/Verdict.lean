import ShardSweep.Proofs.Client.Steady
import ShardSweep.Proofs.Sweep.Settled
import ShardSweep.Proofs.Sweep.Usage
import ShardSweep.Proofs.Walk.Vouching

/-!
# What becomes of a usage whose answers stay the same

If the service gives the same answers all the time, it can be told beforehand whether the usage of
a directory succeeds, and what it then tells.  Every listing and every attribute that it needs is
asked for, and it succeeds exactly if there is an answer to each.  Which of several failures it
ends with depends on how the threads are scheduled.

* `Census.Answered`: there is an answer to all that a count asks for;
* `Census.verdict`: what the count tells, if anything;
* `Census.vouches`: a count that ends well has got all its answers;
* `Census.exists_usage`: a usage comes to its verdict under every schedule.
-/

namespace ShardSweep

theorem Outcome.Tells.vouches {α : Type} {answer : Option α} {outcome : Outcome α}
    (h : outcome.Tells answer) {good : α → Prop} (fine : ∀ a, answer = some a → good a) :
    outcome.Vouches good := by
  rcases outcome with (e | p) | a
  · trivial
  · exact h
  · exact fine a h

theorem Outcome.Tells.eq_ok {α : Type} {a : α} {outcome : Outcome α} (h : outcome.Tells (some a)) :
    outcome = .ok a := by
  rcases outcome with (e | p) | b
  · cases h
  · cases h
  · exact congrArg _ (Option.some.inj h).symm

namespace Census

variable (C : Census)

/-- What a count is told of a directory. -/
def listingOf (d : Dir) : Option (List Entry) :=
  C.service.told C.client (.listEntries C.plan.fs d.inode C.plan.epoch)

/-- What it is told of a file. -/
def attrOf (d : Dir) (e : Entry) : Option Attr :=
  C.service.told C.client (.getAttr C.plan.fs e.inode d.inode C.plan.epoch)

/-- There is an answer to what an errand asks for. -/
def Answers : Errand → Prop
  | .list d => (C.listingOf d).isSome
  | .act (.visit d e) => e.kind = .file → (C.attrOf d e).isSome
  | .act (.leave _) => True

/-- There is an answer to everything. -/
def Answered : Prop :=
  ∀ d ∈ C.forest.dirs C.root, C.Answers (.list d) ∧
    ∀ e ∈ C.forest.listing d.inode, C.Answers (.act (.visit d e))

open Classical in
/-- What a count tells, if anything. -/
noncomputable def verdict : Option Totals :=
  if C.Answered then some C.totals else none

/-- The client is ready, and nothing has changed that an answer depends on. -/
def Ready (cache : FsCache) (d : Deployment) : Prop :=
  d.Still C.service (some C.plan.fs) cache

variable {C} {cache : FsCache} {d : Dir} {e : Entry}

/-- What is told of a directory is what is in it. -/
private theorem eq_of_listingOf (hd : d ∈ C.forest.dirs C.root) {es : List Entry}
    (h : C.listingOf d = some es) : es = C.forest.listing d.inode := by
  obtain ⟨a, ha, hdir⟩ := isDir_of_mem hd
  have hlist := (Service.Left.start C.found).of_listEntries (Service.serve_of_told h)
  exact Except.ok.inj (hlist.symm.trans (Tree.list_eq_ok ha hdir))

/-- What is told of a file is what the file has. -/
private theorem attr?_of_attrOf {a : Attr} (h : C.attrOf d e = some a) :
    C.tree.attr? e.inode = some a :=
  (Service.Left.start C.found).of_getAttr (Service.serve_of_told h)

/-- Each request of a count always has the same answer. -/
private theorem tells (steady : C.service.Steady) {r : Request} {i : Inode}
    (goes : r.destination = .shardOf i) (looks : r.Looks) :
    ((Deployment.metadata C.client).call r).Always (C.Ready cache)
      (Outcome.Tells (C.service.told C.client r)) :=
  (Client.call_always steady looks goes C.plan.fs cache).on Deployment.clientPart (fun _ h => h)
    fun _ _ _ h => h

private theorem vouches_countFile (attr : Attr) {P : Flagged Deployment → Prop} {claim : Prop}
    (h : claim) : (Action.countFile C.once attr).Vouches C.walk.metadata P claim := by
  unfold Action.countFile
  split
  · intro before
    dsimp only
    split
    · exact fun _ => h
    · exact h
  · exact fun _ => h

/-- A count that ends well has got all its answers. -/
theorem vouches (steady : C.service.Steady) :
    C.walk.Vouches C.forest C.root (fun s => C.Ready cache s.inner) C.Answers := by
  refine ⟨fun _ h => h, ?_, ?_⟩
  · intro d hd
    refine (tells steady rfl fun _ => rfl).withFlag.mono ?_
    intro outcome htells
    refine htells.vouches fun es hes => ⟨eq_of_listingOf hd hes, ?_⟩
    exact Option.isSome_of_eq_some hes
  · intro site _
    rcases site with ⟨d, e⟩ | d
    · cases hkind : e.kind with
      | dir =>
        have hact : C.walk.visitor.act C.walk.plan (.visit d e) =
            .modify Tally.countEntry .succeed := by
          simp [walk, Visitor.act, tallyVisitor, hkind]
        rw [hact]
        intro _ hfile
        cases hkind.symm.trans hfile
      | file =>
        have hact : C.walk.visitor.act C.walk.plan (.visit d e) = .modify Tally.countEntry
            (.ask (.getAttr C.plan.fs e.inode d.inode C.plan.epoch) (Action.countFile C.once)) := by
          simp [walk, Visitor.act, tallyVisitor, hkind]
        rw [hact]
        refine fun _ => (Action.vouches_request _ _ _ _).mpr ?_
        refine (tells steady rfl fun _ => rfl).withFlag.mono ?_
        rintro ((e | p) | a) htells
        · trivial
        · exact htells
        · exact vouches_countFile a fun _ => Option.isSome_of_eq_some htells
    · trivial

/-- A count that gets all its answers pays what it owes. -/
private theorem fits_of_answered (steady : C.service.Steady) (answered : C.Answered) :
    (C.ledgerIn (C.Ready cache)).Fits C.walk := by
  refine C.fitsIn ?_ ?_
  · intro d hd
    obtain ⟨es, hes⟩ := Option.isSome_iff_exists.mp (answered d hd).1
    refine (tells steady rfl fun _ => rfl).mono fun outcome htells => ?_
    rw [← eq_of_listingOf hd hes]
    exact Outcome.Tells.eq_ok (hes ▸ htells)
  · intro d hd e he hfile a ha
    obtain ⟨b, hb⟩ := Option.isSome_iff_exists.mp ((answered d hd).2 e he hfile)
    obtain rfl := Option.some.inj ((attr?_of_attrOf hb).symm.trans ha)
    refine (tells steady rfl fun _ => rfl).mono fun outcome htells => ?_
    exact Outcome.Tells.eq_ok (hb ▸ htells)

/-- A usage whose walk has come to its end. -/
private theorem settles_of_last {root : Inode} (named : C.root = ⟨root, 0, ""⟩) {d : Deployment}
    {schedule : Deployment → Schedule Deployment} (bound : Nat) {last : World Deployment Tally}
    {result : Outcome Unit}
    (run : C.walk.run (Runner.withFlag ⟨schedule, bound⟩) C.root ⟨d, false⟩ .empty = last)
    (done : last.result? = some result) :
    Sweep.Settles (fun budget => Sweep.usage (Deployment.metadata C.client) ⟨schedule, budget⟩
      C.plan.fs root C.once C.plan.epoch C.plan.threads) d
      (result.map fun _ => last.shared.state.totals.addInodes 1) last.shared.store.inner := by
  have hmade : WalkPlan.make C.plan.fs C.plan.epoch C.plan.threads = .ok C.plan :=
    dif_pos ⟨C.plan.threads_pos, C.plan.threads_le⟩
  rw [named] at run
  have husage := Sweep.usage_walk (Deployment.metadata C.client) ⟨schedule, bound⟩ hmade d run
  rw [done] at husage
  exact ⟨bound, fun budget hbudget =>
    (Sweep.usage_eq_of_le hbudget (congrArg Prod.fst husage)).trans husage⟩

/-- A usage that nobody disturbs comes to its verdict under every schedule, and nothing changes
that an answer depends on. -/
theorem exists_usage (steady : C.service.Steady) {root : Inode}
    (named : C.root = ⟨root, 0, ""⟩) {d : Deployment} (ready : C.Ready cache d)
    {schedule : Deployment → Schedule Deployment}
    (alone : ∀ now change, schedule d now ≠ some (.outside change)) :
    ∃ outcome d', Sweep.Settles (fun budget => Sweep.usage (Deployment.metadata C.client)
        ⟨schedule, budget⟩ C.plan.fs root C.once C.plan.epoch C.plan.threads) d outcome d' ∧
      C.Ready cache d' ∧ outcome.Tells C.verdict := by
  have halone := Runner.alone_withFlag ⟨schedule, 0⟩ alone false
  by_cases hanswered : C.Answered
  · have hrequests : C.walk.metadata.Within Flagged.SameFlag := fun r => Proc.within_innerPart _
    have hbooks : (C.ledgerIn (C.Ready cache)).books ⟨d, false⟩ .empty 0 := ⟨ready, .empty C⟩
    obtain ⟨bound, hbound⟩ :=
      (fits_of_answered steady hanswered).exists_settled hrequests trivial hbooks rfl halone
    obtain ⟨last, hlast, hresult, hready, hshows⟩ := hbound bound le_rfl
    refine ⟨_, _, settles_of_last named bound hlast hresult, hready, ?_⟩
    change C.verdict = some (last.shared.state.totals.addInodes 1)
    rw [totals_of_shows hshows]
    exact if_pos hanswered
  · have hrequests : C.walk.metadata.Within Flagged.Keeps :=
      fun r => (Proc.within_innerPart _).keeps
    obtain ⟨bound, hbound⟩ := (vouches steady).exists_ending ⟨d, false⟩ .empty ready hrequests
      (C.sound.isTree C.root) (fun site => ((Visitor.BuiltIn.tally C.once).plain _ site).2) halone
    obtain ⟨last, result, hlast, hresult, hready, hvouches⟩ := hbound bound le_rfl
    refine ⟨_, _, settles_of_last named bound hlast hresult, hready, ?_⟩
    rcases result with (e | p) | ⟨⟨⟩⟩
    · exact if_neg hanswered
    · exact hvouches
    · exact absurd (fun d hd => ⟨(hvouches d hd).1, (hvouches d hd).2.1⟩) hanswered

end Census

end ShardSweep
