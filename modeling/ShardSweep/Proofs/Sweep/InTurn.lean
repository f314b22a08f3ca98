import ShardSweep.Proofs.Sweep.Verdict

/-!
# The usage of all filesystems, and of one after the other

`fsUsageAll` asks for the filesystems and uses the generations that it is told; `fsUsage` takes the
generation that the client remembers.  The client remembers what it was just told, and nothing in
between makes it forget, so for the same schedule there is no difference at all.  The schedule has
no say in which filesystems succeed and what is told of them.

* `Sweep.usageInTurn`: list the filesystems, then ask for the usage of one after the other;
* `Sweep.Told`: what is told of a filesystem, whatever the schedule;
* `Sweep.fsUsageAll_eq`: for the same schedule there is no difference;
* `Sweep.StopsAt`: a sweep that stops at a filesystem;
* `Sweep.fsUsageAll_in_turn`: under any schedules both succeed, or both stop at one filesystem.
-/

namespace ShardSweep

namespace Sweep

section

variable {σ ι β : Type}

/-- The usage of a filesystem at the generation that was listed. -/
def listedUsage (metadata : Metadata σ) (runner : Runner σ) (threads : Nat) (info : FsInfo) :
    Sweep σ Totals := do
  prepare metadata info.fs
  usage metadata runner info.fs rootInode true info.epoch threads

/-- List the filesystems, and ask for the usage of one after the other. -/
def usageInTurn (metadata : Metadata σ) (runner : Runner σ) (threads : Nat) :
    Sweep σ (List (FsInfo × Totals)) := do
  let infos ← ask metadata .listFsInfo
  eachOf (fun info => fsUsage metadata runner info.fs threads) infos

theorem usageOfEach_eq (metadata : Metadata σ) (runner : Runner σ) (threads : Nat)
    (infos : List FsInfo) : usageOfEach metadata runner threads infos =
      eachOf (listedUsage metadata runner threads) infos := by
  induction infos with
  | nil => rfl
  | cons info rest ih => simp [usageOfEach, eachOf, listedUsage, ih]

/-- Either everything can be told, or there is a first thing that cannot. -/
theorem split_told {V : ι → Option β → Prop} {items : List ι} (told : ∀ i ∈ items, ∃ v, V i v) :
    (∃ done : List (ι × β), done.map Prod.fst = items ∧ ∀ u ∈ done, V u.1 (some u.2)) ∨
    ∃ (done : List (ι × β)) (i : ι) (later : List ι), items = done.map Prod.fst ++ i :: later ∧
      (∀ u ∈ done, V u.1 (some u.2)) ∧ V i none := by
  induction items with
  | nil => exact .inl ⟨[], rfl, fun _ h => nomatch h⟩
  | cons i rest ih =>
    obtain ⟨⟨v, hv⟩, hrest⟩ := List.forall_mem_cons.mp told
    cases v with
    | none => exact .inr ⟨[], i, rest, rfl, fun _ h => (nomatch h), hv⟩
    | some b =>
      rcases ih hrest with ⟨done, rfl, hdone⟩ | ⟨done, j, later, rfl, hdone, hj⟩
      · exact .inl ⟨(i, b) :: done, rfl, List.forall_mem_cons.mpr ⟨hv, hdone⟩⟩
      · exact .inr ⟨(i, b) :: done, j, later, rfl, List.forall_mem_cons.mpr ⟨hv, hdone⟩, hj⟩

theorem listedUsage_eq_of_le {metadata : Metadata σ} {schedule : σ → Schedule σ}
    {budget more threads : Nat} {info : FsInfo} {s : σ} {outcome : Outcome Totals}
    (le : budget ≤ more)
    (done : (listedUsage metadata ⟨schedule, budget⟩ threads info s).1 = some outcome) :
    listedUsage metadata ⟨schedule, more⟩ threads info s =
      listedUsage metadata ⟨schedule, budget⟩ threads info s := by
  refine bind_congr rfl fun _ s' hprepare => ?_
  rw [listedUsage, bind_eq_of_ok hprepare] at done
  exact usage_eq_of_le le done

end

/-- The client remembers what the service tells of its filesystems. -/
def Knowing (s₀ : Service) (cache : FsCache) (d : Deployment) : Prop :=
  (∃ active, d.Still s₀ active cache) ∧ ∀ info ∈ s₀.infos, cache.get? info.fs = some info

/-- A schedule that leaves the sweep alone. -/
def Alone (schedule : Deployment → Schedule Deployment) : Prop :=
  ∀ d now change, schedule d now ≠ some (.outside change)

/-- What is told of a filesystem, whatever the schedule. -/
def Told (c : Client) (s₀ : Service) (threads : Nat) (info : FsInfo) (verdict : Option Totals) :
    Prop :=
  ∀ schedule, Alone schedule → ∀ cache d, Knowing s₀ cache d → ∃ outcome d',
    Settles (fun budget => fsUsage (Deployment.metadata c) ⟨schedule, budget⟩ info.fs threads)
      d outcome d' ∧ Knowing s₀ cache d' ∧ outcome.Tells verdict

variable {c : Client} {s₀ : Service} {cache : FsCache} {d : Deployment} {threads : Nat}
  {info : FsInfo}

/-- What is remembered of a filesystem is what was listed. -/
private theorem fsUsage_eq (inRange : 1 ≤ threads ∧ threads ≤ maxThreads)
    (knowing : Knowing s₀ cache d) (mem : info ∈ s₀.infos) (runner : Runner Deployment) :
    fsUsage (Deployment.metadata c) runner info.fs threads d =
      listedUsage (Deployment.metadata c) runner threads info d := by
  obtain ⟨⟨active, still⟩, hknown⟩ := knowing
  have hremembered : d.cache.get? info.fs = some info := by
    have hcache : d.cache = cache := still.cache
    rw [hcache]
    exact hknown info mem
  rw [fsUsage, (checkThreads_eq_ok_iff threads).mpr inRange]
  exact bind_eq_of_ok (ask_remembered c hremembered) _

/-- Either nothing is listed, or the client comes to know what was listed. -/
private theorem listing_cases {active : Option FsId} (steady : s₀.Steady)
    (still : d.Still s₀ active cache) :
    (∃ e d', ask (Deployment.metadata c) .listFsInfo d = (some (.error (.failed e)), d')) ∨
    ∃ listed, ask (Deployment.metadata c) .listFsInfo d = (some (.ok s₀.infos), listed) ∧
      Knowing s₀ (cache.putAll s₀.infos) listed := by
  rcases ask_listing steady still with failed | ⟨listed, hlisted, hstill⟩
  · exact .inl failed
  · exact .inr ⟨listed, hlisted, ⟨active, hstill⟩, fun info mem =>
      cache.get?_putAll s₀.sorted_infos mem⟩

section

variable {schedule : Deployment → Schedule Deployment} (steady : s₀.Steady)
  (reachable : ∀ fs f, s₀.filesystem? fs = some f → f.tree.Reachable)
  (inRange : 1 ≤ threads ∧ threads ≤ maxThreads)
include steady reachable inRange

/-- Of each filesystem something is told. -/
theorem exists_told (mem : info ∈ s₀.infos) : ∃ verdict, Told c s₀ threads info verdict := by
  obtain ⟨f, hfound, hinfo⟩ := Service.mem_infos.mp mem
  have hepoch : info.epoch = f.epoch := congrArg FsInfo.epoch hinfo
  cases hready : c.shards.ready info.fs with
  | error e =>
    refine ⟨none, fun schedule _ cache d knowing =>
      ⟨.error (.failed (.routing e)), d, ?_, knowing, rfl⟩⟩
    have hprepare : prepare (Deployment.metadata c) info.fs d =
        (some (.error (.failed (.routing e))), d) := by
      rw [prepare_eq, hready]
    exact ((Settles.const hprepare).bind_error _).congr fun budget =>
      fsUsage_eq inRange knowing mem _
  | ok fs =>
    have sound := (reachable info.fs f hfound).sound
    let plan : WalkPlan := ⟨info.fs, info.epoch, threads, inRange.1, inRange.2⟩
    let C : Census := ⟨c, s₀, plan, f, hfound, sound, hepoch, ⟨rootInode, 0, ""⟩, sound.root, true⟩
    refine ⟨C.verdict, fun schedule alone cache d knowing => ?_⟩
    obtain ⟨⟨active, still⟩, hknown⟩ := knowing
    have hprepare : prepare (Deployment.metadata c) info.fs d =
        (some (.ok ()), { d with active := some fs }) := by
      rw [prepare_eq, hready]
    have hready : C.Ready cache { d with active := some fs } :=
      ⟨still.wire, congrArg some (ShardTable.eq_of_ready hready), still.cache⟩
    obtain ⟨outcome, d', hsettles, hstill', htells⟩ :=
      Census.exists_usage steady rfl hready (alone { d with active := some fs })
    refine ⟨outcome, d', ?_, ⟨⟨_, hstill'⟩, hknown⟩, htells⟩
    exact ((Settles.const hprepare).bind hsettles).congr fun budget =>
      fsUsage_eq inRange ⟨⟨active, still⟩, hknown⟩ mem _

/-- What is known goes on being known. -/
private theorem Knowing.of_done (alone : Alone schedule) (knowing : Knowing s₀ cache d)
    (mem : info ∈ s₀.infos) {budget : Nat} {outcome : Outcome Totals} {d' : Deployment}
    (done : listedUsage (Deployment.metadata c) ⟨schedule, budget⟩ threads info d =
      (some outcome, d')) : Knowing s₀ cache d' := by
  obtain ⟨verdict, htold⟩ := exists_told steady reachable inRange mem
  obtain ⟨outcome', d'', hsettles, hknowing, -⟩ := htold schedule alone cache d knowing
  have hdone : Settles (fun budget => fsUsage (Deployment.metadata c) ⟨schedule, budget⟩ info.fs
      threads) d outcome d' :=
    ⟨budget, fun more hmore => (fsUsage_eq inRange knowing mem _).trans
      ((listedUsage_eq_of_le hmore (congrArg Prod.fst done)).trans done)⟩
  rw [(hdone.unique hsettles).2]
  exact hknowing

/-- For the same schedule there is no difference at all. -/
theorem fsUsageAll_eq {active : Option FsId} (alone : Alone schedule)
    (still : d.Still s₀ active cache) (budget : Nat) :
    fsUsageAll (Deployment.metadata c) ⟨schedule, budget⟩ threads d =
      usageInTurn (Deployment.metadata c) ⟨schedule, budget⟩ threads d := by
  simp only [fsUsageAll, (checkThreads_eq_ok_iff threads).mpr inRange, accept, pure_bind]
  rcases listing_cases steady still with ⟨e, d', hfailed⟩ | ⟨listed, hlisted, hknowing⟩
  · exact (bind_eq_of_error hfailed _).trans (bind_eq_of_error hfailed _).symm
  · have hsame : eachOf (listedUsage (Deployment.metadata c) ⟨schedule, budget⟩ threads) s₀.infos
        listed = eachOf (fun info => fsUsage (Deployment.metadata c) ⟨schedule, budget⟩ info.fs
          threads) s₀.infos listed := by
      refine eachOf_congr hknowing ?_ ?_
      · exact fun info mem s knowing => (fsUsage_eq inRange knowing mem _).symm
      · exact fun info mem s _ s' knowing done =>
          knowing.of_done steady reachable inRange alone mem done
    rw [bind_eq_of_ok hlisted, usageOfEach_eq, hsame]
    exact (bind_eq_of_ok hlisted _).symm

end

/-- A sweep through some things stops at one of them: those before it are done, for this one it
fails, and the sweep ends with this failure and in the state that it leaves.  Nothing was asked
about what comes after it, and it makes no difference what that is. -/
structure StopsAt {σ ι β : Type} (whole : Nat → Sweep σ (List (ι × β))) (one : Nat → ι → Sweep σ β)
    (s listed : σ) (done : List (ι × β)) (i : ι) (e : WalkError) (last : σ) : Prop where
  fails : ∃ mid, Settles (fun budget => eachOf (one budget) (done.map Prod.fst)) listed (.ok done)
    mid ∧ Settles (fun budget => one budget i) mid (.error (.failed e)) last
  regardless : ∀ later, Settles (fun budget =>
    eachOf (one budget) (done.map Prod.fst ++ i :: later)) listed (.error (.failed e)) last
  whole : Settles whole s (.error (.failed e)) last

/-- One filesystem after the other, as it is told of them. -/
private theorem turn_ok {schedule : Deployment → Schedule Deployment} (alone : Alone schedule)
    {done : List (FsInfo × Totals)} (told : ∀ u ∈ done, Told c s₀ threads u.1 (some u.2))
    (knowing : Knowing s₀ cache d) :
    ∃ d', Settles (fun budget => eachOf (fun info => fsUsage (Deployment.metadata c)
      ⟨schedule, budget⟩ info.fs threads) (done.map Prod.fst)) d (.ok done) d' ∧
      Knowing s₀ cache d' := by
  refine settles_eachOf knowing fun u mem s hknowing => ?_
  obtain ⟨outcome, s', hsettles, hknowing', htells⟩ := told u mem schedule alone cache s hknowing
  rw [htells.eq_ok] at hsettles
  exact ⟨s', hsettles, hknowing'⟩

private theorem turn_succeeds {schedule : Deployment → Schedule Deployment} (alone : Alone schedule)
    {done : List (FsInfo × Totals)} (told : ∀ u ∈ done, Told c s₀ threads u.1 (some u.2))
    {listed : Deployment} (knowing : Knowing s₀ cache listed) (infos : done.map Prod.fst = s₀.infos)
    (asked : ask (Deployment.metadata c) .listFsInfo d = (some (.ok s₀.infos), listed)) :
    ∃ last, Settles (fun budget => usageInTurn (Deployment.metadata c) ⟨schedule, budget⟩ threads)
      d (.ok done) last := by
  obtain ⟨last, hlast, -⟩ := turn_ok alone told knowing
  exact ⟨last, (Settles.const asked).bind (infos ▸ hlast)⟩

private theorem turn_stops {schedule : Deployment → Schedule Deployment} (alone : Alone schedule)
    {done : List (FsInfo × Totals)} (told : ∀ u ∈ done, Told c s₀ threads u.1 (some u.2))
    (untold : Told c s₀ threads info none) {listed : Deployment} (knowing : Knowing s₀ cache listed)
    {later : List FsInfo} (infos : s₀.infos = done.map Prod.fst ++ info :: later)
    (asked : ask (Deployment.metadata c) .listFsInfo d = (some (.ok s₀.infos), listed)) :
    ∃ e last, StopsAt (fun budget => usageInTurn (Deployment.metadata c) ⟨schedule, budget⟩ threads)
      (fun budget info => fsUsage (Deployment.metadata c) ⟨schedule, budget⟩ info.fs threads)
      d listed done info e last := by
  obtain ⟨mid, hmid, hknowing⟩ := turn_ok alone told knowing
  obtain ⟨outcome, last, hlast, -, htells⟩ := untold schedule alone cache mid hknowing
  rcases outcome with (e | p) | t
  · have hregardless := settles_eachOf_fails hmid hlast
    refine ⟨e, last, ⟨mid, hmid, hlast⟩, hregardless, ?_⟩
    exact (Settles.const asked).bind (infos ▸ hregardless later)
  · cases htells
  · cases htells

/-- What `fsUsageAll` under one schedule has to do with listing the filesystems and asking for the
usage of one after the other, under that schedule or another one. -/
structure GoesInTurn (c : Client) (d : Deployment) (threads : Nat)
    (schedule schedule' : Deployment → Schedule Deployment) (all turn : Nat →
      Sweep Deployment (List (FsInfo × Totals))) : Prop where
  /-- For the same schedule there is no difference at all, not even if the moves are used up. -/
  same : ∀ budget, all budget d = usageInTurn (Deployment.metadata c) ⟨schedule, budget⟩ threads d
  /-- The filesystems come in the order of their numbers. -/
  sorted : d.service.infos.Pairwise (·.fs < ·.fs)
  /-- Under any two schedules both succeed with the same results, or neither does. -/
  succeeds : ∀ usages, (∃ last, Settles all d (.ok usages) last) ↔
    ∃ last, Settles turn d (.ok usages) last
  /-- Nothing is listed, or both succeed for all that is listed, or both stop at one filesystem with
  a failure that asking for its usage comes to, and in the state that this leaves. -/
  ends :
    (∃ e last, ask (Deployment.metadata c) .listFsInfo d = (some (.error (.failed e)), last) ∧
      Settles all d (.error (.failed e)) last ∧ Settles turn d (.error (.failed e)) last) ∨
    ∃ listed, ask (Deployment.metadata c) .listFsInfo d = (some (.ok d.service.infos), listed) ∧
      ((∃ usages : List (FsInfo × Totals), usages.map Prod.fst = d.service.infos ∧
        (∃ last, Settles all d (.ok usages) last) ∧ ∃ last, Settles turn d (.ok usages) last) ∨
      ∃ (done : List (FsInfo × Totals)) (info : FsInfo) (later : List FsInfo),
        d.service.infos = done.map Prod.fst ++ info :: later ∧
        (∃ e last, StopsAt all (fun budget info => fsUsage (Deployment.metadata c)
          ⟨schedule, budget⟩ info.fs threads) d listed done info e last) ∧
        ∃ e last, StopsAt turn (fun budget info => fsUsage (Deployment.metadata c)
          ⟨schedule', budget⟩ info.fs threads) d listed done info e last)

/-- The usage of all filesystems is the usage of one after the other.  The service may always refuse
to list some directories or to give some attributes, or be too slow or out of reach, and the client
may remember anything of the filesystems before. -/
theorem fsUsageAll_in_turn {schedule schedule' : Deployment → Schedule Deployment}
    (steady : d.service.Steady)
    (idle : ∀ entry ∈ d.clientPool.idle, entry.2.broken = false ∧ entry.1 ∉ d.service.unreachable)
    (reachable : ∀ fs f, d.service.filesystem? fs = some f → f.tree.Reachable)
    (inRange : 1 ≤ threads ∧ threads ≤ maxThreads) (alone : Alone schedule)
    (alone' : Alone schedule') :
    GoesInTurn c d threads schedule schedule'
      (fun budget => fsUsageAll (Deployment.metadata c) ⟨schedule, budget⟩ threads)
      fun budget => usageInTurn (Deployment.metadata c) ⟨schedule', budget⟩ threads := by
  have hstill : d.Still d.service d.active d.cache := ⟨⟨.refl _, idle⟩, rfl, rfl⟩
  have hsame : ∀ budget, fsUsageAll (Deployment.metadata c) ⟨schedule, budget⟩ threads d =
      usageInTurn (Deployment.metadata c) ⟨schedule, budget⟩ threads d :=
    fsUsageAll_eq steady reachable inRange alone hstill
  rcases listing_cases steady hstill with ⟨e, last, hfailed⟩ | ⟨listed, hlisted, hknowing⟩
  · have hturn : ∀ schedule : Deployment → Schedule Deployment, Settles (fun budget =>
        usageInTurn (Deployment.metadata c) ⟨schedule, budget⟩ threads) d (.error (.failed e))
          last :=
      fun schedule => (Settles.const hfailed).bind_error _
    have hall := (hturn schedule).congr hsame
    refine ⟨hsame, d.service.sorted_infos, fun usages => ?_, ?_⟩
    · rw [hall.exists_iff, (hturn schedule').exists_iff]
    · exact .inl ⟨e, last, hfailed, hall, hturn schedule'⟩
  · have htold : ∀ info ∈ d.service.infos, ∃ verdict, Told c d.service threads info verdict :=
      fun info mem => exists_told steady reachable inRange mem
    rcases split_told htold with ⟨done, hdone, htold⟩ | ⟨done, info, later, hinfos, htold, huntold⟩
    · obtain ⟨last, hlast⟩ := turn_succeeds alone htold hknowing hdone hlisted
      obtain ⟨last', hlast'⟩ := turn_succeeds alone' htold hknowing hdone hlisted
      have hall := hlast.congr hsame
      refine ⟨hsame, d.service.sorted_infos, fun usages => ?_, ?_⟩
      · rw [hall.exists_iff, hlast'.exists_iff]
      · exact .inr ⟨listed, hlisted, .inl ⟨done, hdone, ⟨last, hall⟩, last', hlast'⟩⟩
    · obtain ⟨e, last, hstops⟩ := turn_stops alone htold huntold hknowing hinfos hlisted
      obtain ⟨e', last', hstops'⟩ := turn_stops alone' htold huntold hknowing hinfos hlisted
      have hall := hstops.whole.congr hsame
      refine ⟨hsame, d.service.sorted_infos, fun usages => ?_, ?_⟩
      · rw [hall.exists_iff, hstops'.whole.exists_iff]
        simp
      · exact .inr ⟨listed, hlisted, .inr ⟨done, info, later, hinfos,
          ⟨e, last, hstops.fails, hstops.regardless, hall⟩, e', last', hstops'⟩⟩

end Sweep

/-- Two filesystems, a file whose attributes are refused, and a client that remembers a generation
that is over. -/
def Deployment.patchy : Deployment :=
  { Deployment.fresh (((Service.new 1 "fs1").putFilesystem 1 ⟨"fs1", Epoch.first.next, .sample⟩
      |>.putFilesystem 2 (Service.freshFilesystem "fs2")).failAttr 3 .notFound) with
    cache := FsCache.empty.put ⟨1, "fs1", .first⟩ }

theorem Sweep.fsUsageAll_in_turn_patchy :
    GoesInTurn .sample .patchy 4 (fun _ => .newestFirst) (fun _ _ => some (.thread 0 true))
      (fun budget => fsUsageAll (Deployment.metadata .sample) ⟨fun _ => .newestFirst, budget⟩ 4)
      fun budget => usageInTurn (Deployment.metadata .sample)
        ⟨fun _ _ => some (.thread 0 true), budget⟩ 4 := by
  have hsteady : Deployment.patchy.service.Steady := ⟨rfl, rfl, rfl⟩
  have hreachable : ∀ fs f, Deployment.patchy.service.filesystem? fs = some f →
      f.tree.Reachable := by
    intro fs f hf
    have hcases : (if fs = 2 then some (Service.freshFilesystem "fs2") else if fs = 1 then
        some ⟨"fs1", Epoch.first.next, .sample⟩ else
          (Service.new 1 "fs1").filesystem? fs) = some f := by
      rw [← Service.filesystem?_putFilesystem, ← Service.filesystem?_putFilesystem]
      exact hf
    by_cases htwo : fs = 2
    · rw [if_pos htwo] at hcases
      exact Option.some.inj hcases ▸ .root
    by_cases hone : fs = 1
    · rw [if_neg htwo, if_pos hone] at hcases
      exact Option.some.inj hcases ▸ Tree.reachable_sample
    · simp [htwo, hone, Ne.symm hone, Service.new, Service.filesystem?] at hcases
  have hthreads : 1 ≤ 4 ∧ 4 ≤ maxThreads := by decide
  have halone : Alone fun _ _ => some (.thread 0 true) := by
    intro _ now change hmove
    cases hmove
  exact fsUsageAll_in_turn hsteady (fun _ h => absurd h List.not_mem_nil) hreachable hthreads
    (fun _ => Schedule.newestFirst_alone) halone

end ShardSweep
