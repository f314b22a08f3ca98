import ShardSweep.Proofs.Walk.Ahead
import ShardSweep.Proofs.Walk.FirstFailure

/-!
# One thread at a time

In a subtree that goes down in one line a thread that has started a worker has nothing else to do
than to wait for it.  So at each moment of a walk that nobody disturbs one thread is at work, the
others that are alive wait for one another up to the calling thread, and what all of them together
have ahead of them is what is left of the recursive traversal.  The work goes down to a worker when
it is started and comes back up when it has ended.

Only a panic does not come back up as it was: whoever waited for the worker reports its death, by
the name of the worker that was started nearest to the place of the panic.

* `Trace.Nearest`: the nearest directory around another for which a worker was started;
* `World.Relay`: those who wait, and what they have left to do;
* `Passage.Told`: a passage as it is told further up;
* `World.Leads`: the invariant;
* `World.Leads.step`: every step keeps it, by `Leads.move`, `Leads.handOver`, `Leads.wait` or
  `Leads.takeOver`;
* `World.Run.exists_leads`: it holds throughout the walk.
-/

namespace ShardSweep

variable {σ ν : Type}

namespace Trace

/-- A worker was started for a directory. -/
def Spawns (tr : Trace) (d : Dir) : Prop :=
  ∃ i j, (i, .spawned j d) ∈ tr

/-- `home` is the nearest directory around `d`, or `d` itself, for which a worker was started. -/
structure Nearest (f : Forest) (tr : Trace) (d home : Dir) : Prop where
  spawned : tr.Spawns home
  around : d ∈ f.dirs home
  nearest : ∀ c, tr.Spawns c → d ∈ f.dirs c → home ∈ f.dirs c

theorem spawns_append {tr : Trace} {i : ThreadId} {e : Event} {d : Dir} :
    Spawns (tr ++ [(i, e)]) d ↔ tr.Spawns d ∨ ∃ j, e = .spawned j d := by
  simp only [Spawns, List.mem_append, List.mem_singleton, Prod.mk.injEq]
  grind

end Trace

namespace World

variable {f : Forest} {walk : Walk σ ν} {meddle : Flagged σ → Flagged σ → Prop} {plan : WalkPlan}
  {root : Dir} {store : Flagged σ} {state : ν} {tr : Trace} {w w' : World σ ν}

theorem getElem?_update_fresh {i : Nat} {t : Thread σ ν} (ht : w.threads[i]? = some t)
    {m : Moved σ ν} {d : Dir} (child : m.child = some d) :
    (w.update i m).threads[w.threads.size]? = some (.fresh d) := by
  rw [getElem?_update ht, if_neg (Nat.ne_of_gt (lt_size ht)), if_pos rfl, child]
  rfl

/-- The homes of the workers are the directories for which workers were started. -/
theorem Run.spawns_iff (run : Run walk meddle (.initial plan root store state) tr w) {d : Dir} :
    tr.Spawns d ↔ ∃ (j : Nat) (u : Thread σ ν), j ≠ 0 ∧ w.threads[j]? = some u ∧ u.home = d := by
  induction run generalizing d with
  | nil =>
    constructor
    · intro hspawns
      obtain ⟨i, j, hmem⟩ := hspawns
      cases hmem
    · intro hworker
      obtain ⟨j, u, hj, hu, -⟩ := hworker
      exact absurd (eq_of_initial hu).1 hj
  | outside _ _ ih => exact ih
  | @step tr w w' i room e run hstep ih =>
    have hkin := (Kin.initial plan root store state).of_run run
    have hcaller := hkin.caller
    obtain ⟨t, m, ht, hdoes, rfl, rfl⟩ := step_eq_some hstep
    rw [Trace.spawns_append]
    constructor
    · intro hspawns
      rcases hspawns with hold | ⟨j, hnew⟩
      · obtain ⟨j, u, hj, hu, rfl⟩ := ih.mp hold
        by_cases hji : j = i
        · subst hji
          obtain rfl := Option.some.inj (hu.symm.trans ht)
          exact ⟨j, m.thread, hj, getElem?_update_self ht m, hdoes.home_eq⟩
        · exact ⟨j, u, hj, getElem?_update_of_ne ht m hu hji, rfl⟩
      · obtain ⟨c, hc⟩ := Option.isSome_iff_exists.mp (hdoes.of_spawned hnew).2
        have hevent := hdoes.spawned hc
        rw [hnew] at hevent
        cases hevent
        exact ⟨w.threads.size, .fresh d, by omega, getElem?_update_fresh ht hc, rfl⟩
    · intro hworker
      obtain ⟨j, u, hj, hu, rfl⟩ := hworker
      refine forall_update
        (P := fun j u => j ≠ 0 → tr.Spawns u.home ∨ ∃ k, m.event = .spawned k u.home)
        ht ?_ ?_ ?_ j u hu hj
      · intro hi
        rw [hdoes.home_eq]
        exact .inl (ih.mpr ⟨i, t, hi, ht, rfl⟩)
      · intro c hc _
        exact .inr ⟨_, hdoes.spawned hc⟩
      · intro k v _ hv hk
        exact .inl (ih.mpr ⟨k, v, hk, hv, rfl⟩)

/-- The threads that wait for worker `j`, which is at home in `home`, each for the one before it
and in the end the calling thread; and the errands that they have left. -/
inductive Relay (f : Forest) (w : World σ ν) : ThreadId → Dir → List ThreadId → List Errand → Prop
  | caller {home} : Relay f w 0 home [] []
  | worker {j i : ThreadId} {home d : Dir} {fs : List Frame} {t : Thread σ ν}
      {above : List ThreadId} {later : List Errand} (get : w.threads[i]? = some t)
      (waits : Thread.Waits j d fs t) (spent : Spent fs) (free : ∀ fr ∈ fs, fr.workers = [])
      (below : home ∈ f.subdirs d) (rest : Relay f w i t.home above later) :
      Relay f w j home (i :: above) ((.act (.leave d) :: f.trip fs) ++ later)

section Relay

variable {a i : ThreadId} {home : Dir} {above : List ThreadId} {later : List Errand}

/-- Whoever waits goes on waiting as long as nobody of them moves on. -/
theorem Relay.map (relay : Relay f w a home above later)
    (kept : ∀ i ∈ above, ∀ t j d fs, w.threads[i]? = some t → Thread.Waits j d fs t →
      ∃ t', w'.threads[i]? = some t' ∧ t'.home = t.home ∧ Thread.Waits j d fs t') :
    Relay f w' a home above later := by
  induction relay with
  | caller => exact .caller
  | worker get waits spent free below _ ih =>
    obtain ⟨t', ht', hhome, hwaits⟩ := kept _ List.mem_cons_self _ _ _ _ get waits
    refine .worker ht' hwaits spent free below ?_
    rw [hhome]
    exact ih fun i hi => kept i (List.mem_cons_of_mem _ hi)

/-- A thread that waits does so for the one at work, and is the first of them, or for another
thread that waits. -/
theorem Relay.waits (relay : Relay f w a home above later) (hi : i ∈ above) :
    ∃ t j d fs, w.threads[i]? = some t ∧ Thread.Waits j d fs t ∧
      (above.head? = some i ∧ j = a ∨ j ∈ above) := by
  induction relay with
  | caller => cases hi
  | worker get waits _ _ _ rest ih =>
    rcases List.mem_cons.mp hi with rfl | hi
    · exact ⟨_, _, _, _, get, waits, .inl ⟨rfl, rfl⟩⟩
    · obtain ⟨t, j, d, fs, ht, hwaits, ⟨-, rfl⟩ | hj⟩ := ih hi
      · exact ⟨t, j, d, fs, ht, hwaits, .inr List.mem_cons_self⟩
      · exact ⟨t, j, d, fs, ht, hwaits, .inr (List.mem_cons_of_mem _ hj)⟩

/-- What the first of those who wait has left to do, and who waits for it. -/
theorem Relay.of_head (relay : Relay f w a home above later) (hi : above.head? = some i)
    {t : Thread σ ν} (ht : w.threads[i]? = some t) {d : Dir} {fs : List Frame}
    (waits : Thread.Waits a d fs t) : ∃ above' later', above = i :: above' ∧
      later = (.act (.leave d) :: f.trip fs) ++ later' ∧ Spent fs ∧ (∀ fr ∈ fs, fr.workers = []) ∧
      home ∈ f.subdirs d ∧ Relay f w i t.home above' later' := by
  cases relay with
  | caller => cases hi
  | worker get waits' spent free below rest =>
    cases hi
    obtain rfl := Option.some.inj (get.symm.trans ht)
    obtain ⟨-, rfl, rfl⟩ := waits.unique waits'
    exact ⟨_, _, rfl, rfl, spent, free, below, rest⟩

/-- Whoever waits has not ended. -/
theorem Relay.alive (relay : Relay f w a home above later) (hi : i ∈ above) :
    w.ended? i = none := by
  obtain ⟨t, j, d, fs, ht, hwaits, -⟩ := relay.waits hi
  simp [ended?, ht, hwaits.alive]

/-- Whoever waits is older than the thread at work. -/
theorem Relay.lt (kin : w.Kin) (relay : Relay f w a home above later) (hi : i ∈ above) :
    (i : Nat) < a := by
  induction relay with
  | caller => cases hi
  | worker get waits _ _ _ _ ih =>
    have hlt := (kin.newer _ _ get _ waits.mem_waitsFor).1
    rcases List.mem_cons.mp hi with rfl | hi
    · exact hlt
    · exact (ih hi).trans hlt

/-- A worker is waited for. -/
theorem Relay.caller_iff (kin : w.Kin) (relay : Relay f w a home above later) :
    a = 0 ↔ above = [] := by
  cases relay with
  | caller => simp
  | worker get waits _ _ _ rest =>
    have hlt := (kin.newer _ _ get a waits.mem_waitsFor).1
    constructor
    · intro ha
      exact absurd (ha ▸ hlt) (Nat.not_lt_zero _)
    · intro hnil
      cases hnil

/-- The home of a worker is below the homes of those who wait for it, and what they have left to do
is above it. -/
theorem Relay.higher (lineal : w.Lineal f root) (relay : Relay f w a home above later) :
    (∀ i ∈ above, ∀ t, w.threads[i]? = some t → home ∈ f.dirs t.home) ∧
      ∀ x ∈ later, f.height home.inode < f.height x.dir.inode := by
  induction relay with
  | caller => exact ⟨fun i hi => (nomatch hi), fun x hx => (nomatch hx)⟩
  | @worker j i home d fs t above later get waits spent free below rest ih =>
    obtain ⟨hhomes, hlater⟩ := ih
    have hway := waits.hangs (lineal.stacked i t get) (lineal.lineal i t get)
    have hd : d ∈ f.dirs t.home := (hway.2.mem_dirs (Forest.self_mem_dirs _)).2 d hway.1
    have hhome : home ∈ f.dirs t.home :=
      Forest.mem_dirs_trans hd (Forest.mem_dirs_of_mem_subdirs below (Forest.self_mem_dirs _))
    have hlow := Forest.height_lt_of_mem_subdirs below
    refine ⟨?_, ?_⟩
    · intro k hk u hu
      rcases List.mem_cons.mp hk with rfl | hk
      · obtain rfl := Option.some.inj (hu.symm.trans get)
        exact hhome
      · exact Forest.mem_dirs_trans (hhomes k hk u hu) hhome
    · intro x hx
      rcases List.mem_append.mp hx with hx | hx
      · rcases List.mem_cons.mp hx with rfl | hx
        · exact hlow
        · have := hway.2.height_lt_of_mem_trip hway.1 spent hx
          omega
      · have hle := Forest.height_le_of_mem_dirs hhome
        have hlt := hlater x hx
        omega

end Relay

end World

namespace Trace

variable {f : Forest} {tr : Trace}

/-- Thread `a`, at home in `home`, is to blame for what happens in `c`: no worker was started for a
directory around `c` that is nearer. -/
structure Blames (f : Forest) (tr : Trace) (a : ThreadId) (home c : Dir) : Prop where
  caller : a = 0 → ∀ b, tr.Spawns b → c ∉ f.dirs b
  worker : a ≠ 0 → tr.Nearest f c home

theorem Nearest.mono {tr' : Trace} {c home : Dir} (h : tr.Nearest f c home)
    (same : ∀ d, tr'.Spawns d ↔ tr.Spawns d) : tr'.Nearest f c home :=
  ⟨(same _).mpr h.spawned, h.around, fun d hd => h.nearest d ((same d).mp hd)⟩

theorem Blames.mono {tr' : Trace} {a : ThreadId} {c home : Dir} (h : tr.Blames f a home c)
    (same : ∀ d, tr'.Spawns d ↔ tr.Spawns d) : tr'.Blames f a home c :=
  ⟨fun ha d hd => h.caller ha d ((same d).mp hd), fun ha => (h.worker ha).mono same⟩

end Trace

/-- What a passage has become: a panic on a worker is a failure as soon as somebody has found the
worker dead. -/
inductive Passage.Told (f : Forest) (tr : Trace) (t : Thread σ ν) (s : Shared σ ν)
    (p : Passage σ ν) : Passage σ ν → Prop
  | plain : Told f tr t s p p
  | died {q c home} (panicked : p.outcome = .error (.panicked q))
      (place : lastDir? p.work = some c) (nearest : tr.Nearest f c home) (off : t.Off s) :
      Told f tr t s p ((Passage.off (workerDeath home q) p.standing).after p.work)

/-- A step that starts no worker changes nothing about it. -/
theorem Passage.Told.mono {f : Forest} {tr tr' : Trace} {t t' : Thread σ ν} {s s' : Shared σ ν}
    {p p' : Passage σ ν} (h : p.Told f tr t s p') (same : ∀ d, tr'.Spawns d ↔ tr.Spawns d)
    (off : t.Off s → t'.Off s') : p.Told f tr' t' s' p' := by
  cases h with
  | plain => exact .plain
  | died panicked place nearest hoff => exact .died panicked place (nearest.mono same) (off hoff)

/-- Nothing else is told while the walk is not called off. -/
theorem Passage.Told.of_calm {f : Forest} {tr : Trace} {t : Thread σ ν} {s : Shared σ ν}
    {p p' : Passage σ ν} (h : p.Told f tr t s p') (calm : ¬ t.Off s) : p' = p := by
  cases h with
  | plain => rfl
  | died _ _ _ off => exact absurd off calm

/-- Only the outcome and the flag can be told differently. -/
theorem Passage.Told.same {f : Forest} {tr : Trace} {t : Thread σ ν} {s : Shared σ ν}
    {p p' : Passage σ ν} (h : p.Told f tr t s p') :
    p'.work = p.work ∧ p'.standing.store.inner = p.standing.store.inner ∧
      p'.standing.state = p.standing.state := by
  cases h with
  | plain => exact ⟨rfl, rfl, rfl⟩
  | died => exact ⟨List.append_nil _, rfl, rfl⟩

/-- A panic that is told as a panic has not been found out yet. -/
theorem Passage.Told.of_panicked {f : Forest} {tr : Trace} {t : Thread σ ν} {s : Shared σ ν}
    {p p' : Passage σ ν} (h : p.Told f tr t s p') {q : Panic}
    (panicked : p'.outcome = .error (.panicked q)) : p' = p := by
  cases h with
  | plain => rfl
  | died => exact absurd (panicked.symm.trans (Passage.outcome_off _ _)) (by simp)

namespace World

variable {f : Forest} {walk : Walk σ ν} {meddle : Flagged σ → Flagged σ → Prop} {plan : WalkPlan}
  {root : Dir} {store : Flagged σ} {state : ν} {tr : Trace} {w w' : World σ ν}

/-- Thread `a` alone is at work, and what it has ahead of it is what is left of passage `p`. -/
structure Leads (walk : Walk σ ν) (f : Forest) (p : Passage σ ν) (tr : Trace) (w : World σ ν)
    (a : ThreadId) (t : Thread σ ν) (above : List ThreadId) (later : List Errand) : Prop where
  lead : w.threads[a]? = some t
  relay : Relay f w a t.home above later
  free : t.waitsFor = []
  neat : t.task.Neat t.stack
  sound : t.task.Sound a w.shared
  /-- All others have ended, with nothing left to do where they were. -/
  passed : ∀ (j : Nat) (u : Thread σ ν), w.threads[j]? = some u → j = a ∨ j ∈ above ∨
    u.task.result?.isSome ∧
      ∀ x ∈ t.errands f ++ later, f.height u.home.inode < f.height x.dir.inode
  /-- A thread that dies is the nearest to the place where it dies. -/
  blame : t.task.Dead → ∃ c, lastDir? tr.work = some c ∧ tr.Blames f a t.home c
  told : p.Told f tr t w.shared ((walk.ahead f t later w.shared).after tr.work)

section Leads

variable {p : Passage σ ν} {a i : ThreadId} {t : Thread σ ν} {above : List ThreadId}
  {later : List Errand} {home : Dir} {room : Bool} {m : Moved σ ν}

/-- The thread at work is to blame for what happens in the directory that it is at. -/
theorem Leads.blames (leads : Leads walk f p tr w a t above later)
    (run : Run walk meddle (.initial plan root store state) tr w) (lineal : w.Lineal f root)
    {c : Dir} (place : t.task.place? = some c) : tr.Blames f a t.home c := by
  have hkin := (Kin.initial plan root store state).of_run run
  obtain ⟨hc, x, hx, rfl⟩ := Thread.mem_dirs_of_place (hkin.placed a t leads.lead)
    (lineal.stacked a t leads.lead) (lineal.lineal a t leads.lead) place
  have hnearest : ∀ b, tr.Spawns b → x.dir ∈ f.dirs b → a ≠ 0 ∧ t.home ∈ f.dirs b := by
    intro b hb hxb
    obtain ⟨j, u, hj, hu, rfl⟩ := run.spawns_iff.mp hb
    rcases leads.passed j u hu with rfl | habove | ⟨-, hlow⟩
    · obtain rfl := Option.some.inj (hu.symm.trans leads.lead)
      exact ⟨hj, Forest.self_mem_dirs _⟩
    · refine ⟨fun ha => ?_, (leads.relay.higher lineal).1 j habove u hu⟩
      rw [(leads.relay.caller_iff hkin).mp ha] at habove
      cases habove
    · have hlt := hlow x (List.mem_append_left _ hx)
      have hle := Forest.height_le_of_mem_dirs hxb
      omega
  refine ⟨fun ha b hb hxb => (hnearest b hb hxb).1 ha, fun ha => ⟨?_, hc, ?_⟩⟩
  · exact run.spawns_iff.mpr ⟨a, t, ha, leads.lead, rfl⟩
  · exact fun b hb hxb => (hnearest b hb hxb).2

/-- A step without a child starts no worker. -/
theorem spawns_of_alone {o : Others} {s : Shared σ ν} (h : t.Does walk o s m)
    (alone : m.child = none) (tr : Trace) (i : ThreadId) (d : Dir) :
    Trace.Spawns (tr ++ [(i, m.event)]) d ↔ tr.Spawns d := by
  rw [Trace.spawns_append, or_iff_left_iff_imp]
  intro hnew
  obtain ⟨j, hnew⟩ := hnew
  have hchild := (h.of_spawned hnew).2
  simp [alone] at hchild

/-- A step of the thread at work is nothing to those who wait. -/
theorem Relay.update {home : Dir} (relay : Relay f w a home above later) (kin : w.Kin)
    (ht : w.threads[a]? = some t) (m : Moved σ ν) : Relay f (w.update a m) a home above later := by
  refine relay.map fun i hi u j d fs hu hwaits => ⟨u, ?_, rfl, hwaits⟩
  exact getElem?_update_of_ne ht m hu (Nat.ne_of_lt (relay.lt kin hi))

/-- Nobody waits for the calling thread. -/
theorem Leads.later_of_caller (leads : Leads walk f p tr w a t above later) (kin : w.Kin)
    (caller : (w.others a room).caller = true ∨ a = 0) : later = [] := by
  have ha : a = 0 := caller.elim (fun h => by simpa [others] using h) id
  have habove := (leads.relay.caller_iff kin).mp ha
  have hrelay := leads.relay
  rw [habove] at hrelay
  cases hrelay with
  | caller => rfl

/-- The thread at work goes on. -/
theorem Leads.move (leads : Leads walk f p tr w a t above later)
    (run : Run walk meddle (.initial plan root store state) tr w) (lineal : w.Lineal f root)
    (h : t.Does walk (w.others a room) w.shared m) (alone : m.child = none)
    (agrees : m.event.Agrees f) (first : ∀ d es, m.event = .listed d (.ok es) → FilesFirst es) :
    Leads walk f p (tr ++ [(a, m.event)]) (w.update a m) a m.thread above later := by
  have hkin := (Kin.initial plan root store state).of_run run
  have hplaced := hkin.placed a t leads.lead
  have hspawns := spawns_of_alone h alone tr a
  refine ⟨getElem?_update_self leads.lead m, ?relay, ?free, h.neat hplaced first leads.neat alone,
    ?sound, ?passed, ?blame, ?told⟩
  case relay =>
    rw [h.home_eq]
    exact leads.relay.update hkin leads.lead m
  case free =>
    rw [List.eq_nil_iff_forall_not_mem]
    intro j hj
    rcases h.waitsFor_new hj with hold | ⟨-, hchild⟩
    · rw [leads.free] at hold
      cases hold
    · simp [alone] at hchild
  case sound =>
    rw [shared_update]
    exact h.sound hplaced leads.sound
  case passed =>
    refine forall_update leads.lead (.inl rfl) (fun d hd => ?_) fun j u hj hu => ?_
    · rw [alone] at hd
      cases hd
    · refine (leads.passed j u hu).imp_right (Or.imp_right (And.imp_right fun hlow x hx => ?_))
      rcases List.mem_append.mp hx with hx | hx
      · exact hlow x (List.mem_append_left _ (h.errands_subset agrees alone hx))
      · exact hlow x (List.mem_append_right _ hx)
  case blame =>
    intro hdead
    rw [Trace.work_append, h.home_eq]
    rcases h.dies hdead with ⟨hbefore, hnone⟩ | ⟨c, hplace, hone, hdir⟩
    · obtain ⟨c, hc, hblames⟩ := leads.blame hbefore
      exact ⟨c, by rwa [hnone, List.append_nil], hblames.mono hspawns⟩
    · have hlast : lastDir? (tr.work ++ [m.event]) = some c := by
        rw [lastDir?, List.getLast?_concat]
        exact hdir
      exact ⟨c, hone ▸ hlast, (leads.blames run lineal hplace).mono hspawns⟩
  case told =>
    rw [shared_update, Trace.work_append, ← Passage.after_after,
      ← h.ahead hplaced leads.sound leads.free agrees alone (leads.later_of_caller hkin)]
    exact leads.told.mono hspawns fun hoff => (h.off hoff).1

/-- The thread at work leaves what is below a subdirectory to a worker. -/
theorem Leads.handOver (leads : Leads walk f p tr w a t above later)
    (run : Run walk meddle (.initial plan root store state) tr w) (lineal : w.Lineal f root)
    (h : t.Does walk (w.others a room) w.shared m) {c : Dir} (child : m.child = some c) :
    ∃ left, Leads walk f p (tr ++ [(a, m.event)]) (w.update a m) w.threads.size (.fresh c)
      (a :: above) left := by
  have hkin := (Kin.initial plan root store state).of_run run
  have hplaced := hkin.placed a t leads.lead
  obtain ⟨hevent, hshared, htask, d, fs, hc, hspent, hfree, hwaits, herrands⟩ :=
    h.handOver hplaced leads.neat (lineal.lineal a t leads.lead) leads.free child
  have hahead : walk.ahead f t later w.shared = walk.ahead f (.fresh c)
      ((.act (.leave d) :: f.trip fs) ++ later) w.shared := by
    obtain ⟨home, stack, task⟩ := t
    subst htask
    simp only [Walk.ahead, herrands]
    simp [Thread.fresh, Thread.errands, Task.errands]
  refine ⟨(.act (.leave d) :: f.trip fs) ++ later, getElem?_update_fresh leads.lead child, ?relay,
    rfl, fun _ h => (by cases h), ?sound, ?passed, fun h => h.elim, ?told⟩
  case relay =>
    refine .worker (getElem?_update_self leads.lead m) hwaits hspent hfree hc ?_
    rw [h.home_eq]
    exact leads.relay.update hkin leads.lead m
  case sound =>
    trivial
  case passed =>
    refine forall_update leads.lead (.inr (.inl List.mem_cons_self)) (fun _ _ => .inl rfl) ?_
    intro j u hj hu
    rcases leads.passed j u hu with hja | habove | ⟨hended, hlow⟩
    · exact absurd hja hj
    · exact .inr (.inl (List.mem_cons_of_mem _ habove))
    · refine .inr (.inr ⟨hended, fun x hx => hlow x ?_⟩)
      rw [herrands]
      simpa [Thread.fresh, Thread.errands, Task.errands] using hx
  case told =>
    rw [shared_update, hshared, Trace.work_append, hevent, ← hahead]
    have hnone : Event.work (.spawned (w.others a room).fresh c) = [] := rfl
    rw [hnone, List.append_nil]
    rw [leads.told.of_calm fun hoff => ?_]
    · exact .plain
    · simp [(h.off hoff).2] at child

/-- A step of a thread that waits shows no work and leaves what the threads share as it is. -/
theorem still_of_waits {u : Thread σ ν} {j : ThreadId} {d : Dir} {fs : List Frame}
    (waits : Thread.Waits j d fs u) (h : u.Does walk (w.others i room) w.shared m) (tr : Trace) :
    m.child = none ∧ Trace.work (tr ++ [(i, m.event)]) = tr.work ∧
      (w.update i m).shared = w.shared := by
  obtain ⟨hevent, hshared, hchild, -⟩ := h.of_waits waits
  refine ⟨hchild, ?_, (shared_update w i m).trans hshared⟩
  rw [Trace.work_append, hevent]
  exact List.append_nil _

/-- A thread that waits takes a step and waits on. -/
theorem Leads.wait (leads : Leads walk f p tr w a t above later) (kin : w.Kin) {u : Thread σ ν}
    (hi : i ∈ above) (hu : w.threads[i]? = some u) {j : ThreadId} {d : Dir} {fs : List Frame}
    (waits : Thread.Waits j d fs u) (h : u.Does walk (w.others i room) w.shared m)
    (still : Thread.Waits j d fs m.thread) :
    Leads walk f p (tr ++ [(i, m.event)]) (w.update i m) a t above later := by
  obtain ⟨hchild, hwork, hsame⟩ := still_of_waits waits h tr
  have hlt := leads.relay.lt kin hi
  have hspawns := spawns_of_alone h hchild tr i
  refine ⟨getElem?_update_of_ne hu m leads.lead (Nat.ne_of_gt hlt), ?relay, leads.free, leads.neat,
    ?sound, ?passed, ?blame, ?told⟩
  case relay =>
    refine leads.relay.map fun k hk v j' d' fs' hv hwaits => ?_
    by_cases hki : k = i
    · subst hki
      obtain rfl := Option.some.inj (hv.symm.trans hu)
      obtain ⟨rfl, rfl, rfl⟩ := waits.unique hwaits
      exact ⟨m.thread, getElem?_update_self hu m, h.home_eq, still⟩
    · exact ⟨v, getElem?_update_of_ne hu m hv hki, rfl, hwaits⟩
  case sound =>
    rw [hsame]
    exact leads.sound
  case passed =>
    refine forall_update hu (.inr (.inl hi)) (fun c hc => ?_) fun k v _ hv => leads.passed k v hv
    simp [hchild] at hc
  case blame =>
    intro hdead
    obtain ⟨c, hc, hblames⟩ := leads.blame hdead
    exact ⟨c, hwork ▸ hc, hblames.mono hspawns⟩
  case told =>
    rw [hsame, hwork]
    exact leads.told.mono hspawns id

/-- Whoever finds a worker ended goes on with what the worker has left; only a panic of the worker
has become a failure. -/
theorem Leads.told_joined {r : Outcome Unit} {home' d : Dir} {fs : List Frame} {left : List Errand}
    (leads : Leads walk f p tr w a ⟨home, [], .ended r⟩ above
      ((.act (.leave d) :: f.trip fs) ++ left))
    (worker : a ≠ 0) (calm : ∀ e, r ≠ .error (.failed e)) :
    p.Told f tr ⟨home', fs, .joined home d r⟩ w.shared
      ((walk.ahead f ⟨home', fs, .joined home d r⟩ left w.shared).after tr.work) := by
  have htold := leads.told
  rcases r with (e | q) | ⟨⟨⟩⟩
  · exact absurd rfl (calm e)
  · obtain ⟨c, hc, hblames⟩ := leads.blame rfl
    obtain rfl : (Passage.dead q w.shared.standing).after tr.work = p := htold.of_panicked rfl
    have hwork : ((Passage.dead q w.shared.standing).after tr.work).work = tr.work :=
      List.append_nil _
    have hplace : lastDir? ((Passage.dead q w.shared.standing).after tr.work).work = some c := by
      rwa [hwork]
    have hdied := Passage.Told.died (t := ⟨home', fs, .joined home d (.error (.panicked q))⟩)
      (s := w.shared) rfl hplace (hblames.worker worker) trivial
    rw [hwork] at hdied
    exact hdied
  · exact htold.mono (fun _ => Iff.rfl) id

/-- A thread finds that its worker has ended, and goes on. -/
theorem Leads.takeOver (leads : Leads walk f p tr w a t above later)
    (run : Run walk meddle (.initial plan root store state) tr w) (lineal : w.Lineal f root)
    (hi : above.head? = some i) {u : Thread σ ν} (hu : w.threads[i]? = some u) {d : Dir}
    {fs : List Frame}
    (waits : Thread.Waits a d fs u) (h : u.Does walk (w.others i room) w.shared m)
    {home : Dir} {r : Outcome Unit} (ended : w.ended? a = some (home, r))
    (moved : m.thread = ⟨u.home, fs, .joined home d r⟩) :
    ∃ above' left, Leads walk f p (tr ++ [(i, m.event)]) (w.update i m) i m.thread above' left := by
  have hkin := (Kin.initial plan root store state).of_run run
  obtain ⟨hchild, hwork, hsame⟩ := still_of_waits waits h tr
  have hspawns := spawns_of_alone h hchild tr i
  obtain ⟨above', left, rfl, rfl, hspent, hfree, hbelow, hrest⟩ := leads.relay.of_head hi hu waits
  have hne : a ≠ 0 := fun ha => by simpa using (leads.relay.caller_iff hkin).mp ha
  have hlow := leads.relay.higher lineal
  -- The worker that has ended.
  obtain ⟨v, hv, rfl, hresult⟩ := ended?_eq_some ended
  obtain rfl := Option.some.inj (hv.symm.trans leads.lead)
  have hplaced := hkin.placed a v hv
  obtain ⟨home, stack, task⟩ := v
  obtain rfl := Task.eq_ended_of_result? hresult
  obtain ⟨rfl, hfine⟩ := hplaced
  have hcalm := hfine hne
  refine ⟨above', left, getElem?_update_self hu m, ?relay, ?free, ?neat, ?sound, ?passed,
    ?blame, ?told⟩
  case relay =>
    rw [h.home_eq]
    exact hrest.update hkin hu m
  case free =>
    rw [moved]
    simpa [Thread.waitsFor] using hfree
  case neat =>
    rw [moved]
    exact Task.neat_joined _ _ _ hspent
  case sound =>
    rw [moved]
    exact Task.sound_joined _ _ _ _ _
  case passed =>
    refine forall_update hu (.inl rfl) (fun c hc => ?_) fun j x hj hx => ?_
    · simp [hchild] at hc
    · have herrands : m.thread.errands f = .act (.leave d) :: f.trip fs := by
        simp [moved, Thread.errands]
      rw [herrands]
      rcases leads.passed j x hx with rfl | habove | ⟨hended, hhigher⟩
      · obtain rfl := Option.some.inj (hx.symm.trans hv)
        exact .inr (.inr ⟨rfl, hlow.2⟩)
      · rcases List.mem_cons.mp habove with rfl | habove
        · exact absurd rfl hj
        · exact .inr (.inl habove)
      · exact .inr (.inr ⟨hended, fun y hy => hhigher y (List.mem_append_right _ hy)⟩)
  case blame =>
    intro hdead
    rw [moved] at hdead
    exact absurd hdead (Task.not_dead_joined _ _ _)
  case told =>
    rw [hsame, hwork, moved]
    exact (leads.told_joined hne hcalm).mono hspawns id

/-- What a step of the thread at work brings of a listing the passage has brought. -/
theorem Leads.listed_mem (leads : Leads walk f p tr w a t above later)
    (h : t.Does walk (w.others a room) w.shared m) {d : Dir} {es : List Entry}
    (listed : m.event = .listed d (.ok es)) : .listed d (.ok es) ∈ p.work := by
  rw [← leads.told.same.1]
  exact List.mem_append_right _ (h.listed_mem listed later)

/-- Whoever takes a step, one thread is at work before and after. -/
theorem Leads.step {e : Event} (leads : Leads walk f p tr w a t above later)
    (run : Run walk meddle (.initial plan root store state) tr w) (lineal : w.Lineal f root)
    (lists : ∀ d es, .listed d (.ok es) ∈ p.work → es = f.listing d.inode)
    (line : ∀ d ∈ f.dirs root, FilesFirst (f.listing d.inode))
    (step : w.step walk i room = some (e, w')) :
    e.Agrees f ∧ ∃ a t above later, Leads walk f p (tr ++ [(i, e)]) w' a t above later := by
  have hkin := (Kin.initial plan root store state).of_run run
  obtain ⟨u, m, hu, hdoes, rfl, rfl⟩ := step_eq_some step
  rcases leads.passed i u hu with rfl | habove | ⟨hended, -⟩
  · -- The thread at work goes on, or leaves a subdirectory to a worker.
    obtain rfl := Option.some.inj (hu.symm.trans leads.lead)
    have hevent : m.event.Agrees f := fun d es heq => lists d es (leads.listed_mem hdoes heq)
    refine ⟨hevent, ?_⟩
    cases hchild : m.child with
    | some c =>
      obtain ⟨left, hfresh⟩ := leads.handOver run lineal hdoes hchild
      exact ⟨_, _, _, left, hfresh⟩
    | none =>
      refine ⟨i, m.thread, above, later, leads.move run lineal hdoes hchild hevent ?_⟩
      intro d es hlisted
      rw [hevent d es hlisted]
      exact line d (lineal.mem_dirs hu (hdoes.hangs_of_listed (lineal.lineal i u hu) hlisted))
  · -- A thread that waits looks whether its worker has ended.
    obtain ⟨v, j, d, fs, hv, hwaits, hnext⟩ := leads.relay.waits habove
    obtain rfl := Option.some.inj (hu.symm.trans hv)
    obtain ⟨hquiet, -, -, hcases⟩ := hdoes.of_waits hwaits
    have hagrees : m.event.Agrees f := by
      rw [hquiet]
      exact fun d es heq => by cases heq
    refine ⟨hagrees, ?_⟩
    rcases hcases with hstill | ⟨home, r, hended, hmoved⟩
    · exact ⟨a, t, above, later, leads.wait hkin habove hu hwaits hdoes hstill⟩
    · change w.ended? j = _ at hended
      rcases hnext with ⟨hfirst, rfl⟩ | hj
      · obtain ⟨above', left, htaken⟩ :=
          leads.takeOver run lineal hfirst hu hwaits hdoes hended hmoved
        exact ⟨i, m.thread, above', left, htaken⟩
      · rw [leads.relay.alive hj] at hended
        cases hended
  · rw [hdoes.result?_eq_none] at hended
    cases hended

end Leads

/-- Throughout a walk that nobody disturbs, through a subtree that goes down in one line, one thread
alone is at work, and it does what is left of the recursive traversal. -/
theorem Run.exists_leads (run : Run walk (fun _ _ => False) (.initial plan root store state) tr w)
    (lists : ∀ d es, .listed d (.ok es) ∈ (walk.along (f.tour root) ⟨store, state, none⟩).work →
      es = f.listing d.inode)
    (line : ∀ d ∈ f.dirs root, FilesFirst (f.listing d.inode)) : tr.Agrees f ∧
      ∃ a t above later,
        Leads walk f (walk.along (f.tour root) ⟨store, state, none⟩) tr w a t above later := by
  induction run with
  | nil =>
    refine ⟨fun _ h => (nomatch h), 0, .fresh root, [], [], rfl, .caller, rfl,
      fun _ h => (nomatch h), trivial, fun j u hu => .inl (eq_of_initial hu).1, fun h => h.elim, ?_⟩
    have hahead : walk.ahead f (.fresh root) [] (initial plan root store state).shared =
        walk.along (f.tour root) ⟨store, state, none⟩ := by
      simp [Walk.ahead, Shared.standing, initial, Thread.fresh, Thread.errands, Task.errands]
    rw [hahead]
    exact .plain
  | outside _ hchange => exact hchange.elim
  | @step tr w w' i room e run hstep ih =>
    obtain ⟨hagrees, a, t, above, later, hleads⟩ := ih
    have hlineal := Lineal.of_run (.initial ..) (.initial f plan root store state) run hagrees
    obtain ⟨hevent, hnext⟩ := hleads.step run hlineal lists line hstep
    exact ⟨hagrees.concat hevent, hnext⟩

end World

end ShardSweep
