import ShardSweep.Proofs.Walk.Bound
import ShardSweep.Proofs.Walk.Orderly

/-!
# Directories are left last

A directory is left at most once, and only after everything that is below it went well.  So
where a listing, a visit, a leaving or a worker failed, no directory further up is left.

* `World.Run.exists_split`: the walk at the moment of some event;
* `World.Run.ready_of_left`: what the walk has shown before it has left a directory;
* `World.Run.not_failsAt_of_left`: nothing fails below a directory that was left;
* `World.Run.fails_of_dead`: a thread that died has shown a failure below its home;
* `World.Run.leave_last`: all of this together.
-/

namespace ShardSweep

variable {σ ν : Type}

/-- A failure in a directory that nobody but the walk can handle. -/
inductive Event.FailsAt : Dir → Event → Prop
  | listing {d h} : FailsAt d (.listed d (.error h))
  | acting {site h} : FailsAt site.dir (.acted site (.error h))
  | dying {site r p} : FailsAt site.dir (.answered site r (.error (.panicked p)))

/-- The thread is dying or has died. -/
def Task.Dead : Task σ ν → Prop
  | .unwinding _ => True
  | .releasing _ result => Outcome.isPanic result = true
  | .ended result => Outcome.isPanic result = true
  | _ => False

theorem Site.not_dead_onward (site : Site) : ¬ (site.onward : Task σ ν).Dead :=
  site.onward_ind (P := fun task => ¬ task.Dead) (fun _ => id) id

theorem Site.dir_mem {f : Forest} {home : Dir} {stack : List Frame} {site : Site}
    (stacked : f.Stacked home stack) (placed : site.Placed stack)
    (lineal : site.Lineal f home stack) : site.dir ∈ f.dirs home := by
  have hstacked := stacked.mem_dirs (Forest.self_mem_dirs home)
  cases site with
  | visit d e =>
    obtain ⟨es, ws, fs, rfl⟩ := placed
    exact hstacked.1 ⟨d, es, ws⟩ List.mem_cons_self
  | leave d => exact hstacked.2 d lineal

/-- Whoever dies has shown a failure below its home. -/
theorem Thread.Does.dead {walk : Walk σ ν} {o : Others} {t : Thread σ ν} {s : Shared σ ν}
    {m : Moved σ ν} (h : Does walk o t s m) {f : Forest} {i : ThreadId}
    (placed : t.task.Placed i t.stack) (stacked : f.Stacked t.home t.stack)
    (lineal : t.task.Lineal f t.home t.stack) (dead : m.thread.task.Dead) :
    t.task.Dead ∨ ∃ d ∈ f.dirs t.home, m.event.FailsAt d := by
  cases h with
  | dieListing =>
    have hmem := (stacked.mem_dirs (Forest.self_mem_dirs _)).2 _ lineal
    exact .inr ⟨_, hmem, .listing⟩
  | dieActing => exact .inr ⟨_, Site.dir_mem stacked placed lineal, .acting⟩
  | dieCall => exact .inr ⟨_, Site.dir_mem stacked placed lineal, .dying⟩
  | finishActing => exact absurd dead (Site.not_dead_onward _)
  | unwindCaller | unwindWorker => exact .inl trivial
  | release | endRelease => exact .inl dead
  | _ => cases dead

namespace World

variable {f : Forest} {walk : Walk σ ν} {meddle : Flagged σ → Flagged σ → Prop} {plan : WalkPlan}
  {root : Dir} {store : Flagged σ} {state : ν} {tr : Trace} {w : World σ ν}

theorem Run.exists_split {start : World σ ν} (run : Run walk meddle start tr w)
    {before after : Trace}
    {i : ThreadId} {e : Event} (split : tr = before ++ (i, e) :: after) :
    ∃ w₁ w₂ room, Run walk meddle start before w₁ ∧ w₁.step walk i room = some (e, w₂) := by
  induction run generalizing after with
  | nil => simp at split
  | @step tr w w' j room e' run hstep ih =>
    rcases List.eq_nil_or_concat after with rfl | ⟨after', last, rfl⟩
    · obtain ⟨rfl, hlast⟩ := List.append_inj' split rfl
      obtain ⟨rfl, rfl⟩ := Prod.mk.inj (List.singleton_inj.mp hlast)
      exact ⟨w, w', room, run, hstep⟩
    · have hsplit : tr ++ [(j, e')] = (before ++ (i, e) :: after') ++ [last] := by simpa using split
      exact ih (List.append_inj' hsplit rfl).1
  | outside _ _ ih => exact ih split

theorem Run.fails_of_dead (run : Run walk meddle (.initial plan root store state) tr w)
    (agrees : tr.Agrees f) :
    ∀ (i : Nat) (t : Thread σ ν), w.threads[i]? = some t → t.task.Dead →
      ∃ d ∈ f.dirs t.home, ∃ e, tr.Shows e ∧ e.FailsAt d := by
  induction run with
  | nil =>
    intro i t ht hdead
    obtain ⟨rfl, rfl⟩ := eq_of_initial ht
    exact hdead.elim
  | @step tr w w' i room e run hstep ih =>
    obtain ⟨t, m, ht, hdoes, rfl, rfl⟩ := step_eq_some hstep
    have hkin := (Kin.initial plan root store state).of_run run
    have hlineal := Lineal.of_run (.initial plan root store state) (.initial f plan root store state)
      run agrees.init
    have hold : ∀ (j : Nat) (u : Thread σ ν), w.threads[j]? = some u → u.task.Dead →
        ∃ d ∈ f.dirs u.home, ∃ e, Trace.Shows (tr ++ [(i, m.event)]) e ∧ e.FailsAt d := by
      intro j u hu hdead
      obtain ⟨d, hd, e, hshown, hfails⟩ := ih agrees.init j u hu hdead
      exact ⟨d, hd, e, hshown.append _, hfails⟩
    refine forall_update ht ?_ (fun _ _ h => h.elim) fun j u _ hu => hold j u hu
    intro hdead
    rw [hdoes.home_eq]
    rcases hdoes.dead (hkin.placed i t ht) (hlineal.stacked i t ht) (hlineal.lineal i t ht) hdead with
      hdead | ⟨d, hd, hfails⟩
    · exact hold i t ht hdead
    · exact ⟨d, hd, m.event, ⟨i, by simp⟩, hfails⟩
  | outside _ _ ih => exact ih agrees

section

variable (run : Run walk meddle (.initial plan root store state) tr w)
  (requests : walk.metadata.Within Flagged.Keeps) (meddled : ∀ s s', meddle s s' → s.Keeps s')
  (agrees : tr.Agrees f)

include run requests meddled agrees

private theorem Run.ready_at {before after : Trace} {i : ThreadId} {d : Dir} {e : Event}
    (split : tr = before ++ (i, e) :: after)
    (leave : e = .acting (.leave d) ∨ e = .acted (.leave d) (.ok ())) : before.Ready f d := by
  obtain ⟨w₁, w₂, room, hrun, hstep⟩ := run.exists_split split
  obtain ⟨t, m, ht, hdoes, rfl, -⟩ := step_eq_some hstep
  have hagrees : before.Agrees f := fun x hx => agrees x (by simp [split, hx])
  rcases leave with hleave | hleft
  · obtain ⟨htask, hdown⟩ := hdoes.of_leave hleave
    have horderly := hrun.orderly requests meddled hagrees hdown i t ht
    rw [htask] at horderly
    exact Forest.Orderly.ready horderly
  · exact hrun.ready requests meddled hagrees i t ht (hdoes.of_acted hleft)

/-- Everything below a directory that was left went well before. -/
theorem Run.ready_of_left {d : Dir} (left : tr.Left d) : tr.Ready f d := by
  obtain ⟨i, hi⟩ := left
  obtain ⟨before, after, split⟩ := List.append_of_mem hi
  have hready := run.ready_at requests meddled agrees split (.inr rfl)
  rw [split]
  exact ⟨hready.listed.append _, fun e he => (hready.visited e he).append _,
    fun c hc => (hready.left c hc).append _⟩

/-- If a directory that was left had everything in order, so had all that is below it. -/
theorem Run.left_below {b : Dir} (left : tr.Left b) {c : Dir} (hc : c ∈ f.dirs b) :
    tr.Left c ∧ tr.Ready f c := by
  induction b using f.induct with
  | step b ih =>
    have hready := run.ready_of_left requests meddled agrees left
    rcases Forest.mem_dirs.mp hc with rfl | ⟨b', hb', hc⟩
    · exact ⟨left, hready⟩
    · exact ih b' hb' (hready.left b' hb') hc

end

/-- A walk through a tree shows a moment in one way only. -/
private theorem Run.shown_eq (run : Run walk meddle (.initial plan root store state) tr w)
    (agrees : tr.Agrees f) (tree : f.IsTree root) {e e' : Event} {mo : Moment}
    (shown : tr.Shows e) (shown' : tr.Shows e') (moment : e.moment? = some mo)
    (moment' : e'.moment? = some mo) : e = e' := by
  obtain ⟨i, hi⟩ := shown
  obtain ⟨j, hj⟩ := shown'
  have hmem : (i, e) ∈ tr.filter fun shown => shown.2.moment? = some mo :=
    List.mem_filter.mpr ⟨hi, by simpa using moment⟩
  have hmem' : (j, e') ∈ tr.filter fun shown => shown.2.moment? = some mo :=
    List.mem_filter.mpr ⟨hj, by simpa using moment'⟩
  have hlength := run.once agrees tree mo
  rw [List.countP_eq_length_filter] at hlength
  cases hfilter : tr.filter fun shown => shown.2.moment? = some mo with
  | nil => simp [hfilter] at hmem
  | cons x rest =>
    rw [hfilter, List.length_cons] at hlength
    obtain rfl : rest = [] := List.length_eq_zero_iff.mp (by omega)
    rw [hfilter, List.mem_singleton] at hmem hmem'
    exact congrArg Prod.snd (hmem.trans hmem'.symm)

/-- Where everything went well in the end nothing failed before or after. -/
private theorem Run.not_failsAt (run : Run walk meddle (.initial plan root store state) tr w)
    (agrees : tr.Agrees f) (tree : f.IsTree root) {c : Dir} (ready : tr.Ready f c)
    (left : tr.Left c) {e : Event} (shown : tr.Shows e) : ¬ e.FailsAt c := by
  intro hfails
  have hsite : ∀ site : Site, site.dir = c → ∀ {e' : Event}, tr.Shows e' →
      e'.moment? = some (.acted site) → e' = .acted site (.ok ()) := by
    intro site hdir e' hshown hmoment
    have hbelongs := run.belongs agrees hshown hmoment
    cases site with
    | visit d en =>
      obtain rfl : d = c := hdir
      exact run.shown_eq agrees tree hshown (ready.visited en hbelongs.2) hmoment rfl
    | leave d =>
      obtain rfl : d = c := hdir
      exact run.shown_eq agrees tree hshown left hmoment rfl
  cases hfails with
  | listing => exact nomatch run.shown_eq agrees tree shown ready.listed rfl rfl
  | acting => exact nomatch hsite _ rfl shown rfl
  | dying => exact nomatch hsite _ rfl shown rfl

/-- Nothing fails below a directory that was left. -/
theorem Run.not_failsAt_of_left (run : Run walk meddle (.initial plan root store state) tr w)
    (requests : walk.metadata.Within Flagged.Keeps) (meddled : ∀ s s', meddle s s' → s.Keeps s')
    (agrees : tr.Agrees f) (tree : f.IsTree root) {d c : Dir} (left : tr.Left d) (hc : c ∈ f.dirs d)
    {e : Event} (shown : tr.Shows e) : ¬ e.FailsAt c := by
  obtain ⟨hleft, hready⟩ := run.left_below requests meddled agrees left hc
  exact run.not_failsAt agrees tree hready hleft shown

/-- A walk leaves no directory twice.  When it leaves one, it was listed, its entries were
visited and its subdirectories were left, all of which went well; the same holds of every
directory below it, where nothing fails and no worker dies, neither before nor after. -/
theorem Run.leave_last (run : Run walk meddle (.initial plan root store state) tr w)
    (requests : walk.metadata.Within Flagged.Keeps) (meddled : ∀ s s', meddle s s' → s.Keeps s')
    (agrees : tr.Agrees f) (tree : f.IsTree root) {before after : Trace} {i : ThreadId} {d : Dir}
    (leave : tr = before ++ (i, .acting (.leave d)) :: after) :
    (∀ j d', d'.inode = d.inode → (j, .acting (.leave d')) ∉ before ++ after) ∧
    before.Ready f d ∧
    ∀ c ∈ f.dirs d, c ≠ d → before.Ready f c ∧ before.Left c ∧
      (∀ e, tr.Shows e → ¬ e.FailsAt c) ∧
      ∀ (j : Nat) (t : Thread σ ν), w.threads[j]? = some t → t.home = c → ¬ t.task.Dead := by
  have hready := run.ready_at requests meddled agrees leave (.inl rfl)
  have hbefore : ∀ e, before.Shows e → tr.Shows e := by
    intro e h
    obtain ⟨j, hj⟩ := h
    exact ⟨j, by simp [leave, hj]⟩
  refine ⟨?once, hready, ?below⟩
  case once =>
    intro j d' hinode hmem
    have hroot := run.belongs agrees (e := .acting (.leave d)) ⟨i, by simp [leave]⟩ rfl
    have hroot' := run.belongs agrees (e := .acting (.leave d'))
      ⟨j, by rw [leave]; simpa [or_left_comm] using Or.inr (List.mem_append.mp hmem)⟩ rfl
    obtain rfl : d' = d := List.inj_on_of_nodup_map tree.dirs hroot' hroot hinode
    have honce := run.once agrees tree (.acting (.leave d'))
    have hmore : 0 < (before ++ after).countP fun shown =>
        shown.2.moment? = some (.acting (.leave d')) :=
      List.countP_pos_iff.mpr ⟨_, hmem, by simp [Event.moment?]⟩
    rw [leave, List.countP_append, List.countP_cons_of_pos (by simp [Event.moment?])] at honce
    rw [List.countP_append] at hmore
    omega
  case below =>
    intro c hc hne
    obtain ⟨w₁, w₂, room, hrun, -⟩ := run.exists_split leave
    have hagrees : before.Agrees f := fun x hx => agrees x (by simp [leave, hx])
    have hbelow : ∀ c ∈ f.dirs d, c ≠ d → before.Left c ∧ before.Ready f c := by
      intro c hc hne
      rcases Forest.mem_dirs.mp hc with rfl | ⟨b, hb, hc⟩
      · exact absurd rfl hne
      · exact hrun.left_below requests meddled hagrees (hready.left b hb) hc
    have hfails : ∀ c ∈ f.dirs d, c ≠ d → ∀ e, tr.Shows e → ¬ e.FailsAt c := by
      intro c hc hne e hshown
      obtain ⟨hleft, hready⟩ := hbelow c hc hne
      refine run.not_failsAt agrees tree ⟨hbefore _ hready.listed, ?_, ?_⟩ (hbefore _ hleft) hshown
      · exact fun e he => hbefore _ (hready.visited e he)
      · exact fun b hb => hbefore _ (hready.left b hb)
    refine ⟨(hbelow c hc hne).2, (hbelow c hc hne).1, hfails c hc hne, ?_⟩
    intro j t ht heq hdead
    subst heq
    obtain ⟨b, hb, e, hshown, hfailsAt⟩ := run.fails_of_dead agrees j t ht hdead
    refine hfails b (Forest.mem_dirs_trans hc hb) ?_ e hshown hfailsAt
    intro heq
    subst heq
    have hle := Forest.height_le_of_mem_dirs hb
    have hlt := Forest.height_lt_of_mem_dirs hc hne
    omega

end World

/-- The requests of a table raise the flag at most. -/
theorem Table.metadata_within (t : Table) : t.metadata.Within Flagged.Keeps := by
  intro r
  refine ⟨?_, fun _ => trivial⟩
  intro s hs
  simp [note, hs]

/-- The root directory of the recorded walk with its subdirectory. -/
def Forest.oneDir : Forest where
  listing i := if i = rootInode then [⟨"a", 2, rootInode, .dir⟩] else []
  height i := if i = rootInode then 1 else 0
  height_lt i e he _ := by
    by_cases hi : i = rootInode
    · rw [if_pos hi, List.mem_singleton] at he
      subst he
      simp [hi, rootInode]
    · rw [if_neg hi] at he
      cases he

private theorem Forest.isTree_oneDir : Forest.oneDir.IsTree ⟨1, 0, ""⟩ where
  dirs := by decide
  entries d _ := by
    simp only [oneDir]
    split <;> simp

/-- What the recorded walk shows in its first moves. -/
def Trace.oneDir (moves : Nat) : Trace :=
  (World.oneDir 0).trail Walk.oneDir .newestFirst moves 0

/-- The subdirectory is left to a worker.  When the calling thread leaves the root, the worker has
left the subdirectory, and has not died there. -/
theorem World.Run.leave_last_oneDir :
    (World.oneDir 25).threads.size = 2 ∧ (Trace.oneDir 25).Ready .oneDir ⟨1, 0, ""⟩ ∧
      (Trace.oneDir 25).Ready .oneDir ⟨2, 1, "a"⟩ ∧ (Trace.oneDir 25).Left ⟨2, 1, "a"⟩ ∧
      ∃ w, Run Walk.oneDir (fun _ _ => False) (World.oneDir 0)
        (Trace.oneDir 25 ++ [(0, .acting (.leave ⟨1, 0, ""⟩))]) w ∧
        ∀ (j : Nat) t, w.threads[j]? = some t → t.home = ⟨2, 1, "a"⟩ → ¬ t.task.Dead := by
  have hnobody : Schedule.Within .newestFirst fun _ _ : Flagged (List String) => False :=
    fun _ _ h => nomatch h
  have hstart : Run Walk.oneDir (fun _ _ => False) (World.oneDir 0) [] (World.oneDir 0) := .nil
  have hleaves : (World.oneDir 25).step Walk.oneDir 0 true = some (.acting (.leave ⟨1, 0, ""⟩), _) :=
    rfl
  have run := (run_drive hnobody hstart 25 0).step hleaves
  have hagrees : Trace.Agrees .oneDir (Trace.oneDir 25 ++ [(0, .acting (.leave ⟨1, 0, ""⟩))]) := by
    decide +kernel
  obtain ⟨-, hroot, hbelow⟩ := run.leave_last (Table.metadata_within _) (fun _ _ h => h.elim)
    hagrees Forest.isTree_oneDir rfl
  obtain ⟨hsub, hleft, -, halive⟩ := hbelow ⟨2, 1, "a"⟩ (by decide) (by decide)
  exact ⟨by decide +kernel, hroot, hsub, hleft, _, run, halive⟩

end ShardSweep
