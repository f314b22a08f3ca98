import ShardSweep.Proofs.Path
import ShardSweep.Proofs.Sweep.Job

/-!
# Jobs that make no sense

The arguments of a job are looked at before anything is asked.  Each job looks at its
arguments in an order of its own, and the root is known under four descriptions: its number, its
name, a path without names, and a path whose names all cancel.  A job that is wrong in several
ways is refused for one of them.

* `Path.Cancels`: a path that comes back to the root, as nested pairs of a name and `..`;
* `Path.normalize_eq_nil_iff`: no name is left of a path exactly if it cancels;
* `Job.Wrong`: the defects, each with the refusal that names it;
* `Job.Refused`: a job is refused whoever would answer, and nobody is called;
* `Job.refused_of_wrong`: a job with any defect is refused for a defect that it has.
-/

namespace ShardSweep

namespace Path

/-- Pieces of a path that come back to the root. -/
inductive Cancels : List String → Prop
  | nil : Cancels []
  /-- A piece that stands for the directory itself. -/
  | here {piece : String} {rest : List String} (here : piece = "" ∨ piece = ".")
      (cancels : Cancels rest) : Cancels (piece :: rest)
  /-- The root is above itself. -/
  | up {rest : List String} (cancels : Cancels rest) : Cancels (".." :: rest)
  /-- A piece is taken back, and so is everything in between. -/
  | nest (piece : String) {inner rest : List String} (inside : Cancels inner)
      (cancels : Cancels rest) : Cancels (piece :: (inner ++ ".." :: rest))

variable {pieces trail : List String}

/-- Two dots lead up, and stay at the root. -/
private theorem enter_up (trail : List String) : enter trail ".." = trail.tail := by
  rw [enter, if_neg (by decide), if_pos rfl]

/-- One dot or nothing leads nowhere. -/
private theorem enter_here {piece : String} (here : piece = "" ∨ piece = ".")
    (trail : List String) : enter trail piece = trail :=
  if_pos here

/-- From anywhere else such pieces lead upwards. -/
private theorem Cancels.exists_drop (h : Cancels pieces) (trail : List String) :
    ∃ k, pieces.foldl enter trail = trail.drop k := by
  induction h generalizing trail with
  | nil => exact ⟨0, rfl⟩
  | here hhere _ ih =>
    rw [List.foldl_cons, enter_here hhere]
    exact ih trail
  | up _ ih =>
    obtain ⟨k, hk⟩ := ih trail.tail
    rw [List.foldl_cons, enter_up, hk]
    exact ⟨k + 1, by simp⟩
  | @nest piece inner rest _ _ ihInner ihRest =>
    obtain ⟨i, hi⟩ := ihInner (enter trail piece)
    obtain ⟨k, hk⟩ := ihRest ((enter trail piece).drop (i + 1))
    have hfold : (piece :: (inner ++ ".." :: rest)).foldl enter trail =
        (enter trail piece).drop (i + 1 + k) := by
      rw [List.foldl_cons, List.foldl_append, hi, List.foldl_cons, enter_up, List.tail_drop, hk,
        List.drop_drop]
    rw [hfold]
    -- If the first piece is a name, the `..` that belongs to it takes it back.
    by_cases hhere : piece = "" ∨ piece = "."
    · exact ⟨i + 1 + k, by rw [enter_here hhere]⟩
    · by_cases hup : piece = ".."
      · subst hup
        exact ⟨i + 1 + k + 1, by rw [enter_up]; simp⟩
      · refine ⟨i + k, ?_⟩
        rw [enter, if_neg hhere, if_neg hup, show i + 1 + k = i + k + 1 by omega,
          List.drop_succ_cons]

/-- The pieces that take the deepest name back, and all names below it. -/
private theorem exists_taken_back {name : String} :
    ∀ {pieces trail : List String}, pieces.foldl enter (name :: trail) = [] →
      ∃ inner rest, pieces = inner ++ ".." :: rest ∧ Cancels inner ∧
        rest.foldl enter trail = []
  | [], trail, h => nomatch h
  | piece :: pieces, trail, h => by
    rw [List.foldl_cons] at h
    by_cases hhere : piece = "" ∨ piece = "."
    · rw [enter_here hhere] at h
      obtain ⟨inner, rest, rfl, hinner, hrest⟩ := exists_taken_back h
      exact ⟨piece :: inner, rest, rfl, .here hhere hinner, hrest⟩
    · by_cases hup : piece = ".."
      · subst hup
        rw [enter_up] at h
        exact ⟨[], pieces, rfl, .nil, h⟩
      · rw [enter, if_neg hhere, if_neg hup] at h
        -- First the new name is taken back, then the old one.
        obtain ⟨inner, rest, hpieces, hinner, hrest⟩ := exists_taken_back h
        have hshorter : rest.length < (piece :: pieces).length := by
          simp [hpieces]
          omega
        obtain ⟨inner', rest', rfl, hinner', hrest'⟩ := exists_taken_back hrest
        refine ⟨piece :: (inner ++ ".." :: inner'), rest', ?_, .nest piece hinner hinner', hrest'⟩
        simp [hpieces]
termination_by pieces => pieces.length

/-- A path that leads nowhere cancels piece by piece. -/
private theorem cancels_of_foldl :
    ∀ {pieces : List String}, pieces.foldl enter [] = [] → Cancels pieces
  | [], _ => .nil
  | piece :: pieces, h => by
    rw [List.foldl_cons] at h
    by_cases hhere : piece = "" ∨ piece = "."
    · rw [enter_here hhere] at h
      exact .here hhere (cancels_of_foldl h)
    · by_cases hup : piece = ".."
      · subst hup
        rw [enter_up] at h
        exact .up (cancels_of_foldl h)
      · rw [enter, if_neg hhere, if_neg hup] at h
        obtain ⟨inner, rest, hpieces, hinner, hrest⟩ := exists_taken_back h
        have hshorter : rest.length < (piece :: pieces).length := by
          simp [hpieces]
          omega
        rw [hpieces]
        exact .nest piece hinner (cancels_of_foldl hrest)
termination_by pieces => pieces.length

/-- No name is left of a path exactly if it cancels. -/
theorem normalize_eq_nil_iff : normalize pieces = [] ↔ Cancels pieces := by
  rw [normalize, List.reverse_eq_nil_iff]
  refine ⟨cancels_of_foldl, fun h => ?_⟩
  obtain ⟨k, hk⟩ := h.exists_drop []
  rw [hk, List.drop_nil]

end Path

/-- A call of somebody who answers requests, as it is written down. -/
inductive Asked where
  | prepare (fs : FsId)
  | request (r : Request)
  deriving DecidableEq, Repr

/-- The same answers, with every call written down before it is made. -/
def Metadata.noted {σ : Type} (log : Proc.Part σ (List Asked)) (m : Metadata σ) : Metadata σ where
  prepare fs := do
    Proc.modify fun s => log.set (.prepare fs :: log.get s) s
    m.prepare fs
  call r := do
    Proc.modify fun s => log.set (.request r :: log.get s) s
    m.call r

namespace Job

/-- The number of threads that is asked for; a plan has one already. -/
def threads? : Job → Option Nat
  | .usage _ _ _ _ threads | .delete _ _ _ _ _ threads | .fsUsage _ threads | .fsUsageAll threads
  | .deletePath _ _ threads => some threads
  | _ => none

/-- The directory that is to be removed, and its name. -/
def target? : Job → Option (Inode × String)
  | .delete _ _ target name _ _ | .deleteWith _ _ target name => some (target, name)
  | _ => none

/-- The path to go down. -/
def path? : Job → Option String
  | .resolveDir _ path _ | .deletePath _ path _ => some path
  | _ => none

/-- What can be wrong with a job, with the refusal that says so. -/
inductive Wrong : Job → Refusal → Prop
  | threads {e : Job} {n : Nat} (asked : e.threads? = some n) (bad : n = 0 ∨ maxThreads < n) :
      Wrong e (.invalidConcurrency n maxThreads)
  | root {e : Job} {target : Inode} {name : String} (asked : e.target? = some (target, name))
      (bad : target = rootInode ∨ Text.strip name = "/") : Wrong e .rootDeletion
  | unnamed {e : Job} {target : Inode} (asked : e.target? = some (target, "")) :
      Wrong e .emptyName
  | relative {e : Job} {path : String} (asked : e.path? = some path)
      (bad : (Text.strip path).toList.head? ≠ some '/') : Wrong e (.relativePath (Text.strip path))
  | cancels {fs : FsId} {path : String} {n : Nat}
      (bad : Path.Cancels (Text.split '/' (Text.strip path))) :
      Wrong (.deletePath fs path n) .rootDeletion

/-- A job is refused. -/
structure Refused (e : Job) (r : Refusal) : Prop where
  /-- The refusal is the outcome and the store is left as it was, whoever would answer. -/
  outcome : ∀ {σ : Type} (m : Metadata (e.Store σ)) (runner : Runner (e.Store σ)) (s : e.Store σ),
    e.run m runner s = (some (.error (.failed (.refused r))), s)
  /-- Wherever calls are written down, none is. -/
  unasked : ∀ {σ : Type} (log : Proc.Part (e.Store σ) (List Asked)) (m : Metadata (e.Store σ))
    (runner : Runner (e.Store σ)) (s : e.Store σ),
    log.get (e.run (m.noted log) runner s).2 = log.get s

variable {e : Job} {r : Refusal}

/-- Those who write calls down are among those who would answer. -/
private theorem Refused.of_outcome (outcome : ∀ {σ : Type} (m : Metadata (e.Store σ))
    (runner : Runner (e.Store σ)) (s : e.Store σ),
    e.run m runner s = (some (.error (.failed (.refused r))), s)) : e.Refused r where
  outcome := outcome
  unasked log m runner s := by rw [outcome]

/-- The checks of a job, in its own order. -/
def check : Job → Except Refusal Unit
  | .usage _ _ _ _ threads | .fsUsage _ threads | .fsUsageAll threads => checkThreads threads
  | .delete _ _ target name _ threads =>
    match Sweep.checkTarget target name with
    | .error r => .error r
    | .ok () => checkThreads threads
  | .deleteWith _ _ target name => Sweep.checkTarget target name
  | .resolveDir _ path _ =>
    match Path.components path with
    | .error r => .error r
    | .ok _ => .ok ()
  | .deletePath _ path threads =>
    match Path.components path with
    | .error r => .error r
    | .ok [] => .error .rootDeletion
    | .ok (_ :: _) => checkThreads threads
  | .usageWith .. | .findFilesystem .. | .inodePath .. => .ok ()

/-- A number of threads is refused for being out of range. -/
private theorem wrong_of_checkThreads {n : Nat} (asked : e.threads? = some n)
    (h : checkThreads n = .error r) : e.Wrong r := by
  unfold checkThreads at h
  split at h
  · next hbad =>
    cases h
    exact .threads asked hbad
  · cases h

/-- A target is refused for being the root or having no name. -/
private theorem wrong_of_checkTarget {target : Inode} {name : String}
    (asked : e.target? = some (target, name)) (h : Sweep.checkTarget target name = .error r) :
    e.Wrong r := by
  unfold Sweep.checkTarget at h
  split at h
  · next hroot =>
    cases h
    exact .root asked hroot
  · split at h
    · next hempty =>
      cases h
      exact .unnamed (hempty ▸ asked)
    · cases h

/-- A path is refused for being relative. -/
private theorem wrong_of_components {path : String} (asked : e.path? = some path)
    (h : Path.components path = .error r) : e.Wrong r := by
  obtain ⟨habsolute, rfl⟩ := (Path.components_eq_error_iff path r).mp h
  exact .relative asked (by simpa [Path.isAbsolute] using habsolute)

private theorem eq_normalize {path : String} {names : List String}
    (h : Path.components path = .ok names) :
    names = Path.normalize (Text.split '/' (Text.strip path)) := by
  unfold Path.components at h
  split at h
  · exact (Except.ok.inj h).symm
  · cases h

/-- What the checks find is wrong. -/
private theorem wrong_of_check (h : e.check = .error r) : e.Wrong r := by
  cases e with
  | usage | fsUsage | fsUsageAll => exact wrong_of_checkThreads rfl h
  | delete fs parent target name epoch threads =>
    cases htarget : Sweep.checkTarget target name with
    | error found =>
      obtain rfl : found = r := by simpa [check, htarget] using h
      exact wrong_of_checkTarget rfl htarget
    | ok u => exact wrong_of_checkThreads rfl (by simpa [check, htarget] using h)
  | deleteWith => exact wrong_of_checkTarget rfl h
  | resolveDir fs path epoch =>
    cases hpath : Path.components path with
    | error found =>
      obtain rfl : found = r := by simpa [check, hpath] using h
      exact wrong_of_components rfl hpath
    | ok names => simp [check, hpath] at h
  | deletePath fs path threads =>
    cases hpath : Path.components path with
    | error found =>
      obtain rfl : found = r := by simpa [check, hpath] using h
      exact wrong_of_components rfl hpath
    | ok names =>
      cases names with
      | nil =>
        obtain rfl : .rootDeletion = r := by simpa [check, hpath] using h
        exact .cancels (Path.normalize_eq_nil_iff.mp (eq_normalize hpath).symm)
      | cons name names => exact wrong_of_checkThreads rfl (by simpa [check, hpath] using h)
  | usageWith | findFilesystem | inodePath => cases h

/-- What the checks find is the outcome before anybody is called. -/
private theorem run_of_check (h : e.check = .error r) {σ : Type} (m : Metadata (e.Store σ))
    (runner : Runner (e.Store σ)) (s : e.Store σ) :
    e.run m runner s = (some (.error (.failed (.refused r))), s) := by
  cases e with
  | usage => exact Sweep.usage_refused _ _ _ _ _ _ h _
  | delete fs parent target name epoch threads =>
    cases htarget : Sweep.checkTarget target name with
    | error found =>
      obtain rfl : found = r := by simpa [check, htarget] using h
      exact Sweep.delete_refused _ _ _ _ _ _ htarget _
    | ok u =>
      have hmake : WalkPlan.make fs epoch threads = .error r :=
        (WalkPlan.make_eq_error_iff fs epoch threads r).mpr (by simpa [check, htarget] using h)
      simp only [run, Sweep.delete, htarget, hmake]
      rfl
  | deleteWith plan parent target name =>
    have htarget : Sweep.checkTarget target name = .error r := h
    simp only [run, Sweep.deleteWith, htarget]
    rfl
  | fsUsage fs threads =>
    have hthreads : checkThreads threads = .error r := h
    simp only [run, Sweep.fsUsage, hthreads]
    rfl
  | fsUsageAll threads =>
    have hthreads : checkThreads threads = .error r := h
    simp only [run, Sweep.fsUsageAll, hthreads]
    rfl
  | resolveDir fs path epoch =>
    cases hpath : Path.components path with
    | error found =>
      obtain rfl : found = r := by simpa [check, hpath] using h
      exact Sweep.resolveDir_relative _ _ _ hpath _
    | ok names => simp [check, hpath] at h
  | deletePath fs path threads =>
    cases hpath : Path.components path with
    | error found =>
      obtain rfl : found = r := by simpa [check, hpath] using h
      simp only [run, Sweep.deletePath, hpath]
      rfl
    | ok names =>
      cases names with
      | nil =>
        obtain rfl : .rootDeletion = r := by simpa [check, hpath] using h
        simp only [run, Sweep.deletePath, hpath]
        rfl
      | cons name names =>
        have hthreads : checkThreads threads = .error r := by simpa [check, hpath] using h
        simp only [run, Sweep.deletePath, hpath, Sweep.accept, pure_bind, List.getLast?_cons,
          hthreads]
        rfl
  | usageWith | findFilesystem | inodePath => cases h

/-- What passes the check has a number of threads that passes. -/
private theorem checkThreads_of_check {n : Nat} (h : e.check = .ok ())
    (asked : e.threads? = some n) : checkThreads n = .ok () := by
  cases e with
  | usage | fsUsage | fsUsageAll =>
    cases asked
    exact h
  | delete =>
    cases asked
    simp only [check] at h
    split at h
    · cases h
    · exact h
  | deletePath =>
    cases asked
    simp only [check] at h
    split at h
    · cases h
    · cases h
    · exact h
  | _ => cases asked

/-- It has a target that passes. -/
private theorem checkTarget_of_check {target : Inode} {name : String} (h : e.check = .ok ())
    (asked : e.target? = some (target, name)) : Sweep.checkTarget target name = .ok () := by
  cases e with
  | delete =>
    cases asked
    simp only [check] at h
    split at h
    · cases h
    · assumption
  | deleteWith =>
    cases asked
    exact h
  | _ => cases asked

/-- It has a path that passes, and names something where something is to be deleted. -/
private theorem components_of_check {path : String} (h : e.check = .ok ())
    (asked : e.path? = some path) :
    ∃ names, Path.components path = .ok names ∧
      (names = [] → ∀ fs threads, e ≠ .deletePath fs path threads) := by
  cases e with
  | resolveDir =>
    cases asked
    simp only [check] at h
    split at h
    · cases h
    · next names hpath => exact ⟨names, hpath, fun _ => nofun⟩
  | deletePath =>
    cases asked
    simp only [check] at h
    split at h
    · cases h
    · cases h
    · next hpath => exact ⟨_, hpath, fun h => nomatch h⟩
  | _ => cases asked

/-- No defect passes the checks. -/
private theorem Wrong.check_ne (h : e.Wrong r) : e.check ≠ .ok () := by
  intro hok
  cases h with
  | threads asked bad =>
    have hthreads := checkThreads_of_check hok asked
    rw [checkThreads, if_pos bad] at hthreads
    cases hthreads
  | root asked bad =>
    have htarget := checkTarget_of_check hok asked
    rw [Sweep.checkTarget, if_pos bad] at htarget
    cases htarget
  | unnamed asked =>
    have htarget := checkTarget_of_check hok asked
    rw [Sweep.checkTarget, if_pos rfl] at htarget
    split at htarget <;> cases htarget
  | @relative _ path asked bad =>
    obtain ⟨names, hpath, -⟩ := components_of_check hok asked
    have herror := (Path.components_eq_error_iff path _).mpr ⟨beq_eq_false_iff_ne.mpr bad, rfl⟩
    cases hpath.symm.trans herror
  | cancels bad =>
    obtain ⟨names, hpath, hnames⟩ := components_of_check hok rfl
    have hroot : names = [] := (eq_normalize hpath).trans (Path.normalize_eq_nil_iff.mpr bad)
    exact hnames hroot _ _ rfl

/-- A job that is wrong in any way, or in several, is refused for something that is wrong with
it: nobody is called, whoever would answer. -/
theorem refused_of_wrong (h : ∃ r, e.Wrong r) : ∃ r, e.Wrong r ∧ e.Refused r := by
  obtain ⟨r, hwrong⟩ := h
  cases hcheck : e.check with
  | error found => exact ⟨found, wrong_of_check hcheck, .of_outcome (run_of_check hcheck)⟩
  | ok u => exact absurd hcheck hwrong.check_ne

/-- A path that comes back to the root, with too many threads: the path is what is refused, and
both are wrong. -/
theorem refused_of_wrong_homeward :
    (∃ r, (Job.deletePath 1 " /../a/b/./../..// " 513).Wrong r ∧
      (Job.deletePath 1 " /../a/b/./../..// " 513).Refused r) ∧
    (Job.deletePath 1 " /../a/b/./../..// " 513).Wrong .rootDeletion ∧
    (Job.deletePath 1 " /../a/b/./../..// " 513).Wrong (.invalidConcurrency 513 maxThreads) := by
  have hpieces : Text.split '/' (Text.strip " /../a/b/./../..// ") =
      ["", "..", "a", "b", ".", "..", "..", "", ""] := by cbv
  have hcancels : Path.Cancels ["", "..", "a", "b", ".", "..", "..", "", ""] :=
    .here (.inl rfl) (.up (.nest "a" (.nest "b" (.here (.inr rfl) .nil) .nil)
      (.here (.inl rfl) (.here (.inl rfl) .nil))))
  have hroot : (Job.deletePath 1 " /../a/b/./../..// " 513).Wrong .rootDeletion :=
    .cancels (hpieces ▸ hcancels)
  exact ⟨refused_of_wrong ⟨_, hroot⟩, hroot, .threads rfl (.inr (by decide))⟩

end Job

end ShardSweep
