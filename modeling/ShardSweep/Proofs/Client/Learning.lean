import ShardSweep.Proofs.Amid
import ShardSweep.Proofs.Client.Business
import ShardSweep.Proofs.Client.Once

/-!
# What a client learns of filesystems

A client asks its coordinators while the service goes on: filesystems are added, generations begin,
and faults come and go, also in the middle of a request.  Whatever happens, a filesystem that is
remembered costs nothing, and any other request to the coordinators makes an attempt.  If that
succeeds, one of its steps found the service giving this very answer, and only then something is
learned.

* `Service.Turn`, `Service.Ages`: what may happen to a service, and what does not;
* `Client.Learned`: what a request to the coordinators has come to;
* `Client.fsInfo_amid_remembered`, `Client.fsInfo_amid_missing`: one filesystem is asked for;
* `Client.fsInfos_amid`: all of them are.
-/

namespace ShardSweep

namespace Service

variable {s s' s'' : Service} {fs : FsId}

/-- What may happen to a service while a client uses it. -/
inductive Turn (s : Service) : Service → Prop
  | add (fs : FsId) (name : String) : Turn s (s.addFilesystem fs name)
  | bump (fs : FsId) : Turn s (s.bumpEpoch fs)
  /-- Something is built in a filesystem or removed from it. -/
  | edit {fs : FsId} {f : Filesystem} (found : s.filesystem? fs = some f) (t : Tree) :
      Turn s (s.putFilesystem fs { f with tree := t })
  /-- Faults are arranged or go away, endpoints come and go, others ask and are counted. -/
  | other {s' : Service} (same : s'.filesystems = s.filesystems) : Turn s s'

/-- No filesystem is lost, gets another name or is set back. -/
def Ages (s s' : Service) : Prop :=
  ∀ fs f, s.filesystem? fs = some f →
    ∃ f', s'.filesystem? fs = some f' ∧ f'.name = f.name ∧ f.epoch.number ≤ f'.epoch.number

namespace Ages

/-- Nothing is lost from a service with the same filesystems. -/
theorem of_filesystems (h : s'.filesystems = s.filesystems) : s.Ages s' := by
  intro fs f hf
  refine ⟨f, ?_, rfl, Nat.le_refl _⟩
  rw [filesystem?, h]
  exact hf

/-- Nor over any stretch, if not in its parts. -/
theorem trans (h : s.Ages s') (h' : s'.Ages s'') : s.Ages s'' := by
  intro fs f hf
  obtain ⟨f', hf', hname, hepoch⟩ := h fs f hf
  obtain ⟨f'', hf'', hname', hepoch'⟩ := h' fs f' hf'
  exact ⟨f'', hf'', hname'.trans hname, Nat.le_trans hepoch hepoch'⟩

/-- One filesystem goes on under its name. -/
theorem of_putFilesystem {f g : Filesystem} (found : s.filesystem? fs = some f)
    (name : g.name = f.name) (epoch : f.epoch.number ≤ g.epoch.number) :
    s.Ages (s.putFilesystem fs g) := by
  intro fs' f' hf'
  by_cases hfs : fs' = fs
  · subst hfs
    obtain rfl := Option.some.inj (found.symm.trans hf')
    exact ⟨g, by rw [filesystem?_putFilesystem, if_pos rfl], name, epoch⟩
  · exact ⟨f', by rw [filesystem?_putFilesystem, if_neg hfs, hf'], rfl, Nat.le_refl _⟩

end Ages

/-- What is told about a filesystem is true. -/
theorem infoOf_of_serve {info : FsInfo} (h : (s.serve (.getFsInfo fs)).1 = .ok info) :
    ∃ f, s.filesystem? fs = some f ∧ info = infoOf fs f := by
  change (s.known fs).map (infoOf fs) = .ok info at h
  unfold known at h
  cases hf : s.filesystem? fs with
  | none => simp [hf, Except.map] at h
  | some f =>
    rw [hf] at h
    exact ⟨f, rfl, (Except.ok.inj h).symm⟩

/-- What was told of a filesystem is its name, and a generation that is not ahead. -/
theorem Ages.behind (h : s.Ages s') {f : Filesystem} (found : s.filesystem? fs = some f) :
    ∃ f', s'.filesystem? fs = some f' ∧ (infoOf fs f).fs = fs ∧ (infoOf fs f).name = f'.name ∧
      (infoOf fs f).epoch.number ≤ f'.epoch.number := by
  obtain ⟨f', hf', hname, hepoch⟩ := h fs f found
  exact ⟨f', hf', rfl, hname.symm, hepoch⟩

/-- Whatever happens to a service, it only grows older. -/
theorem Turn.ages (h : s.Turn s') : s.Ages s' := by
  cases h with
  | add fs name =>
    intro fs' f hf
    refine ⟨f, ?_, rfl, Nat.le_refl _⟩
    unfold addFilesystem
    cases hfs : s.filesystem? fs with
    | some g => exact hf
    | none =>
      have hne : fs' ≠ fs := by
        rintro rfl
        cases hf.symm.trans hfs
      rw [filesystem?_putFilesystem, if_neg hne, hf]
  | bump fs =>
    unfold bumpEpoch
    cases hfs : s.filesystem? fs with
    | none => exact .of_filesystems rfl
    | some f => exact .of_putFilesystem hfs rfl (Nat.le_succ _)
  | edit found t => exact .of_putFilesystem found rfl (Nat.le_refl _)
  | other same => exact .of_filesystems same

end Service

namespace ClientState

variable {st st' : ClientState Service Link}

/-- Something happens to the service behind a client. -/
def Turns (st st' : ClientState Service Link) : Prop :=
  ∃ net, st.service.Turn net ∧ st' = { st with wire := st.wire.reaching net }

theorem Turns.ages (h : Turns st st') : st.service.Ages st'.service := by
  obtain ⟨net, hturn, rfl⟩ := h
  exact hturn.ages

/-- How many attempts the client has made. -/
def attempts (st : ClientState Service Link) : Nat :=
  st.wire.tally.attempts

end ClientState

open ClientState (Turns)

/-- Each attempt is counted when it begins. -/
theorem Stage.Goes.attempts {timeout : Duration} {endpoint : Endpoint} {most : Nat} {r : Request}
    {w w' : Wire Service Link} {stage stage' : Stage r}
    (goes : stage.Goes timeout endpoint most r w w' stage') :
    w.tally.attempts ≤ w'.tally.attempts ∧
      ∀ n, stage = .between n → w.tally.attempts < w'.tally.attempts := by
  cases goes with
  | attempt => exact ⟨Nat.le_succ _, fun _ _ => Nat.lt_succ_self _⟩
  | _ => exact ⟨Nat.le_refl _, nofun⟩

namespace Client

variable {c : Client} {r : Request} {st st' : ClientState Service Link} {fs : FsId}
  {found : List (ClientState Service Link)}

/-- Nothing that is remembered changes, and once a note is made, an attempt was. -/
def noting : Contract (ClientState Service Link) Bool where
  assume _ _ := True
  step noted st st' noted' := st'.cache = st.cache ∧ st.attempts ≤ st'.attempts ∧
    (noted' = true → noted = true ∨ st.attempts < st'.attempts)

/-- Attempts that come to an answer have asked. -/
private theorem attempts_notes (settings : RpcSettings) (endpoint : Endpoint) :
    ((Wire.attempts Service.transport settings.timeout endpoint r (settings.maxAttempts - 1) 1).on
      ClientState.wirePart).Obeys noting false fun _ noted => noted = true := by
  have hobeys := (Wire.attempts_obeys_settings settings endpoint r).on ClientState.wirePart
  -- Only before the first step nothing is noted.
  refine hobeys.refine (fun stage noted => noted = false → stage = .between 1) (fun _ => rfl)
    (fun _ _ _ _ _ => trivial) ?_ ?_
  · rintro stage noted st st' stage' hfollows - ⟨hgoes, hframe⟩
    obtain ⟨hle, hlt⟩ := Stage.Goes.attempts hgoes
    refine ⟨true, ⟨by rw [hframe]; rfl, hle, fun _ => ?_⟩, nofun⟩
    cases noted with
    | true => exact .inl rfl
    | false => exact .inr (hlt 1 (hfollows rfl))
  · rintro outcome stage noted hfollows hends
    cases noted with
    | true => rfl
    | false =>
      rw [hfollows rfl] at hends
      cases hends

/-- A request to the coordinators makes an attempt, whatever comes of it. -/
theorem send_notes (goes : r.destination = .coordinators) (some : c.coordinators ≠ []) :
    (c.send Service.transport r).Obeys noting false fun _ noted => noted = true := by
  obtain ⟨endpoint, rest, hcoordinators⟩ := List.exists_cons_of_ne_nil some
  have hasked : (Proc.read (c.endpointsFor r)).Obeys noting false
      fun endpoints noted => noted = false ∧ endpoints = .ok c.coordinators :=
    .read fun st _ => ⟨⟨rfl, Nat.le_refl _, .inl⟩, rfl, by simp [endpointsFor, goes]⟩
  refine hasked.bind ?_
  rintro _ _ ⟨rfl, rfl⟩
  have hinvoked : ((Wire.invoke Service.transport c.rpc c.coordinators r).on
      ClientState.wirePart).Obeys noting false fun _ noted => noted = true := by
    rw [hcoordinators]
    exact fun st _ => ⟨false, ⟨rfl, Nat.le_refl _, .inl⟩, attempts_notes c.rpc endpoint⟩
  refine hinvoked.bind ?_
  rintro (e | answer) noted hnoted
  · exact hnoted
  · exact hnoted

/-- What a request to the coordinators has come to amid whatever happens to the service: an attempt
was made, success means that one of the steps found the service giving this answer, and only then
something was learned. -/
structure Learned (r : Request) (infos : r.Answer → List FsInfo) (st : ClientState Service Link)
    (found : List (ClientState Service Link)) (outcome : Outcome r.Answer)
    (st' : ClientState Service Link) : Prop where
  attempts : st.attempts < st'.attempts
  ages : st.service.Ages st'.service
  told : ∀ a, outcome = .ok a →
    ∃ m ∈ found, (m.service.serve r).1 = .ok a ∧ m.service.Ages st'.service
  learned : ∀ a, outcome = .ok a → st'.cache = st.cache.putAll (infos a)
  failed : ∀ h, outcome = .error h → st'.cache = st.cache

/-- What has become of the memory and the attempts since a request began. -/
private def Noted (st : ClientState Service Link) (noted : Bool)
    (_ : List (ClientState Service Link)) (st' : ClientState Service Link) : Prop :=
  st'.cache = st.cache ∧ st.attempts ≤ st'.attempts ∧ (noted = true → st.attempts < st'.attempts)

private theorem Noted.step {noted noted' : Bool} {seen seen' : List (ClientState Service Link)}
    {m m' : ClientState Service Link} (h : Noted st noted seen m)
    (step : noting.step noted m m' noted') : Noted st noted' seen' m' := by
  obtain ⟨hcache, hle, hlt⟩ := h
  obtain ⟨hcache', hle', hlt'⟩ := step
  refine ⟨hcache'.trans hcache, Nat.le_trans hle hle', fun h => ?_⟩
  rcases hlt' h with h | h
  · exact Nat.lt_of_lt_of_le (hlt h) hle'
  · exact Nat.lt_of_le_of_lt hle h

/-- What was noted stays so while others act. -/
private theorem Noted.turn {noted : Bool} {seen : List (ClientState Service Link)}
    {m m' : ClientState Service Link} (h : Noted st noted seen m) (turn : Turns m m') :
    Noted st noted seen m' := by
  obtain ⟨net, -, rfl⟩ := turn
  exact h

/-- What has been told since a request began, and what has become of the service. -/
private def Told (st : ClientState Service Link) (g : Option r.Answer)
    (seen : List (ClientState Service Link)) (st' : ClientState Service Link) : Prop :=
  st.service.Ages st'.service ∧ ∀ a, g = some a →
    ∃ m ∈ seen, (m.service.serve r).1 = .ok a ∧ m.service.Ages st'.service

/-- What was told does not get ahead of a service that grows older. -/
private theorem Told.later {g : Option r.Answer} {seen : List (ClientState Service Link)}
    {m m' : ClientState Service Link} (h : Told st g seen m) (ages : m.service.Ages m'.service) :
    Told st g seen m' := by
  obtain ⟨hages, htold⟩ := h
  refine ⟨hages.trans ages, fun a ha => ?_⟩
  obtain ⟨n, hn, hserves, hn'⟩ := htold a ha
  exact ⟨n, hn, hserves, hn'.trans ages⟩

/-- A look leaves the service as it found it. -/
private theorem Told.step (looks : r.Looks) {g g' : Option r.Answer}
    {seen : List (ClientState Service Link)} {m m' : ClientState Service Link}
    (h : Told st g seen m) (moves : Service.Moves r g m.service m'.service g') :
    Told st g' (seen ++ [m]) m' := by
  rcases moves with ⟨hsame⟩ | ⟨hserves, hafter⟩
  · obtain ⟨hages, htold⟩ := h.later (.of_filesystems hsame.filesystems)
    refine ⟨hages, fun a ha => ?_⟩
    obtain ⟨n, hn, hn'⟩ := htold a ha
    exact ⟨n, List.mem_append_left _ hn, hn'⟩
  · rw [looks] at hafter
    have hages : m.service.Ages m'.service := .of_filesystems hafter.filesystems
    refine ⟨h.1.trans hages, fun a ha => ?_⟩
    obtain rfl := Option.some.inj ha
    exact ⟨m, List.mem_append_right _ (List.mem_singleton_self m), hserves, hages⟩

/-- What happens to the service does not touch the client. -/
theorem of_turns (h : Relation.ReflTransGen Turns st st') :
    st'.cache = st.cache ∧ st'.attempts = st.attempts ∧ st.service.Ages st'.service := by
  induction h with
  | refl => exact ⟨rfl, rfl, .of_filesystems rfl⟩
  | tail _ hturn ih =>
    obtain ⟨hcache, hattempts, hages⟩ := ih
    refine ⟨?_, ?_, hages.trans hturn.ages⟩
    · obtain ⟨net, -, rfl⟩ := hturn
      exact hcache
    · obtain ⟨net, -, rfl⟩ := hturn
      exact hattempts

/-- What is learned from an outcome. -/
private theorem learn_amid {α : Type} {infos : α → List FsInfo} {outcome outcome' : Outcome α}
    (course : (learn infos outcome : Proc (ClientState Service Link) _).Amid Turns st found
      outcome' st') :
    outcome' = outcome ∧ st'.attempts = st.attempts ∧ st.service.Ages st'.service ∧
      (∀ a, outcome = .ok a → st'.cache = st.cache.putAll (infos a)) ∧
      ∀ h, outcome = .error h → st'.cache = st.cache := by
  cases outcome with
  | error h =>
    obtain ⟨rfl, -, hturns⟩ := Proc.Amid.of_done course
    obtain ⟨hcache, hattempts, hages⟩ := of_turns hturns
    exact ⟨rfl, hattempts, hages, nofun, fun _ _ => hcache⟩
  | ok a =>
    obtain ⟨m, rest, hbefore, hdone, -⟩ := Proc.Amid.of_step course
    obtain ⟨rfl, -, hafter⟩ := Proc.Amid.of_done hdone
    obtain ⟨hcache, hattempts, hages⟩ := of_turns hbefore
    obtain ⟨hcache', hattempts', hages'⟩ := of_turns hafter
    refine ⟨rfl, hattempts'.trans hattempts, hages.trans hages', ?_, nofun⟩
    rintro _ ⟨⟩
    exact hcache'.trans (congrArg (FsCache.putAll · (infos a)) hcache)

/-- A request to the coordinators asks, and learns from the answer. -/
theorem learned_of_amid (goes : r.destination = .coordinators) (looks : r.Looks)
    (some : c.coordinators ≠ []) {infos : r.Answer → List FsInfo} {outcome : Outcome r.Answer}
    (course : (c.send Service.transport r >>= learn infos).Amid Turns st found outcome st') :
    Learned r infos st found outcome st' := by
  obtain ⟨answered, mid, front, back, hsend, hlearn, rfl⟩ := course.of_bind
  obtain ⟨noted, rfl, hcache, -, hattempts⟩ := (send_notes goes some).amid (Noted st)
    (fun _ _ _ _ => trivial) (fun _ _ _ _ _ h step => h.step step)
    (fun _ _ _ _ h turn => h.turn turn) hsend ⟨rfl, Nat.le_refl _, nofun⟩
  obtain ⟨g, hgranted, hages, htold⟩ := (send_obeys c r).amid (Told st)
    (fun _ _ _ _ hsure => hsure.elim) (fun _ _ _ _ _ h step => h.step looks step.1)
    (fun _ _ _ _ h turn => h.later turn.ages) hsend ⟨.of_filesystems rfl, nofun⟩
  obtain ⟨rfl, hsame, hages', hlearned, hfailed⟩ := learn_amid hlearn
  refine ⟨hsame ▸ hattempts rfl, hages.trans hages', ?_, ?_, ?_⟩
  · rintro a rfl
    obtain ⟨m, hm, hserves, hm'⟩ := htold a hgranted
    exact ⟨m, List.mem_append_left _ hm, hserves, hm'.trans hages'⟩
  · rintro a rfl
    rw [hlearned a rfl, hcache]
  · rintro h rfl
    rw [hfailed h rfl, hcache]

/-- What is remembered is the answer, and whatever has changed meanwhile others have changed. -/
theorem fsInfo_amid_remembered {others : ClientState Service Link → ClientState Service Link → Prop}
    (keeps : ∀ st st', others st st' → st'.cache = st.cache) {info : FsInfo}
    {outcome : Outcome FsInfo} (remembered : st.cache.get? fs = some info)
    (course : (c.fsInfo Service.transport fs).Amid others st found outcome st') :
    outcome = .ok info ∧ Relation.ReflTransGen others st st' := by
  have hcourse : (c.call Service.transport (.getFsInfo fs)).Amid others st found outcome st' :=
    course
  rw [fsInfo_eq] at hcourse
  obtain ⟨m, rest, hbefore, hrest, -⟩ := hcourse.of_step
  have hcache : m.cache = st.cache := by
    clear hrest
    induction hbefore with
    | refl => rfl
    | tail _ hturn ih => exact (keeps _ _ hturn).trans ih
  rw [hcache, remembered] at hrest
  obtain ⟨rfl, -, hafter⟩ := Proc.Amid.of_done hrest
  exact ⟨rfl, hbefore.trans hafter⟩

/-- What is not remembered is asked for. -/
theorem fsInfo_amid_missing (some : c.coordinators ≠ []) {outcome : Outcome FsInfo}
    (missing : st.cache.get? fs = none)
    (course : (c.fsInfo Service.transport fs).Amid Turns st found outcome st') :
    Learned (.getFsInfo fs) (fun info => [info]) st found outcome st' := by
  have hcourse : (c.call Service.transport (.getFsInfo fs)).Amid Turns st found outcome st' :=
    course
  rw [fsInfo_eq] at hcourse
  obtain ⟨m, rest, hbefore, hrest, rfl⟩ := hcourse.of_step
  obtain ⟨hcache, hattempts, hages⟩ := of_turns hbefore
  rw [hcache, missing] at hrest
  have hlearned : Learned (.getFsInfo fs) (fun info => [info]) m rest outcome st' :=
    learned_of_amid rfl (fun _ => rfl) some hrest
  refine ⟨hattempts ▸ hlearned.attempts, hages.trans hlearned.ages, ?_, ?_, ?_⟩
  · intro info hinfo
    obtain ⟨n, hn, htold⟩ := hlearned.told info hinfo
    exact ⟨n, List.mem_cons_of_mem _ hn, htold⟩
  · rw [← hcache]
    exact hlearned.learned
  · rw [← hcache]
    exact hlearned.failed

/-- A listing is always asked for. -/
theorem fsInfos_amid (some : c.coordinators ≠ []) {outcome : Outcome (List FsInfo)}
    (course : (c.fsInfos Service.transport).Amid Turns st found outcome st') :
    Learned .listFsInfo id st found outcome st' := by
  have hcourse : (c.call Service.transport .listFsInfo).Amid Turns st found outcome st' := course
  rw [fsInfos_eq] at hcourse
  exact learned_of_amid rfl (fun _ => rfl) some hcourse

end Client

end ShardSweep
