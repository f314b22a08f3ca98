import ShardSweep.Proofs.Client.Alone

/-!
# A request takes effect once or not at all

Behind one request of a client there may be any number of attempts, and each may fail in many
places.  Still, a request that fails has changed no namespace, and one that removes something and
succeeds has changed them as the service does when it is asked once.

* `Service.Did`: what a request that was granted, or was not, leaves of a service;
* `Client.send_did`: a request that is sent, wherever it goes;
* `Client.call_once`: every request of a client.
-/

namespace ShardSweep

/-- A request that changes something where it is granted. -/
def Request.removes : Request → Bool
  | .deleteFile .. | .deleteDir .. => true
  | _ => false

/-- A request that removes nothing only looks. -/
theorem Request.looks {r : Request} (keeps : r.removes = false) : r.Looks := by
  intro s
  cases r with
  | deleteFile | deleteDir => cases keeps
  | _ => rfl

namespace Service

/-- What is removed, and whether, is a matter of the names. -/
theorem SameNames.serve {s s' : Service} (same : s.SameNames s') {r : Request}
    (removes : r.removes = true) :
    (s'.serve r).1 = (s.serve r).1 ∧ (s.serve r).2.SameNames (s'.serve r).2 := by
  cases r with
  | deleteFile fs parent name epoch => exact same.remove fs epoch name _
  | deleteDir fs parent name epoch => exact same.remove fs epoch name _
  | _ => cases removes

/-- What a request leaves of a service once it was granted, or before that. -/
def Did (s : Service) (r : Request) (g : Option r.Answer) (s' : Service) : Prop :=
  match r.removes, g with
  | true, some a => (s.serve r).1 = .ok a ∧ (s.serve r).2.SameNames s'
  | _, _ => s.SameNames s'

/-- A step that changes nothing or grants the request leaves what it should. -/
theorem Did.moves {s s₁ s' : Service} {r : Request} {g g' : Option r.Answer} (did : s.Did r g s₁)
    (moves : Moves r g s₁ s' g') : s.Did r g' s' := by
  cases hremoves : r.removes with
  | false =>
    simp only [Did, hremoves] at did ⊢
    rcases moves with ⟨hsame⟩ | ⟨-, hafter⟩
    · exact did.trans hsame
    · rw [Request.looks hremoves] at hafter
      exact did.trans hafter
  | true =>
    simp only [Did, hremoves] at did ⊢
    rcases moves with ⟨hsame⟩ | ⟨hgranted, hafter⟩
    · cases g with
      | none => exact did.trans hsame
      | some a => exact ⟨did.1, did.2.trans hsame⟩
    · obtain ⟨hanswer, hserved⟩ := SameNames.serve did hremoves
      exact ⟨hanswer.symm.trans hgranted, hserved.trans hafter⟩

end Service

namespace Client

/-- Wherever a request is sent, it is granted at most once, and its success means that it was. -/
theorem send_obeys (c : Client) (r : Request) :
    (c.send Service.transport r).Obeys (c.contract False r) none (Granted False) := by
  cases hgoes : r.destination with
  | shardOf i => exact send_shard_obeys hgoes
  | coordinators =>
    have hgroup : c.withCoordinators.shards.groupOf 0 = c.coordinators := by
      simp [withCoordinators, ShardTable.groupOf]
    have hinvoke := @invoke_obeys c.withCoordinators False r 0 False.elim
    rw [hgroup] at hinvoke
    have hasked : (Proc.read (c.endpointsFor r)).Obeys (c.contract False r) none
        fun endpoints g => g = none ∧ endpoints = .ok c.coordinators :=
      .read fun st _ => ⟨⟨.idle (.refl _), False.elim⟩, rfl, by simp [endpointsFor, hgoes]⟩
    refine hasked.bind ?_
    rintro _ _ ⟨rfl, rfl⟩
    -- As long as nothing is promised, it does not matter where the coordinators stand.
    have hinvoked : ((Wire.invoke Service.transport c.rpc c.coordinators r).on
        ClientState.wirePart).Obeys (c.contract False r) none (Granted False) := by
      refine hinvoke.refine Eq rfl ?_ ?_ ?_
      · exact fun _ _ _ _ _ hsure => hsure.elim
      · rintro g _ st st' g' rfl _ ⟨hmoves, -⟩
        exact ⟨g', ⟨hmoves, False.elim⟩, rfl⟩
      · rintro outcome g _ rfl hgranted
        exact hgranted
    refine hinvoked.bind ?_
    intro answer g hgranted
    cases answer with
    | error e => exact hgranted
    | ok a => exact hgranted

variable {c : Client} {r : Request}

/-- What a request that is sent leaves of the service. -/
theorem send_did (c : Client) (r : Request) (st : ClientState Service Link) :
    ∃ g, Granted False ((c.send Service.transport r).run st).1 g ∧
      st.service.Did r g ((c.send Service.transport r).run st).2.service := by
  have hstart : st.service.Did r none st.service := by
    unfold Service.Did
    cases r.removes <;> exact .refl _
  refine (send_obeys c r).run (fun g st' => st.service.Did r g st'.service) ?_ ?_ hstart
  · exact fun _ _ _ hsure => hsure.elim
  · exact fun _ _ _ _ hdid hstep => hdid.moves hstep.1

/-- What is remembered costs nothing. -/
theorem run_fsInfo_cached {fs : FsId} {info : FsInfo} {st : ClientState Service Link}
    (cached : st.cache.get? fs = some info) :
    (c.fsInfo Service.transport fs).run st = (.ok info, st) := by
  simp [fsInfo, cached]

/-- What is not remembered is asked for, and remembered then. -/
theorem run_fsInfo_missing {fs : FsId} {st : ClientState Service Link}
    (missing : st.cache.get? fs = none) :
    ((c.fsInfo Service.transport fs).run st).1 =
        ((c.send Service.transport (.getFsInfo fs)).run st).1 ∧
      ((c.fsInfo Service.transport fs).run st).2.service =
        ((c.send Service.transport (.getFsInfo fs)).run st).2.service := by
  simp only [fsInfo, Proc.run_bind, Proc.run_read, missing]
  cases ((c.send Service.transport (.getFsInfo fs)).run st).1 <;> exact ⟨rfl, rfl⟩

theorem run_fsInfos (c : Client) (st : ClientState Service Link) :
    ((c.fsInfos Service.transport).run st).1 =
        ((c.send Service.transport .listFsInfo).run st).1 ∧
      ((c.fsInfos Service.transport).run st).2.service =
        ((c.send Service.transport .listFsInfo).run st).2.service := by
  simp only [fsInfos, Proc.run_bind]
  cases ((c.send Service.transport .listFsInfo).run st).1 <;> exact ⟨rfl, rfl⟩

/-- A request that removes nothing changes no name. -/
theorem call_sameNames (c : Client) (keeps : r.removes = false) (st : ClientState Service Link) :
    st.service.SameNames ((c.call Service.transport r).run st).2.service := by
  have hsend : st.service.SameNames ((c.send Service.transport r).run st).2.service := by
    obtain ⟨g, -, hdid⟩ := send_did c r st
    simpa only [Service.Did, keeps] using hdid
  cases r with
  | getFsInfo fs =>
    cases hcache : st.cache.get? fs with
    | some info =>
      simp only [call, run_fsInfo_cached hcache]
      exact .refl _
    | none =>
      simp only [call, (run_fsInfo_missing hcache).2]
      exact hsend
  | listFsInfo =>
    simp only [call, (run_fsInfos c st).2]
    exact hsend
  | deleteFile | deleteDir => cases keeps
  | _ => exact hsend

/-- A request that failed has changed no name, however often it was tried; a request that removes
something and succeeded has changed them as the service does when it is asked once; and all others
change none. -/
theorem call_once (c : Client) (r : Request) (st : ClientState Service Link) :
    ∃ outcome st', (c.call Service.transport r).run st = (outcome, st') ∧
      match r.removes, outcome with
      | true, .ok a =>
        (st.service.serve r).1 = .ok a ∧ (st.service.serve r).2.SameNames st'.service
      | _, _ => st.service.SameNames st'.service := by
  refine ⟨_, _, rfl, ?_⟩
  cases hremoves : r.removes with
  | false => exact call_sameNames c hremoves st
  | true =>
    obtain ⟨i, hgoes⟩ : ∃ i, r.destination = .shardOf i := by
      cases r with
      | deleteFile | deleteDir => exact ⟨_, rfl⟩
      | _ => cases hremoves
    obtain ⟨g, hgranted, hdid⟩ := send_did c r st
    rw [← call_eq_send hgoes] at hgranted hdid
    cases houtcome : ((c.call Service.transport r).run st).1 with
    | error h =>
      rw [houtcome] at hgranted
      obtain ⟨-, rfl⟩ := hgranted
      simpa only [Service.Did, hremoves] using hdid
    | ok a =>
      rw [houtcome] at hgranted
      obtain rfl : g = some a := hgranted
      simpa only [Service.Did, hremoves] using hdid

end Client

end ShardSweep
