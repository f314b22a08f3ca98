import ShardSweep.Proofs.Client.Once

/-!
# A service whose answers stay the same

Some faults go away after a number of requests.  A directory that cannot be listed, attributes that
cannot be fetched, an endpoint that is out of reach and a service that is too slow stay as they are.
Where only such faults are arranged and nobody changes a namespace, each request that looks has one
answer, or none, however often it is made and whatever other requests are under way.

* `Service.Steady`: a service without faults that go away;
* `Service.Still`: nothing has changed that an answer depends on;
* `Outcome.Tells`: an outcome that is settled up to what goes wrong;
* `Service.told`: what comes of a request;
* `Client.call_always`: a request to a shard;
* `Sweep.ask_listing`: what the coordinators list is remembered.
-/

namespace ShardSweep

/-- The outcome is this answer, or a failure if there is none. -/
def Outcome.Tells {α : Type} (answer : Option α) : Outcome α → Prop
  | .ok a => answer = some a
  | .error (.failed _) => answer = none
  | .error (.panicked _) => False

namespace Service

/-- No fault goes away. -/
structure Steady (s : Service) : Prop where
  transport : s.faults.transportBurst = 0
  dials : s.faults.brokenDials = 0
  status : s.faults.statusBurst = 0

/-- Nothing has changed but what is counted. -/
structure Still (s₀ s : Service) : Prop extends s₀.SameNames s where
  faults : s.faults = s₀.faults
  latency : s.latency = s₀.latency
  unreachable : s.unreachable = s₀.unreachable

/-- What is answered to a request that looks; nothing, if it never gets there or back in time. -/
def replyTo (s : Service) (timeout : Duration) (endpoint : Endpoint) (r : Request) :
    Option r.Answer :=
  if endpoint ∈ s.unreachable ∨ timeout.nanos < s.latency.nanos then none
  else (s.serve r).1.toOption

variable {s₀ s : Service} {r : Request} {endpoint : Endpoint} {timeout : Duration}

theorem Still.refl (s : Service) : s.Still s :=
  ⟨.refl s, rfl, rfl, rfl⟩

theorem Still.alike (still : s₀.Still s) : s₀.Alike s :=
  ⟨still.toSameNames, by rw [still.faults], by rw [still.faults]⟩

/-- A steady service that has not changed is steady. -/
theorem Steady.still (steady : s₀.Steady) (still : s₀.Still s) : s.Steady := by
  refine ⟨?_, ?_, ?_⟩
  · rw [still.faults, steady.transport]
  · rw [still.faults, steady.dials]
  · rw [still.faults, steady.status]

/-- A request over a connection that is not broken. -/
theorem Steady.receive (steady : s₀.Steady) (still : s₀.Still s) {link : Link}
    (whole : link.broken = false) (reached : endpoint ∉ s₀.unreachable) (looks : r.Looks) :
    (Wire.settle (s.receive link timeout r).1).toOption = s₀.replyTo timeout endpoint r ∧
      s₀.Still (s.receive link timeout r).2 := by
  have hsteady := steady.still still
  have hcount : s₀.Still (s.count r.kind) :=
    ⟨⟨still.filesystems, still.deleted⟩, still.faults, still.latency, still.unreachable⟩
  have htransport : (s.count r.kind).faults.transportBurst = 0 := hsteady.transport
  have hstatus : (s.count r.kind).faults.statusBurst = 0 := hsteady.status
  have hlatency : (s.count r.kind).latency = s₀.latency := hcount.latency
  rw [Service.receive, if_neg (by simp [whole]), replyTo]
  unfold deliver onTheWay arrangedRefusal
  by_cases hlate : timeout.nanos < s₀.latency.nanos
  · simp only [htransport, hlatency, hlate, Nat.lt_irrefl, if_true, if_false, or_true]
    exact ⟨rfl, hcount⟩
  · simp only [htransport, hstatus, hlatency, hlate, reached, Nat.lt_irrefl, if_false, or_self]
    rw [(hcount.alike.serve r).1, looks]
    refine ⟨?_, hcount⟩
    cases (s₀.serve r).1 <;> rfl

/-- A dial succeeds if the endpoint can be reached. -/
theorem Steady.dial (steady : s₀.Steady) (still : s₀.Still s) (endpoint : Endpoint) :
    ((∃ e, (s.open? endpoint).1 = .error e ∧ endpoint ∈ s₀.unreachable) ∨
      ((s.open? endpoint).1 = .ok ⟨endpoint, false⟩ ∧ endpoint ∉ s₀.unreachable)) ∧
    s₀.Still (s.open? endpoint).2 := by
  have hdials : s.faults.brokenDials = 0 := (steady.still still).dials
  have hfaults : { s.faults with brokenDials := 0 } = s.faults := by rw [← hdials]
  unfold open?
  by_cases hreached : endpoint ∈ s₀.unreachable
  · rw [if_pos (by simpa [still.unreachable] using hreached)]
    exact ⟨.inl ⟨_, rfl, hreached⟩, ⟨still.filesystems, still.deleted⟩, still.faults,
      still.latency, still.unreachable⟩
  · rw [if_neg (by simpa [still.unreachable] using hreached)]
    refine ⟨.inr ⟨by simp [hdials], hreached⟩, ⟨still.filesystems, still.deleted⟩, ?_,
      still.latency, still.unreachable⟩
    simp only [breakConnections, hdials, Nat.zero_sub, hfaults]
    exact still.faults

end Service

/-- What a wire is worth to those who use it has not changed. -/
structure Wire.Still (s₀ : Service) (w : Wire Service Link) : Prop where
  service : s₀.Still w.pooled.net
  /-- All idle connections can be used, and others like them be dialed. -/
  idle : ∀ entry ∈ w.pooled.pool.idle, entry.2.broken = false ∧ entry.1 ∉ s₀.unreachable

section Attempts

variable {s₀ : Service} {settings : RpcSettings} {r : Request} {endpoint : Endpoint}

/-- How far a request can have come whose answer is known. -/
private def Stage.Fits (s₀ : Service) (endpoint : Endpoint) (answer : Option r.Answer) :
    Stage r → Prop
  | .between _ | .seeking _ | .dialing _ => True
  | .dialed _ (.ok link) => link.broken = false ∧ endpoint ∉ s₀.unreachable
  | .dialed _ (.error _) => answer = none
  | .holding _ link | .listing _ link => link.broken = false ∧ endpoint ∉ s₀.unreachable
  | .listed _ link delivery | .carried _ link delivery =>
    (link.broken = false ∧ endpoint ∉ s₀.unreachable) ∧ (Wire.settle delivery).toOption = answer
  | .tried _ outcome => outcome.toOption = answer
  | .over _ => answer = none

/-- A step of an attempt at a steady service leads to the reply that is due. -/
private theorem Stage.Fits.goes {most : Nat} {stage stage' : Stage r} {w w' : Wire Service Link}
    (fits : stage.Fits s₀ endpoint (s₀.replyTo settings.timeout endpoint r)) (steady : s₀.Steady)
    (looks : r.Looks) (still : w.Still s₀)
    (goes : stage.Goes settings.timeout endpoint most r w w' stage') :
    stage'.Fits s₀ endpoint (s₀.replyTo settings.timeout endpoint r) ∧ w'.Still s₀ := by
  obtain ⟨hservice, hidle⟩ := still
  cases goes with
  | lend found =>
    obtain ⟨hlink, hothers⟩ := Pool.of_lend found
    exact ⟨hidle _ hlink, hservice, fun entry hentry => hidle entry (hothers entry hentry)⟩
  | dial =>
    obtain ⟨hopen, hstill⟩ := steady.dial hservice endpoint
    refine ⟨?_, hstill, hidle⟩
    rcases hopen with ⟨e, he, hunreachable⟩ | ⟨hlink, hreached⟩
    · rw [he]
      exact if_pos (.inl hunreachable)
    · rw [hlink]
      exact ⟨rfl, hreached⟩
  | enter | leave =>
    exact ⟨fits, ⟨⟨hservice.filesystems, hservice.deleted⟩, hservice.faults, hservice.latency,
      hservice.unreachable⟩, hidle⟩
  | list | send =>
    obtain ⟨hreply, hstill⟩ := steady.receive hservice fits.1 fits.2 looks
    exact ⟨⟨fits, hreply⟩, hstill, hidle⟩
  | putBack =>
    exact ⟨fits.2, hservice, List.forall_mem_cons.mpr ⟨fits.1, hidle⟩⟩
  | discard => exact ⟨fits.2, hservice, hidle⟩
  | «open» => exact ⟨fits, hservice, hidle⟩
  | fail | exhaust | reject => exact ⟨fits.symm, hservice, hidle⟩
  | _ => exact ⟨trivial, hservice, hidle⟩

/-- What comes of a request to a group of replicas. -/
def Service.answerOf (s : Service) (timeout : Duration) (group : List Endpoint) (r : Request) :
    Option r.Answer :=
  group.head?.bind fun endpoint => s.replyTo timeout endpoint r

/-- However often it is made, a request that looks gets the same answer, or none. -/
theorem Wire.invoke_always (steady : s₀.Steady) (looks : r.Looks) (group : List Endpoint) :
    (Wire.invoke Service.transport settings group r).Always (Wire.Still s₀)
      fun outcome => outcome.toOption = s₀.answerOf settings.timeout group r := by
  refine fun w still => ⟨(), ⟨still.service, still.idle⟩, ?_⟩
  cases group with
  | nil => exact fun w still => ⟨(), ⟨still.service, still.idle⟩, rfl⟩
  | cons endpoint rest =>
    refine (Wire.attempts_obeys_settings settings endpoint r).refine (fun stage _ =>
      stage.Fits s₀ endpoint (s₀.replyTo settings.timeout endpoint r)) trivial ?_ ?_ ?_
    · exact fun _ _ _ _ _ => trivial
    · rintro stage _ w w' stage' hfits hstill hgoes
      obtain ⟨hfits', hstill'⟩ := hfits.goes steady looks hstill hgoes
      exact ⟨(), hstill', hfits'⟩
    · rintro outcome stage _ hfits hends
      cases hends with
      | answered => exact hfits
      | gaveUp => exact hfits.symm

end Attempts

/-- The endpoints that a request is sent to, once the client is ready. -/
def Client.groupFor (c : Client) (r : Request) : List Endpoint :=
  match r.destination with
  | .shardOf i => c.shards.groupOf i
  | .coordinators => c.coordinators

/-- What a client is told on a request that looks. -/
def Service.told (s : Service) (c : Client) (r : Request) : Option r.Answer :=
  s.answerOf c.rpc.timeout (c.groupFor r) r

/-- What is told is served. -/
theorem Service.serve_of_told {s : Service} {c : Client} {r : Request} {a : r.Answer}
    (h : s.told c r = some a) : (s.serve r).1 = .ok a := by
  obtain ⟨endpoint, -, hreply⟩ := Option.bind_eq_some_iff.mp h
  unfold replyTo at hreply
  split at hreply
  · cases hreply
  · cases hserve : (s.serve r).1 with
    | error status => simp [hserve, Except.toOption] at hreply
    | ok b => simpa [hserve, Except.toOption] using hreply

/-- A client is ready for a filesystem and remembers some infos. -/
structure ClientState.Still (s₀ : Service) (active : Option FsId) (cache : FsCache)
    (st : ClientState Service Link) : Prop where
  wire : st.wire.Still s₀
  active : st.active = active
  cache : st.cache = cache

namespace Client

variable {s₀ : Service} {c : Client} {r : Request} {active : Option FsId} {cache : FsCache}

/-- A request that was sent gets its answer. -/
private theorem send_always (steady : s₀.Steady) (looks : r.Looks)
    (goes : ∀ st : ClientState Service Link, st.Still s₀ active cache →
      c.endpointsFor r st = .ok (c.groupFor r)) :
    (c.send Service.transport r).Always (ClientState.Still s₀ active cache)
      (Outcome.Tells (s₀.told c r)) := by
  have hasked : (Proc.read (c.endpointsFor r)).Always (ClientState.Still s₀ active cache)
      fun endpoints => endpoints = .ok (c.groupFor r) :=
    Proc.Obeys.read fun st still => ⟨still, goes st still⟩
  have hinvoke : ((Wire.invoke Service.transport c.rpc (c.groupFor r) r).on
      ClientState.wirePart).Always (ClientState.Still s₀ active cache)
        fun outcome => outcome.toOption = s₀.told c r :=
    (Wire.invoke_always steady looks _).on _ (fun _ ht => ht.wire)
      fun _ _ ht hs => ⟨hs, ht.active, ht.cache⟩
  refine hasked.bind ?_
  rintro _ rfl
  refine hinvoke.bind ?_
  rintro (e | a) houtcome
  · exact houtcome.symm
  · exact houtcome.symm

/-- A request to a shard always has the same answer, once the client is ready. -/
theorem call_always (steady : s₀.Steady) (looks : r.Looks) {i : Inode}
    (goes : r.destination = .shardOf i) (fs : FsId) (cache : FsCache) :
    (c.call Service.transport r).Always (ClientState.Still s₀ (some fs) cache)
      (Outcome.Tells (s₀.told c r)) := by
  rw [call_eq_send goes]
  refine send_always steady looks fun st still => ?_
  simp [endpointsFor, groupFor, goes, ShardTable.resolve, still.active]

/-- The coordinators always list the same. -/
theorem send_listing_always (steady : s₀.Steady) (active : Option FsId) (cache : FsCache) :
    (c.send Service.transport .listFsInfo).Always (ClientState.Still s₀ active cache)
      (Outcome.Tells (s₀.told c .listFsInfo)) :=
  send_always steady (fun _ => rfl) fun _ _ => rfl

end Client

namespace FsCache

variable {infos : List FsInfo} {fs : FsId}

/-- What is put for other filesystems changes nothing about this one. -/
theorem get?_putAll_of_other (cache : FsCache) (other : ∀ info ∈ infos, fs ≠ info.fs) :
    (cache.putAll infos).get? fs = cache.get? fs := by
  induction infos generalizing cache with
  | nil => rfl
  | cons info infos ih =>
    obtain ⟨hne, hothers⟩ := List.forall_mem_cons.mp other
    change ((cache.put info).putAll infos).get? fs = _
    rw [ih _ hothers, get?_put, if_neg hne]

/-- Infos of different filesystems are all remembered. -/
theorem get?_putAll (cache : FsCache) (sorted : infos.Pairwise (·.fs < ·.fs)) {info : FsInfo}
    (mem : info ∈ infos) : (cache.putAll infos).get? info.fs = some info := by
  induction infos generalizing cache with
  | nil => cases mem
  | cons first infos ih =>
    obtain ⟨hfirst, hrest⟩ := List.pairwise_cons.mp sorted
    change ((cache.put first).putAll infos).get? info.fs = _
    rcases List.mem_cons.mp mem with rfl | hmem
    · have hother : ∀ later ∈ infos, info.fs ≠ later.fs := fun later h =>
        Nat.ne_of_lt (hfirst later h)
      rw [get?_putAll_of_other _ hother, get?_put, if_pos rfl]
    · exact ih _ hrest hmem

end FsCache

namespace Service

/-- The infos of all filesystems. -/
def infos (s : Service) : List FsInfo :=
  s.filesystems.toList.map fun (fs, f) => infoOf fs f

theorem sorted_infos (s : Service) : s.infos.Pairwise (·.fs < ·.fs) := by
  refine List.pairwise_map.mpr (Std.TreeMap.ordered_keys_toList.imp ?_)
  intro a b h
  exact Nat.compare_eq_lt.mp h

/-- All filesystems are told, each as it is. -/
theorem mem_infos {s : Service} {info : FsInfo} :
    info ∈ s.infos ↔ ∃ f, s.filesystem? info.fs = some f ∧ info = infoOf info.fs f := by
  unfold infos
  constructor
  · intro h
    obtain ⟨⟨fs, f⟩, hmem, rfl⟩ := List.mem_map.mp h
    exact ⟨f, Std.TreeMap.mem_toList_iff_getElem?_eq_some.mp hmem, rfl⟩
  · rintro ⟨f, hf, hinfo⟩
    exact List.mem_map.mpr ⟨(info.fs, f), Std.TreeMap.mem_toList_iff_getElem?_eq_some.mpr hf,
      hinfo.symm⟩

end Service

/-- A table that is ready for a filesystem is ready for the one that was named. -/
theorem ShardTable.eq_of_ready {t : ShardTable} {fs active : FsId} (h : t.ready fs = .ok active) :
    active = fs := by
  unfold ready at h
  split at h
  · cases h
  · split at h
    · exact (Except.ok.inj h).symm
    · cases h

/-- A deployment whose service is as it was and whose client is ready and remembers some infos. -/
def Deployment.Still (s₀ : Service) (active : Option FsId) (cache : FsCache) (d : Deployment) :
    Prop :=
  (Deployment.clientPart.get d).Still s₀ active cache

namespace Sweep

variable {s₀ : Service} {c : Client} {d : Deployment} {active : Option FsId} {cache : FsCache}

/-- What the coordinators list is remembered. -/
theorem ask_listing (steady : s₀.Steady) (still : d.Still s₀ active cache) :
    (∃ e d', ask (Deployment.metadata c) .listFsInfo d = (some (.error (.failed e)), d')) ∨
    ∃ d', ask (Deployment.metadata c) .listFsInfo d = (some (.ok s₀.infos), d') ∧
      d'.Still s₀ active (cache.putAll s₀.infos) := by
  obtain ⟨houtcome, hstill⟩ := (Client.send_listing_always steady active cache).run still
  rcases hsend : (c.send Service.transport .listFsInfo).run (Deployment.clientPart.get d) with
    ⟨(e | p) | infos, st⟩
  · have hrun : (c.call Service.transport .listFsInfo).run (Deployment.clientPart.get d) =
        (.error (.failed e), st) := by
      simp only [Client.call, Client.fsInfos, Proc.run_bind, hsend]
      rfl
    exact .inl ⟨_, _, ask_eq hrun⟩
  · rw [hsend] at houtcome
    cases houtcome
  · have hrun : (c.call Service.transport .listFsInfo).run (Deployment.clientPart.get d) =
        (.ok infos, { st with cache := st.cache.putAll infos }) := by
      simp only [Client.call, Client.fsInfos, Proc.run_bind, hsend]
      rfl
    rw [hsend] at houtcome hstill
    have hinfos : s₀.infos = infos := by
      have htold : s₀.told c .listFsInfo = some infos := houtcome
      exact Except.ok.inj (Service.serve_of_told htold)
    rw [hinfos]
    exact .inr ⟨_, ask_eq hrun, hstill.wire, hstill.active, by rw [← hstill.cache]; rfl⟩

/-- What is remembered is not asked for. -/
theorem ask_remembered {fs : FsId} {info : FsInfo} (c : Client)
    (remembered : d.cache.get? fs = some info) :
    ask (Deployment.metadata c) (.getFsInfo fs) d = (some (.ok info), d) := by
  have hrun : (c.call Service.transport (.getFsInfo fs)).run (Deployment.clientPart.get d) =
      (.ok info, Deployment.clientPart.get d) :=
    Client.run_fsInfo_cached remembered
  rw [ask_eq hrun, Deployment.clientPart.set_get]

/-- Whether a client gets ready for a filesystem depends on its shards only. -/
theorem prepare_eq (c : Client) (fs : FsId) (d : Deployment) :
    prepare (Deployment.metadata c) fs d = match c.shards.ready fs with
      | .error e => (some (.error (.failed (.routing e))), d)
      | .ok active => (some (.ok ()), { d with active := some active }) := by
  simp only [prepare, perform, Deployment.metadata, Metadata.on, Client.metadata, Client.prepare,
    Proc.run_on, Proc.run_atomic, Deployment.clientPart]
  cases c.shards.ready fs <;> rfl

end Sweep

end ShardSweep
