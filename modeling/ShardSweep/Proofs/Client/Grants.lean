import ShardSweep.Proofs.Client.Stages
import ShardSweep.Proofs.Cluster.Left

/-!
# What a request of a client does to the service

However often a client has to try, the service grants a request once at most, and the client
reports success exactly if it was granted.  Everything else that the client does, and every
attempt that fails, leaves the namespaces and the log of removed entries alone.  If nothing is
in the way and the service would grant the request, the first attempt succeeds.

* `Service.Moves`: a step that changes nothing, or grants the request;
* `Service.receive_cases`: what comes of one delivery;
* `Client.call_obeys`: a request that goes to a shard.
-/

namespace ShardSweep

namespace Service

/-- Nothing is in the way of the requests of a client. -/
structure Calm (c : Client) (s : Service) : Prop where
  transport : s.faults.transportBurst = 0
  dials : s.faults.brokenDials = 0
  status : s.faults.statusBurst = 0
  latency : s.latency.nanos ≤ c.rpc.timeout.nanos
  lists : ∀ i : Inode, s.faults.listFailures[i]? = none
  attrs : ∀ i : Inode, s.faults.attrFailures[i]? = none
  reach : ∀ i, ∃ e rest, c.shards.groupOf i = e :: rest ∧ e ∉ s.unreachable

/-- A step that changes nothing, or grants a request that was not granted before. -/
inductive Moves (r : Request) : Option r.Answer → Service → Service → Option r.Answer → Prop
  | idle {g s s'} (same : SameNames s s') : Moves r g s s' g
  | grant {s s' a} (granted : (s.serve r).1 = .ok a) (after : (s.serve r).2.SameNames s') :
      Moves r none s s' (some a)

/-- A delivery behind the faults of the way there finds the service as it was, or ends there. -/
theorem deliver_cases (s : Service) (endpoint : Endpoint) (timeout : Duration) (r : Request) :
    (∃ s', s.Alike s' ∧ s.deliver endpoint timeout r = (.ok (s'.serve r).1, (s'.serve r).2)) ∨
    ((∀ a, (s.deliver endpoint timeout r).1 ≠ .ok (.ok a)) ∧
      s.SameNames (s.deliver endpoint timeout r).2) := by
  unfold deliver onTheWay arrangedRefusal
  by_cases htransport : 0 < (s.count r.kind).faults.transportBurst
  · simp only [htransport, if_true]
    exact .inr ⟨fun a h => (nomatch h), rfl, rfl⟩
  · by_cases hlate : timeout.nanos < (s.count r.kind).latency.nanos
    · simp only [htransport, hlate, if_true, if_false]
      exact .inr ⟨fun a h => (nomatch h), rfl, rfl⟩
    · by_cases hstatus : 0 < (s.count r.kind).faults.statusBurst
      · simp only [htransport, hlate, hstatus, if_true, if_false]
        exact .inr ⟨fun a h => (nomatch h), rfl, rfl⟩
      · simp only [htransport, hlate, hstatus, if_false]
        exact .inl ⟨s.count r.kind, ⟨⟨rfl, rfl⟩, rfl, rfl⟩, rfl⟩

/-- A refused request leaves the namespaces alone. -/
private theorem moves_serve {s s' : Service} (alike : s.Alike s') (r : Request) :
    (∃ a, (s'.serve r).1 = .ok a ∧ Moves r none s (s'.serve r).2 (some a)) ∨
      ((∀ a, (s'.serve r).1 ≠ .ok a) ∧ s.SameNames (s'.serve r).2) := by
  obtain ⟨hanswer, hafter⟩ := alike.serve r
  rcases hserve : s'.serve r with ⟨status | a, s''⟩
  · have hsame := serve_error hserve
    refine .inr ⟨fun a h => (nomatch h), ?_⟩
    rw [hsame]
    exact alike.toSameNames
  · rw [hserve] at hanswer hafter
    exact .inl ⟨a, rfl, .grant hanswer.symm hafter⟩

/-- A delivery brings the answer to a request that was granted, or the request changed nothing. -/
theorem receive_cases (s : Service) (link : Link) (timeout : Duration) (r : Request) :
    (∃ a, (s.receive link timeout r).1 = .ok (.ok a) ∧
      Moves r none s (s.receive link timeout r).2 (some a)) ∨
    ((∀ a, (s.receive link timeout r).1 ≠ .ok (.ok a)) ∧
      s.SameNames (s.receive link timeout r).2) := by
  unfold receive
  by_cases hbroken : link.broken = true
  · rw [if_pos hbroken]
    exact .inr ⟨fun a h => (nomatch h), rfl, rfl⟩
  · rw [if_neg hbroken]
    rcases s.deliver_cases link.endpoint timeout r with ⟨s', halike, hdeliver⟩ | hfailed
    · rw [hdeliver]
      rcases moves_serve halike r with ⟨a, ha, hmoves⟩ | ⟨hrefused, hsame⟩
      · exact .inl ⟨a, by rw [ha], hmoves⟩
      · exact .inr ⟨fun a h => hrefused a (Except.ok.inj h), hsame⟩
    · exact .inr hfailed

theorem Calm.serve {s : Service} {c : Client} (calm : s.Calm c) (r : Request) :
    (s.serve r).2.Calm c := by
  have hremove : ∀ fs epoch name edit, (s.remove fs epoch name edit).2.Calm c := by
    intro fs epoch name edit
    unfold remove
    cases s.current fs epoch with
    | error status => exact calm
    | ok f =>
      cases hedit : edit f.tree with
      | error status => simpa [hedit] using calm
      | ok t =>
        simp only [hedit]
        exact ⟨calm.transport, calm.dials, calm.status, calm.latency, calm.lists, calm.attrs,
          calm.reach⟩
  cases r with
  | deleteFile fs parent name epoch => exact hremove fs epoch name (·.removeFile parent name)
  | deleteDir fs parent name epoch => exact hremove fs epoch name (·.removeDir parent name)
  | _ => exact calm

theorem Calm.clear {s : Service} {c : Client} (calm : s.Calm c) {link : Link}
    (whole : link.broken = false) : s.Clear link c.rpc.timeout :=
  ⟨whole, calm.transport, calm.status, calm.latency, calm.lists, calm.attrs⟩

/-- Where nothing is in the way a request arrives. -/
theorem receive_of_calm {s : Service} {c : Client} (calm : s.Calm c) {link : Link}
    (whole : link.broken = false) (r : Request) :
    (s.receive link c.rpc.timeout r).1 = .ok (s.serve r).1 ∧
      (s.receive link c.rpc.timeout r).2.Calm c := by
  have hcounted : (s.count r.kind).Calm c :=
    ⟨calm.transport, calm.dials, calm.status, calm.latency, calm.lists, calm.attrs, calm.reach⟩
  rw [receive_of_clear (calm.clear whole) r]
  exact ⟨rfl, hcounted.serve r⟩

/-- Where nothing is in the way an endpoint can be dialed. -/
theorem open_of_calm {s : Service} {c : Client} (calm : s.Calm c) {endpoint : Endpoint}
    (reached : endpoint ∉ s.unreachable) :
    (s.open? endpoint).1 = .ok ⟨endpoint, false⟩ ∧ (s.open? endpoint).2.Calm c := by
  unfold open?
  rw [if_neg (by simpa using reached)]
  refine ⟨by simp [calm.dials], ?_⟩
  exact ⟨calm.transport, by simp [breakConnections, calm.dials], calm.status, calm.latency,
    calm.lists, calm.attrs, calm.reach⟩

theorem open_sameNames (s : Service) (endpoint : Endpoint) : s.SameNames (s.open? endpoint).2 := by
  unfold open?
  split <;> exact ⟨rfl, rfl⟩

end Service

namespace ClientState

/-- The service behind a client. -/
def service (st : ClientState Service Link) : Service :=
  st.wire.pooled.net

/-- Nothing is in the way between a client and its service. -/
structure Calm (c : Client) (st : ClientState Service Link) : Prop where
  active : st.active.isSome
  service : st.service.Calm c
  idle : ∀ entry ∈ st.wire.pooled.pool.idle, entry.2.broken = false

end ClientState

/-- What a request of a client may count on and do.  If it is sure to succeed, nothing is in
the way, and the service would grant it. -/
def Client.contract (c : Client) (sure : Prop) (r : Request) :
    Contract (ClientState Service Link) (Option r.Answer) where
  assume g st := sure → st.Calm c ∧ (g = none → ∃ a, (st.service.serve r).1 = .ok a)
  step g st st' g' := Service.Moves r g st.service st'.service g' ∧ (sure → st'.Calm c)

/-- Success means that the request was granted, and failure that it was not. -/
def Granted {ε α : Type} (sure : Prop) : Except ε α → Option α → Prop
  | .ok a, g => g = some a
  | .error _, g => ¬ sure ∧ g = none

namespace Client

variable {c : Client} {sure : Prop} {r : Request} {g : Option r.Answer}

private theorem note_obeys (f : CallTally → CallTally) :
    ((Wire.note f).on ClientState.wirePart).Obeys (c.contract sure r) g fun _ g' => g' = g := by
  apply Proc.Obeys.modify
  intro st hst
  refine ⟨.idle (.refl _), ?_⟩
  intro hsure
  obtain ⟨hcalm, -⟩ := hst hsure
  exact ⟨hcalm.active, hcalm.service, hcalm.idle⟩

private theorem giveUp_obeys (e : RpcError) (unsure : ¬ sure) :
    ((Wire.giveUp e : Proc (Wire Service Link) (Except RpcError r.Answer)).on
      ClientState.wirePart).Obeys (c.contract sure r) none (Granted sure) := by
  simp only [Wire.giveUp, Proc.on_bind]
  apply (note_obeys _).bind
  intro _ g heq
  subst heq
  exact ⟨unsure, rfl⟩

/-- What is known at each stage of a request whether it was granted.  If it is sure to succeed,
its connection is whole and its first attempt does not fail. -/
private def Follows (sure : Prop) : Stage r → Option r.Answer → Prop
  | .between _, g | .seeking _, g | .dialing _, g => g = none
  | .dialed _ lent, g => g = none ∧ (sure → ∃ link, lent = .ok link ∧ link.broken = false)
  | .holding _ link, g | .listing _ link, g => g = none ∧ (sure → link.broken = false)
  | .listed _ link delivery, g | .carried _ link delivery, g =>
    Granted sure (Wire.settle delivery) g ∧ (sure → link.broken = false)
  | .tried _ outcome, g => Granted sure outcome g
  | .over _, g => ¬ sure ∧ g = none

/-- One delivery of a request that was not granted yet. -/
private theorem receive_follows {s : Service} {link : Link} (whole : sure → link.broken = false)
    (calm : sure → s.Calm c ∧ ∃ a, (s.serve r).1 = .ok a) :
    ∃ g, Service.Moves r none s (s.receive link c.rpc.timeout r).2 g ∧
      (sure → (s.receive link c.rpc.timeout r).2.Calm c) ∧
      Granted sure (Wire.settle (s.receive link c.rpc.timeout r).1) g := by
  have hcalm : sure → (s.receive link c.rpc.timeout r).2.Calm c := fun hsure =>
    (Service.receive_of_calm (calm hsure).1 (whole hsure) r).2
  rcases s.receive_cases link c.rpc.timeout r with ⟨a, ha, hmoves⟩ | ⟨hfailed, hsame⟩
  · exact ⟨some a, hmoves, hcalm, by rw [ha]; rfl⟩
  · refine ⟨none, .idle hsame, hcalm, ?_⟩
    have hunsure : ¬ sure := by
      intro hsure
      obtain ⟨hcalm, a, ha⟩ := calm hsure
      exact hfailed a (by rw [(Service.receive_of_calm hcalm (whole hsure) r).1, ha])
    rcases hdelivery : (s.receive link c.rpc.timeout r).1 with e | status | a
    · exact ⟨hunsure, rfl⟩
    · exact ⟨hunsure, rfl⟩
    · exact absurd hdelivery (hfailed a)

/-- Every step of a request does what the contract allows. -/
private theorem goes_follows {i : Inode} {endpoint : Endpoint} {rest : List Endpoint} {most : Nat}
    (there : c.shards.groupOf i = endpoint :: rest) {st : ClientState Service Link}
    {w : Wire Service Link} {stage stage' : Stage r} (follows : Follows sure stage g)
    (assume : (c.contract sure r).assume g st)
    (goes : stage.Goes c.rpc.timeout endpoint most r st.wire w stage') :
    ∃ g', (c.contract sure r).step g st { st with wire := w } g' ∧ Follows sure stage' g' := by
  obtain ⟨w₀, active, cache⟩ := st
  have hcalm : sure → ClientState.Calm c ⟨w₀, active, cache⟩ := fun hsure => (assume hsure).1
  -- A step that leaves the names alone and nothing in the way.
  have hidle : w₀.pooled.net.SameNames w.pooled.net → (sure → w.pooled.net.Calm c) →
      (sure → ∀ entry ∈ w.pooled.pool.idle, entry.2.broken = false) →
      (c.contract sure r).step g ⟨w₀, active, cache⟩ ⟨w, active, cache⟩ g := fun hsame hservice hpool =>
    ⟨.idle hsame, fun hsure => ⟨(hcalm hsure).active, hservice hsure, hpool hsure⟩⟩
  have hservice : sure → w₀.pooled.net.Calm c := fun hsure => (hcalm hsure).service
  have hpool : sure → ∀ entry ∈ w₀.pooled.pool.idle, entry.2.broken = false := fun hsure =>
    (hcalm hsure).idle
  cases goes with
  | attempt => exact ⟨g, hidle (.refl _) hservice hpool, follows⟩
  | lend found =>
    obtain rfl : g = none := follows
    obtain ⟨hlink, hothers⟩ := Pool.of_lend found
    exact ⟨none, hidle (.refl _) hservice fun hsure entry hentry =>
      hpool hsure entry (hothers entry hentry), rfl, fun hsure => hpool hsure _ hlink⟩
  | miss => exact ⟨g, hidle (.refl _) hservice hpool, follows⟩
  | dial =>
    have hopen : sure → (w₀.pooled.net.open? endpoint).1 = .ok ⟨endpoint, false⟩ ∧
        (w₀.pooled.net.open? endpoint).2.Calm c := by
      intro hsure
      obtain ⟨e, rest', hgroup, hreached⟩ := (hservice hsure).reach i
      obtain ⟨rfl, rfl⟩ := List.cons.inj (hgroup.symm.trans there)
      exact Service.open_of_calm (hservice hsure) hreached
    exact ⟨g, hidle (w₀.pooled.net.open_sameNames endpoint) (fun hsure => (hopen hsure).2) hpool,
      follows, fun hsure => ⟨_, (hopen hsure).1, rfl⟩⟩
  | «open» =>
    refine ⟨g, hidle (.refl _) hservice hpool, follows.1, ?_⟩
    intro hsure
    obtain ⟨link, heq, hwhole⟩ := follows.2 hsure
    cases heq
    exact hwhole
  | fail =>
    refine ⟨g, hidle (.refl _) hservice hpool, ?_, follows.1⟩
    intro hsure
    obtain ⟨link, heq, -⟩ := follows.2 hsure
    cases heq
  | enter | leave =>
    refine ⟨g, hidle ⟨rfl, rfl⟩ (fun hsure => ?_) hpool, follows⟩
    exact ⟨(hservice hsure).transport, (hservice hsure).dials, (hservice hsure).status,
      (hservice hsure).latency, (hservice hsure).lists, (hservice hsure).attrs,
      (hservice hsure).reach⟩
  | list | send =>
    obtain ⟨rfl, hwhole⟩ := follows
    obtain ⟨g', hmoves, hcalm', hgranted⟩ := receive_follows hwhole fun hsure =>
      ⟨hservice hsure, (assume hsure).2 rfl⟩
    exact ⟨g', ⟨hmoves, fun hsure => ⟨(hcalm hsure).active, hcalm' hsure, hpool hsure⟩⟩, hgranted,
      hwhole⟩
  | putBack =>
    refine ⟨g, hidle (.refl _) hservice fun hsure entry hentry => ?_, follows.1⟩
    rcases List.mem_cons.mp hentry with rfl | hentry
    · exact follows.2 hsure
    · exact hpool hsure entry hentry
  | discard => exact ⟨g, hidle (.refl _) hservice hpool, follows.1⟩
  | again | exhaust | reject =>
    obtain ⟨hunsure, rfl⟩ := follows
    exact ⟨none, hidle (.refl _) hservice hpool, by simp [Follows, hunsure]⟩

private theorem attempts_obeys {i : Inode} {endpoint : Endpoint} {rest : List Endpoint}
    (there : c.shards.groupOf i = endpoint :: rest) :
    ((Wire.attempts Service.transport c.rpc.timeout endpoint r (c.rpc.maxAttempts - 1) 1).on
      ClientState.wirePart).Obeys (c.contract sure r) none (Granted sure) := by
  refine ((Wire.attempts_obeys _ rfl).on ClientState.wirePart).refine (Follows sure) rfl ?_ ?_ ?_
  · exact fun _ _ _ _ _ => trivial
  · rintro stage g st st' stage' hfollows hassume ⟨hgoes, hst'⟩
    rw [hst']
    exact goes_follows there hfollows hassume hgoes
  · rintro outcome stage g hfollows hends
    cases hends with
    | answered => exact hfollows
    | gaveUp => exact hfollows

/-- A request that is sent to a group of replicas is granted at most once, and its success means
that it was. -/
theorem invoke_obeys (i : Inode) (reach : sure → c.shards.groupOf i ≠ []) :
    ((Wire.invoke Service.transport c.rpc (c.shards.groupOf i) r).on
      ClientState.wirePart).Obeys (c.contract sure r) none (Granted sure) := by
  simp only [Wire.invoke, Proc.on_bind]
  apply (note_obeys _).bind
  intro _ g heq
  subst heq
  cases hgroup : c.shards.groupOf i with
  | nil => exact giveUp_obeys _ fun hsure => reach hsure hgroup
  | cons endpoint rest => exact attempts_obeys hgroup

/-- A client asks the shard, unless it was never told which filesystem to be ready for. -/
private theorem endpointsFor_obeys {i : Inode} (goes : r.destination = .shardOf i) :
    (Proc.read (c.endpointsFor r)).Obeys (c.contract sure r) g fun endpoints g' => g' = g ∧
      (sure → ∃ e rest, endpoints = .ok (e :: rest)) ∧
      ∀ es, endpoints = .ok es → es = c.shards.groupOf i := by
  apply Proc.Obeys.read
  intro st hst
  refine ⟨⟨.idle (.refl _), fun hsure => (hst hsure).1⟩, rfl, ?_, ?_⟩
  · intro hsure
    obtain ⟨hcalm, -⟩ := hst hsure
    obtain ⟨active, hactive⟩ := Option.isSome_iff_exists.mp hcalm.active
    obtain ⟨e, rest, hgroup, -⟩ := hcalm.service.reach i
    exact ⟨e, rest, by simp [endpointsFor, goes, ShardTable.resolve, hactive, hgroup]⟩
  · intro es hes
    cases hactive : st.active with
    | none => simp [endpointsFor, goes, ShardTable.resolve, hactive] at hes
    | some active => simpa [endpointsFor, goes, ShardTable.resolve, hactive, eq_comm] using hes

/-- A request to a shard is granted at most once, and its success means that it was. -/
theorem send_shard_obeys {i : Inode} (goes : r.destination = .shardOf i) :
    (c.send Service.transport r).Obeys (c.contract sure r) none (Granted sure) := by
  apply (endpointsFor_obeys goes).bind
  intro found g hgood
  obtain ⟨rfl, hreach, hgroup⟩ := hgood
  rcases found with e | es
  · refine ⟨?_, rfl⟩
    intro hsure
    obtain ⟨e, rest, heq⟩ := hreach hsure
    cases heq
  · obtain rfl := hgroup es rfl
    refine (invoke_obeys i ?_).bind ?_
    · intro hsure hnil
      obtain ⟨e, rest, heq⟩ := hreach hsure
      rw [hnil] at heq
      cases heq
    · intro answer g hgranted
      cases answer with
      | error e => exact hgranted
      | ok a => exact hgranted

/-- What a client is asked of a shard it sends there. -/
theorem call_eq_send {τ κ : Type} {transport : Transport τ κ} {i : Inode}
    (goes : r.destination = .shardOf i) : c.call transport r = c.send transport r := by
  cases r with
  | getFsInfo fs => cases goes
  | listFsInfo => cases goes
  | _ => rfl

theorem call_obeys {i : Inode} (goes : r.destination = .shardOf i) :
    (c.call Service.transport r).Obeys (c.contract sure r) none (Granted sure) := by
  rw [call_eq_send goes]
  exact send_shard_obeys goes

end Client

end ShardSweep
