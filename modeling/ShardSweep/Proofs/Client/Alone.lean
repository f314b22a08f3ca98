import ShardSweep.Proofs.Client.Grants
import ShardSweep.Sweep.Basic

/-!
# A client with nobody else around

A request that only looks leaves the namespaces as they are, whatever comes of it.  If nothing
is in the way and the service would answer it, it is answered; what the service refuses is refused.

Coordinators are asked as a shard is.  Of the client whose shard table has them in front, all that
is known of shards holds for them as well.

* `Deployment.Quiet`: nothing is in the way between a client and its service;
* `Client.exists_look`: what a procedure that looks finds;
* `Sweep.ask_answered`, `Sweep.ask_refused`: a request that goes to a shard;
* `Sweep.ask_info`: the generation of a filesystem, remembered or fetched;
* `Sweep.prepare_ready`: a client gets ready.
-/

namespace ShardSweep

/-- A request that changes nothing where it is served. -/
def Request.Looks (r : Request) : Prop :=
  ∀ s : Service, (s.serve r).2 = s

namespace Client

/-- What a look leaves behind: the names as they were, and the answer of a service with these
names if there is one. -/
structure Look (c : Client) (sure : Prop) (r : Request) (st st' : ClientState Service Link)
    (g : Option r.Answer) : Prop where
  same : st.service.SameNames st'.service
  calm : sure → st'.Calm c
  granted : ∀ a, g = some a →
    ∃ s, st.service.SameNames s ∧ (sure → s.Calm c) ∧ (s.serve r).1 = .ok a

variable {c : Client} {sure : Prop} {r : Request} {β : Type}

/-- A procedure that looks comes to its result with nobody else around. -/
theorem exists_look {p : Proc (ClientState Service Link) β} {good : β → Option r.Answer → Prop}
    (obeys : p.Obeys (c.contract sure r) none good) (looks : r.Looks)
    (st : ClientState Service Link) (calm : sure → st.Calm c)
    (serves : sure → ∀ s, st.service.SameNames s → s.Calm c → ∃ a, (s.serve r).1 = .ok a) :
    ∃ g, good (p.run st).1 g ∧ c.Look sure r st (p.run st).2 g := by
  refine obeys.run (fun g st' => c.Look sure r st st' g) ?_ ?_ ⟨.refl _, calm, nofun⟩
  · intro g st' hlook hsure
    have hcalm := hlook.calm hsure
    exact ⟨hcalm, fun _ => serves hsure _ hlook.same hcalm.service⟩
  · intro g st' st'' g' hlook hstep
    obtain ⟨hmoves, hcalm⟩ := hstep
    rcases hmoves with ⟨hsame⟩ | ⟨hgranted, hafter⟩
    · exact ⟨hlook.same.trans hsame, hcalm, hlook.granted⟩
    · rw [looks] at hafter
      refine ⟨hlook.same.trans hafter, hcalm, ?_⟩
      intro b hb
      obtain rfl := Option.some.inj hb
      exact ⟨_, hlook.same, fun hsure => (hlook.calm hsure).service, hgranted⟩

/-- The client that has its coordinators as one more shard, in front of the others. -/
def withCoordinators (c : Client) : Client :=
  { c with shards := ⟨c.coordinators :: c.shards.groups⟩ }

end Client

namespace Deployment

/-- Nothing is in the way between a client and the service of its deployment, whether the client
was made ready or not. -/
structure Quiet (c : Client) (d : Deployment) : Prop where
  shards : d.service.Calm c
  coordinators : ∃ e rest, c.coordinators = e :: rest ∧ e ∉ d.service.unreachable
  idle : ∀ entry ∈ d.clientPool.idle, entry.2.broken = false

end Deployment

namespace Service.Calm

variable {c : Client} {s : Service}

theorem groups_ne_nil (calm : s.Calm c) : c.shards.groups ≠ [] := by
  intro hnil
  obtain ⟨e, rest, hgroup, -⟩ := calm.reach 0
  simp [ShardTable.groupOf, hnil] at hgroup

/-- Coordinators that can be reached are as good as a shard. -/
theorem withCoordinators (calm : s.Calm c)
    (coordinators : ∃ e rest, c.coordinators = e :: rest ∧ e ∉ s.unreachable) :
    s.Calm c.withCoordinators := by
  refine ⟨calm.transport, calm.dials, calm.status, calm.latency, calm.lists, calm.attrs, ?_⟩
  intro i
  have hlt : i % (c.shards.groups.length + 1) < c.shards.groups.length + 1 :=
    Nat.mod_lt _ (Nat.succ_pos _)
  cases hi : i % (c.shards.groups.length + 1) with
  | zero =>
    obtain ⟨e, rest, heq, hreached⟩ := coordinators
    exact ⟨e, rest, by simp [Client.withCoordinators, ShardTable.groupOf, ShardTable.size, hi, heq],
      hreached⟩
  | succ k =>
    obtain ⟨e, rest, hgroup, hreached⟩ := calm.reach k
    refine ⟨e, rest, ?_, hreached⟩
    rw [hi] at hlt
    have hk : k % c.shards.groups.length = k := Nat.mod_eq_of_lt (Nat.lt_of_succ_lt_succ hlt)
    simpa [Client.withCoordinators, ShardTable.groupOf, ShardTable.size, hi, hk] using hgroup

theorem of_withCoordinators (calm : s.Calm c.withCoordinators) (shards : c.shards.groups ≠ []) :
    s.Calm c ∧ ∃ e rest, c.coordinators = e :: rest ∧ e ∉ s.unreachable := by
  refine ⟨⟨calm.transport, calm.dials, calm.status, calm.latency, calm.lists, calm.attrs, ?_⟩, ?_⟩
  · intro i
    have hlt : i % c.shards.groups.length < c.shards.groups.length :=
      Nat.mod_lt _ (List.length_pos_iff.mpr shards)
    obtain ⟨e, rest, hgroup, hreached⟩ := calm.reach (i % c.shards.groups.length + 1)
    refine ⟨e, rest, ?_, hreached⟩
    have hi : (i % c.shards.groups.length + 1) % (c.shards.groups.length + 1) =
        i % c.shards.groups.length + 1 := Nat.mod_eq_of_lt (Nat.succ_lt_succ hlt)
    simpa [Client.withCoordinators, ShardTable.groupOf, ShardTable.size, hi] using hgroup
  · obtain ⟨e, rest, hgroup, hreached⟩ := calm.reach 0
    exact ⟨e, rest, by simpa [Client.withCoordinators, ShardTable.groupOf] using hgroup, hreached⟩

end Service.Calm

namespace Sweep

variable {c : Client} {r : Request} {d : Deployment} {i : Inode}

/-- A request is what the client does with its part of the deployment. -/
theorem ask_eq {outcome : Outcome r.Answer} {st : ClientState Service Link}
    (run : (c.call Service.transport r).run (Deployment.clientPart.get d) = (outcome, st)) :
    ask (Deployment.metadata c) r d = (some outcome, Deployment.clientPart.set st d) := by
  simp [ask, perform, Deployment.metadata, Metadata.on, Client.metadata, Proc.run_on, run]

/-- Where nothing is in the way, what the service would answer is answered. -/
theorem ask_answered (goes : r.destination = .shardOf i) (looks : r.Looks)
    (calm : (Deployment.clientPart.get d).Calm c) {a : r.Answer}
    (serves : ∀ s, d.service.SameNames s → s.Calm c → (s.serve r).1 = .ok a) :
    ∃ d', ask (Deployment.metadata c) r d = (some (.ok a), d') ∧
      d.service.SameNames d'.service ∧ (Deployment.clientPart.get d').Calm c := by
  have hobeys : (c.call Service.transport r).Obeys (c.contract True r) none (Granted True) :=
    Client.call_obeys goes
  obtain ⟨g, hgood, hlook⟩ := Client.exists_look hobeys looks (Deployment.clientPart.get d)
    (fun _ => calm) fun _ s hsame hcalm => ⟨a, serves s hsame hcalm⟩
  rcases hrun : (c.call Service.transport r).run (Deployment.clientPart.get d) with ⟨h | b, st⟩
  · rw [hrun] at hgood
    exact absurd trivial hgood.1
  · rw [hrun] at hgood hlook
    obtain ⟨s, hsame, hcalm, hserve⟩ := hlook.granted b hgood
    rw [serves s hsame (hcalm trivial)] at hserve
    obtain rfl := Except.ok.inj hserve
    exact ⟨_, ask_eq hrun, hlook.same, hlook.calm trivial⟩

/-- What the service refuses is refused. -/
theorem ask_refused (c : Client) (goes : r.destination = .shardOf i) (looks : r.Looks)
    (refuses : ∀ s, d.service.SameNames s → ∀ a, (s.serve r).1 ≠ .ok a) :
    ∃ h d', ask (Deployment.metadata c) r d = (some (.error h), d') ∧
      d.service.SameNames d'.service := by
  have hobeys : (c.call Service.transport r).Obeys (c.contract False r) none (Granted False) :=
    Client.call_obeys goes
  obtain ⟨g, hgood, hlook⟩ := Client.exists_look hobeys looks (Deployment.clientPart.get d)
    nofun nofun
  rcases hrun : (c.call Service.transport r).run (Deployment.clientPart.get d) with ⟨h | b, st⟩
  · rw [hrun] at hlook
    exact ⟨h, _, ask_eq hrun, hlook.same⟩
  · rw [hrun] at hgood
    obtain ⟨s, hsame, -, hserve⟩ := hlook.granted b hgood
    exact absurd hserve (refuses s hsame b)

/-- The coordinators tell what a filesystem is at. -/
private theorem invoke_coordinators {w : Wire Service Link}
    (calm : w.pooled.net.Calm c.withCoordinators)
    (idle : ∀ entry ∈ w.pooled.pool.idle, entry.2.broken = false) {fs : FsId} {f : Filesystem}
    (found : w.pooled.net.filesystem? fs = some f) :
    ∃ w', (Wire.invoke Service.transport c.rpc c.coordinators (.getFsInfo fs)).run w =
        (.ok (Service.infoOf fs f), w') ∧
      w.pooled.net.SameNames w'.pooled.net ∧ w'.pooled.net.Calm c.withCoordinators ∧
      ∀ entry ∈ w'.pooled.pool.idle, entry.2.broken = false := by
  have hserve : ∀ s, w.pooled.net.SameNames s →
      (s.serve (.getFsInfo fs)).1 = .ok (Service.infoOf fs f) := by
    intro s hsame
    simp [Service.serve, Service.known, hsame.filesystem?_eq, found, Except.map]
  have hgroup : c.withCoordinators.shards.groupOf 0 = c.coordinators := by
    simp [Client.withCoordinators, ShardTable.groupOf]
  have hobeys : ((Wire.invoke Service.transport c.rpc c.coordinators (.getFsInfo fs)).on
      ClientState.wirePart).Obeys (c.withCoordinators.contract True (.getFsInfo fs)) none
      (Granted True) := by
    rw [← hgroup]
    refine Client.invoke_obeys (c := c.withCoordinators) 0 fun _ hnil => ?_
    obtain ⟨e, rest, heq, -⟩ := calm.reach 0
    rw [hnil] at heq
    cases heq
  -- A request does not look whether the client is ready.
  let st : ClientState Service Link := ⟨w, some fs, .empty⟩
  obtain ⟨g, hgood, hlook⟩ := Client.exists_look hobeys (fun _ => rfl) st
    (fun _ => ⟨rfl, calm, idle⟩) fun _ s hsame _ => ⟨_, hserve s hsame⟩
  rw [Proc.run_on] at hgood hlook
  rcases hrun : (Wire.invoke Service.transport c.rpc c.coordinators (.getFsInfo fs)).run w with
    ⟨e | info, w'⟩
  · simp only [st, ClientState.wirePart, hrun] at hgood
    exact absurd trivial hgood.1
  · simp only [st, ClientState.wirePart, hrun] at hgood hlook
    obtain ⟨s, hsame, -, hinfo⟩ := hlook.granted info hgood
    rw [hserve s hsame] at hinfo
    obtain rfl := Except.ok.inj hinfo
    have hcalm := hlook.calm trivial
    exact ⟨w', rfl, hlook.same, hcalm.service, hcalm.idle⟩

/-- What is remembered of a filesystem, or told by the coordinators, is its generation. -/
theorem ask_info {fs : FsId} {f : Filesystem} (quiet : d.Quiet c)
    (found : d.service.filesystem? fs = some f)
    (cached : ∀ info, d.cache.get? fs = some info → info.epoch = f.epoch) :
    ∃ info d', ask (Deployment.metadata c) (.getFsInfo fs) d = (some (.ok info), d') ∧
      info.epoch = f.epoch ∧ d.service.SameNames d'.service ∧ d'.Quiet c := by
  cases hcache : d.cache.get? fs with
  | some info =>
    have hrun : (c.call Service.transport (.getFsInfo fs)).run (Deployment.clientPart.get d) =
        (.ok info, Deployment.clientPart.get d) := by
      simp [Client.call, Client.fsInfo, Deployment.clientPart, hcache]
    refine ⟨info, d, ?_, cached info hcache, .refl _, quiet⟩
    rw [ask_eq hrun, Deployment.clientPart.set_get]
  | none =>
    have hcalm := quiet.shards.withCoordinators quiet.coordinators
    let w := ClientState.wirePart.get (Deployment.clientPart.get d)
    obtain ⟨w', hinvoke, hsame, hcalm', hidle⟩ :=
      invoke_coordinators (w := w) hcalm quiet.idle found
    have hsend : (c.send Service.transport (.getFsInfo fs)).run (Deployment.clientPart.get d) =
        (.ok (Service.infoOf fs f), ⟨w', d.active, d.cache⟩) := by
      simp only [Client.send, Proc.run_bind, Proc.run_read, Client.endpointsFor,
        Request.destination, Proc.run_on, w, hinvoke]
      rfl
    have hrun : (c.call Service.transport (.getFsInfo fs)).run (Deployment.clientPart.get d) =
        (.ok (Service.infoOf fs f), ⟨w', d.active, d.cache.put (Service.infoOf fs f)⟩) := by
      simp only [Client.call, Client.fsInfo, Proc.run_bind, Proc.run_read, Deployment.clientPart,
        hcache]
      simp only [Deployment.clientPart] at hsend
      rw [hsend]
      rfl
    refine ⟨_, _, ask_eq hrun, rfl, hsame, ?_⟩
    obtain ⟨hshards, hcoordinators⟩ := hcalm'.of_withCoordinators quiet.shards.groups_ne_nil
    exact ⟨hshards, hcoordinators, hidle⟩

/-- A client in whose way nothing is gets ready for any filesystem that can have a number. -/
theorem prepare_ready {fs : FsId} (quiet : d.Quiet c) (numbered : fs ≠ 0) :
    ∃ d', prepare (Deployment.metadata c) fs d = (some (.ok ()), d') ∧
      d.service.SameNames d'.service ∧ (Deployment.clientPart.get d').Calm c := by
  have hready : c.shards.ready fs = .ok fs := by
    obtain ⟨e, rest, hgroup, -⟩ := quiet.shards.reach 0
    have hany : c.shards.hasEndpoint = true := by
      refine List.any_eq_true.mpr ⟨e :: rest, ?_, rfl⟩
      cases hfirst : c.shards.groups[0]? with
      | none => simp [ShardTable.groupOf, hfirst] at hgroup
      | some group =>
        simp only [ShardTable.groupOf, Nat.zero_mod, hfirst, Option.getD_some] at hgroup
        exact hgroup ▸ List.mem_of_getElem? hfirst
    rw [ShardTable.ready, if_neg numbered, if_pos hany]
  refine ⟨{ d with active := some fs }, ?_, .refl _, rfl, quiet.shards, quiet.idle⟩
  simp [prepare, perform, Deployment.metadata, Metadata.on, Client.metadata, Client.prepare,
    Proc.run_on, Deployment.clientPart, hready]

end Sweep

end ShardSweep
