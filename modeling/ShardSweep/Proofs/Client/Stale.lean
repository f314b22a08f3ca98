import Mathlib.Logic.Function.Iterate
import ShardSweep.Proofs.Client.Grants

/-!
# Requests of another generation

A request about a namespace is made for a generation, and a service at another one refuses it
before it looks at anything.  The refusal is worth a retry, so the client asks again until its
attempts are used up, unless the generation becomes current meanwhile.

* `Request.Pinned`: a request for a generation of a filesystem;
* `Service.Aged`: generations have begun, and nothing else has happened;
* `Service.current_of_serve`: nothing is granted at another generation;
* `Client.call_exhausts`: a request that nothing else is in the way of uses its attempts up.
-/

namespace ShardSweep

/-- A request about a filesystem at a generation. -/
def Request.Pinned (fs : FsId) (epoch : Epoch) : Request → Prop
  | .listEntries fs' _ epoch' => fs' = fs ∧ epoch' = epoch
  | .getAttr fs' _ _ epoch' => fs' = fs ∧ epoch' = epoch
  | .deleteFile fs' _ _ epoch' => fs' = fs ∧ epoch' = epoch
  | .deleteDir fs' _ _ epoch' => fs' = fs ∧ epoch' = epoch
  | .getEntry fs' _ _ epoch' => fs' = fs ∧ epoch' = epoch
  | .getFsInfo _ => False
  | .listFsInfo => False

/-- Such a request goes to a shard. -/
theorem Request.Pinned.exists_shard {fs : FsId} {epoch : Epoch} {r : Request}
    (h : r.Pinned fs epoch) : ∃ i, r.destination = .shardOf i := by
  cases r with
  | getFsInfo | listFsInfo => exact h.elim
  | _ => exact ⟨_, rfl⟩

namespace Service

variable {fs : FsId} {epoch : Epoch} {s s' s'' : Service}

/-- A new generation concerns the filesystems only. -/
theorem exists_bumpEpoch_eq (s : Service) (fs : FsId) :
    ∃ filesystems, s.bumpEpoch fs = { s with filesystems := filesystems } := by
  unfold bumpEpoch
  cases s.filesystem? fs with
  | none => exact ⟨_, rfl⟩
  | some f => exact ⟨_, rfl⟩

theorem SameNames.bumpEpoch (h : s.SameNames s') (fs : FsId) :
    (s.bumpEpoch fs).SameNames (s'.bumpEpoch fs) := by
  obtain ⟨hfilesystems, hdeleted⟩ := h
  unfold Service.bumpEpoch Service.filesystem?
  rw [hfilesystems]
  cases s.filesystems[fs]? with
  | none => exact ⟨hfilesystems, hdeleted⟩
  | some f => exact ⟨by simp [putFilesystem, hfilesystems], hdeleted⟩

/-- Some generations of a filesystem have begun, and nothing else has happened to the names. -/
def Aged (fs : FsId) (s s' : Service) : Prop :=
  ∃ generations : Nat, ((fun s : Service => s.bumpEpoch fs)^[generations] s).SameNames s'

namespace Aged

theorem same (h : s.SameNames s') : s.Aged fs s' :=
  ⟨0, h⟩

theorem bump (fs : FsId) (s : Service) : s.Aged fs (s.bumpEpoch fs) :=
  ⟨1, .refl _⟩

theorem trans (h : s.Aged fs s') (h' : s'.Aged fs s'') : s.Aged fs s'' := by
  obtain ⟨n, hn⟩ := h
  obtain ⟨m, hm⟩ := h'
  refine ⟨m + n, ?_⟩
  rw [Function.iterate_add_apply]
  refine .trans ?_ hm
  clear hm
  induction m with
  | zero => exact hn
  | succ m ih =>
    rw [Function.iterate_succ_apply', Function.iterate_succ_apply']
    exact ih.bumpEpoch fs

/-- The filesystem is as it was, at a later generation. -/
theorem filesystem? (h : s.Aged fs s') {f : Filesystem} (found : s.filesystem? fs = some f) :
    ∃ later : Nat, s'.filesystem? fs = some { f with epoch := ⟨f.epoch.number + later⟩ } := by
  obtain ⟨n, hn⟩ := h
  refine ⟨n, ?_⟩
  rw [hn.filesystem?_eq]
  clear hn
  induction n with
  | zero => exact found
  | succ n ih =>
    rw [Function.iterate_succ_apply', Service.bumpEpoch, ih]
    simp [filesystem?_putFilesystem, Epoch.next, Nat.add_assoc]

end Aged

/-- A filesystem is past a generation. -/
def Past (fs : FsId) (epoch : Epoch) (s : Service) : Prop :=
  ∃ f, s.filesystem? fs = some f ∧ epoch.before f.epoch = true

theorem Past.aged (h : s.Past fs epoch) (aged : s.Aged fs s') : s'.Past fs epoch := by
  obtain ⟨f, hfound, hbefore⟩ := h
  obtain ⟨later, hlater⟩ := aged.filesystem? hfound
  refine ⟨_, hlater, ?_⟩
  simp only [Epoch.before, decide_eq_true_eq] at hbefore ⊢
  omega

/-- A generation that is past is not current. -/
theorem Past.current_ne (h : s.Past fs epoch) (f : Filesystem) : s.current fs epoch ≠ .ok f := by
  obtain ⟨f', hfound, hbefore⟩ := h
  have hne : epoch ≠ f'.epoch := by
    rintro rfl
    simp [Epoch.before] at hbefore
  simp [current, known, hfound, hne]

/-- What is refused for its generation is refused with that status. -/
theorem current_of_ne {f : Filesystem} (found : s.filesystem? fs = some f)
    (stale : ∀ f', s.current fs epoch ≠ .ok f') :
    ∃ text, s.current fs epoch = .error ⟨.staleEpoch, text⟩ := by
  unfold current known at *
  rw [found] at *
  by_cases hepoch : epoch = f.epoch
  · exact absurd (if_pos hepoch) (stale f)
  · exact ⟨_, if_neg hepoch⟩

/-- A service asks for the generation before anything else. -/
theorem serve_of_current {r : Request} (pinned : r.Pinned fs epoch) {status : Status}
    (refused : s.current fs epoch = .error status) : s.serve r = (.error status, s) := by
  cases r with
  | getFsInfo | listFsInfo => exact pinned.elim
  | deleteFile | deleteDir =>
    obtain ⟨rfl, rfl⟩ := pinned
    simp [serve, remove, refused]
  | _ =>
    obtain ⟨rfl, rfl⟩ := pinned
    simp [serve, look, refused]

/-- Nothing is granted at another generation. -/
theorem current_of_serve {r : Request} (pinned : r.Pinned fs epoch) {a : r.Answer}
    (granted : (s.serve r).1 = .ok a) : ∃ f, s.current fs epoch = .ok f := by
  cases hcurrent : s.current fs epoch with
  | ok f => exact ⟨f, rfl⟩
  | error status =>
    rw [serve_of_current pinned hcurrent] at granted
    cases granted

end Service

/-- Nothing but the generation is in the way of the requests of a client about a directory. -/
structure Client.Clear (c : Client) (i : Inode) (endpoint : Endpoint)
    (st : ClientState Service Link) : Prop where
  active : st.active.isSome
  there : ∃ others, c.shards.groupOf i = endpoint :: others
  reached : endpoint ∉ st.service.unreachable
  inTime : st.service.latency.nanos ≤ c.rpc.timeout.nanos
  dials : st.service.faults.brokenDials = 0
  transport : st.service.faults.transportBurst = 0
  status : st.service.faults.statusBurst = 0
  idle : ∀ entry ∈ st.wire.pooled.pool.idle, entry.2.broken = false

namespace Client

variable {c : Client} {i : Inode} {endpoint : Endpoint} {fs : FsId} {epoch : Epoch} {r : Request}

/-- The way stays clear as long as the service stays as it is and idle connections are whole. -/
theorem Clear.congr {st : ClientState Service Link} {w : Wire Service Link}
    (h : c.Clear i endpoint st) (unreachable : w.pooled.net.unreachable = st.service.unreachable)
    (latency : w.pooled.net.latency = st.service.latency)
    (faults : w.pooled.net.faults = st.service.faults)
    (idle : ∀ entry ∈ w.pooled.pool.idle, entry.2.broken = false) :
    c.Clear i endpoint { st with wire := w } where
  active := h.active
  there := h.there
  reached hmem := h.reached (unreachable ▸ hmem)
  inTime := latency ▸ h.inTime
  dials := (congrArg Faults.brokenDials faults).trans h.dials
  transport := (congrArg Faults.transportBurst faults).trans h.transport
  status := (congrArg Faults.statusBurst faults).trans h.status
  idle := idle

/-- A request about a filesystem at another generation.  The number says how often it was
delivered. -/
def staleContract (c : Client) (i : Inode) (endpoint : Endpoint) (fs : FsId) (epoch : Epoch)
    (kind : RequestKind) : Contract (ClientState Service Link) Nat where
  assume _ st := c.Clear i endpoint st ∧
    ∃ text, st.service.current fs epoch = .error ⟨.staleEpoch, text⟩
  step g st st' g' := c.Clear i endpoint st' ∧
    (g' = g ∧ st'.service.counts = st.service.counts ∨
      g' = g + 1 ∧ st'.service.counts = st.service.counts.bump kind)

/-- What a request fails with that is refused for its generation until the last attempt. -/
def staleError (c : Client) (kind : RequestKind) (endpoint : Endpoint) (text : String) : RpcError :=
  .exhausted kind endpoint c.rpc.maxAttempts (.status ⟨.staleEpoch, text⟩)

/-- What is known at each stage of such a request. -/
private def Refusing (c : Client) (endpoint : Endpoint) : Stage r → Nat → Prop
  | .between n, g | .seeking n, g | .dialing n, g => g + 1 = n
  | .dialed n lent, g => g + 1 = n ∧ ∃ link, lent = .ok link ∧ link.broken = false
  | .holding n link, g | .listing n link, g => g + 1 = n ∧ link.broken = false
  | .listed n link delivery, g | .carried n link delivery, g =>
    g = n ∧ link.broken = false ∧ ∃ text, delivery = .ok (.error ⟨.staleEpoch, text⟩)
  | .tried n outcome, g => g = n ∧ ∃ text, outcome = .error (.status ⟨.staleEpoch, text⟩)
  | .over e, g => g = c.rpc.maxAttempts ∧ ∃ text, e = c.staleError r.kind endpoint text

/-- One delivery of such a request. -/
private theorem receive_refuses {s : Service} {link : Link} (whole : link.broken = false)
    (transport : s.faults.transportBurst = 0) (status : s.faults.statusBurst = 0)
    (inTime : s.latency.nanos ≤ c.rpc.timeout.nanos) (pinned : r.Pinned fs epoch)
    {text : String} (stale : s.current fs epoch = .error ⟨.staleEpoch, text⟩) :
    s.receive link c.rpc.timeout r = (.ok (.error ⟨.staleEpoch, text⟩), s.count r.kind) := by
  have hserve : (s.count r.kind).serve r = (.error ⟨.staleEpoch, text⟩, s.count r.kind) :=
    Service.serve_of_current pinned stale
  have htransport : (s.count r.kind).faults.transportBurst = 0 := transport
  have hstatus : (s.count r.kind).faults.statusBurst = 0 := status
  have hinTime : ¬ c.rpc.timeout.nanos < (s.count r.kind).latency.nanos := Nat.not_lt.mpr inTime
  unfold Service.receive Service.deliver Service.onTheWay Service.arrangedRefusal
  simp [whole, htransport, hstatus, hinTime, hserve]

/-- A dial of an endpoint that can be reached. -/
private theorem open_of_clear {s : Service} (reached : endpoint ∉ s.unreachable)
    (dials : s.faults.brokenDials = 0) :
    s.open? endpoint = (.ok ⟨endpoint, false⟩, { s with dials := endpoint :: s.dials }) := by
  have hfaults : { s.faults with brokenDials := 0 } = s.faults := by rw [← dials]
  unfold Service.open?
  rw [if_neg (by simpa using reached)]
  simp [Service.breakConnections, dials, hfaults]

/-- Every step of such a request leaves the way clear. -/
private theorem goes_refuses (pinned : r.Pinned fs epoch) {st : ClientState Service Link}
    {w : Wire Service Link} {stage stage' : Stage r} {g : Nat}
    (refusing : Refusing c endpoint stage g)
    (assume : (c.staleContract i endpoint fs epoch r.kind).assume g st)
    (goes : stage.Goes c.rpc.timeout endpoint c.rpc.maxAttempts r st.wire w stage') :
    ∃ g', (c.staleContract i endpoint fs epoch r.kind).step g st { st with wire := w } g' ∧
      Refusing c endpoint stage' g' := by
  obtain ⟨w₀, active, cache⟩ := st
  obtain ⟨hclear, text, hstale⟩ := assume
  have hidle := hclear.idle
  have hreceive : ∀ link : Link, link.broken = false →
      w₀.pooled.net.receive link c.rpc.timeout r =
        (.ok (.error ⟨.staleEpoch, text⟩), w₀.pooled.net.count r.kind) := fun link whole =>
    receive_refuses whole hclear.transport hclear.status hclear.inTime pinned hstale
  cases goes with
  | attempt | miss => exact ⟨g, ⟨hclear.congr rfl rfl rfl hidle, .inl ⟨rfl, rfl⟩⟩, refusing⟩
  | lend found =>
    obtain ⟨hlink, hothers⟩ := Pool.of_lend found
    exact ⟨g, ⟨hclear.congr rfl rfl rfl fun entry hentry => hidle entry (hothers entry hentry),
      .inl ⟨rfl, rfl⟩⟩, refusing, hidle _ hlink⟩
  | dial =>
    have hopen : w₀.pooled.net.open? endpoint = _ := open_of_clear hclear.reached hclear.dials
    rw [hopen]
    exact ⟨g, ⟨hclear.congr rfl rfl rfl hidle, .inl ⟨rfl, rfl⟩⟩, refusing, _, rfl, rfl⟩
  | «open» =>
    obtain ⟨hnumber, link, heq, hwhole⟩ := refusing
    cases heq
    exact ⟨g, ⟨hclear.congr rfl rfl rfl hidle, .inl ⟨rfl, rfl⟩⟩, hnumber, hwhole⟩
  | fail =>
    obtain ⟨-, link, heq, -⟩ := refusing
    cases heq
  | enter | leave => exact ⟨g, ⟨hclear.congr rfl rfl rfl hidle, .inl ⟨rfl, rfl⟩⟩, refusing⟩
  | @list n link | @send n link =>
    obtain ⟨hnumber, hwhole⟩ := refusing
    rw [hreceive link hwhole]
    exact ⟨g + 1, ⟨hclear.congr rfl rfl rfl hidle, .inr ⟨rfl, rfl⟩⟩, hnumber, hwhole, text, rfl⟩
  | putBack =>
    obtain ⟨hnumber, hwhole, text', hdelivery⟩ := refusing
    refine ⟨g, ⟨hclear.congr rfl rfl rfl fun entry hentry => ?_, .inl ⟨rfl, rfl⟩⟩, hnumber, text',
      ?_⟩
    · rcases List.mem_cons.mp hentry with rfl | hentry
      · exact hwhole
      · exact hidle entry hentry
    · rw [hdelivery]
      rfl
  | discard =>
    obtain ⟨-, -, text', hdelivery⟩ := refusing
    cases hdelivery
  | again =>
    obtain ⟨hnumber, -⟩ := refusing
    exact ⟨g, ⟨hclear.congr rfl rfl rfl hidle, .inl ⟨rfl, rfl⟩⟩, by rw [Refusing, hnumber]⟩
  | exhaust =>
    obtain ⟨hnumber, text', heq⟩ := refusing
    cases heq
    exact ⟨g, ⟨hclear.congr rfl rfl rfl hidle, .inl ⟨rfl, rfl⟩⟩, hnumber, text', rfl⟩
  | reject final =>
    obtain ⟨-, text', heq⟩ := refusing
    cases heq
    cases final

/-- A request for a generation that does not become current is refused as often as the client may
ask. -/
theorem call_exhausts (pinned : r.Pinned fs epoch) (goes : r.destination = .shardOf i) :
    (c.call Service.transport r).Obeys (c.staleContract i endpoint fs epoch r.kind) 0
      fun outcome g => g = c.rpc.maxAttempts ∧
        ∃ text, outcome = .error (.failed (.rpc (c.staleError r.kind endpoint text))) := by
  rw [call_eq_send goes]
  have hfound : (Proc.read (c.endpointsFor r)).Obeys (c.staleContract i endpoint fs epoch r.kind) 0
      fun found g => g = 0 ∧ ∃ others, found = .ok (endpoint :: others) := by
    apply Proc.Obeys.read
    rintro st ⟨hclear, -⟩
    obtain ⟨others, hgroup⟩ := hclear.there
    obtain ⟨active, hactive⟩ := Option.isSome_iff_exists.mp hclear.active
    exact ⟨⟨hclear, .inl ⟨rfl, rfl⟩⟩, rfl, others,
      by simp [endpointsFor, goes, ShardTable.resolve, hactive, hgroup]⟩
  refine hfound.bind ?_
  rintro _ _ ⟨rfl, others, rfl⟩
  have hinvoked : ((Wire.invoke Service.transport c.rpc (endpoint :: others) r).on
      ClientState.wirePart).Obeys (c.staleContract i endpoint fs epoch r.kind) 0
      fun outcome g => g = c.rpc.maxAttempts ∧
        ∃ text, outcome = .error (c.staleError r.kind endpoint text) := by
    rw [Wire.invoke, Proc.on_bind]
    refine fun st hst => ⟨0, ⟨?_, .inl ⟨rfl, rfl⟩⟩, ?_⟩
    · exact hst.1.congr rfl rfl rfl hst.1.idle
    · refine ((Wire.attempts_obeys_settings c.rpc endpoint r).on ClientState.wirePart).refine
        (Refusing c endpoint) rfl ?_ ?_ ?_
      · exact fun _ _ _ _ _ => trivial
      · rintro stage g st st' stage' hrefusing hassume ⟨hgoes, hst'⟩
        rw [hst']
        exact goes_refuses pinned hrefusing hassume hgoes
      · rintro outcome stage g hrefusing hends
        cases hends with
        | answered =>
          obtain ⟨-, text, heq⟩ := hrefusing
          cases heq
        | gaveUp =>
          obtain ⟨hg, text, rfl⟩ := hrefusing
          exact ⟨hg, text, rfl⟩
  refine hinvoked.bind ?_
  rintro _ g ⟨hg, text, rfl⟩
  exact ⟨hg, text, rfl⟩

end Client

end ShardSweep
