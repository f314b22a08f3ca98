import ShardSweep.Proofs.Client.Once
import ShardSweep.Proofs.Client.Traffic
import ShardSweep.Proofs.Sweep.Delete

/-!
# Faults that go away

A connection that is broken from the start, a request that is lost on the way and a refusal that
was arranged each cost one attempt and are gone then.  As long as they are fewer than the attempts
that a request may make, nobody can tell from its outcome that they were there.

The invariant counts them against the attempts that are left, until an attempt arrives.  From then
on there is a connection that works, so the answer of the service is the last word, also if it is
one that is worth a retry.

* `Service.Passable`: nothing else is in the way;
* `Service.Passable.receive`: an attempt arrives, or there is one fault less;
* `Wire.invoke_despite`: the outcome of a request is decided by what the service holds;
* `Client.call_despite`: the same request with and without these faults.
-/

namespace ShardSweep

namespace Service

/-- How many attempts the faults can cost that go away. -/
def pending (s : Service) : Nat :=
  s.faults.brokenDials + s.faults.transportBurst + s.faults.statusBurst

/-- The service without them. -/
def settled (s : Service) : Service :=
  { s with faults := { s.faults with brokenDials := 0, transportBurst := 0, statusBurst := 0 } }

/-- Nothing is between a client and a service but faults that go away, and the service holds what
`s₀` holds. -/
structure Passable (endpoint : Endpoint) (timeout : Duration) (s₀ s : Service) : Prop
    extends s₀.Alike s where
  reached : endpoint ∉ s.unreachable
  inTime : s.latency.nanos ≤ timeout.nanos
  retryable : 0 < s.faults.statusBurst → s.faults.statusCode.isRetryable = true

/-- What a service is after a request has reached it. -/
structure Served (s₀ : Service) (r : Request) (s : Service) : Prop where
  names : (s₀.serve r).2.SameNames s
  transport : s.faults.transportBurst = 0
  status : s.faults.statusBurst = 0

/-- What a service answers does not concern the faults that go away, and serving does not touch
them. -/
theorem faults_serve (s : Service) (r : Request) : (s.serve r).2.faults = s.faults := by
  have hremove : ∀ fs epoch name edit, (s.remove fs epoch name edit).2.faults = s.faults := by
    intro fs epoch name edit
    unfold remove
    cases s.current fs epoch with
    | error status => rfl
    | ok f => cases hedit : edit f.tree <;> simp [hedit, putFilesystem]
  cases r with
  | deleteFile fs parent name epoch => exact hremove fs epoch name _
  | deleteDir fs parent name epoch => exact hremove fs epoch name _
  | _ => rfl

namespace Passable

variable {endpoint : Endpoint} {timeout : Duration} {s₀ s s' : Service}

/-- What can change meanwhile. -/
theorem congr (h : Passable endpoint timeout s₀ s) (alike : s.Alike s')
    (unreachable : s'.unreachable = s.unreachable) (latency : s'.latency = s.latency)
    (status : s'.faults.statusBurst ≤ s.faults.statusBurst)
    (code : s'.faults.statusCode = s.faults.statusCode) : Passable endpoint timeout s₀ s' where
  toSameNames := h.toSameNames.trans alike.toSameNames
  lists := alike.lists.trans h.lists
  attrs := alike.attrs.trans h.attrs
  reached := unreachable ▸ h.reached
  inTime := latency ▸ h.inTime
  retryable hpos := code ▸ h.retryable (Nat.lt_of_lt_of_le hpos status)

/-- An attempt over a connection that works arrives, or there is one fault less. -/
theorem receive (h : Passable endpoint timeout s₀ s) {link : Link} (works : link.broken = false)
    (r : Request) :
    (∃ e, Wire.settle (s.receive link timeout r).1 = .error e ∧ e.isRetryable = true ∧
      0 < s.faults.transportBurst + s.faults.statusBurst ∧
      Passable endpoint timeout s₀ (s.receive link timeout r).2 ∧
      (s.receive link timeout r).2.pending + 1 = s.pending) ∨
    ((s.receive link timeout r).1 = .ok (s₀.serve r).1 ∧
      Served s₀ r (s.receive link timeout r).2 ∧
      ∀ status, (s₀.serve r).1 = .error status →
        Passable endpoint timeout s₀ (s.receive link timeout r).2) := by
  have hreceive : s.receive link timeout r = s.deliver link.endpoint timeout r := by
    simp [Service.receive, works]
  rw [hreceive]
  unfold deliver onTheWay arrangedRefusal
  by_cases htransport : 0 < (s.count r.kind).faults.transportBurst
  · simp only [htransport, if_true]
    refine .inl ⟨_, rfl, rfl, Nat.add_pos_left htransport _, ?_, ?_⟩
    · exact h.congr ⟨⟨rfl, rfl⟩, rfl, rfl⟩ rfl rfl (Nat.le_refl _) rfl
    · simp only [pending, failTransport, count] at htransport ⊢
      omega
  have hlate : ¬ timeout.nanos < (s.count r.kind).latency.nanos := Nat.not_lt.mpr h.inTime
  by_cases hstatus : 0 < (s.count r.kind).faults.statusBurst
  · simp only [htransport, hlate, hstatus, if_true, if_false]
    refine .inl ⟨_, rfl, h.retryable hstatus, Nat.add_pos_right _ hstatus, ?_, ?_⟩
    · exact h.congr ⟨⟨rfl, rfl⟩, rfl, rfl⟩ rfl rfl (Nat.sub_le _ _) rfl
    · simp only [pending, failCalls, count] at hstatus ⊢
      omega
  · simp only [htransport, hlate, hstatus, if_false]
    have halike : s₀.Alike (s.count r.kind) := ⟨⟨h.filesystems, h.deleted⟩, h.lists, h.attrs⟩
    obtain ⟨hanswer, hnames⟩ := halike.serve r
    refine .inr ⟨by rw [hanswer], ⟨hnames, ?_, ?_⟩, ?_⟩
    · rw [faults_serve]
      exact Nat.eq_zero_of_not_pos htransport
    · rw [faults_serve]
      exact Nat.eq_zero_of_not_pos hstatus
    · intro status hrefused
      have hsame : ((s.count r.kind).serve r).2 = s.count r.kind :=
        serve_error (Prod.ext (hanswer.trans hrefused) rfl)
      rw [hsame]
      exact h.congr ⟨⟨rfl, rfl⟩, rfl, rfl⟩ rfl rfl (Nat.le_refl _) rfl

/-- An endpoint that can be reached is dialed, and the connection is broken only if that was
arranged. -/
theorem dial (h : Passable endpoint timeout s₀ s) :
    ∃ link, (s.open? endpoint).1 = .ok link ∧
      Passable endpoint timeout s₀ (s.open? endpoint).2 ∧
      (s.open? endpoint).2.pending + (if link.broken then 1 else 0) = s.pending := by
  unfold open?
  rw [if_neg (by simpa using h.reached)]
  refine ⟨_, rfl, h.congr ⟨⟨rfl, rfl⟩, rfl, rfl⟩ rfl rfl (Nat.le_refl _) rfl, ?_⟩
  simp only [pending, breakConnections]
  split
  · simp_all
    omega
  · simp_all

end Passable

end Service

namespace Wire

/-- What a request comes to that has reached the service: the answer, or a refusal that no retry
has helped against. -/
def verdict (settings : RpcSettings) (endpoint : Endpoint) (r : Request) :
    Except Status r.Answer → Except RpcError r.Answer
  | .ok a => .ok a
  | .error status =>
    if status.isRetryable then
      .error (.exhausted r.kind endpoint settings.maxAttempts (.status status))
    else .error (.rejected r.kind endpoint status)

section

variable {settings : RpcSettings} {endpoint : Endpoint} {s₀ : Service} {r : Request}
  {w w' : Wire Service Link} {stage stage' : Stage r}

/-- An attempt was lost to a fault that is gone, and there are attempts left for the others. -/
private structure Lost (settings : RpcSettings) (endpoint : Endpoint) (s₀ : Service)
    (e : AttemptError) (n : Nat) (w : Wire Service Link) : Prop where
  retry : e.isRetryable = true
  passable : Service.Passable endpoint settings.timeout s₀ w.pooled.net
  whole : w.Whole
  left : w.pooled.net.pending + n < settings.maxAttempts

/-- An attempt has reached the service. -/
private structure Arrived (settings : RpcSettings) (endpoint : Endpoint) (s₀ : Service)
    (r : Request) (n : Nat) (w : Wire Service Link) : Prop where
  served : Service.Served s₀ r w.pooled.net
  refused : ∀ status, (s₀.serve r).1 = .error status →
    Service.Passable endpoint settings.timeout s₀ w.pooled.net
  whole : w.Whole
  le : n ≤ settings.maxAttempts

/-- What is known at each stage of a request that may make more attempts than there are faults. -/
private def Weathers (settings : RpcSettings) (endpoint : Endpoint) (s₀ : Service) :
    Stage r → Wire Service Link → Prop
  | .between n, w | .seeking n, w =>
    Service.Passable endpoint settings.timeout s₀ w.pooled.net ∧ w.Whole ∧
      n ≤ settings.maxAttempts ∧
      (w.pooled.net.pending + n ≤ settings.maxAttempts ∨
        (w.pooled.net.faults.transportBurst + w.pooled.net.faults.statusBurst = 0 ∧
          ∃ link, (endpoint, link) ∈ w.pooled.pool.idle))
  | .dialing n, w =>
    Service.Passable endpoint settings.timeout s₀ w.pooled.net ∧ w.Whole ∧
      w.pooled.net.pending + n ≤ settings.maxAttempts
  | .dialed n lent, w =>
    Service.Passable endpoint settings.timeout s₀ w.pooled.net ∧ w.Whole ∧
      ∃ link, lent = .ok link ∧
        w.pooled.net.pending + (if link.broken then 1 else 0) + n ≤ settings.maxAttempts
  | .holding n link, w | .listing n link, w =>
    Service.Passable endpoint settings.timeout s₀ w.pooled.net ∧ w.Whole ∧
      n ≤ settings.maxAttempts ∧
      (w.pooled.net.pending + (if link.broken then 1 else 0) + n ≤ settings.maxAttempts ∨
        (link.broken = false ∧
          w.pooled.net.faults.transportBurst + w.pooled.net.faults.statusBurst = 0))
  | .listed n link delivery, w | .carried n link delivery, w =>
    (∀ reply, delivery = .ok reply → link.broken = false) ∧
      ((∃ e, settle delivery = .error e ∧ Lost settings endpoint s₀ e n w) ∨
        (delivery = .ok (s₀.serve r).1 ∧ Arrived settings endpoint s₀ r n w))
  | .tried n outcome, w =>
    (∃ e, outcome = .error e ∧ Lost settings endpoint s₀ e n w) ∨
      (outcome = settle (.ok (s₀.serve r).1) ∧ Arrived settings endpoint s₀ r n w ∧
        ∃ link, (endpoint, link) ∈ w.pooled.pool.idle)
  | .over e, w =>
    .error e = verdict settings endpoint r (s₀.serve r).1 ∧ Service.Served s₀ r w.pooled.net

private theorem weathers_receive {link : Link} {n : Nat}
    (h : Weathers settings endpoint s₀ (.listing n link : Stage r) w) :
    Weathers settings endpoint s₀
      (.listed n link (w.pooled.net.receive link settings.timeout r).1 : Stage r)
      (w.reaching (w.pooled.net.receive link settings.timeout r).2) := by
  obtain ⟨hpassable, hwhole, hle, hleft⟩ := h
  cases hbroken : link.broken with
  | true =>
    have hreceive : w.pooled.net.receive link settings.timeout r =
        (.error (.disconnected link.endpoint "connection reset by peer"),
          w.pooled.net.count r.kind) := by
      simp [Service.receive, hbroken]
    rw [hreceive]
    refine ⟨fun _ hreply => (by cases hreply), .inl ⟨_, rfl, rfl, ?_, hwhole, ?_⟩⟩
    · exact hpassable.congr ⟨⟨rfl, rfl⟩, rfl, rfl⟩ rfl rfl (Nat.le_refl _) rfl
    · simp only [hbroken, if_true, Bool.true_eq_false, false_and, or_false] at hleft
      change w.pooled.net.pending + n < settings.maxAttempts
      omega
  | false =>
    simp only [hbroken, Bool.false_eq_true, if_false, true_and, Nat.add_zero] at hleft
    refine ⟨fun _ _ => hbroken, ?_⟩
    rcases hpassable.receive hbroken r with ⟨e, hlost, hretry, hfault, hpassable', hpending⟩ |
      ⟨hanswer, hserved, hrefused⟩
    · refine .inl ⟨e, hlost, hretry, hpassable', hwhole, ?_⟩
      change (w.pooled.net.receive link settings.timeout r).2.pending + n < settings.maxAttempts
      omega
    · exact .inr ⟨hanswer, hserved, hrefused, hwhole, hle⟩

private theorem goes_weathers (weathers : Weathers settings endpoint s₀ stage w)
    (goes : stage.Goes settings.timeout endpoint settings.maxAttempts r w w' stage') :
    Weathers settings endpoint s₀ stage' w' := by
  cases goes with
  | attempt => exact weathers
  | @lend _ _ link found =>
    obtain ⟨hpassable, hwhole, hle, hleft⟩ := weathers
    obtain ⟨hlink, hothers⟩ := Pool.of_lend found
    have hworks : link.broken = false := hwhole _ hlink
    refine ⟨hpassable, fun entry hentry => hwhole entry (hothers entry hentry), hle, ?_⟩
    simp only [hworks, Bool.false_eq_true, if_false, true_and, Nat.add_zero]
    exact hleft.imp_right And.left
  | miss missing =>
    obtain ⟨hpassable, hwhole, hle, hleft⟩ := weathers
    refine ⟨hpassable, hwhole, hleft.resolve_right ?_⟩
    rintro ⟨-, link, hlink⟩
    exact Pool.not_mem_of_lend missing hlink
  | dial =>
    obtain ⟨hpassable, hwhole, hleft⟩ := weathers
    obtain ⟨link, hlink, hpassable', hpending⟩ := hpassable.dial
    exact ⟨hpassable', hwhole, link, hlink, by rw [← hpending] at hleft; exact hleft⟩
  | «open» =>
    obtain ⟨hpassable, hwhole, link, hlink, hleft⟩ := weathers
    cases hlink
    exact ⟨hpassable, hwhole, by omega, .inl hleft⟩
  | fail =>
    obtain ⟨-, -, link, hlink, -⟩ := weathers
    cases hlink
  | enter =>
    obtain ⟨hpassable, hwhole, hleft⟩ := weathers
    exact ⟨hpassable.congr ⟨⟨rfl, rfl⟩, rfl, rfl⟩ rfl rfl (Nat.le_refl _) rfl, hwhole, hleft⟩
  | list | send => exact weathers_receive weathers
  | leave =>
    refine ⟨weathers.1, weathers.2.imp ?_ ?_⟩
    · rintro ⟨e, he, hlost⟩
      exact ⟨e, he, hlost.retry, hlost.passable.congr ⟨⟨rfl, rfl⟩, rfl, rfl⟩ rfl rfl (Nat.le_refl _)
        rfl, hlost.whole, hlost.left⟩
    · rintro ⟨hanswer, harrived⟩
      exact ⟨hanswer, ⟨harrived.served.names.trans ⟨rfl, rfl⟩, harrived.served.transport,
        harrived.served.status⟩, fun status hrefused => (harrived.refused status hrefused).congr
          ⟨⟨rfl, rfl⟩, rfl, rfl⟩ rfl rfl (Nat.le_refl _) rfl, harrived.whole, harrived.le⟩
  | @putBack n link reply =>
    obtain ⟨hworks, hafter⟩ := weathers
    have hput : w.Whole → (w.pooling (.put endpoint link)).Whole := by
      intro hwhole entry hentry
      rcases List.mem_cons.mp hentry with rfl | hentry
      · exact hworks reply rfl
      · exact hwhole entry hentry
    refine hafter.imp ?_ ?_
    · rintro ⟨e, he, hlost⟩
      exact ⟨e, he, hlost.retry, hlost.passable, hput hlost.whole, hlost.left⟩
    · rintro ⟨hanswer, harrived⟩
      exact ⟨by rw [hanswer], ⟨harrived.served, harrived.refused, hput harrived.whole, harrived.le⟩,
        link, List.mem_cons_self⟩
  | discard =>
    rcases weathers.2 with ⟨e, he, hlost⟩ | ⟨hanswer, -⟩
    · exact .inl ⟨e, he, hlost.retry, hlost.passable, hlost.whole, hlost.left⟩
    · cases hanswer
  | again retry left =>
    rcases weathers with ⟨e, -, hlost⟩ | ⟨hanswer, harrived, hidle⟩
    · exact ⟨hlost.passable, hlost.whole, left, .inl hlost.left⟩
    · have htransport := harrived.served.transport
      have hstatus := harrived.served.status
      rcases hreply : (s₀.serve r).1 with status | a
      · refine ⟨harrived.refused status hreply, harrived.whole, left, .inr ⟨?_, hidle⟩⟩
        simp only [tallied, htransport, hstatus]
      · rw [hreply] at hanswer
        cases hanswer
  | exhaust retry =>
    rcases weathers with ⟨e, -, hlost⟩ | ⟨hanswer, harrived, -⟩
    · exact absurd hlost.left (by omega)
    · refine ⟨?_, harrived.served⟩
      rcases hreply : (s₀.serve r).1 with status | a
      · rw [hreply] at hanswer
        obtain rfl := Except.error.inj hanswer
        have hretry : status.isRetryable = true := retry
        simp only [verdict, hretry, if_true]
      · rw [hreply] at hanswer
        cases hanswer
  | reject final =>
    rcases weathers with ⟨e, he, hlost⟩ | ⟨hanswer, harrived, -⟩
    · obtain rfl := Except.error.inj he
      exact absurd hlost.retry (by simp [AttemptError.isRetryable, final])
    · refine ⟨?_, harrived.served⟩
      rcases hreply : (s₀.serve r).1 with status | a
      · rw [hreply] at hanswer
        obtain rfl := AttemptError.status.inj (Except.error.inj hanswer)
        simp only [verdict, final, Bool.false_eq_true, if_false]
      · rw [hreply] at hanswer
        cases hanswer

end

/-- The outcome of a request is decided by what the service holds, if it may make more attempts
than there are faults. -/
theorem invoke_despite {settings : RpcSettings} {endpoint : Endpoint} {w : Wire Service Link}
    (rest : List Endpoint) (r : Request) (whole : w.Whole)
    (passable : Service.Passable endpoint settings.timeout w.pooled.net w.pooled.net)
    (few : w.pooled.net.pending < settings.maxAttempts) :
    ((invoke Service.transport settings (endpoint :: rest) r).run w).1 =
        verdict settings endpoint r (w.pooled.net.serve r).1 ∧
      w.pooled.net.Served r
        ((invoke Service.transport settings (endpoint :: rest) r).run w).2.pooled.net := by
  obtain ⟨stage, hends, hafter⟩ :=
    (attempts_obeys_settings settings endpoint r).run
      (Weathers settings endpoint w.pooled.net) (fun _ _ _ => trivial)
      (fun _ _ _ _ => goes_weathers) (s := w.tallied .countCall)
      ⟨passable, whole, settings.maxAttempts_pos, .inl few⟩
  change Stage.Ends ((invoke Service.transport settings (endpoint :: rest) r).run w).1 stage at hends
  change Weathers settings endpoint w.pooled.net stage
    ((invoke Service.transport settings (endpoint :: rest) r).run w).2 at hafter
  generalize (invoke Service.transport settings (endpoint :: rest) r).run w = result at *
  obtain ⟨outcome, w'⟩ := result
  cases hends with
  | answered =>
    rcases hafter with ⟨e, he, -⟩ | ⟨hanswer, harrived, -⟩
    · cases he
    · refine ⟨?_, harrived.served⟩
      rcases hreply : (w.pooled.net.serve r).1 with status | a
      · rw [hreply] at hanswer
        cases hanswer
      · rw [hreply] at hanswer
        obtain rfl := Except.ok.inj hanswer
        rfl
  | gaveUp => exact hafter

end Wire

namespace ClientState

/-- The client in front of its service without the faults that go away. -/
def settled (st : ClientState Service Link) : ClientState Service Link :=
  st.facing st.service.settled

/-- A procedure of the client comes to the same with and without the faults that go away, and uses
up those of the way to the service if it gets there. -/
structure Despite {α : Type} (st : ClientState Service Link)
    (p : Proc (ClientState Service Link) α) : Prop where
  outcome : (p.run st).1 = (p.run st.settled).1
  names : (p.run st.settled).2.service.SameNames (p.run st).2.service
  spent : (p.run st).2.service = st.service ∨
    ((p.run st).2.service.faults.transportBurst = 0 ∧ (p.run st).2.service.faults.statusBurst = 0)

/-- What comes to the same as something else, as long as as much is remembered. -/
theorem Despite.congr {α : Type} {st : ClientState Service Link}
    {p q : Proc (ClientState Service Link) α} (h : st.Despite p)
    (same : ∀ st', st'.cache = st.cache →
      (q.run st').1 = (p.run st').1 ∧ (q.run st').2.service = (p.run st').2.service) :
    st.Despite q := by
  obtain ⟨houtcome, hservice⟩ := same st rfl
  obtain ⟨houtcome', hservice'⟩ := same st.settled rfl
  exact ⟨by rw [houtcome, houtcome', h.outcome], by rw [hservice, hservice']; exact h.names,
    by rw [hservice]; exact h.spent⟩

end ClientState

theorem Service.alike_settled (s : Service) : s.Alike s.settled :=
  ⟨⟨rfl, rfl⟩, rfl, rfl⟩

theorem Service.SameNames.symm {s s' : Service} (same : s.SameNames s') : s'.SameNames s :=
  ⟨same.filesystems.symm, same.deleted.symm⟩

/-- One fault of each kind is pending. -/
def Service.faulty : Service :=
  ((Service.sample.breakConnections 1).failTransport 1).failCalls 1 .staleEpoch

/-- A client that is ready and has made no request yet. -/
def ClientState.faulty : ClientState Service Link :=
  ⟨.fresh .faulty, some 1, .empty⟩

namespace Client

variable {c : Client} {st : ClientState Service Link}

/-- What is asked of the service for a request: nothing, or of one endpoint. -/
private theorem run_send (c : Client) (r : Request) (st : ClientState Service Link) :
    (∃ e, c.endpointsFor r st = .error e ∧
      (c.send Service.transport r).run st = (.error (.failed (.routing e)), st)) ∨
    ∃ endpoints, c.endpointsFor r st = .ok endpoints ∧
      (c.send Service.transport r).run st =
        ((match ((Wire.invoke Service.transport c.rpc endpoints r).run st.wire).1 with
          | .error e => .error (.failed (.rpc e))
          | .ok a => .ok a),
          { st with wire := ((Wire.invoke Service.transport c.rpc endpoints r).run st.wire).2 }) := by
  unfold send
  rw [Proc.run_bind, Proc.run_read]
  cases hendpoints : c.endpointsFor r st with
  | error e => exact .inl ⟨e, rfl, rfl⟩
  | ok endpoints =>
    refine .inr ⟨endpoints, rfl, ?_⟩
    simp only [Proc.run_bind, Proc.run_on, ClientState.wirePart]
    cases ((Wire.invoke Service.transport c.rpc endpoints r).run st.wire).1 <;> rfl

private theorem send_despite (r : Request) (whole : st.wire.Whole)
    (reached : ∀ e rest, c.endpointsFor r st = .ok (e :: rest) → e ∉ st.service.unreachable)
    (inTime : st.service.latency.nanos ≤ c.rpc.timeout.nanos)
    (retryable : 0 < st.service.faults.statusBurst →
      st.service.faults.statusCode.isRetryable = true)
    (few : st.service.pending < c.rpc.maxAttempts) :
    st.Despite (c.send Service.transport r) := by
  have hrouted : c.endpointsFor r st.settled = c.endpointsFor r st := rfl
  rcases run_send c r st with ⟨e, hroute, hrun⟩ | ⟨endpoints, hroute, hrun⟩
  · have hsettled : (c.send Service.transport r).run st.settled =
        (.error (.failed (.routing e)), st.settled) := by
      rcases run_send c r st.settled with ⟨e', hroute', hrun'⟩ | ⟨endpoints, hroute', -⟩
      · rw [hrouted, hroute] at hroute'
        obtain rfl := Except.error.inj hroute'
        exact hrun'
      · rw [hrouted, hroute] at hroute'
        cases hroute'
    exact ⟨by rw [hrun, hsettled], by rw [hrun, hsettled]; exact ⟨rfl, rfl⟩, .inl (by rw [hrun])⟩
  · rcases run_send c r st.settled with ⟨e, hroute', -⟩ | ⟨endpoints', hroute', hsettled⟩
    · rw [hrouted, hroute] at hroute'
      cases hroute'
    · rw [hrouted, hroute] at hroute'
      obtain rfl := Except.ok.inj hroute'
      cases endpoints with
      | nil =>
        simp only [Wire.invoke_nil] at hrun hsettled
        exact ⟨by rw [hrun, hsettled], by rw [hrun, hsettled]; exact ⟨rfl, rfl⟩,
          .inl (by rw [hrun]; rfl)⟩
      | cons endpoint rest =>
        have hreach := reached endpoint rest hroute
        obtain ⟨houtcome, hserved⟩ := Wire.invoke_despite rest r whole
          ⟨⟨⟨rfl, rfl⟩, rfl, rfl⟩, hreach, inTime, retryable⟩ few
        obtain ⟨houtcome', hserved'⟩ := Wire.invoke_despite (w := st.settled.wire) rest r whole
          ⟨⟨⟨rfl, rfl⟩, rfl, rfl⟩, hreach, inTime, fun h => absurd h (Nat.lt_irrefl 0)⟩
          c.rpc.maxAttempts_pos
        obtain ⟨hanswer, hnames⟩ := st.service.alike_settled.serve r
        refine ⟨?_, ?_, ?_⟩
        · rw [hrun, hsettled, houtcome, houtcome']
          simp only [ClientState.settled, ClientState.facing, Wire.reaching]
          rw [hanswer]
          rfl
        · rw [hrun, hsettled]
          exact hserved'.names.symm.trans (hnames.symm.trans hserved.names)
        · rw [hrun]
          exact .inr ⟨hserved.transport, hserved.status⟩

/-- A request of a client that may make more attempts than faults are pending that go away has the
same outcome without these faults, and leaves the same names, generations and log.  If it got
through to the service, the faults of the way there are used up. -/
theorem call_despite {ps : List (Proc (ClientState Service Link) Unit)} (used : c.Reached st ps)
    (r : Request)
    (reached : ∀ e rest, c.endpointsFor r st = .ok (e :: rest) → e ∉ st.service.unreachable)
    (inTime : st.service.latency.nanos ≤ c.rpc.timeout.nanos)
    (retryable : 0 < st.service.faults.statusBurst →
      st.service.faults.statusCode.isRetryable = true)
    (few : st.service.pending < c.rpc.maxAttempts) :
    ∃ outcome st' st'',
      (c.call Service.transport r).run st = (outcome, st') ∧
      (c.call Service.transport r).run st.settled = (outcome, st'') ∧
      st''.service.SameNames st'.service ∧
      (st'.service.counts ≠ st.service.counts →
        st'.service.faults.transportBurst = 0 ∧ st'.service.faults.statusBurst = 0) := by
  have hsend : st.Despite (c.send Service.transport r) :=
    send_despite r used.whole reached inTime retryable few
  have hcall : st.Despite (c.call Service.transport r) := by
    cases r with
    | getFsInfo fs =>
      cases hcache : st.cache.get? fs with
      | some info =>
        -- What is remembered is not asked for, so no fault shows.
        have hrun : (c.fsInfo Service.transport fs).run st = (.ok info, st) :=
          run_fsInfo_cached hcache
        have hsettled : (c.fsInfo Service.transport fs).run st.settled = (.ok info, st.settled) :=
          run_fsInfo_cached hcache
        exact ⟨by simp only [call, hrun, hsettled],
          by simp only [call, hrun, hsettled]; exact ⟨rfl, rfl⟩,
          .inl (by simp only [call, hrun])⟩
      | none =>
        exact hsend.congr fun st' hsame => run_fsInfo_missing (hsame ▸ hcache)
    | listFsInfo => exact hsend.congr fun st' _ => run_fsInfos c st'
    | _ => exact hsend
  obtain ⟨houtcome, hnames, hspent⟩ := hcall
  refine ⟨_, _, _, rfl, ?_, hnames, ?_⟩
  · rw [houtcome]
  · intro hcounts
    exact hspent.resolve_left fun hsame => hcounts (congrArg Service.counts hsame)

theorem reached_faulty : Client.sample.Reached .faulty [pure ()] := by
  have hprepared : Client.sample.Reached (.fresh .faulty) [do let _ ← Client.sample.prepare 1] :=
    .prepare (.fresh .faulty) 1
  exact @Reached.step _ _ [] [] _ _ hprepared

theorem call_despite_faulty :
    ClientState.faulty.service.pending = 3 ∧ ∃ st' st'',
      (Client.sample.call Service.transport (.deleteFile 1 2 "a" .first)).run .faulty =
        (.ok (), st') ∧
      (Client.sample.call Service.transport (.deleteFile 1 2 "a" .first)).run
        ClientState.faulty.settled = (.ok (), st'') ∧
      st''.service.SameNames st'.service ∧
      st'.service.faults.transportBurst = 0 ∧ st'.service.faults.statusBurst = 0 := by
  obtain ⟨outcome, st', st'', hrun, hsettled, hnames, hspent⟩ :=
    call_despite reached_faulty (.deleteFile 1 2 "a" .first) (fun e rest _ => List.not_mem_nil)
      (Nat.zero_le _) (fun _ => rfl) (by decide)
  have houtcome : ((Client.sample.call Service.transport (.deleteFile 1 2 "a" .first)).run
      .faulty).1 = .ok () := rfl
  have hcounts : ((Client.sample.call Service.transport (.deleteFile 1 2 "a" .first)).run
      .faulty).2.service.counts.deleteFile = 4 := rfl
  rw [hrun] at houtcome hcounts
  obtain rfl : outcome = .ok () := houtcome
  refine ⟨rfl, st', st'', hrun, hsettled, hnames, hspent fun hsame => ?_⟩
  rw [hsame] at hcounts
  cases hcounts

end Client

end ShardSweep
