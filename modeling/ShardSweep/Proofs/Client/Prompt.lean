import ShardSweep.Proofs.Client.Accounts
import ShardSweep.Proofs.Client.Alone
import ShardSweep.Proofs.Client.Tries

/-!
# Requests that take one attempt

With nothing in its way a request that only looks has the reply of the service after one attempt.
It is over then, unless the reply is a refusal that is worth a retry.  All that it leaves behind in
the service is one request more that was received.

* `Service.Noted`: what such a request leaves behind;
* `Wire.attempt_noted`: the attempt;
* `Sweep.ask_granted`, `Sweep.ask_rejected`: the two replies, as the client reports them.
-/

namespace ShardSweep

namespace Service

/-- A request was received, and nothing else has changed that matters to a client which nothing is
in the way of. -/
structure Noted (c : Client) (kind : RequestKind) (s s' : Service) : Prop where
  same : s.SameNames s'
  calm : s'.Calm c
  counts : s'.counts = s.counts.bump kind

variable {c : Client} {s : Service} {link : Link} {r : Request}

/-- Where nothing is in the way a request that looks brings the reply, and is counted. -/
theorem receive_noted (calm : s.Calm c) (whole : link.broken = false) (looks : r.Looks) :
    (s.receive link c.rpc.timeout r).1 = .ok (s.serve r).1 ∧
      s.Noted c r.kind (s.receive link c.rpc.timeout r).2 := by
  obtain ⟨hreply, hcalm⟩ := receive_of_calm calm whole r
  refine ⟨hreply, ?_, hcalm, (receive_counts s link _ r).1⟩
  rcases s.receive_cases link c.rpc.timeout r with
    ⟨a, -, (_ | ⟨-, hafter⟩)⟩ | ⟨-, hsame⟩
  · rwa [looks] at hafter
  · exact hsame

/-- The same for the steps that it takes. -/
theorem issue_noted (calm : s.Calm c) (whole : link.broken = false) (looks : r.Looks) :
    ((issue link c.rpc.timeout r).run s).1 = .ok (s.serve r).1 ∧
      s.Noted c r.kind ((issue link c.rpc.timeout r).run s).2 := by
  unfold issue
  split
  · have halike : s.Alike s.enterListing := ⟨⟨rfl, rfl⟩, rfl, rfl⟩
    have hentered : s.enterListing.Calm c :=
      ⟨calm.transport, calm.dials, calm.status, calm.latency, calm.lists, calm.attrs, calm.reach⟩
    obtain ⟨hreply, hsame, hcalm, hcounts⟩ := receive_noted hentered whole looks
    rw [(halike.serve r).1] at hreply
    refine ⟨hreply, ⟨hsame.filesystems, hsame.deleted⟩, ?_, hcounts⟩
    exact ⟨hcalm.transport, hcalm.dials, hcalm.status, hcalm.latency, hcalm.lists, hcalm.attrs,
      hcalm.reach⟩
  · exact receive_noted calm whole looks

end Service

namespace Wire

variable {c : Client} {p : Pooled Service Link} {endpoint : Endpoint} {r : Request}

/-- Where nothing is in the way a connection can be had. -/
private theorem checkout_whole (calm : p.net.Calm c) (reached : endpoint ∉ p.net.unreachable)
    (whole : ∀ entry ∈ p.pool.idle, entry.2.broken = false) :
    ∃ link p', (Pooled.checkout Service.transport endpoint c.rpc.timeout).run p = (.ok link, p') ∧
      link.broken = false ∧ p.net.SameNames p'.net ∧ p'.net.Calm c ∧
      p'.net.counts = p.net.counts ∧ ∀ entry ∈ p'.pool.idle, entry.2.broken = false := by
  rw [Pooled.checkout]
  simp only [Proc.run_bind, Proc.run_atomic, Pooled.lend]
  cases hlend : (p.pool.lend endpoint).1 with
  | some link =>
    obtain ⟨hlink, hothers⟩ := Pool.of_lend hlend
    exact ⟨link, _, rfl, whole _ hlink, .refl _, calm, rfl, fun e he => whole e (hothers e he)⟩
  | none =>
    obtain ⟨hopen, hcalm⟩ := Service.open_of_calm calm reached
    refine ⟨⟨endpoint, false⟩,
      ⟨(p.net.open? endpoint).2, (p.pool.lend endpoint).2.countDial⟩, ?_, rfl,
      Service.open_sameNames _ _, hcalm, (Service.open_counts _ _).1, ?_⟩
    · simp only [Pooled.dial, Proc.run_bind, Proc.run_on, Service.transport, Proc.run_atomic,
        Pooled.netPart, hopen]
      rfl
    · rw [Pool.lend_of_none hlend]
      exact whole

/-- An attempt brings the reply, and the connection is kept. -/
theorem attempt_noted (calm : p.net.Calm c) (reached : endpoint ∉ p.net.unreachable)
    (whole : ∀ entry ∈ p.pool.idle, entry.2.broken = false) (looks : r.Looks)
    {reply : Except Status r.Answer}
    (serves : ∀ s, p.net.SameNames s → s.Calm c → (s.serve r).1 = reply) :
    ∃ p', (attempt Service.transport c.rpc.timeout endpoint r).run p = (settle (.ok reply), p') ∧
      p.net.Noted c r.kind p'.net ∧ ∀ entry ∈ p'.pool.idle, entry.2.broken = false := by
  obtain ⟨link, p', hcheckout, hlink, hsame, hcalm, hcounts, hwhole⟩ :=
    checkout_whole calm reached whole
  obtain ⟨hreply, hsame', hcalm', hcounts'⟩ := Service.issue_noted hcalm hlink looks
  rw [serves _ hsame hcalm] at hreply
  refine ⟨⟨((Service.issue link c.rpc.timeout r).run p'.net).2, p'.pool.put endpoint link⟩, ?_,
    ⟨hsame.trans hsame', hcalm', hcounts'.trans (by rw [hcounts])⟩, ?_⟩
  · rw [attempt, Proc.run_bind, hcheckout]
    simp only [attemptOver, Proc.run_bind, Proc.run_on, Service.transport, Pooled.netPart, hreply]
    rfl
  · exact List.forall_mem_cons.mpr ⟨hlink, hwhole⟩

/-- A request of an endpoint is over with that attempt, if the reply settles it. -/
theorem invoke_noted {w : Wire Service Link} (calm : w.pooled.net.Calm c)
    (reached : endpoint ∉ w.pooled.net.unreachable)
    (whole : ∀ entry ∈ w.pooled.pool.idle, entry.2.broken = false) (looks : r.Looks)
    {reply : Except Status r.Answer}
    (serves : ∀ s, w.pooled.net.SameNames s → s.Calm c → (s.serve r).1 = reply)
    (settles : Settles (settle (.ok reply))) (rest : List Endpoint) :
    ∃ w', (invoke Service.transport c.rpc (endpoint :: rest) r).run w =
        (report endpoint r 1 (settle (.ok reply)), w') ∧
      w.pooled.net.Noted c r.kind w'.pooled.net ∧
      ∀ entry ∈ w'.pooled.pool.idle, entry.2.broken = false := by
  obtain ⟨p', hattempt, hnoted, hwhole⟩ := attempt_noted calm reached whole looks serves
  have houtcome : outcome Service.transport c.rpc.timeout endpoint r 0 w.pooled =
      settle (.ok reply) := congrArg Prod.fst hattempt
  have hafter : after Service.transport c.rpc.timeout endpoint r 1 w.pooled = p' :=
    congrArg Prod.snd hattempt
  obtain ⟨k, hcourse⟩ := exists_course Service.transport endpoint r c.rpc rest w
  obtain rfl : k = 0 := Nat.le_zero.mp (hcourse.last.2 (.inr (houtcome ▸ settles)))
  have hpooled := hcourse.pooled.trans hafter
  refine ⟨_, Prod.ext ?_ rfl, hpooled ▸ hnoted, hpooled ▸ hwhole⟩
  obtain ⟨a, ha, hjudge⟩ | ⟨status, hstatus, hfinal, hjudge⟩ := judge_of_settles settles
  · rw [report, hjudge]
    exact hcourse.answered a (houtcome.trans ha)
  · rw [report, hjudge]
    exact hcourse.rejected status (houtcome.trans hstatus) hfinal

end Wire

namespace Sweep

variable {c : Client} {r : Request} {d d' d'' : Deployment} {i : Inode}

/-- These requests were received, and nothing else has changed that matters to a client which
nothing is in the way of. -/
structure Noted (c : Client) (received : List RequestKind) (d d' : Deployment) : Prop where
  calm : (Deployment.clientPart.get d').Calm c
  same : d.service.SameNames d'.service
  counts : d'.service.counts = received.foldl .bump d.service.counts

namespace Noted

theorem refl (calm : (Deployment.clientPart.get d).Calm c) : Noted c [] d d :=
  ⟨calm, .refl _, rfl⟩

theorem trans {received received' : List RequestKind} (h : Noted c received d d')
    (h' : Noted c received' d' d'') : Noted c (received ++ received') d d'' :=
  ⟨h'.calm, h.same.trans h'.same, by rw [List.foldl_append, h'.counts, h.counts]⟩

end Noted

/-- What the service replies to a request of a shard is reported after one attempt. -/
private theorem ask_noted (goes : r.destination = .shardOf i) (looks : r.Looks)
    (calm : (Deployment.clientPart.get d).Calm c) {reply : Except Status r.Answer}
    (serves : ∀ s, d.service.SameNames s → s.Calm c → (s.serve r).1 = reply)
    (settles : Wire.Settles (Wire.settle (.ok reply))) :
    ∃ endpoint d', (c.shards.groupOf i).head? = some endpoint ∧
      ask (Deployment.metadata c) r d =
        (some ((Wire.report endpoint r 1 (Wire.settle (.ok reply))).mapError
          fun e => .failed (.rpc e)), d') ∧ Noted c [r.kind] d d' := by
  obtain ⟨endpoint, rest, hgroup, hreached⟩ := calm.service.reach i
  obtain ⟨w', hinvoke, hnoted, hwhole⟩ :=
    Wire.invoke_noted (w := (Deployment.clientPart.get d).wire) calm.service hreached calm.idle
      looks serves settles rest
  obtain ⟨fs, hactive⟩ := Option.isSome_iff_exists.mp calm.active
  have hendpoints : c.endpointsFor r (Deployment.clientPart.get d) = .ok (endpoint :: rest) := by
    simp [Client.endpointsFor, goes, ShardTable.resolve, hactive, hgroup]
  have hrun : (c.call Service.transport r).run (Deployment.clientPart.get d) =
      ((Wire.report endpoint r 1 (Wire.settle (.ok reply))).mapError fun e => .failed (.rpc e),
        { Deployment.clientPart.get d with wire := w' }) := by
    rw [Client.call_eq_send goes]
    simp only [Client.send, Proc.run_bind, Proc.run_read, hendpoints, Proc.run_on,
      ClientState.wirePart, hinvoke]
    cases Wire.report endpoint r 1 (Wire.settle (.ok reply)) <;> rfl
  exact ⟨endpoint, _, by rw [hgroup]; rfl, ask_eq hrun, ⟨calm.active, hnoted.calm, hwhole⟩,
    hnoted.same, hnoted.counts⟩

/-- What the service would answer is answered. -/
theorem ask_granted (goes : r.destination = .shardOf i) (looks : r.Looks)
    (calm : (Deployment.clientPart.get d).Calm c) {a : r.Answer}
    (serves : ∀ s, d.service.SameNames s → s.Calm c → (s.serve r).1 = .ok a) :
    ∃ d', ask (Deployment.metadata c) r d = (some (.ok a), d') ∧ Noted c [r.kind] d d' := by
  obtain ⟨endpoint, d', -, hask, hnoted⟩ := ask_noted goes looks calm serves trivial
  exact ⟨d', hask, hnoted⟩

/-- What the service refuses for good is rejected. -/
theorem ask_rejected (goes : r.destination = .shardOf i) (looks : r.Looks)
    (calm : (Deployment.clientPart.get d).Calm c) {status : Status}
    (serves : ∀ s, d.service.SameNames s → s.Calm c → (s.serve r).1 = .error status)
    (final : status.isRetryable = false) :
    ∃ endpoint d', (c.shards.groupOf i).head? = some endpoint ∧
      ask (Deployment.metadata c) r d =
        (some (.error (.failed (.rpc (.rejected r.kind endpoint status)))), d') ∧
      Noted c [r.kind] d d' := by
  obtain ⟨endpoint, d', hhead, hask, hnoted⟩ := ask_noted goes looks calm serves final
  refine ⟨endpoint, d', hhead, ?_, hnoted⟩
  simpa [Wire.settle, Wire.report, Wire.judge, final, Except.mapError] using hask

end Sweep

end ShardSweep
