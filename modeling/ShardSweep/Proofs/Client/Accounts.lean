import Mathlib.Algebra.BigOperators.Finprod
import Mathlib.Algebra.BigOperators.Group.Finset.Basic
import Mathlib.Algebra.BigOperators.Group.Multiset.Basic
import ShardSweep.Proofs.Client.Business

/-!
# Counters that agree

A client, its pool and the service behind it keep seven counters, each for itself.  Between
requests they agree: every attempt has reached the service or failed to get a connection, every
request that has reached the service went over a connection that was dialed or lent again, and a
connection that was dialed is idle or was given up.

While requests are under way the counters are apart by what these have counted in one place and not
yet in another.  `Account` names the differences, and `Stage.dues` is the part of a request in them.

* `Stage.Goes.accounts`: with each step the differences change as the dues of the request;
* `Client.Balanced`: what it means that the counters agree;
* `Client.balanced`: they do whenever no request is under way.
-/

namespace ShardSweep

/-- Differences of counters that are the same between requests. -/
inductive Account where
  /-- Attempts, less those that have reached the service or failed to get a connection. -/
  | attempts
  /-- Requests that have reached the service, less the connections lent for them. -/
  | carried
  /-- Dials that the service has seen, less those that the pool has counted. -/
  | dials
  /-- Attempts, less the retries. -/
  | tries
  /-- Requests without an answer. -/
  | failures
  /-- Connections, less those that are idle or were given up. -/
  | connections

namespace Service

/-- The service changes by itself, in a way that neither dials nor asks anything. -/
def Spares (s s' : Service) : Prop :=
  s'.counts = s.counts ∧ s'.dials = s.dials

variable {s : Service}

/-- Serving a request neither dials nor counts it. -/
theorem serve_spares (s : Service) (r : Request) : s.Spares (s.serve r).2 := by
  have hremove : ∀ fs epoch name edit, s.Spares (s.remove fs epoch name edit).2 := by
    intro fs epoch name edit
    unfold remove
    split
    · exact ⟨rfl, rfl⟩
    · split <;> exact ⟨rfl, rfl⟩
  cases r with
  | deleteFile fs parent name epoch => exact hremove fs epoch name _
  | deleteDir fs parent name epoch => exact hremove fs epoch name _
  | _ => exact ⟨rfl, rfl⟩

/-- Nor does a failure on the way to the service. -/
private theorem onTheWay_spares (s : Service) (endpoint : Endpoint) (timeout : Duration) :
    s.Spares (s.onTheWay endpoint timeout).2 := by
  unfold onTheWay
  split
  · exact ⟨rfl, rfl⟩
  · split <;> exact ⟨rfl, rfl⟩

private theorem arrangedRefusal_spares (s : Service) : s.Spares s.arrangedRefusal.2 := by
  unfold arrangedRefusal
  split <;> exact ⟨rfl, rfl⟩

/-- Changes by itself, one after the other. -/
theorem Spares.trans {s' s'' : Service} (h : s.Spares s') (h' : s'.Spares s'') : s.Spares s'' :=
  ⟨h'.1.trans h.1, h'.2.trans h.2⟩

/-- A request that reaches the service is counted there, whatever becomes of it. -/
theorem receive_counts (s : Service) (link : Link) (timeout : Duration) (r : Request) :
    (s.count r.kind).Spares (s.receive link timeout r).2 := by
  unfold receive
  split
  · exact ⟨rfl, rfl⟩
  · have hway := onTheWay_spares (s.count r.kind) link.endpoint timeout
    unfold deliver
    generalize (s.count r.kind).onTheWay link.endpoint timeout = way at hway ⊢
    obtain ⟨_ | e, s'⟩ := way
    · have hrefusal := arrangedRefusal_spares s'
      dsimp only
      generalize s'.arrangedRefusal = arranged at hrefusal ⊢
      obtain ⟨_ | status, s''⟩ := arranged
      · exact (hway.trans hrefusal).trans (serve_spares s'' r)
      · exact hway.trans hrefusal
    · exact hway

/-- Opening a link is noted with its endpoint. -/
theorem open_counts (s : Service) (endpoint : Endpoint) :
    (s.open? endpoint).2.counts = s.counts ∧
      (s.open? endpoint).2.dials = endpoint :: s.dials := by
  unfold open?
  dsimp only
  split <;> exact ⟨rfl, rfl⟩

/-- A link leads to the endpoint that it was opened for. -/
theorem endpoint_of_open {endpoint : Endpoint} {link : Link}
    (h : (s.open? endpoint).1 = .ok link) : link.endpoint = endpoint := by
  unfold open? at h
  dsimp only at h
  split at h
  · cases h
  · cases h
    rfl

end Service

namespace Wire

/-- Every idle connection leads to the endpoint that it is filed under, and can be used. -/
def InOrder (w : Wire Service Link) : Prop :=
  ∀ entry ∈ w.pooled.pool.idle, entry.2.endpoint = entry.1 ∧ entry.2.broken = false

/-- The state of an account. -/
def account (w : Wire Service Link) : Account → Int
  | .attempts => w.tally.attempts - w.pooled.net.counts.total - w.pooled.pool.dialFailures
  | .carried => w.pooled.net.counts.total - w.pooled.pool.dialed - w.pooled.pool.reused
  | .dials => w.pooled.net.dials.length - w.pooled.pool.dialed - w.pooled.pool.dialFailures
  | .tries => w.tally.attempts - w.tally.retries
  | .failures => w.tally.failures
  | .connections => w.pooled.pool.dialed - w.pooled.pool.discarded - w.pooled.pool.idle.length

end Wire

namespace Stage

variable {r : Request} {timeout : Duration} {endpoint : Endpoint} {most : Nat}
  {stage stage' : Stage r} {w w' : Wire Service Link}

/-- What a request has counted in one place and not yet in another. -/
def dues : Stage r → Account → Int
  | .seeking _, .attempts | .dialing _, .attempts | .dialed _ _, .attempts
  | .holding _ _, .attempts | .listing _ _, .attempts => 1
  | .holding _ _, .carried | .listing _ _, .carried => -1
  | .dialed _ _, .dials => 1
  | .between _, .tries => 0
  | _, .tries => 1
  | .over _, .failures => 1
  | .holding _ _, .connections | .listing _ _, .connections | .listed _ _ _, .connections
  | .carried _ _ _, .connections => 1
  | _, _ => 0

/-- What a request knows of the connection that it has. -/
def Holds (endpoint : Endpoint) : Stage r → Prop
  | .dialed _ (.ok link) | .holding _ link | .listing _ link => link.endpoint = endpoint
  | .listed _ link delivery | .carried _ link delivery =>
    link.endpoint = endpoint ∧ ∀ reply, delivery = .ok reply → link.broken = false
  | _ => True

/-- With each step the accounts change as the dues of the request that takes it. -/
theorem Goes.accounts (goes : stage.Goes timeout endpoint most r w w' stage') (a : Account) :
    w'.account a + stage.dues a = w.account a + stage'.dues a := by
  have hreceive : ∀ (s : Service) (link : Link),
      (s.receive link timeout r).2.counts.total = s.counts.total + 1 ∧
        (s.receive link timeout r).2.dials = s.dials := by
    intro s link
    obtain ⟨hcounts, hdials⟩ := Service.receive_counts s link timeout r
    exact ⟨by rw [hcounts]; exact CallCounts.total_bump _ _, hdials⟩
  have hopen : ∀ s : Service, (s.open? endpoint).2.counts = s.counts ∧
      (s.open? endpoint).2.dials = endpoint :: s.dials := fun s => Service.open_counts s endpoint
  cases goes with
  | lend found =>
    obtain ⟨others, hlend, hperm⟩ := Pool.lend_of_some found
    have hidle := hperm.length_eq
    simp only [List.length_cons] at hidle
    cases a <;> simp [Wire.account, dues, Wire.pooling, Pooled.onPool, hlend] <;> omega
  | dial =>
    obtain ⟨hcounts, hdials⟩ := hopen w.pooled.net
    cases a <;> simp [Wire.account, dues, Wire.reaching, hcounts, hdials]
    omega
  | list | send =>
    cases a <;> simp [Wire.account, dues, Wire.reaching, hreceive] <;> omega
  | attempt | again | exhaust | reject =>
    cases a <;> simp [Wire.account, dues, Wire.tallied, CallTally.countAttempt,
      CallTally.countRetry, CallTally.countFailure] <;> omega
  | «open» | fail | putBack | discard =>
    cases a <;> simp [Wire.account, dues, Wire.pooling, Pooled.onPool, Pool.countDial,
      Pool.countDialFailure, Pool.put, Pool.discard] <;> omega
  | enter | leave =>
    cases a <;> simp [Wire.account, dues, Wire.reaching, Service.enterListing,
      Service.leaveListing]
  | miss => cases a <;> rfl

/-- Links stay whole and filed under their endpoint at every step of an attempt. -/
theorem Goes.inOrder (goes : stage.Goes timeout endpoint most r w w' stage')
    (holds : stage.Holds endpoint) (inOrder : w.InOrder) :
    w'.InOrder ∧ stage'.Holds endpoint := by
  cases goes with
  | lend found =>
    obtain ⟨hlink, hothers⟩ := Pool.of_lend found
    exact ⟨fun entry hentry => inOrder entry (hothers entry hentry), (inOrder _ hlink).1⟩
  | dial =>
    refine ⟨inOrder, ?_⟩
    cases hopen : (w.pooled.net.open? endpoint).1 with
    | error e => trivial
    | ok link => exact Service.endpoint_of_open hopen
  | list | send =>
    exact ⟨inOrder, holds, fun reply hreply => Service.unbroken_of_receive hreply⟩
  | putBack =>
    refine ⟨fun entry hentry => ?_, trivial⟩
    rcases List.mem_cons.mp hentry with rfl | hentry
    · exact ⟨holds.1, holds.2 _ rfl⟩
    · exact inOrder entry hentry
  | «open» | enter | leave => exact ⟨inOrder, holds⟩
  | _ => exact ⟨inOrder, trivial⟩

end Stage

/-- What a bill brings to an account. -/
def Bill.worth (bill : Bill) : Account → Int
  | .tries => bill.sought
  | .failures => bill.failed
  | _ => 0

namespace Client

variable {c : Client} {r : Request}

/-- What a request has counted at its end: one attempt that was no retry, if it had an endpoint, and
a failure, if it has no answer. -/
def dues (sought failed : Bool) : Account → Int :=
  (⟨sought.toNat, failed.toNat⟩ : Bill).worth

/-- A step changes the accounts as the dues of the request that takes it. -/
def accounting : Contract (ClientState Service Link) (Account → Int) where
  assume _ st := st.wire.InOrder
  step x st st' x' := st'.wire.InOrder ∧ ∀ a, st'.wire.account a + x a = st.wire.account a + x' a

/-- Whatever comes of the attempts, they are counted as they are made. -/
private theorem invoke_accounts (settings : RpcSettings) (endpoints : List Endpoint) (r : Request) :
    ((Wire.invoke Service.transport settings endpoints r).on ClientState.wirePart).Obeys accounting
      0 fun outcome x => x = dues (!endpoints.isEmpty) (!outcome.isOk) := by
  refine fun st hst => ⟨0, ⟨hst, fun a => by cases a <;> rfl⟩, ?_⟩
  cases endpoints with
  | nil =>
    refine fun st hst => ⟨dues false true, ⟨hst, fun a => ?_⟩, rfl⟩
    cases a <;> simp [Wire.account, dues, Bill.worth, ClientState.wirePart, CallTally.countFailure]
  | cons endpoint rest =>
    refine ((Wire.attempts_obeys_settings settings endpoint r).on ClientState.wirePart).refine
      (fun stage x => x = stage.dues ∧ stage.Holds endpoint) ⟨?_, trivial⟩ ?_ ?_ ?_
    · funext a
      cases a <;> rfl
    · exact fun _ _ _ _ _ => trivial
    · rintro stage _ st st' stage' ⟨rfl, hholds⟩ hinOrder ⟨hgoes, hst'⟩
      rw [hst']
      obtain ⟨hinOrder', hholds'⟩ := hgoes.inOrder hholds hinOrder
      exact ⟨stage'.dues, ⟨hinOrder', hgoes.accounts⟩, rfl, hholds'⟩
    · rintro outcome stage _ ⟨rfl, -⟩ hends
      funext a
      cases hends <;> cases a <;> rfl

/-- The accounts of a client, with the dues of the requests under way. -/
def accounts (c : Client) : Books Service.transport c Service.Spares (Account → Int) where
  contract := accounting
  blank := 0
  due sought failed x := x = dues sought failed
  balanced st xs bill := st.wire.InOrder ∧
    ∀ a, st.wire.account a = bill.worth a + (xs.map fun x => x a).sum
  due_blank := by
    funext a
    cases a <;> rfl
  looks hst _ := ⟨hst, fun _ => rfl⟩
  invokes := invoke_accounts c.rpc
  begins h := ⟨h.1, fun a => by simpa using h.2 a⟩
  assumes h := h.1
  steps := by
    rintro st x xs bill st' x' ⟨-, haccounts⟩ ⟨hinOrder, hstep⟩
    refine ⟨hinOrder, fun a => ?_⟩
    have hbefore := haccounts a
    have hafter := hstep a
    simp only [Multiset.map_cons, Multiset.sum_cons] at hbefore ⊢
    omega
  ends := by
    rintro st x xs bill sought failed ⟨hinOrder, haccounts⟩ rfl
    refine ⟨hinOrder, fun a => ?_⟩
    have hbefore := haccounts a
    simp only [Multiset.map_cons, Multiset.sum_cons] at hbefore
    cases a <;> simp [Bill.worth, Bill.add, dues] at hbefore ⊢ <;> omega
  keeps h _ _ := h
  asides := by
    rintro st xs bill s ⟨hinOrder, haccounts⟩ ⟨hcounts, hdials⟩
    refine ⟨hinOrder, fun a => ?_⟩
    rw [← haccounts a]
    cases a <;> simp [Wire.account, Wire.reaching, hcounts, hdials]

/-- The counters of a client, its pool and its service agree. -/
structure Balanced (st : ClientState Service Link) (bill : Bill) : Prop where
  /-- Every attempt has reached the service or failed to get a connection. -/
  attempts : st.wire.tally.attempts =
    st.wire.pooled.net.counts.total + st.wire.pooled.pool.dialFailures
  /-- Every request that has reached the service went over a connection that was lent for it. -/
  carried : st.wire.pooled.net.counts.total = st.wire.pooled.pool.dialed + st.wire.pooled.pool.reused
  /-- Every dial was counted at both ends. -/
  dials : ∑ᶠ endpoint, st.wire.pooled.net.dialsTo endpoint =
    st.wire.pooled.pool.dialed + st.wire.pooled.pool.dialFailures
  /-- Every request that had an endpoint made one attempt that was no retry. -/
  tries : st.wire.tally.attempts = st.wire.tally.retries + bill.sought
  failures : st.wire.tally.failures = bill.failed
  /-- Every connection is idle or was given up. -/
  connections : st.wire.pooled.pool.dialed =
    st.wire.pooled.pool.discarded + ∑ᶠ endpoint, st.wire.pooled.pool.idleCount endpoint
  /-- Idle connections are filed where they lead to, and can be used. -/
  inOrder : st.wire.InOrder

/-- Counting by endpoints misses none. -/
private theorem finsum_count (endpoints : List Endpoint) :
    ∑ᶠ endpoint, endpoints.count endpoint = endpoints.length := by
  rw [finsum_eq_sum_of_support_subset (s := endpoints.toFinset), List.sum_toFinset_count_eq_length]
  intro endpoint h
  simpa using List.count_pos_iff.mp (Nat.pos_of_ne_zero (Function.mem_support.mp h))

/-- All idle connections, endpoint by endpoint. -/
theorem finsum_idleCount {κ : Type} (p : Pool κ) :
    ∑ᶠ endpoint, p.idleCount endpoint = p.idle.length := by
  have hcount : p.idleCount = fun endpoint => (p.idle.map Prod.fst).count endpoint := by
    funext endpoint
    simp only [Pool.idleCount, List.count, List.countP_map]
    rfl
  rw [hcount, finsum_count, List.length_map]

/-- Whenever no request is under way the counters agree, whatever requests were made and however
they took turns with each other and with the changes of the service. -/
theorem balanced {fs : FsId} {name : String} {scene : Scene Service Link}
    (leads : Leads Service.transport c Service.Spares ⟨.fresh (.new fs name), 0, ⟨0, 0⟩⟩ scene)
    (idle : scene.underway = 0) : Balanced scene.state scene.bill := by
  have hstart : (accounts c).balanced (.fresh (.new fs name)) 0 ⟨0, 0⟩ :=
    ⟨nofun, fun a => by cases a <;> rfl⟩
  obtain ⟨hinOrder, haccounts⟩ := (accounts c).balanced_of_idle leads rfl hstart idle
  have hattempts := haccounts .attempts
  have hcarried := haccounts .carried
  have hdials := haccounts .dials
  have htries := haccounts .tries
  have hfailures := haccounts .failures
  have hconnections := haccounts .connections
  simp only [Wire.account, Bill.worth, Multiset.map_zero, Multiset.sum_zero] at hattempts hcarried
  simp only [Wire.account, Bill.worth, Multiset.map_zero, Multiset.sum_zero] at hdials htries
  simp only [Wire.account, Bill.worth, Multiset.map_zero, Multiset.sum_zero] at hfailures
  simp only [Wire.account, Bill.worth, Multiset.map_zero, Multiset.sum_zero] at hconnections
  refine ⟨by omega, by omega, ?_, by omega, by omega, ?_, hinOrder⟩
  · simp only [Service.dialsTo, finsum_count]
    omega
  · rw [finsum_idleCount]
    omega

end Client

end ShardSweep
