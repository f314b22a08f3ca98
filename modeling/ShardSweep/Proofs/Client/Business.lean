import Mathlib.Data.Multiset.AddSub
import Mathlib.Logic.Relation
import ShardSweep.Proofs.Client.Stages

/-!
# A client and its requests under way

Any number of requests may be under way in one client.  They begin at any moment, take their steps
in any order, and end; in between the client is made ready for filesystems, what it remembers is
changed, and its transport changes by itself.  `Client.Act` is one of these, and a `Scene` is what
there is before and after it.  A scene has a bill: how many of the requests that are over had an
endpoint to go to, and how many got no answer from there.

`Client.Books` are kept by someone who writes down something for each request under way.  What is
true of the books of one step is true of the books of any course of events.

* `Client.Act.frame`: what happens is not disturbed by other requests under way;
* `Client.Books.kept`: books that are kept at each step are kept.
-/

namespace ShardSweep

/-- A request that has not been answered for want of an endpoint or of an attempt that went well. -/
def Outcome.unanswered {α : Type} : Outcome α → Bool
  | .error (.failed (.rpc _)) => true
  | _ => false

/-- A request under way. -/
structure Underway (τ κ : Type) where
  request : Request
  /-- Whether it has an endpoint to go to, as soon as it has looked. -/
  sought : Option Bool
  /-- What is left to do. -/
  rest : Proc (ClientState τ κ) (Outcome request.Answer)

/-- What requests that are over have come to. -/
structure Bill where
  /-- Requests that had an endpoint to go to. -/
  sought : Nat
  /-- Requests without an answer. -/
  failed : Nat
  deriving DecidableEq, Repr

/-- One more request is over. -/
def Bill.add (bill : Bill) (sought failed : Bool) : Bill :=
  ⟨bill.sought + sought.toNat, bill.failed + failed.toNat⟩

/-- A client with the requests under way and the bill of those that are over. -/
structure Scene (τ κ : Type) where
  state : ClientState τ κ
  underway : Multiset (Underway τ κ)
  bill : Bill

variable {τ κ γ : Type}

namespace Client

variable {transport : Transport τ κ} {c : Client} {aside : τ → τ → Prop} {scene scene' : Scene τ κ}

/-- There is somebody to send a request to. -/
def hasEndpoint : Except RoutingError (List Endpoint) → Bool
  | .ok endpoints => !endpoints.isEmpty
  | .error _ => false

/-- A request that looks where it can go needs an endpoint, and there is one. -/
def seeks (c : Client) (r : Request) (st : ClientState τ κ) : Bool :=
  (match r with
    | .getFsInfo fs => (st.cache.get? fs).isNone
    | _ => true) && hasEndpoint (c.endpointsFor r st)

/-- Something that happens. -/
inductive Act (transport : Transport τ κ) (c : Client) (aside : τ → τ → Prop) :
    Scene τ κ → Scene τ κ → Prop
  | begin {st us bill} (r : Request) :
      Act transport c aside ⟨st, us, bill⟩ ⟨st, ⟨r, none, c.call transport r⟩ ::ₘ us, bill⟩
  /-- With its first step a request looks where it can go. -/
  | step {st us bill r sought change next} :
      Act transport c aside ⟨st, ⟨r, sought, .step change next⟩ ::ₘ us, bill⟩
        ⟨change st, ⟨r, some (sought.getD (c.seeks r st)), next st⟩ ::ₘ us, bill⟩
  | finish {st us bill r sought outcome} :
      Act transport c aside ⟨st, ⟨r, sought, .done outcome⟩ ::ₘ us, bill⟩
        ⟨st, us, bill.add (sought.getD false) (Outcome.unanswered outcome)⟩
  | prepare {st us bill} (fs : FsId) :
      Act transport c aside ⟨st, us, bill⟩ ⟨((c.prepare fs).run st).2, us, bill⟩
  | remind {st us bill} (cache : FsCache) :
      Act transport c aside ⟨st, us, bill⟩ ⟨{ st with cache := cache }, us, bill⟩
  | aside {st us bill net} (change : aside st.wire.pooled.net net) :
      Act transport c aside ⟨st, us, bill⟩ ⟨{ st with wire := st.wire.reaching net }, us, bill⟩

/-- What can happen in any number of steps. -/
abbrev Leads (transport : Transport τ κ) (c : Client) (aside : τ → τ → Prop) :
    Scene τ κ → Scene τ κ → Prop :=
  Relation.ReflTransGen (Act transport c aside)

/-- More requests under way do not disturb what happens. -/
theorem Act.frame (h : Act transport c aside scene scene') (us : Multiset (Underway τ κ)) :
    Act transport c aside ⟨scene.state, scene.underway + us, scene.bill⟩
      ⟨scene'.state, scene'.underway + us, scene'.bill⟩ := by
  cases h with
  | begin r => simpa using .begin r
  | step => simpa using .step
  | finish => simpa using .finish
  | prepare fs => exact .prepare fs
  | remind cache => exact .remind cache
  | aside change => exact .aside change

/-- The same of any number of steps. -/
theorem Leads.frame (h : Leads transport c aside scene scene') (us : Multiset (Underway τ κ)) :
    Leads transport c aside ⟨scene.state, scene.underway + us, scene.bill⟩
      ⟨scene'.state, scene'.underway + us, scene'.bill⟩ :=
  Relation.ReflTransGen.lift
    (fun scene : Scene τ κ => (⟨scene.state, scene.underway + us, scene.bill⟩ : Scene τ κ))
    (fun _ _ act => Act.frame act us) _ _ h

/-- What is done with an answer that something is learned from. -/
def learn {α : Type} (infos : α → List FsInfo) :
    Outcome α → Proc (ClientState τ κ) (Outcome α)
  | .error h => pure (.error h)
  | .ok a => do
    remember (infos a)
    pure (.ok a)

/-- What is not remembered is asked for, and learned. -/
theorem fsInfo_eq (transport : Transport τ κ) (c : Client) (fs : FsId) :
    c.call transport (.getFsInfo fs) = .step id fun st =>
      match st.cache.get? fs with
      | some info => pure (.ok info)
      | none => c.send transport (.getFsInfo fs) >>= learn fun info => [info] := by
  refine congrArg (Proc.step id) (funext fun st => ?_)
  change (match st.cache.get? fs with | some info => _ | none => _) = _
  cases st.cache.get? fs with
  | some info => rfl
  | none =>
    refine congrArg (c.send transport (.getFsInfo fs) >>= ·) (funext fun outcome => ?_)
    cases outcome <;> rfl

/-- A listing is always asked for, and learned. -/
theorem fsInfos_eq (transport : Transport τ κ) (c : Client) :
    c.call transport .listFsInfo = c.send transport .listFsInfo >>= learn id := by
  refine congrArg (c.send transport .listFsInfo >>= ·) (funext fun outcome => ?_)
  cases outcome <;> rfl

/-- Books over what happens: for each request under way a note, and what the notes and the bill
have to do with the client. -/
structure Books (transport : Transport τ κ) (c : Client) (aside : τ → τ → Prop) (γ : Type) where
  /-- What a request may do, and how its note changes. -/
  contract : Contract (ClientState τ κ) γ
  /-- The note of a request that has done nothing. -/
  blank : γ
  /-- The notes at the end: whether there was an endpoint, and whether there is no answer. -/
  due : (sought failed : Bool) → γ → Prop
  balanced : ClientState τ κ → Multiset γ → Bill → Prop
  due_blank : due false false blank
  looks : ∀ {g st}, contract.assume g st → ∀ cache, contract.step g st { st with cache := cache } g
  invokes : ∀ endpoints r, ((Wire.invoke transport c.rpc endpoints r).on ClientState.wirePart).Obeys
    contract blank fun outcome g => due (!endpoints.isEmpty) (!outcome.isOk) g
  begins : ∀ {st gs bill}, balanced st gs bill → balanced st (blank ::ₘ gs) bill
  assumes : ∀ {st g gs bill}, balanced st (g ::ₘ gs) bill → contract.assume g st
  steps : ∀ {st g gs bill st' g'}, balanced st (g ::ₘ gs) bill → contract.step g st st' g' →
    balanced st' (g' ::ₘ gs) bill
  ends : ∀ {st g gs bill sought failed}, balanced st (g ::ₘ gs) bill → due sought failed g →
    balanced st gs (bill.add sought failed)
  keeps : ∀ {st gs bill}, balanced st gs bill → ∀ active cache,
    balanced { st with active := active, cache := cache } gs bill
  asides : ∀ {st gs bill net}, balanced st gs bill → aside st.wire.pooled.net net →
    balanced { st with wire := st.wire.reaching net } gs bill

namespace Books

variable (B : Books transport c aside γ) {r : Request} {g : γ}

/-- The note of a request under way. -/
def Notes (u : Underway τ κ) (g : γ) : Prop :=
  match u.sought with
  | none => u.rest = c.call transport u.request ∧ g = B.blank
  | some sought => u.rest.Obeys B.contract g fun outcome g =>
      B.due sought (Outcome.unanswered outcome) g

/-- What follows when a request has looked where it can go. -/
private def dispatch (transport : Transport τ κ) (c : Client) (r : Request) :
    Except RoutingError (List Endpoint) → Proc (ClientState τ κ) (Outcome r.Answer)
  | .error e => pure (.error (.failed (.routing e)))
  | .ok endpoints => do
    match ← (Wire.invoke transport c.rpc endpoints r).on ClientState.wirePart with
    | .error e => pure (.error (.failed (.rpc e)))
    | .ok answer => pure (.ok answer)

private theorem send_eq (transport : Transport τ κ) (c : Client) (r : Request) :
    c.send transport r = .step id fun st => dispatch transport c r (c.endpointsFor r st) := by
  refine congrArg (Proc.step id) (funext fun st => ?_)
  change (match c.endpointsFor r st with | .error e => _ | .ok endpoints => _) = _
  cases c.endpointsFor r st <;> rfl

private theorem dispatch_due (found : Except RoutingError (List Endpoint)) :
    (dispatch transport c r found).Obeys B.contract B.blank fun outcome g =>
      B.due (hasEndpoint found) (Outcome.unanswered outcome) g := by
  cases found with
  | error e => exact B.due_blank
  | ok endpoints =>
    refine (B.invokes endpoints r).bind ?_
    rintro (e | answer) g hdue
    · exact hdue
    · exact hdue

private theorem remember_same (infos : List FsInfo) (g : γ) :
    (remember infos).Obeys B.contract g fun _ g' => g' = g :=
  fun _ hst => ⟨g, B.looks hst _, rfl⟩

private theorem learn_due {α : Type} {sought : Bool} (infos : α → List FsInfo)
    {p : Proc (ClientState τ κ) (Outcome α)}
    (h : p.Obeys B.contract B.blank fun outcome g => B.due sought (Outcome.unanswered outcome) g) :
    (p >>= learn infos).Obeys B.contract B.blank
      fun outcome g => B.due sought (Outcome.unanswered outcome) g := by
  refine h.bind ?_
  rintro (h | a) g hdue
  · exact hdue
  · refine (B.remember_same (infos a) g).bind ?_
    rintro _ _ rfl
    exact hdue

private theorem send_due (coordinators : r.destination = .coordinators) :
    (c.send transport r).Obeys B.contract B.blank fun outcome g =>
      B.due (!c.coordinators.isEmpty) (Outcome.unanswered outcome) g := by
  rw [send_eq]
  refine fun st hst => ⟨B.blank, B.looks hst st.cache, ?_⟩
  have hfound : c.endpointsFor r st = .ok c.coordinators := by simp [endpointsFor, coordinators]
  change (dispatch transport c r (c.endpointsFor r st)).Obeys _ _ _
  rw [hfound]
  exact B.dispatch_due _

/-- A request looks first, and its note at the end is due. -/
private theorem exists_onward (r : Request) :
    ∃ next, c.call transport r = .step id next ∧ ∀ st, (next st).Obeys B.contract B.blank
      fun outcome g => B.due (c.seeks r st) (Outcome.unanswered outcome) g := by
  cases r with
  | getFsInfo fs =>
    refine ⟨_, fsInfo_eq transport c fs, fun st => ?_⟩
    cases hcache : st.cache.get? fs with
    | some info =>
      have hseeks : c.seeks (.getFsInfo fs) st = false := by simp [seeks, hcache]
      rw [hseeks]
      exact B.due_blank
    | none =>
      have hseeks : c.seeks (.getFsInfo fs) st = !c.coordinators.isEmpty := by
        simp [seeks, hcache, endpointsFor, Request.destination, hasEndpoint]
      rw [hseeks]
      exact B.learn_due _ (B.send_due rfl)
  | listFsInfo =>
    refine ⟨fun st => dispatch transport c .listFsInfo (c.endpointsFor .listFsInfo st) >>= learn id,
      ?_, fun st => B.learn_due id (B.dispatch_due _)⟩
    rw [fsInfos_eq, send_eq]
    rfl
  | _ => exact ⟨_, send_eq transport c _, fun st => B.dispatch_due _⟩

/-- What is kept with each act. -/
private theorem act (h : Act transport c aside scene scene') {gs : Multiset γ}
    (notes : scene.underway.Rel B.Notes gs) (balanced : B.balanced scene.state gs scene.bill) :
    ∃ gs', scene'.underway.Rel B.Notes gs' ∧ B.balanced scene'.state gs' scene'.bill := by
  cases h with
  | begin r =>
    exact ⟨B.blank ::ₘ gs, .cons ⟨rfl, rfl⟩ notes, B.begins balanced⟩
  | @step st us bill r sought change next =>
    obtain ⟨g, gs, hnote, hnotes, rfl⟩ := Multiset.rel_cons_left.mp notes
    cases sought with
    | none =>
      obtain ⟨hcall, rfl⟩ := hnote
      obtain ⟨next', heq, honward⟩ := B.exists_onward r
      obtain ⟨rfl, rfl⟩ := Proc.step.inj (hcall.trans heq)
      exact ⟨B.blank ::ₘ gs, .cons (honward st) hnotes, balanced⟩
    | some sought =>
      obtain ⟨g', hstep, hnext⟩ := hnote st (B.assumes balanced)
      exact ⟨g' ::ₘ gs, .cons hnext hnotes, B.steps balanced hstep⟩
  | @finish st us bill r sought outcome =>
    obtain ⟨g, gs, hnote, hnotes, rfl⟩ := Multiset.rel_cons_left.mp notes
    cases sought with
    | none =>
      obtain ⟨next', heq, -⟩ := B.exists_onward r
      cases hnote.1.trans heq
    | some sought => exact ⟨gs, hnotes, B.ends balanced hnote⟩
  | @prepare st us bill fs =>
    refine ⟨gs, notes, ?_⟩
    simp only [prepare, Proc.run_atomic]
    cases c.shards.ready fs with
    | error e => exact balanced
    | ok active => exact B.keeps balanced (some active) st.cache
  | remind cache => exact ⟨gs, notes, B.keeps balanced _ cache⟩
  | aside change => exact ⟨gs, notes, B.asides balanced change⟩

/-- Books that are kept at each step are kept. -/
theorem kept (leads : Leads transport c aside scene scene') (idle : scene.underway = 0)
    (balanced : B.balanced scene.state 0 scene.bill) :
    ∃ gs, scene'.underway.Rel B.Notes gs ∧ B.balanced scene'.state gs scene'.bill := by
  induction leads with
  | refl => exact ⟨0, by rw [idle]; exact .zero, balanced⟩
  | tail _ hact ih =>
    obtain ⟨gs, hnotes, hbalanced⟩ := ih
    exact B.act hact hnotes hbalanced

/-- Between requests the books are balanced without any notes. -/
theorem balanced_of_idle (leads : Leads transport c aside scene scene') (idle : scene.underway = 0)
    (balanced : B.balanced scene.state 0 scene.bill) (idle' : scene'.underway = 0) :
    B.balanced scene'.state 0 scene'.bill := by
  obtain ⟨gs, hnotes, hbalanced⟩ := B.kept leads idle balanced
  rw [idle', Multiset.rel_zero_left] at hnotes
  rwa [← hnotes]

end Books

end Client

end ShardSweep
