import ShardSweep.Proofs.Client.Stages

/-!
# A client in use

`Client.Reached` are the states that a client and its service can come to: requests begin at any
moment and take their steps in any order, and the service changes in any way in between.

A connection on which nothing can be carried is found out by the first request that borrows it,
and is given up then.  So none of them is ever idle.

* `Wire.Whole`: every idle connection can be used;
* `Client.Reached.whole`: it is so at all times.
-/

namespace ShardSweep

/-- Every idle connection can be used. -/
def Wire.Whole (w : Wire Service Link) : Prop :=
  ∀ entry ∈ w.pooled.pool.idle, entry.2.broken = false

/-- The same client with its service in another state. -/
def ClientState.facing (st : ClientState Service Link) (s : Service) : ClientState Service Link :=
  { st with wire := st.wire.reaching s }

namespace Client

/-- What a client and its service can come to, and what the requests under way are about to do. -/
inductive Reached (c : Client) :
    ClientState Service Link → List (Proc (ClientState Service Link) Unit) → Prop
  | fresh (s : Service) : Reached c (.fresh s) []
  | begin {st ps} (reached : Reached c st ps) (r : Request) :
      Reached c st ((do let _ ← c.call Service.transport r) :: ps)
  | prepare {st ps} (reached : Reached c st ps) (fs : FsId) :
      Reached c st ((do let _ ← c.prepare fs) :: ps)
  | step {st before after change next}
      (reached : Reached c st (before ++ .step change next :: after)) :
      Reached c (change st) (before ++ next st :: after)
  | forget {st ps} (reached : Reached c st ps) (f : FsCache → FsCache) :
      Reached c { st with cache := f st.cache } ps
  | service {st ps} (reached : Reached c st ps) (f : Service → Service) :
      Reached c (st.facing (f st.wire.pooled.net)) ps

/-- Whoever finds every idle connection in order leaves it so. -/
def tidy : Contract (ClientState Service Link) Unit where
  assume _ st := st.wire.Whole
  step _ _ st' _ := st'.wire.Whole

variable {c : Client} {r : Request} {α : Type}

/-- What a request knows of the connection it is about to bring back. -/
private def Knows : Stage r → Prop
  | .listed _ link delivery | .carried _ link delivery =>
    ∀ reply, delivery = .ok reply → link.broken = false
  | _ => True

/-- A step of an attempt leaves no broken link behind. -/
private theorem goes_tidy {timeout : Duration} {endpoint : Endpoint} {most : Nat}
    {st : ClientState Service Link} {w : Wire Service Link} {stage stage' : Stage r}
    (knows : Knows stage) (whole : st.wire.Whole)
    (goes : stage.Goes timeout endpoint most r st.wire w stage') :
    w.Whole ∧ Knows stage' := by
  obtain ⟨w₀, active, cache⟩ := st
  cases goes with
  | lend found =>
    exact ⟨fun entry hentry => whole entry ((Pool.of_lend found).2 entry hentry), trivial⟩
  | list | send => exact ⟨whole, fun reply hreply => Service.unbroken_of_receive hreply⟩
  | leave => exact ⟨whole, knows⟩
  | putBack =>
    refine ⟨fun entry hentry => ?_, trivial⟩
    rcases List.mem_cons.mp hentry with rfl | hentry
    · exact knows _ rfl
    · exact whole entry hentry
  | _ => exact ⟨whole, trivial⟩

/-- So do all attempts. -/
private theorem invoke_tidy (settings : RpcSettings) (endpoints : List Endpoint) (r : Request) :
    ((Wire.invoke Service.transport settings endpoints r).on ClientState.wirePart).Obeys tidy ()
      fun _ _ => True := by
  refine fun st hst => ⟨(), hst, ?_⟩
  cases endpoints with
  | nil => exact fun st hst => ⟨(), hst, trivial⟩
  | cons endpoint rest =>
    refine ((Wire.attempts_obeys _ rfl).on ClientState.wirePart).refine (fun stage _ => Knows stage)
      trivial ?_ ?_ ?_
    · exact fun _ _ _ _ _ => trivial
    · rintro stage _ st st' stage' hknows hwhole ⟨hgoes, hst'⟩
      rw [hst']
      obtain ⟨hwhole', hknows'⟩ := goes_tidy hknows hwhole hgoes
      exact ⟨(), hwhole', hknows'⟩
    · exact fun _ _ _ _ _ => trivial

private theorem read_tidy (f : ClientState Service Link → α) :
    (Proc.read f).Obeys tidy () fun _ _ => True :=
  .read fun _ hst => ⟨hst, trivial⟩

/-- So does sending a request. -/
private theorem send_tidy (c : Client) (r : Request) :
    (c.send Service.transport r).Obeys tidy () fun _ _ => True := by
  refine (read_tidy _).bind ?_
  rintro (e | endpoints) _ -
  · trivial
  · refine (invoke_tidy c.rpc endpoints r).bind ?_
    rintro (e | answer) _ -
    · trivial
    · trivial

private theorem remember_tidy (infos : List FsInfo) :
    (remember infos : Proc (ClientState Service Link) Unit).Obeys tidy () fun _ _ => True :=
  fun _ hst => ⟨(), hst, trivial⟩

/-- So does a call. -/
private theorem call_tidy (c : Client) (r : Request) :
    (c.call Service.transport r).Obeys tidy () fun _ _ => True := by
  cases r with
  | getFsInfo fs =>
    refine (read_tidy _).bind ?_
    rintro (_ | info) _ -
    · refine (send_tidy c (.getFsInfo fs)).bind ?_
      rintro (h | info) _ -
      · trivial
      · exact (remember_tidy [info]).bind fun _ _ _ => trivial
    · trivial
  | listFsInfo =>
    refine (send_tidy c .listFsInfo).bind ?_
    rintro (h | infos) _ -
    · trivial
    · exact (remember_tidy infos).bind fun _ _ _ => trivial
  | _ => exact send_tidy c _

/-- So does getting ready. -/
private theorem prepare_tidy (c : Client) (fs : FsId) :
    (c.prepare fs).Obeys tidy () fun _ _ => True := by
  refine Proc.Obeys.atomic fun st hst => ⟨(), ?_, trivial⟩
  cases c.shards.ready fs <;> exact hst

/-- No connection is idle that cannot be used, whatever the requests under way are doing. -/
theorem Reached.whole {st : ClientState Service Link}
    {ps : List (Proc (ClientState Service Link) Unit)} (reached : c.Reached st ps) :
    st.wire.Whole := by
  suffices h : st.wire.Whole ∧ ∀ p ∈ ps, p.Obeys tidy () fun _ _ => True from h.1
  have hstart : ∀ {α : Type} {p : Proc (ClientState Service Link) α},
      p.Obeys tidy () (fun _ _ => True) →
      (do let _ ← p : Proc (ClientState Service Link) Unit).Obeys tidy () fun _ _ => True :=
    fun h => h.bind fun _ _ _ => trivial
  induction reached with
  | fresh s => exact ⟨by simp [Wire.Whole, ClientState.fresh, Wire.fresh, Pool.empty], by simp⟩
  | begin _ r ih =>
    refine ⟨ih.1, fun p hp => ?_⟩
    rcases List.mem_cons.mp hp with rfl | hp
    · exact hstart (call_tidy c r)
    · exact ih.2 p hp
  | prepare _ fs ih =>
    refine ⟨ih.1, fun p hp => ?_⟩
    rcases List.mem_cons.mp hp with rfl | hp
    · exact hstart (prepare_tidy c fs)
    · exact ih.2 p hp
  | @step st before after change next _ ih =>
    obtain ⟨hwhole, hall⟩ := ih
    obtain ⟨_, hwhole', hnext⟩ := hall (.step change next) (by simp) st hwhole
    refine ⟨hwhole', fun p hp => ?_⟩
    rcases List.mem_append.mp hp with hp | hp
    · exact hall p (List.mem_append_left _ hp)
    · rcases List.mem_cons.mp hp with rfl | hp
      · exact hnext
      · exact hall p (List.mem_append_right _ (List.mem_cons_of_mem _ hp))
  | forget _ f ih => exact ih
  | service _ f ih => exact ih

end Client

end ShardSweep
