import Mathlib.Algebra.BigOperators.Group.Multiset.Basic
import ShardSweep.Proofs.Client.Business
import ShardSweep.Proofs.Client.Watch

/-!
# A lost connection is lost for good

A connection is idle, or some request has it, or it is gone, and no two requests have the same one.
A request on which the transport fails does not bring its connection back.  So nothing is ever
called again over a connection on which a request was lost.

* `Wire.Lines`: where the connections are;
* `Client.never_again`: nothing goes over a lost connection, whatever is under way.
-/

namespace ShardSweep

variable {τ κ : Type}

namespace Wire

/-- In how many places a connection is, with requests under way that have come so far. -/
def held (w : Wire (Watched τ) (Line κ)) (ts : Multiset Trip) (n : Nat) : Nat :=
  (w.idle.map (·.2.number)).count n + (ts.map Trip.line).count (some n)

/-- Where the connections are. -/
structure Lines (w : Wire (Watched τ) (Line κ)) (ts : Multiset Trip) : Prop where
  once : ∀ n, w.held ts n ≤ 1
  known : ∀ n, 0 < w.held ts n → n < w.seen.length
  gone : ∀ n, .lost n ∈ w.seen → w.held ts n = 0 ∧ n < w.seen.length
  /-- Nothing was called over a connection after it was lost. -/
  parted : w.seen.Pairwise fun later earlier =>
    ∀ n e r, earlier = .lost n → later ≠ .call n e r

variable {w w' : Wire (Watched τ) (Line κ)} {ts : Multiset Trip} {t t' : Trip}
  {endpoint : Endpoint} {r : Request}

private theorem held_cons (w : Wire (Watched τ) (Line κ)) (t : Trip) (ts : Multiset Trip)
    (n : Nat) : w.held (t ::ₘ ts) n = w.held ts n + if t.line = some n then 1 else 0 := by
  simp [held, Multiset.count_cons, add_assoc, eq_comm]

/-- Who has less has it in the same places. -/
private theorem Lines.mono {ts' : Multiset Trip} (lines : w.Lines ts) (seen : w'.seen = w.seen)
    (le : ∀ n, w'.held ts' n ≤ w.held ts n) : w'.Lines ts' where
  once n := (le n).trans (lines.once n)
  known n h := seen ▸ lines.known n (h.trans_le (le n))
  gone n h := by
    obtain ⟨hnowhere, hknown⟩ := lines.gone n (seen ▸ h)
    exact ⟨Nat.le_zero.mp (hnowhere ▸ le n), seen ▸ hknown⟩
  parted := seen ▸ lines.parted

/-- With each step the connections remain in their places, or move to another one. -/
theorem Lines.goes (lines : w.Lines (t ::ₘ ts)) (goes : Trip.Goes endpoint r t w w' t') :
    w'.Lines (t' ::ₘ ts) := by
  have hsame : w'.idle = w.idle → ∀ n, w'.held ts n = w.held ts n := by
    intro hidle n
    rw [held, held, hidle]
  cases goes with
  | rest idle seen =>
    refine lines.mono seen fun n => ?_
    rw [held_cons, held_cons, hsame idle]
  | @lend line idle seen free =>
    refine lines.mono seen fun n => ?_
    have hidle := (idle.map (·.2.number)).count_eq n
    rw [List.map_cons, List.count_cons] at hidle
    rw [held_cons, held_cons, held, held, hidle, free]
    simp only [Option.some.injEq, beq_iff_eq, reduceCtorEq, if_false]
    split <;> omega
  | @dial idle seen free =>
    -- The new connection has a number that none had before.
    have hheld : ∀ n, w'.held (⟨some w.seen.length, .dial w.seen.length endpoint :: t.seen⟩ ::ₘ ts)
        n = w.held (t ::ₘ ts) n + if w.seen.length = n then 1 else 0 := by
      intro n
      rw [held_cons, held_cons, hsame idle, free]
      simp
    have hfresh : w.held (t ::ₘ ts) w.seen.length = 0 :=
      Nat.eq_zero_of_not_pos fun h => Nat.lt_irrefl _ (lines.known _ h)
    refine ⟨fun n => ?_, fun n h => ?_, fun n h => ?_, ?_⟩
    · rw [hheld]
      split
      · next hn => rw [← hn, hfresh]
      · exact lines.once n
    · rw [hheld] at h
      rw [seen, List.length_cons]
      split at h
      · omega
      · exact Nat.lt_succ_of_lt (lines.known n h)
    · obtain ⟨hnowhere, hknown⟩ := lines.gone n (by simpa [seen] using h)
      rw [hheld, hnowhere, seen, List.length_cons, if_neg (Nat.ne_of_gt hknown)]
      exact ⟨rfl, Nat.lt_succ_of_lt hknown⟩
    · rw [seen]
      exact lines.parted.cons fun _ _ _ _ _ _ => nofun
  | drop idle seen =>
    refine lines.mono seen fun n => ?_
    rw [held_cons, held_cons, hsame idle]
    simp
  | @call m idle seen held =>
    have hheld : ∀ n, w'.held ({ t with seen := .call m endpoint r :: t.seen } ::ₘ ts) n =
        w.held (t ::ₘ ts) n := by
      intro n
      rw [held_cons, held_cons, hsame idle]
    refine ⟨fun n => ?_, fun n h => ?_, fun n h => ?_, ?_⟩
    · exact hheld n ▸ lines.once n
    · rw [seen, List.length_cons]
      exact Nat.lt_succ_of_lt (lines.known n (hheld n ▸ h))
    · obtain ⟨hnowhere, hknown⟩ := lines.gone n (by simpa [seen] using h)
      rw [hheld, seen, List.length_cons]
      exact ⟨hnowhere, Nat.lt_succ_of_lt hknown⟩
    · -- A connection that is in use was not lost before.
      rw [seen]
      refine lines.parted.cons fun earlier hearlier n e r' hlost hcall => ?_
      cases hcall
      have hnowhere := (lines.gone m (hlost ▸ hearlier)).1
      rw [held_cons, held, if_pos rfl] at hnowhere
      omega
  | @lose m idle seen held =>
    have hheld : ∀ n, w'.held (⟨none, .lost m :: t.seen⟩ ::ₘ ts) n +
        (if m = n then 1 else 0) = w.held (t ::ₘ ts) n := by
      intro n
      rw [held_cons, held_cons, hsame idle, held]
      simp
    refine ⟨fun n => ?_, fun n h => ?_, fun n h => ?_, ?_⟩
    · exact (Nat.le_add_right _ _).trans (hheld n ▸ lines.once n)
    · rw [seen, List.length_cons]
      exact Nat.lt_succ_of_lt (lines.known n (hheld n ▸ Nat.add_pos_left h _))
    · have hn := hheld n
      rw [seen, List.length_cons]
      rcases List.mem_cons.mp (seen ▸ h) with hlost | hlost
      · cases hlost
        have honce := lines.once m
        have hknown := lines.known m
        rw [if_pos rfl] at hn
        exact ⟨by omega, by omega⟩
      · obtain ⟨hnowhere, hknown⟩ := lines.gone n hlost
        exact ⟨by omega, by omega⟩
    · rw [seen]
      exact lines.parted.cons fun _ _ _ _ _ _ => nofun
  | @putBack line idle seen held place =>
    refine lines.mono seen fun n => ?_
    rw [held_cons, held_cons, Wire.held, Wire.held, idle, held, List.map_cons, List.count_cons]
    simp only [Option.some.injEq, beq_iff_eq, reduceCtorEq, if_false]
    split <;> omega

end Wire

namespace Client

/-- A step of a request, wherever it is sent. -/
def handling : Contract (ClientState (Watched τ) (Line κ)) Trip where
  assume _ st := st.wire.InPlace
  step t st st' t' :=
    (st'.wire.idle = st.wire.idle ∧ st'.wire.seen = st.wire.seen ∧ t' = t) ∨
      ∃ endpoint r, Trip.Goes endpoint r t st.wire st'.wire t'

private theorem invoke_handles (transport : Transport τ κ) (settings : RpcSettings)
    (endpoints : List Endpoint) (r : Request) :
    ((Wire.invoke transport.watch settings endpoints r).on ClientState.wirePart).Obeys handling
      ⟨none, []⟩ fun _ t => t.line = none := by
  cases endpoints with
  | nil =>
    refine fun st _ => ⟨_, .inl ⟨rfl, rfl, rfl⟩, fun st _ => ⟨_, .inl ⟨rfl, rfl, rfl⟩, rfl⟩⟩
  | cons endpoint rest =>
    have htrips : (Wire.invoke transport.watch settings (endpoint :: rest) r).Obeys
        (Trip.contract (τ := τ) (κ := κ) endpoint r) ⟨none, []⟩ fun _ t' => t'.Over :=
      Wire.invoke_trips settings rest rfl
    refine (htrips.on ClientState.wirePart).refine Eq rfl ?_ ?_ ?_
    · rintro t _ st rfl hinPlace
      exact hinPlace
    · rintro t _ st st' t' rfl - ⟨hgoes, -⟩
      exact ⟨t', .inr ⟨endpoint, r, hgoes⟩, rfl⟩
    · rintro outcome t _ rfl hover
      exact hover.1

variable {transport : Transport τ κ} {c : Client}

/-- The connections of a client, and of the requests under way. -/
def lines (transport : Transport τ κ) (c : Client) :
    Books transport.watch c (fun watched watched' => watched'.seen = watched.seen) Trip where
  contract := handling
  blank := ⟨none, []⟩
  due _ _ t := t.line = none
  balanced st ts _ := st.wire.InPlace ∧ st.wire.Lines ts
  due_blank := rfl
  looks _ _ := .inl ⟨rfl, rfl, rfl⟩
  invokes := invoke_handles transport c.rpc
  begins h := ⟨h.1, h.2.mono rfl fun n => by simp [Wire.held_cons]⟩
  assumes h := h.1
  steps := by
    rintro st t ts bill st' t' ⟨hinPlace, hlines⟩ (⟨hidle, hseen, rfl⟩ | ⟨endpoint, r, hgoes⟩)
    · refine ⟨?_, hlines.mono hseen fun n => ?_⟩
      · unfold Wire.InPlace
        rwa [hidle]
      · rw [Wire.held, Wire.held, hidle]
    · exact ⟨hgoes.inPlace hinPlace, hlines.goes hgoes⟩
  ends h due := ⟨h.1, h.2.mono rfl fun n => by simp [Wire.held_cons, due]⟩
  keeps h _ _ := h
  asides := by
    rintro st ts bill net ⟨hinPlace, hlines⟩ hsame
    exact ⟨hinPlace, hlines.mono hsame fun _ => Nat.le_refl _⟩

/-- Nothing goes over a connection that was lost, whatever requests are under way. -/
theorem never_again {net : τ} {scene : Scene (Watched τ) (Line κ)}
    (leads : Leads transport.watch c (fun watched watched' => watched'.seen = watched.seen)
      ⟨.fresh ⟨net, []⟩, 0, ⟨0, 0⟩⟩ scene) {later earlier : List Sighting} {n : Nat}
    (lost : scene.state.wire.seen = later ++ .lost n :: earlier) (endpoint : Endpoint)
    (r : Request) : .call n endpoint r ∉ later := by
  have hstart : (lines transport c).balanced (.fresh ⟨net, []⟩) 0 ⟨0, 0⟩ :=
    ⟨nofun, fun _ => Nat.zero_le _, nofun, nofun, .nil⟩
  obtain ⟨ts, -, -, hlines⟩ := (lines transport c).kept leads rfl hstart
  have hparted := hlines.parted
  rw [lost, List.pairwise_append] at hparted
  exact fun hcall => hparted.2.2 _ hcall _ List.mem_cons_self n endpoint r rfl rfl

end Client

end ShardSweep
