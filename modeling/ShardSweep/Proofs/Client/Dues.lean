import ShardSweep.Proofs.Client.Grants
import ShardSweep.Proofs.Walk.Ledger

/-!
# How the requests of a client pay

A request that obeys its contract pays what it owes to a ledger, if every step that the contract
allows does.  For a client in front of its service that leaves two kinds of steps to look at:
those that change nothing, and the one that grants the request.

* `Proc.Obeys.pays`: from a contract to a ledger;
* `Proc.Always.pays`: a request that achieves nothing;
* `Deployment.call_pays`: a request that goes to a shard.
-/

namespace ShardSweep

variable {σ γ ν M α : Type} [AddCancelCommMonoid M]

theorem Proc.Obeys.pays {C : Contract (Flagged σ) γ} {p : Proc (Flagged σ) α} {g : γ}
    {good : α → γ → Prop} (h : p.Obeys C g good) (L : Ledger σ ν M) {pre : M → Prop} (owed : γ → M)
    (inv : γ → Prop) {good' : α → M → Prop} (start : inv g)
    (assume : ∀ g s n done, inv g → L.Finds pre (owed g) s n done → C.assume g s)
    (step : ∀ g s s' g' n done, inv g → L.Finds pre (owed g) s n done → C.step g s s' g' →
      inv g' ∧ ∃ paid, owed g = paid + owed g' ∧ L.books s' n (done + paid))
    (fine : ∀ a g, inv g → good a g → good' a (owed g)) : p.Pays L pre (owed g) good' := by
  induction p generalizing g with
  | done a => exact fine a g start h
  | step change next ih =>
    intro s n done hfinds
    obtain ⟨g', hstep, hnext⟩ := h s (assume g s n done start hfinds)
    obtain ⟨hinv, paid, howed, hbooks⟩ := step g s _ g' n done start hfinds hstep
    exact ⟨paid, owed g', howed, hbooks, ih s hnext hinv⟩

/-- The flag of a walk makes no difference to a request. -/
theorem Proc.Always.withFlag {P : σ → Prop} {p : Proc σ α} {good : α → Prop}
    (h : p.Always P good) : (p.on Flagged.innerPart).Always (fun s => P s.inner) good :=
  h.on Flagged.innerPart (fun _ hs => hs) fun _ _ _ hs => hs

/-- What only keeps something, and all that the books ask of the store, pays nothing. -/
theorem Proc.Always.pays {P : Flagged σ → Prop} {p : Proc (Flagged σ) α} {good : α → Prop}
    (h : p.Always P good) (L : Ledger σ ν M) {pre : M → Prop} {due : M}
    (kept : ∀ s n done, L.books s n done → P s)
    (books : ∀ s s' n done, L.books s n done → P s' → L.books s' n done) :
    p.Pays L pre due fun a due' => good a ∧ due' = due := by
  refine Obeys.pays h L (fun _ => due) (fun _ => True) trivial ?_ ?_ ?_
  · exact fun _ s n done _ hfinds => kept s n done hfinds.books
  · intro _ s s' _ n done _ hfinds hkept
    exact ⟨trivial, 0, (zero_add _).symm, by simpa using books s s' n done hfinds.books hkept⟩
  · exact fun _ _ _ hgood => ⟨hgood, rfl⟩

namespace Deployment

/-- The client in front of the service. -/
def client (s : Flagged Deployment) : ClientState Service Link :=
  clientPart.get s.inner

variable {L : Ledger Deployment ν M} {c : Client}

/-- The steps of a request that goes to a shard: most change nothing, and one may grant it. -/
theorem call_pays {r : Request} {i : Inode} (goes : r.destination = .shardOf i) {pre : M → Prop}
    (owed : Option r.Answer → M) (inv : r.Answer → Prop)
    (calm : ∀ g s n done, L.Finds pre (owed g) s n done → L.sure → (client s).Calm c ∧
      (g = none → ∃ a, (s.inner.service.serve r).1 = .ok a))
    (idle : ∀ s s' n done, L.books s n done → s.inner.service.SameNames s'.inner.service →
      (L.sure → (client s').Calm c) → L.books s' n done)
    (grant : ∀ s s' n done a, L.Finds pre (owed none) s n done →
      (s.inner.service.serve r).1 = .ok a → (s.inner.service.serve r).2.SameNames s'.inner.service →
      (L.sure → (client s').Calm c) →
      inv a ∧ ∃ paid, owed none = paid + owed (some a) ∧ L.books s' n (done + paid)) :
    (((metadata c).on Flagged.innerPart).call r).Pays L pre (owed none)
      (L.Fine (owed none) fun a due => inv a ∧ due = owed (some a)) := by
  have hcall : (c.call Service.transport r).Obeys (c.contract L.sure r) none (Granted L.sure) :=
    Client.call_obeys goes
  refine ((hcall.on clientPart).on Flagged.innerPart).pays L owed (fun g => ∀ a, g = some a → inv a)
    (fun a ha => nomatch ha) ?_ ?_ ?_
  · intro g s n done _ hfinds
    exact calm g s n done hfinds
  · intro g s s' g' n done hinv hfinds h
    obtain ⟨⟨⟨hmoves, hcalm⟩, -⟩, -⟩ := h
    rcases hmoves with ⟨hsame⟩ | ⟨hgranted, hafter⟩
    · exact ⟨hinv, 0, (zero_add _).symm, by simpa using idle s s' n done hfinds.books hsame hcalm⟩
    · obtain ⟨ha, paid, howed, hbooks⟩ := grant s s' n done _ hfinds hgranted hafter hcalm
      refine ⟨?_, paid, howed, hbooks⟩
      intro b hb
      obtain rfl := Option.some.inj hb
      exact ha
  · intro r g hinv hgood
    rcases r with e | a
    · obtain ⟨hsure, rfl⟩ := hgood
      exact ⟨hsure, rfl⟩
    · obtain rfl : g = some a := hgood
      exact ⟨hinv a rfl, rfl⟩

end Deployment

end ShardSweep
