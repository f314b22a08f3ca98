import ShardSweep.Sweep.Usage

/-!
# Sweeps that have enough moves

A sweep that runs walks is given a number of moves.  Once they are enough for it to come to its
outcome, more of them change nothing.

* `Sweep.Settles`: what a sweep comes to with enough moves;
* `Sweep.eachOf`: the same for each of some things, until it fails for one;
* `Sweep.eachOf_congr`: two ways of doing something that agree where it is done;
* `Sweep.settles_eachOf`: it fails for none;
* `Sweep.settles_eachOf_fails`: it fails for one, and whatever comes later does not matter.
-/

namespace ShardSweep.Sweep

variable {σ ι α β : Type}

/-- With enough moves a sweep comes to this outcome, in this state. -/
def Settles (x : Nat → Sweep σ α) (s : σ) (outcome : Outcome α) (s' : σ) : Prop :=
  ∃ bound, ∀ budget, bound ≤ budget → x budget s = (some outcome, s')

namespace Settles

variable {x : Nat → Sweep σ α} {s s' s'' : σ} {a : α} {h : Halt} {outcome outcome' : Outcome α}

theorem unique (settles : Settles x s outcome s') (settles' : Settles x s outcome' s'') :
    outcome = outcome' ∧ s' = s'' := by
  obtain ⟨bound, hbound⟩ := settles
  obtain ⟨bound', hbound'⟩ := settles'
  have hboth := (hbound _ (Nat.le_max_left bound bound')).symm.trans
    (hbound' _ (Nat.le_max_right bound bound'))
  exact ⟨Option.some.inj (Prod.mk.inj hboth).1, (Prod.mk.inj hboth).2⟩

theorem exists_iff (settles : Settles x s outcome s') (other : Outcome α) :
    (∃ last, Settles x s other last) ↔ other = outcome :=
  ⟨fun ⟨_, h⟩ => (h.unique settles).1, fun h => ⟨s', h ▸ settles⟩⟩

/-- Only the state counts in which a sweep begins. -/
theorem congr {y : Nat → Sweep σ α} (settles : Settles x s outcome s')
    (same : ∀ budget, y budget s = x budget s) : Settles y s outcome s' := by
  obtain ⟨bound, hbound⟩ := settles
  exact ⟨bound, fun budget hbudget => (same budget).trans (hbound budget hbudget)⟩

/-- A sweep that needs no moves. -/
theorem const {y : Sweep σ α} (done : y s = (some outcome, s')) :
    Settles (fun _ => y) s outcome s' :=
  ⟨0, fun _ _ => done⟩

theorem bind {k : Nat → α → Sweep σ β} {outcome : Outcome β} (first : Settles x s (.ok a) s')
    (next : Settles (fun budget => k budget a) s' outcome s'') :
    Settles (fun budget => x budget >>= k budget) s outcome s'' := by
  obtain ⟨bound, hbound⟩ := first
  obtain ⟨bound', hbound'⟩ := next
  refine ⟨max bound bound', fun budget hbudget => ?_⟩
  obtain ⟨hfirst, hnext⟩ := Nat.max_le.mp hbudget
  exact (bind_eq_of_ok (hbound budget hfirst) _).trans (hbound' budget hnext)

theorem bind_error (failed : Settles x s (.error h) s') (k : Nat → α → Sweep σ β) :
    Settles (fun budget => x budget >>= k budget) s (.error h) s' := by
  obtain ⟨bound, hbound⟩ := failed
  exact ⟨bound, fun budget hbudget => bind_eq_of_error (hbound budget hbudget) _⟩

end Settles

/-- Two sweeps that begin with the same, and go on with the same where they go on. -/
theorem bind_congr {x y : Sweep σ α} {k l : α → Sweep σ β} {s : σ}
    (first : x s = y s) (next : ∀ a s', x s = (some (.ok a), s') → k a s' = l a s') :
    (x >>= k) s = (y >>= l) s := by
  rw [bind_apply, bind_apply, ← first]
  rcases hx : x s with ⟨_ | h | a, s'⟩
  · rfl
  · rfl
  · exact next a s' hx

/-- Do the same for each of some things, until it fails for one. -/
def eachOf (x : ι → Sweep σ β) : List ι → Sweep σ (List (ι × β))
  | [] => pure []
  | i :: rest => do
    let b ← x i
    let others ← eachOf x rest
    pure ((i, b) :: others)

/-- Two ways of doing something that agree where it is done. -/
theorem eachOf_congr {x y : ι → Sweep σ β} {P : σ → Prop} {items : List ι} {s : σ} (start : P s)
    (same : ∀ i ∈ items, ∀ s, P s → x i s = y i s)
    (keeps : ∀ i ∈ items, ∀ s b s', P s → x i s = (some (.ok b), s') → P s') :
    eachOf x items s = eachOf y items s := by
  induction items generalizing s with
  | nil => rfl
  | cons i rest ih =>
    obtain ⟨hsame, hsames⟩ := List.forall_mem_cons.mp same
    obtain ⟨hkeeps, hkeep⟩ := List.forall_mem_cons.mp keeps
    refine bind_congr (hsame s start) fun b s' hb => ?_
    exact bind_congr (ih (hkeeps s b s' start hb) hsames hkeep) fun _ _ _ => rfl

theorem eachOf_append (x : ι → Sweep σ β) (first second : List ι) :
    eachOf x (first ++ second) = (do
      let us ← eachOf x first
      let vs ← eachOf x second
      pure (us ++ vs)) := by
  induction first with
  | nil => simp [eachOf]
  | cons i rest ih => simp [eachOf, ih]

variable {x : Nat → ι → Sweep σ β} {P : σ → Prop} {done : List (ι × β)} {s : σ}

/-- It fails for none. -/
theorem settles_eachOf (start : P s) (steps : ∀ u ∈ done, ∀ s, P s →
      ∃ s', Settles (fun budget => x budget u.1) s (.ok u.2) s' ∧ P s') :
    ∃ s', Settles (fun budget => eachOf (x budget) (done.map Prod.fst)) s (.ok done) s' ∧ P s' := by
  induction done generalizing s with
  | nil => exact ⟨s, .const rfl, start⟩
  | cons u rest ih =>
    obtain ⟨hfirst, hothers⟩ := List.forall_mem_cons.mp steps
    obtain ⟨mid, hmid, hP⟩ := hfirst s start
    obtain ⟨last, hlast, hP'⟩ := ih hP hothers
    exact ⟨last, hmid.bind (hlast.bind (.const rfl)), hP'⟩

/-- It fails for one, and whatever comes later does not matter. -/
theorem settles_eachOf_fails {mid s' : σ} {i : ι} {h : Halt}
    (before : Settles (fun budget => eachOf (x budget) (done.map Prod.fst)) s (.ok done) mid)
    (failed : Settles (fun budget => x budget i) mid (.error h) s') (later : List ι) :
    Settles (fun budget => eachOf (x budget) (done.map Prod.fst ++ i :: later)) s (.error h)
      s' := by
  have hrest : Settles (fun budget => eachOf (x budget) (i :: later)) mid (.error h) s' :=
    failed.bind_error fun budget b => eachOf (x budget) later >>= fun others =>
      pure ((i, b) :: others)
  have hboth := before.bind (k := fun budget us => eachOf (x budget) (i :: later) >>= fun vs =>
    pure (us ++ vs)) (hrest.bind_error fun _ vs => pure (done ++ vs))
  exact hboth.congr fun budget => congrFun (eachOf_append ..) s

end ShardSweep.Sweep
