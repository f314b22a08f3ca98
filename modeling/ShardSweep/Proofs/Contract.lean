import ShardSweep.Proc

/-!
# Contracts of procedures

A `Contract` says what each step of a procedure may count on and what it may do.  Between two
steps others act, so every step finds a store that meets the assumption anew.  What has been
done so far is kept by a ghost value.

* `Proc.Obeys.bind`: procedures are put together, and their contracts with them;
* `Proc.Obeys.run`: a procedure with nobody else around;
* `Proc.Obeys.refine`: from what the steps do to what is to be known of them;
* `Proc.Obeys.on`: a procedure for a part of a store, as one for the whole;
* `Proc.Always`: a procedure among others that keep something.
-/

namespace ShardSweep

variable {σ τ γ α β : Type}

/-- What the steps of a procedure may assume and do. -/
structure Contract (σ γ : Type) where
  assume : γ → σ → Prop
  step : γ → σ → σ → γ → Prop

namespace Proc

/-- Each step does what the contract allows, and the result is good. -/
def Obeys (C : Contract σ γ) : Proc σ α → γ → (α → γ → Prop) → Prop
  | .done a, g, good => good a g
  | .step change next, g, good => ∀ s, C.assume g s →
    ∃ g', C.step g s (change s) g' ∧ (next s).Obeys C g' good

namespace Obeys

variable {C : Contract σ γ} {g : γ}

/-- More may be allowed of the outcome. -/
theorem mono {p : Proc σ α} {good good' : α → γ → Prop} (h : p.Obeys C g good)
    (weaker : ∀ a g, good a g → good' a g) : p.Obeys C g good' := by
  induction p generalizing g with
  | done a => exact weaker a g h
  | step change next ih =>
    intro s hs
    obtain ⟨g', hstep, hnext⟩ := h s hs
    exact ⟨g', hstep, ih s hnext⟩

/-- One procedure goes on where the other has ended. -/
theorem bind {p : Proc σ α} {k : α → Proc σ β} {mid : α → γ → Prop} {good : β → γ → Prop}
    (h : p.Obeys C g mid) (next : ∀ a g', mid a g' → (k a).Obeys C g' good) :
    (p >>= k).Obeys C g good := by
  change (p.bind k).Obeys C g good
  induction p generalizing g with
  | done a => exact next a g h
  | step change rest ih =>
    intro s hs
    obtain ⟨g', hstep, hrest⟩ := h s hs
    exact ⟨g', hstep, ih s hrest⟩

/-- A single step keeps the contract if it does so in every state that may be met. -/
theorem atomic {f : σ → α × σ} {good : α → γ → Prop}
    (h : ∀ s, C.assume g s → ∃ g', C.step g s (f s).2 g' ∧ good (f s).1 g') :
    (Proc.atomic f).Obeys C g good :=
  h

/-- Looking is a step that changes nothing. -/
theorem read {f : σ → α} {good : α → γ → Prop}
    (h : ∀ s, C.assume g s → C.step g s s g ∧ good (f s) g) :
    (Proc.read f).Obeys C g good :=
  fun s hs => ⟨g, h s hs⟩

/-- A change is a step that looks at nothing. -/
theorem modify {f : σ → σ} (h : ∀ s, C.assume g s → C.step g s (f s) g) :
    (Proc.modify f).Obeys C g fun _ g' => g' = g :=
  fun s hs => ⟨g, h s hs, rfl⟩

/-- With nobody else around the result is good, if what the contract assumes is there at the start
and every step keeps it. -/
theorem run {p : Proc σ α} {good : α → γ → Prop} (h : p.Obeys C g good) (inv : γ → σ → Prop)
    (assume : ∀ g s, inv g s → C.assume g s)
    (keeps : ∀ g s s' g', inv g s → C.step g s s' g' → inv g' s') {s : σ} (start : inv g s) :
    ∃ g', good (p.run s).1 g' ∧ inv g' (p.run s).2 := by
  induction p generalizing g s with
  | done a => exact ⟨g, h, start⟩
  | step change next ih =>
    obtain ⟨g', hstep, hnext⟩ := h s (assume g s start)
    exact ih s hnext (keeps g s _ g' start hstep)

/-- A contract that says less, about a ghost value that follows the first one. -/
theorem refine {δ : Type} {D : Contract σ δ} {d : δ} {p : Proc σ α} {good : α → γ → Prop}
    {good' : α → δ → Prop} (h : p.Obeys C g good) (follows : γ → δ → Prop) (start : follows g d)
    (assume : ∀ g d s, follows g d → D.assume d s → C.assume g s)
    (step : ∀ g d s s' g', follows g d → D.assume d s → C.step g s s' g' →
      ∃ d', D.step d s s' d' ∧ follows g' d')
    (fine : ∀ a g d, follows g d → good a g → good' a d) : p.Obeys D d good' := by
  induction p generalizing g d with
  | done a => exact fine a g d start h
  | step change next ih =>
    intro s hs
    obtain ⟨g', hstep, hnext⟩ := h s (assume g d s start hs)
    obtain ⟨d', hstep', hfollows⟩ := step g d s _ g' start hs hstep
    exact ⟨d', hstep', ih s hnext hfollows⟩

end Obeys

section On

variable (part : Part τ σ)

/-- To act on a part one after the other is to act on it in one go. -/
theorem on_bind (p : Proc σ α) (k : α → Proc σ β) :
    (p >>= k).on part = p.on part >>= fun a => (k a).on part := by
  change (p.bind k).on part = (p.on part).bind fun a => (k a).on part
  induction p with
  | done a => rfl
  | step change next ih => exact congrArg (Proc.step _) (funext fun t => ih (part.get t))

/-- A step on a part is a single step. -/
theorem on_atomic (f : σ → α × σ) :
    (Proc.atomic f).on part = Proc.atomic fun t =>
      ((f (part.get t)).1, part.set (f (part.get t)).2 t) := rfl

end On

end Proc

/-- The contract for a part, for those who have the whole: nothing else changes. -/
def Contract.on (C : Contract σ γ) (part : Proc.Part τ σ) : Contract τ γ where
  assume g t := C.assume g (part.get t)
  step g t t' g' := C.step g (part.get t) (part.get t') g' ∧ t' = part.set (part.get t') t

/-- What is obeyed in a part is obeyed in the whole. -/
theorem Proc.Obeys.on {C : Contract σ γ} {p : Proc σ α} {g : γ} {good : α → γ → Prop}
    (h : p.Obeys C g good) (part : Proc.Part τ σ) : (p.on part).Obeys (C.on part) g good := by
  induction p generalizing g with
  | done a => exact h
  | step change next ih =>
    intro t ht
    obtain ⟨g', hstep, hnext⟩ := h (part.get t) ht
    refine ⟨g', ⟨?_, ?_⟩, ih _ hnext⟩
    · rwa [part.get_set]
    · rw [part.get_set]

/-- Something is kept, and nothing else is promised. -/
def Contract.keeping (P : σ → Prop) : Contract σ Unit where
  assume _ := P
  step _ _ s' _ := P s'

namespace Proc

/-- As long as others keep `P` so do all steps, and the result is good. -/
def Always (P : σ → Prop) (good : α → Prop) (p : Proc σ α) : Prop :=
  p.Obeys (.keeping P) () fun a _ => good a

namespace Always

variable {P : σ → Prop} {good : α → Prop} {p : Proc σ α}

/-- More may be allowed of what always comes out. -/
theorem mono {good' : α → Prop} (h : p.Always P good) (weaker : ∀ a, good a → good' a) :
    p.Always P good' :=
  Obeys.mono h fun a _ => weaker a

/-- One after the other. -/
theorem bind {k : α → Proc σ β} {good' : β → Prop} (h : p.Always P good)
    (next : ∀ a, good a → (k a).Always P good') : (p >>= k).Always P good' :=
  Obeys.bind h fun a _ => next a

/-- With nobody else around. -/
theorem run (h : p.Always P good) {s : σ} (hs : P s) : good (p.run s).1 ∧ P (p.run s).2 := by
  obtain ⟨-, hgood, hend⟩ := Obeys.run h (fun _ => P) (fun _ _ h => h) (fun _ _ _ _ _ h => h) hs
  exact ⟨hgood, hend⟩

/-- The same for those who have more. -/
theorem on {Q : τ → Prop} (h : p.Always P good) (part : Part τ σ) (get : ∀ t, Q t → P (part.get t))
    (set : ∀ t s, Q t → P s → Q (part.set s t)) : (p.on part).Always Q good := by
  refine (Obeys.on h part).refine (fun _ _ => True) trivial ?_ ?_ ?_
  · exact fun _ _ t _ ht => get t ht
  · rintro _ _ t t' _ - ht ⟨hstep, ht'⟩
    exact ⟨(), by rw [ht']; exact set t _ ht hstep, trivial⟩
  · exact fun a _ _ _ hgood => hgood

end Always

end Proc

end ShardSweep
