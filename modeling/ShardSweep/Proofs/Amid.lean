import Mathlib.Logic.Relation
import ShardSweep.Proofs.Contract

/-!
# Procedures amid others

A procedure finds the store at each of its steps, and what others do in between it finds done.
`Proc.Amid` is one course of a procedure from its first to its last step, with the stores that its
steps found.  A procedure that keeps a contract keeps it in every course.

* `Proc.exists_amid_run`: with nobody else around there is one course;
* `Proc.Amid.of_bind`: a course of two procedures, one after the other;
* `Proc.Obeys.amid`: what a contract says of a whole course.
-/

namespace ShardSweep.Proc

variable {σ α β γ : Type} {others : σ → σ → Prop}

/-- A course of a procedure, with the stores that its steps found, its result and what it left. -/
inductive Amid (others : σ → σ → Prop) : Proc σ α → σ → List σ → α → σ → Prop
  | done {a s} : Amid others (.done a) s [] a s
  | step {change next s found a s'} (rest : Amid others (next s) (change s) found a s') :
      Amid others (.step change next) s (s :: found) a s'
  | others {p s s₁ found a s'} (turn : others s s₁) (rest : Amid others p s₁ found a s') :
      Amid others p s found a s'

/-- With nobody else around. -/
theorem exists_amid_run (p : Proc σ α) (s : σ) :
    ∃ found, p.Amid others s found (p.run s).1 (p.run s).2 := by
  induction p generalizing s with
  | done a => exact ⟨[], .done⟩
  | step change next ih =>
    obtain ⟨found, hrest⟩ := ih s (change s)
    exact ⟨s :: found, .step hrest⟩

namespace Amid

variable {p : Proc σ α} {k : α → Proc σ β} {s s' : σ} {found : List σ} {a : α} {b : β}

/-- One procedure after another: the second begins where the first has ended. -/
theorem of_bind (h : (p >>= k).Amid others s found b s') :
    ∃ a mid front back, p.Amid others s front a mid ∧ (k a).Amid others mid back b s' ∧
      found = front ++ back := by
  change (p.bind k).Amid others s found b s' at h
  generalize hq : p.bind k = q at h
  induction h generalizing p with
  | @done b s =>
    cases p with
    | done a => exact ⟨a, s, [], [], .done, (show k a = .done b from hq) ▸ .done, rfl⟩
    | step change next => cases hq
  | @step change next s found b s' rest ih =>
    cases p with
    | done a =>
      exact ⟨a, s, [], s :: found, .done, (show k a = .step change next from hq) ▸ .step rest, rfl⟩
    | step change' next' =>
      obtain ⟨rfl, rfl⟩ := Proc.step.inj hq
      obtain ⟨a, mid, front, back, hfront, hback, rfl⟩ := ih rfl
      exact ⟨a, mid, s :: front, back, .step hfront, hback, rfl⟩
  | others turn rest ih =>
    obtain ⟨a, mid, front, back, hfront, hback, rfl⟩ := ih hq
    exact ⟨a, mid, front, back, .others turn hfront, hback, rfl⟩

/-- Nothing was left to do, so all that has happened others have done. -/
theorem of_done {a' : α} (h : (Proc.done a : Proc σ α).Amid others s found a' s') :
    a' = a ∧ found = [] ∧ Relation.ReflTransGen others s s' := by
  generalize hp : Proc.done a = p at h
  induction h with
  | done =>
    cases hp
    exact ⟨rfl, rfl, .refl⟩
  | step rest ih => cases hp
  | others turn rest ih =>
    obtain ⟨ha, hfound, hrest⟩ := ih hp
    exact ⟨ha, hfound, .head turn hrest⟩

/-- One step is left to do. -/
theorem of_step {change : σ → σ} {next : σ → Proc σ α}
    (h : (Proc.step change next).Amid others s found a s') :
    ∃ m rest, Relation.ReflTransGen others s m ∧ (next m).Amid others (change m) rest a s' ∧
      found = m :: rest := by
  generalize hp : Proc.step change next = p at h
  induction h with
  | done => cases hp
  | step rest ih =>
    obtain ⟨rfl, rfl⟩ := Proc.step.inj hp
    exact ⟨_, _, .refl, rest, rfl⟩
  | others turn rest ih =>
    obtain ⟨m, later, hm, hlater, hfound⟩ := ih hp
    exact ⟨m, later, .head turn hm, hlater, hfound⟩

end Amid

private theorem Obeys.amid_from {C : Contract σ γ} {p : Proc σ α} {g : γ} {good : α → γ → Prop}
    (h : p.Obeys C g good) (inv : γ → List σ → σ → Prop)
    (assume : ∀ g seen s, inv g seen s → C.assume g s)
    (keeps : ∀ g seen s s' g', inv g seen s → C.step g s s' g' → inv g' (seen ++ [s]) s')
    (turns : ∀ g seen s s', inv g seen s → others s s' → inv g seen s')
    {s s' : σ} {found seen : List σ} {a : α} (course : p.Amid others s found a s')
    (start : inv g seen s) : ∃ g', good a g' ∧ inv g' (seen ++ found) s' := by
  induction course generalizing g seen with
  | done => exact ⟨g, h, by simpa using start⟩
  | @step change next s found a s' rest ih =>
    obtain ⟨g', hstep, hnext⟩ := h s (assume g seen s start)
    obtain ⟨g'', hgood, hinv⟩ := ih hnext (keeps g seen s _ g' start hstep)
    exact ⟨g'', hgood, by simpa using hinv⟩
  | others turn rest ih => exact ih h (turns g seen _ _ start turn)

/-- What is true at the start and kept by every step of the contract and by all others is true at
the end, of a good result and of all the stores that were found. -/
theorem Obeys.amid {C : Contract σ γ} {p : Proc σ α} {g : γ} {good : α → γ → Prop}
    (h : p.Obeys C g good) (inv : γ → List σ → σ → Prop)
    (assume : ∀ g seen s, inv g seen s → C.assume g s)
    (keeps : ∀ g seen s s' g', inv g seen s → C.step g s s' g' → inv g' (seen ++ [s]) s')
    (turns : ∀ g seen s s', inv g seen s → others s s' → inv g seen s')
    {s s' : σ} {found : List σ} {a : α} (course : p.Amid others s found a s')
    (start : inv g [] s) : ∃ g', good a g' ∧ inv g' found s' :=
  h.amid_from inv assume keeps turns course start

end ShardSweep.Proc
