import ShardSweep.Proofs.Client.Alone
import ShardSweep.Proofs.Cluster.Lookup
import ShardSweep.Sweep.Lookup

/-!
# Where names lead

A client goes down a path by asking for one entry after another.  With nothing in its way it
comes to the directory that the names lead to in the tree, and it fails if they lead to none.
Nothing is changed in either case.

* `Sweep.Sought`: what a look for a directory comes to;
* `Sweep.descend_sought`: going down from a directory;
* `Sweep.resolveDir_sought`: going down a path.
-/

namespace ShardSweep

namespace Sweep

variable {c : Client} {d d' : Deployment} {fs : FsId} {f : Filesystem} {epoch : Epoch}

/-- What a look for a directory comes to: the directory if one is there, and a failure
otherwise. -/
inductive Sought (c : Client) (d : Deployment) (t : Tree) (there : Inode → Prop) :
    Option (Outcome Inode) × Deployment → Prop
  | found {i : Inode} {d' : Deployment} (here : there i) (isDir : t.IsDir i)
      (same : d.service.SameNames d'.service) (calm : (Deployment.clientPart.get d').Calm c) :
      Sought c d t there (some (.ok i), d')
  | missing {h : Halt} {d' : Deployment} (nowhere : ∀ i, there i → ¬ t.IsDir i)
      (same : d.service.SameNames d'.service) : Sought c d t there (some (.error h), d')

/-- What was done before does not matter if it left the names as they were. -/
theorem Sought.after {t : Tree} {there : Inode → Prop}
    {result : Option (Outcome Inode) × Deployment}
    (h : Sought c d' t there result) (same : d.service.SameNames d'.service) :
    Sought c d t there result := by
  cases h with
  | found here isDir same' calm => exact .found here isDir (same.trans same') calm
  | missing nowhere same' => exact .missing nowhere (same.trans same')

/-- Going down from a directory comes to where the names lead. -/
theorem descend_sought (sound : f.tree.Sound) (current : epoch = f.epoch) {names : List String} :
    ∀ {dir : Inode} {trail : List String} {d : Deployment}, f.tree.IsDir dir →
      d.service.filesystem? fs = some f → (Deployment.clientPart.get d).Calm c →
      Sought c d f.tree (f.tree.lookupNames dir names = some ·)
        (descend (Deployment.metadata c) fs epoch dir trail names d) := by
  induction names with
  | nil =>
    intro dir trail d hdir hfound hcalm
    exact .found rfl hdir (.refl _) hcalm
  | cons name names ih =>
    intro dir trail d hdir hfound hcalm
    have hserve : ∀ s, d.service.SameNames s →
        (s.serve (.getEntry fs dir name epoch)).1 = f.tree.find dir name := by
      intro s hsame
      exact (Service.Left.start ((hsame.filesystem?_eq fs).trans hfound)).look_eq current
        (·.find dir name)
    simp only [descend, Tree.lookupNames]
    cases hchild : f.tree.child dir name with
    | error status =>
      have hrefuses : ∀ s, d.service.SameNames s →
          ∀ a, (s.serve (.getEntry fs dir name epoch)).1 ≠ .ok a := by
        intro s hsame a hok
        rw [hserve s hsame, Tree.find, hchild] at hok
        cases hok
      obtain ⟨h, d', hask, hsame⟩ := ask_refused (i := dir) c rfl (fun _ => rfl) hrefuses
      rw [bind_eq_of_error hask]
      exact .missing (fun _ hthere => by cases hthere) hsame
    | ok i =>
      have hat := Tree.at_of_child hchild
      obtain ⟨a, ha, -⟩ := sound.child _ _ _ hat
      have hentry := sound.find_eq hat ha
      obtain ⟨d', hask, hsame, hcalm'⟩ := ask_answered (i := dir) rfl (fun _ => rfl) hcalm
        fun s hsame _ => (hserve s hsame).trans hentry
      rw [bind_eq_of_ok hask]
      cases hkind : a.kind with
      | dir =>
        have hfound' := (hsame.filesystem?_eq fs).trans hfound
        rw [if_pos (by simp [Kind.isDir])]
        exact (ih ⟨a, ha, hkind⟩ hfound' hcalm').after hsame
      | file =>
        have hfile : ¬ f.tree.IsDir i := by
          intro h
          obtain ⟨a', ha', hdir'⟩ := h
          obtain rfl := Option.some.inj (ha.symm.trans ha')
          rw [hkind] at hdir'
          cases hdir'
        rw [if_neg (by simp [Kind.isDir])]
        exact .missing (fun j hj => Tree.not_isDir_of_lookupNames hfile hj) hsame

/-- Going down a path comes to where its names lead. -/
theorem resolveDir_sought (sound : f.tree.Sound) (current : epoch = f.epoch) {path : String}
    {names : List String} (goes : Path.components path = .ok names)
    (found : d.service.filesystem? fs = some f) (calm : (Deployment.clientPart.get d).Calm c) :
    Sought c d f.tree (f.tree.lookupNames rootInode names = some ·)
      (resolveDir (Deployment.metadata c) fs path epoch d) := by
  have hdescend : Sought c d f.tree (f.tree.lookupNames rootInode names = some ·)
      (descend (Deployment.metadata c) fs epoch rootInode [] names d) :=
    descend_sought sound current sound.root found calm
  rwa [resolveDir, goes]

end Sweep

end ShardSweep
