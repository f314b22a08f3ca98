import Mathlib.Order.Bounds.Basic
import ShardSweep.Proofs.Client.Prompt
import ShardSweep.Proofs.Cluster.Named
import ShardSweep.Proofs.Sweep.Delete
import ShardSweep.Proofs.Sweep.Lookup

/-!
# Going down a path and looking it up

A service looks up a path in its own tree.  A client goes down the path by asking for one entry
after another, and knows the service's tree from the answers only.  With nothing in its way it comes
to the directory that the service finds; otherwise it stops at the first of its names that leads to
no directory, and says whether there is a file or nothing.

The invariant of the way down is that all names so far lead to directories.

* `Sweep.Resolved`: what going down comes to, and after how many requests;
* `Sweep.descend_resolved`: one entry after another;
* `Sweep.resolveDir_agrees`: going down a path agrees with looking it up.
-/

namespace ShardSweep

namespace Tree

/-- There is a directory at the path that goes through the names. -/
def DirAt (t : Tree) (names : List String) : Prop :=
  ∃ i, t.lookup (Path.text names) = some i ∧ t.IsDir i

variable {t : Tree} {dir i : Inode} {name : String} {names : List String}

/-- One name more is one entry further. -/
theorem lookup_text_concat (good : ∀ n ∈ names ++ [name], isName n = true)
    (here : t.lookup (Path.text names) = some dir) :
    t.lookup (Path.text (names ++ [name])) = some i ↔ t.child dir name = .ok i := by
  rw [lookup_text fun n hn => good n (by simp [hn])] at here
  rw [lookup_text good, lookupNames_concat]
  constructor
  · rintro ⟨p, hp, hchild⟩
    obtain rfl := Option.some.inj (here.symm.trans hp)
    exact hchild
  · exact fun hchild => ⟨dir, here, hchild⟩

/-- The way to a directory leads through directories. -/
theorem DirAt.take (good : ∀ n ∈ names, isName n = true) (h : t.DirAt names) (k : Nat) :
    t.DirAt (names.take k) := by
  obtain ⟨i, hi, hdir⟩ := h
  rw [lookup_text good, ← List.take_append_drop k names, lookupNames_append,
    Option.bind_eq_some_iff] at hi
  obtain ⟨j, hj, hrest⟩ := hi
  refine ⟨j, ?_, by_contra fun hfile => not_isDir_of_lookupNames hfile hrest hdir⟩
  rw [lookup_text fun n hn => good n (List.mem_of_mem_take hn), hj]

end Tree

namespace Sweep

/-- What going down through names comes to, and after how many requests. -/
inductive Resolved (t : Tree) (names : List String) : Outcome Inode → Nat → Prop
  /-- The names lead to a directory. -/
  | found {i : Inode} (here : t.lookup (Path.text names) = some i) (isDir : t.IsDir i) :
      Resolved t names (.ok i) names.length
  /-- The first names that lead to no directory lead to a file. -/
  | file {k : Nat} {i : Inode}
      (first : IsLeast {k | k ≤ names.length ∧ ¬ t.DirAt (names.take k)} k)
      (here : t.lookup (Path.text (names.take k)) = some i) :
      Resolved t names (.error (.failed (.notADirectory (Path.text (names.take k))))) k
  /-- The first names that lead to no directory lead to nothing. -/
  | nothing {k : Nat} {endpoint : Endpoint} {status : Status}
      (first : IsLeast {k | k ≤ names.length ∧ ¬ t.DirAt (names.take k)} k)
      (nowhere : t.lookup (Path.text (names.take k)) = none) (code : status.code = .notFound) :
      Resolved t names (.error (.failed (.rpc (.rejected .getEntry endpoint status)))) k

/-- So many requests for entries. -/
private theorem foldl_bump_getEntry (counts : CallCounts) (n : Nat) :
    (List.replicate n RequestKind.getEntry).foldl .bump counts =
      { counts with getEntry := counts.getEntry + n } := by
  induction n generalizing counts with
  | zero => rfl
  | succ n ih => rw [List.replicate_succ, List.foldl_cons, ih, Nat.add_comm n, ← Nat.add_assoc]; rfl

/-- The directory is found exactly if it is there. -/
theorem Resolved.eq_ok_iff {t : Tree} {names : List String} {outcome : Outcome Inode}
    {requests : Nat} (h : Resolved t names outcome requests)
    (good : ∀ name ∈ names, Tree.isName name = true) (i : Inode) :
    outcome = .ok i ↔ t.lookup (Path.text names) = some i ∧ t.IsDir i := by
  cases h with
  | found here isDir =>
    constructor
    · rintro ⟨⟩
      exact ⟨here, isDir⟩
    · rintro ⟨here', -⟩
      rw [Option.some.inj (here.symm.trans here')]
  | file first | nothing first =>
    exact ⟨nofun, fun hthere => absurd (Tree.DirAt.take good ⟨i, hthere⟩ _) first.1.2⟩

variable {c : Client} {d : Deployment} {fs : FsId} {f : Filesystem} {epoch : Epoch}

/-- One name more than lead to directories is the first that leads to none. -/
private theorem first_of_not_dirAt {t : Tree} {names : List String} {n : Nat}
    (leads : ∀ k ≤ n, t.DirAt (names.take k)) (more : n < names.length)
    (stray : ¬ t.DirAt (names.take (n + 1))) :
    IsLeast {k | k ≤ names.length ∧ ¬ t.DirAt (names.take k)} (n + 1) :=
  ⟨⟨more, stray⟩, fun k hk => Nat.lt_of_not_le fun hle => hk.2 (leads k hle)⟩

/-- What a client is told of one entry of a directory. -/
private theorem ask_entry (sound : f.tree.Sound) (current : epoch = f.epoch) {dir : Inode}
    (isDir : f.tree.IsDir dir) (found : d.service.filesystem? fs = some f)
    (calm : (Deployment.clientPart.get d).Calm c) (name : String) :
    (∃ status endpoint d', f.tree.child dir name = .error status ∧ status.code = .notFound ∧
      ask (Deployment.metadata c) (.getEntry fs dir name epoch) d =
        (some (.error (.failed (.rpc (.rejected .getEntry endpoint status)))), d') ∧
      Noted c [.getEntry] d d') ∨
    ∃ i a d', f.tree.child dir name = .ok i ∧ f.tree.attr? i = some a ∧
      ask (Deployment.metadata c) (.getEntry fs dir name epoch) d =
        (some (.ok ⟨name, i, dir, a.kind⟩), d') ∧ Noted c [.getEntry] d d' := by
  have hserve : ∀ s, d.service.SameNames s → s.Calm c →
      (s.serve (.getEntry fs dir name epoch)).1 = f.tree.find dir name := by
    intro s hsame _
    exact (Service.Left.start ((hsame.filesystem?_eq fs).trans found)).look_eq current
      (·.find dir name)
  cases hchild : f.tree.child dir name with
  | error status =>
    have hcode : status.code = .notFound := by rw [Tree.child_eq_error isDir hchild]
    have hfind : f.tree.find dir name = .error status := by rw [Tree.find, hchild]
    have hfinal : status.isRetryable = false := by rw [Status.isRetryable, hcode]; rfl
    obtain ⟨endpoint, d', -, hask, hnoted⟩ := ask_rejected (i := dir) rfl (fun _ => rfl) calm
      (fun s hsame hcalm => (hserve s hsame hcalm).trans hfind) hfinal
    exact .inl ⟨status, endpoint, d', rfl, hcode, hask, hnoted⟩
  | ok i =>
    have hat := Tree.at_of_child hchild
    obtain ⟨a, ha, -⟩ := sound.child _ _ _ hat
    obtain ⟨d', hask, hnoted⟩ := ask_granted (i := dir) rfl (fun _ => rfl) calm
      fun s hsame hcalm => (hserve s hsame hcalm).trans (sound.find_eq hat ha)
    exact .inr ⟨i, a, d', rfl, ha, hask, hnoted⟩

/-- Going down from a directory to which all the names before have led. -/
theorem descend_resolved (sound : f.tree.Sound) (current : epoch = f.epoch) {names : List String} :
    ∀ {before : List String} {dir : Inode} {d : Deployment},
      (∀ name ∈ before ++ names, Tree.isName name = true) →
      f.tree.lookup (Path.text before) = some dir → f.tree.IsDir dir →
      (∀ k ≤ before.length, f.tree.DirAt ((before ++ names).take k)) →
      d.service.filesystem? fs = some f → (Deployment.clientPart.get d).Calm c →
      ∃ outcome requests d',
        descend (Deployment.metadata c) fs epoch dir before.reverse names d = (some outcome, d') ∧
        Resolved f.tree (before ++ names) outcome (before.length + requests) ∧
        Noted c (List.replicate requests .getEntry) d d' := by
  induction names with
  | nil =>
    intro before dir d good here isDir leads found calm
    refine ⟨.ok dir, 0, d, rfl, ?_, .refl calm⟩
    rw [List.append_nil]
    exact .found here isDir
  | cons name names ih =>
    intro before dir d good here isDir leads found calm
    have htake : (before ++ name :: names).take (before.length + 1) = before ++ [name] := by
      simp [List.take_append]
    have hmore : before.length < (before ++ name :: names).length := by simp
    have hlookup : ∀ i, f.tree.lookup (Path.text (before ++ [name])) = some i ↔
        f.tree.child dir name = .ok i := fun i =>
      Tree.lookup_text_concat (fun n hn => good n (List.mem_of_mem_take (htake.symm ▸ hn))) here
    simp only [descend]
    obtain ⟨status, endpoint, d', hchild, hcode, hask, hnoted⟩ |
      ⟨i, a, d', hchild, ha, hask, hnoted⟩ := ask_entry sound current isDir found calm name
    · have hnone : f.tree.lookup (Path.text (before ++ [name])) = none := by
        refine Option.eq_none_iff_forall_ne_some.mpr fun i hi => ?_
        cases hchild.symm.trans ((hlookup i).mp hi)
      have hstray : ¬ f.tree.DirAt (before ++ [name]) := by
        rintro ⟨i, hi, -⟩
        cases hnone.symm.trans hi
      refine ⟨_, 1, d', bind_eq_of_error hask _, ?_, hnoted⟩
      have hfirst := first_of_not_dirAt leads hmore (htake.symm ▸ hstray)
      exact .nothing hfirst (htake.symm ▸ hnone) hcode
    · have hthere := (hlookup i).mpr hchild
      rw [bind_eq_of_ok hask]
      cases hkind : a.kind with
      | dir =>
        rw [if_pos (by simp [Kind.isDir])]
        have hleads : ∀ k ≤ (before ++ [name]).length,
            f.tree.DirAt ((before ++ [name] ++ names).take k) := by
          intro k hk
          rw [List.append_assoc, List.singleton_append]
          rw [List.length_append, List.length_singleton] at hk
          rcases Nat.le_succ_iff.mp hk with hle | rfl
          · exact leads k hle
          · exact htake.symm ▸ ⟨i, hthere, a, ha, hkind⟩
        obtain ⟨outcome, requests, d'', hdescend, hresolved, hnoted'⟩ :=
          ih (by simpa using good) hthere ⟨a, ha, hkind⟩ hleads
            ((hnoted.same.filesystem?_eq fs).trans found) hnoted.calm
        refine ⟨outcome, requests + 1, d'', ?_, ?_, hnoted.trans hnoted'⟩
        · simpa using hdescend
        · simpa [Nat.add_comm 1, Nat.add_assoc] using hresolved
      | file =>
        rw [if_neg (by simp [Kind.isDir])]
        have hstray : ¬ f.tree.DirAt (before ++ [name]) := by
          rintro ⟨j, hj, b, hb, hdir⟩
          obtain rfl := Option.some.inj (hthere.symm.trans hj)
          obtain rfl := Option.some.inj (ha.symm.trans hb)
          cases hkind.symm.trans hdir
        have hresolved := Resolved.file (first_of_not_dirAt leads hmore (htake.symm ▸ hstray))
          (htake.symm ▸ hthere)
        rw [htake] at hresolved
        refine ⟨_, 1, d', rfl, ?_, hnoted⟩
        simpa using hresolved

/-- A client that nothing is in the way of and that goes down a path comes to the directory that
the service finds at the path of the same names.  Otherwise the first of these names that lead to
no directory decide the failure.  There is one request for each name that was looked at. -/
theorem resolveDir_agrees {path : String} {names : List String} (reachable : f.tree.Reachable)
    (found : d.service.filesystem? fs = some f) (current : epoch = f.epoch)
    (calm : (Deployment.clientPart.get d).Calm c) (goes : Path.components path = .ok names) :
    ∃ outcome requests d',
      resolveDir (Deployment.metadata c) fs path epoch d = (some outcome, d') ∧
      (∀ i, outcome = .ok i ↔ f.tree.lookup (Path.text names) = some i ∧ f.tree.IsDir i) ∧
      Resolved f.tree names outcome requests ∧ d.service.SameNames d'.service ∧
      d'.service.counts =
        { d.service.counts with getEntry := d.service.counts.getEntry + requests } := by
  have sound := reachable.sound
  have hgood : ∀ name ∈ names, Tree.isName name = true := fun name hname =>
    Tree.isName_of_plain (Path.plain_of_components goes name hname)
  have hroot : f.tree.lookup (Path.text []) = some rootInode := rfl
  have hleads : ∀ k ≤ ([] : List String).length, f.tree.DirAt (([] ++ names).take k) := by
    intro k hk
    obtain rfl := Nat.le_zero.mp hk
    exact ⟨rootInode, hroot, sound.root⟩
  obtain ⟨outcome, requests, d', hdescend, hresolved, hnoted⟩ :=
    descend_resolved sound current hgood hroot sound.root hleads found calm
  simp only [List.nil_append, List.length_nil, Nat.zero_add] at hresolved
  refine ⟨outcome, requests, d', ?_, hresolved.eq_ok_iff hgood, hresolved, hnoted.same,
    hnoted.counts.trans (foldl_bump_getEntry _ _)⟩
  rw [resolveDir, goes]
  exact hdescend

/-- The path leads through a file. -/
theorem resolveDir_agrees_sample : ∃ outcome requests d',
    resolveDir (Deployment.metadata .sample) 1 " //t/./a/b" .first .sample = (some outcome, d') ∧
    (∀ i, outcome = .ok i ↔ Tree.sample.lookup (Path.text ["t", "a", "b"]) = some i ∧
      Tree.sample.IsDir i) ∧
    Resolved Tree.sample ["t", "a", "b"] outcome requests ∧ Service.sample.SameNames d'.service ∧
    d'.service.counts =
      { Service.sample.counts with getEntry := Service.sample.counts.getEntry + requests } := by
  have hfound : Deployment.sample.service.filesystem? 1 = some .sample := rfl
  have hgoes : Path.components " //t/./a/b" = .ok ["t", "a", "b"] := by cbv
  exact resolveDir_agrees Tree.reachable_sample hfound rfl Deployment.calm_sample hgoes

/-- A client can get ready although one of its shards has no endpoint.  Nothing else is wrong, and
a path whose directory is there is not gone down. -/
theorem resolveDir_without_endpoint :
    ((Deployment.metadata .lopsided).prepare 1).run (.fresh .sample) = (.ok (), .sample) ∧
    Tree.sample.Reachable ∧ Service.sample.faults = .none ∧ Service.sample.unreachable = [] ∧
    Service.sample.latency.nanos = 0 ∧ Path.components "/t" = .ok ["t"] ∧
    Tree.sample.lookup (Path.text ["t"]) = some 2 ∧ Tree.sample.IsDir 2 ∧
    (resolveDir (Deployment.metadata .lopsided) 1 "/t" .first .sample).1 =
      some (.error (.failed (.rpc (.noEndpoint .getEntry)))) := by
  have hgoes : Path.components "/t" = .ok ["t"] := by cbv
  have hlookup : Tree.sample.lookup (Path.text ["t"]) = some 2 := by
    rw [Tree.lookup_text (by decide)]
    rfl
  refine ⟨rfl, Tree.reachable_sample, rfl, rfl, rfl, hgoes, hlookup, ⟨_, rfl, rfl⟩, ?_⟩
  rw [resolveDir, hgoes]
  rfl

end Sweep

end ShardSweep
