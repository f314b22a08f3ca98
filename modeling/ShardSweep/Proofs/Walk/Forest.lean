import Mathlib.Data.List.Nodup
import Mathlib.Data.List.Pairwise
import Mathlib.Data.List.Perm.Basic
import ShardSweep.Entry

/-!
# Listings that end

A `Forest` is what the listings of a namespace say, with the promise that no way down
through subdirectories goes on for ever.  Below a directory it is a finite tree, and a tree
that names no directory twice if `IsTree` holds of its root.

* `levels`: the entries at the first levels below a directory;
* `Forest.below_eq`, `Forest.dirs_eq`: all entries and all directories of a subtree, from
  those of its subdirectories;
* `Forest.induct`: induction from the subdirectories of a directory;
* `Forest.below_perm`: all entries of a subtree, directory by directory;
* `Forest.holder_unique`: where no directory is named twice each is held by one other.
-/

namespace ShardSweep

/-- The entries at the first `depth` levels below a directory, each subdirectory followed
by what is below it. -/
def levels (listing : Inode → List Entry) : (depth : Nat) → Inode → List Entry
  | 0, _ => []
  | depth + 1, i => (listing i).flatMap fun e =>
    e :: if e.kind.isDir then levels listing depth e.inode else []

/-- Listings in which every way down ends. -/
structure Forest where
  listing : Inode → List Entry
  /-- How far down it goes at most. -/
  height : Inode → Nat
  height_lt : ∀ i, ∀ e ∈ listing i, e.kind.isDir = true → height e.inode < height i

namespace Forest

variable (f : Forest)

/-- The entries at all levels below a directory. -/
def below (i : Inode) : List Entry :=
  levels f.listing (f.height i + 1) i

/-- The subdirectories of a directory. -/
def subdirs (d : Dir) : List Dir :=
  ((f.listing d.inode).filter (·.kind.isDir)).map .ofEntry

/-- A directory and all directories below it. -/
def dirs (d : Dir) : List Dir :=
  d :: ((f.below d.inode).filter (·.kind.isDir)).map .ofEntry

/-- No directory and no entry of the subtree is named twice. -/
structure IsTree (root : Dir) : Prop where
  dirs : ((f.dirs root).map Dir.inode).Nodup
  entries : ∀ d ∈ f.dirs root, (f.listing d.inode).Nodup

variable {f}

/-- A depth beyond the height of a directory shows all that is below it. -/
theorem levels_of_height_lt {i : Inode} {depth : Nat} (h : f.height i < depth) :
    levels f.listing depth i = f.below i := by
  unfold below
  have main : ∀ n m i, f.height i < n → f.height i < m →
      levels f.listing n i = levels f.listing m i := by
    intro n
    induction n with
    | zero => intro m i hn; omega
    | succ n ih =>
      intro m i hn hm
      obtain ⟨m, rfl⟩ : ∃ k, m = k + 1 := ⟨m - 1, by omega⟩
      simp only [levels]
      apply List.flatMap_congr
      intro e he
      by_cases hd : e.kind.isDir = true
      · have hlt := f.height_lt i e he hd
        rw [if_pos hd, if_pos hd, ih m e.inode (by omega) (by omega)]
      · rw [if_neg hd, if_neg hd]
  exact main _ _ i h (Nat.lt_succ_self _)

/-- What is below a directory is its entries and what is below its subdirectories. -/
theorem below_eq (f : Forest) (i : Inode) :
    f.below i = (f.listing i).flatMap fun e =>
      e :: if e.kind.isDir then f.below e.inode else [] := by
  conv_lhs => rw [below, levels]
  apply List.flatMap_congr
  intro e he
  by_cases hd : e.kind.isDir = true
  · rw [if_pos hd, if_pos hd, levels_of_height_lt (f.height_lt i e he hd)]
  · rw [if_neg hd, if_neg hd]

/-- The directories below some entries are the directories among them and all below these. -/
private theorem filter_flatMap_below (es : List Entry) :
    ((es.flatMap fun e => e :: if e.kind.isDir then f.below e.inode else []).filter
      (·.kind.isDir)).map Dir.ofEntry =
      ((es.filter (·.kind.isDir)).map Dir.ofEntry).flatMap f.dirs := by
  induction es with
  | nil => rfl
  | cons e es ih =>
    rw [List.flatMap_cons, List.filter_append, List.map_append, ih]
    by_cases hd : e.kind.isDir = true
    · simp [hd, dirs, Dir.ofEntry]
    · simp [hd]

/-- The directories of a subtree are its root and those of the subdirectories. -/
theorem dirs_eq (f : Forest) (d : Dir) : f.dirs d = d :: (f.subdirs d).flatMap f.dirs := by
  rw [dirs, below_eq, filter_flatMap_below, subdirs]

/-- A subdirectory is an entry of that kind. -/
theorem mem_subdirs {c d : Dir} :
    c ∈ f.subdirs d ↔ ∃ e ∈ f.listing d.inode, e.kind.isDir = true ∧ Dir.ofEntry e = c := by
  simp [subdirs, and_assoc]

/-- An entry of that kind is a subdirectory. -/
theorem ofEntry_mem_subdirs {d : Dir} {e : Entry} (he : e ∈ f.listing d.inode)
    (hd : e.kind.isDir = true) : Dir.ofEntry e ∈ f.subdirs d :=
  mem_subdirs.mpr ⟨e, he, hd, rfl⟩

/-- A subdirectory is lower than its parent. -/
theorem height_lt_of_mem_subdirs {c d : Dir} (h : c ∈ f.subdirs d) :
    f.height c.inode < f.height d.inode := by
  obtain ⟨e, he, hd, rfl⟩ := mem_subdirs.mp h
  exact f.height_lt _ e he hd

/-- What holds of a directory whenever it holds of its subdirectories holds of all. -/
theorem induct {P : Dir → Prop} (step : ∀ d, (∀ c ∈ f.subdirs d, P c) → P d) (d : Dir) : P d := by
  have main : ∀ n, ∀ d : Dir, f.height d.inode < n → P d := by
    intro n
    induction n with
    | zero => intro d h; omega
    | succ n ih =>
      intro d h
      apply step d
      intro c hc
      have := height_lt_of_mem_subdirs hc
      exact ih c (by omega)
  exact main _ d (Nat.lt_succ_self _)

/-- A directory is in its own subtree. -/
theorem self_mem_dirs (d : Dir) : d ∈ f.dirs d := by
  rw [dirs]
  exact List.mem_cons_self

/-- The rest of it is in the subtrees of the subdirectories. -/
theorem mem_dirs {c d : Dir} : c ∈ f.dirs d ↔ c = d ∨ ∃ b ∈ f.subdirs d, c ∈ f.dirs b := by
  rw [dirs_eq, List.mem_cons, List.mem_flatMap]

/-- What is in the subtree of a subdirectory is in that of the directory. -/
theorem mem_dirs_of_mem_subdirs {b c d : Dir} (hb : b ∈ f.subdirs d) (hc : c ∈ f.dirs b) :
    c ∈ f.dirs d :=
  mem_dirs.mpr (.inr ⟨b, hb, hc⟩)

/-- What is in the subtree of a directory is in those around it. -/
theorem mem_dirs_trans {b c d : Dir} (hb : b ∈ f.dirs d) (hc : c ∈ f.dirs b) : c ∈ f.dirs d := by
  induction d using f.induct with
  | step d ih =>
    rcases mem_dirs.mp hb with rfl | ⟨a, ha, hba⟩
    · exact hc
    · exact mem_dirs_of_mem_subdirs ha (ih a ha hba)

/-- Nothing in a subtree reaches higher than its root. -/
theorem height_le_of_mem_dirs {c d : Dir} (h : c ∈ f.dirs d) :
    f.height c.inode ≤ f.height d.inode := by
  induction d using f.induct with
  | step d ih =>
    rcases mem_dirs.mp h with rfl | ⟨b, hb, hc⟩
    · exact Nat.le_refl _
    · have hle := ih b hb hc
      have hlt := height_lt_of_mem_subdirs hb
      omega

/-- Everything else in a subtree is lower than its root. -/
theorem height_lt_of_mem_dirs {c d : Dir} (h : c ∈ f.dirs d) (hne : c ≠ d) :
    f.height c.inode < f.height d.inode := by
  rcases mem_dirs.mp h with rfl | ⟨b, hb, hc⟩
  · exact absurd rfl hne
  · have hle := height_le_of_mem_dirs hc
    have hlt := height_lt_of_mem_subdirs hb
    omega

/-- No way down comes back to where it began. -/
theorem not_mem_subdirs_of_mem_dirs {b d : Dir} (hb : b ∈ f.dirs d) : d ∉ f.subdirs b := by
  intro h
  have hlt := height_lt_of_mem_subdirs h
  have hle := height_le_of_mem_dirs hb
  omega

/-- A directory of a subtree is its root or held by another. -/
theorem exists_holder {c d : Dir} (h : c ∈ f.dirs d) : c = d ∨ ∃ b ∈ f.dirs d, c ∈ f.subdirs b := by
  induction d using f.induct with
  | step d ih =>
    rcases mem_dirs.mp h with rfl | ⟨a, ha, hc⟩
    · exact .inl rfl
    · right
      rcases ih a ha hc with rfl | ⟨b, hb, hcb⟩
      · exact ⟨d, self_mem_dirs d, ha⟩
      · exact ⟨b, mem_dirs_of_mem_subdirs ha hb, hcb⟩

/-- What is inside some entries is what is below the directories among them. -/
private theorem flatMap_subdirs (es : List Entry) :
    (es.flatMap fun e => if e.kind.isDir then f.below e.inode else []) =
      ((es.filter (·.kind.isDir)).map Dir.ofEntry).flatMap fun c => f.below c.inode := by
  induction es with
  | nil => rfl
  | cons e es ih =>
    rw [List.flatMap_cons, ih]
    by_cases hd : e.kind.isDir = true
    · simp [hd, Dir.ofEntry]
    · simp [hd]

/-- What is below a directory is what is listed in the directories of its subtree. -/
theorem below_perm (d : Dir) :
    (f.below d.inode).Perm ((f.dirs d).flatMap fun c => f.listing c.inode) := by
  induction d using f.induct with
  | step d ih =>
    rw [below_eq, dirs_eq, List.flatMap_cons, List.flatMap_assoc]
    apply (List.map_append_flatMap_perm _ id _).symm.trans
    rw [List.map_id, flatMap_subdirs]
    apply List.Perm.append_left _
    exact List.Perm.flatMap_left _ ih

/-- What is below a directory is listed somewhere in its subtree. -/
theorem mem_below {d : Dir} {e : Entry} :
    e ∈ f.below d.inode ↔ ∃ c ∈ f.dirs d, e ∈ f.listing c.inode := by
  rw [(below_perm d).mem_iff, List.mem_flatMap]

/-- The directories of a subtree are its root and what its directories hold. -/
theorem dirs_perm (d : Dir) : (f.dirs d).Perm (d :: (f.dirs d).flatMap f.subdirs) := by
  have hperm := ((below_perm (f := f) d).filter (·.kind.isDir)).map Dir.ofEntry
  rw [List.filter_flatMap, List.map_flatMap] at hperm
  exact hperm.cons d

/-- Where no directory is named twice each is held by one other. -/
theorem holder_unique {root b d c : Dir} (nodup : (f.dirs root).Nodup) (hb : b ∈ f.dirs root)
    (hd : d ∈ f.dirs root) (hcb : c ∈ f.subdirs b) (hcd : c ∈ f.subdirs d) : b = d := by
  have hflat := (List.nodup_cons.mp ((dirs_perm root).nodup_iff.mp nodup)).2
  have hdisjoint := (List.nodup_flatMap.mp hflat).2
  have : Std.Symm (Function.onFun List.Disjoint f.subdirs) := ⟨fun _ _ h _ hc hc' => h hc' hc⟩
  by_contra hne
  exact hdisjoint.forall hb hd hne hcb hcd

/-- No entry is found twice below a directory, if every entry names the directory it is in. -/
theorem IsTree.nodup_below {d : Dir} (tree : f.IsTree d)
    (homes : ∀ i, ∀ e ∈ f.listing i, e.parent = i) : (f.below d.inode).Nodup := by
  rw [(below_perm d).nodup_iff, List.nodup_flatMap]
  refine ⟨tree.entries, ?_⟩
  apply (List.pairwise_map.mp tree.dirs).imp
  intro b c hne e hb hc
  exact hne ((homes _ e hb).symm.trans (homes _ e hc))

end Forest

end ShardSweep
