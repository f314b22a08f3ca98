import Mathlib.Algebra.BigOperators.Group.Multiset.Basic
import Mathlib.Algebra.Order.Group.Multiset
import Mathlib.Data.Multiset.Dedup
import ShardSweep.Proofs.Client.Dues
import ShardSweep.Proofs.Cluster.Left
import ShardSweep.Walk.Tally

/-!
# The ledger of a count

Every entry counts as one inode, and a file brings its sighting and its bytes besides.  Whoever
sights a file that was sighted before need not add its bytes, so what the tally has falls behind
what is credited by just the bytes of the repeated sightings.

* `Tree.bytesOf`: the bytes of the files among some entries;
* `Census`: a directory that is counted through a client;
* `Census.Shows`: a tally that shows what was credited;
* `Census.ledgerIn`: its ledger, as long as something about the deployment is kept;
* `Census.ledger`: the same where nothing is in the way;
* `Census.all_eq`: all that is to be counted;
* `Census.fitsIn`: a count pays what it owes, if its requests are always answered;
* `Census.fits`: they are if nothing is in the way.
-/

namespace ShardSweep

/-- How long a file is. -/
def Tree.length (t : Tree) (i : Inode) : Nat :=
  ((t.attr? i).map (·.length.toNat)).getD 0

/-- What is not there has no length, and anything else that of its attributes. -/
theorem Tree.length_eq {t : Tree} {i : Inode} {a : Attr} (ha : t.attr? i = some a) :
    t.length i = a.length.toNat := by
  simp [length, ha]

/-- The inodes of the files among some entries, as often as they are named. -/
def Tree.fileInodes (es : List Entry) : List Inode :=
  (es.filter fun e => !e.kind.isDir).map Entry.inode

/-- The bytes of the files among some entries, each file as often as it is named or just `once`. -/
def Tree.bytesOf (t : Tree) (once : Bool) (es : List Entry) : Nat :=
  ((if once then (fileInodes es).dedup else fileInodes es).map t.length).sum

/-- The order of the entries makes no difference. -/
theorem Tree.bytesOf_perm {es es' : List Entry} (perm : es.Perm es') (t : Tree) (once : Bool) :
    t.bytesOf once es = t.bytesOf once es' := by
  have hfiles : (fileInodes es).Perm (fileInodes es') := (perm.filter _).map Entry.inode
  unfold bytesOf
  cases once with
  | false => exact (hfiles.map t.length).sum_eq
  | true => exact (hfiles.dedup.map t.length).sum_eq

/-- A directory that is counted through a client, from a service at the current generation. -/
structure Census where
  client : Client
  service : Service
  plan : WalkPlan
  filesystem : Filesystem
  found : service.filesystem? plan.fs = some filesystem
  sound : filesystem.tree.Sound
  current : plan.epoch = filesystem.epoch
  root : Dir
  isDir : ∃ a, filesystem.tree.attr? root.inode = some a ∧ a.kind = .dir
  once : Bool

namespace Census

variable (C : Census)

def tree : Tree :=
  C.filesystem.tree

def forest : Forest :=
  C.sound.forest

def walk : Walk Deployment Tally :=
  ⟨(Deployment.metadata C.client).on Flagged.innerPart, tallyVisitor C.once, C.plan⟩

/-- What an entry counts: itself, and a file its sighting and its bytes. -/
def value (e : Entry) : Nat × Multiset Inode × Nat :=
  if e.kind.isDir then (1, 0, 0) else (1, {e.inode}, C.tree.length e.inode)

/-- Entries are counted where they are visited, and nothing when a directory is left. -/
def worth : Site → Nat × Multiset Inode × Nat
  | .visit _ e => C.value e
  | .leave _ => 0

/-- Those of the sighted files whose bytes count. -/
def distinct (sighted : Multiset Inode) : Multiset Inode :=
  if C.once then sighted.dedup else sighted

/-- The bytes of some files together. -/
def bytes (inodes : Multiset Inode) : Nat :=
  (inodes.map C.tree.length).sum

/-- The tally shows what was credited, less the bytes of repeated sightings. -/
structure Shows (n : Tally) (done : Nat × Multiset Inode × Nat) : Prop where
  inodes : n.totals.inodes = .ofNat done.1
  bytes : ∃ k, n.totals.bytes = .ofNat k ∧
    k + C.bytes done.2.1 = done.2.2 + C.bytes (C.distinct done.2.1)
  seen : C.once = true → ∀ i a, C.tree.attr? i = some a → a.isHardlinked = true →
    (n.seen.contains i = true ↔ i ∈ done.2.1)

/-- Nothing is changed, nothing is in the way, and the tally is right. -/
def ledger : Ledger Deployment Tally (Nat × Multiset Inode × Nat) where
  forest := C.forest
  root := C.root
  worth := C.worth
  books s n done := C.service.SameNames s.inner.service ∧ (Deployment.client s).Calm C.client ∧
    C.Shows n done
  sure := True

/-- Something about the deployment is kept, and the tally is right. -/
def ledgerIn (P : Deployment → Prop) : Ledger Deployment Tally (Nat × Multiset Inode × Nat) where
  forest := C.forest
  root := C.root
  worth := C.worth
  books s n done := P s.inner ∧ C.Shows n done
  sure := True

/-- Nothing was changed, and nothing is in the way. -/
def Clear (d : Deployment) : Prop :=
  C.service.SameNames d.service ∧ (Deployment.clientPart.get d).Calm C.client

/-- Nothing being in the way is one thing that may be kept. -/
theorem ledger_eq : C.ledger = C.ledgerIn C.Clear := by
  have hbooks : ∀ (s : Flagged Deployment) (n : Tally) (done : Nat × Multiset Inode × Nat),
      (C.service.SameNames s.inner.service ∧ (Deployment.client s).Calm C.client ∧
        C.Shows n done) = (C.Clear s.inner ∧ C.Shows n done) :=
    fun _ _ _ => propext and_assoc.symm
  simp only [ledger, ledgerIn, hbooks]

/-- All that is to be counted. -/
def targets : List Entry :=
  C.forest.below C.root.inode

/-- What some entries count together. -/
theorem sum_value (es : List Entry) : (es.map C.value).sum =
    (es.length, (Tree.fileInodes es : Multiset Inode), C.bytes (Tree.fileInodes es)) := by
  induction es with
  | nil => rfl
  | cons e es ih =>
    rw [List.map_cons, List.sum_cons, ih]
    by_cases hd : e.kind.isDir = true
    · have hfiles : Tree.fileInodes (e :: es) = Tree.fileInodes es := by simp [Tree.fileInodes, hd]
      simp [value, bytes, hd, hfiles, Nat.add_comm]
    · have hfiles : Tree.fileInodes (e :: es) = e.inode :: Tree.fileInodes es := by
        simp [Tree.fileInodes, hd]
      simp [value, bytes, hd, hfiles, Nat.add_comm]

/-- All that is to be counted, whatever is kept. -/
theorem allIn_eq (P : Deployment → Prop) : (C.ledgerIn P).all =
    (C.targets.length, (Tree.fileInodes C.targets : Multiset Inode),
      C.bytes (Tree.fileInodes C.targets)) := by
  have hweigh : (C.ledgerIn P).all = ((C.forest.dirs C.root).map fun c =>
      ((C.forest.listing c.inode).map C.value).sum + 0).sum := (C.ledgerIn P).weigh_eq C.root
  have hbelow := C.forest.sum_below C.value C.root
  simp only [add_zero] at hweigh
  rw [hweigh, ← hbelow]
  exact C.sum_value _

/-- All that is to be counted. -/
theorem all_eq : C.ledger.all =
    (C.targets.length, (Tree.fileInodes C.targets : Multiset Inode),
      C.bytes (Tree.fileInodes C.targets)) := by
  rw [C.ledger_eq]
  exact C.allIn_eq _

section Shows

variable {C} {n n' : Tally} {done : Nat × Multiset Inode × Nat} {i : Inode}

/-- A tally that shows nothing is right before anything was counted. -/
theorem Shows.empty (C : Census) : C.Shows .empty 0 where
  inodes := rfl
  bytes := ⟨0, rfl, by simp [distinct]⟩
  seen _ i _ _ _ := by simp [Tally.empty, Seen.empty, Seen.contains]

/-- One file more has its bytes more. -/
theorem bytes_cons (C : Census) (i : Inode) (inodes : Multiset Inode) :
    C.bytes (i ::ₘ inodes) = C.tree.length i + C.bytes inodes := by
  simp [bytes]

/-- A file that was counted was sighted. -/
private theorem sighted_eq (done : Nat × Multiset Inode × Nat) (i : Inode) (k : Nat) :
    (done + (0, {i}, k)).2.1 = i ::ₘ done.2.1 :=
  (add_comm _ _).trans (Multiset.singleton_add _ _)

/-- One more entry. -/
theorem Shows.countEntry (h : C.Shows n done) : C.Shows n.countEntry (done + (1, 0, 0)) := by
  obtain ⟨k, hk, hsum⟩ := h.bytes
  have hsighted : (done + (1, 0, 0)).2.1 = done.2.1 := add_zero _
  refine ⟨?_, ⟨k, hk, ?_⟩, ?_⟩
  · change n.totals.inodes + 1 = .ofNat (done.1 + 1)
    rw [h.inodes, UInt64.ofNat_add]
    rfl
  · rw [hsighted]
    exact hsum
  · rw [hsighted]
    exact h.seen

/-- The bytes of one more file. -/
theorem Shows.countBytes (h : C.Shows n done) (length : UInt64) :
    C.Shows (n.countBytes length) (done + (0, 0, length.toNat)) := by
  obtain ⟨k, hk, hsum⟩ := h.bytes
  have hsighted : (done + (0, 0, length.toNat)).2.1 = done.2.1 := add_zero _
  refine ⟨h.inodes, ⟨k + length.toNat, ?_, ?_⟩, ?_⟩
  · change n.totals.bytes + length = _
    rw [hk, UInt64.ofNat_add, UInt64.ofNat_toNat]
  · rw [hsighted]
    change _ = done.2.2 + length.toNat + _
    omega
  · rw [hsighted]
    exact h.seen

/-- A sighting that counts. -/
theorem Shows.sight (h : C.Shows n done) (same : n'.totals = n.totals)
    (fresh : C.once = true → i ∉ done.2.1)
    (seen : C.once = true → ∀ j a, C.tree.attr? j = some a → a.isHardlinked = true →
      (n'.seen.contains j = true ↔ j ∈ i ::ₘ done.2.1)) : C.Shows n' (done + (0, {i}, 0)) := by
  obtain ⟨k, hk, hsum⟩ := h.bytes
  have hdistinct : C.distinct (i ::ₘ done.2.1) = i ::ₘ C.distinct done.2.1 := by
    unfold distinct
    cases honce : C.once with
    | false => rfl
    | true => exact Multiset.dedup_cons_of_notMem (fresh honce)
  refine ⟨?_, ⟨k, ?_, ?_⟩, ?_⟩
  · rw [same]
    exact h.inodes
  · rw [same]
    exact hk
  · rw [sighted_eq, hdistinct, bytes_cons, bytes_cons]
    change _ = done.2.2 + 0 + _
    omega
  · rw [sighted_eq]
    exact seen

/-- A repeated sighting makes up for the bytes. -/
theorem Shows.sightAgain (h : C.Shows n done) (same : n'.totals = n.totals) (once : C.once = true)
    (old : i ∈ done.2.1)
    (seen : ∀ j a, C.tree.attr? j = some a → a.isHardlinked = true →
      (n'.seen.contains j = true ↔ j ∈ i ::ₘ done.2.1)) :
    C.Shows n' (done + (0, {i}, C.tree.length i)) := by
  obtain ⟨k, hk, hsum⟩ := h.bytes
  have hdistinct : C.distinct (i ::ₘ done.2.1) = C.distinct done.2.1 := by
    unfold distinct
    rw [if_pos once, if_pos once]
    exact Multiset.dedup_cons_of_mem old
  refine ⟨?_, ⟨k, ?_, ?_⟩, ?_⟩
  · rw [same]
    exact h.inodes
  · rw [same]
    exact hk
  · rw [sighted_eq, hdistinct, bytes_cons]
    change _ = done.2.2 + C.tree.length i + _
    omega
  · rw [sighted_eq]
    exact fun _ => seen

/-- A file is remembered besides those that were. -/
private theorem contains_remember (n : Tally) (i j : Inode) :
    (n.remember i).seen.contains j = true ↔ j = i ∨ n.seen.contains j = true := by
  simp [Tally.remember, Seen.sight, Seen.contains, Std.TreeSet.contains_insert, @eq_comm _ j]

/-- The first sighting of a file with several names. -/
theorem Shows.remember_new (h : C.Shows n done) (once : C.once = true) {a : Attr}
    (ha : C.tree.attr? i = some a) (linked : a.isHardlinked = true)
    (new : n.seen.contains i = false) : C.Shows (n.remember i) (done + (0, {i}, 0)) := by
  have hiff := h.seen once i a ha linked
  refine h.sight rfl ?_ ?_
  · intro _ hold
    have hcontains := hiff.mpr hold
    rw [new] at hcontains
    cases hcontains
  · intro _ j b hb hlinked
    rw [contains_remember, Multiset.mem_cons, h.seen once j b hb hlinked]

/-- A later one. -/
theorem Shows.remember_old (h : C.Shows n done) (once : C.once = true) {a : Attr}
    (ha : C.tree.attr? i = some a) (linked : a.isHardlinked = true)
    (old : n.seen.contains i = true) :
    C.Shows (n.remember i) (done + (0, {i}, C.tree.length i)) := by
  have hiff := h.seen once i a ha linked
  refine h.sightAgain rfl once (hiff.mp old) ?_
  intro j b hb hlinked
  rw [contains_remember, Multiset.mem_cons, h.seen once j b hb hlinked]

/-- The sighting of a file with one name, or of any file if all sightings count. -/
theorem Shows.skip (h : C.Shows n done) {a : Attr} (ha : C.tree.attr? i = some a)
    (plain : C.once = true → a.isHardlinked = false ∧ i ∉ done.2.1) :
    C.Shows n (done + (0, {i}, 0)) := by
  apply h.sight rfl (fun once => (plain once).2)
  intro once j b hb hlinked
  have hne : j ≠ i := by
    intro heq
    subst heq
    obtain rfl := Option.some.inj (ha.symm.trans hb)
    rw [(plain once).1] at hlinked
    cases hlinked
  rw [h.seen once j b hb hlinked, Multiset.mem_cons]
  exact (or_iff_right hne).symm

end Shows

section Fits

variable {C} {P : Deployment → Prop} {pre : Nat × Multiset Inode × Nat → Prop}
  {due done : Nat × Multiset Inode × Nat} {s : Flagged Deployment} {n : Tally} {e : Entry} {d : Dir}

/-- A request that is always answered pays nothing. -/
private theorem asks {r : Request} {a : r.Answer}
    (h : ((Deployment.metadata C.client).call r).Always P (· = .ok a)) :
    (C.walk.metadata.call r).Pays (C.ledgerIn P) pre due
      ((C.ledgerIn P).Fine due fun b due' => b = a ∧ due' = due) := by
  have hinner : (C.walk.metadata.call r).Always (fun s => P s.inner) (· = .ok a) := h.withFlag
  refine (hinner.pays (C.ledgerIn P) (fun _ _ _ hbooks => hbooks.1)
    fun _ _ _ _ hbooks hkept => ⟨hkept, hbooks.2⟩).mono _ ?_
  rintro _ _ ⟨rfl, rfl⟩
  exact ⟨rfl, rfl⟩

/-- What is listed during the count is a directory. -/
theorem isDir_of_mem (hd : d ∈ C.forest.dirs C.root) :
    ∃ a, C.tree.attr? d.inode = some a ∧ a.kind = .dir := by
  rcases C.sound.has_of_mem_dirs hd with rfl | ⟨-, h⟩
  · exact C.isDir
  · exact h

theorem mem_targets : e ∈ C.targets ↔ C.tree.Under C.root.inode e :=
  C.sound.mem_below

/-- Only entries of the tree are counted. -/
private theorem has_of_mem_targets (he : e ∈ C.targets) : C.tree.Has e := by
  obtain ⟨c, -, hc⟩ := Forest.mem_below.mp he
  exact (Tree.Sound.mem_forest.mp hc).2

/-- A file is met no more often than it has names. -/
private theorem count_le_nlink {a : Attr} {i : Inode} (ha : C.tree.attr? i = some a)
    (file : a.kind = .file) : (Tree.fileInodes C.targets).count i ≤ a.nlink := by
  let mine := (C.targets.filter fun e => !e.kind.isDir).filter fun e => e.inode == i
  obtain ⟨names, hnames, -, -, hnlink⟩ := C.sound.named i a ha file
  have hhas : ∀ e ∈ mine, C.tree.Has e ∧ e.inode = i := by
    intro e he
    obtain ⟨he, hinode⟩ := List.mem_filter.mp he
    have hhas := has_of_mem_targets (List.mem_of_mem_filter he)
    exact ⟨hhas, by simpa using hinode⟩
  have hnodup : (mine.map fun e => (e.parent, e.name)).Nodup := by
    have hmine : mine.Nodup := ((C.sound.nodup_below C.root).filter _).filter _
    apply hmine.map_on
    intro e he e' he' heq
    obtain ⟨hparent, hname⟩ := Prod.mk.inj heq
    exact (hhas e he).1.unique (hhas e' he').1 hparent hname
  have hsubset : (mine.map fun e => (e.parent, e.name)) ⊆ names := by
    intro x hx
    obtain ⟨e, he, rfl⟩ := List.mem_map.mp hx
    obtain ⟨⟨hat, -⟩, hinode⟩ := hhas e he
    rw [hinode] at hat
    exact (hnames.mem_iff _ _).mpr hat
  calc (Tree.fileInodes C.targets).count i = mine.length := by
        rw [Tree.fileInodes, List.count, List.countP_map, List.countP_eq_length_filter]
        rfl
    _ = (mine.map fun e => (e.parent, e.name)).length := (List.length_map _).symm
    _ ≤ names.length := (hnodup.subperm hsubset).length_le
    _ = a.nlink := hnlink.symm

/-- A file with one name that is still to be sighted was not sighted before. -/
private theorem not_mem_of_finds {a : Attr} {i : Inode} (ha : C.tree.attr? i = some a)
    (file : a.kind = .file) (single : a.isHardlinked = false)
    (h : (C.ledgerIn P).Finds pre due s n done) (sighting : due.2.1 = {i}) : i ∉ done.2.1 := by
  obtain ⟨more, hall⟩ := h.due
  have hsighted : ((Tree.fileInodes C.targets : List Inode) : Multiset Inode) =
      done.2.1 + due.2.1 + more.2.1 :=
    congrArg (fun all => all.2.1) ((C.allIn_eq P).symm.trans hall)
  rw [sighting] at hsighted
  have hcount : (Tree.fileInodes C.targets).count i = done.2.1.count i + 1 + more.2.1.count i := by
    rw [← Multiset.coe_count, hsighted, Multiset.count_add, Multiset.count_add,
      Multiset.count_singleton_self]
  have hle := count_le_nlink ha file
  have hnlink : a.nlink < 2 := by
    by_contra hmany
    have hlinked := (Attr.isHardlinked_iff a).mpr ⟨file, by omega⟩
    rw [single] at hlinked
    cases hlinked
  rw [← Multiset.count_eq_zero]
  omega

/-- Adding the length of a file to the tally pays for its bytes. -/
private theorem addBytes (length : UInt64) (whole : Nat × Multiset Inode × Nat) :
    (Action.modify (Tally.countBytes length) .succeed).Pays (C.ledgerIn P) C.walk.metadata pre whole
      (0, 0, length.toNat) := by
  intro s n done hfinds
  obtain ⟨hkept, hshows⟩ := hfinds.books
  exact ⟨(0, 0, length.toNat), 0, (add_zero _).symm, ⟨hkept, hshows.countBytes length⟩, rfl⟩

/-- A file is sighted and its bytes are added, once if that is asked for. -/
private theorem countFile {a : Attr} {i : Inode} (ha : C.tree.attr? i = some a)
    (file : a.kind = .file) (whole : Nat × Multiset Inode × Nat) :
    (Action.countFile C.once a).Pays (C.ledgerIn P) C.walk.metadata pre whole
      (0, {i}, C.tree.length i) := by
  have hinode : a.inode = i := (C.sound.inode i a ha).1
  have hlength : C.tree.length i = a.length.toNat := Tree.length_eq ha
  unfold Action.countFile
  by_cases hcheck : (C.once && a.isHardlinked) = true
  · rw [if_pos hcheck, hinode]
    obtain ⟨honce, hlinked⟩ := Bool.and_eq_true_iff.mp hcheck
    intro s n done hfinds
    obtain ⟨hkept, hshows⟩ := hfinds.books
    cases hseen : n.seen.contains i with
    | true =>
      have hold : (n.seen.sight i).1 = false := by simp [Seen.sight, hseen]
      have hremember := hshows.remember_old honce ha hlinked hseen
      refine ⟨(0, {i}, C.tree.length i), 0, (add_zero _).symm, ⟨hkept, hremember⟩, ?_⟩
      simp only [hold, Bool.false_eq_true, if_false]
      rfl
    | false =>
      have hnew : (n.seen.sight i).1 = true := by simp [Seen.sight, hseen]
      have hremember := hshows.remember_new honce ha hlinked hseen
      refine ⟨(0, {i}, 0), (0, 0, a.length.toNat), ?_, ⟨hkept, hremember⟩, ?_⟩
      · simp [hlength]
      · simp only [hnew, if_true]
        exact addBytes a.length whole
  · rw [if_neg hcheck, hlength]
    intro s n done hfinds
    obtain ⟨hkept, hshows⟩ := hfinds.books
    have hplain : C.once = true → a.isHardlinked = false ∧ i ∉ done.2.1 := by
      intro honce
      have hsingle : a.isHardlinked = false := by simpa [honce] using hcheck
      exact ⟨hsingle, not_mem_of_finds ha file hsingle hfinds rfl⟩
    have hboth := (hshows.skip ha hplain).countBytes a.length
    have hsum : done + (0, {i}, 0) + (0, 0, a.length.toNat) = done + (0, {i}, a.length.toNat) := by
      rw [add_assoc]
      simp
    rw [hsum] at hboth
    exact ⟨(0, {i}, a.length.toNat), 0, (add_zero _).symm, ⟨hkept, hboth⟩, rfl⟩

/-- A visit to a file pays for it: it asks for the attributes, and adds the bytes unless they were
added before. -/
private theorem visitFile {a : Attr} (ha : C.tree.attr? e.inode = some a) (hkind : a.kind = e.kind)
    (file : e.kind = .file)
    (answered : ((Deployment.metadata C.client).call
      (.getAttr C.plan.fs e.inode d.inode C.plan.epoch)).Always P (· = .ok a)) :
    (C.walk.visitor.act C.walk.plan (.visit d e)).Pays (C.ledgerIn P) C.walk.metadata pre
      (C.value e) (C.value e) := by
  have hact : C.walk.visitor.act C.walk.plan (.visit d e) = .modify Tally.countEntry
      (.ask (.getAttr C.plan.fs e.inode d.inode C.plan.epoch) (Action.countFile C.once)) := by
    simp [walk, Visitor.act, tallyVisitor, file]
  have hvalue : C.value e = (1, {e.inode}, C.tree.length e.inode) :=
    if_neg (by simp [file, Kind.isDir])
  rw [hact]
  intro s n done hfinds
  obtain ⟨hkept, hshows⟩ := hfinds.books
  refine ⟨(1, 0, 0), (0, {e.inode}, C.tree.length e.inode), ?_,
    ⟨hkept, hshows.countEntry⟩, ?_⟩
  · rw [hvalue]
    simp
  apply (Action.pays_request _ _ _ _ _ _).mpr
  apply (asks answered).mono (C.ledgerIn P)
  intro outcome due hfine
  cases outcome with
  | error h => exact absurd trivial hfine.1
  | ok b =>
    obtain ⟨rfl, rfl⟩ := hfine
    exact countFile ha (hkind.trans file) _

/-- A count whose requests are always answered pays what it owes. -/
theorem fitsIn (C : Census)
    (lists : ∀ d ∈ C.forest.dirs C.root, ((Deployment.metadata C.client).call
      (.listEntries C.plan.fs d.inode C.plan.epoch)).Always P
        (· = .ok (C.forest.listing d.inode)))
    (attrs : ∀ d ∈ C.forest.dirs C.root, ∀ e ∈ C.forest.listing d.inode, e.kind = .file →
      ∀ a, C.tree.attr? e.inode = some a → ((Deployment.metadata C.client).call
        (.getAttr C.plan.fs e.inode d.inode C.plan.epoch)).Always P (· = .ok a)) :
    (C.ledgerIn P).Fits C.walk := by
  refine ⟨fun s n done h => h, fun d hd => asks (lists d hd), ?_⟩
  intro site hbelongs
  cases site with
  | visit d e =>
    cases hkind : e.kind with
    | file =>
      obtain ⟨hdir, hlisted⟩ : d ∈ C.forest.dirs C.root ∧ e ∈ C.forest.listing d.inode := hbelongs
      obtain ⟨-, -, a, ha, hattr⟩ := Tree.Sound.mem_forest.mp hlisted
      exact visitFile ha hattr hkind (attrs d hdir e hlisted hkind a ha)
    | dir =>
      have hact : C.walk.visitor.act C.walk.plan (.visit d e) =
          .modify Tally.countEntry .succeed := by
        simp [walk, Visitor.act, tallyVisitor, hkind]
      have hworth : (C.ledgerIn P).worth (.visit d e) = (1, 0, 0) :=
        if_pos (Kind.isDir_iff.mpr hkind)
      rw [hact, hworth]
      intro s n done hfinds
      obtain ⟨hkept, hshows⟩ := hfinds.books
      exact ⟨(1, 0, 0), 0, (add_zero _).symm, ⟨hkept, hshows.countEntry⟩, rfl⟩
  | leave d => rfl

/-- A service on which nothing has changed has lost nothing. -/
private theorem left (s : Service) (same : C.service.SameNames s) :
    C.service.Left C.plan.fs C.filesystem [] C.filesystem.tree s :=
  (Service.Left.start C.found).same same

/-- A request that only looks brings what is there. -/
private theorem looks {r : Request} {i : Inode} (goes : r.destination = .shardOf i) {a : r.Answer}
    (answer : ∀ s : Service, C.service.SameNames s → s.Calm C.client → s.serve r = (.ok a, s)) :
    ((Deployment.metadata C.client).call r).Always C.Clear (· = .ok a) := by
  have hobeys : (C.client.call Service.transport r).Obeys (C.client.contract True r) none
      (Granted True) := Client.call_obeys goes
  have hcall : (C.client.call Service.transport r).Always
      (fun st => C.service.SameNames st.service ∧ st.Calm C.client) (· = .ok a) := by
    refine hobeys.refine (fun g _ => ∀ b, g = some b → b = a) (fun _ h => nomatch h) ?_ ?_ ?_
    · intro g _ st hgood ⟨hsame, hcalm⟩ _
      exact ⟨hcalm, fun _ => ⟨a, by rw [answer _ hsame hcalm.service]⟩⟩
    · rintro g _ st st' g' hgood ⟨hsame, hcalm⟩ ⟨hmoves, hcalm'⟩
      rcases hmoves with ⟨hidle⟩ | ⟨hgranted, hafter⟩
      · exact ⟨(), ⟨hsame.trans hidle, hcalm' trivial⟩, hgood⟩
      · rw [answer _ hsame hcalm.service] at hgranted hafter
        refine ⟨(), ⟨hsame.trans hafter, hcalm' trivial⟩, ?_⟩
        rintro b ⟨⟩
        exact (Except.ok.inj hgranted).symm
    · rintro (h | b) g _ hgood hgranted
      · exact absurd trivial hgranted.1
      · exact congrArg _ (hgood b hgranted)
  exact hcall.on Deployment.clientPart (fun _ h => h) fun _ _ _ h => h

/-- A count pays what it owes. -/
theorem fits (C : Census) : C.ledger.Fits C.walk := by
  rw [C.ledger_eq]
  refine C.fitsIn ?_ ?_
  · intro d hd
    obtain ⟨a, ha, hdir⟩ := isDir_of_mem hd
    refine looks (r := .listEntries C.plan.fs d.inode C.plan.epoch) (i := d.inode) rfl ?_
    intro s hsame hcalm
    have hlist := (left s hsame).listEntries_eq C.current (hcalm.lists d.inode)
    exact Prod.ext (hlist.trans (Tree.list_eq_ok ha hdir)) rfl
  · intro d _ e _ _ a ha
    refine looks (r := .getAttr C.plan.fs e.inode d.inode C.plan.epoch) rfl ?_
    intro s hsame hcalm
    exact Prod.ext ((left s hsame).getAttr_eq_ok C.current (hcalm.attrs e.inode) ha d.inode) rfl

end Fits

end Census

end ShardSweep
