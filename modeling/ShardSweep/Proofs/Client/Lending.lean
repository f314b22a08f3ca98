import ShardSweep.Proofs.Client.Accounts
import ShardSweep.Proofs.Client.Borrowing

/-!
# What a pool owes to its borrowers

However borrowers take turns, every connection is in one place: idle, in the hands of one of them,
or given up.  Each is lent for the endpoint that was dialed for it, an endpoint is dialed only for
want of an idle connection to it, and of several idle ones the latest that came back is lent.

A `Note` is kept on each checkout under way.  The invariant has four parts, each of which is kept by
every step for reasons of its own: where the connections are (`Told`), in which order they came back
(`Stacked`), what was counted (`Counted`), and what the checkouts have found (`Fair`).

* `Quest.Goes.kept`: one step of a checkout;
* `Lending.Act.kept`: whatever happens;
* `Lending.lent_out_once`: what holds of a pool at any moment.
-/

namespace ShardSweep

variable {τ κ : Type}

namespace Glance

/-- There is no idle connection to the endpoint. -/
def Lacks (g : Glance κ) (endpoint : Endpoint) : Prop :=
  ∀ entry ∈ g.idle, entry.1 ≠ endpoint

/-- A checkout gets the idle connection to its endpoint that came back last, or one that was dialed
since because there was none. -/
inductive Gets (g : Glance κ) (endpoint : Endpoint) (line : Line κ) : Prop
  | reused (idle : (endpoint, line) ∈ g.idle) (returned : line.number ∈ g.returned)
      (latest : ∀ entry ∈ g.idle, entry.1 = endpoint →
        g.returned.idxOf line.number ≤ g.returned.idxOf entry.2.number)
  | dialed (lacks : g.Lacks endpoint) (new : .dial line.number endpoint ∉ g.seen)

end Glance

/-- What is kept on a checkout under way. -/
structure Note (κ : Type) where
  endpoint : Endpoint
  glance : Option (Glance κ)
  quest : Quest κ

namespace Note

/-- The number of the connection that a checkout has, or will have, and its endpoint. -/
def tags (n : Note κ) : Multiset (Nat × Endpoint) :=
  match n.quest with
  | .dialing m => {(m, n.endpoint)}
  | .holding line => {(line.number, n.endpoint)}
  | _ => 0

/-- Connections that were counted and are not yet lent. -/
def held (n : Note κ) : Nat :=
  match n.quest with
  | .holding _ => 1
  | _ => 0

/-- Failures that were counted and are not yet reported. -/
def missing (n : Note κ) : Nat :=
  match n.quest with
  | .failed => 1
  | _ => 0

/-- What a checkout has found fits what there was to see. -/
def Fair (seen : List Sighting) (n : Note κ) : Prop :=
  match n.quest with
  | .seeking => n.glance = none
  | .missed => ∃ g, n.glance = some g ∧ g.Lacks n.endpoint ∧ g.seen <:+ seen
  | .dialing m => ∃ g, n.glance = some g ∧ g.Lacks n.endpoint ∧ .dial m n.endpoint ∉ g.seen
  | .holding line => ∃ g, n.glance = some g ∧ g.Gets n.endpoint line
  | .failed => n.glance ≠ none

/-- What was fair stays so when more is seen. -/
theorem Fair.mono {n : Note κ} {seen seen' : List Sighting} (h : n.Fair seen)
    (later : seen <:+ seen') : n.Fair seen' := by
  obtain ⟨endpoint, glance, quest⟩ := n
  cases quest with
  | missed =>
    obtain ⟨g, hglance, hlacks, hseen⟩ := h
    exact ⟨g, hglance, hlacks, hseen.trans later⟩
  | _ => exact h

/-- Nothing was counted for a checkout that has not looked yet. -/
theorem Fair.unseen {n : Note κ} {seen : List Sighting} (h : n.Fair seen)
    (unseen : n.glance = none) : n.held = 0 ∧ n.missing = 0 := by
  obtain ⟨endpoint, glance, quest⟩ := n
  obtain rfl : glance = none := unseen
  cases quest with
  | holding line =>
    obtain ⟨g, hglance, -⟩ := h
    cases hglance
  | failed => exact absurd rfl h
  | _ => exact ⟨rfl, rfl⟩

end Note

/-- A checkout does what is noted of it. -/
structure Checkout.Noted (u : Checkout τ κ) (n : Note κ) : Prop where
  endpoint : u.endpoint = n.endpoint
  glance : u.glance = n.glance
  obeys : u.rest.Obeys (Quest.contract u.endpoint) n.quest Quest.Ends

/-- The number of a lent connection and the endpoint that it is lent for. -/
def Loan.tag (loan : Loan κ) : Nat × Endpoint :=
  (loan.line.number, loan.endpoint)

namespace Lending

/-- The numbers of all connections, with the endpoints that they are filed under or lent for. -/
def tags (l : Lending τ κ) (ns : Multiset (Note κ)) : Multiset (Nat × Endpoint) :=
  ↑(l.idle.map fun entry => (entry.2.number, entry.1)) + l.lent.map Loan.tag +
    l.discarded.map Loan.tag + (ns.map Note.tags).sum

/-- The tags of one note more. -/
theorem tags_cons (l : Lending τ κ) (n : Note κ) (ns : Multiset (Note κ)) :
    l.tags (n ::ₘ ns) = n.tags + l.tags ns := by
  rw [tags, tags, Multiset.map_cons, Multiset.sum_cons]
  ac_rfl

end Lending

/-- Every connection is in one place, which fits its dial. -/
structure Told (seen : List Sighting) (tags : Multiset (Nat × Endpoint)) : Prop where
  fresh : ∀ n endpoint, .dial n endpoint ∈ seen → n < seen.length
  single : ∀ n endpoint endpoint', .dial n endpoint ∈ seen → .dial n endpoint' ∈ seen →
    endpoint = endpoint'
  nodup : (tags.map Prod.fst).Nodup
  dialed : ∀ tag ∈ tags, .dial tag.1 tag.2 ∈ seen

namespace Told

variable {seen : List Sighting} {tags tags' : Multiset (Nat × Endpoint)}

/-- Connections move, or are lost sight of. -/
theorem le (h : Told seen tags) (fewer : tags' ≤ tags) : Told seen tags' :=
  ⟨h.fresh, h.single, Multiset.nodup_of_le (Multiset.map_le_map fewer) h.nodup,
    fun tag htag => h.dialed tag (Multiset.mem_of_le fewer htag)⟩

/-- Nothing is dialed. -/
theorem append (h : Told seen tags) {sightings : List Sighting}
    (free : ∀ n endpoint, .dial n endpoint ∉ sightings) : Told (sightings ++ seen) tags := by
  have hmem : ∀ n endpoint, .dial n endpoint ∈ sightings ++ seen ↔ .dial n endpoint ∈ seen :=
    fun n endpoint => List.mem_append.trans (or_iff_right (free n endpoint))
  refine ⟨fun n endpoint hn => ?_, fun n endpoint endpoint' hn hn' => ?_, h.nodup,
    fun tag htag => ?_⟩
  · rw [List.length_append]
    exact Nat.lt_of_lt_of_le (h.fresh n endpoint ((hmem n endpoint).mp hn)) (Nat.le_add_left _ _)
  · exact h.single n endpoint endpoint' ((hmem _ _).mp hn) ((hmem _ _).mp hn')
  · exact (hmem _ _).mpr (h.dialed tag htag)

/-- A connection more. -/
theorem dial (h : Told seen tags) (endpoint : Endpoint) :
    Told (.dial seen.length endpoint :: seen) ((seen.length, endpoint) ::ₘ tags) := by
  have hold : ∀ n e, .dial n e ∈ Sighting.dial seen.length endpoint :: seen →
      (n = seen.length ∧ e = endpoint) ∨ (n < seen.length ∧ .dial n e ∈ seen) := by
    intro n e hn
    rcases List.mem_cons.mp hn with heq | hn
    · cases heq
      exact .inl ⟨rfl, rfl⟩
    · exact .inr ⟨h.fresh n e hn, hn⟩
  refine ⟨fun n e hn => ?_, fun n e e' hn hn' => ?_, ?_, fun tag htag => ?_⟩
  · rw [List.length_cons]
    rcases hold n e hn with ⟨heq, -⟩ | ⟨hlt, -⟩ <;> omega
  · rcases hold n e hn with ⟨heq, he⟩ | ⟨hlt, hn⟩ <;>
      rcases hold n e' hn' with ⟨heq', he'⟩ | ⟨hlt', hn'⟩
    · exact he.trans he'.symm
    · omega
    · omega
    · exact h.single n e e' hn hn'
  · rw [Multiset.map_cons, Multiset.nodup_cons]
    refine ⟨fun hmem => ?_, h.nodup⟩
    obtain ⟨tag, htag, heq⟩ := Multiset.mem_map.mp hmem
    exact absurd (h.fresh _ _ (h.dialed tag htag)) (heq ▸ Nat.lt_irrefl _)
  · rcases Multiset.mem_cons.mp htag with rfl | htag
    · exact List.mem_cons_self
    · exact List.mem_cons_of_mem _ (h.dialed tag htag)

end Told

/-- What a pool lends was filed under the endpoint, and nothing in front of it was. -/
theorem Pool.exists_lend {p : Pool κ} {endpoint : Endpoint} {link : κ}
    (found : (p.lend endpoint).1 = some link) : ∃ newer older,
    p.idle = newer ++ (endpoint, link) :: older ∧
      (p.lend endpoint).2 = { p with idle := newer ++ older, reused := p.reused + 1 } ∧
      ∀ entry ∈ newer, entry.1 ≠ endpoint := by
  unfold lend at found ⊢
  cases htake : takeFirst endpoint p.idle with
  | none => simp [htake] at found
  | some taken =>
    obtain ⟨link', others⟩ := taken
    obtain ⟨newer, older, hidle, rfl, hnewer⟩ := takeFirst_eq_some htake
    simp only [htake, Option.some.injEq] at found
    obtain rfl := found
    exact ⟨newer, older, hidle, rfl, hnewer⟩

/-- Idle connections came back, the first of them last. -/
structure Stacked (idle : List (Endpoint × Line κ)) (returned : List Nat) : Prop where
  known : ∀ entry ∈ idle, entry.2.number ∈ returned
  order : idle.Pairwise fun x y => returned.idxOf x.2.number < returned.idxOf y.2.number

namespace Stacked

variable {idle idle' : List (Endpoint × Line κ)} {returned : List Nat} {endpoint : Endpoint}
  {line : Line κ}

/-- Taking links away does not disturb the order of the others. -/
theorem sublist (h : Stacked idle returned) (fewer : idle'.Sublist idle) : Stacked idle' returned :=
  ⟨fun entry hentry => h.known entry (fewer.subset hentry), h.order.sublist fewer⟩

/-- The connection that came back last is the first. -/
theorem put (h : Stacked idle returned) (other : ∀ entry ∈ idle, entry.2.number ≠ line.number) :
    Stacked ((endpoint, line) :: idle) (line.number :: returned) := by
  have hlater : ∀ entry ∈ idle, (line.number :: returned).idxOf entry.2.number =
      returned.idxOf entry.2.number + 1 :=
    fun entry hentry => List.idxOf_cons_ne _ (other entry hentry).symm
  refine ⟨List.forall_mem_cons.mpr ⟨List.mem_cons_self, fun entry hentry =>
    List.mem_cons_of_mem _ (h.known entry hentry)⟩, List.pairwise_cons.mpr ⟨?_, ?_⟩⟩
  · intro entry hentry
    rw [hlater entry hentry, List.idxOf_cons_self]
    exact Nat.succ_pos _
  · refine h.order.imp_of_mem fun hx hy hlt => ?_
    rw [hlater _ hx, hlater _ hy]
    exact Nat.succ_lt_succ hlt

/-- What is lent to an endpoint is the one that came back last. -/
theorem gets {p : Pool (Line κ)} {seen : List Sighting} (h : Stacked p.idle returned)
    (found : (p.lend endpoint).1 = some line) :
    (⟨p.idle, returned, seen⟩ : Glance κ).Gets endpoint line := by
  obtain ⟨newer, older, hidle, -, hnewer⟩ := Pool.exists_lend found
  have hmem : (endpoint, line) ∈ p.idle := by simp [hidle]
  refine .reused hmem (h.known _ hmem) fun entry hentry hto => ?_
  have horder := h.order
  simp only [hidle, List.mem_append, List.mem_cons] at hentry horder
  obtain ⟨-, hrest, -⟩ := List.pairwise_append.mp horder
  rcases hentry with hentry | rfl | hentry
  · exact absurd hto (hnewer entry hentry)
  · exact Nat.le_refl _
  · exact Nat.le_of_lt ((List.pairwise_cons.mp hrest).1 entry hentry)

end Stacked

namespace Lending

/-- What was counted, with what has been counted for the checkouts under way. -/
structure Counted (l : Lending τ κ) (ns : Multiset (Note κ)) : Prop where
  connections : l.pooled.pool.dialed = l.idle.length + l.lent.card + l.pooled.pool.discarded +
    (ns.map Note.held).sum
  served : l.served + (ns.map Note.held).sum = l.pooled.pool.dialed + l.pooled.pool.reused
  failed : l.failed + (ns.map Note.missing).sum = l.pooled.pool.dialFailures

/-- What is known of a pool, with the notes on the checkouts under way. -/
structure Kept (l : Lending τ κ) (ns : Multiset (Note κ)) : Prop where
  told : Told l.seen (l.tags ns)
  stacked : Stacked l.idle l.returned
  counted : l.Counted ns
  lent : ∀ loan ∈ l.lent, loan.glance.Gets loan.endpoint loan.line
  fair : ∀ n ∈ ns, n.Fair l.seen

end Lending

namespace Quest

variable {l : Lending τ κ} {us : Multiset (Checkout τ κ)} {ns : Multiset (Note κ)}
  {endpoint : Endpoint} {glance glance' : Option (Glance κ)} {e e' : Quest κ}
  {p p' : Pooled (Watched τ) (Line κ)}

/-- Nothing that was seen is forgotten. -/
theorem Goes.seen (goes : e.Goes endpoint p p' e') : p.net.seen <:+ p'.net.seen := by
  cases goes with
  | dial => exact List.suffix_cons _ _
  | inside seen => exact seen ▸ List.suffix_rfl
  | _ => exact List.suffix_rfl

/-- A checkout takes an idle connection, or opens one that is new. -/
theorem Goes.told (goes : e.Goes endpoint l.pooled p e')
    (told : Told l.seen (l.tags (⟨endpoint, glance, e⟩ ::ₘ ns))) :
    Told p.net.seen
      (Lending.tags { l with pooled := p, underway := us } (⟨endpoint, glance', e'⟩ ::ₘ ns)) := by
  rw [Lending.tags_cons] at told ⊢
  cases goes with
  | lend found =>
    obtain ⟨newer, older, hidle, hlend, -⟩ := Pool.exists_lend found
    refine told.le (le_of_eq ?_)
    simp only [Lending.tags, Lending.idle, hlend, hidle, List.map_append, List.map_cons, Note.tags,
      ← Multiset.coe_add, ← Multiset.cons_coe, ← Multiset.singleton_add]
    ac_rfl
  | dial =>
    rw [Note.tags, zero_add] at told
    exact told.dial endpoint
  | inside seen => exact seen.symm ▸ told
  | fail =>
    refine told.le ?_
    rw [Note.tags, zero_add]
    exact Multiset.le_add_left _ _
  | miss | «open» => exact told

/-- Connections are taken out of the pool only. -/
theorem Goes.stacked {returned : List Nat} (goes : e.Goes endpoint p p' e')
    (stacked : Stacked p.pool.idle returned) : Stacked p'.pool.idle returned := by
  cases goes with
  | lend found =>
    obtain ⟨newer, older, hidle, hlend, -⟩ := Pool.exists_lend found
    rw [hlend]
    exact stacked.sublist (hidle ▸ (List.sublist_cons_self _ _).append_left newer)
  | _ => exact stacked

/-- What is counted for a checkout is counted once. -/
theorem Goes.counted (goes : e.Goes endpoint l.pooled p e')
    (counted : l.Counted (⟨endpoint, glance, e⟩ ::ₘ ns)) :
    Lending.Counted { l with pooled := p, underway := us } (⟨endpoint, glance', e'⟩ ::ₘ ns) := by
  obtain ⟨connections, served, failed⟩ := counted
  simp only [Multiset.map_cons, Multiset.sum_cons, Lending.idle] at connections served failed
  cases goes with
  | lend found =>
    obtain ⟨newer, older, hidle, hlend, -⟩ := Pool.exists_lend found
    simp only [Note.held, Note.missing, hidle, List.length_append, List.length_cons] at *
    constructor <;> simp [Note.held, Note.missing, Lending.idle, hlend] <;> omega
  | _ =>
    simp only [Note.held, Note.missing] at connections served failed
    constructor <;> simp [Note.held, Note.missing, Lending.idle, Pooled.onPool, Pool.countDial,
      Pool.countDialFailure] <;> omega

/-- What a checkout has found fits what there was to see for it. -/
theorem Goes.fair (goes : e.Goes endpoint l.pooled p e')
    (fair : Note.Fair l.seen ⟨endpoint, glance, e⟩) (stacked : Stacked l.idle l.returned)
    (fresh : ∀ n endpoint, .dial n endpoint ∈ l.seen → n < l.seen.length) :
    Note.Fair p.net.seen ⟨endpoint, some (glance.getD l.glance), e'⟩ := by
  cases goes with
  | lend found =>
    obtain rfl : glance = none := fair
    exact ⟨_, rfl, stacked.gets found⟩
  | miss missing =>
    obtain rfl : glance = none := fair
    refine ⟨_, rfl, ?_, List.suffix_rfl⟩
    rintro ⟨_, line⟩ hentry rfl
    exact Pool.not_mem_of_lend missing hentry
  | dial =>
    obtain ⟨g, rfl, hlacks, hseen⟩ := fair
    refine ⟨g, rfl, hlacks, fun hmem => ?_⟩
    exact Nat.lt_irrefl _ (fresh _ _ (hseen.subset hmem))
  | inside seen =>
    obtain ⟨g, rfl, hfair⟩ := fair
    exact ⟨g, rfl, hfair⟩
  | «open» =>
    obtain ⟨g, rfl, hlacks, hnew⟩ := fair
    exact ⟨g, rfl, .dialed hlacks hnew⟩
  | fail => exact nofun

/-- The endpoint that is dialed had no idle connection. -/
theorem Goes.lacks {seen : List Sighting} {m : Nat} {dialed : Endpoint}
    (goes : e.Goes endpoint p p' e') (fair : Note.Fair seen ⟨endpoint, glance, e⟩)
    (after : .dial m dialed ∈ p'.net.seen) (before : .dial m dialed ∉ p.net.seen) :
    endpoint = dialed ∧ ∃ g, glance = some g ∧ g.Lacks dialed := by
  cases goes with
  | dial =>
    obtain ⟨g, hglance, hlacks, -⟩ := fair
    rcases List.mem_cons.mp after with heq | hmem
    · cases heq
      exact ⟨rfl, g, hglance, hlacks⟩
    · exact absurd hmem before
  | inside seen => exact absurd (seen ▸ after) before
  | _ => exact absurd after before

/-- A step of a checkout leaves everything in order. -/
theorem Goes.kept (goes : e.Goes endpoint l.pooled p e')
    (kept : l.Kept (⟨endpoint, glance, e⟩ ::ₘ ns)) :
    Lending.Kept { l with pooled := p, underway := us }
      (⟨endpoint, some (glance.getD l.glance), e'⟩ ::ₘ ns) := by
  obtain ⟨hfair, hothers⟩ := Multiset.forall_mem_cons.mp kept.fair
  refine ⟨goes.told kept.told, goes.stacked kept.stacked, goes.counted kept.counted, kept.lent, ?_⟩
  exact Multiset.forall_mem_cons.mpr ⟨goes.fair hfair kept.stacked kept.told.fresh,
    fun n hn => (hothers n hn).mono goes.seen⟩

end Quest

namespace Lending

variable {transport : Transport τ κ} {l l' : Lending τ κ} {ns : Multiset (Note κ)}

/-- The numbers of the connections that are idle, lent or given up. -/
def numbers (l : Lending τ κ) : Multiset Nat :=
  ↑(l.idle.map fun entry => entry.2.number) + l.lent.map (·.line.number) +
    l.discarded.map (·.line.number)

/-- A link that is lent has a tag. -/
theorem numbers_le (l : Lending τ κ) (ns : Multiset (Note κ)) :
    l.numbers ≤ (l.tags ns).map Prod.fst := by
  have hnumbers :
      (l.tags ns).map Prod.fst = l.numbers + ((ns.map Note.tags).sum).map Prod.fst := by
    simp [tags, numbers, Loan.tag, Function.comp_def]
  rw [hnumbers]
  exact Multiset.le_add_right _ _

variable {us : Multiset (Checkout τ κ)} {ls : Multiset (Loan κ)} {loan : Loan κ}
  {endpoint : Endpoint} {glance : Option (Glance κ)}

/-- A checkout begins. -/
private theorem Kept.ask (kept : l.Kept ns) :
    Kept { l with underway := us } (⟨endpoint, none, .seeking⟩ ::ₘ ns) := by
  obtain ⟨told, stacked, ⟨connections, served, failed⟩, lent, fair⟩ := kept
  refine ⟨?_, stacked, ?_, lent, Multiset.forall_mem_cons.mpr ⟨rfl, fair⟩⟩
  · rw [tags_cons, Note.tags, zero_add]
    exact told
  · constructor <;> simpa [Note.held, Note.missing, Lending.idle]

/-- A checkout hands over the connection that it has. -/
private theorem Kept.serve {line : Line κ} {g : Glance κ}
    (kept : l.Kept (⟨endpoint, some g, .holding line⟩ ::ₘ ns)) :
    Kept { l with underway := us, lent := ⟨endpoint, line, g⟩ ::ₘ l.lent, served := l.served + 1 }
      ns := by
  obtain ⟨told, stacked, ⟨connections, served, failed⟩, lent, fair⟩ := kept
  obtain ⟨⟨g', hg, hgets⟩, hfair⟩ := Multiset.forall_mem_cons.mp fair
  obtain rfl := Option.some.inj hg
  refine ⟨told.le (le_of_eq ?_), stacked, ?_, Multiset.forall_mem_cons.mpr ⟨hgets, lent⟩, hfair⟩
  · simp only [tags, Note.tags, Loan.tag, Multiset.map_cons, Multiset.sum_cons]
    simp only [Lending.idle, ← Multiset.singleton_add]
    ac_rfl
  · simp only [Multiset.map_cons, Multiset.sum_cons, Note.held, Note.missing] at *
    constructor <;> simp [Lending.idle] at connections ⊢ <;> omega

/-- A checkout has got nothing. -/
private theorem Kept.refuse (kept : l.Kept (⟨endpoint, glance, .failed⟩ ::ₘ ns)) :
    Kept { l with underway := us, failed := l.failed + 1 } ns := by
  obtain ⟨told, stacked, ⟨connections, served, failed⟩, lent, fair⟩ := kept
  refine ⟨?_, stacked, ?_, lent, (Multiset.forall_mem_cons.mp fair).2⟩
  · rw [tags_cons, Note.tags, zero_add] at told
    exact told
  · simp only [Multiset.map_cons, Multiset.sum_cons, Note.held, Note.missing] at *
    constructor <;> simp [Lending.idle] at connections ⊢ <;> omega

/-- A connection comes back. -/
private theorem Kept.putBack (kept : l.Kept ns) (lent : l.lent = loan ::ₘ ls) :
    Kept { l with
      pooled := ((Pooled.putBack loan.endpoint loan.line).run l.pooled).2
      lent := ls
      returned := loan.line.number :: l.returned } ns := by
  obtain ⟨told, stacked, ⟨connections, served, failed⟩, gets, fair⟩ := kept
  have hnodup := Multiset.nodup_of_le (l.numbers_le ns) told.nodup
  have hother : ∀ entry ∈ l.idle, entry.2.number ≠ loan.line.number := by
    intro entry hentry heq
    rw [numbers, lent, Multiset.map_cons] at hnodup
    have hdisjoint := (Multiset.nodup_add.mp (Multiset.nodup_add.mp hnodup).1).2.2
    exact Multiset.disjoint_left.mp hdisjoint (Multiset.mem_coe.mpr (List.mem_map.mpr
      ⟨entry, hentry, heq⟩)) (Multiset.mem_cons_self _ _)
  rw [lent] at gets connections
  refine ⟨told.le (le_of_eq ?_), stacked.put hother, ?_, (Multiset.forall_mem_cons.mp gets).2, fair⟩
  · simp only [tags, Lending.idle, Pooled.putBack, Proc.run_modify, Pooled.onPool, Pool.put, lent,
      List.map_cons, Multiset.map_cons, Loan.tag]
    simp only [← Multiset.cons_coe, ← Multiset.singleton_add]
    ac_rfl
  · constructor <;> simp [Lending.idle, Pooled.putBack, Pooled.onPool, Pool.put]
      at connections ⊢ <;> omega

/-- A connection is given up. -/
private theorem Kept.discard (kept : l.Kept ns) (lent : l.lent = loan ::ₘ ls) :
    Kept { l with
      pooled := (Pooled.discard.run l.pooled).2
      lent := ls
      discarded := loan ::ₘ l.discarded } ns := by
  obtain ⟨told, stacked, ⟨connections, served, failed⟩, gets, fair⟩ := kept
  rw [lent] at gets connections
  refine ⟨told.le (le_of_eq ?_), stacked, ?_, (Multiset.forall_mem_cons.mp gets).2, fair⟩
  · simp only [tags, Lending.idle, Pooled.discard, Proc.run_modify, Pooled.onPool, Pool.discard,
      lent, Loan.tag, Multiset.map_cons]
    simp only [← Multiset.singleton_add]
    ac_rfl
  · constructor <;> simp [Lending.idle, Pooled.discard, Pooled.onPool, Pool.discard]
      at connections ⊢ <;> omega

/-- The transport is used, or changes by itself. -/
private theorem Kept.use {net : Watched τ} (kept : l.Kept ns) (used : l.pooled.net.Used net) :
    Kept { l with pooled := { l.pooled with net := net } } ns := by
  obtain ⟨told, stacked, ⟨connections, served, failed⟩, lent, fair⟩ := kept
  obtain ⟨sightings, hseen, hfree⟩ := used
  refine ⟨?_, stacked, ⟨connections, served, failed⟩, lent, fun n hn => (fair n hn).mono ?_⟩
  · change Told net.seen _
    rw [hseen]
    exact told.append hfree
  · exact ⟨sightings, hseen.symm⟩

/-- Whatever happens leaves everything in order. -/
theorem Act.kept (act : Act transport l l') (notes : l.underway.Rel Checkout.Noted ns)
    (kept : l.Kept ns) : ∃ ns', l'.underway.Rel Checkout.Noted ns' ∧ l'.Kept ns' := by
  cases act with
  | ask endpoint timeout =>
    exact ⟨_, .cons ⟨rfl, rfl, Quest.checkout_obeys⟩ notes, kept.ask⟩
  | step underway =>
    rw [underway] at notes
    obtain ⟨⟨endpoint, glance, e⟩, ns, ⟨rfl, rfl, hobeys⟩, hnotes, rfl⟩ :=
      Multiset.rel_cons_left.mp notes
    obtain ⟨e', hgoes, hnext⟩ := hobeys l.pooled trivial
    exact ⟨_, .cons ⟨rfl, rfl, hnext⟩ hnotes, hgoes.kept kept⟩
  | serve underway =>
    rw [underway] at notes
    obtain ⟨⟨endpoint, glance, e⟩, ns, ⟨rfl, rfl, hends⟩, hnotes, rfl⟩ :=
      Multiset.rel_cons_left.mp notes
    cases hends
    exact ⟨ns, hnotes, kept.serve⟩
  | refuse underway =>
    rw [underway] at notes
    obtain ⟨⟨endpoint, glance, e⟩, ns, ⟨rfl, rfl, hends⟩, hnotes, rfl⟩ :=
      Multiset.rel_cons_left.mp notes
    cases hends
    exact ⟨ns, hnotes, kept.refuse⟩
  | putBack lent => exact ⟨ns, notes, kept.putBack lent⟩
  | discard lent => exact ⟨ns, notes, kept.discard lent⟩
  | use used => exact ⟨ns, notes, kept.use used⟩

/-- Everything is in order at any moment. -/
theorem exists_kept {net : τ} (leads : Leads transport (start net) l) :
    ∃ ns, l.underway.Rel Checkout.Noted ns ∧ l.Kept ns := by
  induction leads with
  | refl =>
    refine ⟨0, .zero, ⟨nofun, nofun, Multiset.nodup_zero, nofun⟩, ⟨nofun, .nil⟩, ⟨rfl, rfl, rfl⟩,
      nofun, nofun⟩
  | tail _ act ih =>
    obtain ⟨ns, hnotes, hkept⟩ := ih
    exact act.kept hnotes hkept

/-- No checkout is half-way: those under way have still to look for a connection. -/
def Quiet (l : Lending τ κ) : Prop :=
  ∀ u ∈ l.underway, u.glance = none

/-- Then what was counted was counted for those that are over. -/
theorem Kept.quiet (kept : l.Kept ns) (notes : l.underway.Rel Checkout.Noted ns) (quiet : l.Quiet) :
    (ns.map Note.held).sum = 0 ∧ (ns.map Note.missing).sum = 0 := by
  have hunseen : ∀ n ∈ ns, n.held = 0 ∧ n.missing = 0 := by
    intro n hn
    obtain ⟨u, hu, hnoted⟩ := Multiset.exists_mem_of_rel_of_mem (Multiset.rel_flip.mpr notes) hn
    exact (kept.fair n hn).unseen (hnoted.glance.symm.trans (quiet u hu))
  constructor <;> refine Multiset.sum_eq_zero fun x hx => ?_ <;>
    obtain ⟨n, hn, rfl⟩ := Multiset.mem_map.mp hx
  · exact (hunseen n hn).1
  · exact (hunseen n hn).2

/-- What is given up stays so. -/
theorem Leads.discarded_le (leads : Leads transport l l') : l.discarded ≤ l'.discarded := by
  induction leads with
  | refl => exact le_rfl
  | tail _ act ih =>
    refine ih.trans ?_
    cases act with
    | discard lent => exact Multiset.le_cons_self _ _
    | _ => exact le_rfl

/-- An endpoint is dialed for a checkout that has found no idle connection to it. -/
theorem Act.lacks {m : Nat} (act : Act transport l l') (notes : l.underway.Rel Checkout.Noted ns)
    (kept : l.Kept ns) (after : .dial m endpoint ∈ l'.seen) (before : .dial m endpoint ∉ l.seen) :
    ∃ u ∈ l.underway, u.endpoint = endpoint ∧ ∃ g, u.glance = some g ∧ g.Lacks endpoint := by
  cases act with
  | step underway =>
    rw [underway] at notes ⊢
    obtain ⟨⟨dialed, glance, e⟩, ns, ⟨rfl, rfl, hobeys⟩, -, rfl⟩ := Multiset.rel_cons_left.mp notes
    obtain ⟨e', hgoes, -⟩ := hobeys l.pooled trivial
    have hfair := kept.fair _ (Multiset.mem_cons_self _ _)
    exact ⟨_, Multiset.mem_cons_self _ _, hgoes.lacks hfair after before⟩
  | use used =>
    obtain ⟨sightings, hseen, hfree⟩ := used
    refine absurd ?_ before
    exact (List.mem_append.mp (hseen ▸ after)).resolve_left (hfree m endpoint)
  | _ => exact absurd after before

/-- What is left of a checkout can be done without anything in between. -/
private theorem exists_leads_done (transport : Transport τ κ)
    {rest : Proc (Pooled (Watched τ) (Line κ)) (Except TransportError (Line κ))}
    {us : Multiset (Checkout τ κ)} {endpoint : Endpoint} {g : Glance κ}
    (underway : l.underway = ⟨endpoint, some g, rest⟩ ::ₘ us) :
    ∃ l', Leads transport l l' ∧ l'.pooled = (rest.run l.pooled).2 ∧ l'.lent = l.lent ∧
      l'.underway = ⟨endpoint, some g, .done (rest.run l.pooled).1⟩ ::ₘ us := by
  induction rest generalizing l with
  | done result => exact ⟨l, .refl, rfl, rfl, underway⟩
  | step change next ih =>
    obtain ⟨l', hleads, hdone⟩ := ih (l := { l with
      pooled := change l.pooled
      underway := ⟨endpoint, some g, next l.pooled⟩ ::ₘ us }) l.pooled rfl
    exact ⟨l', .head (.step underway) hleads, hdone⟩

/-- So can a whole checkout, and what it gets is what it would get from the pool alone. -/
theorem exists_leads_served (transport : Transport τ κ) (timeout : Duration) {endpoint : Endpoint}
    {line : Line κ} {p : Pooled (Watched τ) (Line κ)}
    (run : (Pooled.checkout transport.watch endpoint timeout).run l.pooled = (.ok line, p)) :
    ∃ l' g, Leads transport l l' ∧ l'.pooled = p ∧ l'.underway = l.underway ∧
      l'.lent = ⟨endpoint, line, g⟩ ::ₘ l.lent := by
  obtain ⟨change, next, hstep⟩ : ∃ change next,
      Pooled.checkout transport.watch endpoint timeout = .step change next := ⟨_, _, rfl⟩
  have hask : Act transport l _ := .ask endpoint timeout
  rw [hstep] at run hask
  obtain ⟨l', hleads, hpooled, hlent, hunderway⟩ := exists_leads_done transport (l := { l with
      pooled := change l.pooled
      underway := ⟨endpoint, some l.glance, next l.pooled⟩ ::ₘ l.underway }) rfl
  rw [Proc.run_step] at run
  simp only [run] at hpooled hlent hunderway
  have hserved := hleads.tail (.serve hunderway)
  refine ⟨_, l.glance, .head hask (.head (.step rfl) hserved), hpooled, rfl, ?_⟩
  rw [← hlent]

/-- What was lent can come back. -/
theorem exists_leads_putBack (transport : Transport τ κ) {loan : Loan κ} {ls : Multiset (Loan κ)}
    (lent : l.lent = loan ::ₘ ls) :
    ∃ l', Leads transport l l' ∧ l'.underway = l.underway ∧ l'.lent = ls ∧
      l'.pooled = ((Pooled.putBack loan.endpoint loan.line).run l.pooled).2 :=
  ⟨_, .single (.putBack lent), rfl, rfl, rfl⟩

/-- What a pool owes to its borrowers. -/
structure Honest (transport : Transport τ κ) (l : Lending τ κ) : Prop where
  /-- No connection is lent twice, or lent and idle, or either of these and given up. -/
  exclusive : l.numbers.Nodup
  /-- A connection was dialed to the endpoint that it is lent for, and to no other. -/
  place : ∀ loan ∈ l.lent, ∀ endpoint,
    .dial loan.line.number endpoint ∈ l.seen ↔ endpoint = loan.endpoint
  /-- A connection that was given up is never lent again. -/
  gone : ∀ l', Leads transport l l' → ∀ loan ∈ l.discarded, ∀ loan' ∈ l'.lent,
    loan'.line.number ≠ loan.line.number
  /-- While no checkout is half-way, every connection that was dialed is idle, lent or given up. -/
  connections : l.Quiet → l.pooled.pool.dialed =
    ∑ᶠ endpoint, l.pooled.pool.idleCount endpoint + l.lent.card + l.pooled.pool.discarded
  served : l.Quiet → l.served = l.pooled.pool.dialed + l.pooled.pool.reused
  failed : l.Quiet → l.failed = l.pooled.pool.dialFailures
  /-- An endpoint is dialed for a checkout that has found no idle connection to it. -/
  dials : ∀ l', Act transport l l' → ∀ m endpoint, .dial m endpoint ∈ l'.seen →
    .dial m endpoint ∉ l.seen →
    ∃ u ∈ l.underway, u.endpoint = endpoint ∧ ∃ g, u.glance = some g ∧ g.Lacks endpoint
  /-- Of several idle connections the one that came back last was lent. -/
  latest : ∀ loan ∈ l.lent, loan.glance.Gets loan.endpoint loan.line

/-- Any number of borrowers may share a pool and take turns in any way: what it owes to them holds
at any moment. -/
theorem lent_out_once (transport : Transport τ κ) (net : τ)
    (leads : Leads transport (start net) l) : l.Honest transport := by
  obtain ⟨ns, hnotes, hkept⟩ := exists_kept leads
  refine ⟨Multiset.nodup_of_le (l.numbers_le ns) hkept.told.nodup, fun loan hloan endpoint => ?_,
    fun l' leads' loan hloan loan' hloan' heq => ?_, fun quiet => ?_, fun quiet => ?_,
    fun quiet => ?_, fun l' act m endpoint => act.lacks hnotes hkept, hkept.lent⟩
  · have htag : loan.tag ∈ l.tags ns := by
      rw [tags]
      simp [Multiset.mem_map_of_mem _ hloan]
    have hdialed := hkept.told.dialed _ htag
    exact ⟨fun hmem => hkept.told.single _ _ _ hmem hdialed, fun heq => heq ▸ hdialed⟩
  · obtain ⟨ns', -, hkept'⟩ := exists_kept (leads.trans leads')
    have hnodup := Multiset.nodup_of_le (l'.numbers_le ns') hkept'.told.nodup
    rw [numbers] at hnodup
    have hdisjoint := (Multiset.nodup_add.mp hnodup).2.2
    have hloan'' : loan ∈ l'.discarded := Multiset.mem_of_le leads'.discarded_le hloan
    exact Multiset.disjoint_left.mp hdisjoint
      (Multiset.mem_add.mpr (.inr (Multiset.mem_map.mpr ⟨loan', hloan', heq⟩)))
      (Multiset.mem_map_of_mem _ hloan'')
  · have hcount := hkept.counted.connections
    rw [(hkept.quiet hnotes quiet).1, Nat.add_zero] at hcount
    rw [Client.finsum_idleCount]
    exact hcount
  · simpa [(hkept.quiet hnotes quiet).1] using hkept.counted.served
  · simpa [(hkept.quiet hnotes quiet).2] using hkept.counted.failed

/-- A connection is lent, comes back and is lent again. -/
theorem lent_out_once_again : ∃ l : Lending Service Link,
    Leads Service.transport (start (.new 1 "fs1")) l ∧ l.underway = 0 ∧ l.lent.card = 1 ∧
      l.pooled.pool.reused = 1 ∧ l.Honest Service.transport := by
  let a : Endpoint := ⟨"a", 1, by decide, by decide, by decide⟩
  let line : Line Link := ⟨0, a, ⟨a, false⟩⟩
  let checkout := Pooled.checkout Service.transport.watch a ⟨1⟩
  let p := (checkout.run (start (.new 1 "fs1")).pooled).2
  let p' := ((Pooled.putBack a line).run p).2
  obtain ⟨l, g, hleads, hpooled, hunderway, hlent⟩ : ∃ l g,
      Leads Service.transport (start (.new 1 "fs1")) l ∧ l.pooled = p ∧ l.underway = 0 ∧
        l.lent = ⟨a, line, g⟩ ::ₘ 0 := exists_leads_served Service.transport ⟨1⟩ rfl
  obtain ⟨l', hleads', hunderway', hlent', hpooled'⟩ := exists_leads_putBack Service.transport hlent
  have hrun : checkout.run l'.pooled = (.ok line, (checkout.run p').2) := by
    rw [hpooled', hpooled]
    rfl
  obtain ⟨l'', g', hleads'', hpooled'', hunderway'', hlent''⟩ :=
    exists_leads_served Service.transport ⟨1⟩ hrun
  have htogether := (hleads.trans hleads').trans hleads''
  refine ⟨l'', htogether, ?_, ?_, ?_, lent_out_once _ _ htogether⟩
  · rw [hunderway'', hunderway', hunderway]
  · rw [hlent'', hlent', Multiset.card_cons, Multiset.card_zero]
  · rw [hpooled'']
    rfl

end Lending

end ShardSweep
