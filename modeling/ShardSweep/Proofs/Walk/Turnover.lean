import Mathlib.Logic.Relation
import Mathlib.Order.Bounds.Basic
import ShardSweep.Proofs.Walk.Dispatch

/-!
# How slots change hands

Any number of threads claim slots and give them back, each at any moment and as often as it likes,
and a slot may be given back by another thread than the one that has claimed it.  The steps of a
claim or a release come in any order with those of all others, so the tokens and the gauge need not
agree while one of them is under way.

What keeps both in bounds is the order of the two within each: the gauge is raised after a token was
taken, and lowered before the token is returned.  Whatever is under way has therefore no fewer
tokens than it adds to the gauge.

* `Deal.Goes`: the steps of a claim or a release;
* `Turnover.Act`: what can happen to slots;
* `Turnover.Act.kept`: each counter is accounted for by what is under way and what is over;
* `Turnover.isGreatest_gauges`: the peak is the highest that the gauge has shown;
* `Turnover.slots_add_up`: what holds of slots at any moment.
-/

namespace ShardSweep

/-- A release never raises the gauge. -/
theorem Release.held_step_le {r : Release} {s s' : Slots} {next : Option Release}
    (h : r.step s = (next, s')) : s'.held ≤ s.held := by
  cases r <;> cases h
  · exact Nat.sub_le _ _
  · exact le_rfl

/-- A claim or a release that a thread is at. -/
inductive Deal where
  | claim (claim : Claim)
  | release (release : Release)
  deriving DecidableEq

namespace Deal

/-- Tokens that it has taken, or has still to return. -/
def tokens : Deal → Nat
  | .claim c => c.tokens
  | .release _ => 1

/-- Those of them that the gauge counts. -/
def held : Deal → Nat
  | .claim c => c.held
  | .release r => r.held

/-- Claims that are not decided. -/
def claims : Deal → Nat
  | .claim _ => 1
  | .release _ => 0

/-- Releases that are not over. -/
def releases : Deal → Nat
  | .claim _ => 0
  | .release _ => 1

/-- The gauge counts no more than the tokens, deal by deal. -/
theorem held_le_tokens (u : Deal) : u.held ≤ u.tokens := by
  cases u with
  | claim c => cases c <;> simp [held, tokens, Claim.held, Claim.tokens]
  | release r => cases r <;> simp [held, tokens, Release.held]

section Total

variable (g : Deal → Nat) (u : Deal) (us vs : Multiset Deal)

/-- A sum over what is under way. -/
def total : Nat :=
  (us.map g).sum

@[simp] theorem total_zero : total g 0 = 0 :=
  rfl

@[simp] theorem total_singleton : total g {u} = g u := by
  simp [total]

@[simp] theorem total_cons : total g (u ::ₘ us) = g u + total g us := by
  simp [total]

@[simp] theorem total_add : total g (us + vs) = total g us + total g vs := by
  simp [total]

variable {g u us}

/-- Who is under way has a share in the total. -/
theorem le_total (mem : u ∈ us) : g u ≤ total g us := by
  obtain ⟨us, rfl⟩ := Multiset.exists_cons_of_mem mem
  rw [total_cons]
  exact Nat.le_add_right _ _

/-- So the gauge counts no more than the tokens of all that is under way. -/
theorem total_held_le : total held us ≤ total tokens us :=
  Multiset.sum_map_le_sum_map _ _ fun u _ => u.held_le_tokens

end Total

/-- The steps of a claim or a release, each with what it leaves under way, the slots that it hands
out and the releases that it ends. -/
inductive Goes (s : Slots) : Deal → Slots → Multiset Deal → Nat → Nat → Prop
  | claim {c c' s'} (stage : c.step s = (.stage c', s')) : Goes s (.claim c) s' {.claim c'} 0 0
  | grant {c s'} (granted : c.step s = (.granted, s')) : Goes s (.claim c) s' 0 1 0
  | refuse {c s'} (refused : c.step s = (.inline, s')) : Goes s (.claim c) s' 0 0 0
  | release {r r' s'} (stage : r.step s = (some r', s')) :
      Goes s (.release r) s' {.release r'} 0 0
  | finish {r s'} (last : r.step s = (none, s')) : Goes s (.release r) s' 0 0 1

namespace Goes

variable {s s' : Slots} {u : Deal} {vs : Multiset Deal} {handed ended : Nat}

/-- Tokens and gauge go along with what is under way and what is handed out. -/
theorem shift (goes : u.Goes s s' vs handed ended) (tokens : u.tokens ≤ s.tokens)
    (held : u.held ≤ s.held) :
    s.Shift s' u.tokens (total Deal.tokens vs + handed) u.held (total Deal.held vs + handed) := by
  cases goes with
  | claim stage =>
    rw [total_singleton, total_singleton]
    exact Claim.shift_stage stage
  | grant granted => exact Claim.shift_granted granted
  | refuse refused => exact Claim.shift_inline refused
  | release stage =>
    rw [total_singleton, total_singleton]
    exact Release.shift_stage stage held
  | finish last => exact Release.shift_last last tokens

/-- A claim is counted once it is decided. -/
theorem decided (goes : u.Goes s s' vs handed ended) :
    s'.decided + total claims vs = s.decided + u.claims := by
  cases goes with
  | claim stage | grant stage | refuse stage =>
    rw [(Claim.does_of_step stage).decided]
    rfl
  | release stage | finish stage =>
    obtain ⟨hspawned, hinlined, -⟩ := Release.counters_step stage
    rw [Slots.decided, hspawned, hinlined]
    rfl

/-- A claim that is granted hands a slot out, and one that is over is not. -/
theorem spawned (goes : u.Goes s s' vs handed ended) :
    s'.spawned + u.releases = s.spawned + handed + total releases vs + ended := by
  cases goes with
  | claim stage | grant stage | refuse stage => cases Claim.does_of_step stage <;> rfl
  | release stage | finish stage =>
    rw [(Release.counters_step stage).1]
    rfl

/-- What the gauge shows after it was raised is remembered until it was noted. -/
theorem counted (goes : u.Goes s s' vs handed ended) {now : Nat}
    (mem : .claim (.counted now) ∈ vs) : now = s'.held := by
  cases goes with
  | claim stage =>
    cases Claim.does_of_step stage with
    | count =>
      cases Multiset.mem_singleton.mp mem
      rfl
    | _ => cases Multiset.mem_singleton.mp mem
  | release stage => cases Multiset.mem_singleton.mp mem
  | _ => cases Multiset.notMem_zero _ mem

/-- Only a claim raises the gauge, and it remembers what the gauge shows then. -/
theorem held_le (goes : u.Goes s s' vs handed ended) :
    s'.held ≤ s.held ∨ .claim (.counted s'.held) ∈ vs := by
  cases goes with
  | claim stage =>
    cases Claim.does_of_step stage with
    | count => exact .inr (Multiset.mem_singleton_self _)
    | _ => exact .inl le_rfl
  | grant stage | refuse stage => cases Claim.does_of_step stage; exact .inl le_rfl
  | release stage | finish stage => exact .inl (Release.held_step_le stage)

/-- The peak is raised to what a claim has counted, and never otherwise. -/
theorem peak (goes : u.Goes s s' vs handed ended) :
    (∃ now, u = .claim (.counted now) ∧ s'.peak = max s.peak now) ∨
      (∀ now, u ≠ .claim (.counted now)) ∧ s'.peak = s.peak := by
  cases goes with
  | claim stage =>
    cases Claim.does_of_step stage with
    | note => exact .inl ⟨_, rfl, rfl⟩
    | _ => exact .inr ⟨nofun, rfl⟩
  | grant stage | refuse stage => cases Claim.does_of_step stage; exact .inr ⟨nofun, rfl⟩
  | release stage | finish stage => exact .inr ⟨nofun, (Release.counters_step stage).2.2⟩

end Goes

end Deal

/-- Slots and those who claim them and give them back. -/
structure Turnover where
  slots : Slots
  /-- The claims and releases under way, each of them that of one thread. -/
  underway : Multiset Deal
  /-- Slots that were handed out and that nobody has begun to give back. -/
  out : Nat
  /-- Claims that were begun. -/
  asked : Nat
  /-- Releases that are over. -/
  returned : Nat

namespace Turnover

/-- All slots are free, and nobody has claimed one. -/
def start (capacity : Nat) : Turnover :=
  ⟨.free capacity, 0, 0, 0, 0⟩

/-- Something that happens: a claim is begun, a slot that is out is about to be given back, or what
is under way takes a step. -/
inductive Act : Turnover → Turnover → Prop
  | ask {t : Turnover} :
      Act t { t with underway := .claim .start ::ₘ t.underway, asked := t.asked + 1 }
  | giveBack {t : Turnover} {rest} (out : t.out = rest + 1) :
      Act t { t with underway := .release .start ::ₘ t.underway, out := rest }
  | go {t : Turnover} {s vs handed ended} (u : Deal) (us : Multiset Deal)
      (underway : t.underway = u ::ₘ us) (goes : u.Goes t.slots s vs handed ended) :
      Act t { t with
        slots := s
        underway := vs + us
        out := t.out + handed
        returned := t.returned + ended }

/-- What can happen in any number of steps. -/
abbrev Leads : Turnover → Turnover → Prop :=
  Relation.ReflTransGen Act

variable {t t' : Turnover} {capacity : Nat}

/-- Each counter is accounted for by the slots that are out, by what is under way and by what is
over. -/
structure Kept (capacity : Nat) (t : Turnover) : Prop where
  capacity : t.slots.capacity = capacity
  room : t.slots.tokens ≤ t.slots.capacity
  tokens : t.slots.tokens = t.out + Deal.total Deal.tokens t.underway
  held : t.slots.held = t.out + Deal.total Deal.held t.underway
  asked : t.slots.decided + Deal.total Deal.claims t.underway = t.asked
  spawned : t.slots.spawned = t.out + Deal.total Deal.releases t.underway + t.returned

namespace Kept

/-- All counters are zero while all slots are free. -/
theorem initial (capacity : Nat) : (start capacity).Kept capacity :=
  ⟨rfl, Nat.zero_le _, rfl, rfl, rfl, rfl⟩

variable {u : Deal}

/-- Nobody returns a token that was not taken. -/
theorem tokens_le (kept : t.Kept capacity) (mem : u ∈ t.underway) : u.tokens ≤ t.slots.tokens := by
  rw [kept.tokens]
  exact Nat.le_add_left_of_le (Deal.le_total mem)

/-- Nobody strikes a slot off that the gauge does not count. -/
theorem held_le (kept : t.Kept capacity) (mem : u ∈ t.underway) : u.held ≤ t.slots.held := by
  rw [kept.held]
  exact Nat.le_add_left_of_le (Deal.le_total mem)

end Kept

/-- Whatever happens leaves the accounts in order. -/
theorem Act.kept (act : Act t t') (kept : t.Kept capacity) : t'.Kept capacity := by
  have ⟨hcapacity, hroom, htokens, hheld, hasked, hspawned⟩ := kept
  cases act with
  | ask =>
    refine ⟨hcapacity, hroom, ?_, ?_, ?_, ?_⟩ <;>
      simp only [Deal.total_cons, Deal.tokens, Deal.held, Deal.claims, Deal.releases, Claim.tokens,
        Claim.held] <;> omega
  | giveBack out =>
    refine ⟨hcapacity, hroom, ?_, ?_, ?_, ?_⟩ <;>
      simp only [Deal.total_cons, Deal.tokens, Deal.held, Deal.claims, Deal.releases,
        Release.held] <;> omega
  | go u us underway goes =>
    have hmem : u ∈ t.underway := underway ▸ Multiset.mem_cons_self u us
    obtain ⟨hstokens, hsheld, hscapacity, hsroom⟩ :=
      goes.shift (kept.tokens_le hmem) (kept.held_le hmem)
    have hsdecided := goes.decided
    have hsspawned := goes.spawned
    rw [underway, Deal.total_cons] at htokens hheld hasked hspawned
    refine ⟨hscapacity.trans hcapacity, hsroom hroom, ?_, ?_, ?_, ?_⟩ <;>
      rw [Deal.total_add] <;> dsimp only <;> omega

/-- The accounts are in order at any moment. -/
theorem kept_of_leads (leads : Leads (start capacity) t) : t.Kept capacity := by
  induction leads with
  | refl => exact .initial capacity
  | tail _ act ih => exact act.kept ih

/-! ## The peak -/

/-- What the gauge has shown so far. -/
def gauges (capacity : Nat) (t : Turnover) : Set Nat :=
  {h | ∃ t₀, Leads (start capacity) t₀ ∧ Leads t₀ t ∧ t₀.slots.held = h}

/-- What the gauge shows now it has shown. -/
theorem held_mem_gauges (leads : Leads (start capacity) t) : t.slots.held ∈ t.gauges capacity :=
  ⟨t, leads, .refl, rfl⟩

/-- What the gauge has shown it has shown later as well. -/
theorem Act.gauges_subset (act : Act t t') : t.gauges capacity ⊆ t'.gauges capacity := by
  rintro h ⟨t₀, hbefore, hafter, rfl⟩
  exact ⟨t₀, hbefore, hafter.tail act, rfl⟩

/-- The gauge has shown the peak, and whatever a claim has still to note. -/
structure Shown (capacity : Nat) (t : Turnover) : Prop where
  peak : t.slots.peak ∈ t.gauges capacity
  counted : ∀ now, .claim (.counted now) ∈ t.underway → now ∈ t.gauges capacity

/-- The peak is raised to what was remembered, and that the gauge has shown. -/
theorem Act.shown (act : Act t t') (leads : Leads (start capacity) t) (shown : t.Shown capacity) :
    t'.Shown capacity := by
  have hsubset : t.gauges capacity ⊆ t'.gauges capacity := act.gauges_subset
  have hnow := held_mem_gauges (leads.tail act)
  cases act with
  | ask | giveBack =>
    refine ⟨hsubset shown.peak, fun now mem => hsubset (shown.counted now ?_)⟩
    exact (Multiset.mem_cons.mp mem).resolve_left nofun
  | go u us underway goes =>
    refine ⟨?peak, fun now mem => ?counted⟩
    case peak =>
      rcases goes.peak with ⟨now, rfl, hraised⟩ | ⟨-, hsame⟩
      · have hcounted := shown.counted now (underway ▸ Multiset.mem_cons_self _ us)
        rcases max_choice t.slots.peak now with hmax | hmax
        · exact hsubset ((hraised.trans hmax).symm ▸ shown.peak)
        · exact hsubset ((hraised.trans hmax).symm ▸ hcounted)
      · exact hsubset (hsame.symm ▸ shown.peak)
    case counted =>
      rcases Multiset.mem_add.mp mem with hnew | hold
      · obtain rfl := goes.counted hnew
        exact hnow
      · exact hsubset (shown.counted now (underway ▸ Multiset.mem_cons_of_mem hold))

/-- So the peak is always a number that the gauge has shown. -/
theorem shown_of_leads (leads : Leads (start capacity) t) : t.Shown capacity := by
  induction leads with
  | refl => exact ⟨held_mem_gauges .refl, fun now mem => absurd mem (Multiset.notMem_zero _)⟩
  | tail leads act ih => exact act.shown leads ih

/-- The peak is at least `h`, or a claim is about to raise it so far. -/
def Reached (h : Nat) (t : Turnover) : Prop :=
  h ≤ t.slots.peak ∨ ∃ now, .claim (.counted now) ∈ t.underway ∧ h ≤ now

/-- A claim that reaches a number reaches what is below it. -/
theorem Reached.of_le {h h' : Nat} (reached : t.Reached h) (le : h' ≤ h) : t.Reached h' :=
  reached.imp le.trans fun ⟨now, mem, hnow⟩ => ⟨now, mem, le.trans hnow⟩

/-- The peak does not fall, and what a claim has counted it notes. -/
theorem Act.reached {h : Nat} (act : Act t t') (reached : t.Reached h) : t'.Reached h := by
  cases act with
  | ask | giveBack =>
    exact reached.imp_right fun ⟨now, mem, hnow⟩ => ⟨now, Multiset.mem_cons_of_mem mem, hnow⟩
  | go u us underway goes =>
    rcases reached with hpeak | ⟨now, mem, hnow⟩
    · left
      rcases goes.peak with ⟨now, -, hraised⟩ | ⟨-, hsame⟩
      · exact hraised ▸ le_max_of_le_left hpeak
      · exact hsame ▸ hpeak
    · rcases Multiset.mem_cons.mp (underway ▸ mem) with rfl | hother
      · -- It is the claim that was about to raise the peak that takes the step.
        rcases goes.peak with ⟨now', heq, hraised⟩ | ⟨hnone, -⟩
        · cases heq
          exact .inl (hraised ▸ le_max_of_le_right hnow)
        · exact absurd rfl (hnone now)
      · exact .inr ⟨now, Multiset.mem_add.mpr (.inr hother), hnow⟩

/-- What the gauge shows is noted in the peak, or will be. -/
theorem reached_held (leads : Leads (start capacity) t) : t.Reached t.slots.held := by
  induction leads with
  | refl => exact .inl le_rfl
  | tail _ act ih =>
    have hreached := act.reached ih
    cases act with
    | ask | giveBack => exact hreached
    | go u us underway goes =>
      rcases goes.held_le with hle | hcounted
      · exact hreached.of_le hle
      · exact .inr ⟨_, Multiset.mem_add.mpr (.inl hcounted), le_rfl⟩

/-- What was reached stays so. -/
theorem reached_of_leads {h : Nat} (leads : Leads t t') (reached : t.Reached h) : t'.Reached h := by
  induction leads with
  | refl => exact reached
  | tail _ act ih => exact act.reached ih

/-- When nothing is under way the peak is the highest that the gauge has shown. -/
theorem isGreatest_gauges (leads : Leads (start capacity) t) (quiet : t.underway = 0) :
    IsGreatest (t.gauges capacity) t.slots.peak := by
  refine ⟨(shown_of_leads leads).peak, ?_⟩
  rintro h ⟨t₀, hbefore, hafter, rfl⟩
  rcases reached_of_leads hafter (reached_held hbefore) with hpeak | ⟨now, mem, -⟩
  · exact hpeak
  · rw [quiet] at mem
    exact absurd mem (Multiset.notMem_zero _)

/-! ## At any moment -/

/-- What holds of slots while no claim and no release is under way. -/
structure AtRest (capacity : Nat) (t : Turnover) : Prop where
  /-- The gauge and the tokens both count the slots that are out. -/
  held : t.slots.held = t.out
  tokens : t.slots.tokens = t.out
  /-- A claim is granted just when there is a slot that is not out. -/
  granted : ∃ s, Claim.run 4 .start t.slots = some (decide (t.out < capacity), s)
  /-- Every claim was granted or refused. -/
  asked : t.slots.spawned + t.slots.inlined = t.asked
  /-- Every slot that was handed out was given back or is counted by the gauge. -/
  returned : t.slots.spawned = t.returned + t.slots.held
  peak : IsGreatest (t.gauges capacity) t.slots.peak

/-- What holds of slots at any moment. -/
structure AddsUp (capacity : Nat) (t : Turnover) : Prop where
  gauge : t.slots.held ≤ t.slots.tokens
  tokens : t.slots.tokens ≤ capacity
  peak : t.slots.peak ≤ capacity
  /-- A gauge that is about to be lowered does not show zero. -/
  lowers : .release .start ∈ t.underway → 0 < t.slots.held
  /-- Where a token is about to be returned one was taken. -/
  returns : .release .lowered ∈ t.underway → 0 < t.slots.tokens
  rest : t.underway = 0 → t.AtRest capacity

/-- The gauge never runs ahead of the tokens. -/
theorem Kept.gauge (kept : t.Kept capacity) : t.slots.held ≤ t.slots.tokens := by
  rw [kept.held, kept.tokens]
  exact Nat.add_le_add_left Deal.total_held_le _

/-- When nothing is under way no counter has anything but the slots that are out to account for. -/
theorem Kept.atRest (kept : t.Kept capacity) (leads : Leads (start capacity) t)
    (quiet : t.underway = 0) : t.AtRest capacity := by
  have hpeak := isGreatest_gauges leads quiet
  obtain ⟨hcapacity, hroom, htokens, hheld, hasked, hspawned⟩ := kept
  rw [quiet, Deal.total_zero] at htokens hheld hasked hspawned
  refine ⟨hheld, htokens, ?_, hasked, by omega, hpeak⟩
  rw [Claim.run_start, Slots.acquire, Slots.hasRoom, hcapacity, htokens, Nat.add_zero]
  by_cases hfree : t.out < capacity <;> simp [hfree]

/-- However many threads claim slots and give them back, and however their steps interleave: the
gauge and the tokens are in bounds at every moment, and the counters agree with what was done
whenever nothing is under way. -/
theorem slots_add_up (leads : Leads (start capacity) t) : t.AddsUp capacity := by
  have hkept := kept_of_leads leads
  refine ⟨hkept.gauge, ?_, ?_, hkept.held_le, hkept.tokens_le, hkept.atRest leads⟩
  · exact hkept.capacity ▸ hkept.room
  · -- The gauge has shown the peak at some moment, and was in bounds then.
    obtain ⟨t₀, hbefore, -, hshown⟩ := (shown_of_leads leads).peak
    have hkept₀ := kept_of_leads hbefore
    rw [← hshown]
    exact hkept₀.gauge.trans (hkept₀.capacity ▸ hkept₀.room)

/-- The only slot is claimed twice at once, and claimed again while it is given back: a moment at
which it is neither held nor free. -/
theorem slots_add_up_oneSlot : ∃ t t',
    Leads (start 1) t ∧ t.slots = ⟨1, 1, 0, 1, 1, 2⟩ ∧ t.underway = {.release .lowered} ∧
      t.AddsUp 1 ∧
    Leads t t' ∧ t'.slots = ⟨1, 0, 0, 1, 1, 2⟩ ∧ t'.asked = 3 ∧ t'.returned = 1 ∧
      t'.AtRest 1 := by
  have hgranted : Leads (start 1) ⟨⟨1, 1, 1, 1, 1, 1⟩, 0, 1, 2, 0⟩ := by
    refine .head .ask (.head (.go (.claim .start) 0 rfl (.claim rfl)) ?_)
    refine .head .ask (.head (.go (.claim .start) {.claim .taken} rfl (.claim rfl)) ?_)
    refine .head (.go (.claim .refused) {.claim .taken} rfl (.refuse rfl)) ?_
    refine .head (.go (.claim .taken) 0 rfl (.claim rfl)) ?_
    refine .head (.go (.claim (.counted 1)) 0 rfl (.claim rfl)) ?_
    exact .single (.go (.claim .noted) 0 rfl (.grant rfl))
  have hlowered : Leads ⟨⟨1, 1, 1, 1, 1, 1⟩, 0, 1, 2, 0⟩
      ⟨⟨1, 1, 0, 1, 1, 2⟩, {.release .lowered}, 0, 3, 0⟩ := by
    refine .head (.giveBack rfl) (.head (.go (.release .start) 0 rfl (.release rfl)) ?_)
    refine .head .ask (.head (.go (.claim .start) {.release .lowered} rfl (.claim rfl)) ?_)
    exact .single (.go (.claim .refused) {.release .lowered} rfl (.refuse rfl))
  have hreturned : Act ⟨⟨1, 1, 0, 1, 1, 2⟩, {.release .lowered}, 0, 3, 0⟩
      ⟨⟨1, 0, 0, 1, 1, 2⟩, 0, 0, 3, 1⟩ := .go (.release .lowered) 0 rfl (.finish rfl)
  have hleads := hgranted.trans hlowered
  exact ⟨_, _, hleads, rfl, rfl, slots_add_up hleads, .single hreturned, rfl, rfl, rfl,
    (slots_add_up (hleads.tail hreturned)).rest rfl⟩

end Turnover

end ShardSweep
