/-!
# Slots for worker threads

A walk hands a subdirectory to a new thread only if one of its `capacity` slots
is free, and goes into it on the same thread otherwise, so nobody ever waits for
a slot.  Two variables count the slots that are taken: the tokens, which decide
whether there is room, and the gauge `held`, which feeds the peak.  They are
changed one after the other, in opposite orders when a slot is taken and when
it is given back, and other threads may act in between: `Claim` and `Release`
are the stages, and `acquire` and `release` the whole of them with nobody else
around.

* `Claim.run_start`: a claim that is not disturbed is `acquire`;
* `Release.run_start`: a release that is not disturbed is `release`.
-/

namespace ShardSweep

/-- The slots of one walk and their counters. -/
structure Slots where
  capacity : Nat
  /-- Tokens taken. -/
  tokens : Nat
  /-- Slots held, as far as they have been counted. -/
  held : Nat
  /-- The highest that `held` has been. -/
  peak : Nat
  /-- Claims that were granted. -/
  spawned : Nat
  /-- Claims that were refused because every token was taken. -/
  inlined : Nat
  deriving DecidableEq, Repr

namespace Slots

/-- All slots free. -/
def free (capacity : Nat) : Slots :=
  ⟨capacity, 0, 0, 0, 0, 0⟩

/-- A token is left. -/
def hasRoom (s : Slots) : Bool :=
  s.tokens < s.capacity

/-- Take a token. -/
def takeToken (s : Slots) : Slots :=
  { s with tokens := s.tokens + 1 }

/-- Give a token back. -/
def returnToken (s : Slots) : Slots :=
  { s with tokens := s.tokens - 1 }

/-- Count a slot as held. -/
def hold (s : Slots) : Slots :=
  { s with held := s.held + 1 }

/-- Count a slot as held no longer. -/
def letGo (s : Slots) : Slots :=
  { s with held := s.held - 1 }

/-- Remember how many slots were held at once. -/
def notePeak (now : Nat) (s : Slots) : Slots :=
  { s with peak := max s.peak now }

/-- Count a granted claim. -/
def countSpawned (s : Slots) : Slots :=
  { s with spawned := s.spawned + 1 }

/-- Count a refused claim. -/
def countInlined (s : Slots) : Slots :=
  { s with inlined := s.inlined + 1 }

/-- Take a slot if one is free. -/
def acquire (s : Slots) : Bool × Slots :=
  if s.hasRoom then (true, (s.takeToken.hold.notePeak (s.held + 1)).countSpawned)
  else (false, s.countInlined)

/-- Give a slot back. -/
def release (s : Slots) : Slots :=
  s.letGo.returnToken

end Slots

/-- How far a thread is with claiming a slot. -/
inductive Claim where
  /-- About to take a token. -/
  | start
  /-- Has a token, which is not counted yet. -/
  | taken
  /-- Has raised the gauge to `now`. -/
  | counted (now : Nat)
  /-- Has noted the peak. -/
  | noted
  /-- Has found no token. -/
  | refused
  deriving DecidableEq, Repr

/-- The stage after a step of a claim, or its result. -/
inductive Claim.Next where
  | stage (c : Claim)
  | granted
  | inline
  deriving DecidableEq, Repr

/-- One step of a claim. -/
def Claim.step : Claim → Slots → Claim.Next × Slots
  | .start, s => if s.hasRoom then (.stage .taken, s.takeToken) else (.stage .refused, s)
  | .taken, s => (.stage (.counted (s.held + 1)), s.hold)
  | .counted now, s => (.stage .noted, s.notePeak now)
  | .noted, s => (.granted, s.countSpawned)
  | .refused, s => (.inline, s.countInlined)

/-- A claim with nobody else around; it has at most four stages. -/
def Claim.run : Nat → Claim → Slots → Option (Bool × Slots)
  | 0, _, _ => none
  | n + 1, c, s =>
    match c.step s with
    | (.stage c', s') => Claim.run n c' s'
    | (.granted, s') => some (true, s')
    | (.inline, s') => some (false, s')

/-- A claim that is not disturbed takes a slot if one is free. -/
theorem Claim.run_start (s : Slots) : Claim.run 4 .start s = some s.acquire := by
  by_cases h : s.hasRoom <;> simp [Claim.run, Claim.step, Slots.acquire, h, Slots.takeToken]

/-- How far a thread is with giving its slot back. -/
inductive Release where
  /-- About to lower the gauge. -/
  | start
  /-- About to return the token. -/
  | lowered
  deriving DecidableEq, Repr

/-- One step of giving a slot back, and the stage after it. -/
def Release.step : Release → Slots → Option Release × Slots
  | .start, s => (some .lowered, s.letGo)
  | .lowered, s => (none, s.returnToken)

/-- A release that is not disturbed gives the slot back. -/
theorem Release.run_start (s : Slots) :
    (Release.step .lowered (Release.step .start s).2).2 = s.release := rfl

end ShardSweep
