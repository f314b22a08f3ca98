import ShardSweep.Transport

/-!
# Pooled connections

A pool keeps the connections that nobody is using, and a borrower gets the one that
was returned last to the endpoint in question.  Only if there is none the endpoint is
dialed.  A connection comes back by `put`, or never if it broke (`discard`).

Looking for an idle connection and dialing are separate steps, so two borrowers may
both find nothing and dial.

* `takeFirst_eq_some`: what a borrower gets was in the pool, and nothing newer fitted;
* `takeFirst_eq_none`: a borrower gets nothing only if nothing fits.
-/

namespace ShardSweep

/-- The connections that nobody is using, and the counters of a pool. -/
structure Pool (κ : Type) where
  /-- Each with its endpoint, the one returned last first. -/
  idle : List (Endpoint × κ)
  /-- Connections that were dialed. -/
  dialed : Nat
  /-- Idle connections that were lent again. -/
  reused : Nat
  /-- Dials that failed. -/
  dialFailures : Nat
  /-- Connections that were given up as broken. -/
  discarded : Nat

/-- The first connection to an endpoint, and the others. -/
def takeFirst {κ : Type} (endpoint : Endpoint) :
    List (Endpoint × κ) → Option (κ × List (Endpoint × κ))
  | [] => none
  | (e, c) :: rest =>
    if e = endpoint then some (c, rest)
    else (takeFirst endpoint rest).map fun (found, others) => (found, (e, c) :: others)

namespace Pool

variable {κ : Type}

/-- No connection yet. -/
def empty : Pool κ :=
  ⟨[], 0, 0, 0, 0⟩

/-- Lend an idle connection to an endpoint, if there is one. -/
def lend (endpoint : Endpoint) (p : Pool κ) : Option κ × Pool κ :=
  match takeFirst endpoint p.idle with
  | none => (none, p)
  | some (c, others) => (some c, { p with idle := others, reused := p.reused + 1 })

/-- Take a connection back. -/
def put (endpoint : Endpoint) (c : κ) (p : Pool κ) : Pool κ :=
  { p with idle := (endpoint, c) :: p.idle }

/-- Give a lent connection up. -/
def discard (p : Pool κ) : Pool κ :=
  { p with discarded := p.discarded + 1 }

/-- Count a dial. -/
def countDial (p : Pool κ) : Pool κ :=
  { p with dialed := p.dialed + 1 }

/-- Count a dial that failed. -/
def countDialFailure (p : Pool κ) : Pool κ :=
  { p with dialFailures := p.dialFailures + 1 }

/-- How many idle connections there are to an endpoint. -/
def idleCount (endpoint : Endpoint) (p : Pool κ) : Nat :=
  p.idle.countP fun entry => entry.1 = endpoint

end Pool

/-- A pool in front of a transport. -/
structure Pooled (τ κ : Type) where
  net : τ
  pool : Pool κ

namespace Pooled

variable {τ κ : Type}

/-- The state of the transport. -/
def netPart : Proc.Part (Pooled τ κ) τ where
  get := net
  set n s := { s with net := n }
  get_set _ _ := rfl
  set_get _ := rfl
  set_set _ _ _ := rfl

/-- Change the pool only. -/
def onPool (f : Pool κ → Pool κ) (s : Pooled τ κ) : Pooled τ κ :=
  { s with pool := f s.pool }

/-- Lend an idle connection, if there is one. -/
def lend (endpoint : Endpoint) (s : Pooled τ κ) : Option κ × Pooled τ κ :=
  ((s.pool.lend endpoint).1, { s with pool := (s.pool.lend endpoint).2 })

/-- Dial an endpoint and count the outcome. -/
def dial (transport : Transport τ κ) (endpoint : Endpoint) (timeout : Duration) :
    Proc (Pooled τ κ) (Except TransportError κ) := do
  match ← (transport.dial endpoint timeout).on netPart with
  | .ok c => do
    Proc.modify (onPool Pool.countDial)
    pure (.ok c)
  | .error e => do
    Proc.modify (onPool Pool.countDialFailure)
    pure (.error e)

/-- Borrow a connection: an idle one if there is one when it is looked for, else a new one. -/
def checkout (transport : Transport τ κ) (endpoint : Endpoint) (timeout : Duration) :
    Proc (Pooled τ κ) (Except TransportError κ) := do
  match ← Proc.atomic (lend endpoint) with
  | some c => pure (.ok c)
  | none => dial transport endpoint timeout

/-- Bring a connection back. -/
def putBack (endpoint : Endpoint) (c : κ) : Proc (Pooled τ κ) Unit :=
  Proc.modify (onPool (Pool.put endpoint c))

/-- Give a broken connection up. -/
def discard : Proc (Pooled τ κ) Unit :=
  Proc.modify (onPool Pool.discard)

end Pooled

variable {κ : Type}

/-- What a borrower gets was in the pool, and nothing newer fitted. -/
theorem takeFirst_eq_some {endpoint : Endpoint} {idle others : List (Endpoint × κ)} {c : κ}
    (h : takeFirst endpoint idle = some (c, others)) :
    ∃ newer older, idle = newer ++ (endpoint, c) :: older ∧ others = newer ++ older ∧
      ∀ entry ∈ newer, entry.1 ≠ endpoint := by
  induction idle generalizing others with
  | nil => simp [takeFirst] at h
  | cons entry rest ih =>
    obtain ⟨e, d⟩ := entry
    by_cases he : e = endpoint
    · simp only [takeFirst, he, if_true, Option.some.injEq, Prod.mk.injEq] at h
      obtain ⟨rfl, rfl⟩ := h
      exact ⟨[], rest, by simp [he], rfl, by simp⟩
    · simp only [takeFirst, he, if_false, Option.map_eq_some_iff, Prod.mk.injEq] at h
      obtain ⟨⟨found, others'⟩, hfound, rfl, rfl⟩ := h
      obtain ⟨newer, older, hrest, hothers, hnewer⟩ := ih hfound
      refine ⟨(e, d) :: newer, older, by simp [hrest], by simp [hothers], ?_⟩
      intro entry hentry
      rcases List.mem_cons.1 hentry with rfl | hentry
      · exact he
      · exact hnewer entry hentry

/-- A borrower gets nothing only if nothing fits. -/
theorem takeFirst_eq_none {endpoint : Endpoint} {idle : List (Endpoint × κ)} :
    takeFirst endpoint idle = none ↔ ∀ entry ∈ idle, entry.1 ≠ endpoint := by
  induction idle with
  | nil => simp [takeFirst]
  | cons entry rest ih =>
    obtain ⟨e, d⟩ := entry
    by_cases he : e = endpoint <;> simp [takeFirst, he, ih]

end ShardSweep
