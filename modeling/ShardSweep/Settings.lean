import ShardSweep.Failure

/-!
# Settings

`RpcSettings` are the timeout and the retries of one request, `Settings` all
that a client needs to know from outside.  Both are values that anyone can
write down; `validate` says whether they can be used, and its first complaint
is the one that is reported.

* `checkThreads`: the bound on concurrency that every walk obeys;
* `Settings.validate_eq_ok_iff`: what usable settings are.
-/

namespace ShardSweep

/-- The most threads one walk may use. -/
def maxThreads : Nat := 512

/-- A walk may use a thread. -/
theorem maxThreads_pos : 1 ≤ maxThreads := by
  decide

/-- Refuse a walk that has no thread or too many. -/
def checkThreads (threads : Nat) : Except Refusal Unit :=
  if threads = 0 ∨ maxThreads < threads then .error (.invalidConcurrency threads maxThreads)
  else .ok ()

/-- The accepted numbers of threads. -/
theorem checkThreads_eq_ok_iff (threads : Nat) :
    checkThreads threads = .ok () ↔ 1 ≤ threads ∧ threads ≤ maxThreads := by
  unfold checkThreads
  split <;> simp <;> omega

/-- How one request is made. -/
structure RpcSettings where
  /-- The time one attempt may take. -/
  timeout : Duration
  /-- Attempts after the first one. -/
  retries : Nat
  /-- The pause before each of them. -/
  delay : Duration
  deriving DecidableEq, Repr

namespace RpcSettings

/-- Ten seconds, and three retries a tenth of a second apart. -/
def standard : RpcSettings :=
  ⟨.ofSeconds 10, 3, .ofMillis 100⟩

/-- An attempt needs time. -/
def validate (s : RpcSettings) : Except SettingsError Unit :=
  if s.timeout.nanos = 0 then .error (.invalidTimeout s.timeout) else .ok ()

end RpcSettings

/-- What a client needs to know from outside. -/
structure Settings where
  /-- The concurrency of one walk. -/
  threads : Nat
  rpc : RpcSettings
  /-- The endpoints that know the filesystems. -/
  coordinators : List Endpoint
  deriving DecidableEq

namespace Settings

/-- Threads, timeout and coordinators, complained about in this order. -/
def validate (s : Settings) : Except SettingsError Unit :=
  if s.threads = 0 ∨ maxThreads < s.threads then
    .error (.invalidThreadCount s.threads maxThreads)
  else if s.rpc.timeout.nanos = 0 then .error (.invalidTimeout s.rpc.timeout)
  else if s.coordinators = [] then .error .noCoordinator
  else .ok ()

/-- Settings from the coordinators alone, given as a list with commas. -/
def ofAddresses (threads : Nat) (addresses : String) : Except SettingsError Settings :=
  match Endpoint.parseList addresses with
  | .error bad => .error (.ofBadAddress bad)
  | .ok coordinators =>
    let settings : Settings := ⟨threads, .standard, coordinators⟩
    settings.validate.map fun _ => settings

/-- What usable settings are. -/
theorem validate_eq_ok_iff (s : Settings) :
    s.validate = .ok () ↔
      1 ≤ s.threads ∧ s.threads ≤ maxThreads ∧ 0 < s.rpc.timeout.nanos ∧ s.coordinators ≠ [] := by
  unfold validate
  repeat' split
  all_goals simp_all <;> omega

end Settings

end ShardSweep
