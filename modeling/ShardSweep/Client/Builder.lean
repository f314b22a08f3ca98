import ShardSweep.Client.Basic

/-!
# Making a client

A `ClientSpec` collects what a client is to be made of, in any order, and `build`
makes it if the settings can be used.  Without a shard table of its own a client
has one shard, which the coordinators serve.

* `build_eq_error_iff`: what keeps a client from being made;
* `coordinators_of_build`: a client that was made has somebody to ask.
-/

namespace ShardSweep

/-- What a client is to be made of. -/
structure ClientSpec where
  rpc : RpcSettings
  shards : Option ShardTable
  coordinators : List Endpoint
  deriving DecidableEq

namespace ClientSpec

/-- Nothing chosen yet. -/
def standard : ClientSpec :=
  ⟨.standard, none, []⟩

/-- Start over from settings. -/
def ofSettings (settings : Settings) : ClientSpec :=
  ⟨settings.rpc, none, settings.coordinators⟩

/-- Choose the time of an attempt. -/
def withTimeout (timeout : Duration) (spec : ClientSpec) : ClientSpec :=
  { spec with rpc := { spec.rpc with timeout := timeout } }

/-- Choose the number of retries. -/
def withRetries (retries : Nat) (spec : ClientSpec) : ClientSpec :=
  { spec with rpc := { spec.rpc with retries := retries } }

/-- Choose the pause before a retry. -/
def withDelay (delay : Duration) (spec : ClientSpec) : ClientSpec :=
  { spec with rpc := { spec.rpc with delay := delay } }

/-- Choose all of these at once. -/
def withRpc (rpc : RpcSettings) (spec : ClientSpec) : ClientSpec :=
  { spec with rpc := rpc }

/-- Choose the coordinators. -/
def withCoordinators (coordinators : List Endpoint) (spec : ClientSpec) : ClientSpec :=
  { spec with coordinators := coordinators }

/-- Choose the shards. -/
def withShards (shards : ShardTable) (spec : ClientSpec) : ClientSpec :=
  { spec with shards := some shards }

/-- Make the client; the timeout is complained about before the coordinators. -/
def build (spec : ClientSpec) : Except SettingsError Client :=
  match spec.rpc.validate with
  | .error e => .error e
  | .ok () =>
    if spec.coordinators = [] then .error .noCoordinator
    else .ok ⟨spec.rpc, spec.shards.getD (.single spec.coordinators), spec.coordinators⟩

/-- What keeps a client from being made. -/
theorem build_eq_error_iff (spec : ClientSpec) :
    (∃ e, spec.build = .error e) ↔ spec.rpc.timeout.nanos = 0 ∨ spec.coordinators = [] := by
  unfold build RpcSettings.validate
  by_cases ht : spec.rpc.timeout.nanos = 0 <;> by_cases hc : spec.coordinators = [] <;>
    simp [ht, hc]

/-- A client that was made has a coordinator. -/
theorem coordinators_of_build {spec : ClientSpec} {c : Client} (h : spec.build = .ok c) :
    c.coordinators ≠ [] := by
  unfold build at h
  split at h
  · cases h
  · split at h
    · cases h
    · rename_i hsome
      obtain rfl := Except.ok.inj h
      exact hsome

end ClientSpec

end ShardSweep
