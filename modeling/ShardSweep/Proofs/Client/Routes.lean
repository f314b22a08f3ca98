import Mathlib.Data.List.Induction
import Mathlib.Logic.ExistsUnique
import ShardSweep.Proofs.Client.Watch

/-!
# Where requests go

All endpoints of a service answer alike, so whether a request goes to the right one shows at the
transport only.  The rule is one for all requests: of `n` groups the one with the number `i % n`
is responsible, where `i` is the directory that a request is about, and the inode itself if the
attributes of an inode are fetched whose parent is not known.  Of the group that is responsible the
first endpoint is dialed and asked, and nobody else.

* `Request.Under`, `Client.Holders`: the rule;
* `Client.Deed`: what can be done with a client, and `Client.after` what comes of it;
* `Client.Routed`: what the rule means for a client in use;
* `Client.routed`: it means this after any deeds, over any transport.
-/

namespace ShardSweep

/-- The inode whose number decides on the shard of a request. -/
inductive Request.Under : Request → Inode → Prop
  | listEntries {fs parent epoch} : Under (.listEntries fs parent epoch) parent
  | getEntry {fs parent name epoch} : Under (.getEntry fs parent name epoch) parent
  | deleteFile {fs parent name epoch} : Under (.deleteFile fs parent name epoch) parent
  | deleteDir {fs parent name epoch} : Under (.deleteDir fs parent name epoch) parent
  | hinted {fs i hint epoch} (known : 0 < hint) : Under (.getAttr fs i hint epoch) hint
  | unhinted {fs i epoch} : Under (.getAttr fs i 0 epoch) i

/-- The requests that are not about inodes. -/
inductive Request.AboutFilesystems : Request → Prop
  | getFsInfo {fs} : AboutFilesystems (.getFsInfo fs)
  | listFsInfo : AboutFilesystems .listFsInfo

/-- A sighting of a request that is dealt with at an endpoint. -/
def Sighting.At (endpoint : Endpoint) (r : Request) : Sighting → Prop
  | .dial _ e => e = endpoint
  | .call _ e r' => e = endpoint ∧ r' = r
  | .lost _ => True

namespace Client

/-- The endpoints that are responsible for a request. -/
inductive Holders (c : Client) : Request → List Endpoint → Prop
  | shard {r i group} (under : r.Under i)
      (found : c.shards.groups[i % c.shards.groups.length]? = some group) : Holders c r group
  | coordinators {r} (about : r.AboutFilesystems) : Holders c r c.coordinators

/-- A filesystem that the shard table can be made ready for. -/
def Accepts (c : Client) (fs : FsId) : Prop :=
  fs ≠ 0 ∧ ∃ group ∈ c.shards.groups, group ≠ []

/-- Something that is done with a client, or happens to it. -/
inductive Deed (τ : Type) where
  | prepare (fs : FsId)
  | call (r : Request)
  /-- Something is dropped from what the client remembers, or added to it. -/
  | remind (f : FsCache → FsCache)
  /-- The transport changes by itself. -/
  | aside (f : τ → τ)

variable {τ κ : Type}

/-- What comes of it. -/
def Deed.run (transport : Transport τ κ) (c : Client) :
    Deed τ → ClientState (Watched τ) (Line κ) → ClientState (Watched τ) (Line κ)
  | .prepare fs, st => ((c.prepare fs).run st).2
  | .call r, st => ((c.call transport.watch r).run st).2
  | .remind f, st => { st with cache := f st.cache }
  | .aside f, st => { st with wire := st.wire.reaching (st.wire.pooled.net.onNet f) }

/-- A new client after some deeds. -/
def after (transport : Transport τ κ) (c : Client) (net : τ) (deeds : List (Deed τ)) :
    ClientState (Watched τ) (Line κ) :=
  deeds.foldl (fun st deed => deed.run transport c st) (.fresh ⟨net, []⟩)

/-- A request that is sent, because there is somebody to send it to and its answer is not known. -/
def Sends (st : ClientState τ κ) (r : Request) : Prop :=
  (∀ i, r.Under i → st.active ≠ none) ∧ ∀ fs, r = .getFsInfo fs → st.cache.get? fs = none

/-- What the rule means for a client in the state `st` that some deeds have led to. -/
structure Routed (transport : Transport τ κ) (c : Client) (deeds : List (Deed τ))
    (st : ClientState (Watched τ) (Line κ)) : Prop where
  /-- The table is ready for the filesystem that was accepted last. -/
  unready : st.active = none ↔ ∀ fs, .prepare fs ∈ deeds → ¬ c.Accepts fs
  ready : ∀ fs, st.active = some fs ↔ ∃ before later, deeds = before ++ .prepare fs :: later ∧
    c.Accepts fs ∧ ∀ fs', .prepare fs' ∈ later → ¬ c.Accepts fs'
  accepted : ∀ fs, c.Accepts fs → (c.prepare fs).run st = (.ok (), { st with active := some fs })
  /-- Who is refused has changed nothing. -/
  refused : ∀ fs, ¬ c.Accepts fs → ∃ e, (c.prepare fs).run st = (.error (.failed (.routing e)), st)
  /-- A table that is ready has a group for every inode. -/
  inRange : st.active ≠ none → ∀ i, 0 < c.shards.size ∧ i % c.shards.size < c.shards.size ∧
    ∃ group, c.shards.groups[i % c.shards.size]? = some group ∧
      c.shards.resolve st.active i = .ok group
  /-- Before it is ready nothing is dialed or asked that is about an inode. -/
  early : st.active = none → ∀ r i, r.Under i →
    (c.call transport.watch r).run st = (.error (.failed (.routing .notInitialized)), st)
  /-- What is remembered is not asked for. -/
  remembered : ∀ fs info, st.cache.get? fs = some info →
    (c.call transport.watch (.getFsInfo fs)).run st = (.ok info, st)
  /-- For whatever is sent somebody is responsible, if only a group without endpoints. -/
  decided : ∀ r, Sends st r → ∃! group, c.Holders r group
  /-- Where there is no endpoint neither the pool nor the transport is touched. -/
  nowhere : ∀ r, Sends st r → c.Holders r [] →
    (c.call transport.watch r).run st = (.error (.failed (.rpc (.noEndpoint r.kind))),
      { st with wire := st.wire.tallied fun tally => tally.countCall.countFailure })
  /-- Otherwise the first endpoint is dialed or asked, and no other. -/
  there : ∀ r endpoint rest, Sends st r → c.Holders r (endpoint :: rest) →
    ∃ sightings ≠ [], ((c.call transport.watch r).run st).2.wire.seen = sightings ++ st.wire.seen ∧
      ∀ sighting ∈ sightings, sighting.At endpoint r

variable {transport : Transport τ κ} {c : Client} {r : Request} {st : ClientState τ κ}

/-! ### One request -/

/-- A request that cannot be sent anywhere changes nothing. -/
private theorem run_send_of_error {e : RoutingError} (h : c.endpointsFor r st = .error e) :
    (c.send transport r).run st = (.error (.failed (.routing e)), st) := by
  simp [send, h]

/-- A request that is sent leaves all but the wire alone. -/
private theorem run_send_of_ok (transport : Transport τ κ) {endpoints : List Endpoint}
    (h : c.endpointsFor r st = .ok endpoints) :
    ∃ outcome, (c.send transport r).run st =
        (outcome, { st with wire := ((Wire.invoke transport c.rpc endpoints r).run st.wire).2 }) ∧
      ∀ e, ((Wire.invoke transport c.rpc endpoints r).run st.wire).1 = .error e →
        outcome = .error (.failed (.rpc e)) := by
  simp only [send, Proc.run_bind, Proc.run_read, h, Proc.run_on, ClientState.wirePart]
  cases ((Wire.invoke transport c.rpc endpoints r).run st.wire).1 with
  | error e => exact ⟨_, rfl, fun e' he => by cases he; rfl⟩
  | ok a => exact ⟨_, rfl, fun e' he => by cases he⟩

/-- What is remembered is answered at once. -/
private theorem run_call_of_known {fs : FsId} {info : FsInfo}
    (known : st.cache.get? fs = some info) :
    (c.call transport (.getFsInfo fs)).run st = (.ok info, st) := by
  simp [call, fsInfo, known]

/-- A request whose answer is not known is sent; if there is an answer it may be remembered. -/
private theorem run_call (transport : Transport τ κ) (c : Client)
    (unknown : ∀ fs, r = .getFsInfo fs → st.cache.get? fs = none) :
    ∃ cache, (c.call transport r).run st = (((c.send transport r).run st).1,
        { ((c.send transport r).run st).2 with cache := cache }) ∧
      ∀ h, ((c.send transport r).run st).1 = .error h →
        cache = ((c.send transport r).run st).2.cache := by
  cases r with
  | getFsInfo fs =>
    simp only [call, fsInfo, Proc.run_bind, Proc.run_read, unknown fs rfl]
    cases ((c.send transport (.getFsInfo fs)).run st).1 with
    | error h => exact ⟨_, rfl, fun _ _ => rfl⟩
    | ok info => exact ⟨_, rfl, nofun⟩
  | listFsInfo =>
    simp only [call, fsInfos, Proc.run_bind]
    cases ((c.send transport .listFsInfo).run st).1 with
    | error h => exact ⟨_, rfl, fun _ _ => rfl⟩
    | ok infos => exact ⟨_, rfl, nofun⟩
  | _ => exact ⟨_, rfl, fun _ _ => rfl⟩

/-- A request about an inode is for its shard. -/
private theorem destination_of_under {i : Inode} (h : r.Under i) : r.destination = .shardOf i := by
  cases h with
  | hinted known => simp [Request.destination, known]
  | _ => rfl

/-- A request about filesystems is for the coordinators. -/
private theorem destination_of_about (h : r.AboutFilesystems) :
    r.destination = .coordinators := by
  cases h <;> rfl

/-- Every request is about an inode or about filesystems. -/
private theorem under_or_about (r : Request) : (∃ i, r.Under i) ∨ r.AboutFilesystems := by
  cases r with
  | listEntries => exact .inl ⟨_, .listEntries⟩
  | getEntry => exact .inl ⟨_, .getEntry⟩
  | deleteFile => exact .inl ⟨_, .deleteFile⟩
  | deleteDir => exact .inl ⟨_, .deleteDir⟩
  | getAttr fs i hint epoch =>
    by_cases known : 0 < hint
    · exact .inl ⟨_, .hinted known⟩
    · obtain rfl : hint = 0 := by simpa using known
      exact .inl ⟨_, .unhinted⟩
  | getFsInfo => exact .inr .getFsInfo
  | listFsInfo => exact .inr .listFsInfo

/-- Whatever is sent goes to whoever is responsible. -/
private theorem endpointsFor_of_holders {group : List Endpoint} (sends : Sends st r)
    (holders : c.Holders r group) : c.endpointsFor r st = .ok group := by
  cases holders with
  | shard under found =>
    obtain ⟨fs, hactive⟩ := Option.ne_none_iff_exists'.mp (sends.1 _ under)
    simp [endpointsFor, destination_of_under under, hactive, ShardTable.resolve, ShardTable.groupOf,
      ShardTable.size, found]
  | coordinators about => simp [endpointsFor, destination_of_about about]

/-- What one step shows is added to what was seen of the request, and shows the right endpoint. -/
private theorem goes_seen {endpoint : Endpoint} {t t' : Trip} {w w' : Wire (Watched τ) (Line κ)}
    (h : Trip.Goes endpoint r t w w' t') :
    ∃ sightings, w'.seen = sightings ++ w.seen ∧ t'.seen = sightings ++ t.seen ∧
      ∀ sighting ∈ sightings, sighting.At endpoint r := by
  cases h with
  | rest _ seen | lend _ seen | drop _ seen | putBack _ seen => exact ⟨[], seen, rfl, by simp⟩
  | dial _ seen | call _ seen | lose _ seen =>
    exact ⟨[_], seen, rfl, by simp [Sighting.At]⟩

/-- A request that has an endpoint to go to is seen at the first one and nowhere else. -/
private theorem run_invoke {endpoint : Endpoint} {w : Wire (Watched τ) (Line κ)}
    (transport : Transport τ κ) (settings : RpcSettings) (rest : List Endpoint) (r : Request)
    (inPlace : w.InPlace) :
    let w' := ((Wire.invoke transport.watch settings (endpoint :: rest) r).run w).2
    w'.InPlace ∧ ∃ sightings ≠ [], w'.seen = sightings ++ w.seen ∧
      ∀ sighting ∈ sightings, sighting.At endpoint r := by
  have htrips : (Wire.invoke transport.watch settings (endpoint :: rest) r).Obeys
      (Trip.contract (τ := τ) (κ := κ) endpoint r) ⟨none, []⟩ fun _ t' => t'.Over :=
    Wire.invoke_trips settings rest rfl
  obtain ⟨t, hover, hinPlace, hseen, hat⟩ := htrips.run
    (fun t w' => w'.InPlace ∧ w'.seen = t.seen ++ w.seen ∧
      ∀ sighting ∈ t.seen, sighting.At endpoint r)
    (fun _ _ h => h.1)
    (fun t w₁ w₂ t' h goes => by
      obtain ⟨hinPlace, hseen, hat⟩ := h
      obtain ⟨sightings, hseen₂, htrip, hat₂⟩ := goes_seen goes
      refine ⟨goes.inPlace hinPlace, by simp [hseen₂, htrip, hseen], fun sighting h => ?_⟩
      rcases List.mem_append.mp (htrip ▸ h) with h | h
      · exact hat₂ _ h
      · exact hat _ h)
    ⟨inPlace, rfl, by simp⟩
  exact ⟨hinPlace, t.seen, hover.2, hseen, hat⟩

/-- The client is ready for a filesystem that it accepts. -/
private theorem run_prepare_of_accepts {fs : FsId} (accepts : c.Accepts fs) :
    (c.prepare fs).run st = (.ok (), { st with active := some fs }) := by
  obtain ⟨hfs, group, hgroup, hne⟩ := accepts
  have hstocked : c.shards.hasEndpoint = true :=
    List.any_eq_true.mpr ⟨group, hgroup, by simpa using hne⟩
  simp [prepare, ShardTable.ready, hfs, hstocked]

/-- It refuses any other, and stays as it is. -/
private theorem run_prepare_of_refuses {fs : FsId} (refuses : ¬ c.Accepts fs)
    (st : ClientState τ κ) :
    ∃ e, (c.prepare fs).run st = (.error (.failed (.routing e)), st) := by
  by_cases hfs : fs = 0
  · exact ⟨.invalidFilesystem fs, by simp [prepare, ShardTable.ready, hfs]⟩
  · have hempty : c.shards.hasEndpoint = false := by
      rw [ShardTable.hasEndpoint, List.any_eq_false]
      intro group hgroup hne
      exact refuses ⟨hfs, group, hgroup, by simpa using hne⟩
    exact ⟨.noShards fs, by simp [prepare, ShardTable.ready, hfs, hempty]⟩

/-! ### Any deeds -/

/-- What is so at all times. -/
private structure Sound (c : Client) (st : ClientState (Watched τ) (Line κ)) : Prop where
  inPlace : st.wire.InPlace
  stocked : st.active ≠ none → ∃ group ∈ c.shards.groups, group ≠ []

variable {net : τ} {deeds : List (Deed τ)} {watched : ClientState (Watched τ) (Line κ)}

/-- Sending keeps the links in their places, and the filesystem that the client is ready for. -/
private theorem run_send_inPlace (inPlace : watched.wire.InPlace) :
    ((c.send transport.watch r).run watched).2.wire.InPlace ∧
      ((c.send transport.watch r).run watched).2.active = watched.active := by
  cases hendpoints : c.endpointsFor r watched with
  | error e =>
    rw [run_send_of_error hendpoints]
    exact ⟨inPlace, rfl⟩
  | ok endpoints =>
    obtain ⟨outcome, hsend, -⟩ := run_send_of_ok transport.watch hendpoints
    rw [hsend]
    refine ⟨?_, rfl⟩
    cases endpoints with
    | nil => exact inPlace
    | cons endpoint rest => exact (run_invoke transport c.rpc rest r inPlace).1

/-- So does a whole call. -/
private theorem run_call_inPlace (transport : Transport τ κ) (c : Client) (r : Request)
    (inPlace : watched.wire.InPlace) :
    ((c.call transport.watch r).run watched).2.wire.InPlace ∧
      ((c.call transport.watch r).run watched).2.active = watched.active := by
  by_cases hknown : ∃ fs info, r = .getFsInfo fs ∧ watched.cache.get? fs = some info
  · obtain ⟨fs, info, rfl, hinfo⟩ := hknown
    rw [run_call_of_known hinfo]
    exact ⟨inPlace, rfl⟩
  · have hunknown : ∀ fs, r = .getFsInfo fs → watched.cache.get? fs = none := fun fs hr =>
      Option.eq_none_iff_forall_ne_some.mpr fun info hinfo => hknown ⟨fs, info, hr, hinfo⟩
    obtain ⟨cache, hcall, -⟩ := run_call transport.watch c hunknown
    rw [hcall]
    exact run_send_inPlace inPlace

/-- The last deed comes last. -/
private theorem after_concat (deeds : List (Deed τ)) (deed : Deed τ) :
    after transport c net (deeds ++ [deed]) = deed.run transport c (after transport c net deeds) := by
  simp [after]

/-- A deed keeps the links in their places and the cache out of the way. -/
private theorem Sound.run (sound : Sound c watched) (deed : Deed τ) :
    Sound c (deed.run transport c watched) := by
  cases deed with
  | prepare fs =>
    by_cases haccepts : c.Accepts fs
    · simp only [Deed.run, run_prepare_of_accepts haccepts]
      exact ⟨sound.inPlace, fun _ => haccepts.2⟩
    · obtain ⟨e, hrefused⟩ := run_prepare_of_refuses haccepts watched
      simp only [Deed.run, hrefused]
      exact sound
  | call r =>
    obtain ⟨hinPlace, hactive⟩ := run_call_inPlace transport c r sound.inPlace
    exact ⟨hinPlace, fun h => sound.stocked (hactive ▸ h)⟩
  | remind f => exact ⟨sound.inPlace, sound.stocked⟩
  | aside f => exact ⟨sound.inPlace, sound.stocked⟩

/-- So do all deeds. -/
private theorem sound_after (transport : Transport τ κ) (c : Client) (net : τ)
    (deeds : List (Deed τ)) : Sound c (after transport c net deeds) := by
  induction deeds using List.reverseRec with
  | nil => exact ⟨nofun, fun h => absurd rfl h⟩
  | append_singleton deeds deed ih =>
    rw [after_concat]
    exact ih.run deed

/-- Only getting ready for a filesystem that is accepted changes which one the table is ready for. -/
private theorem active_run (transport : Transport τ κ) (sound : Sound c watched)
    (deed : Deed τ) :
    (∃ fs, deed = .prepare fs ∧ c.Accepts fs ∧
      (deed.run transport c watched).active = some fs) ∨
    ((∀ fs, deed = .prepare fs → ¬ c.Accepts fs) ∧
      (deed.run transport c watched).active = watched.active) := by
  cases deed with
  | prepare fs =>
    by_cases haccepts : c.Accepts fs
    · exact .inl ⟨fs, rfl, haccepts, by simp [Deed.run, run_prepare_of_accepts haccepts]⟩
    · obtain ⟨e, hrefused⟩ := run_prepare_of_refuses haccepts watched
      refine .inr ⟨fun fs' hfs => ?_, by simp [Deed.run, hrefused]⟩
      cases hfs
      exact haccepts
  | call r => exact .inr ⟨nofun, (run_call_inPlace _ _ _ sound.inPlace).2⟩
  | remind f => exact .inr ⟨nofun, rfl⟩
  | aside f => exact .inr ⟨nofun, rfl⟩

/-- Where the last of some deeds stands, if they are split at one of them. -/
private theorem concat_eq_append_cons {α : Type} {front before later : List α} {last a : α}
    (h : front ++ [last] = before ++ a :: later) :
    (later = [] ∧ front = before ∧ last = a) ∨
      ∃ rest, later = rest ++ [last] ∧ front = before ++ a :: rest := by
  rcases List.eq_nil_or_concat later with rfl | ⟨rest, last', rfl⟩
  · obtain ⟨hfront, hlast⟩ := List.append_inj' h rfl
    exact .inl ⟨rfl, hfront, List.singleton_inj.mp hlast⟩
  · rw [List.concat_eq_append, ← List.cons_append, ← List.append_assoc] at h
    obtain ⟨hfront, hlast⟩ := List.append_inj' h rfl
    obtain rfl := List.singleton_inj.mp hlast
    exact .inr ⟨rest, List.concat_eq_append, hfront⟩

/-- The client is ready for nothing until it has accepted a filesystem. -/
private theorem unready_after (transport : Transport τ κ) (c : Client) (net : τ)
    (deeds : List (Deed τ)) :
    (after transport c net deeds).active = none ↔ ∀ fs, .prepare fs ∈ deeds → ¬ c.Accepts fs := by
  induction deeds using List.reverseRec with
  | nil => simp [after, ClientState.fresh]
  | append_singleton deeds deed ih =>
    rw [after_concat]
    rcases active_run transport (sound_after transport c net deeds) deed with
      ⟨fs, rfl, haccepts, hactive⟩ | ⟨hrefuses, hactive⟩
    · simp only [hactive, reduceCtorEq, false_iff]
      exact fun h => h fs (by simp) haccepts
    · rw [hactive, ih]
      refine ⟨fun h fs hfs => ?_, fun h fs hfs => h fs (by simp [hfs])⟩
      rcases List.mem_append.mp hfs with hfs | hfs
      · exact h fs hfs
      · exact hrefuses fs (List.mem_singleton.mp hfs).symm

/-- The client is ready for the filesystem that it accepted last. -/
private theorem ready_after (transport : Transport τ κ) (c : Client) (net : τ)
    (deeds : List (Deed τ)) (fs : FsId) :
    (after transport c net deeds).active = some fs ↔
      ∃ before later, deeds = before ++ .prepare fs :: later ∧ c.Accepts fs ∧
        ∀ fs', .prepare fs' ∈ later → ¬ c.Accepts fs' := by
  induction deeds using List.reverseRec with
  | nil => simp [after, ClientState.fresh]
  | append_singleton deeds deed ih =>
    rw [after_concat]
    rcases active_run transport (sound_after transport c net deeds) deed with
      ⟨last, rfl, haccepts, hactive⟩ | ⟨hrefuses, hactive⟩
    · rw [hactive]
      refine ⟨fun h => ?_, ?_⟩
      · obtain rfl := Option.some.inj h
        exact ⟨deeds, [], rfl, haccepts, by simp⟩
      · rintro ⟨before, later, hdeeds, -, hlater⟩
        rcases concat_eq_append_cons hdeeds with ⟨-, -, hlast⟩ | ⟨rest, rfl, -⟩
        · cases hlast
          rfl
        · exact absurd haccepts (hlater last (by simp))
    · rw [hactive, ih]
      constructor
      · rintro ⟨before, later, rfl, haccepts, hlater⟩
        refine ⟨before, later ++ [deed], by simp, haccepts, fun fs' hfs' => ?_⟩
        rcases List.mem_append.mp hfs' with hfs' | hfs'
        · exact hlater fs' hfs'
        · exact hrefuses fs' (List.mem_singleton.mp hfs').symm
      · rintro ⟨before, later, hdeeds, haccepts, hlater⟩
        rcases concat_eq_append_cons hdeeds with ⟨-, -, hlast⟩ | ⟨rest, rfl, rfl⟩
        · exact absurd haccepts (hrefuses fs hlast)
        · exact ⟨before, rest, rfl, haccepts, fun fs' hfs' => hlater fs' (by simp [hfs'])⟩

/-- A table that can be made ready has a group for every inode. -/
private theorem exists_group (stocked : ∃ group ∈ c.shards.groups, group ≠ []) (i : Inode) :
    0 < c.shards.size ∧ i % c.shards.size < c.shards.size ∧
      ∃ group, c.shards.groups[i % c.shards.size]? = some group := by
  obtain ⟨group, hgroup, -⟩ := stocked
  have hpos : 0 < c.shards.size := List.length_pos_of_mem hgroup
  have hlt := Nat.mod_lt i hpos
  exact ⟨hpos, hlt, _, List.getElem?_eq_getElem hlt⟩

/-- A request that is sent has a group that holds what it is about. -/
private theorem exists_holders (sound : Sound c watched) (sends : Sends watched r) :
    ∃ group, c.Holders r group := by
  rcases under_or_about r with ⟨i, hunder⟩ | habout
  · obtain ⟨-, -, group, hgroup⟩ := exists_group (sound.stocked (sends.1 i hunder)) i
    exact ⟨group, .shard hunder hgroup⟩
  · exact ⟨_, .coordinators habout⟩

/-- Every request of a client goes where the rule says, whatever was done with the client before
and whatever its transport does. -/
theorem routed (transport : Transport τ κ) (c : Client) (net : τ) (deeds : List (Deed τ)) :
    Routed transport c deeds (after transport c net deeds) where
  unready := unready_after transport c net deeds
  ready := ready_after transport c net deeds
  accepted _ := run_prepare_of_accepts
  refused _ refuses := run_prepare_of_refuses refuses _
  inRange ready i := by
    obtain ⟨hpos, hlt, group, hgroup⟩ :=
      exists_group ((sound_after transport c net deeds).stocked ready) i
    obtain ⟨fs, hactive⟩ := Option.ne_none_iff_exists'.mp ready
    exact ⟨hpos, hlt, group, hgroup,
      by simp [ShardTable.resolve, hactive, ShardTable.groupOf, hgroup]⟩
  early unready r i under := by
    have hunknown : ∀ fs, r = .getFsInfo fs →
        (after transport c net deeds).cache.get? fs = none := by
      rintro fs rfl
      cases under
    have hendpoints : c.endpointsFor r (after transport c net deeds) = .error .notInitialized := by
      simp [endpointsFor, destination_of_under under, ShardTable.resolve, unready]
    obtain ⟨cache, hcall, hcache⟩ := run_call transport.watch c hunknown
    rw [run_send_of_error hendpoints] at hcall hcache
    rw [hcall, hcache _ rfl]
  remembered _ _ := run_call_of_known
  decided r sends := by
    obtain ⟨group, hgroup⟩ := exists_holders (sound_after transport c net deeds) sends
    refine ⟨group, hgroup, fun group' hgroup' => ?_⟩
    have hsame := (endpointsFor_of_holders sends hgroup').symm.trans
      (endpointsFor_of_holders sends hgroup)
    exact Except.ok.inj hsame
  nowhere r sends holders := by
    obtain ⟨cache, hcall, hcache⟩ := run_call transport.watch c sends.2
    obtain ⟨outcome, hsend, houtcome⟩ :=
      run_send_of_ok transport.watch (endpointsFor_of_holders sends holders)
    obtain rfl := houtcome _ rfl
    rw [hsend] at hcall hcache
    rw [hcall, hcache _ rfl]
    rfl
  there r endpoint rest sends holders := by
    obtain ⟨cache, hcall, -⟩ := run_call transport.watch c sends.2
    obtain ⟨outcome, hsend, -⟩ :=
      run_send_of_ok transport.watch (endpointsFor_of_holders sends holders)
    rw [hcall, hsend]
    exact (run_invoke transport c.rpc rest r (sound_after transport c net deeds).inPlace).2

end Client

end ShardSweep
