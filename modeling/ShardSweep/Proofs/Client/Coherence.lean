import ShardSweep.Client.Builder
import ShardSweep.Proofs.Client.Learning
import ShardSweep.Proofs.Client.Steady
import ShardSweep.Proofs.Sweep.Delete

/-!
# What a client remembers and what it was told

A client remembers infos of filesystems for good.  Two requests fill the memory: one asks only for
what is not remembered, the other always asks, and both may fail.  A filesystem can be dropped at
any time, and meanwhile the service goes on.

A `Chronicle` is a client together with the words that were spoken, the latest first: what the
coordinators told, and which filesystems were dropped.  What is remembered of a filesystem is the
last word on it, and it is never ahead of the service.

* `lastWord`: the last word on a filesystem;
* `Client.Writes`: what is done with a client, and the words for it;
* `Client.coherent_of_writes`: whatever is done, the memory holds the last words.
-/

namespace ShardSweep

open ClientState (Turns)

/-- What is known after a listing is what was listed, and of all others what was known before. -/
theorem FsCache.get?_putAll_eq {infos : List FsInfo} (cache : FsCache)
    (sorted : infos.Pairwise (·.fs < ·.fs)) (fs : FsId) :
    (cache.putAll infos).get? fs = (infos.find? (·.fs = fs)).or (cache.get? fs) := by
  cases hfind : infos.find? (·.fs = fs) with
  | none =>
    refine get?_putAll_of_other cache fun info hinfo heq => ?_
    simpa [heq] using List.find?_eq_none.mp hfind info hinfo
  | some info =>
    have hfs : info.fs = fs := by simpa using List.find?_some hfind
    rw [← hfs]
    exact get?_putAll cache sorted (List.mem_of_find?_eq_some hfind)

/-- A word on filesystems: what the coordinators told, or that one was dropped. -/
inductive Word where
  | listed (infos : List FsInfo)
  | told (fs : FsId) (info : FsInfo)
  | dropped (fs : FsId)
  deriving DecidableEq, Repr

/-- The last word on a filesystem; of several words the latest stands first. -/
def lastWord (fs : FsId) : List Word → Option FsInfo
  | [] => none
  | .listed infos :: older => (infos.find? (·.fs = fs)).or (lastWord fs older)
  | .told fs' info :: older => if fs' = fs then some info else lastWord fs older
  | .dropped fs' :: older => if fs' = fs then none else lastWord fs older

/-- A client and the words that were spoken. -/
structure Chronicle where
  state : ClientState Service Link
  words : List Word

namespace Client

/-- The word when a filesystem was asked for: none if it was remembered or the request failed. -/
def wordOnOne (fs : FsId) (remembered : Option FsInfo) : Outcome FsInfo → List Word
  | .ok info => if remembered.isNone then [.told fs info] else []
  | .error _ => []

/-- The word when all filesystems were asked for. -/
def wordOnAll : Outcome (List FsInfo) → List Word
  | .ok infos => [.listed infos]
  | .error _ => []

/-- Something is done with a client, or happens to its service.  While a request is under way
anything may happen to the service. -/
inductive Writes (c : Client) : Chronicle → Chronicle → Prop
  | get {st st' words found outcome} (fs : FsId)
      (course : (c.fsInfo Service.transport fs).Amid Turns st found outcome st') :
      Writes c ⟨st, words⟩ ⟨st', wordOnOne fs (st.cache.get? fs) outcome ++ words⟩
  | list {st st' words found outcome}
      (course : (c.fsInfos Service.transport).Amid Turns st found outcome st') :
      Writes c ⟨st, words⟩ ⟨st', wordOnAll outcome ++ words⟩
  | invalidate {st words} (fs : FsId) :
      Writes c ⟨st, words⟩ ⟨{ st with cache := st.cache.drop fs }, .dropped fs :: words⟩
  | turn {st st' words} (turns : Turns st st') : Writes c ⟨st, words⟩ ⟨st', words⟩

variable {c : Client} {st st' : ClientState Service Link} {fs : FsId}
  {found : List (ClientState Service Link)}

/-- The memory of a client is as it was told, and so will be what is done next. -/
structure Coherent (c : Client) (st : ClientState Service Link) (words : List Word) : Prop where
  /-- Of each filesystem the last word is remembered. -/
  remembered : ∀ fs, st.cache.get? fs = lastWord fs words
  /-- What is remembered is not ahead of the service. -/
  behind : ∀ fs info, st.cache.get? fs = some info → ∃ f, st.service.filesystem? fs = some f ∧
    info.fs = fs ∧ info.name = f.name ∧ info.epoch.number ≤ f.epoch.number
  /-- A filesystem that is remembered costs nothing, whatever others do with the service. -/
  free : ∀ others : ClientState Service Link → ClientState Service Link → Prop,
    (∀ st st', others st st' → st'.cache = st.cache) →
    ∀ fs info found outcome st', st.cache.get? fs = some info →
      (c.fsInfo Service.transport fs).Amid others st found outcome st' →
      outcome = .ok info ∧ Relation.ReflTransGen others st st'
  /-- One that is not is asked for. -/
  missed : ∀ fs found outcome st', st.cache.get? fs = none →
    (c.fsInfo Service.transport fs).Amid Turns st found outcome st' →
    Learned (.getFsInfo fs) (fun info => [info]) st found outcome st'
  /-- A listing is always asked for. -/
  listed : ∀ found outcome st', (c.fsInfos Service.transport).Amid Turns st found outcome st' →
    Learned .listFsInfo id st found outcome st'

/-- What a client remembers of a filesystem is not ahead of the service. -/
private def Behind (s : Service) (cache : FsCache) : Prop :=
  ∀ fs info, cache.get? fs = some info → ∃ f, s.filesystem? fs = some f ∧
    info.fs = fs ∧ info.name = f.name ∧ info.epoch.number ≤ f.epoch.number

/-- A cache that is not ahead does not get ahead as the service grows older. -/
private theorem Behind.ages {s s' : Service} {cache : FsCache} (h : Behind s cache)
    (ages : s.Ages s') : Behind s' cache := by
  intro fs info hinfo
  obtain ⟨f, hf, hfs, hname, hepoch⟩ := h fs info hinfo
  obtain ⟨f', hf', hname', hepoch'⟩ := ages fs f hf
  exact ⟨f', hf', hfs, hname.trans hname'.symm, Nat.le_trans hepoch hepoch'⟩

/-- The memory after one filesystem was asked for. -/
private theorem kept_of_one {words : List Word} {outcome : Outcome FsInfo}
    (learned : Learned (.getFsInfo fs) (fun info => [info]) st found outcome st')
    (missing : st.cache.get? fs = none) (remembered : ∀ fs, st.cache.get? fs = lastWord fs words)
    (behind : Behind st.service st.cache) :
    (∀ fs', st'.cache.get? fs' = lastWord fs' (wordOnOne fs (st.cache.get? fs) outcome ++ words)) ∧
      Behind st'.service st'.cache := by
  cases outcome with
  | error h =>
    rw [learned.failed h rfl]
    exact ⟨remembered, behind.ages learned.ages⟩
  | ok info =>
    obtain ⟨m, -, hserves, hlater⟩ := learned.told info rfl
    obtain ⟨f, hf, rfl⟩ := Service.infoOf_of_serve hserves
    have hcache : ∀ fs', st'.cache.get? fs' =
        if fs' = fs then some (Service.infoOf fs f) else st.cache.get? fs' := by
      intro fs'
      rw [learned.learned _ rfl]
      exact FsCache.get?_put _ _ _
    refine ⟨fun fs' => ?_, fun fs' info hinfo => ?_⟩
    · rw [hcache, remembered, missing]
      simp [wordOnOne, lastWord, @eq_comm _ fs']
    · rw [hcache] at hinfo
      by_cases hfs : fs' = fs
      · rw [if_pos hfs] at hinfo
        obtain rfl := Option.some.inj hinfo
        rw [hfs]
        exact hlater.behind hf
      · rw [if_neg hfs] at hinfo
        exact behind.ages learned.ages fs' info hinfo

/-- The memory after all filesystems were asked for. -/
private theorem kept_of_all {words : List Word} {outcome : Outcome (List FsInfo)}
    (learned : Learned .listFsInfo id st found outcome st')
    (remembered : ∀ fs, st.cache.get? fs = lastWord fs words)
    (behind : Behind st.service st.cache) :
    (∀ fs, st'.cache.get? fs = lastWord fs (wordOnAll outcome ++ words)) ∧
      Behind st'.service st'.cache := by
  cases outcome with
  | error h =>
    rw [learned.failed h rfl]
    exact ⟨remembered, behind.ages learned.ages⟩
  | ok infos =>
    obtain ⟨m, -, hserves, hlater⟩ := learned.told infos rfl
    obtain rfl : m.service.infos = infos := Except.ok.inj hserves
    have hcache : ∀ fs, st'.cache.get? fs =
        (m.service.infos.find? (·.fs = fs)).or (st.cache.get? fs) := by
      intro fs
      rw [learned.learned _ rfl]
      exact FsCache.get?_putAll_eq _ m.service.sorted_infos fs
    refine ⟨fun fs => ?_, fun fs info hinfo => ?_⟩
    · rw [hcache, remembered]
      rfl
    · rw [hcache] at hinfo
      cases hfind : m.service.infos.find? (·.fs = fs) with
      | none =>
        rw [hfind, Option.none_or] at hinfo
        exact behind.ages learned.ages fs info hinfo
      | some listed =>
        rw [hfind, Option.some_or] at hinfo
        obtain rfl := Option.some.inj hinfo
        obtain ⟨f, hf, hlisted⟩ := Service.mem_infos.mp (List.mem_of_find?_eq_some hfind)
        have hfs : listed.fs = fs := by simpa using List.find?_some hfind
        rw [hlisted, ← hfs]
        exact hlater.behind hf

/-- A write keeps the cache at the last word, and not ahead of the service. -/
private theorem Writes.kept (some : c.coordinators ≠ []) {before after : Chronicle}
    (h : Writes c before after)
    (remembered : ∀ fs, before.state.cache.get? fs = lastWord fs before.words)
    (behind : Behind before.state.service before.state.cache) :
    (∀ fs, after.state.cache.get? fs = lastWord fs after.words) ∧
      Behind after.state.service after.state.cache := by
  cases h with
  | @get st st' words found outcome fs course =>
    cases hcache : st.cache.get? fs with
    | none =>
      have hkept := kept_of_one (fsInfo_amid_missing some hcache course) hcache remembered behind
      rwa [hcache] at hkept
    | some info =>
      have hkeeps : ∀ st st', Turns st st' → st'.cache = st.cache := by
        rintro st st' ⟨net, -, rfl⟩
        rfl
      obtain ⟨rfl, hturns⟩ := fsInfo_amid_remembered hkeeps hcache course
      obtain ⟨hsame, -, hages⟩ := of_turns hturns
      simp only [hsame]
      exact ⟨remembered, behind.ages hages⟩
  | list course => exact kept_of_all (fsInfos_amid some course) remembered behind
  | @invalidate st words fs =>
    have hcache : ∀ fs', (st.cache.drop fs).get? fs' =
        if fs' = fs then none else st.cache.get? fs' := FsCache.get?_drop st.cache fs
    refine ⟨fun fs' => ?_, fun fs' info hinfo => ?_⟩
    · rw [hcache, remembered, lastWord]
      simp only [@eq_comm _ fs']
    · rw [hcache] at hinfo
      split at hinfo
      · cases hinfo
      · exact behind fs' info hinfo
  | turn turns =>
    obtain ⟨hsame, -, hages⟩ := of_turns (.single turns)
    simp only [hsame]
    exact ⟨remembered, behind.ages hages⟩

/-- So does a whole history. -/
private theorem kept_of_writes (some : c.coordinators ≠ []) {start after : Chronicle}
    (writes : Relation.ReflTransGen (Writes c) start after)
    (remembered : ∀ fs, start.state.cache.get? fs = lastWord fs start.words)
    (behind : Behind start.state.service start.state.cache) :
    (∀ fs, after.state.cache.get? fs = lastWord fs after.words) ∧
      Behind after.state.service after.state.cache := by
  induction writes with
  | refl => exact ⟨remembered, behind⟩
  | tail _ hwrites ih => exact hwrites.kept some ih.1 ih.2

/-- Whatever is done with a client and happens to its service, the client remembers of each
filesystem the last word since it was dropped, which is not ahead of the service. -/
theorem coherent_of_writes {spec : ClientSpec} {c : Client} (built : spec.build = .ok c)
    {service : Service} {st : ClientState Service Link} {words : List Word}
    (writes : Relation.ReflTransGen (Writes c) ⟨.fresh service, []⟩ ⟨st, words⟩) :
    Coherent c st words := by
  have hsome := ClientSpec.coordinators_of_build built
  have hempty : ∀ fs, FsCache.empty.get? fs = none := fun _ => rfl
  have hbehind : Behind service .empty := by
    intro fs info hinfo
    rw [hempty] at hinfo
    cases hinfo
  obtain ⟨hremembered, hlater⟩ := kept_of_writes hsome writes hempty hbehind
  exact {
    remembered := hremembered
    behind := hlater
    free := fun _ keeps _ _ _ _ _ cached course => fsInfo_amid_remembered keeps cached course
    missed := fun _ _ _ _ missing course => fsInfo_amid_missing hsome missing course
    listed := fun _ _ _ course => fsInfos_amid hsome course }

/-- What is done while nothing happens to the service. -/
theorem Writes.list_run {words : List Word} :
    Writes c ⟨st, words⟩ ⟨((c.fsInfos Service.transport).run st).2,
      wordOnAll ((c.fsInfos Service.transport).run st).1 ++ words⟩ := by
  obtain ⟨found, hcourse⟩ := (c.fsInfos Service.transport).exists_amid_run st
  exact .list hcourse

/-- A lookup that runs by itself is a write. -/
theorem Writes.get_run {words : List Word} (fs : FsId) :
    Writes c ⟨st, words⟩ ⟨((c.fsInfo Service.transport fs).run st).2,
      wordOnOne fs (st.cache.get? fs) ((c.fsInfo Service.transport fs).run st).1 ++ words⟩ := by
  obtain ⟨found, hcourse⟩ := (c.fsInfo Service.transport fs).exists_amid_run st
  exact .get fs hcourse

end Client

/-! Everything is listed, a generation begins, and the filesystem is dropped and asked for again. -/

def ClientState.listed : ClientState Service Link :=
  ((Client.sample.fsInfos Service.transport).run (.fresh .sample)).2

def ClientState.outdated : ClientState Service Link :=
  { listed with wire := listed.wire.reaching (listed.service.bumpEpoch 1) }

def ClientState.dropped : ClientState Service Link :=
  { outdated with cache := outdated.cache.drop 1 }

def ClientState.renewed : ClientState Service Link :=
  ((Client.sample.fsInfo Service.transport 1).run dropped).2

namespace Client

/-- A listing, a removal of one entry and a lookup at a newer generation. -/
theorem coherent_of_writes_sample :
    Relation.ReflTransGen (Writes .sample) ⟨.fresh .sample, []⟩
      ⟨.renewed, [.told 1 ⟨1, "fs1", ⟨2⟩⟩, .dropped 1, .listed [⟨1, "fs1", ⟨1⟩⟩]]⟩ ∧
    Coherent .sample .renewed
      [.told 1 ⟨1, "fs1", ⟨2⟩⟩, .dropped 1, .listed [⟨1, "fs1", ⟨1⟩⟩]] := by
  have hbuilt : ClientSpec.build ⟨.standard, some ⟨[[.sample], [.sample]]⟩, [.sample]⟩ =
      .ok .sample := rfl
  have hlist : Writes .sample ⟨.fresh .sample, []⟩ ⟨.listed, [.listed [⟨1, "fs1", ⟨1⟩⟩]]⟩ :=
    .list_run
  have hbump : Writes .sample ⟨.listed, [.listed [⟨1, "fs1", ⟨1⟩⟩]]⟩
      ⟨.outdated, [.listed [⟨1, "fs1", ⟨1⟩⟩]]⟩ := .turn ⟨_, .bump 1, rfl⟩
  have hdrop : Writes .sample ⟨.outdated, [.listed [⟨1, "fs1", ⟨1⟩⟩]]⟩
      ⟨.dropped, [.dropped 1, .listed [⟨1, "fs1", ⟨1⟩⟩]]⟩ := .invalidate 1
  have hget : Writes .sample ⟨.dropped, [.dropped 1, .listed [⟨1, "fs1", ⟨1⟩⟩]]⟩
      ⟨.renewed, [.told 1 ⟨1, "fs1", ⟨2⟩⟩, .dropped 1, .listed [⟨1, "fs1", ⟨1⟩⟩]]⟩ := by
    have hmissing : ClientState.dropped.cache.get? 1 = none := by decide +kernel
    have hanswer : ((Client.sample.fsInfo Service.transport 1).run .dropped).1 =
        .ok ⟨1, "fs1", ⟨2⟩⟩ := by decide +kernel
    have hrun : Writes .sample ⟨.dropped, [.dropped 1, .listed [⟨1, "fs1", ⟨1⟩⟩]]⟩
        ⟨.renewed, wordOnOne 1 (ClientState.dropped.cache.get? 1)
          ((Client.sample.fsInfo Service.transport 1).run .dropped).1 ++
            [.dropped 1, .listed [⟨1, "fs1", ⟨1⟩⟩]]⟩ := .get_run 1
    rwa [hmissing, hanswer] at hrun
  have hwrites := (((Relation.ReflTransGen.single hlist).tail hbump).tail hdrop).tail hget
  exact ⟨hwrites, coherent_of_writes hbuilt hwrites⟩

end Client

end ShardSweep
