import SliceFs.StoreLifetime
import SliceFs.XattrMap

/-!
# Mount sessions as transactions

A session opens the store, serves requests and ends: it is unmounted, or killed at some
point. Requests log nothing, not even an `fsync`, and only the unmount commits. So a session
takes effect as a whole or not at all: the store that the next one opens has the state of
the last session that was unmounted, and nothing of those that were killed.
-/
namespace SliceFs
open TreeMaps ProgramLogic SegmentEntry

section
variable {B : Blockset}

/-- What a session must have kept for its commit to be loaded again: the inode of the root
directory, and in a build with overflow checks sizes that can be added. -/
structure Fs.Complete (overflowChecks : Bool) (s : Fs B) : Prop where
  root : 1 ∈ s.store.maps.inodeData
  size : overflowChecks = true → totalSize s.store.io s.store.maps < 2 ^ 64

variable (L : B.Laws) (overflowChecks : Bool)

/-- What is on disk when the session is killed in its unmount, after `s` of its states: what
was synced before is there, with any part of what was written since. -/
inductive Stopped (d : Disk B) (s₀ s : Store B) : Disk B → Prop where
  | mk {wal wal' : Wal} {w w' : SegmentWriter} {k : ℕ} {io : B.Io} : s₀.log.wal = some wal →
      wal.writer? = some w → s.log.wal = some wal' → wal'.writer? = some w' → w.synced ≤ k →
      L.le s.io io →
      Stopped d s₀ s { d with io := io, segments := d.segments.insert w'.name (w'.written.take k) }

/-- Killed in the unmount: while the commit is logged, or while the snapshot that may follow
it is. -/
inductive Unmounting (d : Disk B) (s : Fs B) : Disk B → Prop where
  | commit {root : Digest224} {st : Store B} {d' : Disk B} :
      commit s.store = ((.ok root, st) : Except (Fault MetaError) Digest224 × _) →
      Stopped L d s.store st d' → Unmounting d s d'
  | snapshot {now : Now} {s' : Fs B} {d' : Disk B} : testDestroy now s = (.ok true, s') →
      Stopped L d s.store s'.store d' → Unmounting d s d'

/-- The store on this disk opens with these maps. -/
def Opens (d : Disk B) (m : StoreMaps) : Prop :=
  ∃ (config : WalConfig) (s : Store B) (d' : Disk B),
    openStore overflowChecks config d = (.ok s, d') ∧ s.maps.persistent = m

/-- The ends of a session that has served requests up to `s`, with the state that the disk
has then: `m` is the one it had before. -/
inductive Ends (d : Disk B) (m : StoreMaps) (s : Fs B) : Disk B → StoreMaps → Prop where
  | killed {d' : Disk B} : Stopped L d s.store s.store d' → Ends d m s d' m
  | unmounted {now : Now} {s' : Fs B} {d' : Disk B} : s.Complete overflowChecks →
      testDestroy now s = (.ok true, s') → Stopped L d s'.store s'.store d' →
      Ends d m s d' s.store.maps.persistent
  | unmounting {d' : Disk B} {m' : StoreMaps} : s.Complete overflowChecks → Unmounting L d s d' →
      m' = m ∨ m' = s.store.maps.persistent → Opens overflowChecks d' m' → Ends d m s d' m'

/-- The sessions on a store that was seeded from a tree of some class, with requests of some
class, of which none panics. -/
inductive Mounts (seeds : SeedTree → Prop) (requests : Fs B → FsOp → Prop) :
    Disk B → StoreMaps → Prop where
  | seeded {d d₁ d₂ : Disk B} {source : SourceMeta} {tree : SeedTree} {root : Digest224}
      {config : WalConfig} {st : Store B} : seeds tree → d.segments = ∅ →
      runSeed source tree d = (.ok root, d₁) → config ≠ .noWal →
      openStore overflowChecks config d₁ = (.ok st, d₂) →
      Mounts seeds requests d₁ st.maps.persistent
  | session {d d₁ d' : Disk B} {m m' : StoreMaps} {config : WalConfig} {auto : Bool} {st : Store B}
      {s : Fs B} : Mounts seeds requests d m → config ≠ .noWal →
      nextSegmentId d.segments < 10 ^ 6 → openStore overflowChecks config d = (.ok st, d₁) →
      Runs requests (Fs.mount st auto) s → Ends L overflowChecks d m s d' m' →
      Mounts seeds requests d' m'

variable {L overflowChecks} {d d' : Disk B} {s s' : Fs B} {j : StoreJournal}
  {old es held : List StoreRecord} {seeds : SeedTree → Prop} {requests : Fs B → FsOp → Prop}

theorem recorded_of_serves (hB : L.Reliable) (h : Runs requests s s') (hs : L.Recorded s.store) :
    L.Recorded s'.store := by
  have := recorded_tree (L := L) hB
  induction h with
  | refl => exact hs
  | step _ _ hrun ih =>
      exact (FsOp.grows (g := L.growthRecorded) (fun _ _ _ => inferInstance) hrun).2 ih

/-- A session that logged nothing before has logged nothing after its requests. -/
theorem Blockset.Laws.Tracks.serves (h : L.Tracks overflowChecks d s.store j old [] [])
    (hserves : Runs requests s s') (hc : L.NoCollision s'.store.io) :
    L.Tracks overflowChecks d { s'.store with maps := s.store.maps } j old [] [] := by
  obtain ⟨hle, hlog⟩ := hserves.le L
  obtain ⟨es', held', hall, -, htracks⟩ := (h.grow hle hc).flushed hlog
  obtain ⟨rfl, rfl⟩ := List.append_eq_nil_iff.mp hall
  exact htracks

/-- The state that the unmount will commit. -/
theorem Blockset.Laws.Tracks.served (hB : L.Reliable)
    (h : L.Tracks overflowChecks d s.store j old [] []) (hserves : Runs requests s s')
    (hc : L.NoCollision s'.store.io) (hcomplete : s'.Complete overflowChecks) :
    L.Tracks overflowChecks d s'.store { j with current := s'.store.maps.persistent } old [] [] :=
  (h.serves hserves hc).edit (recorded_of_serves hB hserves h.recorded) hcomplete.root
  hcomplete.size

theorem maps_commit {ε : Type} (st : Store B) :
    ((commit : Prog (Store B) ε Digest224) st).2.maps = st.maps := by
  have hio : ∀ {α : Type} (m : Prog B.Io ε α), Growing (Growth.fixed Store.maps) (onIo m) :=
    fun m => ⟨fun _ => rfl⟩
  have hlog : ∀ f, Growing (Growth.fixed Store.maps) (modifyLog f : Prog (Store B) ε Unit) :=
    fun f => ⟨fun _ => rfl⟩
  have h : Growing (Growth.fixed Store.maps) (commit : Prog (Store B) ε Digest224) := by
    unfold commit logWalEntry
    infer_instance
  exact h.le_run st

/-- A failed snapshot leaves at most blobs behind. -/
theorem createSnapshot_failed {name : Option Str} {now : Now} {st st' : Store B} {e : MetaError}
    (h : createSnapshot name now st =
      ((.error (.err e), st') : Except (Fault MetaError) SnapshotEntry × _)) :
    L.le st.io st'.io ∧ st' = { st with io := st'.io } := by
  have hle : L.le st.io st'.io := by
    have hgrows : Growing L.growthStore (createSnapshot name now : StoreM B SnapshotEntry) :=
      inferInstance
    have hrun := hgrows.le_run st
    rwa [h] at hrun
  rcases commit_cases (ε := MetaError) st with ⟨f, st₁, hcommit, hlog⟩ | ⟨r, st₁, hcommit, hlog⟩
  · rw [createSnapshot, Prog.bind_error hcommit] at h
    obtain ⟨-, rfl⟩ := Prod.mk.inj h
    have hmaps := maps_commit (ε := MetaError) st
    rw [hcommit] at hmaps
    exact ⟨hle, by rw [← hlog, ← hmaps]⟩
  · rw [createSnapshot_eq hcommit hlog] at h
    split_ifs at h <;> cases (Prod.mk.inj h).1

/-- A snapshot records the state once more, unless it fails. -/
theorem Blockset.Laws.Tracks.attemptSnapshot (hB : L.Reliable) {st st' : Store B}
    (h : L.Tracks overflowChecks d st j old es held) {name : Str} {now : Now}
    (hname : name.bytes ≠ [] ∧ name.bytes.length < nameBound) {r : Except MetaError SnapshotEntry}
    (hrun : createSnapshot (some name) now st = (r.mapError Fault.err, st'))
    (hc : L.NoCollision st'.io) :
    ∃ new es' held', (∀ r ∈ new, r.state = j.current) ∧ es <+: es' ∧
      L.Tracks overflowChecks d st' { j with records := j.records ++ new } old es' held' := by
  cases r with
  | error e =>
      obtain ⟨hle, hst⟩ := createSnapshot_failed (L := L) hrun
      have hgrown := h.grow hle hc
      rw [← hst] at hgrown
      exact ⟨[], es, held, by simp, List.prefix_rfl, by rwa [List.append_nil]⟩
  | ok e =>
      obtain ⟨st₁, hcommit, -, hmax, he, rfl⟩ := createSnapshot_eq_ok hrun
      have hversion : e.version = nextVersion st.log + 1 := by rw [he]
      have hsettled : (snapshotRecord e).Settled := by
        rw [he]
        exact settled_snapshotRecord _ _ _ fun n hn => Option.some.inj hn ▸ hname
      obtain ⟨es', held', hpre, htracks⟩ := h.snapshot hB hcommit hmax hversion hsettled hc
      rw [List.append_assoc] at htracks
      exact ⟨_, es', held', by simp [Journal.Record.state], hpre, htracks⟩

theorem Blockset.Laws.Tracks.unmountSnapshot (hB : L.Reliable)
    (h : L.Tracks overflowChecks d s.store j old es held) {now : Now}
    (hrun : SliceFs.unmountSnapshot now s = (.ok (), s')) (hc : L.NoCollision s'.store.io) :
    ∃ new es' held', (∀ r ∈ new, r.state = j.current) ∧ es <+: es' ∧
      L.Tracks overflowChecks d s'.store { j with records := j.records ++ new } old es' held' := by
  unfold SliceFs.unmountSnapshot at hrun
  obtain ⟨auto, s₁, hauto, hrun⟩ := Prog.bind_eq_ok hrun
  obtain ⟨-, rfl⟩ := Prod.mk.inj hauto
  split_ifs at hrun with hask
  · obtain ⟨r, s₂, hsnapshot, hrun⟩ := Prog.bind_eq_ok hrun
    obtain ⟨rfl, hresult⟩ := attempt_onStore_eq_ok hsnapshot
    obtain ⟨-, rfl⟩ := Prod.mk.inj hrun
    exact h.attemptSnapshot hB (by decide) (Prod.ext hresult rfl) hc
  · obtain ⟨-, rfl⟩ := Prod.mk.inj hrun
    exact ⟨[], es, held, by simp, List.prefix_rfl, by rwa [List.append_nil]⟩

/-- Shutting the log down writes what it held back. -/
theorem Blockset.Laws.Tracks.shutdownWal {st : Store B}
    (h : L.Tracks overflowChecks d st j old es held) :
    L.Tracks overflowChecks d (SliceFs.shutdownWal st).2 j old (es ++ held) [] := by
  obtain ⟨wal, hwal, hlogs⟩ := h.logs
  have hst : (SliceFs.shutdownWal st).2 =
      { st with log := { st.log with wal := some (Wal.flushAndSync wal).2 } } := by
    simp only [SliceFs.shutdownWal, onWal, hwal]
    rfl
  rw [hst]
  exact
    { h with
      recorded := h.recorded.congr rfl rfl rfl
      table := ⟨h.table.version, h.table.name⟩
      logs := ⟨_, rfl, hlogs.segments, hlogs.room, by simpa using hlogs.steady.flushAndSync⟩
      records := by rw [List.append_nil, h.records]
      durable := h.durable.trans (by simp) }

/-- An unmount that returns true has its commit and the snapshot on disk. -/
theorem Blockset.Laws.Tracks.testDestroy (hB : L.Reliable)
    (h : L.Tracks overflowChecks d s.store j old [] []) {now : Now}
    (hrun : SliceFs.testDestroy now s = (.ok true, s')) (hc : L.NoCollision s'.store.io) :
    ∃ new, (∀ r ∈ new, r.state = j.current) ∧
      L.Tracks overflowChecks d s'.store { j with records := j.records ++ .commit j.current :: new }
        old
        (.commit j.current :: new) [] := by
  unfold SliceFs.testDestroy at hrun
  obtain ⟨committed, s₁, hcommit, hrun⟩ := Prog.bind_eq_ok hrun
  obtain ⟨rfl, hresult⟩ := attempt_onStore_eq_ok hcommit
  cases committed with
  | error e => cases (Prod.mk.inj hrun).1
  | ok root =>
      obtain ⟨_, s₂, hsnapshot, hrun⟩ := Prog.bind_eq_ok hrun
      obtain ⟨_, s₃, hshutdown, hrun⟩ := Prog.bind_eq_ok hrun
      obtain ⟨rfl, -⟩ := attempt_onStore_eq_ok hshutdown
      obtain ⟨-, rfl⟩ := Prod.mk.inj hrun
      have hshut : (SliceFs.shutdownWal s₂.store).2.io = s₂.store.io := by
        simp only [SliceFs.shutdownWal, onWal]
        split <;> rfl
      have hc₂ : L.NoCollision s₂.store.io := hshut ▸ hc
      have hgrows : Growing (L.growthStore.comap Fs.store)
          (SliceFs.unmountSnapshot now : FsM B Unit) := by
        unfold SliceFs.unmountSnapshot
        infer_instance
      have hle : L.le (SliceFs.commit (ε := MetaError) s.store).2.io s₂.store.io := by
        have hrun := hgrows.le_run { s with store := (SliceFs.commit (ε := MetaError) s.store).2 }
        rwa [hsnapshot] at hrun
      obtain ⟨-, -, es₁, held₁, -, h₁⟩ := h.commit hB (Prod.ext hresult rfl) (hc₂.of_le hle)
      obtain ⟨new, es₂, held₂, hnew, -, h₂⟩ := h₁.unmountSnapshot hB hsnapshot hc₂
      have h₃ := h₂.shutdownWal
      have hall : es₂ ++ held₂ = .commit j.current :: new := by
        have hrecords := h₂.records
        rw [h.records] at hrecords
        simpa using hrecords.symm
      rw [hall] at h₃
      simp only [List.append_assoc, List.singleton_append] at h₃
      exact ⟨new, hnew, h₃⟩

/-- What is left of the last records of a session: it took effect or it did not. -/
theorem committed_append_cases {c m : StoreMaps} {new p : List StoreRecord}
    (hnew : ∀ r ∈ new, r.state = c) (hp : p <+: .commit c :: new)
    (hm : Journal.committed old = some m) :
    ∃ m', Journal.committed (old ++ p) = some m' ∧ (m' = m ∨ m' = c) := by
  rw [Journal.committed_append, hm]
  cases p with
  | nil => exact ⟨m, rfl, .inl rfl⟩
  | cons r p =>
      obtain ⟨rfl, htail⟩ := List.cons_prefix_cons.mp hp
      rw [Journal.committed_commit_cons fun r hr => hnew r (htail.subset hr)]
      exact ⟨c, rfl, .inr rfl⟩

theorem Stopped.rests {s₀ s : Store B} {j' : StoreJournal} {new held' : List StoreRecord}
    (hstopped : Stopped L d s₀ s d') (h : L.Tracks overflowChecks d s₀ j old es held)
    (h' : L.Tracks overflowChecks d s j' old (es ++ new) held') (hc : L.NoCollision d'.io) :
    ∃ p, p <+: new ∧ L.Rests overflowChecks d' (old ++ (es ++ p)) := by
  obtain ⟨hwal, hw, hwal', hw', hk, hle⟩ := hstopped
  exact h.cut h' hwal hw hwal' hw' hk hle hc

theorem Stopped.le {s₀ s : Store B} (hstopped : Stopped L d s₀ s d') : L.le s.io d'.io := by
  obtain ⟨-, -, -, -, -, hle⟩ := hstopped
  exact hle

/-- A session that is killed while nothing was logged leaves the records as they were. -/
theorem Stopped.rests_quiet {s : Store B} (hstopped : Stopped L d s s d')
    (h : L.Tracks overflowChecks d s j old es []) (hc : L.NoCollision d'.io) :
    L.Rests overflowChecks d' (old ++ es) := by
  have h' : L.Tracks overflowChecks d s j old (es ++ []) [] := by rwa [List.append_nil]
  obtain ⟨p, hp, hrests⟩ := hstopped.rests h h' hc
  obtain rfl := List.prefix_nil.mp hp
  rwa [List.append_nil] at hrests

theorem Unmounting.rests (hB : L.Reliable) (hun : Unmounting L d s d')
    (h : L.Tracks overflowChecks d s.store j old [] []) (hc : L.NoCollision d'.io) :
    ∃ new p, (∀ r ∈ new, r.state = j.current) ∧ p <+: .commit j.current :: new ∧
      L.Rests overflowChecks d' (old ++ p) := by
  cases hun with
  | commit hcommit hstopped =>
      obtain ⟨-, -, es₁, held₁, -, h₁⟩ := h.commit hB hcommit (hc.of_le hstopped.le)
      have hall : es₁ ++ held₁ = [.commit j.current] := by
        have hrecords := h₁.records
        rw [h.records] at hrecords
        simpa using hrecords.symm
      obtain ⟨p, hp, hrests⟩ := hstopped.rests h h₁ hc
      exact ⟨[], p, by simp, hall ▸ hp.trans (List.prefix_append _ _), hrests⟩
  | snapshot hrun hstopped =>
      obtain ⟨new, hnew, h₁⟩ := h.testDestroy hB hrun (hc.of_le hstopped.le)
      obtain ⟨p, hp, hrests⟩ := hstopped.rests h h₁ hc
      exact ⟨new, p, hnew, hp, hrests⟩

theorem testDestroy_le {now : Now} {r : Except (Fault Errno) Bool}
    (hrun : testDestroy now s = (r, s')) : L.le s.store.io s'.store.io := by
  have hshut : Growing L.growthStore (shutdownWal : Prog (Store B) WalError Unit) := by
    constructor
    intro st
    unfold shutdownWal onWal
    split <;> exact L.le_refl _
  have hsnapshot : Growing (L.growthStore.comap Fs.store) (unmountSnapshot now : FsM B Unit) := by
    unfold unmountSnapshot
    infer_instance
  have hgrows : Growing (L.growthStore.comap Fs.store) (testDestroy now : FsM B Bool) := by
    unfold testDestroy
    refine @growing_bind _ _ _ _ _ _ _ inferInstance fun committed => ?_
    cases committed <;> infer_instance
  have hle := hgrows.le_run s
  rwa [hrun] at hle

theorem Unmounting.le (hB : L.Reliable) (hun : Unmounting L d s d') : L.le s.store.io d'.io := by
  cases hun with
  | commit hcommit hstopped => exact L.le_trans (commit_spec L hB hcommit).2.2.2.1 hstopped.le
  | snapshot hrun hstopped => exact L.le_trans (testDestroy_le hrun) hstopped.le

theorem Ends.le (hB : L.Reliable) {m m' : StoreMaps} (hends : Ends L overflowChecks d m s d' m') :
    L.le s.store.io d'.io := by
  cases hends with
  | killed hstopped => exact hstopped.le
  | unmounted _ hrun hstopped => exact L.le_trans (testDestroy_le hrun) hstopped.le
  | unmounting _ hun _ _ => exact hun.le hB

/-- The records after one more session. -/
theorem Ends.rests (hB : L.Reliable) {m m' : StoreMaps} {rs : List StoreRecord} {s₀ : Fs B}
    (hends : Ends L overflowChecks d m s d' m') (hm : Journal.committed rs = some m)
    (hserves : Runs requests s₀ s) (h : L.Tracks overflowChecks d s₀.store j rs [] [])
    (hc : L.NoCollision d'.io) :
    ∃ rs', L.Rests overflowChecks d' rs' ∧ Journal.committed rs' = some m' := by
  have hcs := hc.of_le (hends.le hB)
  cases hends with
  | killed hstopped =>
      obtain ⟨hwal, hw, hwal', hw', hk, hle⟩ := hstopped
      have hstopped : Stopped L d { s.store with maps := s₀.store.maps }
        { s.store with maps := s₀.store.maps } _ := ⟨hwal, hw, hwal', hw', hk, hle⟩
      have hrests := hstopped.rests_quiet (h.serves hserves hcs) hc
      rw [List.append_nil] at hrests
      exact ⟨rs, hrests, hm⟩
  | unmounted hcomplete hrun hstopped =>
      obtain ⟨new, hnew, h₁⟩ := (h.served hB hserves hcs hcomplete).testDestroy hB hrun
        (hc.of_le hstopped.le)
      refine ⟨_, hstopped.rests_quiet h₁ hc, ?_⟩
      rw [Journal.committed_append, Journal.committed_commit_cons hnew]
      rfl
  | unmounting hcomplete hun hcases hopens =>
      obtain ⟨new, p, hnew, hp, hrests⟩ := hun.rests hB (h.served hB hserves hcs hcomplete) hc
      obtain ⟨m'', hm'', -⟩ := committed_append_cases hnew hp hm
      obtain ⟨config, st, d'', hopen, rfl⟩ := hopens
      have hst := Except.ok.inj (Prod.mk.inj
        (hopen.symm.trans (hrests.openStore_eq hm'' hc config))).1
      refine ⟨_, hrests, hm''.trans ?_⟩
      rw [hst]
      exact congrArg some (hrests.saved.bare _ (Journal.mem_of_committed hm'')).symm

/-- Loading only reads the backend, and the store goes on with it. -/
theorem le_of_openStore {config : WalConfig} {st : Store B}
    (h : openStore overflowChecks config d = (.ok st, d')) : L.le d.io st.io := by
  obtain ⟨root, snaps, s₀, io, -, hload, -, rfl⟩ := openStore_eq_ok h
  have hle := (growing_loadFromRoot L overflowChecks root).le_run d.io
  rw [hload] at hle
  have hio : s₀.io = io := by
    unfold loadFromRoot at hload
    iterate 11 obtain ⟨_, _, -, hload⟩ := Prog.bind_eq_ok hload
    obtain ⟨hs, rfl⟩ := Prod.mk.inj hload
    exact congrArg Store.io (Except.ok.inj hs).symm
  exact hio ▸ hle

/-- Between sessions the disk holds the journal, and its last committed state is the one the
sessions have led to. -/
theorem Mounts.rests (hB : L.Reliable) {m : StoreMaps}
    (h : Mounts L overflowChecks seeds requests d m) (hc : L.NoCollision d.io) :
    ∃ rs, L.Rests overflowChecks d rs ∧ Journal.committed rs = some m := by
  induction h with
  | seeded _ hempty hseed hconfig hopen => exact ⟨_, rests_seeded hB hseed hempty hc hopen, rfl⟩
  | @session d d₁ d' m m' config auto st s _ hconfig hn hopen hserves hends ih =>
      have hcd : L.NoCollision d.io :=
        hc.of_le (L.le_trans (le_of_openStore hopen) (L.le_trans (hserves.le L).1 (hends.le hB)))
      obtain ⟨rs, hrests, hm⟩ := ih hcd
      have hst := Except.ok.inj (Prod.mk.inj
        (hopen.symm.trans (hrests.openStore_eq hm hcd config))).1
      have htracks := hrests.tracks hm hconfig hn
      rw [← hst] at htracks
      exact hends.rests hB hm hserves htracks hc

theorem Mounts.maps_eq (hB : L.Reliable) {m : StoreMaps}
    (h : Mounts L overflowChecks seeds requests d m) (hc : L.NoCollision d.io) {config : WalConfig}
    {st : Store B} (hopen : openStore overflowChecks config d = (.ok st, d')) :
    st.maps.persistent = m.persistent := by
  obtain ⟨rs, hrests, hm⟩ := h.rests hB hc
  rw [Except.ok.inj (Prod.mk.inj (hopen.symm.trans (hrests.openStore_eq hm hc config))).1]
  rfl

/-- Whatever sessions a store has been through, it opens with the state of the last one that
was unmounted, and one that is killed in its unmount has taken effect as a whole or not at
all. -/
theorem sessions_atomic (hB : B.NoIoErrors) {m : StoreMaps}
    (h : Mounts L overflowChecks seeds requests d m) (hc : L.NoCollision d.io) {config : WalConfig}
    (hconfig : config ≠ .noWal) (hn : nextSegmentId d.segments < 10 ^ 6) :
    ∃ st, openStore overflowChecks config d = (.ok st, d) ∧ st.maps.persistent = m ∧
      ∀ (auto : Bool) (s : Fs B) (d' : Disk B), Runs requests (Fs.mount st auto) s →
        s.Complete overflowChecks → Unmounting L d s d' → L.NoCollision d'.io →
        ∃ m', (m' = m ∨ m' = s.store.maps.persistent) ∧
          Mounts L overflowChecks seeds requests d' m' := by
  have hB := hB.reliable L
  obtain ⟨rs, hrests, hm⟩ := h.rests hB hc
  have hopen := hrests.openStore_eq hm hc config
  have htracks := hrests.tracks hm hconfig hn
  refine ⟨_, hopen, htracks.current.symm, ?_⟩
  intro auto s d' hserves hcomplete hun hc'
  obtain ⟨new, p, hnew, hp, hrests'⟩ :=
    hun.rests hB (htracks.served (s := Fs.mount _ auto) hB hserves
      (hc'.of_le (hun.le hB)) hcomplete) hc'
  obtain ⟨m', hm', hcases⟩ := committed_append_cases hnew hp hm
  have hopens : Opens overflowChecks d' m' :=
    ⟨config, _, _, hrests'.openStore_eq hm' hc' config,
      hrests'.saved.bare _ (Journal.mem_of_committed hm')⟩
  exact ⟨m', hcases, h.session hconfig hn hopen hserves (.unmounting hcomplete hun hcases hopens)⟩

end

section Runs

/-- A session that makes a file and is unmounted. -/
def madeFs : Fs memoryBlockset :=
  ((FsOp.create 1 .a 0o644 0 0 0).run (Fs.mount openedStore false)).get (by decide +kernel)

def unmountedFs : Fs memoryBlockset := (testDestroy midnight madeFs).2

def unmountedWriter : SegmentWriter :=
  (unmountedFs.store.log.wal.bind Wal.writer?).get (by decide +kernel)

def unmountedDisk : Disk memoryBlockset :=
  { seededDisk with
    io := unmountedFs.store.io
    segments := seededDisk.segments.insert unmountedWriter.name
      (unmountedWriter.written.take unmountedWriter.synced) }

/-- The next session removes the file and is killed. -/
def reopenedStore : Store memoryBlockset :=
  (openStore true .perOp unmountedDisk).1.toOption.get (by decide +kernel)

def unlinkedFs : Fs memoryBlockset :=
  ((FsOp.unlink 1 .a).run (Fs.mount reopenedStore false)).get (by decide +kernel)

def removedWriter : SegmentWriter :=
  (unlinkedFs.store.log.wal.bind Wal.writer?).get (by decide +kernel)

def killedDisk : Disk memoryBlockset :=
  { unmountedDisk with
    io := unlinkedFs.store.io
    segments := unmountedDisk.segments.insert removedWriter.name
      (removedWriter.written.take removedWriter.synced) }

theorem facts_killedDisk :
    (testDestroy midnight madeFs).1.toOption = some true ∧
      1 ∈ madeFs.store.maps.inodeData ∧ totalSize madeFs.store.io madeFs.store.maps < 2 ^ 64 ∧
      unmountedFs.store.log.wal = some (.perOp unmountedWriter) ∧
      unlinkedFs.store.log.wal = some (.perOp removedWriter) ∧
      (∀ d ∈ [seededDisk, unmountedDisk, killedDisk], nextSegmentId d.segments < 10 ^ 6) ∧
      (killedDisk.io.blobs.map Prod.fst).Nodup := by
  decide +kernel

theorem mounts_unmountedDisk {seeds : SeedTree → Prop} {requests : Fs memoryBlockset → FsOp → Prop}
    (hdone : seeds .done)
    (hcreate : requests (Fs.mount openedStore false) (.create 1 .a 0o644 0 0 0)) :
    Mounts memoryLaws true seeds requests unmountedDisk madeFs.store.maps.persistent := by
  obtain ⟨root, hseed⟩ := seeds_seededDisk
  obtain ⟨htrue, hroot, hsize, hwal, -, hn, -⟩ := facts_killedDisk
  have hdestroy : testDestroy midnight madeFs = (.ok true, unmountedFs) :=
    Prog.eq_ok_of_toOption htrue
  have hserves : Runs requests (Fs.mount openedStore false) madeFs :=
    (Runs.refl _).step hcreate (Option.some_get _).symm
  have hstopped : Stopped memoryLaws seededDisk unmountedFs.store unmountedFs.store unmountedDisk :=
    ⟨hwal, rfl, hwal, rfl, le_rfl, memoryLaws.le_refl _⟩
  have hseeded : Mounts memoryLaws true seeds requests seededDisk openedStore.maps.persistent :=
    .seeded hdone rfl hseed (by decide) opens_openedStore
  exact hseeded.session (by decide) (hn _ List.mem_cons_self) opens_openedStore hserves
    (.unmounted ⟨hroot, fun _ => hsize⟩ hdestroy hstopped)

theorem sessions_atomic_killedDisk : ∃ st, openStore true .perOp killedDisk = (.ok st, killedDisk) ∧
    st.maps.persistent = madeFs.store.maps.persistent := by
  obtain ⟨-, -, -, -, hwal, hn, hc⟩ := facts_killedDisk
  have hopen : openStore true .perOp unmountedDisk = (.ok reopenedStore, _) :=
    Prog.eq_ok_of_isSome _
  have hserves : Runs (fun _ _ => True) (Fs.mount reopenedStore false) unlinkedFs :=
    (Runs.refl _).step trivial (Option.some_get _).symm
  have hstopped : Stopped memoryLaws unmountedDisk unlinkedFs.store unlinkedFs.store killedDisk :=
    ⟨hwal, rfl, hwal, rfl, le_rfl, memoryLaws.le_refl _⟩
  have hmounts : Mounts memoryLaws true (fun _ => True) (fun _ _ => True) unmountedDisk
      madeFs.store.maps.persistent := mounts_unmountedDisk trivial trivial
  have hkilled : Mounts memoryLaws true (fun _ => True) (fun _ _ => True) killedDisk
      madeFs.store.maps.persistent :=
    hmounts.session (by decide) (hn unmountedDisk (by simp)) hopen hserves (.killed hstopped)
  have hperOp : WalConfig.perOp ≠ .noWal := by decide
  obtain ⟨st, hst, hmaps, -⟩ := sessions_atomic memoryBlockset_noIoErrors hkilled
    (memoryLaws_noCollision hc) hperOp (hn killedDisk (by simp))
  exact ⟨st, hst, hmaps⟩

end Runs

end SliceFs
