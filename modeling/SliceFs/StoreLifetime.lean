import SliceFs.Journal
import SliceFs.StoreRecords
import SliceFs.CrashLog

/-!
# The lifetime of a store

A store lives through sessions that end cleanly or by a crash, at any point of an
operation and with any part of what was not yet synced lost. It behaves as a journal of
its states: a commit and a snapshot record the state of the maps, and opening the store
again goes on from the last state recorded in what is left. The counters are not part of
that state, since no root record holds them.
-/
namespace SliceFs
open TreeMaps ProgramLogic SegmentEntry

/-- The part of the maps that a root record keeps. -/
def StoreMaps.persistent (m : StoreMaps) : StoreMaps :=
  { m with logicalBytes := 0, inodeCount := 0 }

@[simp] theorem StoreMaps.persistent_persistent (m : StoreMaps) :
    m.persistent.persistent = m.persistent :=
  rfl

abbrev StoreRecord := Journal.Record SnapshotEntry StoreMaps
abbrev StoreJournal := Journal.State SnapshotEntry StoreMaps

section
variable {B : Blockset} (L : B.Laws)

/-- The root under which these maps are committed. -/
def Blockset.Laws.rootOf (m : StoreMaps) : Digest224 := L.digest (L.rootRecord m).toBytes

/-- The entry of the log that stands for a record. -/
def Blockset.Laws.logEntry : StoreRecord → SegmentEntry
  | .commit m => .rootUpdate (L.rootOf m)
  | .label e _ => .snapshotRecord e

theorem snapshotsOf_map_logEntry (rs : List StoreRecord) :
    snapshotsOf (rs.map L.logEntry) = (Journal.archive rs).map Prod.fst := by
  rw [snapshotsOf, Journal.archive, List.filterMap_map, List.map_filterMap]
  congr 1
  funext r
  cases r <;> rfl

theorem lastRoot_map_logEntry (rs : List StoreRecord) :
    lastRoot (rs.map L.logEntry) = (Journal.committed rs).map L.rootOf := by
  rw [lastRoot, Journal.committed, List.filterMap_map, ← List.getLast?_map, List.map_filterMap]
  congr 2
  funext r
  cases r <;> rfl

/-- The states of these records can be loaded from the backend. -/
structure Blockset.Laws.Saved (overflowChecks : Bool) (io : B.Io) (rs : List StoreRecord) :
    Prop where
  committed : ∀ r ∈ rs, Committed L overflowChecks io r.state (L.rootOf r.state)
  recorded : ∀ r ∈ rs, L.Recorded ⟨io, r.state, .empty⟩
  bare : ∀ r ∈ rs, r.state.persistent = r.state
  settled : ∀ r ∈ rs, (L.logEntry r).Settled
  roots : ∀ e ∈ Journal.archive rs, e.1.root = L.rootOf e.2

variable {L} {overflowChecks : Bool} {io : B.Io} {rs : List StoreRecord}

namespace Blockset.Laws.Saved

theorem mono (h : L.Saved overflowChecks io rs) {io' : B.Io} (hle : L.le io io')
    (hc : L.NoCollision io') : L.Saved overflowChecks io' rs where
  committed r hr := (h.committed r hr).mono hle hc
  recorded r hr := (h.recorded r hr).grow hle
  bare := h.bare
  settled := h.settled
  roots := h.roots

theorem of_prefix (h : L.Saved overflowChecks io rs) {p : List StoreRecord} (hp : p <+: rs) :
    L.Saved overflowChecks io p where
  committed r hr := h.committed r (hp.subset hr)
  recorded r hr := h.recorded r (hp.subset hr)
  bare r hr := h.bare r (hp.subset hr)
  settled r hr := h.settled r (hp.subset hr)
  roots e he := h.roots e ((Journal.archive_mono hp).subset he)

/-- One more record of a state that can be loaded. -/
theorem append (h : L.Saved overflowChecks io rs) {r : StoreRecord}
    (hr : L.Saved overflowChecks io [r]) : L.Saved overflowChecks io (rs ++ [r]) where
  committed := List.forall_mem_append.mpr ⟨h.committed, hr.committed⟩
  recorded := List.forall_mem_append.mpr ⟨h.recorded, hr.recorded⟩
  bare := List.forall_mem_append.mpr ⟨h.bare, hr.bare⟩
  settled := List.forall_mem_append.mpr ⟨h.settled, hr.settled⟩
  roots := by
    rw [Journal.archive_append]
    exact List.forall_mem_append.mpr ⟨h.roots, hr.roots⟩

theorem of_commit {m : StoreMaps} (hm : Committed L overflowChecks io m (L.rootOf m))
    (hrec : L.Recorded ⟨io, m, .empty⟩) (hbare : m.persistent = m) :
    L.Saved overflowChecks io [.commit m] where
  committed := List.forall_mem_singleton.mpr hm
  recorded := List.forall_mem_singleton.mpr hrec
  bare := List.forall_mem_singleton.mpr hbare
  settled := List.forall_mem_singleton.mpr (settled_rootUpdate _)
  roots _ he := absurd he List.not_mem_nil

theorem of_label {m : StoreMaps} (h : L.Saved overflowChecks io [.commit m]) {e : SnapshotEntry}
    (he : (snapshotRecord e).Settled) (hroot : e.root = L.rootOf m) :
    L.Saved overflowChecks io [.label e m] where
  committed := List.forall_mem_singleton.mpr (h.committed (.commit m) List.mem_cons_self)
  recorded := List.forall_mem_singleton.mpr (h.recorded (.commit m) List.mem_cons_self)
  bare := List.forall_mem_singleton.mpr (h.bare (.commit m) List.mem_cons_self)
  settled := List.forall_mem_singleton.mpr he
  roots := List.forall_mem_singleton.mpr hroot

end Blockset.Laws.Saved

theorem Committed.persistent {m : StoreMaps} {root : Digest224}
    (h : Committed L overflowChecks io m root) :
    Committed L overflowChecks io m.persistent root where
  root_eq := h.root_eq
  record := h.record
  maps := ⟨h.maps.1, h.maps.2, h.maps.3, h.maps.4, h.maps.5, h.maps.6⟩
  inodes := h.inodes
  loadable := by
    obtain ⟨⟨h₁, h₂, h₃, h₄, h₅, h₆⟩, hmax, hroot, hsize⟩ := h.loadable
    exact ⟨⟨h₁, h₂, h₃, h₄, h₅, h₆⟩, hmax, hroot, hsize⟩

/-- The record of a commit that returned. -/
theorem saved_of_commit (hB : L.Reliable) {s s' : Store B} {root : Digest224} (hrec : L.Recorded s)
    (hroot : 1 ∈ s.maps.inodeData) (hsize : overflowChecks = true → totalSize s.io s.maps < 2 ^ 64)
    (hcommit : commit s = ((.ok root, s') : Except (Fault MetaError) Digest224 × _))
    (hc : L.NoCollision s'.io) :
    root = L.rootOf s.maps.persistent ∧
    L.Saved overflowChecks s'.io [.commit s.maps.persistent] := by
  obtain ⟨hr, -, -, hle, -⟩ := commit_spec L hB hcommit
  have hcommitted : Committed L overflowChecks s'.io s.maps root := by
    refine committed_of_commit hB hcommit (L.le_refl _) hrec.numbered hroot (hrec.grow hle).names
      fun hchecks => ?_
    rw [totalSize_of_le hle hc hrec.names]
    exact hsize hchecks
  subst hr
  refine ⟨rfl, .of_commit hcommitted.persistent ?_ rfl⟩
  exact ⟨hrec.same, hrec.next, (hrec.grow hle).stored⟩

variable (L) in
/-- The records `old` are in the segments of earlier sessions, `es` in that of the present
one, and `held` are held back by its log. -/
structure Blockset.Laws.Logs (d : Disk B) (wal : Wal) (old es held : List StoreRecord) : Prop where
  segments : Segments d.segments (old.map L.logEntry)
  room : nextSegmentId d.segments < 10 ^ 6
  steady : wal.Steady (nextSegmentId d.segments) (es.map L.logEntry) (held.map L.logEntry)

section Log
variable {d : Disk B} {wal : Wal} {old es held : List StoreRecord}

theorem Blockset.Laws.Logs.log (h : L.Logs d wal old es held) (r : StoreRecord) :
    ∃ es' held', L.Logs d (Wal.logMutation (L.logEntry r) wal).2 old es' held' ∧
      es' ++ held' = es ++ held ++ [r] ∧ es <+: es' := by
  rcases h.steady.logMutation (L.logEntry r) with ⟨hheld, hs⟩ | ⟨-, hs⟩
  · obtain rfl : held = [] := List.map_eq_nil_iff.mp hheld
    exact ⟨es ++ [r], [], ⟨h.segments, h.room, by simpa using hs⟩, by simp, List.prefix_append _ _⟩
  · exact ⟨es, held ++ [r], ⟨h.segments, h.room, by simpa using hs⟩, by simp, List.prefix_rfl⟩

theorem Blockset.Laws.Logs.flushed (h : L.Logs d wal old es held) {l l' : StoreLog}
    (hl : l.Flushed l') (hwal : l.wal = some wal) : ∃ wal' es' held', l'.wal = some wal' ∧
      L.Logs d wal' old es' held' ∧ es' ++ held' = es ++ held ∧ es <+: es' := by
  induction hl with
  | refl => exact ⟨wal, es, held, hwal, h, rfl, List.prefix_rfl⟩
  | flush _ hwal' ih =>
      obtain ⟨wal₁, es₁, held₁, hwal₁, h₁, hall, hpre⟩ := ih
      obtain rfl := Option.some.inj (hwal'.symm.trans hwal₁)
      refine ⟨_, es₁ ++ held₁, [], rfl, ⟨h₁.segments, h₁.room, ?_⟩, by rw [List.append_nil, hall],
        hpre.trans (List.prefix_append _ _)⟩
      simpa using h₁.steady.flushAndSync

theorem StoreLog.Flushed.lists {l l' : StoreLog} (h : l.Flushed l') {snaps : List SnapshotEntry}
    (hl : l.Lists snaps) : l'.Lists snaps := by
  induction h with
  | refl => exact hl
  | flush _ _ ih => exact ⟨ih.version, ih.name⟩

end Log

variable (L) in
/-- The disk and the store of a session have the state of the journal: its records are in
the segments or in the log, and its first ones are under a sync. -/
structure Blockset.Laws.Tracks (overflowChecks : Bool) (d : Disk B) (s : Store B) (j : StoreJournal)
    (old es held : List StoreRecord) : Prop where
  current : j.current = s.maps.persistent
  recorded : L.Recorded s
  rooted : 1 ∈ s.maps.inodeData
  size : overflowChecks = true → totalSize s.io s.maps < 2 ^ 64
  saved : L.Saved overflowChecks s.io j.records
  live : ∃ m, Journal.committed old = some m
  table : s.log.Lists ((Journal.archive j.records).map Prod.fst)
  increasing : Increasing ((Journal.archive j.records).map Prod.fst)
  logs : ∃ wal, s.log.wal = some wal ∧ L.Logs d wal old es held
  records : j.records = old ++ (es ++ held)
  durable : j.durable ≤ (old ++ es).length

/-- What a session may do to its store: the inode of the root directory stays, the log and
the table are not replaced, names of snapshots are not empty and fit into their record, and
a root that is committed by itself is that of a snapshot. -/
def StoreOp.InLife (s : Store B) : StoreOp → Prop
  | .deleteInode ino => ino ≠ 1
  | .commitRoot root => ∃ e ∈ listSnapshots s.log, e.root = root
  | .createSnapshot name _ => ∀ n ∈ name, n.bytes ≠ [] ∧ n.bytes.length < nameBound
  | .setSnapshots _ => False
  | .setWal _ => False
  | _ => True

variable (L) in
/-- What an operation did to the log: it flushed it, or it logged a commit, a root of a
snapshot, or a commit with a snapshot of it. -/
inductive StoreOp.Effect (s s' : Store B) : Prop where
  | quiet : s.log.Flushed s'.log → Effect s s'
  | commit {root : Digest224} :
      SliceFs.commit s = ((.ok root, s') : Except (Fault MetaError) Digest224 × _) → Effect s s'
  | revert {e : SnapshotEntry} : e ∈ listSnapshots s.log →
      s' = { s with log := s.log.logRoot e.root } → Effect s s'
  | snapshot {e : SnapshotEntry} {s₁ : Store B} :
      SliceFs.commit s = ((.ok e.root, s₁) : Except (Fault MetaError) Digest224 × _) →
      nextVersion s.log ≠ u64Max → e.version = nextVersion s.log + 1 → (snapshotRecord e).Settled →
      s' = { s₁ with log := s₁.log.logSnapshot e } → Effect s s'

theorem settled_snapshotRecord {name : Option Str} (version : UInt64) (root : Digest224)
    (secs : UInt64) (h : ∀ n ∈ name, n.bytes ≠ [] ∧ n.bytes.length < nameBound) :
    (snapshotRecord ⟨version, name, root, secs⟩).Settled := by
  cases name with
  | none => exact ⟨by simp [Fits, payloadBytes, nameBytes, Str.empty], rfl⟩
  | some n =>
      obtain ⟨hne, hlen⟩ := h n rfl
      refine ⟨?_, by simp [SegmentEntry.readBack, Option.filter_some, hne]⟩
      unfold nameBound at hlen
      simp [Fits, payloadBytes, nameBytes]
      omega

theorem StoreOp.effect (L : B.Laws) {op : StoreOp} {s s' : Store B} (hop : op.InLife s)
    (h : op.run s = some s') : StoreOp.Effect s s' := by
  have key : ∀ {ε α : Type} (m : Prog (Store B) ε α) [hm : Growing L.growthQuiet m],
      Prog.exec m s = some s' → StoreOp.Effect s s' := by
    intro ε α m hm hrun
    rw [← Prog.snd_of_exec hrun]
    exact .quiet (hm.le_run s).2
  unfold StoreOp.run at h
  cases op with
  | commit =>
      have hsnd := Prog.snd_of_exec h
      rcases commit_cases (ε := MetaError) s with ⟨f, s₁, hcommit, hlog⟩ | ⟨r, s₁, hcommit, -⟩
      · rw [hcommit] at hsnd
        obtain rfl : s₁ = s' := hsnd
        exact .quiet (hlog ▸ .refl _)
      · rw [hcommit] at hsnd
        obtain rfl : s₁ = s' := hsnd
        exact .commit hcommit
  | commitRoot root =>
      obtain ⟨e, he, rfl⟩ := hop
      exact .revert he (Prog.snd_of_exec h).symm
  | createSnapshot name now =>
      have hsnd := Prog.snd_of_exec h
      rcases commit_cases (ε := MetaError) s with ⟨f, s₁, hcommit, hlog⟩ | ⟨r, s₁, hcommit, hlog⟩
      · rw [SliceFs.createSnapshot, Prog.bind_error hcommit] at hsnd
        obtain rfl : s₁ = s' := hsnd
        exact .quiet (hlog ▸ .refl _)
      · have hrun : (SliceFs.createSnapshot name now : StoreM B SnapshotEntry) s = _ :=
          createSnapshot_eq hcommit hlog
        split_ifs at hrun with hmax
        · exact absurd (h.symm.trans (Prog.exec_of_panic hrun)) (by simp)
        · rw [hrun] at hsnd
          exact .snapshot (e := ⟨nextVersion s.log + 1, name, r, now.secs⟩) hcommit hmax rfl
            (settled_snapshotRecord _ _ _ hop) hsnd.symm
  | setSnapshots => exact hop.elim
  | setWal => exact hop.elim
  | incrementRefcount d => exact key _ h
  | decrementRefcount d => exact key _ h
  | createInode inode => exact key _ h
  | updateInode inode => exact key _ h
  | deleteInode ino => exact key _ h
  | createDirectory parent name inode => exact key _ h
  | link parent name ino => exact key _ h
  | unlink parent name => exact key _ h
  | setManifest ino blocks => exact key _ h
  | setXattr ino name value => exact key _ h
  | removeXattr ino name => exact key _ h
  | flushWal => exact key _ h
  | shutdownWal => exact key (m := SliceFs.flushWal) h

section Steps
variable {d : Disk B} {s s' : Store B} {j : StoreJournal} {old es held : List StoreRecord}

theorem Blockset.Laws.Tracks.grow (h : L.Tracks overflowChecks d s j old es held) {io : B.Io}
    (hle : L.le s.io io) (hc : L.NoCollision io) :
    L.Tracks overflowChecks d { s with io := io } j old es held :=
  { h with
    recorded := h.recorded.grow hle
    size := fun hchecks => by
      rw [totalSize_of_le hle hc h.recorded.names]
      exact h.size hchecks
    saved := h.saved.mono hle hc }

theorem Blockset.Laws.Tracks.flushed (h : L.Tracks overflowChecks d s j old es held) {l : StoreLog}
    (hlog : s.log.Flushed l) : ∃ es' held', es' ++ held' = es ++ held ∧ es <+: es' ∧
      L.Tracks overflowChecks d { s with log := l } j old es' held' := by
  obtain ⟨wal, hwal, hlogs⟩ := h.logs
  obtain ⟨wal', es', held', hwal', hlogs', hall, hpre⟩ := hlogs.flushed hlog hwal
  refine ⟨es', held', hall, hpre, ?_⟩
  exact
    { h with
      recorded := h.recorded.congr rfl rfl rfl
      table := hlog.lists h.table
      logs := ⟨wal', hwal', hlogs'⟩
      records := by rw [h.records, hall]
      durable := h.durable.trans (by
        simp only [List.length_append]
        exact Nat.add_le_add_left hpre.length_le _) }

/-- Other maps take the place of the current ones. -/
theorem Blockset.Laws.Tracks.edit (h : L.Tracks overflowChecks d s j old es held) {m : StoreMaps}
    (hrec : L.Recorded { s with maps := m }) (hroot : 1 ∈ m.inodeData)
    (hsize : overflowChecks = true → totalSize s.io m < 2 ^ 64) :
    L.Tracks overflowChecks d { s with maps := m } { j with current := m.persistent } old es held :=
  { h with current := rfl, recorded := hrec, rooted := hroot, size := hsize }

/-- A record is logged: the journal has it, and what was under a sync stays so. -/
theorem Blockset.Laws.Tracks.log (h : L.Tracks overflowChecks d s j old es held) (r : StoreRecord)
    (hr : L.Saved overflowChecks s.io [r]) {l : StoreLog}
    (hwal : l.wal = s.log.wal.map fun wal => (Wal.logMutation (L.logEntry r) wal).2)
    (htable : l.Lists ((Journal.archive (j.records ++ [r])).map Prod.fst))
    (hincreasing : Increasing ((Journal.archive (j.records ++ [r])).map Prod.fst)) :
    ∃ es' held', es <+: es' ∧ L.Tracks overflowChecks d { s with log := l }
      { j with records := j.records ++ [r] } old es' held' := by
  obtain ⟨wal, hsome, hlogs⟩ := h.logs
  obtain ⟨es', held', hlogs', hall, hpre⟩ := hlogs.log r
  refine ⟨es', held', hpre, ?_⟩
  exact
    { current := h.current
      recorded := h.recorded.congr rfl rfl rfl
      rooted := h.rooted
      size := h.size
      saved := h.saved.append hr
      live := h.live
      table := htable
      increasing := hincreasing
      logs := ⟨_, by rw [hwal, hsome]; rfl, hlogs'⟩
      records := by rw [h.records, hall, List.append_assoc, List.append_assoc]
      durable := h.durable.trans (by
        simp only [List.length_append]
        exact Nat.add_le_add_left hpre.length_le _) }

/-- A commit that returned is one more record. -/
theorem Blockset.Laws.Tracks.commit (hB : L.Reliable)
    (h : L.Tracks overflowChecks d s j old es held) {root : Digest224}
    (hcommit : SliceFs.commit s = ((.ok root, s') : Except (Fault MetaError) Digest224 × _))
    (hc : L.NoCollision s'.io) :
    root = L.rootOf j.current ∧ L.Saved overflowChecks s'.io [.commit j.current] ∧
      ∃ es' held', es <+: es' ∧ L.Tracks overflowChecks d s'
        { j with records := j.records ++ [.commit j.current] } old es' held' := by
  obtain ⟨hroot, hsaved⟩ := saved_of_commit hB h.recorded h.rooted h.size hcommit hc
  obtain ⟨-, hmaps, hlog, hle, -⟩ := commit_spec L hB hcommit
  rw [← h.current] at hroot hsaved
  have hgrown := h.grow hle hc
  obtain ⟨es', held', hpre, htracks⟩ := hgrown.log (.commit j.current) hsaved (l := s'.log)
    (by rw [hlog, hroot]; rfl)
    (by rw [hlog, Journal.archive_concat_commit]; exact ⟨h.table.version, h.table.name⟩)
    (by rw [Journal.archive_concat_commit]; exact h.increasing)
  refine ⟨hroot, hsaved, es', held', hpre, ?_⟩
  obtain ⟨io, maps, l⟩ := s'
  obtain rfl : maps = s.maps := hmaps
  exact htracks

/-- A snapshot is a commit and a label. -/
theorem Blockset.Laws.Tracks.snapshot (hB : L.Reliable)
    (h : L.Tracks overflowChecks d s j old es held) {e : SnapshotEntry}
    (hcommit : SliceFs.commit s = ((.ok e.root, s') : Except (Fault MetaError) Digest224 × _))
    (hmax : nextVersion s.log ≠ u64Max) (hversion : e.version = nextVersion s.log + 1)
    (hsettled : (snapshotRecord e).Settled) (hc : L.NoCollision s'.io) :
    ∃ es' held', es <+: es' ∧ L.Tracks overflowChecks d { s' with log := s'.log.logSnapshot e }
      { j with records := j.records ++ [.commit j.current] ++ [.label e j.current] } old es'
        held' := by
  obtain ⟨hroot, hsaved, es₁, held₁, hpre₁, h₁⟩ := h.commit hB hcommit hc
  have hlog₁ : s'.log = s.log.logRoot e.root := (commit_spec L hB hcommit).2.2.1
  have hnext : nextVersion s'.log = nextVersion s.log := by rw [hlog₁]; rfl
  have htable := h₁.table
  obtain ⟨es', held', hpre, htracks⟩ := h₁.log (.label e j.current)
    (hsaved.of_label hsettled hroot) (l := s'.log.logSnapshot e) rfl
    (by
      rw [Journal.archive_concat_label, List.map_append]
      exact ⟨(byVersion_append _ e).symm ▸ htable.version ▸ rfl,
        (byName_append _ e).symm ▸ htable.name ▸ rfl⟩)
    (by
      rw [Journal.archive_concat_label, List.map_append]
      exact h₁.increasing.append htable (hnext ▸ hmax) (hnext ▸ hversion))
  exact ⟨es', held', hpre₁.trans hpre, htracks⟩

theorem Blockset.Laws.Tracks.quiet (hB : L.Reliable) {op : StoreOp}
    (h : L.Tracks overflowChecks d s j old es held) (hop : op.InLife s) (hrun : op.run s = some s')
    (hc : L.NoCollision s'.io) (hsize : overflowChecks = true → totalSize s'.io s'.maps < 2 ^ 64)
    (hlog : s.log.Flushed s'.log) :
    ∃ es' held', es <+: es' ∧ L.Tracks overflowChecks d s'
      { j with current := s'.maps.persistent } old es' held' := by
  have hroot := op.rooted_run L hrun (fun hdelete => by subst hdelete; exact hop rfl) h.rooted
  obtain ⟨es', held', -, hpre, hflushed⟩ := (h.grow (op.le_run L hrun) hc).flushed hlog
  exact ⟨es', held', hpre, hflushed.edit (op.recorded_run hB hrun h.recorded) hroot hsize⟩

/-- An operation of a session is some steps of the journal, without a sync. -/
theorem Blockset.Laws.Tracks.op (hB : L.Reliable) {op : StoreOp}
    (h : L.Tracks overflowChecks d s j old es held) (hop : op.InLife s) (hrun : op.run s = some s')
    (hc : L.NoCollision s'.io) (hsize : overflowChecks = true → totalSize s'.io s'.maps < 2 ^ 64) :
    ∃ j' es' held', Journal.Run j j' ∧ j'.durable = j.durable ∧ es <+: es' ∧
      L.Tracks overflowChecks d s' j' old es' held' := by
  cases op.effect L hop hrun with
  | quiet hlog =>
      obtain ⟨es', held', hpre, htracks⟩ := h.quiet hB hop hrun hc hsize hlog
      exact ⟨_, es', held', .single (.edit j s'.maps.persistent), rfl, hpre, htracks⟩
  | commit hcommit =>
      obtain ⟨-, -, es', held', hpre, htracks⟩ := h.commit hB hcommit hc
      exact ⟨_, es', held', .single (.commit _), rfl, hpre, htracks⟩
  | revert he hs' =>
      subst hs'
      rw [listSnapshots_eq h.table h.increasing] at he
      obtain ⟨⟨e, m⟩, hmem, rfl⟩ := List.mem_map.mp he
      have hlabel := Journal.mem_of_archive hmem
      have hsaved : L.Saved overflowChecks s.io [.commit m] :=
        .of_commit (h.saved.committed _ hlabel) (h.saved.recorded _ hlabel) (h.saved.bare _ hlabel)
      obtain ⟨es', held', hpre, htracks⟩ := h.log (.commit m) hsaved
        (l := s.log.logRoot e.root) (by rw [h.saved.roots _ hmem]; rfl)
        (by rw [Journal.archive_concat_commit]; exact ⟨h.table.version, h.table.name⟩)
        (by rw [Journal.archive_concat_commit]; exact h.increasing)
      exact ⟨_, es', held', .single (.revert hmem), rfl, hpre, htracks⟩
  | @snapshot e s₁ hcommit hmax hversion hsettled hs' =>
      subst hs'
      obtain ⟨es', held', hpre, htracks⟩ := h.snapshot hB hcommit hmax hversion hsettled hc
      have hsteps : Journal.Run j _ := (Relation.ReflTransGen.single (.commit j)).tail (.label _ e)
      exact ⟨_, es', held', hsteps, rfl, hpre, htracks⟩

/-- What the log has written is durable. -/
theorem Blockset.Laws.Tracks.sync (h : L.Tracks overflowChecks d s j old es held) :
    Journal.Step j { j with durable := (old ++ es).length } ∧
      L.Tracks overflowChecks d s { j with durable := (old ++ es).length } old es held := by
  refine ⟨.sync h.durable ?_, { h with durable := le_rfl }⟩
  rw [h.records]
  simp only [List.length_append]
  omega

/-- With the log that syncs each entry, all records are durable. -/
theorem Blockset.Laws.Tracks.held_eq_nil (h : L.Tracks overflowChecks d s j old es held)
    {w : SegmentWriter} (hwal : s.log.wal = some (.perOp w)) : held = [] := by
  obtain ⟨wal, hsome, hlogs⟩ := h.logs
  obtain rfl := Option.some.inj (hwal.symm.trans hsome)
  exact List.map_eq_nil_iff.mp hlogs.steady.buffer.symm

variable (overflowChecks) in
/-- One operation of a session. In a build with overflow checks the sizes of the inodes add
up to less than `2 ^ 64`, as loading them again needs. -/
def Works (s s' : Store B) : Prop :=
  ∃ op : StoreOp, op.InLife s ∧ op.run s = some s' ∧
    (overflowChecks = true → totalSize s'.io s'.maps < 2 ^ 64)

variable (L overflowChecks) in
/-- What may be on disk when the process is killed: between two operations, or within one
before it logged, some of what was written since the last sync may be missing; within an
operation any part of what it wrote may be there. -/
inductive Crash (d : Disk B) (s : Store B) : Disk B → Prop where
  | idle {wal : Wal} {w : SegmentWriter} {file : Bytes} {io : B.Io} : s.log.wal = some wal →
      wal.writer? = some w → w.Survives file → L.le s.io io →
      Crash d s { d with io := io, segments := d.segments.insert w.name file }
  | within {s' : Store B} {wal wal' : Wal} {w w' : SegmentWriter} {k : ℕ} :
      Works overflowChecks s s' → s.log.wal = some wal → wal.writer? = some w →
      s'.log.wal = some wal' → wal'.writer? = some w' → w.synced ≤ k →
      Crash d s { d with io := s'.io, segments := d.segments.insert w'.name (w'.written.take k) }

variable (L) in
/-- No session runs, and the segments hold these records. -/
structure Blockset.Laws.Rests (overflowChecks : Bool) (d : Disk B) (rs : List StoreRecord) :
    Prop where
  segments : Segments d.segments (rs.map L.logEntry)
  saved : L.Saved overflowChecks d.io rs
  increasing : Increasing ((Journal.archive rs).map Prod.fst)

section Rests
variable {rs : List StoreRecord} {m : StoreMaps}

/-- The next session starts from the last state that was committed. -/
theorem Blockset.Laws.Rests.openStore_eq (h : L.Rests overflowChecks d rs)
    (hm : Journal.committed rs = some m) (hc : L.NoCollision d.io) (config : WalConfig) :
    openStore overflowChecks config d =
      (.ok (sessionStore d config (L.rootOf m) m ((Journal.archive rs).map Prod.fst)), d) := by
  have hload := h.segments.load
  rw [lastRoot_map_logEntry, snapshotsOf_map_logEntry, hm] at hload
  exact openStore_ok config hload (h.saved.committed _ (Journal.mem_of_committed hm)) hc

theorem Blockset.Laws.Rests.tracks (h : L.Rests overflowChecks d rs)
    (hm : Journal.committed rs = some m) {config : WalConfig} (hconfig : config ≠ .noWal)
    (hn : nextSegmentId d.segments < 10 ^ 6) :
    L.Tracks overflowChecks d
      (sessionStore d config (L.rootOf m) m ((Journal.archive rs).map Prod.fst)) ⟨m, rs, rs.length⟩
      rs [] [] := by
  have hmem := Journal.mem_of_committed hm
  have hcommitted := h.saved.committed _ hmem
  exact
    { current := (h.saved.bare _ hmem).symm
      recorded := (h.saved.recorded _ hmem).congr rfl rfl rfl
      rooted := Std.ExtTreeMap.contains_iff_mem.mp hcommitted.loadable.root_mem
      size := hcommitted.loadable.totalSize_lt
      saved := h.saved
      live := ⟨m, hm⟩
      table := lists_sessionStore _ _ _ _ _
      increasing := h.increasing
      logs := ⟨_, rfl, h.segments, hn, Wal.steady_create hconfig _⟩
      records := by simp
      durable := by simp }

end Rests

/-- The records that are left of those a session was writing. -/
theorem Blockset.Laws.Logs.survivors {wal : Wal} {w : SegmentWriter} (h : L.Logs d wal old es held)
    (hw : wal.writer? = some w) {new : List StoreRecord}
    (hsettled : ∀ r ∈ es ++ new, (L.logEntry r).Settled) {k : ℕ} (hk : w.synced ≤ k) :
    let file := (headerBytes (nextSegmentId d.segments) ++
      framesBytes ((es ++ new).map L.logEntry)).take k
    FileReadable file ∧ ∃ p, p <+: new ∧ entriesOf file = (es ++ p).map L.logEntry := by
  have hall : ∀ e ∈ es.map L.logEntry ++ new.map L.logEntry, e.Settled := by
    rw [← List.map_append]
    intro e he
    obtain ⟨r, hr, rfl⟩ := List.mem_map.mp he
    exact hsettled r hr
  obtain ⟨hreadable, q, hq, hentries⟩ := h.steady.survivors hw hall hk
  rw [List.map_append]
  refine ⟨hreadable, new.take q.length, List.take_prefix _ _, ?_⟩
  rw [hentries, List.map_append, List.map_take]
  exact congrArg _ (List.prefix_iff_eq_take.mp hq)

/-- A session is killed when it has written more than at some earlier point: of the records
it wrote since then some of the first are left. -/
theorem Blockset.Laws.Tracks.cut (h : L.Tracks overflowChecks d s j old es held) {j' : StoreJournal}
    {new held' : List StoreRecord} (h' : L.Tracks overflowChecks d s' j' old (es ++ new) held')
    {wal wal' : Wal} {w w' : SegmentWriter} (hwal : s.log.wal = some wal)
    (hw : wal.writer? = some w) (hwal' : s'.log.wal = some wal') (hw' : wal'.writer? = some w')
    {k : ℕ} (hk : w.synced ≤ k) {io : B.Io} (hle : L.le s'.io io) (hc : L.NoCollision io) :
    ∃ p, p <+: new ∧ L.Rests overflowChecks
      { d with io := io, segments := d.segments.insert w'.name (w'.written.take k) }
      (old ++ (es ++ p)) := by
  obtain ⟨wal₁, hwal₁, hlogs⟩ := h.logs
  obtain rfl := Option.some.inj (hwal.symm.trans hwal₁)
  obtain ⟨wal₂, hwal₂, hlogs'⟩ := h'.logs
  obtain rfl := Option.some.inj (hwal'.symm.trans hwal₂)
  obtain ⟨w₂, hw₂, hname, -, hwritten, -⟩ := hlogs'.steady.writer
  obtain rfl := Option.some.inj (hw'.symm.trans hw₂)
  have hsettled : ∀ r ∈ es ++ new, (L.logEntry r).Settled := by
    intro r hr
    refine h'.saved.settled r ?_
    rw [h'.records]
    exact List.mem_append_right _ (List.mem_append_left _ hr)
  obtain ⟨hreadable, p, hp, hentries⟩ := hlogs.survivors hw hsettled hk
  rw [← hwritten] at hreadable hentries
  have hpre : old ++ (es ++ p) <+: j'.records := by
    rw [h'.records, List.prefix_append_right_inj, List.append_assoc, List.prefix_append_right_inj]
    exact hp.trans (List.prefix_append _ _)
  refine ⟨p, hp, ?_, (h'.saved.of_prefix hpre).mono hle hc,
    List.Pairwise.sublist ((Journal.archive_mono hpre).sublist.map _) h'.increasing⟩
  rw [List.map_append, ← hentries, hname]
  exact hlogs.segments.insert hlogs.room hreadable

theorem Blockset.Laws.Tracks.committed_append (h : L.Tracks overflowChecks d s j old es held)
    (p : List StoreRecord) : ∃ m, Journal.committed (old ++ p) = some m := by
  obtain ⟨m, hm⟩ := h.live
  rw [Journal.committed_append, hm]
  cases Journal.committed p with
  | none => exact ⟨m, rfl⟩
  | some m' => exact ⟨m', rfl⟩

/-- However a session ends, the store can be opened again, and the journal goes on from the
last state that was recorded in what is left. -/
theorem Blockset.Laws.Tracks.crash (hB : L.Reliable) (h : L.Tracks overflowChecks d s j old es held)
    {d' : Disk B} {config : WalConfig} (hcrash : Crash L overflowChecks d s d')
    (hc : L.NoCollision d'.io) (hconfig : config ≠ .noWal)
    (hn : nextSegmentId d'.segments < 10 ^ 6) :
    ∃ s' j', openStore overflowChecks config d' = (.ok s', d') ∧ Journal.Run j j' ∧
      Journal.committed j'.records = some j'.current ∧
      L.Tracks overflowChecks d' s' j' j'.records [] [] := by
  have key : ∀ {s₁ : Store B} {j₁ : StoreJournal} {new held₁ p : List StoreRecord},
      Journal.Run j j₁ → j₁.durable = j.durable →
      L.Tracks overflowChecks d s₁ j₁ old (es ++ new) held₁ →
      p <+: new → L.Rests overflowChecks d' (old ++ (es ++ p)) → ∃ s' j',
        openStore overflowChecks config d' = (.ok s', d') ∧ Journal.Run j j' ∧
        Journal.committed j'.records = some j'.current ∧
        L.Tracks overflowChecks d' s' j' j'.records [] [] := by
    intro s₁ j₁ new held₁ p hsteps hdurable h₁ hp hrests
    obtain ⟨m, hm⟩ := h₁.committed_append (es ++ p)
    have hopen := hrests.openStore_eq hm hc config
    have hpre : old ++ (es ++ p) <+: j₁.records := by
      rw [h₁.records, List.prefix_append_right_inj, List.append_assoc, List.prefix_append_right_inj]
      exact hp.trans (List.prefix_append _ _)
    have hkept : j₁.durable ≤ (old ++ (es ++ p)).length := by
      have := h.durable
      simp only [List.length_append] at this ⊢
      omega
    exact ⟨_, _, hopen, hsteps.tail (.restart hpre hkept hm), hm, hrests.tracks hm hconfig hn⟩
  cases hcrash with
  | idle hwal hw hsurvives hle =>
      obtain ⟨k, hk, rfl⟩ := hsurvives
      have h₁ : L.Tracks overflowChecks d s j old (es ++ []) held := by rwa [List.append_nil]
      obtain ⟨p, hp, hrests⟩ := h.cut h₁ hwal hw hwal hw hk hle hc
      exact key .refl rfl h₁ hp hrests
  | within hworks hwal hw hwal' hw' hk =>
      obtain ⟨op, hop, hrun, hsize⟩ := hworks
      obtain ⟨j', es', held', hsteps, hdurable, ⟨new, rfl⟩, h'⟩ := h.op hB hop hrun hc hsize
      obtain ⟨p, hp, hrests⟩ := h.cut h' hwal hw hwal' hw' hk (L.le_refl _) hc
      exact key hsteps hdurable h' hp hrests

end Steps

variable (L) in
/-- The disk and the store of a session have the state of the journal, and its durable
records are those in the segments. -/
def Blockset.Laws.Realizes (overflowChecks : Bool) (d : Disk B) (s : Store B) (j : StoreJournal) :
    Prop :=
  ∃ old es held, L.Tracks overflowChecks d s j old es held ∧ j.durable = (old ++ es).length

variable (L overflowChecks) in
/-- Operations of a session, and crashes with the store opened again. -/
inductive Life : Disk B × Store B → Disk B × Store B → Prop where
  | work {d : Disk B} {s s' : Store B} : Works overflowChecks s s' → Life (d, s) (d, s')
  | restart {d d₁ d' : Disk B} {s s' : Store B} {config : WalConfig} :
      Crash L overflowChecks d s d₁ → L.NoCollision d₁.io → config ≠ .noWal →
      nextSegmentId d₁.segments < 10 ^ 6 → openStore overflowChecks config d₁ = (.ok s', d') →
      Life (d, s) (d', s')

variable (L overflowChecks) in
abbrev Lifetime : Disk B × Store B → Disk B × Store B → Prop :=
  Relation.ReflTransGen (Life L overflowChecks)

section Life
variable {d d' : Disk B} {s s' : Store B} {j : StoreJournal}

theorem Blockset.Laws.Tracks.realizes {old es held : List StoreRecord}
    (h : L.Tracks overflowChecks d s j old es held) :
    Journal.Step j { j with durable := (old ++ es).length } ∧
      L.Realizes overflowChecks d s { j with durable := (old ++ es).length } :=
  ⟨h.sync.1, old, es, held, h.sync.2, rfl⟩

theorem le_of_crash (h : Crash L overflowChecks d s d') : L.le s.io d'.io := by
  cases h with
  | idle _ _ _ hle => exact hle
  | within hworks _ _ _ _ _ =>
      obtain ⟨op, -, hrun, -⟩ := hworks
      exact op.le_run L hrun

theorem Blockset.Laws.Realizes.crash (hB : L.Reliable) (h : L.Realizes overflowChecks d s j)
    (hcrash : Crash L overflowChecks d s d') (hc : L.NoCollision d'.io) {config : WalConfig}
    (hconfig : config ≠ .noWal) (hn : nextSegmentId d'.segments < 10 ^ 6) :
    ∃ s' j', openStore overflowChecks config d' = (.ok s', d') ∧ Journal.Run j j' ∧
      Journal.committed j'.records = some s'.maps.persistent ∧
      L.Realizes overflowChecks d' s' j' := by
  obtain ⟨old, es, held, htracks, -⟩ := h
  obtain ⟨s', j', hopen, hrun, hm, htracks'⟩ := htracks.crash hB hcrash hc hconfig hn
  rw [htracks'.current] at hm
  exact ⟨s', _, hopen, hrun.tail htracks'.realizes.1, hm, htracks'.realizes.2⟩

theorem Blockset.Laws.Realizes.life (hB : L.Reliable) (h : L.Realizes overflowChecks d s j)
    (hlife : Life L overflowChecks (d, s) (d', s')) (hc : L.NoCollision s'.io) :
    ∃ j', Journal.Run j j' ∧ L.Realizes overflowChecks d' s' j' := by
  cases hlife with
  | work hworks =>
      obtain ⟨old, es, held, htracks, -⟩ := h
      obtain ⟨op, hop, hrun, hsize⟩ := hworks
      obtain ⟨j', es', held', hsteps, -, -, htracks'⟩ := htracks.op hB hop hrun hc hsize
      exact ⟨_, hsteps.tail htracks'.realizes.1, htracks'.realizes.2⟩
  | restart hcrash hc₁ hconfig hn hopen =>
      obtain ⟨s₁, j', hopen', hrun, -, hj'⟩ := h.crash hB hcrash hc₁ hconfig hn
      obtain ⟨hs, rfl⟩ := Prod.mk.inj (hopen'.symm.trans hopen)
      obtain rfl := Except.ok.inj hs
      exact ⟨j', hrun, hj'⟩

theorem Life.noCollision {x y : Disk B × Store B} (h : Life L overflowChecks x y)
    (hc : L.NoCollision y.2.io) : L.NoCollision x.2.io := by
  cases h with
  | work hworks =>
      obtain ⟨op, -, hrun, -⟩ := hworks
      exact hc.of_le (op.le_run L hrun)
  | restart hcrash hc₁ _ _ _ => exact hc₁.of_le (le_of_crash hcrash)

theorem noCollision_of_lifetime {x y : Disk B × Store B} (h : Lifetime L overflowChecks x y)
    (hc : L.NoCollision y.2.io) : L.NoCollision x.2.io := by
  induction h with
  | refl => exact hc
  | tail _ hstep ih => exact ih (hstep.noCollision hc)

theorem Blockset.Laws.Realizes.lifetime (hB : L.Reliable) (h : L.Realizes overflowChecks d s j)
    (hlife : Lifetime L overflowChecks (d, s) (d', s')) (hc : L.NoCollision s'.io) :
    ∃ j', Journal.Run j j' ∧ L.Realizes overflowChecks d' s' j' := by
  generalize hy : (d', s') = y at hlife
  induction hlife generalizing d' s' with
  | refl =>
      obtain ⟨rfl, rfl⟩ := Prod.mk.inj hy
      exact ⟨j, .refl, h⟩
  | @tail x y _ hstep ih =>
      subst hy
      obtain ⟨d₁, s₁⟩ := x
      obtain ⟨j₁, hrun, h₁⟩ := ih (hstep.noCollision hc) rfl
      obtain ⟨j', hrun', h'⟩ := h₁.life hB hstep hc
      exact ⟨j', hrun.trans hrun', h'⟩

/-- With the log that syncs each entry, every record is durable. -/
theorem Blockset.Laws.Realizes.kept_eq (h : L.Realizes overflowChecks d s j) {w : SegmentWriter}
    (hwal : s.log.wal = some (.perOp w)) : j.kept = j.records := by
  obtain ⟨old, es, held, htracks, hdurable⟩ := h
  obtain rfl := htracks.held_eq_nil hwal
  refine List.take_of_length_le ?_
  rw [hdurable, htracks.records, List.append_nil]

/-- What is in the archive can be loaded. -/
theorem Blockset.Laws.Realizes.load (h : L.Realizes overflowChecks d s j) (hc : L.NoCollision s.io)
    {e : SnapshotEntry × StoreMaps} (he : e ∈ Journal.archive j.records) :
    e.1 ∈ listSnapshots s.log ∧ ∃ u, loadFromRoot B overflowChecks e.1.root s.io = (.ok u, s.io) ∧
      Restores e.1.root e.2 u := by
  obtain ⟨old, es, held, htracks, -⟩ := h
  constructor
  · rw [listSnapshots_eq htracks.table htracks.increasing]
    exact List.mem_map_of_mem he
  · rw [htracks.saved.roots e he]
    have hcommitted := htracks.saved.committed _ (Journal.mem_of_archive he)
    exact ⟨_, hcommitted.load hc, restores_loadedStore _ _ _⟩

end Life

section Seeded
variable {d d₁ d₂ : Disk B} {s : Store B} {source : SourceMeta} {tree : SeedTree} {root : Digest224}

instance growingRooted_walkDir (tree : SeedTree) (parent : UInt64) :
    Growing L.growthRooted (walkDir tree parent : StoreM B Unit) := by
  induction tree generalizing parent with
  | done =>
      unfold walkDir
      infer_instance
  | dir name source children rest hchildren hrest =>
      unfold walkDir
      infer_instance
  | file name source bytes hlen rest hrest =>
      unfold walkDir seedFile
      infer_instance

/-- The store that `seed` commits. -/
theorem runSeed_eq_ok (hseed : runSeed source tree d = (.ok root, d₁)) :
    ∃ s₀ s₁ s₂ io, Store.new B 0 0 d.io = (.ok s₀, io) ∧ seed source tree s₀ = (.ok (), s₁) ∧
      commit s₁ = ((.ok root, s₂) : Except (Fault MetaError) Digest224 × _) ∧ s₂.io = d₁.io := by
  obtain ⟨root', d', hroot, h₁⟩ := Prog.bind_eq_ok hseed
  obtain ⟨_, d'', hmod, h₂⟩ := Prog.bind_eq_ok h₁
  obtain ⟨-, rfl⟩ := Prod.mk.inj hmod
  obtain ⟨hr, rfl⟩ := Prod.mk.inj h₂
  obtain rfl := Except.ok.inj hr
  have hdisk := Prog.mapErr_eq_ok hroot
  obtain ⟨hok, rfl⟩ := Prod.mk.inj hdisk
  obtain ⟨s₀, io, hnew, h₃⟩ := Prog.bind_eq_ok (m := Store.new B 0 0) (Prod.ext hok rfl)
  obtain ⟨_, io₁, hio, h₄⟩ := Prog.bind_eq_ok h₃
  obtain ⟨-, hio⟩ := Prod.mk.inj hio
  obtain ⟨hboth, hlast⟩ := Prod.mk.inj h₄
  have hrun : (do seed source tree; commit : StoreM B Digest224) s₀ =
      (.ok root', ((do seed source tree; commit : StoreM B Digest224) s₀).2) := Prod.ext hboth rfl
  obtain ⟨_, s₁, hseeded, hcommit⟩ := Prog.bind_eq_ok hrun
  refine ⟨s₀, s₁, _, io, hnew, hseeded, hcommit, ?_⟩
  exact hio.trans hlast

theorem segments_seeded (hseed : runSeed source tree d = (.ok root, d₁)) (hempty : d.segments = ∅) :
    Segments d₁.segments [.rootUpdate root] := by
  have hsettled : ∀ e ∈ [SegmentEntry.rootUpdate root], e.Settled :=
    List.forall_mem_singleton.mpr (settled_rootUpdate root)
  obtain ⟨hentries, hreadable⟩ := entriesOf_closedSegment 1 hsettled
  have hins := segments_empty.insert (by decide) hreadable
  rw [hentries, List.nil_append] at hins
  rw [runSeed_segments hseed, hempty]
  exact hins

theorem room_seeded (hseed : runSeed source tree d = (.ok root, d₁)) (hempty : d.segments = ∅) :
    nextSegmentId d₁.segments < 10 ^ 6 := by
  have hkeys : d₁.segments.keys = [segmentName 1] := by
    rw [runSeed_segments hseed, hempty]
    rfl
  rw [nextSegmentId, hkeys, List.filterMap_cons, parseSegmentId_segmentName (by norm_num)]
  decide

/-- A store that was seeded and can be opened has one record. -/
theorem rests_seeded (hB : L.Reliable) (hseed : runSeed source tree d = (.ok root, d₁))
    (hempty : d.segments = ∅) (hc : L.NoCollision d₁.io) {config : WalConfig}
    (hopen : openStore overflowChecks config d₁ = (.ok s, d₂)) :
    L.Rests overflowChecks d₁ [.commit s.maps.persistent] := by
  have hsegments := segments_seeded hseed hempty
  obtain ⟨s₀, s₁, s₂, io, hnew, hseeded, hcommit, hio⟩ := runSeed_eq_ok hseed
  have := recorded_tree (L := L) hB
  have hgrows : Growing L.growthRecorded (seed source tree : StoreM B Unit) := inferInstance
  have hroots : Growing L.growthRooted (seed source tree : StoreM B Unit) := by
    unfold seed
    infer_instance
  have hrec : L.Recorded s₁ := by
    have h := (hgrows.le_run s₀).2 (recorded_new hB hnew)
    rwa [hseeded] at h
  have hmem : 1 ∈ s₁.maps.inodeData := by
    have h := (hroots.le_run s₀).2 (by
      obtain ⟨io₁, rfl, -⟩ := new_eq (L := L) hB hnew
      exact Std.ExtTreeMap.mem_insert_self)
    rwa [hseeded] at h
  obtain ⟨live, snaps, u, io', hload, hfrom, rfl, rfl⟩ := openStore_eq_ok hopen
  rw [hsegments.load] at hload
  obtain ⟨hlive, rfl⟩ := Prod.mk.inj (Except.ok.inj hload)
  obtain rfl : root = live := Option.some.inj hlive
  rw [← hio] at hc hfrom
  obtain ⟨hr, -, -, hle, hstored, hrecord⟩ := commit_spec L hB hcommit
  have hsize : overflowChecks = true → totalSize s₁.io s₁.maps < 2 ^ 64 := by
    have hfrom' := hfrom
    rw [hr] at hfrom'
    have hloadable := loadable_of_loadFromRoot L hc hrecord hstored
      (encodable_of_commit hcommit) hfrom'
    intro hchecks
    rw [← totalSize_of_le hle hc hrec.names]
    exact hloadable.totalSize_lt hchecks
  obtain ⟨hroot, hsaved⟩ := saved_of_commit hB hrec hmem hsize hcommit hc
  obtain rfl := eq_loadedStore_of_commit L hB hcommit (L.le_refl _) hc hfrom
  rw [hroot] at hsegments
  rw [hio] at hsaved
  exact ⟨hsegments, hsaved, List.Pairwise.nil⟩

/-- A store that was seeded and opened is a journal with one record. -/
theorem realizes_seeded (hB : L.Reliable) (hseed : runSeed source tree d = (.ok root, d₁))
    (hempty : d.segments = ∅) (hc : L.NoCollision d₁.io) {config : WalConfig}
    (hconfig : config ≠ .noWal) (hopen : openStore overflowChecks config d₁ = (.ok s, d₂)) :
    L.Realizes overflowChecks d₂ s ⟨s.maps.persistent, [.commit s.maps.persistent], 1⟩ := by
  have hrests := rests_seeded hB hseed hempty hc hopen
  have hm : Journal.committed [.commit (ι := SnapshotEntry) s.maps.persistent] =
      some s.maps.persistent := rfl
  have htracks := hrests.tracks hm hconfig (room_seeded hseed hempty)
  obtain ⟨hs, rfl⟩ := Prod.mk.inj (hopen.symm.trans (hrests.openStore_eq hm hc config))
  rw [← Except.ok.inj hs] at htracks
  exact ⟨_, [], [], htracks, rfl⟩

theorem createSnapshot_eq_ok {name : Option Str} {now : Now} {s t : Store B} {e : SnapshotEntry}
    (h : createSnapshot name now s = ((.ok e, t) : Except (Fault MetaError) SnapshotEntry × _)) :
    ∃ s₁, commit s = ((.ok e.root, s₁) : Except (Fault MetaError) Digest224 × _) ∧
      s₁.log = s.log.logRoot e.root ∧ nextVersion s.log ≠ u64Max ∧
      e = ⟨nextVersion s.log + 1, name, e.root, now.secs⟩ ∧
      t = { s₁ with log := s₁.log.logSnapshot e } := by
  rcases commit_cases (ε := MetaError) s with ⟨f, s₁, hcommit, -⟩ | ⟨r, s₁, hcommit, hlog⟩
  · rw [createSnapshot, Prog.bind_error hcommit] at h
    cases (Prod.mk.inj h).1
  · rw [createSnapshot_eq hcommit hlog] at h
    split_ifs at h with hmax
    · cases (Prod.mk.inj h).1
    · obtain ⟨he, rfl⟩ := Prod.mk.inj h
      obtain rfl := Except.ok.inj he
      exact ⟨s₁, hcommit, hlog, hmax, rfl, rfl⟩

/-- From the seed on, a store behaves as a journal of its states. -/
theorem lifetime_refines_journal (hB : B.NoIoErrors)
    (hseed : runSeed source tree d = (.ok root, d₁)) (hempty : d.segments = ∅)
    (hc₁ : L.NoCollision d₁.io) {config : WalConfig} (hconfig : config ≠ .noWal)
    (hopen : openStore overflowChecks config d₁ = (.ok s, d₂)) {d' : Disk B} {s' : Store B}
    (hlife : Lifetime L overflowChecks (d₂, s) (d', s')) (hc : L.NoCollision s'.io) :
    ∃ j, Journal.Run ⟨s.maps.persistent, [.commit s.maps.persistent], 1⟩ j ∧
      L.Realizes overflowChecks d' s' j :=
  (realizes_seeded (hB.reliable L) hseed hempty hc₁ hconfig hopen).lifetime (hB.reliable L) hlife hc

/-- However a session ends, the store opens again, with the last state that was committed
in what is left of the journal; nothing durable is missing there, and with the log that
syncs each entry nothing at all. -/
theorem crash_recovers (hB : B.NoIoErrors) (hseed : runSeed source tree d = (.ok root, d₁))
    (hempty : d.segments = ∅) (hc₁ : L.NoCollision d₁.io) {config : WalConfig}
    (hconfig : config ≠ .noWal) (hopen : openStore overflowChecks config d₁ = (.ok s, d₂))
    {d' d'' : Disk B} {s' : Store B} (hlife : Lifetime L overflowChecks (d₂, s) (d', s'))
    (hcrash : Crash L overflowChecks d' s' d'') (hc : L.NoCollision d''.io)
    (hn : nextSegmentId d''.segments < 10 ^ 6) :
    ∃ j j' s'', L.Realizes overflowChecks d' s' j ∧
      openStore overflowChecks config d'' = (.ok s'', d'') ∧ L.Realizes overflowChecks d'' s'' j' ∧
      Journal.committed j'.records = some s''.maps.persistent ∧ j.kept <+: j'.records ∧
      ((∃ w, s'.log.wal = some (.perOp w)) → j.records <+: j'.records) := by
  have hB := hB.reliable L
  obtain ⟨j, -, hj⟩ := (realizes_seeded hB hseed hempty hc₁ hconfig hopen).lifetime hB hlife
    (hc.of_le (le_of_crash hcrash))
  obtain ⟨s'', j', hopen', hrun, hm, hj'⟩ := hj.crash hB hcrash hc hconfig hn
  have hkept : j.kept <+: j'.records := hrun.kept_mono.trans (List.take_prefix _ _)
  refine ⟨j, j', s'', hj, hopen', hj', hm, hkept, ?_⟩
  rintro ⟨w, hwal⟩
  rwa [hj.kept_eq hwal] at hkept

/-- A snapshot made under the log that syncs each entry is listed from then on, through all
sessions and crashes, and its root loads the maps it was made of. -/
theorem snapshot_lasts (hB : B.NoIoErrors) (hseed : runSeed source tree d = (.ok root, d₁))
    (hempty : d.segments = ∅) (hc₁ : L.NoCollision d₁.io) {config : WalConfig}
    (hconfig : config ≠ .noWal) (hopen : openStore overflowChecks config d₁ = (.ok s, d₂))
    {d' d'' : Disk B} {s' t s'' : Store B} (hlife : Lifetime L overflowChecks (d₂, s) (d', s'))
    {w : SegmentWriter} (hwal : s'.log.wal = some (.perOp w)) {name : Option Str} {now : Now}
    (hname : ∀ n ∈ name, n.bytes ≠ [] ∧ n.bytes.length < nameBound) {e : SnapshotEntry}
    (hmade : createSnapshot name now s' = ((.ok e, t) : Except (Fault MetaError) SnapshotEntry × _))
    (hlater : Lifetime L overflowChecks (d', t) (d'', s'')) (hc : L.NoCollision s''.io) :
    e ∈ listSnapshots s''.log ∧ ∃ u, loadFromRoot B overflowChecks e.root s''.io = (.ok u, s''.io) ∧
      Restores e.root s'.maps u := by
  have hB := hB.reliable L
  have hct : L.NoCollision t.io := noCollision_of_lifetime hlater hc
  obtain ⟨s₁, hcommit, hlog, hmax, he, rfl⟩ := createSnapshot_eq_ok hmade
  have hnew : e.version = nextVersion s'.log + 1 := by rw [he]
  have hsettled : (snapshotRecord e).Settled := by
    rw [he]
    exact settled_snapshotRecord _ _ _ hname
  have hle : L.le s'.io s₁.io := (commit_spec L hB hcommit).2.2.2.1
  obtain ⟨w', hwal'⟩ : ∃ w', (s₁.log.logSnapshot e).wal = some (.perOp w') := by
    rw [StoreLog.logSnapshot, hlog, StoreLog.logRoot, hwal]
    exact ⟨_, rfl⟩
  obtain ⟨j, -, old, es, held, hj, -⟩ :=
    (realizes_seeded hB hseed hempty hc₁ hconfig hopen).lifetime hB hlife (hct.of_le hle)
  obtain ⟨es', held', -, htracks⟩ := hj.snapshot hB hcommit hmax hnew hsettled hct
  have hrep := htracks.realizes.2
  have hkept := hrep.kept_eq hwal'
  obtain ⟨j', hrun, hrep'⟩ := hrep.lifetime hB hlater hc
  have harchived : (e, j.current) ∈ Journal.archive j'.records := by
    refine hrun.archive_kept ?_
    rw [hkept, Journal.archive_concat_label]
    exact List.mem_append_right _ List.mem_cons_self
  obtain ⟨hlisted, u, hload, hu⟩ := hrep'.load hc harchived
  rw [hj.current] at hu
  exact ⟨hlisted, u, hload, hu.1, hu.2, hu.3, hu.4, hu.5, hu.6, hu.7, hu.8⟩

end Seeded

end

section Runs

/-- The segment of the session that made a snapshot. -/
def snapshotWriter : SegmentWriter :=
  (snapshotStore.log.wal.bind Wal.writer?).get (by decide +kernel)

/-- The disk after that session was killed with `k` bytes of its segment written. -/
def cutDisk (k : ℕ) : Disk memoryBlockset :=
  { openedDisk with
    io := snapshotStore.io
    segments := openedDisk.segments.insert snapshotWriter.name (snapshotWriter.written.take k) }

theorem facts_snapshotStore :
    (seededDisk.io.blobs.map Prod.fst).Nodup ∧ (snapshotStore.io.blobs.map Prod.fst).Nodup ∧
      openedStore.log.wal = some (Wal.create .perOp (nextSegmentId openedDisk.segments) []) ∧
      snapshotStore.log.wal = some (.perOp snapshotWriter) ∧
      snapshotWriter.synced = snapshotWriter.written.length ∧
      totalSize snapshotStore.io snapshotStore.maps < 2 ^ 64 ∧
      ∀ k ∈ [snapshotWriter.written.length - 1, snapshotWriter.written.length],
        nextSegmentId (cutDisk k).segments < 10 ^ 6 := by
  decide +kernel

theorem noCollision_cutDisk (k : ℕ) : memoryLaws.NoCollision (cutDisk k).io := by
  simp only [cutDisk]
  exact memoryLaws_noCollision facts_snapshotStore.2.1

theorem inLife_hostSnapshot :
    (StoreOp.createSnapshot (some hostName) ⟨0, 0⟩).InLife openedStore := by
  rintro n ⟨rfl⟩
  decide +kernel

theorem works_snapshotStore : Works true openedStore snapshotStore :=
  ⟨.createSnapshot (some hostName) ⟨0, 0⟩, inLife_hostSnapshot, (Option.some_get _).symm,
    fun _ => facts_snapshotStore.2.2.2.2.2.1⟩

theorem seeds_seededDisk : ∃ root, runSeed hostRoot .done emptyDisk = (.ok root, seededDisk) :=
  ⟨_, Prog.eq_ok_of_isSome (by decide +kernel)⟩

theorem opens_openedStore : openStore true .perOp seededDisk = (.ok openedStore, openedDisk) :=
  Prog.eq_ok_of_isSome (by decide +kernel)

theorem lifetime_refines_journal_snapshot :
    ∃ j, Journal.Run ⟨openedStore.maps.persistent, [.commit openedStore.maps.persistent], 1⟩ j ∧
      memoryLaws.Realizes true openedDisk snapshotStore j := by
  obtain ⟨root, hseed⟩ := seeds_seededDisk
  obtain ⟨hseeded, hsnapshot, -⟩ := facts_snapshotStore
  exact lifetime_refines_journal memoryBlockset_noIoErrors hseed rfl
    (memoryLaws_noCollision hseeded)
    (by decide) opens_openedStore (.single (.work works_snapshotStore))
    (memoryLaws_noCollision hsnapshot)

/-- A cut in the last record of the session. -/
theorem crash_recovers_cut : ∃ s'', openStore true .perOp
    (cutDisk (snapshotWriter.written.length - 1)) =
      (.ok s'', cutDisk (snapshotWriter.written.length - 1)) := by
  obtain ⟨root, hseed⟩ := seeds_seededDisk
  obtain ⟨hseeded, -, hopened, hwal, -, -, hnext⟩ := facts_snapshotStore
  have hcrash : Crash memoryLaws true openedDisk openedStore
      (cutDisk (snapshotWriter.written.length - 1)) :=
    .within works_snapshotStore hopened rfl hwal rfl (Nat.zero_le _)
  obtain ⟨j, j', s'', -, hopen, -⟩ := crash_recovers memoryBlockset_noIoErrors hseed rfl
    (memoryLaws_noCollision hseeded) (by decide) opens_openedStore .refl hcrash
    (noCollision_cutDisk _) (hnext _ List.mem_cons_self)
  exact ⟨s'', hopen⟩

/-- The store opened after that session ended without a loss. -/
def keptStore : Store memoryBlockset :=
  (openStore true .perOp (cutDisk snapshotWriter.written.length)).1.toOption.get (by decide +kernel)

theorem createSnapshot_snapshotStore : ∃ e, createSnapshot (some hostName) ⟨0, 0⟩ openedStore =
    ((.ok e, snapshotStore) : Except (Fault MetaError) SnapshotEntry × _) := by
  have hmade : ((createSnapshot (some hostName) ⟨0, 0⟩ : StoreM memoryBlockset SnapshotEntry)
      openedStore).1.toOption.isSome = true := by
    decide +kernel
  have hrun : Prog.exec (createSnapshot (some hostName) ⟨0, 0⟩ :
      StoreM memoryBlockset SnapshotEntry)
      openedStore = some snapshotStore := (Option.some_get _).symm
  exact ⟨_, (Prog.eq_ok_of_isSome hmade).trans (congrArg _ (Prog.snd_of_exec hrun))⟩

theorem snapshot_lasts_reopened : ∃ (e : SnapshotEntry) (u : Store memoryBlockset),
    (e.name = some hostName ∧ e ∈ listSnapshots keptStore.log) ∧
    Restores e.root openedStore.maps u := by
  obtain ⟨root, hseed⟩ := seeds_seededDisk
  obtain ⟨hseeded, -, hopened, hwal, hsynced, -, hnext⟩ := facts_snapshotStore
  obtain ⟨e, hmade⟩ := createSnapshot_snapshotStore
  have hcrash : Crash memoryLaws true openedDisk snapshotStore
      (cutDisk snapshotWriter.written.length) :=
    .idle hwal rfl ⟨_, hsynced.le, rfl⟩ (memoryLaws.le_refl _)
  have hopen : openStore true .perOp (cutDisk snapshotWriter.written.length) = (.ok keptStore, _) :=
    Prog.eq_ok_of_isSome _
  have hlater : Lifetime memoryLaws true (openedDisk, snapshotStore) (_, keptStore) :=
    .single (.restart hcrash (noCollision_cutDisk _) (by decide)
      (hnext _ (List.mem_cons_of_mem _ List.mem_cons_self)) hopen)
  obtain ⟨hlisted, u, -, hu⟩ := snapshot_lasts memoryBlockset_noIoErrors hseed rfl
    (memoryLaws_noCollision hseeded) (by decide) opens_openedStore .refl hopened
    inLife_hostSnapshot hmade hlater (memoryLaws_noCollision (by decide +kernel))
  obtain ⟨-, -, -, -, he, -⟩ := createSnapshot_eq_ok hmade
  exact ⟨e, u, ⟨congrArg SnapshotEntry.name he, hlisted⟩, hu⟩

end Runs

end SliceFs
