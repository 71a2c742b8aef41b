import SliceFs.Commands
import SliceFs.SegmentReader

/-!
# Snapshots over sessions

The table of snapshots is in memory, as a map by version and one by name, and on disk as
records in the segments. A session that replays the segments rebuilds both maps. The
invariant ties the three together by the list of the snapshots made so far, oldest first:
its versions grow, the maps are its two indexes, and the segments together with what the
session logged hold its records.
-/
namespace SliceFs
open TreeMaps ProgramLogic SegmentEntry

/-- The two indexes of a list of snapshots: later ones take the place of earlier ones. -/
def byVersion (snaps : List SnapshotEntry) : Map UInt64 SnapshotEntry :=
  .ofList (snaps.map fun s => (s.version, s))

def byName (snaps : List SnapshotEntry) : Map Bytes UInt64 :=
  .ofList (snaps.filterMap fun s => s.name.map fun n => (n.bytes, s.version))

theorem byVersion_append (snaps : List SnapshotEntry) (e : SnapshotEntry) :
    byVersion (snaps ++ [e]) = (byVersion snaps).insert e.version e := by
  rw [byVersion, byVersion, List.map_append, Std.ExtTreeMap.ofList_eq_foldl,
    Std.ExtTreeMap.ofList_eq_foldl, List.foldl_append]
  rfl

theorem byName_append (snaps : List SnapshotEntry) (e : SnapshotEntry) :
    byName (snaps ++ [e]) = match e.name with
      | none => byName snaps
      | some n => (byName snaps).insert n.bytes e.version := by
  rw [byName, byName, List.filterMap_append, Std.ExtTreeMap.ofList_eq_foldl,
    Std.ExtTreeMap.ofList_eq_foldl, List.foldl_append]
  cases hn : e.name with
  | none => simp [hn]
  | some n => simp [hn]

/-- The log has these snapshots. -/
structure StoreLog.Lists (l : StoreLog) (snaps : List SnapshotEntry) : Prop where
  version : l.snapshotsByVersion = byVersion snaps
  name : l.snapshotsByName = byName snaps

/-- Versions grow along the list. -/
def Increasing (snaps : List SnapshotEntry) : Prop :=
  snaps.Pairwise fun a b => a.version < b.version

theorem toList_byVersion {snaps : List SnapshotEntry} (h : Increasing snaps) :
    (byVersion snaps).toList = snaps.map fun s => (s.version, s) := by
  refine toList_ofList ?_
  rw [List.pairwise_map]
  exact List.Pairwise.imp (fun hlt => Std.compare_eq_lt.mpr hlt) h

theorem listSnapshots_eq {l : StoreLog} {snaps : List SnapshotEntry} (hl : l.Lists snaps)
    (h : Increasing snaps) : listSnapshots l = snaps := by
  rw [listSnapshots, hl.version, toList_byVersion h, List.map_map]
  exact List.map_id _

theorem findSnapshot_congr {l l' : StoreLog} {snaps : List SnapshotEntry} (hl : l.Lists snaps)
    (hl' : l'.Lists snaps) (reference : Str) :
    findSnapshot reference l' = findSnapshot reference l := by
  unfold findSnapshot
  rw [hl.version, hl.name, hl'.version, hl'.name]

instance lawfulOrderMax_uint64 : Std.LawfulOrderMax UInt64 where
  max_le_iff a b c := by
    change (if a ≤ b then b else a) ≤ c ↔ a ≤ c ∧ b ≤ c
    simp only [UInt64.le_iff_toNat_le]
    split_ifs <;> omega
  max_eq_or a b := by
    change (if a ≤ b then b else a) = a ∨ (if a ≤ b then b else a) = b
    split_ifs
    · exact .inr rfl
    · exact .inl rfl

/-- The next version is above those in the table. -/
theorem version_le_nextVersion {l : StoreLog} {snaps : List SnapshotEntry} (hl : l.Lists snaps)
    {s : SnapshotEntry} (hs : s ∈ snaps) : s.version ≤ nextVersion l := by
  have hmem : s.version ∈ l.snapshotsByVersion.keys := by
    rw [hl.version, Std.ExtTreeMap.mem_keys, byVersion, Std.ExtTreeMap.mem_ofList, List.map_map]
    simpa using ⟨s, hs, rfl⟩
  obtain ⟨v, hv⟩ := Option.isSome_iff_exists.mp (List.isSome_max?_of_mem hmem)
  rw [nextVersion, hv]
  exact (List.max?_eq_some_iff.mp hv).2 _ hmem

theorem Increasing.append {l : StoreLog} {snaps : List SnapshotEntry} (h : Increasing snaps)
    (hl : l.Lists snaps) (hmax : nextVersion l ≠ u64Max) {e : SnapshotEntry}
    (he : e.version = nextVersion l + 1) : Increasing (snaps ++ [e]) := by
  rw [Increasing, List.pairwise_append]
  refine ⟨h, List.pairwise_singleton _ _, fun a ha b hb => ?_⟩
  obtain rfl := List.mem_singleton.mp hb
  have hle := version_le_nextVersion hl ha
  rw [he]
  exact UInt64.lt_of_le_of_lt hle (lt_add_one_of_ne_u64Max hmax)

/-- The log after a snapshot. -/
def StoreLog.logSnapshot (l : StoreLog) (e : SnapshotEntry) : StoreLog :=
  { l with
    wal := l.wal.map fun wal => (Wal.logMutation (.snapshotRecord e) wal).2
    snapshotsByVersion := l.snapshotsByVersion.insert e.version e
    snapshotsByName := match e.name with
      | none => l.snapshotsByName
      | some n => l.snapshotsByName.insert n.bytes e.version }

/-- What an operation may do to the log: it flushes it, logs a root, or logs a root and
makes a snapshot. -/
inductive StoreLog.Logs : StoreLog → List SnapshotEntry → StoreLog → Prop where
  | flushed {l l' : StoreLog} : l.Flushed l' → Logs l [] l'
  | root (l : StoreLog) (root : Digest224) : Logs l [] (l.logRoot root)
  | snapshot (l : StoreLog) (root : Digest224) {e : SnapshotEntry} : nextVersion l ≠ u64Max →
      e.version = nextVersion l + 1 → Logs l [e] ((l.logRoot root).logSnapshot e)

section
variable {B : Blockset} {ε : Type}

theorem commit_cases (s : Store B) :
    (∃ f s', commit s = ((.error f, s') : Except (Fault ε) Digest224 × _) ∧ s'.log = s.log) ∨
      ∃ r s', commit s = ((.ok r, s') : Except (Fault ε) Digest224 × _) ∧
      s'.log = s.log.logRoot r := by
  have hread : (readMaps id : Prog (Store B) ε StoreMaps) s = (.ok s.maps, s) := rfl
  rw [commit, Prog.bind_ok hread]
  cases hpush : (onIo (B.withFsa (internMaps B s.maps)) : Prog (Store B) ε Digest224) s with
  | mk r s₁ =>
      have hlog : s₁.log = s.log := by
        have hsnd : _ = s₁ := congrArg Prod.snd hpush
        rw [← hsnd]
        rfl
      cases r with
      | error f =>
          rw [Prog.bind_error hpush]
          exact .inl ⟨f, s₁, rfl, hlog⟩
      | ok r =>
          rw [Prog.bind_ok hpush]
          refine .inr ⟨r, _, rfl, ?_⟩
          rw [← hlog]
          rfl

/-- A snapshot after a commit that succeeded, unless the versions are used up. -/
theorem createSnapshot_eq {name : Option Str} {now : Now} {s s₁ : Store B} {r : Digest224}
    (hcommit : commit s = ((.ok r, s₁) : Except (Fault ε) Digest224 × _))
    (hlog : s₁.log = s.log.logRoot r) : (createSnapshot name now : Prog (Store B) ε _) s =
      if nextVersion s.log = u64Max then (.error .panic, s₁)
      else (.ok ⟨nextVersion s.log + 1, name, r, now.secs⟩, { s₁ with
        log := s₁.log.logSnapshot ⟨nextVersion s.log + 1, name, r, now.secs⟩ }) := by
  have hread : (readLog nextVersion : Prog (Store B) ε UInt64) s₁ =
      (.ok (nextVersion s.log), s₁) := by
    rw [readLog, Prog.read_apply, hlog]
    rfl
  rw [createSnapshot, Prog.bind_ok hcommit, Prog.bind_ok hread]
  split_ifs with hmax
  · exact Prog.assert_bind_of_not (by simpa using hmax) _ _
  · rw [Prog.assert_bind_of hmax]
    cases name <;> rfl

theorem createSnapshot_cases (name : Option Str) (now : Now) (s : Store B) :
    (∃ f s', createSnapshot name now s = ((.error f, s') : Except (Fault ε) SnapshotEntry × _) ∧
      (s'.log = s.log ∨ f = .panic)) ∨
    ∃ r s', createSnapshot name now s =
        ((.ok ⟨nextVersion s.log + 1, name, r, now.secs⟩, s') :
          Except (Fault ε) SnapshotEntry × _) ∧
      nextVersion s.log ≠ u64Max ∧
      s'.log = (s.log.logRoot r).logSnapshot ⟨nextVersion s.log + 1, name, r, now.secs⟩ := by
  rcases commit_cases (ε := ε) s with ⟨f, s₁, hcommit, hlog⟩ | ⟨r, s₁, hcommit, hlog⟩
  · rw [createSnapshot, Prog.bind_error hcommit]
    exact .inl ⟨f, s₁, rfl, .inl hlog⟩
  · rw [createSnapshot_eq hcommit hlog]
    split_ifs with hmax
    · exact .inl ⟨_, _, rfl, .inr rfl⟩
    · exact .inr ⟨r, _, rfl, hmax, by rw [← hlog]⟩

/-- The snapshot an operation made. -/
def StoreOp.made (s : Store B) : StoreOp → List SnapshotEntry
  | .createSnapshot name now =>
    ((SliceFs.createSnapshot name now : StoreM B SnapshotEntry) s).1.toOption.toList
  | _ => []

/-- What happens within a session: the log and the table are not replaced, and a name of a
snapshot is not empty and has fewer than `bound` bytes. -/
def StoreOp.InSession (bound : ℕ) : StoreOp → Prop
  | .createSnapshot name _ => ∀ n ∈ name, n.bytes ≠ [] ∧ n.bytes.length < bound
  | .setSnapshots _ => False
  | .setWal _ => False
  | _ => True

theorem StoreOp.logs (L : B.Laws) {op : StoreOp} {s s' : Store B} {bound : ℕ}
    (hop : op.InSession bound) (h : op.run s = some s') : s.log.Logs (op.made s) s'.log := by
  have key : ∀ {ε α : Type} (m : Prog (Store B) ε α) [hm : Growing L.growthQuiet m],
      Prog.exec m s = some s' → s.log.Logs [] s'.log := by
    intro ε α m hm hrun
    rw [← Prog.snd_of_exec hrun]
    exact .flushed (hm.le_run s).2
  unfold StoreOp.run at h
  cases op with
  | commit =>
      have hsnd := Prog.snd_of_exec h
      rcases commit_cases (ε := MetaError) s with ⟨f, s₁, hcommit, hlog⟩ | ⟨r, s₁, hcommit, hlog⟩
      · rw [← hsnd, hcommit, hlog]
        exact .flushed (.refl _)
      · rw [← hsnd, hcommit, hlog]
        exact .root _ r
  | commitRoot root =>
      rw [← Prog.snd_of_exec h]
      exact .root _ root
  | createSnapshot name now =>
      have hsnd := Prog.snd_of_exec h
      rcases createSnapshot_cases (ε := MetaError) name now s with
        ⟨f, s₁, hrun, hlog | rfl⟩ | ⟨r, s₁, hrun, hmax, hlog⟩
      · rw [StoreOp.made, ← hsnd, hrun, hlog]
        exact .flushed (.refl _)
      · exact absurd (h.symm.trans (Prog.exec_of_panic hrun)) (by simp)
      · rw [StoreOp.made, ← hsnd, hrun, hlog]
        exact .snapshot _ r hmax rfl
  | setSnapshots => exact hop.elim
  | setWal => exact hop.elim
  | incrementRefcount d => exact key _ h
  | decrementRefcount d => exact key _ h
  | createInode inode => exact key _ h
  | updateInode inode => exact key _ h
  | deleteInode ino => exact key _ h
  | createDirectory parent name inode => exact key _ h
  | link parent name ino => exact key _ h
  | unlink parent name => exact key _ h
  | setManifest ino blocks => exact key _ h
  | setXattr ino name value => exact key _ h
  | removeXattr ino name => exact key _ h
  | flushWal => exact key _ h
  | shutdownWal => exact key (m := SliceFs.flushWal) h

/-- The names whose length the record can hold. -/
def nameBound : ℕ := 2 ^ 32 - 48

theorem StoreOp.settled_made {op : StoreOp} (hop : op.InSession nameBound) (s : Store B) :
    ∀ e ∈ op.made s, (snapshotRecord e).Settled := by
  cases op with
  | createSnapshot name now =>
      intro e he
      rcases createSnapshot_cases (ε := MetaError) name now s with
        ⟨f, s₁, hrun, -⟩ | ⟨r, s₁, hrun, -⟩
      · rw [StoreOp.made, hrun] at he
        cases he
      · rw [StoreOp.made, hrun] at he
        obtain rfl := List.mem_singleton.mp he
        cases name with
        | none => exact ⟨by simp [Fits, payloadBytes, nameBytes, Str.empty], rfl⟩
        | some n =>
            obtain ⟨hne, hlen⟩ := hop n rfl
            refine ⟨?_, by simp [SegmentEntry.readBack, Option.filter_some, hne]⟩
            simp [Fits, payloadBytes, nameBytes]
            unfold nameBound at hlen
            omega
  | _ =>
      intro e he
      cases he

/-- The snapshots made so far are in the table, and their records are in the segments or
were logged. -/
structure Kept (d : Disk B) (l : StoreLog) (made : List SnapshotEntry) : Prop where
  increasing : Increasing made
  lists : l.Lists made
  logged : ∃ wal log es, l.wal = some wal ∧ wal.Logged (nextSegmentId d.segments) es ∧
    nextSegmentId d.segments < 10 ^ 6 ∧ Clean d.segments log ∧ (∀ e ∈ es, e.Settled) ∧
    snapshotsOf log.entries ++ snapshotsOf es = made

variable {d d' : Disk B} {l l' : StoreLog} {made snaps : List SnapshotEntry}

theorem Kept.flushed (h : Kept d l made) (hl : l.Flushed l') : Kept d l' made := by
  induction hl with
  | refl => exact h
  | flush _ hwal ih =>
      obtain ⟨increasing, ⟨hversion, hname⟩, wal, log, es, hwal', hlogged, hrest⟩ := ih
      obtain rfl := Option.some.inj (hwal.symm.trans hwal')
      exact ⟨increasing, ⟨hversion, hname⟩, _, log, es, rfl, hlogged.flushAndSync.1, hrest⟩

theorem Kept.logRoot (h : Kept d l made) (root : Digest224) : Kept d (l.logRoot root) made := by
  obtain ⟨increasing, ⟨hversion, hname⟩, wal, log, es, hwal, hlogged, hn, hclean, hes, hmade⟩ := h
  refine ⟨increasing, ⟨hversion, hname⟩, _, log, es ++ [.rootUpdate root], ?_,
    hlogged.logMutation (.rootUpdate root), hn, hclean, ?_, ?_⟩
  · rw [StoreLog.logRoot, hwal]
    rfl
  · simpa [or_imp, forall_and, settled_rootUpdate] using hes
  · rw [snapshotsOf_append, ← List.append_assoc, hmade]
    exact List.append_nil _

theorem Kept.logSnapshot (h : Kept d l made) {e : SnapshotEntry} (hmax : nextVersion l ≠ u64Max)
    (hversion : e.version = nextVersion l + 1) (he : (snapshotRecord e).Settled) :
    Kept d (l.logSnapshot e) (made ++ [e]) := by
  obtain ⟨increasing, lists, wal, log, es, hwal, hlogged, hn, hclean, hes, hmade⟩ := h
  refine ⟨increasing.append lists hmax hversion, ⟨?_, ?_⟩, _, log, es ++ [.snapshotRecord e], ?_,
    hlogged.logMutation (.snapshotRecord e), hn, hclean, ?_, ?_⟩
  · rw [byVersion_append, ← lists.version]
    rfl
  · rw [byName_append, ← lists.name]
    rfl
  · rw [StoreLog.logSnapshot, hwal]
    rfl
  · simpa [or_imp, forall_and, he] using hes
  · rw [snapshotsOf_append, ← List.append_assoc, hmade]
    rfl

theorem Kept.logs (h : Kept d l made) (hl : l.Logs snaps l')
    (hsnaps : ∀ e ∈ snaps, (snapshotRecord e).Settled) : Kept d l' (made ++ snaps) := by
  cases hl with
  | flushed hl =>
      rw [List.append_nil]
      exact h.flushed hl
  | root root =>
      rw [List.append_nil]
      exact h.logRoot root
  | snapshot root hmax hversion =>
      exact (h.logRoot root).logSnapshot hmax hversion (hsnaps _ List.mem_cons_self)

/-- A log that holds nothing back is on disk when the process ends. -/
theorem keep_segments {s : Store B} {wal : Wal} {es : List SegmentEntry}
    (hwal : s.log.wal = some wal) (hlogged : wal.Logged (nextSegmentId d.segments) es)
    (hheld : wal.held = []) : (d.keep s).segments = sessionDir d.segments es := by
  obtain ⟨w, hw, hname, -, hwritten⟩ := hlogged
  rw [hheld, framesBytes, List.flatMap_nil, List.append_nil] at hwritten
  simp only [Disk.keep, hwal, Option.bind_some, hw]
  rw [hname, hwritten, sessionDir]

theorem shutdownWal_eq {s : Store B} {wal : Wal} {n : ℕ} {es : List SegmentEntry}
    (hwal : s.log.wal = some wal) (hlogged : wal.Logged n es) :
    shutdownWal s =
      (.ok (), { s with log := { s.log with wal := some (Wal.flushAndSync wal).2 } }) := by
  simp only [shutdownWal, onWal, hwal, Wal.shutdown, hlogged.flushAndSync.2.2]

/-- Closing a session puts the records of all snapshots into the segments. -/
theorem Kept.closed {s : Store B} (h : Kept d s.log made) :
    ∃ log, Clean ((inStore s shutdownWal d).2 : Disk B).segments log ∧
      snapshotsOf log.entries = made := by
  obtain ⟨-, -, wal, log, es, hwal, hlogged, hn, hclean, hes, hmade⟩ := h
  have hdir : ((inStore s shutdownWal d).2 : Disk B).segments = sessionDir d.segments es := by
    rw [inStore, shutdownWal_eq hwal hlogged]
    exact keep_segments rfl hlogged.flushAndSync.1 hlogged.flushAndSync.2.1
  refine ⟨_, hdir ▸ hclean.session (fun e he => (hes e he).fits) hn, ?_⟩
  rw [SegmentLog.entries_insert (fun m hm => hclean.renders.lt_nextSegmentId hm),
    map_readBack_of_settled hes, snapshotsOf_append, hmade]

variable {overflowChecks : Bool} {config : WalConfig}

/-- What opening a store did. -/
theorem openStore_eq_ok {s : Store B} (h : openStore overflowChecks config d = (.ok s, d')) :
    ∃ root snaps s₀ io, loadStoreFromSegments d.segments = .ok (some root, snaps) ∧
      loadFromRoot B overflowChecks root d.io = (.ok s₀, io) ∧ d' = { d with io := io } ∧
      s = { s₀ with log := { s₀.log with
        wal := some (Wal.create config (nextSegmentId d.segments) [])
        snapshotsByVersion := byVersion snaps
        snapshotsByName := byName snaps } } := by
  obtain ⟨replayed, d₁, hread, h₁⟩ := Prog.bind_eq_ok h
  obtain ⟨hreplayed, rfl⟩ := Prod.mk.inj hread
  obtain ⟨⟨live, snaps⟩, d₂, hreplay, h₂⟩ := Prog.bind_eq_ok h₁
  obtain ⟨hok, rfl⟩ := Prog.ofExcept_eq_ok (Prog.mapErr_eq_ok hreplay)
  obtain ⟨root, d₃, hroot, h₃⟩ := Prog.bind_eq_ok h₂
  obtain ⟨hlive, rfl⟩ := Prog.ofOption_eq_ok hroot
  obtain ⟨s₀, d₄, hload, h₄⟩ := Prog.bind_eq_ok h₃
  obtain ⟨hs₀, rfl⟩ := Prod.mk.inj (Prog.mapErr_eq_ok hload)
  obtain ⟨hs, rfl⟩ := Prod.mk.inj h₄
  obtain rfl : live = some root := hlive
  exact ⟨root, snaps, s₀, _, (Except.ok.inj hreplayed).trans hok, Prod.ext hs₀ rfl, rfl,
    (Except.ok.inj hs).symm⟩

theorem openStore_of_load {root : Digest224} {s₀ : Store B} {io : B.Io} (config : WalConfig)
    (hload : loadStoreFromSegments d.segments = .ok (some root, snaps))
    (hroot : loadFromRoot B overflowChecks root d.io = (.ok s₀, io)) :
    openStore overflowChecks config d = (.ok { s₀ with log := { s₀.log with
      wal := some (Wal.create config (nextSegmentId d.segments) [])
      snapshotsByVersion := byVersion snaps
      snapshotsByName := byName snaps } }, { d with io := io }) := by
  have hread : (Prog.read fun d : Disk B => loadStoreFromSegments d.segments :
      Prog (Disk B) CommandError _) d = (.ok (.ok (some root, snaps)), d) := by
    rw [Prog.read_apply, hload]
  have hstore : Prog.mapErr CommandError.reconstruct
      (onDisk (loadFromRoot B overflowChecks root)) d = (.ok s₀, { d with io := io }) := by
    refine Prog.mapErr_ok _ ?_
    rw [onDisk, Prog.zoom, hroot]
  rw [openStore, Prog.bind_ok hread, Prog.ofExcept_ok,
    Prog.bind_ok (Prog.mapErr_ok _ (Prog.pure_apply _ _)), Prog.ofOption_some,
    Prog.bind_ok (Prog.pure_apply _ _), Prog.bind_ok hstore]
  rfl

/-- A session that has just replayed the segments. -/
theorem kept_of_openStore {s : Store B} (h : openStore overflowChecks config d = (.ok s, d'))
    (hconfig : config ≠ .noWal) (hn : nextSegmentId d.segments < 10 ^ 6) {log : SegmentLog}
    (hclean : Clean d.segments log) (hmade : Increasing (snapshotsOf log.entries)) :
    Kept d' s.log (snapshotsOf log.entries) := by
  obtain ⟨root, snaps, s₀, io, hload, -, rfl, rfl⟩ := openStore_eq_ok h
  rw [hclean.renders.load] at hload
  obtain rfl : snapshotsOf log.entries = snaps := (Prod.mk.inj (Except.ok.inj hload)).2
  exact ⟨hmade, ⟨rfl, rfl⟩, _, log, [], rfl, Wal.logged_create hconfig _, hn, hclean, nofun,
    List.append_nil _⟩

/-- The next session: the log is shut down, the segments are replayed. -/
def reopen (overflowChecks : Bool) (config : WalConfig) (s : Store B) :
    Prog (Disk B) CommandError (Store B) := do
  inStore s (Prog.mapErr CommandError.walShutdown shutdownWal)
  openStore overflowChecks config

/-- Sessions that work on a store, one after the other, with the snapshots they made. The
first one finds a store without snapshots, and every segment gets a number of six digits. -/
inductive Sessions (overflowChecks : Bool) (bound : ℕ) :
    Disk B → Store B → List SnapshotEntry → Prop where
  | start {d d' : Disk B} {s : Store B} {config : WalConfig} {log : SegmentLog} :
      Clean d.segments log → snapshotsOf log.entries = [] → config ≠ .noWal →
      nextSegmentId d.segments < 10 ^ 6 → openStore overflowChecks config d = (.ok s, d') →
      Sessions overflowChecks bound d' s []
  | op {d : Disk B} {s s' : Store B} {made : List SnapshotEntry} (op : StoreOp) :
      Sessions overflowChecks bound d s made → op.InSession bound → op.run s = some s' →
      Sessions overflowChecks bound d s' (made ++ op.made s)
  | reopen {d d' : Disk B} {s s' : Store B} {made : List SnapshotEntry} {config : WalConfig} :
      Sessions overflowChecks bound d s made → config ≠ .noWal →
      reopen overflowChecks config s d = (.ok s', d') → nextSegmentId d'.segments < 10 ^ 6 →
      Sessions overflowChecks bound d' s' made

theorem Kept.reopen {s s' : Store B} (h : Kept d s.log made) (hconfig : config ≠ .noWal)
    (hopen : reopen overflowChecks config s d = (.ok s', d'))
    (hn : nextSegmentId d'.segments < 10 ^ 6) : Kept d' s'.log made := by
  obtain ⟨_, d₁, hclose, hopen⟩ := Prog.bind_eq_ok hopen
  obtain ⟨log, hclean, rfl⟩ := h.closed
  have hd₁ : ((inStore s shutdownWal d).2 : Disk B) = d₁ := by
    have hsnd : _ = d₁ := congrArg Prod.snd hclose
    rw [← hsnd, inStore, inStore, Prog.mapErr_snd]
  rw [hd₁] at hclean
  have hsegments : d'.segments = d₁.segments := by
    obtain ⟨root, snaps, s₀, io, -, -, rfl, -⟩ := openStore_eq_ok hopen
    rfl
  rw [hsegments] at hn
  exact kept_of_openStore hopen hconfig hn hclean h.increasing

theorem Sessions.kept (L : B.Laws) {s : Store B} (h : Sessions overflowChecks nameBound d s made) :
    Kept d s.log made := by
  induction h with
  | start hclean hnone hconfig hn hopen =>
      rw [← hnone]
      exact kept_of_openStore hopen hconfig hn hclean (hnone ▸ List.Pairwise.nil)
  | op op _ hop hrun ih => exact ih.logs (op.logs L hop hrun) (op.settled_made hop _)
  | reopen _ hconfig hopen hn ih => exact ih.reopen hconfig hopen hn

/-- Versions grow, the table lists all snapshots made, and replaying the segments gives the
same table again. -/
theorem snapshots_survive (L : B.Laws) {s : Store B}
    (h : Sessions overflowChecks nameBound d s made) :
    made.Pairwise (fun a b => a.version < b.version) ∧ listSnapshots s.log = made ∧
      (∃ root, loadStoreFromSegments ((inStore s shutdownWal d).2 : Disk B).segments =
        .ok (root, made)) ∧
      ∀ config s' d', config ≠ .noWal → reopen overflowChecks config s d = (.ok s', d') →
        nextSegmentId d'.segments < 10 ^ 6 →
        listSnapshots s'.log = made ∧
          ∀ reference, findSnapshot reference s'.log = findSnapshot reference s.log := by
  have hkept := h.kept L
  refine ⟨hkept.increasing, listSnapshots_eq hkept.lists hkept.increasing, ?_,
    fun config s' d' hconfig hopen hn => ?_⟩
  · obtain ⟨log, hclean, hmade⟩ := hkept.closed
    rw [hclean.renders.load, hmade]
    exact ⟨_, rfl⟩
  · have hkept' := hkept.reopen hconfig hopen hn
    exact ⟨listSnapshots_eq hkept'.lists hkept'.increasing,
      findSnapshot_congr hkept.lists hkept'.lists⟩

end

section Runs

/-- The disk and the store of a session on the seeded store that made a snapshot named `a`. -/
def openedDisk : Disk memoryBlockset := (openStore true .perOp seededDisk).2

def snapshotStore : Store memoryBlockset :=
  ((StoreOp.createSnapshot (some hostName) ⟨0, 0⟩).run openedStore).get (by decide +kernel)

theorem clean_seededDisk : ∃ log, Clean seededDisk.segments log ∧ snapshotsOf log.entries = [] := by
  have hseed : runSeed hostRoot .done emptyDisk = (.ok _, seededDisk) :=
    Prog.eq_ok_of_isSome (by decide +kernel)
  rw [runSeed_segments hseed]
  exact ⟨_, clean_seededDir _, by decide +kernel⟩

theorem segments_openedDisk : openedDisk.segments = seededDisk.segments := by
  have hopen : openStore true .perOp seededDisk = (.ok openedStore, openedDisk) :=
    Prog.eq_ok_of_isSome (by decide +kernel)
  obtain ⟨root, snaps, s₀, io, -, -, hd, -⟩ := openStore_eq_ok hopen
  rw [hd]

theorem sessions_openedStore (bound : ℕ) : Sessions true bound openedDisk openedStore [] := by
  obtain ⟨log, hclean, hnone⟩ := clean_seededDisk
  have hopen : openStore true .perOp seededDisk = (.ok openedStore, openedDisk) :=
    Prog.eq_ok_of_isSome (by decide +kernel)
  exact .start hclean hnone (by decide) (by decide +kernel) hopen

theorem sessions_snapshotStore : Sessions true nameBound openedDisk snapshotStore
    ((StoreOp.createSnapshot (some hostName) ⟨0, 0⟩).made openedStore) := by
  have hop : (StoreOp.createSnapshot (some hostName) ⟨0, 0⟩).InSession nameBound := by
    rintro n ⟨rfl⟩
    decide +kernel
  have hrun : (StoreOp.createSnapshot (some hostName) ⟨0, 0⟩).run openedStore =
      some snapshotStore :=
    (Option.some_get _).symm
  have h := (sessions_openedStore nameBound).op _ hop hrun
  rwa [List.nil_append] at h

theorem snapshots_survive_reopened : ∃ s' d',
    reopen true .perOp snapshotStore openedDisk = (.ok s', d') ∧
      (listSnapshots s'.log).map SnapshotEntry.name = [some hostName] := by
  have hopen : reopen true .perOp snapshotStore openedDisk = (.ok _, _) :=
    Prog.eq_ok_of_isSome (by decide +kernel)
  obtain ⟨-, -, -, h⟩ := snapshots_survive memoryLaws sessions_snapshotStore
  refine ⟨_, _, hopen, ?_⟩
  rw [(h .perOp _ _ (by decide) hopen (by decide +kernel)).1]
  decide +kernel

/-- The commit of a session that did nothing. -/
def recommitted : Store memoryBlockset :=
  ((commit : StoreM memoryBlockset Digest224) openedStore).2

def recommittedRoot : Digest224 :=
  ((commit : StoreM memoryBlockset Digest224) openedStore).1.toOption.get (by decide +kernel)

def lostSnapshot : SnapshotEntry := ⟨1, some longName, recommittedRoot, 0⟩

def lostStore : Store memoryBlockset :=
  { recommitted with log := recommitted.log.logSnapshot lostSnapshot }

theorem log_recommitted : recommitted.log = openedStore.log.logRoot recommittedRoot := by
  decide +kernel

theorem sessions_lostStore : Sessions true (2 ^ 63) openedDisk lostStore [lostSnapshot] := by
  have hcommit : (commit : StoreM memoryBlockset Digest224) openedStore =
      (.ok recommittedRoot, recommitted) :=
    Prog.eq_ok_of_isSome (by decide +kernel)
  have hversion : nextVersion openedStore.log = 0 := by decide +kernel
  have hcreate : (createSnapshot (some longName) ⟨0, 0⟩ : StoreM memoryBlockset SnapshotEntry)
      openedStore = (.ok lostSnapshot, lostStore) := by
    rw [createSnapshot_eq hcommit log_recommitted, hversion, if_neg (by decide)]
    rfl
  have hop : (StoreOp.createSnapshot (some longName) ⟨0, 0⟩).InSession (2 ^ 63) := by
    rintro n ⟨rfl⟩
    rw [← List.length_pos_iff, length_longName]
    norm_num
  have hrun : (StoreOp.createSnapshot (some longName) ⟨0, 0⟩).run openedStore = some lostStore := by
    rw [StoreOp.run, Prog.exec, hcreate]
  have hmade : (StoreOp.createSnapshot (some longName) ⟨0, 0⟩).made openedStore =
      [lostSnapshot] := by
    rw [StoreOp.made, hcreate]
    rfl
  have h := (sessions_openedStore (2 ^ 63)).op _ hop hrun
  rwa [hmade, List.nil_append] at h

/-- The segment of that session reads as its root update alone. -/
theorem readSegment_lost (n : ℕ) : readSegment (headerBytes n ++
    framesBytes [.rootUpdate recommittedRoot, .snapshotRecord lostSnapshot]) =
      .ok [.rootUpdate recommittedRoot] := by
  have hstop : readAll (snapshotRecord lostSnapshot).frameBytes = [] :=
    readAll_of_stop (readStep_wrapped length_longName)
  have hread : ∀ rest, readAll ((rootUpdate recommittedRoot).frameBytes ++ rest) =
      .rootUpdate recommittedRoot :: readAll rest :=
    fun rest => readAll_of_yield (readStep_frameBytes_append (settled_rootUpdate _).fits rest)
  rw [readSegment_headerBytes_append, framesBytes, List.flatMap_cons, List.flatMap_singleton, hread,
    hstop]

/-- The record of a snapshot with that name is not read back. -/
theorem longName_lost : ∃ (d d' : Disk memoryBlockset) (s s' : Store memoryBlockset)
    (made : List SnapshotEntry), Sessions true (2 ^ 63) d s made ∧
      reopen true .perOp s d = (.ok s', d') ∧ made ≠ [] ∧ listSnapshots s'.log = [] := by
  obtain ⟨log, hclean, hnone⟩ := clean_seededDisk
  obtain ⟨wal, hwal, hlogged⟩ : ∃ wal, lostStore.log.wal = some wal ∧
      wal.Logged (nextSegmentId openedDisk.segments)
        [.rootUpdate recommittedRoot, .snapshotRecord lostSnapshot] := by
    have hopened : openedStore.log.wal =
        some (Wal.create .perOp (nextSegmentId openedDisk.segments) []) := by
      decide +kernel
    refine ⟨_, ?_, ((Wal.logged_create (by decide : WalConfig.perOp ≠ .noWal) _).logMutation
      _).logMutation _⟩
    rw [lostStore, log_recommitted, StoreLog.logSnapshot, StoreLog.logRoot, hopened]
    rfl
  have hshutdown := shutdownWal_eq hwal hlogged
  set d₁ : Disk memoryBlockset := openedDisk.keep { lostStore with
    log := { lostStore.log with wal := some (Wal.flushAndSync wal).2 } } with hd₁
  have hload : loadStoreFromSegments d₁.segments = .ok (some recommittedRoot, []) := by
    have hsegments : d₁.segments = sessionDir openedDisk.segments
        [.rootUpdate recommittedRoot, .snapshotRecord lostSnapshot] :=
      keep_segments rfl hlogged.flushAndSync.1 hlogged.flushAndSync.2.1
    rw [hsegments, segments_openedDisk,
      hclean.renders.load_session (by decide +kernel) (readSegment_lost _), hnone]
    rfl
  have hio : d₁.io = recommitted.io := by
    rw [hd₁, Disk.keep, lostStore]
  obtain ⟨s₀, io, hroot⟩ : ∃ s₀ io,
      loadFromRoot memoryBlockset true recommittedRoot d₁.io = (.ok s₀, io) := by
    rw [hio]
    exact ⟨_, _, Prog.eq_ok_of_isSome (by decide +kernel)⟩
  have hclose : inStore lostStore (Prog.mapErr CommandError.walShutdown shutdownWal) openedDisk =
      (.ok (), d₁) := by
    rw [inStore, Prog.mapErr_ok _ hshutdown]
  have hreopen : reopen true .perOp lostStore openedDisk = openStore true .perOp d₁ :=
    Prog.bind_ok hclose
  rw [openStore_of_load .perOp hload hroot] at hreopen
  have hlist : ∀ (s₀ : Store memoryBlockset) (wal : Option Wal), listSnapshots
      { s₀.log with wal := wal, snapshotsByVersion := byVersion [], snapshotsByName := byName [] } =
        [] :=
    fun _ _ => rfl
  exact ⟨openedDisk, _, lostStore, _, [lostSnapshot], sessions_lostStore, hreopen,
    List.cons_ne_nil _ _, hlist s₀ _⟩

end Runs

end SliceFs
