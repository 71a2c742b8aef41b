import SliceFs.Gc
import SliceFs.Seed
import SliceFs.StoreHistory

/-!
# The commands on a store

A command works on what a store keeps on disk: the blobs, the segment files and the lock
file of a mount. All commands but `seed` replay the segments, load the live root and log
to a new segment. `seed` starts from a new metadata store whatever there was before and
writes its root to the first segment.
-/
namespace SliceFs
open TreeMaps ProgramLogic

/-- What a store keeps on disk. -/
structure Disk (B : Blockset) where
  io : B.Io
  segments : SegmentDir
  mountLock : Bool

inductive CommandError where
  | mounted
  | segments (e : SegmentError)
  | noCommittedState
  | reconstruct (e : MetaError)
  | createSnapshot (e : MetaError)
  | snapshotNotFound (reference : Str)
  | walShutdown (e : WalError)
  | seed (e : MetaError)
  | gc (e : SegmentError)
deriving DecidableEq

/-- A reference to a snapshot is a version if it reads as a number, and else a name. -/
def findSnapshot (reference : Str) (l : StoreLog) : Option SnapshotEntry :=
  match Numerals.parseU64 reference.bytes with
  | some version => l.snapshotsByVersion[UInt64.ofNat version]?
  | none => do
    let version ← l.snapshotsByName[reference.bytes]?
    l.snapshotsByVersion[version]?

def listSnapshots (l : StoreLog) : List SnapshotEntry := l.snapshotsByVersion.toList.map Prod.snd

/-- The roots that a collector keeps: those of the snapshots and the last one. -/
def snapshotRoots (l : StoreLog) : List Digest224 :=
  (listSnapshots l).map SnapshotEntry.root ++ l.lastRoot.toList

/-- The name of the snapshot that a switch takes first. -/
def autoBeforeSwitch : Str :=
  ⟨[0x61, 0x75, 0x74, 0x6F, 0x2D, 0x62, 0x65, 0x66, 0x6F, 0x72, 0x65, 0x2D, 0x73, 0x77, 0x69, 0x74,
    0x63, 0x68], by decide, by decide⟩

section
variable {B : Blockset}

def onDisk {ε α : Type} (m : Prog B.Io ε α) : Prog (Disk B) ε α :=
  Prog.zoom Disk.io (fun io d => { d with io := io }) m

/-- The blobs and the log of a store are files; the end of a process writes the log's
buffer out. -/
def Disk.keep (d : Disk B) (s : Store B) : Disk B :=
  { d with
    io := s.io
    segments := match s.log.wal.bind Wal.writer? with
      | none => d.segments
      | some w => d.segments.insert w.name w.written }

/-- Works with a store until the end of the process. -/
def inStore {ε α : Type} (s : Store B) (m : Prog (Store B) ε α) : Prog (Disk B) ε α := fun d =>
  ((m s).1, d.keep (m s).2)

def refuseMounted : Prog (Disk B) CommandError Unit := do
  let locked ← Prog.read Disk.mountLock
  Prog.ensure (locked = false) .mounted

/-- The store of the live root, with the snapshots and a log in a new segment. -/
def openStore (overflowChecks : Bool) (config : WalConfig) :
    Prog (Disk B) CommandError (Store B) := do
  let replayed ← Prog.read fun d => loadStoreFromSegments d.segments
  let replay ← Prog.mapErr CommandError.segments (Prog.ofExcept replayed)
  let root ← Prog.ofOption replay.1 .noCommittedState
  let s ← Prog.mapErr CommandError.reconstruct (onDisk (loadFromRoot B overflowChecks root))
  let n ← Prog.read fun d => nextSegmentId d.segments
  pure ((do
    setSnapshots replay.2
    setWal (Wal.create config n []) : StoreM B Unit) s).2

def runSnapshotCreate (overflowChecks : Bool) (name : Option Str) (now : Now) :
    Prog (Disk B) CommandError SnapshotEntry := do
  refuseMounted
  let s ← openStore overflowChecks .perOp
  inStore s do
    let entry ← Prog.mapErr CommandError.createSnapshot (createSnapshot name now)
    Prog.mapErr CommandError.walShutdown shutdownWal
    pure entry

/-- The current state becomes a snapshot before the root of the chosen one is made live. -/
def switchSnapshot (reference : Str) (now : Now) :
    Prog (Store B) CommandError (SnapshotEntry × SnapshotEntry) := do
  let found ← readLog (findSnapshot reference)
  let target ← Prog.ofOption found (.snapshotNotFound reference)
  let auto ← Prog.mapErr CommandError.createSnapshot (createSnapshot (some autoBeforeSwitch) now)
  commitRoot target.root
  Prog.mapErr CommandError.walShutdown shutdownWal
  pure (target, auto)

def runSnapshotSwitch (overflowChecks : Bool) (reference : Str) (now : Now) :
    Prog (Disk B) CommandError (SnapshotEntry × SnapshotEntry) := do
  refuseMounted
  let s ← openStore overflowChecks .perOp
  inStore s (switchSnapshot reference now)

/-- A pass of the collector goes through the files in the order the directory lists them; a
file that cannot be read ends it, and the copies made before stay. -/
def compactAll : List FileName → Prog (Disk B) CommandError Unit
  | [] => pure ()
  | path :: paths => do
    let compacted ← Prog.read fun d =>
      compactSegment d.segments path ((parseSegmentId path).getD 0 + 100000)
    let segments ← Prog.mapErr CommandError.gc (Prog.ofExcept compacted)
    Prog.modify fun d => { d with segments := segments }
    compactAll paths

def runGc (order : List FileName) : Prog (Disk B) CommandError Unit := do
  refuseMounted
  let replayed ← Prog.read fun d => loadStoreFromSegments d.segments
  let _ ← Prog.mapErr CommandError.segments (Prog.ofExcept replayed)
  compactAll order

theorem compactAll_of_runGcInner {paths : List FileName} {d : Disk B} {dir : SegmentDir}
    (h : runGcInner paths d.segments = .ok dir) :
    compactAll paths d = (.ok (), { d with segments := dir }) := by
  induction paths generalizing d with
  | nil =>
      obtain rfl := Except.ok.inj h
      rfl
  | cons path paths ih =>
      rw [runGcInner] at h
      cases hcompact : compactSegment d.segments path ((parseSegmentId path).getD 0 + 100000) with
      | error e => simp [hcompact] at h
      | ok dir' =>
          simp only [hcompact] at h
          have hrest := ih (d := { d with segments := dir' }) h
          have hread : Prog.mapErr CommandError.gc (Prog.ofExcept (compactSegment d.segments path
              ((parseSegmentId path).getD 0 + 100000))) d = (.ok dir', d) := by
            rw [hcompact]
            rfl
          rw [compactAll]
          refine (Prog.bind_ok (Prog.read_apply _ d)).trans ((Prog.bind_ok hread).trans ?_)
          exact (Prog.bind_ok (Prog.modify_apply _ d)).trans hrest

/-- Seeding commits a new store; it has no log, and what remains of it are its blobs. -/
def seedRoot (source : SourceMeta) (tree : SeedTree) : Prog B.Io MetaError Digest224 := do
  let s ← Store.new B 0 0
  let p : Except (Fault MetaError) Digest224 × Store B := (do
    seed source tree
    commit : StoreM B Digest224) s
  Prog.modify fun _ => p.2.io
  Prog.ofResult p.1

def runSeed (source : SourceMeta) (tree : SeedTree) : Prog (Disk B) CommandError Digest224 := do
  let root ← Prog.mapErr CommandError.seed (onDisk (seedRoot source tree))
  Prog.modify fun d =>
    { d with segments := d.segments.insert (segmentName 1) (closedSegment 1 [.rootUpdate root]) }
  pure root

/-- What replay makes of the segment files that come before, or after, the first segment. -/
def replayBefore (dir : SegmentDir) : Except SegmentError Replay :=
  replayFiles (((segmentFiles dir).filter fun e =>
    decide (compare e.1 (segmentName 1) = .lt)).map Prod.snd) (none, [])

def replayAfter (dir : SegmentDir) : Except SegmentError Replay :=
  replayFiles (((segmentFiles dir).filter fun e =>
    decide (compare (segmentName 1) e.1 = .lt)).map Prod.snd) (none, [])

theorem replayFiles_append (a b : List Bytes) (acc : Replay) :
    replayFiles (a ++ b) acc = (replayFiles a acc).bind (replayFiles b) := by
  induction a generalizing acc with
  | nil => rfl
  | cons file a ih =>
      rw [List.cons_append, replayFiles, replayFiles]
      cases replayFile acc file with
      | error e => rfl
      | ok acc => exact ih acc

/-- What was replayed before shows only in the parts that come later files do not set. -/
theorem replayFile_eq (acc : Replay) (file : Bytes) :
    replayFile acc file =
      (replayFile (none, []) file).map fun p => (p.1.or acc.1, acc.2 ++ p.2) := by
  unfold replayFile
  split_ifs with h
  · simp [Except.map]
  · cases readSegment file with
    | error e => rfl
    | ok es => simp [Except.map, foldl_replayEntry]

theorem replayFiles_eq (files : List Bytes) (acc : Replay) :
    replayFiles files acc =
      (replayFiles files (none, [])).map fun p => (p.1.or acc.1, acc.2 ++ p.2) := by
  induction files generalizing acc with
  | nil => simp [replayFiles, Except.map]
  | cons file files ih =>
      rw [replayFiles, replayFiles, replayFile_eq]
      cases replayFile (none, []) file with
      | error e => rfl
      | ok p =>
          simp only [Except.map]
          rw [ih, ih p]
          cases replayFiles files (none, []) with
          | error e => rfl
          | ok q => simp [Except.map, Option.or_assoc]

theorem runSeed_segments {source : SourceMeta} {tree : SeedTree} {d d' : Disk B} {root : Digest224}
    (h : runSeed source tree d = (.ok root, d')) :
    d'.segments = d.segments.insert (segmentName 1) (closedSegment 1 [.rootUpdate root]) := by
  obtain ⟨r, d₁, hseed, h⟩ := Prog.bind_eq_ok h
  obtain ⟨hroot, rfl⟩ := Prod.mk.inj h
  obtain rfl : r = root := Except.ok.inj hroot
  have hd : d₁.segments = d.segments := by
    have hsnd : _ = d₁ := congrArg Prod.snd hseed
    rw [Prog.mapErr_snd] at hsnd
    rw [← hsnd]
    rfl
  rw [← hd]

theorem replayFile_closedSegment (acc : Replay) (n : ℕ) (root : Digest224) :
    replayFile acc (closedSegment n [.rootUpdate root]) = .ok (some root, acc.2) := by
  have hsettled : ∀ e ∈ [SegmentEntry.rootUpdate root], e.Settled := by
    simp only [List.mem_singleton, forall_eq]
    exact SegmentEntry.settled_rootUpdate root
  rw [replayFile_ok (by simp [closedSegment]) (readSegment_closedSegment n hsettled)]
  rfl

theorem load_insert_first (dir : SegmentDir) (root : Digest224) :
    loadStoreFromSegments (dir.insert (segmentName 1) (closedSegment 1 [.rootUpdate root])) =
      (replayBefore dir).bind fun p =>
        (replayAfter dir).map fun q => (q.1.or (some root), p.2 ++ q.2) := by
  rw [loadStoreFromSegments, segmentFiles_insert dir (isSegmentName_segmentName 1), List.map_append,
    List.map_cons, replayFiles_append, ← replayBefore]
  cases replayBefore dir with
  | error e => rfl
  | ok p =>
      simp only [Except.bind, replayFiles, replayFile_closedSegment]
      rw [replayFiles_eq]
      rfl

/-- Seeding takes effect exactly when the files before the first segment can be read and
those after it set no other root. -/
theorem load_runSeed_iff {source : SourceMeta} {tree : SeedTree} {d d' : Disk B} {root : Digest224}
    (h : runSeed source tree d = (.ok root, d')) :
    (∃ snaps, loadStoreFromSegments d'.segments = .ok (some root, snaps)) ↔
      (∃ p, replayBefore d.segments = .ok p) ∧
        ∃ r snaps, replayAfter d.segments = .ok (r, snaps) ∧ (r = none ∨ r = some root) := by
  rw [runSeed_segments h, load_insert_first]
  cases replayBefore d.segments with
  | error e => simp [Except.bind]
  | ok p =>
      cases replayAfter d.segments with
      | error e => simp [Except.bind, Except.map]
      | ok q =>
          obtain ⟨r, snaps⟩ := q
          cases r <;> simp [Except.bind, Except.map]

end

section Runs

def emptyDisk : Disk memoryBlockset := ⟨MemoryIo.empty, ∅, false⟩

def hostRoot : SourceMeta := ⟨0o755, 0, 0, 0, 0⟩

def hostName : Str := .a

/-- A store seeded from an empty directory. -/
def seededDisk : Disk memoryBlockset := (runSeed hostRoot .done emptyDisk).2

def openedStore : Store memoryBlockset :=
  (openStore true .perOp seededDisk).1.toOption.get (by decide +kernel)

/-- A mount of the seeded store that makes a directory and commits. -/
def mountedDisk : Disk memoryBlockset :=
  (inStore openedStore (do
    let _ ← createDirectory 1 hostName (dirInodeMeta hostRoot)
    commit : StoreM memoryBlockset Digest224) seededDisk).2

/-- A mount of the seeded store that changes nothing leaves a segment without entries. -/
def idleDisk : Disk memoryBlockset :=
  (inStore openedStore (shutdownWal : Prog (Store memoryBlockset) WalError Unit) seededDisk).2

/-- A directory with one file. -/
def hostTree : SeedTree := .file hostName hostRoot [1, 2, 3] (by decide) .done

theorem load_runSeed_iff_idleDisk :
    ∃ root d', runSeed hostRoot hostTree idleDisk = (.ok root, d') ∧
      (∃ snaps, loadStoreFromSegments d'.segments = .ok (some root, snaps)) ∧
      ¬ ∃ snaps, loadStoreFromSegments idleDisk.segments = .ok (some root, snaps) := by
  have h : runSeed hostRoot hostTree idleDisk = (.ok _, _) :=
    Prog.eq_ok_of_isSome (by decide +kernel)
  refine ⟨_, _, h, (load_runSeed_iff h).mpr ⟨⟨(none, []), by decide +kernel⟩,
    none, [], by decide +kernel, .inl rfl⟩, ?_⟩
  have hne : (loadStoreFromSegments idleDisk.segments).toOption.bind Prod.fst ≠
      (runSeed hostRoot hostTree idleDisk).1.toOption := by
    decide +kernel
  rintro ⟨snaps, hold⟩
  rw [hold] at hne
  exact hne (Option.some_get _)

/-- Seeding again after a commit of a mounted store is without effect. -/
theorem runSeed_mountedDisk : ∃ root d', runSeed hostRoot .done mountedDisk = (.ok root, d') ∧
    ¬ ∃ snaps, loadStoreFromSegments d'.segments = .ok (some root, snaps) := by
  have hne : (loadStoreFromSegments (runSeed hostRoot .done mountedDisk).2.segments).toOption.bind
      Prod.fst ≠ (runSeed hostRoot .done mountedDisk).1.toOption := by
    decide +kernel
  refine ⟨_, _, Prog.eq_ok_of_isSome (by decide +kernel), ?_⟩
  rintro ⟨snaps, h⟩
  rw [h] at hne
  exact hne (Option.some_get _)

end Runs

end SliceFs
