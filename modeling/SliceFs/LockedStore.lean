import SliceFs.LockPrograms
import SliceFs.Commands

/-!
# The locks of the metadata store

`DictMetadataStore` is shared between threads: each of its tables has a lock of its own, and
so have the backend, the log, the buffer and the writer of the log, the last root and the two
indexes of snapshots. Here every operation is the program that takes these locks where the
code takes them; what happens between two locks is one action. The two running counters are
atomics and need no lock.

Run alone, an operation does what the definitions of the single-threaded store say. A lock is
only taken over locks of a lower rank.

A panic gives back the locks of its thread. That it also poisons them is left out.
-/
namespace SliceFs
open TreeMaps ProgramLogic

/-- The locks of the store. -/
inductive Mutex where
  | inodeMap | io | inodeData | dirData | manifestData | xattrData | refcounts
  | wal | walBuffer | walWriter | lastRoot | byVersion | byName
deriving DecidableEq

instance Mutex.fintype : Fintype Mutex :=
  ⟨{inodeMap, io, inodeData, dirData, manifestData, xattrData, refcounts, wal, walBuffer,
    walWriter, lastRoot, byVersion, byName}, fun l => by cases l <;> decide⟩

/-- The allocator comes before the backend and the backend before the tables; the log comes
before its buffer and the buffer before the writer. -/
def Mutex.rank : Mutex → ℕ
  | inodeMap | wal => 0
  | io | walBuffer => 1
  | _ => 2

namespace Threads
open Locked

section Store
variable {B : Blockset} {ε : Type}

variable (B) in
/-- An operation of the store in a thread. -/
abbrev StoreT (α : Type) := Locked Mutex (Store B) MetaError α

def incrementRefcount (digest : Digest224) : Locked Mutex (Store B) ε Unit :=
  guarded .refcounts (SliceFs.incrementRefcount digest)

def decrementRefcount (digest : Digest224) : Locked Mutex (Store B) ε Unit :=
  guarded .refcounts (SliceFs.decrementRefcount digest)

def getRefcount (digest : Digest224) : Locked Mutex (Store B) ε UInt64 :=
  guarded .refcounts (SliceFs.getRefcount digest)

/-- The lock of the allocator is held to the end. -/
def createInode (inode : InodeMeta) : StoreT B UInt64 := holding .inodeMap do
  let ino ← ofProg allocateIno
  let digest ← guarded .io (onIo (B.withFsa (internInode B { inode with ino := ino })))
  ofProg (modifyMaps fun m =>
    { m with inodeMap := { m.inodeMap with map := m.inodeMap.map.insert ino digest } })
  guarded .inodeData (modifyMaps fun m => { m with inodeData := m.inodeData.insert ino digest })
  ofProg (modifyMaps fun m => { m with logicalBytes := m.logicalBytes + inode.size })
  ofProg (modifyMaps fun m => { m with inodeCount := m.inodeCount + 1 })
  pure ino

/-- The digest of an inode's record. -/
def inodeDigestOf (ino : UInt64) : StoreT B Digest224 := guarded .inodeData do
  let digest ← readMaps fun m => m.inodeData[ino]?
  Prog.ofOption digest (.notFound ino)

def getInode (ino : UInt64) : StoreT B InodeMeta := do
  let digest ← inodeDigestOf ino
  guarded .io (onIo (loadInode B digest))

def updateInode (inode : InodeMeta) : StoreT B Unit := do
  let oldDigest ← inodeDigestOf inode.ino
  let oldSize ← guarded .io (onIo (loadSize B oldDigest))
  let newDigest ← guarded .io (onIo (B.withFsa (internInode B inode)))
  guarded .inodeData (modifyMaps fun m =>
    { m with inodeData := m.inodeData.insert inode.ino newDigest })
  guarded .inodeMap (modifyMaps fun m =>
    { m with inodeMap := { m.inodeMap with map := m.inodeMap.map.insert inode.ino newDigest } })
  ofProg (modifyMaps fun m =>
    { m with
      logicalBytes :=
        if oldSize < inode.size then m.logicalBytes + (inode.size - oldSize)
        else saturatingSub m.logicalBytes (oldSize - inode.size) })

def deleteInode (ino : UInt64) : StoreT B Unit := do
  let digest ← inodeDigestOf ino
  let size ← guarded .io (onIo (loadSize B digest))
  guarded .inodeData (modifyMaps fun m => { m with inodeData := m.inodeData.erase ino })
  guarded .inodeMap (modifyMaps fun m =>
    { m with inodeMap := { m.inodeMap with map := m.inodeMap.map.erase ino } })
  ofProg (modifyMaps fun m => { m with logicalBytes := saturatingSub m.logicalBytes size })
  ofProg (modifyMaps fun m => { m with inodeCount := saturatingSub m.inodeCount 1 })

def dirDigestOf (ino : UInt64) : StoreT B Digest224 := guarded .dirData (SliceFs.dirDigestOf ino)

def setDir (ino : UInt64) (digest : Digest224) : StoreT B Unit :=
  guarded .dirData (SliceFs.setDir ino digest)

def addBacklink (parentIno : UInt64) : StoreT B Unit := do
  let parentMeta ← getInode parentIno
  ofProg (Prog.assert (parentMeta.nlinks.toNat + 1 < 2 ^ 32))
  updateInode { parentMeta with nlinks := parentMeta.nlinks + 1 }

/-- The records of a new directory and of its parent's entries. A thread that removed the
parent's table entry in the meantime makes this fail. -/
def internSubdirectory (ino parentIno : UInt64) (name : Str) (inode : InodeMeta) :
    StoreT B ((Digest224 × Digest224) × Digest224) := do
  let parentDirDigest ← dirDigestOf parentIno
  guarded .io do
    let newDir ← onIo (B.withFsa (internDirectory (inode.asDirectory ino) ino parentIno))
    let newParentDir ← onIo (addDirEntry B parentDirDigest name ino)
    pure (newDir, newParentDir)

/-- The number is taken and bound under the lock of the allocator. -/
def allocateDirectory (parentIno : UInt64) (name : Str) (inode : InodeMeta) :
    StoreT B (UInt64 × (Digest224 × Digest224) × Digest224) := holding .inodeMap do
  let ino ← ofProg allocateIno
  let dirs ← internSubdirectory ino parentIno name inode
  ofProg (modifyMaps fun m =>
    { m with inodeMap := { m.inodeMap with map := m.inodeMap.map.insert ino dirs.1.1 } })
  pure (ino, dirs)

/-- The tables learn of a new directory one after the other. -/
def bindDirectory (ino parentIno : UInt64) (dirs : (Digest224 × Digest224) × Digest224) :
    StoreT B Unit := do
  guarded .inodeData (modifyMaps fun m => { m with inodeData := m.inodeData.insert ino dirs.1.1 })
  setDir ino dirs.1.2
  setDir parentIno dirs.2
  addBacklink parentIno
  ofProg (modifyMaps fun m => { m with inodeCount := m.inodeCount + 1 })

def createDirectory (parentIno : UInt64) (name : Str) (inode : InodeMeta) : StoreT B UInt64 := do
  let parentMeta ← getInode parentIno
  ofProg (Prog.ensure parentMeta.isDir (.notADirectory parentIno))
  let _ ← dirDigestOf parentIno
  let new ← allocateDirectory parentIno name inode
  bindDirectory new.1 parentIno new.2
  pure new.1

def listDirectory (ino : UInt64) : StoreT B (List DirEntry) := do
  let digest ← dirDigestOf ino
  guarded .io (onIo (listDirEntries B digest))

def lookup (parentIno : UInt64) (name : Str) : StoreT B UInt64 := do
  let digest ← dirDigestOf parentIno
  guarded .io (Prog.mapErr (fun _ => .notFound 0) (onIo (lookupDirEntry B digest name)))

/-- Between the read of the old entry list and the write of the new one the table is not
locked. -/
def rewriteDir (parentIno : UInt64) (edit : Digest224 → Prog B.Io MetaError Digest224) :
    StoreT B Unit := do
  let digest ← dirDigestOf parentIno
  let newDigest ← guarded .io (onIo (edit digest))
  setDir parentIno newDigest

def link (parentIno : UInt64) (name : Str) (ino : UInt64) : StoreT B Unit :=
  rewriteDir parentIno fun digest => addDirEntry B digest name ino

def unlink (parentIno : UInt64) (name : Str) : StoreT B Unit :=
  rewriteDir parentIno fun digest => removeDirEntry B digest name

def setManifest (ino : UInt64) (blocks : List Digest224) : StoreT B Unit := do
  let digest ← guarded .io (onIo (B.withFsa (internManifest B blocks)))
  guarded .manifestData (modifyMaps fun m =>
    { m with manifestData := m.manifestData.insert ino digest })

def getManifest (ino : UInt64) : StoreT B (List Digest224) := do
  let digest ← guarded .manifestData do
    let digest ← readMaps fun m => m.manifestData[ino]?
    Prog.ofOption digest (.notFound ino)
  guarded .io (onIo (loadManifest B digest))

def setXattrs (ino : UInt64) (xattrs : Xattrs) : StoreT B Unit := do
  let digest ← guarded .io (onIo (B.withFsa (internXattrs B xattrs)))
  guarded .xattrData (modifyMaps fun m => { m with xattrData := m.xattrData.insert ino digest })

def loadXattrsOf (ino : UInt64) : StoreT B Xattrs := do
  let digest ← guarded .xattrData (readMaps fun m => m.xattrData[ino]?)
  digest.elim (pure []) fun digest => guarded .io (onIo (loadXattrs B digest))

/-- The digest of an inode's attributes. -/
def xattrDigestOf (ino : UInt64) : StoreT B Digest224 := guarded .xattrData do
  let digest ← readMaps fun m => m.xattrData[ino]?
  Prog.ofOption digest (.notFound ino)

def setXattr (ino : UInt64) (name : Str) (value : Bytes) : StoreT B Unit := do
  let xattrs ← loadXattrsOf ino
  setXattrs ino (setXattrEntry xattrs name value)

def getXattr (ino : UInt64) (name : Str) : StoreT B Bytes := do
  let digest ← xattrDigestOf ino
  let xattrs ← guarded .io (onIo (loadXattrs B digest))
  ofProg (Prog.ofOption (getXattrEntry xattrs name) (.notFound ino))

def listXattrs (ino : UInt64) : StoreT B (List Str) := do
  let xattrs ← loadXattrsOf ino
  pure (listXattrNames xattrs)

def removeXattr (ino : UInt64) (name : Str) : StoreT B Unit := do
  let digest ← xattrDigestOf ino
  let xattrs ← guarded .io (onIo (loadXattrs B digest))
  ofProg (Prog.ensure ((removeXattrEntry xattrs name).1 = true) (.notFound ino))
  setXattrs ino (removeXattrEntry xattrs name).2

/-- Strategies that hold entries back lock their buffer to log one, the others their
writer. -/
def underLogLock (m : Prog (Store B) ε Unit) : Option Wal → Locked Mutex (Store B) ε Unit
  | some (.perOp _) => guarded .walWriter m
  | some (.flushOnFsync _ _) => guarded .walBuffer m
  | some (.periodic _ _) => guarded .walBuffer m
  | some .noWal => ofProg m
  | none => ofProg m

/-- To flush, the buffer is locked first and then the writer. -/
def underFlushLock (m : Prog (Store B) ε Unit) : Option Wal → Locked Mutex (Store B) ε Unit
  | some (.perOp _) => guarded .walWriter m
  | some (.flushOnFsync _ _) => holding .walBuffer (guarded .walWriter m)
  | some (.periodic _ _) => holding .walBuffer (guarded .walWriter m)
  | some .noWal => ofProg m
  | none => ofProg m

/-- The log is locked for the whole call. -/
def logWalEntry (entry : SegmentEntry) : Locked Mutex (Store B) ε Unit := holding .wal do
  let wal ← ofProg (readLog StoreLog.wal)
  underLogLock (SliceFs.logWalEntry entry) wal

def flushWal : Locked Mutex (Store B) WalError Unit := holding .wal do
  let wal ← ofProg (readLog StoreLog.wal)
  underFlushLock SliceFs.flushWal wal

def shutdownWal : Locked Mutex (Store B) WalError Unit := holding .wal do
  let wal ← ofProg (readLog StoreLog.wal)
  underFlushLock SliceFs.shutdownWal wal

/-- The tables but the allocator's, each read under its own lock. -/
def readTables (inodeMap : InodeMap) : Locked Mutex (Store B) ε StoreMaps := do
  let inodeData ← guarded .inodeData (readMaps StoreMaps.inodeData)
  let dirData ← guarded .dirData (readMaps StoreMaps.dirData)
  let manifestData ← guarded .manifestData (readMaps StoreMaps.manifestData)
  let xattrData ← guarded .xattrData (readMaps StoreMaps.xattrData)
  let refcounts ← guarded .refcounts (readMaps StoreMaps.refcounts)
  pure ⟨inodeMap, inodeData, dirData, manifestData, xattrData, refcounts, 0, 0⟩

/-- The records of a commit. What is interned while the backend is locked is not seen by
others before the lock is given back, so it is one action at the end. The lock of the
allocator is given back as soon as its map is read. -/
def internTables : Locked Mutex (Store B) ε Digest224 := do
  acquire .inodeMap
  holding .io do
    let inodeMap ← ofProg (readMaps StoreMaps.inodeMap)
    release .inodeMap
    let maps ← readTables inodeMap
    ofProg (onIo (B.withFsa (internMaps B maps)))

/-- The tables are not read at one moment. -/
def commit : Locked Mutex (Store B) ε Digest224 := do
  let root ← internTables
  guarded .lastRoot (modifyLog fun l => { l with lastRoot := some root })
  logWalEntry (.rootUpdate root)
  pure root

def commitRoot (root : Digest224) : Locked Mutex (Store B) ε Unit := do
  guarded .lastRoot (modifyLog fun l => { l with lastRoot := some root })
  logWalEntry (.rootUpdate root)

/-- One more than the highest version. -/
def freshVersion : Prog (Store B) ε UInt64 := do
  let highest ← readLog nextVersion
  Prog.assert (highest ≠ u64Max)
  pure (highest + 1)

/-- The index of names gets an entry only for a snapshot with a name. -/
def indexName (entry : SnapshotEntry) : Option Str → Locked Mutex (Store B) ε Unit
  | none => pure ()
  | some n => guarded .byName (modifyLog fun l =>
      { l with snapshotsByName := l.snapshotsByName.insert n.bytes entry.version })

/-- The version is chosen under the lock of the index and entered under it later. -/
def createSnapshot (name : Option Str) (now : Now) : Locked Mutex (Store B) ε SnapshotEntry := do
  let root ← commit
  let version ← guarded .byVersion freshVersion
  let entry : SnapshotEntry := ⟨version, name, root, now.secs⟩
  logWalEntry (.snapshotRecord entry)
  guarded .byVersion (modifyLog fun l =>
    { l with snapshotsByVersion := l.snapshotsByVersion.insert entry.version entry })
  indexName entry name
  pure entry

def listSnapshots : Locked Mutex (Store B) ε (List SnapshotEntry) :=
  guarded .byVersion (readLog SliceFs.listSnapshots)

def snapshotOf (version : UInt64) : Locked Mutex (Store B) ε (Option SnapshotEntry) :=
  guarded .byVersion (readLog fun l => l.snapshotsByVersion[version]?)

/-- The lock of the names is given back before that of the versions is taken. -/
def findSnapshot (reference : Str) : Locked Mutex (Store B) ε (Option SnapshotEntry) :=
  (Numerals.parseU64 reference.bytes).elim
    (do
      let version ← guarded .byName (readLog fun l => l.snapshotsByName[reference.bytes]?)
      version.elim (pure none) snapshotOf)
    fun version => snapshotOf (UInt64.ofNat version)

def currentRoot : Locked Mutex (Store B) ε (Option Digest224) :=
  guarded .lastRoot (readLog StoreLog.lastRoot)

/-- A snapshot that is made between the two reads is not among the roots. -/
def snapshotRoots : Locked Mutex (Store B) ε (List Digest224) := do
  let roots ← guarded .byVersion
    (readLog fun l => (SliceFs.listSnapshots l).map SnapshotEntry.root)
  let last ← currentRoot
  pure (roots ++ last.toList)

end Store

section Alone
variable {B : Blockset} {ε : Type}

@[simp] theorem alone_incrementRefcount (digest : Digest224) :
    (incrementRefcount digest : Locked Mutex (Store B) ε Unit).alone =
      SliceFs.incrementRefcount digest :=
  alone_guarded _ _

@[simp] theorem alone_decrementRefcount (digest : Digest224) :
    (decrementRefcount digest : Locked Mutex (Store B) ε Unit).alone =
      SliceFs.decrementRefcount digest :=
  alone_guarded _ _

@[simp] theorem alone_getRefcount (digest : Digest224) :
    (getRefcount digest : Locked Mutex (Store B) ε UInt64).alone = SliceFs.getRefcount digest :=
  alone_guarded _ _

@[simp] theorem alone_createInode (inode : InodeMeta) :
    (createInode inode : StoreT B UInt64).alone = SliceFs.createInode inode := by
  simp only [createInode, alone_holding, alone_bind, alone_ofProg, alone_guarded, alone_pure]
  rfl

@[simp] theorem alone_getInode (ino : UInt64) :
    (getInode ino : StoreT B InodeMeta).alone = SliceFs.getInode ino := by
  simp only [getInode, inodeDigestOf, alone_bind, alone_guarded, bind_assoc]
  rfl

@[simp] theorem alone_updateInode (inode : InodeMeta) :
    (updateInode inode : StoreT B Unit).alone = SliceFs.updateInode inode := by
  simp only [updateInode, inodeDigestOf, alone_bind, alone_guarded, alone_ofProg, bind_assoc]
  rfl

@[simp] theorem alone_deleteInode (ino : UInt64) :
    (deleteInode ino : StoreT B Unit).alone = SliceFs.deleteInode ino := by
  simp only [deleteInode, inodeDigestOf, alone_bind, alone_guarded, alone_ofProg, bind_assoc]
  rfl

@[simp] theorem alone_dirDigestOf (ino : UInt64) :
    (dirDigestOf ino : StoreT B Digest224).alone = SliceFs.dirDigestOf ino :=
  alone_guarded _ _

@[simp] theorem alone_setDir (ino : UInt64) (digest : Digest224) :
    (setDir ino digest : StoreT B Unit).alone = SliceFs.setDir ino digest :=
  alone_guarded _ _

@[simp] theorem alone_addBacklink (parentIno : UInt64) :
    (addBacklink parentIno : StoreT B Unit).alone = SliceFs.addBacklink parentIno := by
  simp only [addBacklink, alone_bind, alone_getInode, alone_ofProg, alone_updateInode]
  rfl

@[simp] theorem alone_createDirectory (parentIno : UInt64) (name : Str) (inode : InodeMeta) :
    (createDirectory parentIno name inode : StoreT B UInt64).alone =
      SliceFs.createDirectory parentIno name inode := by
  simp only [createDirectory, allocateDirectory, internSubdirectory, bindDirectory, alone_bind,
    alone_getInode, alone_ofProg, alone_dirDigestOf, alone_holding, alone_guarded, alone_setDir,
    alone_addBacklink, alone_pure, SliceFs.createDirectory, insertDirectory, bind_assoc, pure_bind]
  rfl

@[simp] theorem alone_listDirectory (ino : UInt64) :
    (listDirectory ino : StoreT B (List DirEntry)).alone = SliceFs.listDirectory ino := by
  simp only [listDirectory, alone_bind, alone_dirDigestOf, alone_guarded]
  rfl

@[simp] theorem alone_lookup (parentIno : UInt64) (name : Str) :
    (lookup parentIno name : StoreT B UInt64).alone = SliceFs.lookup parentIno name := by
  simp only [lookup, alone_bind, alone_dirDigestOf, alone_guarded]
  rfl

theorem alone_rewriteDir (parentIno : UInt64) (edit : Digest224 → Prog B.Io MetaError Digest224) :
    (rewriteDir parentIno edit : StoreT B Unit).alone = SliceFs.rewriteDir parentIno edit := by
  simp only [rewriteDir, alone_bind, alone_dirDigestOf, alone_guarded, alone_setDir]
  rfl

@[simp] theorem alone_link (parentIno : UInt64) (name : Str) (ino : UInt64) :
    (link parentIno name ino : StoreT B Unit).alone = SliceFs.link parentIno name ino :=
  alone_rewriteDir _ _

@[simp] theorem alone_unlink (parentIno : UInt64) (name : Str) :
    (unlink parentIno name : StoreT B Unit).alone = SliceFs.unlink parentIno name :=
  alone_rewriteDir _ _

@[simp] theorem alone_setManifest (ino : UInt64) (blocks : List Digest224) :
    (setManifest ino blocks : StoreT B Unit).alone = SliceFs.setManifest ino blocks := by
  simp only [setManifest, alone_bind, alone_guarded]
  rfl

@[simp] theorem alone_getManifest (ino : UInt64) :
    (getManifest ino : StoreT B (List Digest224)).alone = SliceFs.getManifest ino := by
  simp only [getManifest, alone_bind, alone_guarded, bind_assoc]
  rfl

@[simp] theorem alone_setXattrs (ino : UInt64) (xattrs : Xattrs) :
    (setXattrs ino xattrs : StoreT B Unit).alone = SliceFs.setXattrs ino xattrs := by
  simp only [setXattrs, alone_bind, alone_guarded]
  rfl

@[simp] theorem alone_loadXattrsOf (ino : UInt64) :
    (loadXattrsOf ino : StoreT B Xattrs).alone = SliceFs.loadXattrsOf ino := by
  simp only [loadXattrsOf, alone_bind, alone_guarded, SliceFs.loadXattrsOf]
  congr 1
  funext digest
  cases digest with
  | none => rfl
  | some digest => exact alone_guarded _ _

@[simp] theorem alone_setXattr (ino : UInt64) (name : Str) (value : Bytes) :
    (setXattr ino name value : StoreT B Unit).alone = SliceFs.setXattr ino name value := by
  simp only [setXattr, alone_bind, alone_loadXattrsOf, alone_setXattrs]
  rfl

@[simp] theorem alone_getXattr (ino : UInt64) (name : Str) :
    (getXattr ino name : StoreT B Bytes).alone = SliceFs.getXattr ino name := by
  simp only [getXattr, xattrDigestOf, alone_bind, alone_guarded, alone_ofProg, bind_assoc]
  rfl

@[simp] theorem alone_listXattrs (ino : UInt64) :
    (listXattrs ino : StoreT B (List Str)).alone = SliceFs.listXattrs ino := by
  simp only [listXattrs, alone_bind, alone_loadXattrsOf, alone_pure]
  rfl

@[simp] theorem alone_removeXattr (ino : UInt64) (name : Str) :
    (removeXattr ino name : StoreT B Unit).alone = SliceFs.removeXattr ino name := by
  simp only [removeXattr, xattrDigestOf, alone_bind, alone_guarded, alone_ofProg, alone_setXattrs,
    bind_assoc]
  rfl

theorem alone_underLogLock (m : Prog (Store B) ε Unit) (wal : Option Wal) :
    (underLogLock m wal).alone = m := by
  rcases wal with _ | wal
  · rfl
  · cases wal <;> simp [underLogLock]

theorem alone_underFlushLock (m : Prog (Store B) ε Unit) (wal : Option Wal) :
    (underFlushLock m wal).alone = m := by
  rcases wal with _ | wal
  · rfl
  · cases wal <;> simp [underFlushLock]

@[simp] theorem alone_logWalEntry (entry : SegmentEntry) :
    (logWalEntry entry : Locked Mutex (Store B) ε Unit).alone = SliceFs.logWalEntry entry := by
  simp only [logWalEntry, alone_holding, alone_bind, alone_ofProg, alone_underLogLock]
  rfl

@[simp] theorem alone_flushWal :
    (flushWal : Locked Mutex (Store B) WalError Unit).alone = SliceFs.flushWal := by
  simp only [flushWal, alone_holding, alone_bind, alone_ofProg, alone_underFlushLock]
  rfl

@[simp] theorem alone_shutdownWal :
    (shutdownWal : Locked Mutex (Store B) WalError Unit).alone = SliceFs.shutdownWal := by
  simp only [shutdownWal, alone_holding, alone_bind, alone_ofProg, alone_underFlushLock]
  rfl

@[simp] theorem alone_commit :
    (commit : Locked Mutex (Store B) ε Digest224).alone = SliceFs.commit := by
  simp only [commit, internTables, readTables, alone_bind, alone_acquire, alone_release,
    alone_holding, alone_guarded, alone_ofProg, alone_pure, alone_logWalEntry, pure_bind,
    bind_assoc]
  rfl

@[simp] theorem alone_commitRoot (root : Digest224) :
    (commitRoot root : Locked Mutex (Store B) ε Unit).alone = SliceFs.commitRoot root := by
  simp only [commitRoot, alone_bind, alone_guarded, alone_logWalEntry]
  rfl

@[simp] theorem alone_createSnapshot (name : Option Str) (now : Now) :
    (createSnapshot name now : Locked Mutex (Store B) ε SnapshotEntry).alone =
      SliceFs.createSnapshot name now := by
  cases name with
  | none =>
      simp only [createSnapshot, freshVersion, indexName, alone_bind, alone_commit, alone_guarded,
        alone_logWalEntry, alone_pure, SliceFs.createSnapshot, bind_assoc, pure_bind]
  | some n =>
      simp only [createSnapshot, freshVersion, indexName, alone_bind, alone_commit, alone_guarded,
        alone_logWalEntry, alone_pure, SliceFs.createSnapshot, bind_assoc, pure_bind]
      rfl

@[simp] theorem alone_listSnapshots :
    (listSnapshots : Locked Mutex (Store B) ε (List SnapshotEntry)).alone =
      readLog SliceFs.listSnapshots :=
  alone_guarded _ _

@[simp] theorem alone_findSnapshot (reference : Str) :
    (findSnapshot reference : Locked Mutex (Store B) ε (Option SnapshotEntry)).alone =
      readLog (SliceFs.findSnapshot reference) := by
  funext s
  show _ = (Except.ok (SliceFs.findSnapshot reference s.log), s)
  rw [findSnapshot, SliceFs.findSnapshot]
  cases Numerals.parseU64 reference.bytes with
  | some version => rfl
  | none =>
      simp only [Option.elim_none, alone_bind, alone_guarded, alone_optionElim]
      show (s.log.snapshotsByName[reference.bytes]?.elim (pure none) fun version =>
        (snapshotOf version).alone) s = _
      cases s.log.snapshotsByName[reference.bytes]? <;> rfl

@[simp] theorem alone_currentRoot :
    (currentRoot : Locked Mutex (Store B) ε (Option Digest224)).alone = readLog StoreLog.lastRoot :=
  alone_guarded _ _

@[simp] theorem alone_snapshotRoots :
    (snapshotRoots : Locked Mutex (Store B) ε (List Digest224)).alone =
      readLog SliceFs.snapshotRoots := by
  simp only [snapshotRoots, alone_bind, alone_guarded, alone_currentRoot, alone_pure]
  rfl

end Alone

section Order
variable {B : Blockset} {ε α : Type}

instance orderly_under_inodeMap_io (m : Prog (Store B) ε α) :
    Orderly Mutex.rank {.inodeMap} (guarded .io m) :=
  orderly_guarded (by decide) m

instance orderly_under_inodeMap_inodeData (m : Prog (Store B) ε α) :
    Orderly Mutex.rank {.inodeMap} (guarded .inodeData m) :=
  orderly_guarded (by decide) m

instance orderly_under_inodeMap_dirData (m : Prog (Store B) ε α) :
    Orderly Mutex.rank {.inodeMap} (guarded .dirData m) :=
  orderly_guarded (by decide) m

instance orderly_incrementRefcount (digest : Digest224) :
    Orderly Mutex.rank ∅ (incrementRefcount digest : Locked Mutex (Store B) ε Unit) :=
  orderly_guarded_empty _ _

instance orderly_decrementRefcount (digest : Digest224) :
    Orderly Mutex.rank ∅ (decrementRefcount digest : Locked Mutex (Store B) ε Unit) :=
  orderly_guarded_empty _ _

instance orderly_getRefcount (digest : Digest224) :
    Orderly Mutex.rank ∅ (getRefcount digest : Locked Mutex (Store B) ε UInt64) :=
  orderly_guarded_empty _ _

instance orderly_createInode (inode : InodeMeta) :
    Orderly Mutex.rank ∅ (createInode inode : StoreT B UInt64) := by
  unfold createInode
  infer_instance

instance orderly_inodeDigestOf (ino : UInt64) :
    Orderly Mutex.rank ∅ (inodeDigestOf ino : StoreT B Digest224) :=
  orderly_guarded_empty _ _

instance orderly_getInode (ino : UInt64) :
    Orderly Mutex.rank ∅ (getInode ino : StoreT B InodeMeta) := by
  unfold getInode
  infer_instance

instance orderly_updateInode (inode : InodeMeta) :
    Orderly Mutex.rank ∅ (updateInode inode : StoreT B Unit) := by
  unfold updateInode
  infer_instance

instance orderly_deleteInode (ino : UInt64) :
    Orderly Mutex.rank ∅ (deleteInode ino : StoreT B Unit) := by
  unfold deleteInode
  infer_instance

instance orderly_dirDigestOf (ino : UInt64) :
    Orderly Mutex.rank ∅ (dirDigestOf ino : StoreT B Digest224) :=
  orderly_guarded_empty _ _

instance orderly_setDir (ino : UInt64) (digest : Digest224) :
    Orderly Mutex.rank ∅ (setDir ino digest : StoreT B Unit) :=
  orderly_guarded_empty _ _

instance orderly_addBacklink (parentIno : UInt64) :
    Orderly Mutex.rank ∅ (addBacklink parentIno : StoreT B Unit) := by
  unfold addBacklink
  infer_instance

instance orderly_allocateDirectory (parentIno : UInt64) (name : Str) (inode : InodeMeta) :
    Orderly Mutex.rank ∅ (allocateDirectory parentIno name inode : StoreT B _) := by
  unfold allocateDirectory internSubdirectory dirDigestOf
  infer_instance

instance orderly_bindDirectory (ino parentIno : UInt64)
    (dirs : (Digest224 × Digest224) × Digest224) :
    Orderly Mutex.rank ∅ (bindDirectory ino parentIno dirs : StoreT B Unit) := by
  unfold bindDirectory
  infer_instance

instance orderly_createDirectory (parentIno : UInt64) (name : Str) (inode : InodeMeta) :
    Orderly Mutex.rank ∅ (createDirectory parentIno name inode : StoreT B UInt64) := by
  unfold createDirectory
  infer_instance

instance orderly_listDirectory (ino : UInt64) :
    Orderly Mutex.rank ∅ (listDirectory ino : StoreT B (List DirEntry)) := by
  unfold listDirectory
  infer_instance

instance orderly_lookup (parentIno : UInt64) (name : Str) :
    Orderly Mutex.rank ∅ (lookup parentIno name : StoreT B UInt64) := by
  unfold lookup
  infer_instance

instance orderly_rewriteDir (parentIno : UInt64)
    (edit : Digest224 → Prog B.Io MetaError Digest224) :
    Orderly Mutex.rank ∅ (rewriteDir parentIno edit : StoreT B Unit) := by
  unfold rewriteDir
  infer_instance

instance orderly_link (parentIno : UInt64) (name : Str) (ino : UInt64) :
    Orderly Mutex.rank ∅ (link parentIno name ino : StoreT B Unit) :=
  orderly_rewriteDir _ _

instance orderly_unlink (parentIno : UInt64) (name : Str) :
    Orderly Mutex.rank ∅ (unlink parentIno name : StoreT B Unit) :=
  orderly_rewriteDir _ _

instance orderly_setManifest (ino : UInt64) (blocks : List Digest224) :
    Orderly Mutex.rank ∅ (setManifest ino blocks : StoreT B Unit) := by
  unfold setManifest
  infer_instance

instance orderly_getManifest (ino : UInt64) :
    Orderly Mutex.rank ∅ (getManifest ino : StoreT B (List Digest224)) := by
  unfold getManifest
  infer_instance

instance orderly_setXattrs (ino : UInt64) (xattrs : Xattrs) :
    Orderly Mutex.rank ∅ (setXattrs ino xattrs : StoreT B Unit) := by
  unfold setXattrs
  infer_instance

instance orderly_loadXattrsOf (ino : UInt64) :
    Orderly Mutex.rank ∅ (loadXattrsOf ino : StoreT B Xattrs) := by
  unfold loadXattrsOf
  infer_instance

instance orderly_setXattr (ino : UInt64) (name : Str) (value : Bytes) :
    Orderly Mutex.rank ∅ (setXattr ino name value : StoreT B Unit) := by
  unfold setXattr
  infer_instance

instance orderly_getXattr (ino : UInt64) (name : Str) :
    Orderly Mutex.rank ∅ (getXattr ino name : StoreT B Bytes) := by
  unfold getXattr xattrDigestOf
  infer_instance

instance orderly_listXattrs (ino : UInt64) :
    Orderly Mutex.rank ∅ (listXattrs ino : StoreT B (List Str)) := by
  unfold listXattrs
  infer_instance

instance orderly_removeXattr (ino : UInt64) (name : Str) :
    Orderly Mutex.rank ∅ (removeXattr ino name : StoreT B Unit) := by
  unfold removeXattr xattrDigestOf
  infer_instance

instance orderly_underLogLock (m : Prog (Store B) ε Unit) (wal : Option Wal) :
    Orderly Mutex.rank {.wal} (underLogLock m wal) := by
  rcases wal with _ | wal
  · exact orderly_ofProg m
  · cases wal with
    | perOp _ => exact orderly_guarded (by decide) m
    | flushOnFsync _ _ => exact orderly_guarded (by decide) m
    | periodic _ _ => exact orderly_guarded (by decide) m
    | noWal => exact orderly_ofProg m

instance orderly_underFlushLock (m : Prog (Store B) ε Unit) (wal : Option Wal) :
    Orderly Mutex.rank {.wal} (underFlushLock m wal) := by
  rcases wal with _ | wal
  · exact orderly_ofProg m
  · cases wal with
    | perOp _ => exact orderly_guarded (by decide) m
    | flushOnFsync _ _ => exact orderly_holding (by decide) (orderly_guarded (by decide) m)
    | periodic _ _ => exact orderly_holding (by decide) (orderly_guarded (by decide) m)
    | noWal => exact orderly_ofProg m

instance orderly_logWalEntry (entry : SegmentEntry) :
    Orderly Mutex.rank ∅ (logWalEntry entry : Locked Mutex (Store B) ε Unit) := by
  unfold logWalEntry
  infer_instance

instance orderly_flushWal :
    Orderly Mutex.rank ∅ (flushWal : Locked Mutex (Store B) WalError Unit) := by
  unfold flushWal
  infer_instance

instance orderly_shutdownWal :
    Orderly Mutex.rank ∅ (shutdownWal : Locked Mutex (Store B) WalError Unit) := by
  unfold shutdownWal
  infer_instance

instance orderly_readTables (inodeMap : InodeMap) :
    Orderly Mutex.rank {.io} (readTables inodeMap : Locked Mutex (Store B) ε StoreMaps) := by
  have htable {τ : Type} (l : Mutex) (hl : 1 < l.rank) (m : Prog (Store B) ε τ) :
      Orderly Mutex.rank {.io} (guarded l m) :=
    orderly_guarded (fun k hk => by rw [Finset.mem_singleton.mp hk]; exact hl) m
  have hinodes := htable .inodeData (by decide) (readMaps StoreMaps.inodeData)
  have hdirs := htable .dirData (by decide) (readMaps StoreMaps.dirData)
  have hmanifests := htable .manifestData (by decide) (readMaps StoreMaps.manifestData)
  have hxattrs := htable .xattrData (by decide) (readMaps StoreMaps.xattrData)
  have hcounts := htable .refcounts (by decide) (readMaps StoreMaps.refcounts)
  unfold readTables
  infer_instance

/-- The lock of the allocator is given back while the backend is still locked. -/
instance orderly_internTables :
    Orderly Mutex.rank ∅ (internTables : Locked Mutex (Store B) ε Digest224) := by
  have hrest (inodeMap : InodeMap) : Orderly Mutex.rank {.io} (do
      let maps ← readTables inodeMap
      ofProg (onIo (B.withFsa (internMaps B maps))) : Locked Mutex (Store B) ε Digest224) :=
    inferInstance
  refine ⟨⟨by decide, ⟨by decide, fun s => ⟨by decide, ?_⟩⟩⟩⟩
  have hio : (insert .io (insert .inodeMap ∅) : Finset Mutex).erase .inodeMap = {.io} := by decide
  rw [hio]
  exact (hrest s.maps.inodeMap).ordered.andThen fun r => ⟨by decide, Finset.erase_singleton _⟩

instance orderly_commit :
    Orderly Mutex.rank ∅ (commit : Locked Mutex (Store B) ε Digest224) := by
  unfold commit
  infer_instance

instance orderly_commitRoot (root : Digest224) :
    Orderly Mutex.rank ∅ (commitRoot root : Locked Mutex (Store B) ε Unit) := by
  unfold commitRoot
  infer_instance

instance orderly_createSnapshot (name : Option Str) (now : Now) :
    Orderly Mutex.rank ∅ (createSnapshot name now : Locked Mutex (Store B) ε SnapshotEntry) := by
  have hname (entry : SnapshotEntry) :
      Orderly Mutex.rank ∅ (indexName entry name : Locked Mutex (Store B) ε Unit) := by
    cases name <;> unfold indexName <;> infer_instance
  unfold createSnapshot
  infer_instance

instance orderly_listSnapshots :
    Orderly Mutex.rank ∅ (listSnapshots : Locked Mutex (Store B) ε (List SnapshotEntry)) :=
  orderly_guarded_empty _ _

instance orderly_snapshotOf (version : UInt64) :
    Orderly Mutex.rank ∅ (snapshotOf version : Locked Mutex (Store B) ε (Option SnapshotEntry)) :=
  orderly_guarded_empty _ _

instance orderly_findSnapshot (reference : Str) :
    Orderly Mutex.rank ∅
      (findSnapshot reference : Locked Mutex (Store B) ε (Option SnapshotEntry)) := by
  unfold findSnapshot
  infer_instance

instance orderly_currentRoot :
    Orderly Mutex.rank ∅ (currentRoot : Locked Mutex (Store B) ε (Option Digest224)) :=
  orderly_guarded_empty _ _

instance orderly_snapshotRoots :
    Orderly Mutex.rank ∅ (snapshotRoots : Locked Mutex (Store B) ε (List Digest224)) := by
  unfold snapshotRoots
  infer_instance

end Order

end Threads

end SliceFs
