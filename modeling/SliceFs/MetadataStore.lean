import SliceFs.Directory
import SliceFs.Xattr
import SliceFs.Wal

/-!
# The metadata store

`DictMetadataStore` keeps maps from inode numbers to digests in memory and the
records themselves in the content-addressed backend. The model groups its fields in
three: the backend, the maps that `commit` serializes (with the two running
counters), and the log with what concerns it. Locks guard single fields and calls are
run one after the other here.

Integer overflow is a panic, as in a build with overflow checks; atomic counters wrap.
-/
namespace SliceFs
open TreeMaps ProgramLogic

structure StoreMaps where
  inodeMap : InodeMap
  inodeData : Map UInt64 Digest224
  dirData : Map UInt64 Digest224
  manifestData : Map UInt64 Digest224
  xattrData : Map UInt64 Digest224
  refcounts : Map Digest224 UInt64
  logicalBytes : UInt64
  inodeCount : UInt64
deriving DecidableEq

structure StoreLog where
  wal : Option Wal
  lastRoot : Option Digest224
  snapshotsByVersion : Map UInt64 SnapshotEntry
  snapshotsByName : Map Bytes UInt64
deriving DecidableEq

def StoreLog.empty : StoreLog := ⟨none, none, ∅, ∅⟩

structure Store (B : Blockset) where
  io : B.Io
  maps : StoreMaps
  log : StoreLog

section Combinators
variable {B : Blockset} {ε α : Type}

def onIo (m : Prog B.Io ε α) : Prog (Store B) ε α :=
  Prog.zoom Store.io (fun io s => { s with io := io }) m

def readMaps (f : StoreMaps → α) : Prog (Store B) ε α := Prog.read fun s => f s.maps

def modifyMaps (f : StoreMaps → StoreMaps) : Prog (Store B) ε Unit :=
  Prog.modify fun s => { s with maps := f s.maps }

def readLog (f : StoreLog → α) : Prog (Store B) ε α := Prog.read fun s => f s.log

def modifyLog (f : StoreLog → StoreLog) : Prog (Store B) ε Unit :=
  Prog.modify fun s => { s with log := f s.log }

/-- What flushing the log, any number of times, makes of it. -/
inductive StoreLog.Flushed : StoreLog → StoreLog → Prop where
  | refl (l : StoreLog) : Flushed l l
  | flush {l l' : StoreLog} {wal : Wal} : Flushed l l' → l'.wal = some wal →
      Flushed l { l' with wal := some (Wal.flushAndSync wal).2 }

theorem StoreLog.Flushed.trans {a b c : StoreLog} (h₁ : Flushed a b) (h₂ : Flushed b c) :
    Flushed a c := by
  induction h₂ with
  | refl => exact h₁
  | flush _ hw ih => exact ih.flush hw

/-- The store grows as its backend. -/
def Blockset.Laws.growthStore (L : B.Laws) : Growth (Store B) := L.growth.comap Store.io

/-- The growth of the operations that log nothing: the log is at most flushed. -/
def Blockset.Laws.growthQuiet (L : B.Laws) : Growth (Store B) where
  le s s' := L.le s.io s'.io ∧ s.log.Flushed s'.log
  good s := L.NoCollision s.io
  le_refl s := ⟨L.le_refl s.io, .refl s.log⟩
  le_trans h₁ h₂ := ⟨L.le_trans h₁.1 h₂.1, h₁.2.trans h₂.2⟩
  good_of_le hle h := h.of_le hle.1

variable (L : B.Laws)

instance growingStore_of_quiet {m : Prog (Store B) ε α} [h : Growing L.growthQuiet m] :
    Growing L.growthStore m :=
  ⟨fun s => (h.le_run s).1⟩

theorem Blockset.Laws.part_onIo :
    L.growthQuiet.Part L.growth Store.io (fun io s => { s with io := io }) where
  le_set h := ⟨h, .refl _⟩
  good_set h := h

instance growing_readMaps {g : Growth (Store B)} (f : StoreMaps → α) :
    Growing g (readMaps f : Prog (Store B) ε α) :=
  growing_read _

instance growing_modifyMaps (f : StoreMaps → StoreMaps) :
    Growing L.growthQuiet (modifyMaps f : Prog (Store B) ε Unit) :=
  growing_modify fun s => ⟨L.le_refl s.io, .refl s.log⟩

instance growing_readLog {g : Growth (Store B)} (f : StoreLog → α) :
    Growing g (readLog f : Prog (Store B) ε α) :=
  growing_read _

instance growingStore_modifyLog (f : StoreLog → StoreLog) :
    Growing L.growthStore (modifyLog f : Prog (Store B) ε Unit) :=
  growing_modify fun s => L.le_refl s.io

instance neverFails_onIo {m : Prog B.Io ε α} [h : NeverFails m] : NeverFails (onIo m) :=
  ⟨fun s e => h.ne_error s.io e⟩

end Combinators

section Records
variable (B : Blockset) {ε : Type}

def internInode (m : InodeMeta) : Prog B.Fsa ε Digest224 := B.step (B.pushAll (serializeInode m))

def loadInode (key : Digest224) : Prog B.Io MetaError InodeMeta :=
  loadRecord "inode node" (noPanic deserializeInode) key

def internManifest (blocks : List Digest224) : Prog B.Fsa ε Digest224 :=
  B.step (B.pushAll (serializeManifest blocks))

def loadManifest (key : Digest224) : Prog B.Io MetaError (List Digest224) :=
  loadRecord "manifest node" (noPanic deserializeManifest) key

/-- The size recorded in an inode blob, or zero when the blob cannot be read. -/
def loadSize (key : Digest224) : Prog B.Io MetaError UInt64 := do
  let m ← Prog.attempt (loadInode B key)
  pure (m.toOption.elim 0 InodeMeta.size)

variable {B} (L : B.Laws)

instance growing_internInode (m : InodeMeta) :
    Growing L.growthFsa (internInode B m : Prog B.Fsa ε Digest224) := by
  unfold internInode
  infer_instance

instance growing_loadInode (d : Digest224) : Growing L.growth (loadInode B d) := by
  unfold loadInode
  infer_instance

instance growing_internManifest (blocks : List Digest224) :
    Growing L.growthFsa (internManifest B blocks : Prog B.Fsa ε Digest224) := by
  unfold internManifest
  infer_instance

instance growing_loadManifest (d : Digest224) : Growing L.growth (loadManifest B d) := by
  unfold loadManifest
  infer_instance

instance growing_loadSize (d : Digest224) : Growing L.growth (loadSize B d) := by
  unfold loadSize
  infer_instance

theorem loadInode_of_stored {io : B.Io} {m : InodeMeta} (hc : L.NoCollision io)
    (hm : serializeInode m ∈ L.stored io) :
    loadInode B (L.digest (serializeInode m)) io = (.ok m, io) := by
  rw [loadInode, loadRecord_of_stored L hc hm, noPanic_ok (deserializeInode_serializeInode m)]

theorem loadManifest_of_stored {io : B.Io} {blocks : List Digest224} (hc : L.NoCollision io)
    (hm : serializeManifest blocks ∈ L.stored io) :
    loadManifest B (L.digest (serializeManifest blocks)) io = (.ok blocks, io) := by
  rw [loadManifest, loadRecord_of_stored L hc hm,
    noPanic_ok (deserializeManifest_serializeManifest blocks)]

/-- The size recorded in the inode record a backend holds under a digest. -/
def sizeAt (io : B.Io) (d : Digest224) : UInt64 :=
  ((B.fileStorageGet io d).bind fun b => (deserializeInode b).toOption).elim 0 InodeMeta.size

theorem loadSize_apply (d : Digest224) (io : B.Io) : loadSize B d io = (.ok (sizeAt io d), io) := by
  rw [loadSize, Prog.bind_apply, Prog.attempt, loadInode, loadRecord_apply, sizeAt]
  cases B.fileStorageGet io d with
  | none => rfl
  | some b => cases hd : deserializeInode b <;> simp [noPanic, hd, Except.mapError, Except.toOption]

end Records

section Operations
variable (B : Blockset)

abbrev StoreM (α : Type) := Prog (Store B) MetaError α

/-- The inode record and the entry list of a directory without other entries. -/
def internDirectory {B : Blockset} {ε : Type} (inode : InodeMeta) (selfIno parentIno : UInt64) :
    Prog B.Fsa ε (Digest224 × Digest224) := do
  let dirInode ← internInode B inode
  let dirEntries ← createDirEntries B selfIno parentIno
  pure (dirInode, dirEntries)

/-- The maps of a store whose only inode is the root directory. -/
def StoreMaps.initial (rootInode rootDir : Digest224) : StoreMaps where
  inodeMap := ⟨Std.ExtTreeMap.insert ∅ 1 rootInode, 2⟩
  inodeData := Std.ExtTreeMap.insert ∅ 1 rootInode
  dirData := Std.ExtTreeMap.insert ∅ 1 rootDir
  manifestData := ∅
  xattrData := ∅
  refcounts := ∅
  logicalBytes := 0
  inodeCount := 1

def rootInode (uid gid : UInt32) : InodeMeta := .newDirectory 1 uid gid (S_IFDIR ||| 0o755)

/-- A new store has the root directory as inode 1, owned by the running process. -/
def Store.new (uid gid : UInt32) : Prog B.Io MetaError (Store B) := do
  let root ← B.withFsa (internDirectory (rootInode uid gid) 1 1)
  Prog.read fun io => ⟨io, .initial root.1 root.2, .empty⟩

def bumpRefcount (refcounts : Map Digest224 UInt64) (digest : Digest224) : Map Digest224 UInt64 :=
  let val := refcounts[digest]?.getD 0
  if val = u64Max then refcounts else refcounts.insert digest (val + 1)

def dropRefcount (refcounts : Map Digest224 UInt64) (digest : Digest224) : Map Digest224 UInt64 :=
  match refcounts[digest]? with
  | none => refcounts
  | some count =>
    if count = u64Max then refcounts
    else if count ≤ 1 then refcounts.erase digest
    else refcounts.insert digest (count - 1)

variable {B} {ε : Type}

def incrementRefcount (digest : Digest224) : Prog (Store B) ε Unit :=
  modifyMaps fun m => { m with refcounts := bumpRefcount m.refcounts digest }

def decrementRefcount (digest : Digest224) : Prog (Store B) ε Unit :=
  modifyMaps fun m => { m with refcounts := dropRefcount m.refcounts digest }

def getRefcount (digest : Digest224) : Prog (Store B) ε UInt64 :=
  readMaps fun m => m.refcounts[digest]?.getD 0

def saturatingSub (a b : UInt64) : UInt64 := if a < b then 0 else a - b

def allocateIno : Prog (Store B) ε UInt64 := do
  let ino ← readMaps fun m => m.inodeMap.nextIno
  Prog.assert (ino ≠ u64Max)
  modifyMaps fun m => { m with inodeMap := { m.inodeMap with nextIno := ino + 1 } }
  pure ino

theorem allocateIno_apply (s : Store B) :
    (allocateIno s : Except (Fault ε) UInt64 × Store B) =
      if s.maps.inodeMap.nextIno = u64Max then (.error .panic, s)
      else (.ok s.maps.inodeMap.nextIno, { s with maps := { s.maps with
        inodeMap := { s.maps.inodeMap with nextIno := s.maps.inodeMap.nextIno + 1 } } }) := by
  have hread : (readMaps (fun m => m.inodeMap.nextIno) : Prog (Store B) ε UInt64) s =
      (.ok s.maps.inodeMap.nextIno, s) := rfl
  rw [allocateIno, Prog.bind_ok hread]
  by_cases h : s.maps.inodeMap.nextIno = u64Max
  · rw [if_pos h, Prog.bind_apply, Prog.assert_apply, if_neg (by simpa using h)]
  · rw [if_neg h, Prog.assert_bind_of h]
    rfl

/-- Both copies of an inode's binding. -/
def StoreMaps.setInode (m : StoreMaps) (ino : UInt64) (digest : Digest224) : StoreMaps :=
  { m with
    inodeMap := { m.inodeMap with map := m.inodeMap.map.insert ino digest }
    inodeData := m.inodeData.insert ino digest }

def StoreMaps.removeInode (m : StoreMaps) (ino : UInt64) : StoreMaps :=
  { m with
    inodeMap := { m.inodeMap with map := m.inodeMap.map.erase ino }
    inodeData := m.inodeData.erase ino }

def createInode (inode : InodeMeta) : StoreM B UInt64 := do
  let ino ← allocateIno
  let digest ← onIo (B.withFsa (internInode B { inode with ino := ino }))
  modifyMaps fun m =>
    { m.setInode ino digest with
      logicalBytes := m.logicalBytes + inode.size
      inodeCount := m.inodeCount + 1 }
  pure ino

def getInode (ino : UInt64) : StoreM B InodeMeta := do
  let digest ← readMaps fun m => m.inodeData[ino]?
  let digest ← Prog.ofOption digest (.notFound ino)
  onIo (loadInode B digest)

def updateInode (inode : InodeMeta) : StoreM B Unit := do
  let oldDigest ← readMaps fun m => m.inodeData[inode.ino]?
  let oldDigest ← Prog.ofOption oldDigest (.notFound inode.ino)
  let oldSize ← onIo (loadSize B oldDigest)
  let newDigest ← onIo (B.withFsa (internInode B inode))
  modifyMaps fun m =>
    { m.setInode inode.ino newDigest with
      logicalBytes :=
        if oldSize < inode.size then m.logicalBytes + (inode.size - oldSize)
        else saturatingSub m.logicalBytes (oldSize - inode.size) }

def deleteInode (ino : UInt64) : StoreM B Unit := do
  let digest ← readMaps fun m => m.inodeData[ino]?
  let digest ← Prog.ofOption digest (.notFound ino)
  let size ← onIo (loadSize B digest)
  modifyMaps fun m =>
    { m.removeInode ino with
      logicalBytes := saturatingSub m.logicalBytes size
      inodeCount := saturatingSub m.inodeCount 1 }

def dirDigestOf (ino : UInt64) : StoreM B Digest224 := do
  let digest ← readMaps fun m => m.dirData[ino]?
  Prog.ofOption digest (.notADirectory ino)

def setDir (ino : UInt64) (digest : Digest224) : StoreM B Unit :=
  modifyMaps fun m => { m with dirData := m.dirData.insert ino digest }

/-- The new directory's inode, with its number and the directory bit. -/
def InodeMeta.asDirectory (inode : InodeMeta) (ino : UInt64) : InodeMeta :=
  { inode with
    ino := ino
    mode := if inode.mode &&& S_IFDIR = 0 then inode.mode ||| S_IFDIR else inode.mode }

/-- One more link to a directory, for the `..` entry of a new subdirectory. -/
def addBacklink (parentIno : UInt64) : StoreM B Unit := do
  let parentMeta ← getInode parentIno
  Prog.assert (parentMeta.nlinks.toNat + 1 < 2 ^ 32)
  updateInode { parentMeta with nlinks := parentMeta.nlinks + 1 }

/-- The parent's entry list is rewritten first: when the name is taken or reserved
nothing changes. -/
def insertDirectory (ino parentIno : UInt64) (name : Str) (inode : InodeMeta) : StoreM B Unit := do
  let parentDirDigest ← dirDigestOf parentIno
  let newDir ← onIo (B.withFsa (internDirectory (inode.asDirectory ino) ino parentIno))
  let newParentDir ← onIo (addDirEntry B parentDirDigest name ino)
  modifyMaps fun m =>
    { m.setInode ino newDir.1 with
      dirData := (m.dirData.insert ino newDir.2).insert parentIno newParentDir }
  addBacklink parentIno
  modifyMaps fun m => { m with inodeCount := m.inodeCount + 1 }

/-- The number is used up also when the directory cannot be inserted. -/
def createDirectory (parentIno : UInt64) (name : Str) (inode : InodeMeta) : StoreM B UInt64 := do
  let parentMeta ← getInode parentIno
  Prog.ensure parentMeta.isDir (.notADirectory parentIno)
  let _ ← dirDigestOf parentIno
  let ino ← allocateIno
  insertDirectory ino parentIno name inode
  pure ino

def listDirectory (ino : UInt64) : StoreM B (List DirEntry) := do
  let digest ← dirDigestOf ino
  onIo (listDirEntries B digest)

def lookup (parentIno : UInt64) (name : Str) : StoreM B UInt64 := do
  let digest ← dirDigestOf parentIno
  Prog.mapErr (fun _ => .notFound 0) (onIo (lookupDirEntry B digest name))

/-- The entry list of a directory is replaced by an edited one. -/
def rewriteDir (parentIno : UInt64) (edit : Digest224 → Prog B.Io MetaError Digest224) :
    StoreM B Unit := do
  let digest ← dirDigestOf parentIno
  let newDigest ← onIo (edit digest)
  setDir parentIno newDigest

def link (parentIno : UInt64) (name : Str) (ino : UInt64) : StoreM B Unit :=
  rewriteDir parentIno fun digest => addDirEntry B digest name ino

def unlink (parentIno : UInt64) (name : Str) : StoreM B Unit :=
  rewriteDir parentIno fun digest => removeDirEntry B digest name

def setManifest (ino : UInt64) (blocks : List Digest224) : StoreM B Unit := do
  let digest ← onIo (B.withFsa (internManifest B blocks))
  modifyMaps fun m => { m with manifestData := m.manifestData.insert ino digest }

def getManifest (ino : UInt64) : StoreM B (List Digest224) := do
  let digest ← readMaps fun m => m.manifestData[ino]?
  let digest ← Prog.ofOption digest (.notFound ino)
  onIo (loadManifest B digest)

def setXattrs (ino : UInt64) (xattrs : Xattrs) : StoreM B Unit := do
  let digest ← onIo (B.withFsa (internXattrs B xattrs))
  modifyMaps fun m => { m with xattrData := m.xattrData.insert ino digest }

/-- The attributes of an inode; an inode without an entry has none. -/
def loadXattrsOf (ino : UInt64) : StoreM B Xattrs := do
  let digest ← readMaps fun m => m.xattrData[ino]?
  onIo (digest.elim (pure []) (loadXattrs B))

def setXattr (ino : UInt64) (name : Str) (value : Bytes) : StoreM B Unit := do
  let xattrs ← loadXattrsOf ino
  setXattrs ino (setXattrEntry xattrs name value)

def getXattr (ino : UInt64) (name : Str) : StoreM B Bytes := do
  let digest ← readMaps fun m => m.xattrData[ino]?
  let digest ← Prog.ofOption digest (.notFound ino)
  let xattrs ← onIo (loadXattrs B digest)
  Prog.ofOption (getXattrEntry xattrs name) (.notFound ino)

def listXattrs (ino : UInt64) : StoreM B (List Str) := do
  let xattrs ← loadXattrsOf ino
  pure (listXattrNames xattrs)

def removeXattr (ino : UInt64) (name : Str) : StoreM B Unit := do
  let digest ← readMaps fun m => m.xattrData[ino]?
  let digest ← Prog.ofOption digest (.notFound ino)
  let xattrs ← onIo (loadXattrs B digest)
  Prog.ensure ((removeXattrEntry xattrs name).1 = true) (.notFound ino)
  setXattrs ino (removeXattrEntry xattrs name).2

/-- Errors of the log are not reported here. -/
def logWalEntry (entry : SegmentEntry) : Prog (Store B) ε Unit :=
  modifyLog fun l => { l with wal := l.wal.map fun wal => (Wal.logMutation entry wal).2 }

/-- A call of the log, when there is one. -/
def onWal (m : Prog Wal WalError Unit) : Prog (Store B) WalError Unit := fun s =>
  match s.log.wal with
  | none => (.ok (), s)
  | some wal => ((m wal).1, { s with log := { s.log with wal := some (m wal).2 } })

def flushWal : Prog (Store B) WalError Unit := onWal Wal.flushAndSync

def shutdownWal : Prog (Store B) WalError Unit := onWal Wal.shutdown

/-- A growth of stores that calls on the backend, counts, manifests and flushes of the log
keep to. -/
class StoreGrowth (L : outParam B.Laws) (g : Growth (Store B)) : Prop where
  onIo : ∀ {ε α : Type} (m : Prog B.Io ε α), Growing L.growth m → Growing g (onIo m)
  refcounts : ∀ {ε : Type} (f : Map Digest224 UInt64 → Map Digest224 UInt64),
    Growing g (modifyMaps fun m => { m with refcounts := f m.refcounts } : Prog (Store B) ε Unit)
  manifest : ∀ {ε : Type} (ino : UInt64) (d : Digest224),
    Growing g (modifyMaps fun m => { m with manifestData := m.manifestData.insert ino d } :
      Prog (Store B) ε Unit)
  flushWal : Growing g (flushWal : Prog (Store B) WalError Unit)

/-- It also allows a directory to get another entry list. -/
class NameGrowth (L : outParam B.Laws) (g : Growth (Store B)) : Prop extends StoreGrowth L g where
  rewriteDir : ∀ (p : UInt64) (edit : Digest224 → Prog B.Io MetaError Digest224)
    [∀ d, Growing L.growth (edit d)], Growing g (rewriteDir p edit)

/-- It also allows extended attributes to be set. -/
class XattrGrowth (L : outParam B.Laws) (g : Growth (Store B)) : Prop extends StoreGrowth L g where
  xattr : ∀ {ε : Type} (ino : UInt64) (d : Digest224),
    Growing g (modifyMaps fun m => { m with xattrData := m.xattrData.insert ino d } :
      Prog (Store B) ε Unit)

/-- It also allows inodes to come, to change and to go. -/
class InodeGrowth (L : outParam B.Laws) (g : Growth (Store B)) : Prop extends StoreGrowth L g where
  allocateIno : ∀ {ε : Type}, Growing g (allocateIno : Prog (Store B) ε UInt64)
  createInode : ∀ m : InodeMeta, Growing g (createInode m : StoreM B UInt64)
  updateInode : ∀ m : InodeMeta, Growing g (updateInode m : StoreM B Unit)
  deleteInode : ∀ ino : UInt64, Growing g (deleteInode ino : StoreM B Unit)

/-- It also allows new directories. -/
class TreeGrowth (L : outParam B.Laws) (g : Growth (Store B)) : Prop
    extends NameGrowth L g, InodeGrowth L g where
  createDirectory : ∀ (parent : UInt64) (name : Str) (m : InodeMeta),
    Growing g (createDirectory parent name m : StoreM B UInt64)

attribute [instance] StoreGrowth.flushWal NameGrowth.rewriteDir InodeGrowth.allocateIno
  InodeGrowth.createInode InodeGrowth.updateInode InodeGrowth.deleteInode TreeGrowth.createDirectory

variable {L : B.Laws} {g : Growth (Store B)}

instance growing_onIo {α : Type} [hg : StoreGrowth L g] {m : Prog B.Io ε α}
    [h : Growing L.growth m] : Growing g (onIo m) :=
  hg.onIo m h

instance growing_incrementRefcount [hg : StoreGrowth L g] (d : Digest224) :
    Growing g (incrementRefcount d : Prog (Store B) ε Unit) :=
  hg.refcounts fun rc => bumpRefcount rc d

instance growing_decrementRefcount [hg : StoreGrowth L g] (d : Digest224) :
    Growing g (decrementRefcount d : Prog (Store B) ε Unit) :=
  hg.refcounts fun rc => dropRefcount rc d

instance growing_getRefcount (d : Digest224) :
    Growing g (getRefcount d : Prog (Store B) ε UInt64) :=
  growing_read _

instance growing_getInode [StoreGrowth L g] (ino : UInt64) :
    Growing g (getInode ino : StoreM B InodeMeta) := by
  unfold getInode
  infer_instance

instance growing_dirDigestOf (ino : UInt64) : Growing g (dirDigestOf ino : StoreM B Digest224) := by
  unfold dirDigestOf
  infer_instance

instance growing_addBacklink [InodeGrowth L g] (ino : UInt64) :
    Growing g (addBacklink ino : StoreM B Unit) := by
  unfold addBacklink
  infer_instance

instance growing_listDirectory [StoreGrowth L g] (ino : UInt64) :
    Growing g (listDirectory ino : StoreM B (List DirEntry)) := by
  unfold listDirectory
  infer_instance

instance growing_lookup [StoreGrowth L g] (ino : UInt64) (name : Str) :
    Growing g (lookup ino name : StoreM B UInt64) := by
  unfold lookup
  infer_instance

instance growing_link [NameGrowth L g] (parent : UInt64) (name : Str) (ino : UInt64) :
    Growing g (link parent name ino : StoreM B Unit) := by
  unfold link
  infer_instance

instance growing_unlink [NameGrowth L g] (parent : UInt64) (name : Str) :
    Growing g (unlink parent name : StoreM B Unit) := by
  unfold unlink
  infer_instance

instance growing_setManifest [hg : StoreGrowth L g] (ino : UInt64) (blocks : List Digest224) :
    Growing g (setManifest ino blocks : StoreM B Unit) := by
  have hset := hg.manifest (ε := MetaError) ino
  unfold setManifest
  infer_instance

instance growing_getManifest [StoreGrowth L g] (ino : UInt64) :
    Growing g (getManifest ino : StoreM B (List Digest224)) := by
  unfold getManifest
  infer_instance

instance growing_loadXattrsOf [StoreGrowth L g] (ino : UInt64) :
    Growing g (loadXattrsOf ino : StoreM B Xattrs) := by
  have h : ∀ digest : Option Digest224,
      Growing L.growth (digest.elim (pure []) (loadXattrs B)) := by
    intro digest
    cases digest with
    | none => exact growing_pure []
    | some d => exact growing_loadXattrs L d
  unfold loadXattrsOf
  infer_instance

instance growing_setXattrs [hg : XattrGrowth L g] (ino : UInt64) (xattrs : Xattrs) :
    Growing g (setXattrs ino xattrs : StoreM B Unit) := by
  have hset := hg.xattr (ε := MetaError) ino
  unfold setXattrs
  infer_instance

instance growing_setXattr [XattrGrowth L g] (ino : UInt64) (name : Str) (value : Bytes) :
    Growing g (setXattr ino name value : StoreM B Unit) := by
  unfold setXattr
  infer_instance

instance growing_getXattr [StoreGrowth L g] (ino : UInt64) (name : Str) :
    Growing g (getXattr ino name : StoreM B Bytes) := by
  unfold getXattr
  infer_instance

instance growing_listXattrs [StoreGrowth L g] (ino : UInt64) :
    Growing g (listXattrs ino : StoreM B (List Str)) := by
  unfold listXattrs
  infer_instance

instance growing_removeXattr [XattrGrowth L g] (ino : UInt64) (name : Str) :
    Growing g (removeXattr ino name : StoreM B Unit) := by
  unfold removeXattr
  infer_instance

variable (L)

instance growing_internDirectory (m : InodeMeta) (selfIno parentIno : UInt64) :
    Growing L.growthFsa (internDirectory m selfIno parentIno :
      Prog B.Fsa ε (Digest224 × Digest224)) := by
  unfold internDirectory
  infer_instance

/-! Operations that log nothing may change the maps in any way. -/

theorem growingQuiet_onIo {α : Type} {m : Prog B.Io ε α} (h : Growing L.growth m) :
    Growing L.growthQuiet (onIo m) :=
  growing_zoom L.part_onIo h

theorem growingQuiet_flushWal :
    Growing L.growthQuiet (flushWal : Prog (Store B) WalError Unit) := by
  constructor
  intro s
  unfold flushWal onWal
  split
  · exact ⟨L.le_refl s.io, .refl s.log⟩
  · next wal hw => exact ⟨L.le_refl s.io, (StoreLog.Flushed.refl s.log).flush hw⟩

instance quiet_store : StoreGrowth L L.growthQuiet where
  onIo _ := growingQuiet_onIo L
  refcounts _ := growing_modifyMaps L _
  manifest _ _ := growing_modifyMaps L _
  flushWal := growingQuiet_flushWal L

instance quiet_name : NameGrowth L L.growthQuiet where
  rewriteDir p edit := by
    unfold rewriteDir setDir
    infer_instance

instance quiet_xattr : XattrGrowth L L.growthQuiet where
  xattr _ _ := growing_modifyMaps L _

theorem growingQuiet_allocateIno :
    Growing L.growthQuiet (allocateIno : Prog (Store B) ε UInt64) := by
  unfold allocateIno
  infer_instance

instance quiet_inode : InodeGrowth L L.growthQuiet where
  allocateIno := growingQuiet_allocateIno L
  createInode m := by
    have halloc := growingQuiet_allocateIno L (ε := MetaError)
    unfold createInode
    infer_instance
  updateInode m := by
    unfold updateInode
    infer_instance
  deleteInode ino := by
    unfold deleteInode
    infer_instance

instance growing_insertDirectory (ino parent : UInt64) (name : Str) (m : InodeMeta) :
    Growing L.growthQuiet (insertDirectory ino parent name m : StoreM B Unit) := by
  unfold insertDirectory
  infer_instance

instance quiet_tree : TreeGrowth L L.growthQuiet where
  createDirectory parent name m := by
    unfold createDirectory
    infer_instance

/-- A growth of the maps, for operations that log nothing. -/
def Blockset.Laws.growthMaps (k : Growth StoreMaps) : Growth (Store B) :=
  L.growthQuiet.both (k.comap Store.maps)

variable {L} {k : Growth StoreMaps}

theorem growingMaps_modify {f : StoreMaps → StoreMaps} (h : ∀ m, k.le m (f m)) :
    Growing (L.growthMaps k) (modifyMaps f : Prog (Store B) ε Unit) :=
  growing_modify fun s => ⟨⟨L.le_refl s.io, .refl s.log⟩, h s.maps⟩

theorem growingMaps_onIo {α : Type} {m : Prog B.Io ε α} (h : Growing L.growth m) :
    Growing (L.growthMaps k) (onIo m) :=
  ⟨fun s => ⟨(growingQuiet_onIo L h).le_run s, k.le_refl s.maps⟩⟩

theorem growingMaps_flushWal :
    Growing (L.growthMaps k) (flushWal : Prog (Store B) WalError Unit) := by
  constructor
  intro s
  refine ⟨(growingQuiet_flushWal L).le_run s, ?_⟩
  unfold flushWal onWal
  split <;> exact k.le_refl s.maps

theorem storeGrowth_maps
    (hcounts : ∀ (m : StoreMaps) (rc : Map Digest224 UInt64), k.le m { m with refcounts := rc })
    (hmanifests : ∀ (m : StoreMaps) (mf : Map UInt64 Digest224),
      k.le m { m with manifestData := mf }) : StoreGrowth L (L.growthMaps k) where
  onIo _ := growingMaps_onIo
  refcounts _ := growingMaps_modify fun m => hcounts m _
  manifest _ _ := growingMaps_modify fun m => hmanifests m _
  flushWal := growingMaps_flushWal

/-- What a growth of the maps has to allow for inodes to come, to change and to go. -/
structure AllowsInodes (k : Growth StoreMaps) : Prop where
  next : ∀ (m : StoreMaps) (next : UInt64), m.inodeMap.nextIno ≤ next →
    k.le m { m with inodeMap := { m.inodeMap with nextIno := next } }
  set : ∀ (m : StoreMaps) (ino : UInt64) (d : Digest224), k.le m (m.setInode ino d)
  remove : ∀ (m : StoreMaps) (ino : UInt64), k.le m (m.removeInode ino)
  counters : ∀ (m : StoreMaps) (bytes count : UInt64),
    k.le m { m with logicalBytes := bytes, inodeCount := count }

theorem AllowsInodes.allocateIno (h : AllowsInodes k) :
    Growing (L.growthMaps k) (allocateIno : Prog (Store B) ε UInt64) := by
  constructor
  intro s
  rw [allocateIno_apply]
  split_ifs with hmax
  · exact (L.growthMaps k).le_refl s
  · exact ⟨⟨L.le_refl s.io, .refl s.log⟩,
      h.next s.maps _ (UInt64.le_of_lt (lt_add_one_of_ne_u64Max hmax))⟩

theorem AllowsInodes.inodeGrowth (h : AllowsInodes k) [StoreGrowth L (L.growthMaps k)] :
    InodeGrowth L (L.growthMaps k) where
  allocateIno := h.allocateIno
  createInode m := by
    have halloc : Growing (L.growthMaps k) (SliceFs.allocateIno : StoreM B UInt64) := h.allocateIno
    have hset : ∀ (ino : UInt64) (d : Digest224), Growing (L.growthMaps k) (modifyMaps fun maps =>
        { maps.setInode ino d with
          logicalBytes := maps.logicalBytes + m.size
          inodeCount := maps.inodeCount + 1 } : StoreM B Unit) :=
      fun ino d => growingMaps_modify fun maps =>
        k.le_trans (h.set maps ino d) (h.counters (maps.setInode ino d) _ _)
    unfold createInode
    infer_instance
  updateInode m := by
    have hset : ∀ (size : UInt64) (d : Digest224), Growing (L.growthMaps k) (modifyMaps fun maps =>
        { maps.setInode m.ino d with
          logicalBytes :=
            if size < m.size then maps.logicalBytes + (m.size - size)
            else saturatingSub maps.logicalBytes (size - m.size) } : StoreM B Unit) :=
      fun size d => growingMaps_modify fun maps =>
        k.le_trans (h.set maps m.ino d) (h.counters (maps.setInode m.ino d) _ maps.inodeCount)
    unfold updateInode
    infer_instance
  deleteInode ino := by
    have hset : ∀ size : UInt64, Growing (L.growthMaps k) (modifyMaps fun maps =>
        { maps.removeInode ino with
          logicalBytes := saturatingSub maps.logicalBytes size
          inodeCount := saturatingSub maps.inodeCount 1 } : StoreM B Unit) :=
      fun size => growingMaps_modify fun maps =>
        k.le_trans (h.remove maps ino) (h.counters (maps.removeInode ino) _ _)
    unfold deleteInode
    infer_instance

variable (L)

instance growingStore_onWal (m : Prog Wal WalError Unit) :
    Growing L.growthStore (onWal m : Prog (Store B) WalError Unit) := by
  constructor
  intro s
  unfold onWal
  split <;> exact L.le_refl s.io

instance growingStore_logWalEntry (entry : SegmentEntry) :
    Growing L.growthStore (logWalEntry entry : Prog (Store B) ε Unit) := by
  unfold logWalEntry
  infer_instance

end Operations

end SliceFs
