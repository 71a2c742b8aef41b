import SliceFs.RootRecord
import SliceFs.MemoryBackend

/-!
# Histories of a store

The states a store can reach from `new` by its operations, with reloading from a
committed root among them. What `commit` wrote is what `load_from_root` gives, at any
later time: the maps of the commit are in the backend from then on, and the inode
numbers in use are never the last one, so that the decoder of the inode map can add one
to the highest.
-/
namespace SliceFs
open TreeMaps ProgramLogic

/-- The operations that change a store. -/
inductive StoreOp where
  | incrementRefcount (digest : Digest224)
  | decrementRefcount (digest : Digest224)
  | createInode (inode : InodeMeta)
  | updateInode (inode : InodeMeta)
  | deleteInode (ino : UInt64)
  | createDirectory (parentIno : UInt64) (name : Str) (inode : InodeMeta)
  | link (parentIno : UInt64) (name : Str) (ino : UInt64)
  | unlink (parentIno : UInt64) (name : Str)
  | setManifest (ino : UInt64) (blocks : List Digest224)
  | setXattr (ino : UInt64) (name : Str) (value : Bytes)
  | removeXattr (ino : UInt64) (name : Str)
  | commit
  | commitRoot (root : Digest224)
  | createSnapshot (name : Option Str) (now : Now)
  | setSnapshots (snapshots : List SnapshotEntry)
  | setWal (wal : Wal)
  | flushWal
  | shutdownWal

section
variable {B : Blockset}

def setWal (wal : Wal) : StoreM B Unit := modifyLog fun l => { l with wal := some wal }

/-- The store after an operation that returned, with a value or with an error; a panic
ends the history. -/
def StoreOp.run : StoreOp → Store B → Option (Store B)
  | .incrementRefcount d => Prog.exec (SliceFs.incrementRefcount d : StoreM B Unit)
  | .decrementRefcount d => Prog.exec (SliceFs.decrementRefcount d : StoreM B Unit)
  | .createInode inode => Prog.exec (SliceFs.createInode inode)
  | .updateInode inode => Prog.exec (SliceFs.updateInode inode)
  | .deleteInode ino => Prog.exec (SliceFs.deleteInode ino)
  | .createDirectory parent name inode => Prog.exec (SliceFs.createDirectory parent name inode)
  | .link parent name ino => Prog.exec (SliceFs.link parent name ino)
  | .unlink parent name => Prog.exec (SliceFs.unlink parent name)
  | .setManifest ino blocks => Prog.exec (SliceFs.setManifest ino blocks)
  | .setXattr ino name value => Prog.exec (SliceFs.setXattr ino name value)
  | .removeXattr ino name => Prog.exec (SliceFs.removeXattr ino name)
  | .commit => Prog.exec (SliceFs.commit : StoreM B Digest224)
  | .commitRoot root => Prog.exec (SliceFs.commitRoot root : StoreM B Unit)
  | .createSnapshot name now => Prog.exec (SliceFs.createSnapshot name now : StoreM B SnapshotEntry)
  | .setSnapshots snapshots => Prog.exec (SliceFs.setSnapshots snapshots : StoreM B Unit)
  | .setWal wal => Prog.exec (SliceFs.setWal wal)
  | .flushWal => Prog.exec SliceFs.flushWal
  | .shutdownWal => Prog.exec SliceFs.shutdownWal

def runStoreOps : List StoreOp → Store B → Option (Store B)
  | [], s => some s
  | op :: ops, s => (op.run s).bind (runStoreOps ops)

/-- The stores that a program using the interface can hold: a new one, one after an
operation, or one loaded later from a root that such a store committed. -/
inductive Reachable (L : B.Laws) (overflowChecks : Bool) : Store B → Prop where
  | new {uid gid : UInt32} {io io' : B.Io} {s : Store B} :
      Store.new B uid gid io = (.ok s, io') → Reachable L overflowChecks s
  | step {s s' : Store B} (op : StoreOp) : Reachable L overflowChecks s →
      op.run s = some s' → Reachable L overflowChecks s'
  | load {s s' t : Store B} {io io' : B.Io} {root : Digest224} :
      Reachable L overflowChecks s → commit s = ((.ok root, s') : Except (Fault MetaError) _ × _) →
      L.le s'.io io → L.NoCollision io →
      loadFromRoot B overflowChecks root io = (.ok t, io') → Reachable L overflowChecks t

variable {ε : Type}

/-- The last inode number is not in use. -/
def StoreMaps.Numbered (m : StoreMaps) : Prop :=
  u64Max ∉ m.inodeData ∧ u64Max ∉ m.inodeMap.map

theorem StoreMaps.Numbered.setInode {m : StoreMaps} (h : m.Numbered) {ino : UInt64}
    (hino : ino ≠ u64Max) (d : Digest224) : (m.setInode ino d).Numbered := by
  constructor
  · simpa [StoreMaps.setInode, hino] using h.1
  · simpa [StoreMaps.setInode, hino] using h.2

theorem StoreMaps.Numbered.removeInode {m : StoreMaps} (h : m.Numbered) (ino : UInt64) :
    (m.removeInode ino).Numbered := by
  constructor
  · intro hmem
    exact h.1 (Std.ExtTreeMap.mem_of_mem_erase hmem)
  · intro hmem
    exact h.2 (Std.ExtTreeMap.mem_of_mem_erase hmem)

/-- The programs that leave the last inode number unused. -/
abbrev KeepsNumbers (m : Prog (Store B) ε α) : Prop :=
  Growing (Growth.keeps fun s : Store B => s.maps.Numbered) m

theorem keepsNumbers_modifyMaps {f : StoreMaps → StoreMaps}
    (h : ∀ m : StoreMaps, m.Numbered → (f m).Numbered) :
    KeepsNumbers (modifyMaps f : Prog (Store B) ε Unit) :=
  growing_modify fun s hs => h s.maps hs

instance keepsNumbers_onIo (m : Prog B.Io ε α) : KeepsNumbers (onIo m) := ⟨fun _ hs => hs⟩

instance keepsNumbers_readMaps (f : StoreMaps → α) :
    KeepsNumbers (readMaps f : Prog (Store B) ε α) := ⟨fun _ hs => hs⟩

instance keepsNumbers_modifyLog (f : StoreLog → StoreLog) :
    KeepsNumbers (modifyLog f : Prog (Store B) ε Unit) := ⟨fun _ hs => hs⟩

instance keepsNumbers_readLog (f : StoreLog → α) :
    KeepsNumbers (readLog f : Prog (Store B) ε α) := ⟨fun _ hs => hs⟩

/-- The numbers handed out are not the last one. -/
theorem allocateIno_post (s : Store B) (hs : s.maps.Numbered) :
    (allocateIno (ε := ε) s).2.maps.Numbered ∧
      ∀ ino, (allocateIno (ε := ε) s).1 = .ok ino → ino ≠ u64Max := by
  rw [allocateIno_apply]
  split_ifs with h
  · simp [hs]
  · refine ⟨hs, ?_⟩
    rintro ino ⟨rfl⟩
    exact h

/-- A number that has an inode is not the last one. -/
theorem readMaps_inodeData_post (ino : UInt64) (s : Store B) (hs : s.maps.Numbered) :
    ((readMaps (fun m => m.inodeData[ino]?) : StoreM B _) s).2.maps.Numbered ∧
      ∀ d, ((readMaps (fun m => m.inodeData[ino]?) : StoreM B _) s).1 = .ok d →
        d ≠ none → ino ≠ u64Max := by
  refine ⟨hs, ?_⟩
  rintro d ⟨rfl⟩ hd rfl
  exact hd (Std.ExtTreeMap.getElem?_eq_none hs.1)

instance keepsNumbers_createInode (inode : InodeMeta) :
    KeepsNumbers (createInode inode : StoreM B UInt64) := by
  refine growing_keeps_bind allocateIno_post fun ino hino => ?_
  have hset : ∀ d, KeepsNumbers (modifyMaps (B := B) (ε := MetaError) fun m =>
      { m.setInode ino d with
        logicalBytes := m.logicalBytes + inode.size
        inodeCount := m.inodeCount + 1 }) :=
    fun d => keepsNumbers_modifyMaps fun m hm => hm.setInode hino d
  infer_instance

instance keepsNumbers_updateInode (inode : InodeMeta) :
    KeepsNumbers (updateInode inode : StoreM B Unit) := by
  refine growing_keeps_bind (readMaps_inodeData_post inode.ino) fun old hold => ?_
  cases old with
  | none => exact ⟨fun _ hs => hs⟩
  | some old =>
      have hset : ∀ d size, KeepsNumbers (modifyMaps (B := B) (ε := MetaError) fun m =>
          { m.setInode inode.ino d with
            logicalBytes :=
              if size < inode.size then m.logicalBytes + (inode.size - size)
              else saturatingSub m.logicalBytes (size - inode.size) }) :=
        fun d size => keepsNumbers_modifyMaps fun m hm => hm.setInode (hold (by simp)) d
      infer_instance

instance keepsNumbers_deleteInode (ino : UInt64) :
    KeepsNumbers (deleteInode ino : StoreM B Unit) := by
  have hdel : ∀ size, KeepsNumbers (modifyMaps (B := B) (ε := MetaError) fun m =>
      { m.removeInode ino with
        logicalBytes := saturatingSub m.logicalBytes size
        inodeCount := saturatingSub m.inodeCount 1 }) :=
    fun size => keepsNumbers_modifyMaps fun m hm => hm.removeInode ino
  unfold deleteInode
  infer_instance

instance keepsNumbers_addBacklink (parent : UInt64) :
    KeepsNumbers (addBacklink parent : StoreM B Unit) := by
  unfold addBacklink getInode
  infer_instance

theorem keepsNumbers_insertDirectory {ino : UInt64} (hino : ino ≠ u64Max) (parent : UInt64)
    (name : Str) (inode : InodeMeta) :
    KeepsNumbers (insertDirectory ino parent name inode : StoreM B Unit) := by
  have hset : ∀ (newDir : Digest224 × Digest224) (newParentDir : Digest224),
      KeepsNumbers (modifyMaps (B := B) (ε := MetaError) fun m =>
        { m.setInode ino newDir.1 with
          dirData := (m.dirData.insert ino newDir.2).insert parent newParentDir }) :=
    fun newDir newParentDir => keepsNumbers_modifyMaps fun m hm => hm.setInode hino newDir.1
  have hcount : KeepsNumbers (modifyMaps (B := B) (ε := MetaError) fun m =>
      { m with inodeCount := m.inodeCount + 1 }) :=
    keepsNumbers_modifyMaps fun m hm => hm
  unfold insertDirectory dirDigestOf
  infer_instance

instance keepsNumbers_createDirectory (parent : UInt64) (name : Str) (inode : InodeMeta) :
    KeepsNumbers (createDirectory parent name inode : StoreM B UInt64) := by
  have hafter : KeepsNumbers (do
      let ino ← allocateIno
      insertDirectory ino parent name inode
      pure ino : StoreM B UInt64) := by
    refine growing_keeps_bind allocateIno_post fun ino hino => ?_
    have := keepsNumbers_insertDirectory (B := B) hino parent name inode
    infer_instance
  unfold createDirectory getInode dirDigestOf
  infer_instance

instance keepsNumbers_setDir (ino : UInt64) (d : Digest224) :
    KeepsNumbers (setDir ino d : StoreM B Unit) :=
  keepsNumbers_modifyMaps fun _ hm => hm

instance keepsNumbers_rewriteDir (parent : UInt64)
    (edit : Digest224 → Prog B.Io MetaError Digest224) : KeepsNumbers (rewriteDir parent edit) := by
  unfold rewriteDir dirDigestOf
  infer_instance

instance keepsNumbers_link (parent : UInt64) (name : Str) (ino : UInt64) :
    KeepsNumbers (link parent name ino : StoreM B Unit) := by
  unfold link
  infer_instance

instance keepsNumbers_unlink (parent : UInt64) (name : Str) :
    KeepsNumbers (unlink parent name : StoreM B Unit) := by
  unfold unlink
  infer_instance

instance keepsNumbers_setManifest (ino : UInt64) (blocks : List Digest224) :
    KeepsNumbers (setManifest ino blocks : StoreM B Unit) := by
  have hset : ∀ d, KeepsNumbers (modifyMaps (B := B) (ε := MetaError) fun m =>
      { m with manifestData := m.manifestData.insert ino d }) :=
    fun d => keepsNumbers_modifyMaps fun _ hm => hm
  unfold setManifest
  infer_instance

instance keepsNumbers_setXattrs (ino : UInt64) (xattrs : Xattrs) :
    KeepsNumbers (setXattrs ino xattrs : StoreM B Unit) := by
  have hset : ∀ d, KeepsNumbers (modifyMaps (B := B) (ε := MetaError) fun m =>
      { m with xattrData := m.xattrData.insert ino d }) :=
    fun d => keepsNumbers_modifyMaps fun _ hm => hm
  unfold setXattrs
  infer_instance

instance keepsNumbers_setXattr (ino : UInt64) (name : Str) (value : Bytes) :
    KeepsNumbers (setXattr ino name value : StoreM B Unit) := by
  unfold setXattr loadXattrsOf
  infer_instance

instance keepsNumbers_removeXattr (ino : UInt64) (name : Str) :
    KeepsNumbers (removeXattr ino name : StoreM B Unit) := by
  unfold removeXattr
  infer_instance

instance keepsNumbers_commit : KeepsNumbers (commit : StoreM B Digest224) := by
  unfold commit logWalEntry
  infer_instance

instance keepsNumbers_incrementRefcount (d : Digest224) :
    KeepsNumbers (incrementRefcount d : Prog (Store B) ε Unit) :=
  keepsNumbers_modifyMaps fun _ hm => hm

instance keepsNumbers_decrementRefcount (d : Digest224) :
    KeepsNumbers (decrementRefcount d : Prog (Store B) ε Unit) :=
  keepsNumbers_modifyMaps fun _ hm => hm

instance keepsNumbers_commitRoot (root : Digest224) :
    KeepsNumbers (commitRoot root : StoreM B Unit) := by
  unfold commitRoot logWalEntry
  infer_instance

instance keepsNumbers_createSnapshot (name : Option Str) (now : Now) :
    KeepsNumbers (createSnapshot name now : StoreM B SnapshotEntry) := by
  unfold createSnapshot logWalEntry
  infer_instance

instance keepsNumbers_onWal (m : Prog Wal WalError Unit) :
    KeepsNumbers (onWal m : Prog (Store B) WalError Unit) := by
  constructor
  intro s hs
  unfold onWal
  split <;> exact hs

theorem StoreOp.numbered_run {op : StoreOp} {s s' : Store B} (h : op.run s = some s')
    (hs : s.maps.Numbered) : s'.maps.Numbered := by
  have key : ∀ {ε α : Type} (m : Prog (Store B) ε α) [hm : KeepsNumbers m],
      Prog.exec m s = some s' → s'.maps.Numbered := by
    intro ε α m hm hrun
    rw [← Prog.snd_of_exec hrun]
    exact hm.le_run s hs
  unfold StoreOp.run SliceFs.setSnapshots SliceFs.setWal SliceFs.flushWal SliceFs.shutdownWal at h
  cases op <;> exact key _ h

theorem StoreOp.le_run (L : B.Laws) {op : StoreOp} {s s' : Store B} (h : op.run s = some s') :
    L.le s.io s'.io := by
  have key : ∀ {ε α : Type} (m : Prog (Store B) ε α) [hm : Growing L.growthStore m],
      Prog.exec m s = some s' → L.le s.io s'.io := by
    intro ε α m hm hrun
    rw [← Prog.snd_of_exec hrun]
    exact hm.le_run s
  unfold StoreOp.run SliceFs.setSnapshots SliceFs.setWal SliceFs.flushWal SliceFs.shutdownWal at h
  cases op <;> exact key _ h

theorem le_runStoreOps (L : B.Laws) {ops : List StoreOp} {s s' : Store B}
    (h : runStoreOps ops s = some s') : L.le s.io s'.io := by
  induction ops generalizing s with
  | nil =>
      obtain rfl : s = s' := by simpa [runStoreOps] using h
      exact L.le_refl s.io
  | cons op ops ih =>
      obtain ⟨s₁, h₁, h₂⟩ := Option.bind_eq_some_iff.mp h
      exact L.le_trans (op.le_run L h₁) (ih h₂)

theorem StoreMaps.Numbered.maxIno_ne {m : StoreMaps} (h : m.Numbered) :
    maxIno m.inodeMap.map.toList ≠ u64Max := by
  intro hmax
  rcases maxIno_mem m.inodeMap.map.toList with hone | hmem
  · rw [hone] at hmax
    exact absurd hmax (by decide)
  · rw [hmax, Std.ExtTreeMap.map_fst_toList_eq_keys, Std.ExtTreeMap.mem_keys] at hmem
    exact h.2 hmem

theorem Reachable.numbered {L : B.Laws} (hB : L.Reliable) {overflowChecks : Bool} {s : Store B}
    (h : Reachable L overflowChecks s) : s.maps.Numbered := by
  induction h with
  | new h =>
      obtain ⟨root, io₁, -, h⟩ := Prog.bind_eq_ok h
      obtain ⟨h, -⟩ := Prod.mk.inj h
      cases h
      constructor
      · simp [StoreMaps.initial, show (1 : UInt64) ≠ u64Max by decide]
      · simp [StoreMaps.initial, show (1 : UInt64) ≠ u64Max by decide]
  | step op _ hrun ih => exact op.numbered_run hrun ih
  | load _ hcommit hle hc hload ih =>
      obtain rfl := eq_loadedStore_of_commit L hB hcommit hle hc hload
      exact ih

/-- `u` has the maps `m` with their next inode number, and `root` as its last root. -/
structure Restores (root : Digest224) (m : StoreMaps) (u : Store B) : Prop where
  inodeData : u.maps.inodeData = m.inodeData
  dirData : u.maps.dirData = m.dirData
  manifestData : u.maps.manifestData = m.manifestData
  xattrData : u.maps.xattrData = m.xattrData
  refcounts : u.maps.refcounts = m.refcounts
  inodeMap : u.maps.inodeMap.map = m.inodeMap.map
  nextIno : u.maps.inodeMap.nextIno = m.inodeMap.nextIno
  lastRoot : u.log.lastRoot = some root

theorem restores_loadedStore (io : B.Io) (root : Digest224) (m : StoreMaps) :
    Restores root m (loadedStore io root m) :=
  ⟨rfl, rfl, rfl, rfl, rfl, rfl, rfl, rfl⟩

/-- A committed root can be loaded at any later time, with the maps of the commit, and
committing the loaded store gives the same root; the same record in version 1 loads to
the same maps without reference counts. -/
theorem commit_loadFromRoot (L : B.Laws) (hB : B.NoIoErrors) {overflowChecks : Bool}
    {s s' t : Store B} {root : Digest224} {ops : List StoreOp}
    (hreach : Reachable L overflowChecks s)
    (hcommit : commit s = ((.ok root, s') : Except (Fault MetaError) _ × _))
    (hrun : runStoreOps ops s' = some t) (hc : L.NoCollision t.io)
    (hroot : 1 ∈ s.maps.inodeData)
    (hsize : overflowChecks = true → totalSize t.io s.maps < 2 ^ 64) :
    (∃ u, loadFromRoot B overflowChecks root t.io = (.ok u, t.io) ∧ Restores root s.maps u ∧
      ∃ u', commit u = ((.ok root, u') : Except (Fault MetaError) _ × _)) ∧
    ∀ io, L.le t.io io → L.NoCollision io → (L.rootRecord s.maps).toBytesV1 ∈ L.stored io →
      (overflowChecks = true → totalSize io s.maps < 2 ^ 64) →
      ∃ u, loadFromRoot B overflowChecks (L.digest (L.rootRecord s.maps).toBytesV1) io =
          (.ok u, io) ∧
        Restores (L.digest (L.rootRecord s.maps).toBytesV1) { s.maps with refcounts := ∅ } u := by
  have hB := hB.reliable L
  have hm := encodable_of_commit hcommit
  obtain ⟨rfl, -, -, -, hs, hrec⟩ := commit_spec L hB hcommit
  have hle := le_runStoreOps L hrun
  have hmax := (hreach.numbered hB).maxIno_ne
  have hmem : s.maps.inodeData.contains 1 = true := Std.ExtTreeMap.contains_iff_mem.mpr hroot
  constructor
  · have hload := loadFromRoot_toBytes L hc (L.stored_mono hle hrec) (hs.mono hle)
      ⟨hm, hmax, hmem, hsize⟩
    refine ⟨_, hload, restores_loadedStore _ _ _, ?_⟩
    obtain ⟨io', hagain, -⟩ := commit_eq (ε := MetaError) L hB
      (s := loadedStore t.io (L.digest (L.rootRecord s.maps).toBytes) s.maps)
      ⟨hm.1, hm.2, hm.3, hm.4, hm.5, hm.6⟩
    exact ⟨_, hagain⟩
  · intro io hio hcio hv1 hsize'
    exact ⟨_, loadFromRoot_toBytesV1 L hcio hv1 (hs.mono (L.le_trans hle hio))
      ⟨hm, hmax, hmem, hsize'⟩, restores_loadedStore _ _ _⟩

end

/-- A new store over an empty backend in memory. -/
def freshStore : Store memoryBlockset :=
  (Store.new memoryBlockset 0 0 MemoryIo.empty).1.toOption.get (by decide +kernel)

theorem reachable_freshStore (overflowChecks : Bool) :
    Reachable memoryLaws overflowChecks freshStore :=
  .new (Prog.eq_ok_of_isSome (by decide +kernel))

/-- The store that `freshStore` is after a commit and one more inode. -/
def freshCommitted : Store memoryBlockset :=
  (runStoreOps [.createInode (.newFile 0 0 0 (S_IFREG ||| 0o644))]
    (commit (ε := MetaError) freshStore).2).get (by decide +kernel)

theorem commit_loadFromRoot_fresh :
    ∃ root u, loadFromRoot memoryBlockset true root freshCommitted.io =
        (.ok u, freshCommitted.io) ∧
      Restores root freshStore.maps u := by
  have h := commit_loadFromRoot (t := freshCommitted) memoryLaws memoryBlockset_noIoErrors
    (reachable_freshStore true)
    (Prog.eq_ok_of_isSome (by decide +kernel)) (Option.some_get _).symm
    (memoryLaws_noCollision (by decide +kernel))
    (by decide +kernel) (fun _ => by decide +kernel)
  obtain ⟨⟨u, hu, hr, -⟩, -⟩ := h
  exact ⟨_, u, hu, hr⟩

/-- `freshStore` without the inode of the root directory: `delete_inode` does not spare
it. -/
def rootlessStore : Store memoryBlockset :=
  ((StoreOp.deleteInode 1).run freshStore).get (by decide +kernel)

/-- A store without the root's inode still commits, and what it committed is refused. -/
theorem commit_rootlessStore_not_loadable :
    ∃ (s' : Store memoryBlockset) (root : Digest224),
      Reachable memoryLaws false rootlessStore ∧
      commit rootlessStore = ((.ok root, s') : Except (Fault MetaError) _ × _) ∧
      memoryLaws.NoCollision s'.io ∧
      (loadFromRoot memoryBlockset false root s'.io).1.toOption.isSome = false :=
  ⟨_, _, (reachable_freshStore false).step (.deleteInode 1) (Option.some_get _).symm,
    Prog.eq_ok_of_isSome (by decide +kernel), memoryLaws_noCollision (by decide +kernel),
    by decide +kernel⟩

end SliceFs
