import SliceFs.SnapshotSwitch
import SliceFs.StoreContents

/-!
# The inode records of a store

A store keeps the digest of each inode twice, in the map that `commit` writes first and in
`inode_data`. Whatever operations are run, both hold the same digests, each of them is the
digest of a stored record of that inode, and their numbers were handed out. These facts
need nothing about collisions, and together with the inode of the root directory they are
what makes a commit loadable.
-/
namespace SliceFs
open TreeMaps ProgramLogic

section
variable {B : Blockset} {ε : Type}

/-- A growth that sees nothing of a store but its inodes: the backend may grow, and the log
and the other maps may change in any way. -/
class InodesOnly (L : outParam B.Laws) (g : Growth (Store B)) : Prop where
  io : ∀ (s : Store B) (io : B.Io), L.le s.io io → g.le s { s with io := io }
  log : ∀ (s : Store B) (l : StoreLog), g.le s { s with log := l }
  maps : ∀ (s : Store B) (m : StoreMaps), m.inodeMap = s.maps.inodeMap →
    m.inodeData = s.maps.inodeData → m.logicalBytes = s.maps.logicalBytes →
    m.inodeCount = s.maps.inodeCount → g.le s { s with maps := m }

section InodesOnly
variable {L : B.Laws} {g : Growth (Store B)} [hg : InodesOnly L g]

instance inodesOnly_modifyLog (f : StoreLog → StoreLog) :
    Growing g (modifyLog f : Prog (Store B) ε Unit) :=
  growing_modify fun s => hg.log s _

instance inodesOnly_onWal (m : Prog Wal WalError Unit) :
    Growing g (onWal m : Prog (Store B) WalError Unit) := by
  constructor
  intro s
  unfold onWal
  split
  · exact g.le_refl s
  · exact hg.log s _

instance inodesOnly_store : StoreGrowth L g where
  onIo _ h := ⟨fun s => hg.io s _ (h.le_run s.io)⟩
  refcounts _ := growing_modify fun s => hg.maps s _ rfl rfl rfl rfl
  manifest _ _ := growing_modify fun s => hg.maps s _ rfl rfl rfl rfl
  flushWal := inodesOnly_onWal _

instance inodesOnly_name : NameGrowth L g where
  rewriteDir p edit _ := by
    have hset : ∀ d, Growing g (setDir p d : StoreM B Unit) := fun d =>
      growing_modify fun s => hg.maps s _ rfl rfl rfl rfl
    unfold rewriteDir
    infer_instance

instance inodesOnly_xattr : XattrGrowth L g where
  xattr _ _ := growing_modify fun s => hg.maps s _ rfl rfl rfl rfl

instance inodesOnly_commit : Growing g (commit : Prog (Store B) ε Digest224) := by
  unfold commit logWalEntry
  infer_instance

instance inodesOnly_createSnapshot (name : Option Str) (now : Now) :
    Growing g (createSnapshot name now : Prog (Store B) ε SnapshotEntry) := by
  unfold createSnapshot logWalEntry
  infer_instance

end InodesOnly

/-- The operations that do not change inodes. -/
def StoreOp.SparesInodes : StoreOp → Prop
  | .createInode _ => False
  | .updateInode _ => False
  | .deleteInode _ => False
  | .createDirectory _ _ _ => False
  | _ => True

theorem StoreOp.le_of_sparesInodes {L : B.Laws} {g : Growth (Store B)} (hg : InodesOnly L g)
    {op : StoreOp} {s s' : Store B} (h : op.run s = some s') (hop : op.SparesInodes) :
    g.le s s' := by
  have key : ∀ {ε α : Type} (m : Prog (Store B) ε α) [hm : Growing g m],
      Prog.exec m s = some s' → g.le s s' := by
    intro ε α m hm hrun
    rw [← Prog.snd_of_exec hrun]
    exact hm.le_run s
  unfold StoreOp.run SliceFs.setSnapshots SliceFs.setWal SliceFs.flushWal SliceFs.shutdownWal
    SliceFs.commitRoot logWalEntry at h
  cases op with
  | createInode => exact hop.elim
  | updateInode => exact hop.elim
  | deleteInode => exact hop.elim
  | createDirectory => exact hop.elim
  | _ => exact key _ h

variable (L : B.Laws)

/-- The inode maps agree and name stored records of numbers that were handed out. -/
structure Blockset.Laws.Recorded (s : Store B) : Prop where
  same : s.maps.inodeMap.map = s.maps.inodeData
  next : ∀ ino ∈ s.maps.inodeData, ino < s.maps.inodeMap.nextIno
  stored : ∀ (ino : UInt64) (d : Digest224), s.maps.inodeData[ino]? = some d →
    ∃ m : InodeMeta, m.ino = ino ∧ serializeInode m ∈ L.stored s.io ∧
    d = L.digest (serializeInode m)

variable {L} {s : Store B}

namespace Blockset.Laws.Recorded

theorem grow (h : L.Recorded s) {io : B.Io} (hle : L.le s.io io) :
    L.Recorded { s with io := io } where
  same := h.same
  next := h.next
  stored ino d hd := by
    obtain ⟨m, hino, hm, rfl⟩ := h.stored ino d hd
    exact ⟨m, hino, L.stored_mono hle hm, rfl⟩

/-- Only the inode maps and the backend matter. -/
theorem congr (h : L.Recorded s) {s' : Store B} (hio : s'.io = s.io)
    (hmap : s'.maps.inodeMap = s.maps.inodeMap) (hdata : s'.maps.inodeData = s.maps.inodeData) :
    L.Recorded s' where
  same := by rw [hmap, hdata, h.same]
  next := by
    rw [hmap, hdata]
    exact h.next
  stored := by
    rw [hio, hdata]
    exact h.stored

theorem setInode (h : L.Recorded s) {m : InodeMeta} (hlt : m.ino < s.maps.inodeMap.nextIno)
    (hm : serializeInode m ∈ L.stored s.io) :
    L.Recorded { s with maps := s.maps.setInode m.ino (L.digest (serializeInode m)) } where
  same := by
    simp only [StoreMaps.setInode, h.same]
  next ino hino := by
    simp only [StoreMaps.setInode, Std.ExtTreeMap.mem_insert, Std.LawfulEqCmp.compare_eq_iff_eq]
      at hino
    rcases hino with rfl | hmem
    · exact hlt
    · exact h.next ino hmem
  stored ino d hd := by
    simp only [StoreMaps.setInode, getElem?_insert_ite] at hd
    split_ifs at hd with heq
    · exact ⟨m, heq.symm, hm, (Option.some.inj hd).symm⟩
    · exact h.stored ino d hd

theorem removeInode (h : L.Recorded s) (ino : UInt64) :
    L.Recorded { s with maps := s.maps.removeInode ino } where
  same := by
    simp only [StoreMaps.removeInode, h.same]
  next i hi := h.next i (Std.ExtTreeMap.mem_of_mem_erase hi)
  stored i d hd := by
    simp only [StoreMaps.removeInode, getElem?_erase_ite] at hd
    split_ifs at hd with heq
    exact h.stored i d hd

/-- More numbers are handed out. -/
theorem burn (h : L.Recorded s) {next : UInt64} (hle : s.maps.inodeMap.nextIno ≤ next) :
    L.Recorded { s with
      maps := { s.maps with inodeMap := { s.maps.inodeMap with nextIno := next } } } where
  same := h.same
  next ino hino := UInt64.lt_of_lt_of_le (h.next ino hino) hle
  stored := h.stored

theorem names (h : L.Recorded s) (ino : UInt64) (d : Digest224)
    (hd : s.maps.inodeData[ino]? = some d) : ∃ b ∈ L.stored s.io, d = L.digest b := by
  obtain ⟨m, -, hm, rfl⟩ := h.stored ino d hd
  exact ⟨_, hm, rfl⟩

theorem numbered (h : L.Recorded s) : s.maps.Numbered := by
  have hmax : u64Max ∉ s.maps.inodeData := fun hmem =>
    absurd (h.next u64Max hmem) (UInt64.not_lt.mpr (UInt64.le_iff_toNat_le.mpr
      (Nat.le_of_lt_succ (UInt64.toNat_lt _))))
  refine ⟨hmax, ?_⟩
  rw [h.same]
  exact hmax

end Blockset.Laws.Recorded

theorem recorded_new (hB : L.Reliable) {uid gid : UInt32} {io io' : B.Io}
    (h : Store.new B uid gid io = (.ok s, io')) : L.Recorded s := by
  obtain ⟨io₁, rfl, -, hm, -⟩ := new_eq (L := L) hB h
  refine ⟨rfl, fun ino hino => ?_, fun ino d hd => ?_⟩
  · simp only [StoreMaps.initial, Std.ExtTreeMap.mem_insert, Std.LawfulEqCmp.compare_eq_iff_eq,
      Std.ExtTreeMap.not_mem_empty, or_false] at hino
    subst hino
    exact (by decide : (1 : UInt64) < 2)
  · simp only [StoreMaps.initial, getElem?_insert_ite] at hd
    split_ifs at hd with heq
    · exact ⟨rootInode uid gid, heq.symm, hm, (Option.some.inj hd).symm⟩
    · simp at hd

variable (L) in
/-- The backend grows and the inode maps stay recorded. -/
def Blockset.Laws.growthRecorded : Growth (Store B) := L.growthStore.both (.keeps L.Recorded)

instance inodesOnly_recorded : InodesOnly L L.growthRecorded where
  io _ _ hle := ⟨hle, fun hs => hs.grow hle⟩
  log s _ := ⟨L.le_refl s.io, fun hs => hs.congr rfl rfl rfl⟩
  maps s _ hmap hdata _ _ := ⟨L.le_refl s.io, fun hs => hs.congr rfl hmap hdata⟩

theorem growingRecorded_allocateIno :
    Growing L.growthRecorded (allocateIno : Prog (Store B) ε UInt64) := by
  constructor
  intro s
  rw [allocateIno_apply]
  split_ifs with hmax
  · exact L.growthRecorded.le_refl s
  · exact ⟨L.le_refl s.io, fun hs => hs.burn (UInt64.le_of_lt (lt_add_one_of_ne_u64Max hmax))⟩

/-- `create_inode`, as one change of the store. -/
theorem createInode_apply (hB : L.Reliable) (m : InodeMeta) (s : Store B)
    (hmax : s.maps.inodeMap.nextIno ≠ u64Max) :
    ∃ io, L.le s.io io ∧ serializeInode { m with ino := s.maps.inodeMap.nextIno } ∈ L.stored io ∧
      createInode m s = (.ok s.maps.inodeMap.nextIno, { s with
        io := io
        maps := { ({ s.maps with inodeMap := { s.maps.inodeMap with
            nextIno := s.maps.inodeMap.nextIno + 1 } } : StoreMaps).setInode s.maps.inodeMap.nextIno
              (L.digest (serializeInode { m with ino := s.maps.inodeMap.nextIno })) with
          logicalBytes := s.maps.logicalBytes + m.size
          inodeCount := s.maps.inodeCount + 1 } }) := by
  have halloc := allocateIno_apply (ε := MetaError) s
  rw [if_neg hmax] at halloc
  obtain ⟨io, hpush, hle, hm⟩ := onIo_pushAll_eq (L := L) (ε := MetaError) hB
    (serializeInode { m with ino := s.maps.inodeMap.nextIno }) { s with maps := { s.maps with
      inodeMap := { s.maps.inodeMap with nextIno := s.maps.inodeMap.nextIno + 1 } } }
  refine ⟨io, hle, hm, ?_⟩
  rw [createInode, Prog.bind_ok halloc, internInode, Prog.bind_ok hpush]
  rfl

/-- `update_inode` on an inode that exists. -/
theorem updateInode_apply (hB : L.Reliable) {m : InodeMeta} {s : Store B} {d : Digest224}
    (hd : s.maps.inodeData[m.ino]? = some d) :
    ∃ io, L.le s.io io ∧ serializeInode m ∈ L.stored io ∧
      updateInode m s = (.ok (), { s with
        io := io
        maps := { s.maps.setInode m.ino (L.digest (serializeInode m)) with
          logicalBytes :=
            if sizeAt s.io d < m.size then s.maps.logicalBytes + (m.size - sizeAt s.io d)
            else saturatingSub s.maps.logicalBytes (sizeAt s.io d - m.size) } }) := by
  have hread : (readMaps (fun maps => maps.inodeData[m.ino]?) : StoreM B _) s =
      (.ok (some d), s) := by
    rw [readMaps, Prog.read_apply, hd]
  have hsize : onIo (loadSize B d) s = (.ok (sizeAt s.io d), s) := by
    rw [onIo, Prog.zoom, loadSize_apply]
  obtain ⟨io, hpush, hle, hm⟩ := onIo_pushAll_eq (L := L) (ε := MetaError) hB (serializeInode m) s
  refine ⟨io, hle, hm, ?_⟩
  rw [updateInode, Prog.bind_ok hread, Prog.ofOption_some, Prog.bind_ok (Prog.pure_apply _ _),
    Prog.bind_ok hsize, internInode, Prog.bind_ok hpush]
  rfl

theorem updateInode_missing {m : InodeMeta} {s : Store B} (hd : s.maps.inodeData[m.ino]? = none) :
    updateInode m s = (.error (.err (.notFound m.ino)), s) := by
  have hread : (readMaps (fun maps => maps.inodeData[m.ino]?) : StoreM B _) s = (.ok none, s) := by
    rw [readMaps, Prog.read_apply, hd]
  rw [updateInode, Prog.bind_ok hread]
  rfl

theorem deleteInode_apply (ino : UInt64) (s : Store B) :
    deleteInode ino s = (s.maps.inodeData[ino]?).elim (.error (.err (.notFound ino)), s) fun d =>
      (.ok (), { s with maps := { s.maps.removeInode ino with
        logicalBytes := saturatingSub s.maps.logicalBytes (sizeAt s.io d)
        inodeCount := saturatingSub s.maps.inodeCount 1 } }) := by
  cases hd : s.maps.inodeData[ino]? with
  | none =>
      have hread : (readMaps (fun maps => maps.inodeData[ino]?) : StoreM B _) s =
          (.ok none, s) := by
        rw [readMaps, Prog.read_apply, hd]
      rw [deleteInode, Prog.bind_ok hread]
      rfl
  | some d =>
      have hread : (readMaps (fun maps => maps.inodeData[ino]?) : StoreM B _) s =
          (.ok (some d), s) := by
        rw [readMaps, Prog.read_apply, hd]
      have hsize : onIo (loadSize B d) s = (.ok (sizeAt s.io d), s) := by
        rw [onIo, Prog.zoom, loadSize_apply]
      rw [deleteInode, Prog.bind_ok hread, Prog.ofOption_some, Prog.bind_ok (Prog.pure_apply _ _),
        Prog.bind_ok hsize]
      rfl

theorem recorded_inode (hB : L.Reliable) : InodeGrowth L L.growthRecorded where
  allocateIno := growingRecorded_allocateIno
  createInode m := by
    constructor
    intro s
    by_cases hmax : s.maps.inodeMap.nextIno = u64Max
    · have halloc := allocateIno_apply (ε := MetaError) s
      rw [if_pos hmax] at halloc
      rw [createInode, Prog.bind_error halloc]
      exact L.growthRecorded.le_refl s
    · obtain ⟨io, hle, hm, hrun⟩ := createInode_apply (L := L) hB m s hmax
      rw [hrun]
      refine ⟨hle, fun hs => ?_⟩
      have hlt := lt_add_one_of_ne_u64Max hmax
      exact (((hs.burn (UInt64.le_of_lt hlt)).grow hle).setInode
        (m := { m with ino := s.maps.inodeMap.nextIno }) hlt hm).congr rfl rfl rfl
  updateInode m := by
    constructor
    intro s
    cases hd : s.maps.inodeData[m.ino]? with
    | none =>
        rw [updateInode_missing hd]
        exact L.growthRecorded.le_refl s
    | some d =>
        obtain ⟨io, hle, hm, hrun⟩ := updateInode_apply (L := L) hB hd
        rw [hrun]
        exact ⟨hle, fun hs => ((hs.grow hle).setInode
          (hs.next m.ino (mem_of_getElem?_eq_some hd)) hm).congr rfl rfl rfl⟩
  deleteInode ino := by
    constructor
    intro s
    rw [deleteInode_apply]
    cases s.maps.inodeData[ino]? with
    | none => exact L.growthRecorded.le_refl s
    | some d => exact ⟨L.le_refl s.io, fun hs => (hs.removeInode ino).congr rfl rfl rfl⟩

/-- `insert_directory` fails before it changed the maps, or it sets the inode and both
directories and goes on to the links of the parent. -/
theorem insertDirectory_cases (hB : L.Reliable) (ino p : UInt64) (name : Str) (m : InodeMeta)
    (s : Store B) :
    (∃ f io, L.le s.io io ∧ insertDirectory ino p name m s = (.error f, { s with io := io })) ∨
      ∃ io dirs, L.le s.io io ∧ serializeInode (m.asDirectory ino) ∈ L.stored io ∧
        insertDirectory ino p name m s = (do
          addBacklink p
          modifyMaps fun m => { m with inodeCount := m.inodeCount + 1 } : StoreM B Unit) { s with
            io := io
            maps := { s.maps.setInode ino (L.digest (serializeInode (m.asDirectory ino))) with
              dirData := dirs } } := by
  obtain ⟨io, hintern, hle, hm, -⟩ :=
    onIo_internDirectory_eq (L := L) (ε := MetaError) hB (m.asDirectory ino) ino p s
  cases hdir : s.maps.dirData[p]? with
  | none =>
      have hfail : dirDigestOf p s = (.error (.err (.notADirectory p)), s) := by
        rw [dirDigestOf_apply, hdir]
        rfl
      exact .inl ⟨_, s.io, L.le_refl _, by rw [insertDirectory, Prog.bind_error hfail]⟩
  | some parentDir =>
      have hok : dirDigestOf p s = (.ok parentDir, s) := by
        rw [dirDigestOf_apply, hdir]
        rfl
      have hadd : Growing L.growth (addDirEntry B parentDir name ino) := inferInstance
      have hgrow := L.le_trans hle (hadd.le_run io)
      have hentry : onIo (addDirEntry B parentDir name ino) { s with io := io } =
          ((addDirEntry B parentDir name ino io).1,
            { s with io := (addDirEntry B parentDir name ino io).2 }) := rfl
      rw [insertDirectory, Prog.bind_ok hok, Prog.bind_ok hintern]
      cases hre : (addDirEntry B parentDir name ino io).1 with
      | error f =>
          rw [hre] at hentry
          exact .inl ⟨f, _, hgrow, by rw [Prog.bind_error hentry]⟩
      | ok newParentDir =>
          rw [hre] at hentry
          refine .inr ⟨_, (s.maps.dirData.insert ino
            (L.digest (serializeEntryList (L.newDir ino p)))).insert
            p newParentDir, hgrow, L.stored_mono (hadd.le_run io) hm, ?_⟩
          rw [Prog.bind_ok hentry]
          rfl

/-- A number that was handed out can be made a directory. -/
theorem recorded_insertDirectory (hB : L.Reliable) {ino : UInt64} (p : UInt64) (name : Str)
    (m : InodeMeta) {s : Store B} (hs : L.Recorded s) (hino : ino < s.maps.inodeMap.nextIno) :
    L.Recorded (insertDirectory ino p name m s).2 := by
  have := recorded_inode (L := L) hB
  rcases insertDirectory_cases (L := L) hB ino p name m s with
    ⟨f, io, hle, hrun⟩ | ⟨io, dirs, hle, hm, hrun⟩
  · rw [hrun]
    exact hs.grow hle
  · have hcount : Growing L.growthRecorded
        (modifyMaps fun m => { m with inodeCount := m.inodeCount + 1 } : StoreM B Unit) :=
      growing_modify fun s => ⟨L.le_refl s.io, fun hs => hs.congr rfl rfl rfl⟩
    have hend : Growing L.growthRecorded (do
        addBacklink p
        modifyMaps fun m => { m with inodeCount := m.inodeCount + 1 } : StoreM B Unit) :=
          inferInstance
    rw [hrun]
    exact (hend.le_run _).2
      (((hs.grow hle).setInode (m := m.asDirectory ino) hino hm).congr rfl rfl rfl)

theorem snd_bind_pure {α β : Type} (m : Prog (Store B) ε α) (b : β) (s : Store B) :
    ((do let _ ← m; pure b : Prog (Store B) ε β) s).2 = (m s).2 := by
  cases hrun : m s with
  | mk r s₁ =>
      cases r with
      | error f => rw [Prog.bind_error hrun]
      | ok a => rw [Prog.bind_ok hrun, Prog.pure_apply]

/-- `get_inode` changes nothing, and finds only inodes of the map. -/
theorem getInode_cases (ino : UInt64) (s : Store B) :
    (∃ f, getInode ino s = (.error f, s)) ∨
      ∃ m, getInode ino s = (.ok m, s) ∧ ino ∈ s.maps.inodeData := by
  cases hd : s.maps.inodeData[ino]? with
  | none =>
      have hread : (readMaps (fun maps => maps.inodeData[ino]?) : StoreM B _) s =
          (.ok none, s) := by
        rw [readMaps, Prog.read_apply, hd]
      exact .inl ⟨_, by rw [getInode, Prog.bind_ok hread]; rfl⟩
  | some d =>
      have hread : (readMaps (fun maps => maps.inodeData[ino]?) : StoreM B _) s =
          (.ok (some d), s) := by
        rw [readMaps, Prog.read_apply, hd]
      have hrun : getInode ino s = onIo (loadInode B d) s := by
        rw [getInode, Prog.bind_ok hread, Prog.ofOption_some, Prog.bind_ok (Prog.pure_apply _ _)]
      have hio : (loadInode B d s.io).2 = s.io := by
        rw [loadInode, loadRecord_apply]
      rw [hrun, onIo, Prog.zoom, hio]
      cases (loadInode B d s.io).1 with
      | error f => exact .inl ⟨f, rfl⟩
      | ok m => exact .inr ⟨m, rfl, mem_of_getElem?_eq_some hd⟩

/-- `create_directory` changes nothing, or it hands out a number for the new directory. -/
theorem createDirectory_cases (p : UInt64) (name : Str) (m : InodeMeta) (s : Store B) :
    (∃ f, createDirectory p name m s = (.error f, s)) ∨
      p ∈ s.maps.inodeData ∧ s.maps.inodeMap.nextIno ≠ u64Max ∧
        createDirectory p name m s = (do
          insertDirectory s.maps.inodeMap.nextIno p name m
          pure s.maps.inodeMap.nextIno : StoreM B UInt64) { s with maps := { s.maps with
            inodeMap := { s.maps.inodeMap with nextIno := s.maps.inodeMap.nextIno + 1 } } } := by
  rw [createDirectory]
  rcases getInode_cases p s with ⟨f, hget⟩ | ⟨parent, hget, hp⟩
  · exact .inl ⟨f, Prog.bind_error hget⟩
  rw [Prog.bind_ok hget]
  by_cases hdir : parent.isDir
  · rw [Prog.ensure_bind_of hdir]
    cases hdigest : s.maps.dirData[p]? with
    | none =>
        have hfail : dirDigestOf p s = (.error (.err (.notADirectory p)), s) := by
          rw [dirDigestOf_apply, hdigest]
          rfl
        exact .inl ⟨_, Prog.bind_error hfail⟩
    | some d =>
        have hok : dirDigestOf p s = (.ok d, s) := by
          rw [dirDigestOf_apply, hdigest]
          rfl
        rw [Prog.bind_ok hok]
        have halloc := allocateIno_apply (ε := MetaError) s
        split_ifs at halloc with hmax
        · exact .inl ⟨_, Prog.bind_error halloc⟩
        · exact .inr ⟨hp, hmax, Prog.bind_ok halloc⟩
  · exact .inl ⟨_, Prog.ensure_bind_of_not hdir _ _ _⟩

theorem recorded_createDirectory (hB : L.Reliable) (p : UInt64) (name : Str) (m : InodeMeta) :
    Growing L.growthRecorded (createDirectory p name m : StoreM B UInt64) := by
  constructor
  intro s
  rcases createDirectory_cases p name m s with ⟨f, hrun⟩ | ⟨-, hmax, hrun⟩
  · rw [hrun]
    exact L.growthRecorded.le_refl s
  · have hquiet : Growing L.growthQuiet (createDirectory p name m : StoreM B UInt64) :=
      inferInstance
    refine ⟨(hquiet.le_run s).1, fun hs => ?_⟩
    have hlt := lt_add_one_of_ne_u64Max hmax
    rw [hrun, snd_bind_pure]
    exact recorded_insertDirectory hB p name m (hs.burn (UInt64.le_of_lt hlt)) hlt

theorem recorded_tree (hB : L.Reliable) : TreeGrowth L L.growthRecorded :=
  { recorded_inode hB, inodesOnly_name with
    createDirectory := recorded_createDirectory hB }

/-- Every operation keeps the inode maps recorded. -/
theorem StoreOp.recorded_run (hB : L.Reliable) {op : StoreOp} {s s' : Store B}
    (h : op.run s = some s') (hs : L.Recorded s) : L.Recorded s' := by
  have htree := recorded_tree (L := L) hB
  have key : ∀ {ε α : Type} (m : Prog (Store B) ε α), Growing L.growthRecorded m →
      Prog.exec m s = some s' → L.Recorded s' := by
    intro ε α m hm hrun
    rw [← Prog.snd_of_exec hrun]
    exact (hm.le_run s).2 hs
  cases op with
  | createInode inode => exact key _ (htree.createInode inode) h
  | updateInode inode => exact key _ (htree.updateInode inode) h
  | deleteInode ino => exact key _ (htree.deleteInode ino) h
  | createDirectory parent name inode => exact key _ (htree.createDirectory parent name inode) h
  | _ => exact (StoreOp.le_of_sparesInodes (inodesOnly_recorded (L := L)) h trivial).2 hs

variable (L) in
/-- The backend grows and the inode of the root directory stays. -/
def Blockset.Laws.growthRooted : Growth (Store B) :=
  L.growthStore.both (.keeps fun s => 1 ∈ s.maps.inodeData)

instance inodesOnly_rooted : InodesOnly L L.growthRooted where
  io _ _ hle := ⟨hle, id⟩
  log s _ := ⟨L.le_refl s.io, id⟩
  maps s m _ hdata _ _ := ⟨L.le_refl s.io, fun h => show 1 ∈ m.inodeData from hdata ▸ h⟩

theorem growingRooted_modify {f : StoreMaps → StoreMaps}
    (h : ∀ m : StoreMaps, 1 ∈ m.inodeData → 1 ∈ (f m).inodeData) :
    Growing L.growthRooted (modifyMaps f : Prog (Store B) ε Unit) :=
  growing_modify fun s => ⟨L.le_refl s.io, h s.maps⟩

theorem StoreMaps.one_mem_setInode {m : StoreMaps} (h : 1 ∈ m.inodeData) (ino : UInt64)
    (d : Digest224) : 1 ∈ (m.setInode ino d).inodeData :=
  Std.ExtTreeMap.mem_insert.mpr (.inr h)

instance growingRooted_allocateIno :
    Growing L.growthRooted (allocateIno : Prog (Store B) ε UInt64) := by
  have hnext : ∀ ino : UInt64, Growing L.growthRooted (modifyMaps (B := B) (ε := ε) fun m =>
      { m with inodeMap := { m.inodeMap with nextIno := ino + 1 } }) :=
    fun ino => growingRooted_modify fun _ h => h
  unfold allocateIno
  infer_instance

instance growingRooted_createInode (m : InodeMeta) :
    Growing L.growthRooted (createInode m : StoreM B UInt64) := by
  have hset : ∀ ino d, Growing L.growthRooted (modifyMaps (B := B) (ε := MetaError) fun maps =>
      { maps.setInode ino d with
        logicalBytes := maps.logicalBytes + m.size
        inodeCount := maps.inodeCount + 1 }) :=
    fun ino d => growingRooted_modify fun _ h => StoreMaps.one_mem_setInode h ino d
  unfold createInode
  infer_instance

instance growingRooted_updateInode (m : InodeMeta) :
    Growing L.growthRooted (updateInode m : StoreM B Unit) := by
  have hset : ∀ d size, Growing L.growthRooted (modifyMaps (B := B) (ε := MetaError) fun maps =>
      { maps.setInode m.ino d with
        logicalBytes :=
          if size < m.size then maps.logicalBytes + (m.size - size)
          else saturatingSub maps.logicalBytes (size - m.size) }) :=
    fun d size => growingRooted_modify fun _ h => StoreMaps.one_mem_setInode h m.ino d
  unfold updateInode
  infer_instance

/-- Only the inode of the root directory itself may not be deleted. -/
theorem growingRooted_deleteInode {ino : UInt64} (hino : ino ≠ 1) :
    Growing L.growthRooted (deleteInode ino : StoreM B Unit) := by
  have hremove : ∀ size, Growing L.growthRooted (modifyMaps (B := B) (ε := MetaError) fun maps =>
      { maps.removeInode ino with
        logicalBytes := saturatingSub maps.logicalBytes size
        inodeCount := saturatingSub maps.inodeCount 1 }) :=
    fun size => growingRooted_modify fun m h =>
      Std.ExtTreeMap.mem_erase.mpr ⟨fun heq => hino (Std.LawfulEqCmp.eq_of_compare heq), h⟩
  unfold deleteInode
  infer_instance

instance growingRooted_addBacklink (p : UInt64) :
    Growing L.growthRooted (addBacklink p : StoreM B Unit) := by
  unfold addBacklink
  infer_instance

instance growingRooted_insertDirectory (ino p : UInt64) (name : Str) (m : InodeMeta) :
    Growing L.growthRooted (insertDirectory ino p name m : StoreM B Unit) := by
  have hset : ∀ (newDir : Digest224 × Digest224) (newParentDir : Digest224),
      Growing L.growthRooted (modifyMaps (B := B) (ε := MetaError) fun maps =>
        { maps.setInode ino newDir.1 with
          dirData := (maps.dirData.insert ino newDir.2).insert p newParentDir }) :=
    fun newDir newParentDir => growingRooted_modify fun _ h =>
      StoreMaps.one_mem_setInode h ino newDir.1
  have hcount : Growing L.growthRooted (modifyMaps (B := B) (ε := MetaError) fun maps =>
      { maps with inodeCount := maps.inodeCount + 1 }) :=
    growingRooted_modify fun _ h => h
  unfold insertDirectory
  infer_instance

instance growingRooted_createDirectory (p : UInt64) (name : Str) (m : InodeMeta) :
    Growing L.growthRooted (createDirectory p name m : StoreM B UInt64) := by
  unfold createDirectory
  infer_instance

theorem StoreOp.rooted_run (L : B.Laws) {op : StoreOp} {s s' : Store B} (h : op.run s = some s')
    (hop : op ≠ .deleteInode 1) (hs : 1 ∈ s.maps.inodeData) : 1 ∈ s'.maps.inodeData := by
  have key : ∀ {ε α : Type} (m : Prog (Store B) ε α), Growing L.growthRooted m →
      Prog.exec m s = some s' → 1 ∈ s'.maps.inodeData := by
    intro ε α m hm hrun
    rw [← Prog.snd_of_exec hrun]
    exact (hm.le_run s).2 hs
  cases op with
  | createInode inode => exact key _ (growingRooted_createInode inode) h
  | updateInode inode => exact key _ (growingRooted_updateInode inode) h
  | deleteInode ino =>
      exact key _ (growingRooted_deleteInode fun hino => hop (congrArg StoreOp.deleteInode hino)) h
  | createDirectory parent name inode =>
      exact key _ (growingRooted_createDirectory parent name inode) h
  | _ => exact (StoreOp.le_of_sparesInodes (inodesOnly_rooted (L := L)) h trivial).2 hs

end

end SliceFs
