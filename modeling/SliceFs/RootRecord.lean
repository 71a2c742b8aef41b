import SliceFs.MetadataStore
import SliceFs.MemoryBackend

/-!
# Committing and loading a root

`commit` stores the maps as blobs and a record of their digests as the root;
`load_from_root` reads them back. The record of version 2 is 184 bytes long; version 1
ends before the digest of the reference counts, at 156 bytes.

The results hold for whatever the store does after the commit, because the backend
only gains blobs. Two conditions come from the loader: it refuses a record whose root
directory has no inode, and it adds up the sizes of all inodes in 64 bits. That sum is
the one place where file contents, not the number of calls, decide whether an integer
overflows, so `overflowChecks` tells the two kinds of build apart there.
-/
namespace SliceFs
open LittleEndian ByteFile TreeMaps ProgramLogic

/-- The digests and numbers of a root record; the root directory is always inode 1. -/
structure RootRecord where
  inodeMap : Digest224
  nextIno : UInt64
  inodeData : Digest224
  dirData : Digest224
  manifestData : Digest224
  xattrData : Digest224
  refcounts : Digest224

/-- The record of version 1. -/
def RootRecord.toBytesV1 (r : RootRecord) : Bytes :=
  digestBytes r.inodeMap ++ u64Bytes 1 ++ u64Bytes r.nextIno ++ digestBytes r.inodeData ++
    digestBytes r.dirData ++ digestBytes r.manifestData ++ digestBytes r.xattrData

def RootRecord.toBytes (r : RootRecord) : Bytes := r.toBytesV1 ++ digestBytes r.refcounts

section Commit
variable (B : Blockset) {ε : Type}

def internInodeMap (m : InodeMap) : Prog B.Fsa ε Digest224 := do
  Prog.assert (m.map.size * 36 ≤ isizeMax)
  B.step (B.pushAll (serializeInodeMap m))

def internU64DigestMap (m : Map UInt64 Digest224) : Prog B.Fsa ε Digest224 := do
  Prog.assert (8 + m.size * 36 ≤ isizeMax)
  B.step (B.pushAll (serializeMap entryBytes m))

def internDigest224U64Map (m : Map Digest224 UInt64) : Prog B.Fsa ε Digest224 := do
  Prog.assert (8 + m.size * 36 ≤ isizeMax)
  B.step (B.pushAll (serializeMap countEntryBytes m))

def internMaps (m : StoreMaps) : Prog B.Fsa ε Digest224 := do
  let inodeMap ← internInodeMap B m.inodeMap
  let inodeData ← internU64DigestMap B m.inodeData
  let dirData ← internU64DigestMap B m.dirData
  let manifestData ← internU64DigestMap B m.manifestData
  let xattrData ← internU64DigestMap B m.xattrData
  let refcounts ← internDigest224U64Map B m.refcounts
  B.step (B.pushAll (RootRecord.toBytes
    ⟨inodeMap, m.inodeMap.nextIno, inodeData, dirData, manifestData, xattrData, refcounts⟩))

variable {B}

def commit : Prog (Store B) ε Digest224 := do
  let maps ← readMaps id
  let root ← onIo (B.withFsa (internMaps B maps))
  modifyLog fun l => { l with lastRoot := some root }
  logWalEntry (.rootUpdate root)
  pure root

/-- Redirects the live root without writing any state. -/
def commitRoot (root : Digest224) : Prog (Store B) ε Unit := do
  modifyLog fun l => { l with lastRoot := some root }
  logWalEntry (.rootUpdate root)

def nextVersion (l : StoreLog) : UInt64 := (l.snapshotsByVersion.keys.max?).getD 0

def createSnapshot (name : Option Str) (now : Now) : Prog (Store B) ε SnapshotEntry := do
  let root ← commit
  let highest ← readLog nextVersion
  Prog.assert (highest ≠ u64Max)
  let entry : SnapshotEntry := ⟨highest + 1, name, root, now.secs⟩
  logWalEntry (.snapshotRecord entry)
  modifyLog fun l => { l with
    snapshotsByVersion := l.snapshotsByVersion.insert entry.version entry
    snapshotsByName := match name with
      | none => l.snapshotsByName
      | some n => l.snapshotsByName.insert n.bytes entry.version }
  pure entry

def setSnapshots (snapshots : List SnapshotEntry) : Prog (Store B) ε Unit :=
  modifyLog fun l => { l with
    snapshotsByVersion := .ofList (snapshots.map fun s => (s.version, s))
    snapshotsByName :=
      .ofList (snapshots.filterMap fun s => s.name.map fun n => (n.bytes, s.version)) }

variable (L : B.Laws)

instance growing_internMaps (m : StoreMaps) :
    Growing L.growthFsa (internMaps B m : Prog B.Fsa ε Digest224) := by
  unfold internMaps internInodeMap internU64DigestMap internDigest224U64Map
  infer_instance

instance growingStore_commit : Growing L.growthStore (commit : Prog (Store B) ε Digest224) := by
  unfold commit
  infer_instance

instance growingStore_commitRoot (root : Digest224) :
    Growing L.growthStore (commitRoot root : Prog (Store B) ε Unit) := by
  unfold commitRoot
  infer_instance

instance growingStore_createSnapshot (name : Option Str) (now : Now) :
    Growing L.growthStore (createSnapshot name now : Prog (Store B) ε SnapshotEntry) := by
  unfold createSnapshot
  infer_instance

end Commit

section Load
variable (B : Blockset) (overflowChecks : Bool)

def loadInodeMap (key : Digest224) : Prog B.Io MetaError InodeMap :=
  loadRecord "inode_map node" deserializeInodeMap key

def loadU64DigestMap (key : Digest224) : Prog B.Io MetaError (Map UInt64 Digest224) :=
  loadRecord "u64-digest map node" (deserializeMap "u64-digest map" parseEntry) key

def loadDigest224U64Map (key : Digest224) : Prog B.Io MetaError (Map Digest224 UInt64) :=
  loadRecord "digest224-u64 map node" (deserializeMap "digest224-u64 map" parseCountEntry) key

/-- The sizes of the inodes under these digests, added up in 64 bits. -/
def sumSizes : UInt64 → List Digest224 → Prog B.Io MetaError UInt64
  | acc, [] => pure acc
  | acc, d :: ds => do
    let size ← loadSize B d
    Prog.assert (overflowChecks = true → acc.toNat + size.toNat < 2 ^ 64)
    sumSizes (acc + size) ds

/-- The two record versions, told apart by their length. -/
def loadRefcounts (bytes : Bytes) : Prog B.Io MetaError (Map Digest224 UInt64) :=
  if bytes.length = 184 then loadDigest224U64Map B (parseDigest224 (slice bytes 156 184))
  else pure ∅

def loadFromRoot (root : Digest224) : Prog B.Io MetaError (Store B) := do
  let bytes ← B.get root
  let bytes ← Prog.ofOption bytes (.corrupted "missing root node")
  Prog.ensure (bytes.length = 156 ∨ bytes.length = 184)
    (.corrupted ("root record: expected 156 or 184 bytes, got " ++ toString bytes.length))
  let inodeMap ← loadInodeMap B (parseDigest224 (slice bytes 0 28))
  let inodeData ← loadU64DigestMap B (parseDigest224 (slice bytes 44 72))
  let dirData ← loadU64DigestMap B (parseDigest224 (slice bytes 72 100))
  let manifestData ← loadU64DigestMap B (parseDigest224 (slice bytes 100 128))
  let xattrData ← loadU64DigestMap B (parseDigest224 (slice bytes 128 156))
  let refcounts ← loadRefcounts B bytes
  Prog.ensure (inodeData.contains (u64OfBytes (slice bytes 28 36)) = true)
    (.corrupted ("root dir ino " ++ toString (u64OfBytes (slice bytes 28 36)).toNat ++
      " not found in inode_data after reload"))
  let logicalBytes ← sumSizes B overflowChecks 0 (inodeData.toList.map Prod.snd)
  Prog.read fun io =>
    { io := io
      maps := {
        inodeMap := { inodeMap with nextIno := u64OfBytes (slice bytes 36 44) }
        inodeData := inodeData
        dirData := dirData
        manifestData := manifestData
        xattrData := xattrData
        refcounts := refcounts
        logicalBytes := logicalBytes
        inodeCount := UInt64.ofNat inodeData.size }
      log := { StoreLog.empty with lastRoot := some root } }

end Load

section CommitSpec
variable {B : Blockset} {ε : Type} (L : B.Laws)

/-- The record `commit` writes for these maps. -/
def Blockset.Laws.rootRecord (m : StoreMaps) : RootRecord where
  inodeMap := L.digest (serializeInodeMap m.inodeMap)
  nextIno := m.inodeMap.nextIno
  inodeData := L.digest (serializeMap entryBytes m.inodeData)
  dirData := L.digest (serializeMap entryBytes m.dirData)
  manifestData := L.digest (serializeMap entryBytes m.manifestData)
  xattrData := L.digest (serializeMap entryBytes m.xattrData)
  refcounts := L.digest (serializeMap countEntryBytes m.refcounts)

/-- The encodings of the maps fit in memory, so that `commit` does not panic. -/
structure StoreMaps.Encodable (m : StoreMaps) : Prop where
  inodeMap : m.inodeMap.map.size * 36 ≤ isizeMax
  inodeData : 8 + m.inodeData.size * 36 ≤ isizeMax
  dirData : 8 + m.dirData.size * 36 ≤ isizeMax
  manifestData : 8 + m.manifestData.size * 36 ≤ isizeMax
  xattrData : 8 + m.xattrData.size * 36 ≤ isizeMax
  refcounts : 8 + m.refcounts.size * 36 ≤ isizeMax

/-- The blobs of the maps are in the backend. -/
structure Blockset.Laws.MapsStored (io : B.Io) (m : StoreMaps) : Prop where
  inodeMap : serializeInodeMap m.inodeMap ∈ L.stored io
  inodeData : serializeMap entryBytes m.inodeData ∈ L.stored io
  dirData : serializeMap entryBytes m.dirData ∈ L.stored io
  manifestData : serializeMap entryBytes m.manifestData ∈ L.stored io
  xattrData : serializeMap entryBytes m.xattrData ∈ L.stored io
  refcounts : serializeMap countEntryBytes m.refcounts ∈ L.stored io

theorem Blockset.Laws.MapsStored.mono {L : B.Laws} {a b : B.Io} {m : StoreMaps}
    (h : L.MapsStored a m) (hle : L.le a b) : L.MapsStored b m where
  inodeMap := L.stored_mono hle h.inodeMap
  inodeData := L.stored_mono hle h.inodeData
  dirData := L.stored_mono hle h.dirData
  manifestData := L.stored_mono hle h.manifestData
  xattrData := L.stored_mono hle h.xattrData
  refcounts := L.stored_mono hle h.refcounts

/-- A blob pushed after a capacity check that passes. -/
theorem assert_pushAll_eq (hB : L.Reliable) {c : Prop} [Decidable c] (hc : c) (b : Bytes)
    (f : B.Fsa) :
    ∃ f', (do Prog.assert c; B.step (B.pushAll b)) f =
        ((.ok (L.digest b), f') : Except (Fault ε) _ × _) ∧
      L.le (B.drop f) (B.drop f') ∧ b ∈ L.stored (B.drop f') := by
  obtain ⟨f', hf, hle, hb⟩ := L.step_pushAll_eq (ε := ε) hB b f
  exact ⟨f', (Prog.assert_bind_of hc _ f).trans hf, hle, hb⟩

theorem internMaps_eq (hB : L.Reliable) {m : StoreMaps} (hm : m.Encodable) (f : B.Fsa) :
    ∃ f', internMaps B m f =
        ((.ok (L.digest (L.rootRecord m).toBytes), f') : Except (Fault ε) _ × _) ∧
      L.le (B.drop f) (B.drop f') ∧ L.MapsStored (B.drop f') m ∧
      (L.rootRecord m).toBytes ∈ L.stored (B.drop f') := by
  obtain ⟨f₁, h₁, le₁, s₁⟩ := assert_pushAll_eq (ε := ε) L hB hm.inodeMap
    (serializeInodeMap m.inodeMap) f
  obtain ⟨f₂, h₂, le₂, s₂⟩ := assert_pushAll_eq (ε := ε) L hB hm.inodeData
    (serializeMap entryBytes m.inodeData) f₁
  obtain ⟨f₃, h₃, le₃, s₃⟩ := assert_pushAll_eq (ε := ε) L hB hm.dirData
    (serializeMap entryBytes m.dirData) f₂
  obtain ⟨f₄, h₄, le₄, s₄⟩ := assert_pushAll_eq (ε := ε) L hB hm.manifestData
    (serializeMap entryBytes m.manifestData) f₃
  obtain ⟨f₅, h₅, le₅, s₅⟩ := assert_pushAll_eq (ε := ε) L hB hm.xattrData
    (serializeMap entryBytes m.xattrData) f₄
  obtain ⟨f₆, h₆, le₆, s₆⟩ := assert_pushAll_eq (ε := ε) L hB hm.refcounts
    (serializeMap countEntryBytes m.refcounts) f₅
  obtain ⟨f₇, h₇, le₇, s₇⟩ := L.step_pushAll_eq (ε := ε) hB (L.rootRecord m).toBytes f₆
  have le₆₇ := le₇
  have le₅₇ := L.le_trans le₆ le₇
  have le₄₇ := L.le_trans le₅ le₅₇
  have le₃₇ := L.le_trans le₄ le₄₇
  have le₂₇ := L.le_trans le₃ le₃₇
  have le₁₇ := L.le_trans le₂ le₂₇
  refine ⟨f₇, ?_, L.le_trans le₁ le₁₇, ?_, s₇⟩
  · unfold internMaps internInodeMap internU64DigestMap internDigest224U64Map
    rw [Prog.bind_ok h₁, Prog.bind_ok h₂, Prog.bind_ok h₃, Prog.bind_ok h₄, Prog.bind_ok h₅,
      Prog.bind_ok h₆]
    exact h₇
  · exact ⟨L.stored_mono le₁₇ s₁, L.stored_mono le₂₇ s₂, L.stored_mono le₃₇ s₃,
      L.stored_mono le₄₇ s₄, L.stored_mono le₅₇ s₅, L.stored_mono le₆₇ s₆⟩

theorem encodable_of_internMaps {m : StoreMaps} {f f' : B.Fsa} {r : Digest224}
    (h : internMaps B m f = ((.ok r, f') : Except (Fault ε) _ × _)) : m.Encodable := by
  unfold internMaps internInodeMap internU64DigestMap internDigest224U64Map at h
  obtain ⟨_, _, h₁, h⟩ := Prog.bind_eq_ok h
  obtain ⟨_, _, h₂, h⟩ := Prog.bind_eq_ok h
  obtain ⟨_, _, h₃, h⟩ := Prog.bind_eq_ok h
  obtain ⟨_, _, h₄, h⟩ := Prog.bind_eq_ok h
  obtain ⟨_, _, h₅, h⟩ := Prog.bind_eq_ok h
  obtain ⟨_, _, h₆, h⟩ := Prog.bind_eq_ok h
  exact ⟨(Prog.assert_bind_eq_ok h₁).1, (Prog.assert_bind_eq_ok h₂).1,
    (Prog.assert_bind_eq_ok h₃).1, (Prog.assert_bind_eq_ok h₄).1,
    (Prog.assert_bind_eq_ok h₅).1, (Prog.assert_bind_eq_ok h₆).1⟩

/-- The log after a root update. -/
def StoreLog.logRoot (l : StoreLog) (root : Digest224) : StoreLog :=
  { l with
    lastRoot := some root
    wal := l.wal.map fun wal => (Wal.logMutation (.rootUpdate root) wal).2 }

/-- A commit that can be encoded returns the digest of the record of the maps and leaves
the record and the maps in the backend. -/
theorem commit_eq (hB : L.Reliable) {s : Store B} (hm : s.maps.Encodable) :
    ∃ io', commit s =
        ((.ok (L.digest (L.rootRecord s.maps).toBytes),
          ⟨io', s.maps, s.log.logRoot (L.digest (L.rootRecord s.maps).toBytes)⟩) :
            Except (Fault ε) _ × _) ∧
      L.le s.io io' ∧ L.MapsStored io' s.maps ∧ (L.rootRecord s.maps).toBytes ∈ L.stored io' := by
  obtain ⟨f, hf, hle, hmaps, hroot⟩ := internMaps_eq (ε := ε) L hB hm (B.new s.io)
  have hpush : onIo (B.withFsa (internMaps B s.maps)) s =
      ((.ok (L.digest (L.rootRecord s.maps).toBytes), { s with io := B.drop f }) :
        Except (Fault ε) _ × _) := by
    simp only [onIo, Blockset.withFsa, Prog.zoom, hf]
  refine ⟨B.drop f, ?_, L.le_trans (L.le_new s.io) hle, hmaps, hroot⟩
  have hread : (readMaps id : Prog (Store B) ε StoreMaps) s = (.ok s.maps, s) := rfl
  rw [commit, Prog.bind_ok hread, Prog.bind_ok hpush]
  rfl

instance neverFails_internMaps (m : StoreMaps) :
    NeverFails (internMaps B m : Prog B.Fsa ε Digest224) := by
  unfold internMaps internInodeMap internU64DigestMap internDigest224U64Map
  infer_instance

theorem encodable_of_commit {s s' : Store B} {r : Digest224}
    (h : commit s = ((.ok r, s') : Except (Fault ε) _ × _)) : s.maps.Encodable := by
  have hread : (readMaps id : Prog (Store B) ε StoreMaps) s = (.ok s.maps, s) := rfl
  rw [commit, Prog.bind_ok hread] at h
  obtain ⟨root, s₁, hpush, -⟩ := Prog.bind_eq_ok h
  have hf : (internMaps B s.maps (B.new s.io)).1 = (.ok root : Except (Fault ε) _) := by
    have h₁ := congrArg Prod.fst hpush
    simpa only [onIo, Blockset.withFsa, Prog.zoom] using h₁
  exact encodable_of_internMaps (Prod.ext hf rfl)

/-- A commit of more than memory can hold panics. -/
theorem commit_panic {s : Store B} (h : ¬ s.maps.Encodable) :
    ∃ io, commit s = ((.error .panic, { s with io := io }) : Except (Fault ε) _ × _) := by
  have hread : (readMaps id : Prog (Store B) ε StoreMaps) s = (.ok s.maps, s) := rfl
  have hpush : onIo (B.withFsa (internMaps B s.maps)) s =
      (((internMaps B s.maps (B.new s.io)).1,
        { s with io := B.drop (internMaps B s.maps (B.new s.io) : Except (Fault ε) _ × _).2 }) :
          Except (Fault ε) Digest224 × Store B) := rfl
  have hnever := (neverFails_internMaps (ε := ε) s.maps).ne_error (B.new s.io)
  rcases hrun : (internMaps B s.maps (B.new s.io) : Except (Fault ε) Digest224 × _) with ⟨r, f⟩
  rw [hrun] at hpush hnever
  cases r with
  | ok root => exact absurd (encodable_of_internMaps hrun) h
  | error e =>
      cases e with
      | err e => exact absurd rfl (hnever e)
      | panic =>
          rw [commit, Prog.bind_ok hread, Prog.bind_error hpush]
          exact ⟨_, rfl⟩

/-- What any successful commit did. -/
theorem commit_spec (hB : L.Reliable) {s s' : Store B} {r : Digest224}
    (h : commit s = ((.ok r, s') : Except (Fault ε) _ × _)) :
    r = L.digest (L.rootRecord s.maps).toBytes ∧ s'.maps = s.maps ∧ s'.log = s.log.logRoot r ∧
      L.le s.io s'.io ∧ L.MapsStored s'.io s.maps ∧
      (L.rootRecord s.maps).toBytes ∈ L.stored s'.io := by
  obtain ⟨io', hc, hle, hmaps, hroot⟩ := commit_eq (ε := ε) L hB (encodable_of_commit h)
  rw [hc] at h
  obtain ⟨hr, hs⟩ := Prod.mk.inj h
  have hr' := Except.ok.inj hr
  subst hs
  exact ⟨hr'.symm, rfl, by rw [hr'], hle, hmaps, hroot⟩

end CommitSpec

section LoadSpec
variable {B : Blockset} {overflowChecks : Bool} (L : B.Laws)

/-- The sizes the loader adds up. -/
def totalSize (io : B.Io) (m : StoreMaps) : ℕ :=
  (m.inodeData.toList.map fun e => (sizeAt io e.2).toNat).sum

theorem sumSizes_eq {io : B.Io} {ds : List Digest224} {acc : UInt64}
    (h : overflowChecks = true →
      acc.toNat + (ds.map fun d => (sizeAt io d).toNat).sum < 2 ^ 64) :
    sumSizes B overflowChecks acc ds io =
      (.ok (acc + UInt64.ofNat (ds.map fun d => (sizeAt io d).toNat).sum), io) := by
  induction ds generalizing acc with
  | nil => simp [sumSizes]
  | cons d ds ih =>
      simp only [List.map_cons, List.sum_cons] at h ⊢
      rw [sumSizes, Prog.bind_ok (loadSize_apply d io),
        Prog.assert_bind_of (fun hch => by have := h hch; omega), ih]
      · rw [UInt64.ofNat_add, UInt64.ofNat_toNat, add_assoc]
      · intro hch
        have := h hch
        rw [UInt64.toNat_add, Nat.mod_eq_of_lt] <;> omega

/-- Where the loader finds the fields of a record of either version. -/
theorem slice_rootRecord (m : StoreMaps) (tail : Bytes) :
    slice ((L.rootRecord m).toBytesV1 ++ tail) 0 28 =
      digestBytes (L.digest (serializeInodeMap m.inodeMap)) ∧
    slice ((L.rootRecord m).toBytesV1 ++ tail) 28 36 = u64Bytes 1 ∧
    slice ((L.rootRecord m).toBytesV1 ++ tail) 36 44 = u64Bytes m.inodeMap.nextIno ∧
    slice ((L.rootRecord m).toBytesV1 ++ tail) 44 72 =
      digestBytes (L.digest (serializeMap entryBytes m.inodeData)) ∧
    slice ((L.rootRecord m).toBytesV1 ++ tail) 72 100 =
      digestBytes (L.digest (serializeMap entryBytes m.dirData)) ∧
    slice ((L.rootRecord m).toBytesV1 ++ tail) 100 128 =
      digestBytes (L.digest (serializeMap entryBytes m.manifestData)) ∧
    slice ((L.rootRecord m).toBytesV1 ++ tail) 128 156 =
      digestBytes (L.digest (serializeMap entryBytes m.xattrData)) := by
  refine ⟨?_, ?_, ?_, ?_, ?_, ?_, ?_⟩ <;>
  simp (disch := simp) only [RootRecord.toBytesV1, Blockset.Laws.rootRecord, slice_append,
    slice_eq_nil, slice_eq_nil_of_stop, slice_eq_self, List.length_append, length_u64Bytes,
    length_digestBytes, List.append_nil, List.nil_append]

@[simp] theorem length_toBytesV1 (r : RootRecord) : r.toBytesV1.length = 156 := by
  simp [RootRecord.toBytesV1]

@[simp] theorem length_toBytes (r : RootRecord) : r.toBytes.length = 184 := by
  simp [RootRecord.toBytes]

/-- The store that a root of these maps denotes. -/
def loadedStore (io : B.Io) (root : Digest224) (m : StoreMaps) : Store B where
  io := io
  maps := { m with
    logicalBytes := UInt64.ofNat (totalSize io m)
    inodeCount := UInt64.ofNat m.inodeData.size }
  log := { StoreLog.empty with lastRoot := some root }

/-- What the loader asks of the maps of a record, besides the blobs. -/
structure Loadable (overflowChecks : Bool) (io : B.Io) (m : StoreMaps) : Prop where
  encodable : m.Encodable
  maxIno_ne : maxIno m.inodeMap.map.toList ≠ u64Max
  root_mem : m.inodeData.contains 1 = true
  totalSize_lt : overflowChecks = true → totalSize io m < 2 ^ 64

theorem loadU64DigestMap_eq {io : B.Io} {m : Map UInt64 Digest224} (hc : L.NoCollision io)
    (hb : serializeMap entryBytes m ∈ L.stored io) (hm : 8 + m.size * 36 ≤ isizeMax) :
    loadU64DigestMap B (L.digest (serializeMap entryBytes m)) io = (.ok m, io) := by
  have hlt : 8 + m.size * 36 < 2 ^ 64 := by
    unfold isizeMax at hm
    omega
  rw [loadU64DigestMap, loadRecord_of_stored L hc hb,
    deserializeMap_serializeMap _ length_entryBytes parseEntry_entryBytes hlt]

theorem loadDigest224U64Map_eq {io : B.Io} {m : Map Digest224 UInt64} (hc : L.NoCollision io)
    (hb : serializeMap countEntryBytes m ∈ L.stored io) (hm : 8 + m.size * 36 ≤ isizeMax) :
    loadDigest224U64Map B (L.digest (serializeMap countEntryBytes m)) io = (.ok m, io) := by
  have hlt : 8 + m.size * 36 < 2 ^ 64 := by
    unfold isizeMax at hm
    omega
  rw [loadDigest224U64Map, loadRecord_of_stored L hc hb,
    deserializeMap_serializeMap _ length_countEntryBytes parseCountEntry_countEntryBytes hlt]

/-- Both versions of a record load to the same maps, the reference counts apart, which
depend on what follows the first 156 bytes. -/
theorem loadFromRoot_of_loadRefcounts {io : B.Io} {m : StoreMaps} (tail : Bytes)
    {counts : Map Digest224 UInt64} (hc : L.NoCollision io)
    (hroot : (L.rootRecord m).toBytesV1 ++ tail ∈ L.stored io)
    (htail : tail.length = 0 ∨ tail.length = 28)
    (hcounts : loadRefcounts B ((L.rootRecord m).toBytesV1 ++ tail) io = (.ok counts, io))
    (hs : L.MapsStored io m) (hl : Loadable overflowChecks io m) :
    loadFromRoot B overflowChecks (L.digest ((L.rootRecord m).toBytesV1 ++ tail)) io =
      (.ok (loadedStore io (L.digest ((L.rootRecord m).toBytesV1 ++ tail))
        { m with refcounts := counts }), io) := by
  obtain ⟨h₁, h₂, h₃, h₄, h₅, h₆, h₇⟩ := slice_rootRecord L m tail
  have hlen : ((L.rootRecord m).toBytesV1 ++ tail).length = 156 + tail.length := by simp
  have hinodes : loadInodeMap B (L.digest (serializeInodeMap m.inodeMap)) io =
      (.ok ⟨m.inodeMap.map, maxIno m.inodeMap.map.toList + 1⟩, io) := by
    rw [loadInodeMap, loadRecord_of_stored L hc hs.inodeMap,
      deserializeInodeMap_serializeInodeMap, if_neg hl.maxIno_ne]
  have hsizes : sumSizes B overflowChecks 0 (m.inodeData.toList.map Prod.snd) io =
      (.ok (UInt64.ofNat (totalSize io m)), io) := by
    rw [sumSizes_eq]
    · simp [totalSize, Function.comp_def]
    · simpa [totalSize, Function.comp_def] using hl.totalSize_lt
  rw [loadFromRoot, Prog.bind_ok (L.get_apply hc hroot), Prog.ofOption_some,
    Prog.bind_ok (Prog.pure_apply _ _), Prog.ensure_bind_of (by omega)]
  rw [h₁, h₂, h₃, h₄, h₅, h₆, h₇]
  simp only [parseDigest224_digestBytes, u64OfBytes_u64Bytes]
  rw [Prog.bind_ok hinodes, Prog.bind_ok
    (loadU64DigestMap_eq L hc hs.inodeData hl.encodable.inodeData),
    Prog.bind_ok (loadU64DigestMap_eq L hc hs.dirData hl.encodable.dirData),
    Prog.bind_ok (loadU64DigestMap_eq L hc hs.manifestData hl.encodable.manifestData),
    Prog.bind_ok (loadU64DigestMap_eq L hc hs.xattrData hl.encodable.xattrData),
    Prog.bind_ok hcounts, Prog.ensure_bind_of (by simpa using hl.root_mem), Prog.bind_ok hsizes]
  rfl

theorem loadRefcounts_toBytes {io : B.Io} {m : StoreMaps} (hc : L.NoCollision io)
    (hs : L.MapsStored io m) (hm : m.Encodable) :
    loadRefcounts B (L.rootRecord m).toBytes io = (.ok m.refcounts, io) := by
  have hslice : slice (L.rootRecord m).toBytes 156 184 =
      digestBytes (L.digest (serializeMap countEntryBytes m.refcounts)) := by
    simp (disch := simp) only [RootRecord.toBytes, slice_append, slice_eq_nil, slice_eq_self,
      length_toBytesV1, List.nil_append, Blockset.Laws.rootRecord]
  rw [loadRefcounts, if_pos (by simp), hslice, parseDigest224_digestBytes]
  exact loadDigest224U64Map_eq L hc hs.refcounts hm.refcounts

/-- The root of a commit loads to the maps of the commit. -/
theorem loadFromRoot_toBytes {io : B.Io} {m : StoreMaps} (hc : L.NoCollision io)
    (hroot : (L.rootRecord m).toBytes ∈ L.stored io) (hs : L.MapsStored io m)
    (hl : Loadable overflowChecks io m) :
    loadFromRoot B overflowChecks (L.digest (L.rootRecord m).toBytes) io =
      (.ok (loadedStore io (L.digest (L.rootRecord m).toBytes) m), io) :=
  loadFromRoot_of_loadRefcounts L _ hc hroot (.inr (by simp))
    (loadRefcounts_toBytes L hc hs hl.encodable) hs hl

/-- The same record in version 1 has no reference counts. -/
theorem loadFromRoot_toBytesV1 {io : B.Io} {m : StoreMaps} (hc : L.NoCollision io)
    (hroot : (L.rootRecord m).toBytesV1 ∈ L.stored io) (hs : L.MapsStored io m)
    (hl : Loadable overflowChecks io m) :
    loadFromRoot B overflowChecks (L.digest (L.rootRecord m).toBytesV1) io =
      (.ok (loadedStore io (L.digest (L.rootRecord m).toBytesV1) { m with refcounts := ∅ }),
        io) := by
  have h := loadFromRoot_of_loadRefcounts L [] hc (by simpa using hroot)
    (.inl rfl) (by rw [loadRefcounts, if_neg (by simp)]; rfl) hs hl
  simpa only [List.append_nil] using h

theorem sum_lt_of_sumSizes {io io' : B.Io} {ds : List Digest224} {acc total : UInt64}
    (hch : overflowChecks = true) (h : sumSizes B overflowChecks acc ds io = (.ok total, io')) :
    acc.toNat + (ds.map fun d => (sizeAt io d).toNat).sum < 2 ^ 64 := by
  induction ds generalizing acc with
  | nil =>
      have := acc.toNat_lt
      simpa using this
  | cons d ds ih =>
      rw [sumSizes, Prog.bind_ok (loadSize_apply d io)] at h
      obtain ⟨hlt, h⟩ := Prog.assert_bind_eq_ok h
      have hrest := ih h
      rw [UInt64.toNat_add, Nat.mod_eq_of_lt (hlt hch)] at hrest
      simp only [List.map_cons, List.sum_cons]
      omega

/-- A root of these maps that was loaded met the loader's conditions. -/
theorem loadable_of_loadFromRoot {io io' : B.Io} {m : StoreMaps} {s : Store B}
    (hc : L.NoCollision io) (hroot : (L.rootRecord m).toBytes ∈ L.stored io)
    (hs : L.MapsStored io m) (hm : m.Encodable)
    (h : loadFromRoot B overflowChecks (L.digest (L.rootRecord m).toBytes) io = (.ok s, io')) :
    Loadable overflowChecks io m := by
  obtain ⟨h₁, h₂, -, h₄, h₅, h₆, h₇⟩ :=
    slice_rootRecord L m (digestBytes (L.rootRecord m).refcounts)
  rw [← RootRecord.toBytes] at h₁ h₂ h₄ h₅ h₆ h₇
  rw [loadFromRoot, Prog.bind_ok (L.get_apply hc hroot), Prog.ofOption_some,
    Prog.bind_ok (Prog.pure_apply _ _), Prog.ensure_bind_of (by simp)] at h
  simp only [h₁, h₂, h₄, h₅, h₆, h₇, parseDigest224_digestBytes] at h
  have hmax : maxIno m.inodeMap.map.toList ≠ u64Max := by
    intro hmax
    obtain ⟨_, _, hinodes, -⟩ := Prog.bind_eq_ok h
    rw [loadInodeMap, loadRecord_of_stored L hc hs.inodeMap,
      deserializeInodeMap_serializeInodeMap, if_pos hmax] at hinodes
    simp at hinodes
  have hinodes : loadInodeMap B (L.digest (serializeInodeMap m.inodeMap)) io =
      (.ok ⟨m.inodeMap.map, maxIno m.inodeMap.map.toList + 1⟩, io) := by
    rw [loadInodeMap, loadRecord_of_stored L hc hs.inodeMap,
      deserializeInodeMap_serializeInodeMap, if_neg (show _ ≠ _ from hmax)]
  rw [Prog.bind_ok hinodes, Prog.bind_ok (loadU64DigestMap_eq L hc hs.inodeData hm.inodeData),
    Prog.bind_ok (loadU64DigestMap_eq L hc hs.dirData hm.dirData),
    Prog.bind_ok (loadU64DigestMap_eq L hc hs.manifestData hm.manifestData),
    Prog.bind_ok (loadU64DigestMap_eq L hc hs.xattrData hm.xattrData),
    Prog.bind_ok (loadRefcounts_toBytes L hc hs hm)] at h
  obtain ⟨hmem, h⟩ := Prog.ensure_bind_eq_ok h
  obtain ⟨_, _, hsum, -⟩ := Prog.bind_eq_ok h
  refine ⟨hm, hmax, by simpa [h₂] using hmem, fun hch => ?_⟩
  simpa [totalSize, Function.comp_def] using sum_lt_of_sumSizes hch hsum

/-- What a committed root loads to. -/
theorem eq_loadedStore_of_commit (hB : L.Reliable) {s s' u : Store B} {root : Digest224}
    {io io' : B.Io} (hcommit : commit s = ((.ok root, s') : Except (Fault MetaError) _ × _))
    (hle : L.le s'.io io) (hc : L.NoCollision io)
    (hload : loadFromRoot B overflowChecks root io = (.ok u, io')) :
    u = loadedStore io root s.maps := by
  have hm := encodable_of_commit hcommit
  obtain ⟨rfl, -, -, -, hs, hroot⟩ := commit_spec L hB hcommit
  have hl := loadable_of_loadFromRoot L hc (L.stored_mono hle hroot) (hs.mono hle) hm hload
  rw [loadFromRoot_toBytes L hc (L.stored_mono hle hroot) (hs.mono hle) hl] at hload
  exact (Except.ok.inj (Prod.mk.inj hload).1).symm

end LoadSpec
end SliceFs
