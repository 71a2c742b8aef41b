import SliceFs.EntryListDecoder
import SliceFs.RootRecord

/-!
# Loading a root from arbitrary blobs

The loader trusts three kinds of numbers that it finds in blobs: the counts of the counted
maps, the inode numbers of the inode table, and the sizes of the inodes. With checked
arithmetic and indexing it panics exactly when one of them is too large at the place
where it is used; every other blob gives a store or an error.
-/
namespace SliceFs
open LittleEndian ByteFile TreeMaps ProgramLogic Checked

namespace Cursor

def entry (bytes : Bytes) (off : ℕ) : Except (Fault MetaError) (UInt64 × Digest224) := do
  let ino ← u64 bytes off
  let start ← add off 8
  let d ← digest bytes start
  pure (ino, d)

def countEntry (bytes : Bytes) (off : ℕ) : Except (Fault MetaError) (Digest224 × UInt64) := do
  let d ← digest bytes off
  let start ← add off 28
  let stop ← add off 36
  let field ← range bytes start stop
  pure (d, u64OfBytes field)

section CountedMap
variable {κ ν : Type} [Ord κ] [Std.TransOrd κ]

/-- The entries from number `i` on. -/
def mapEntries (dec : Bytes → ℕ → Except (Fault MetaError) (κ × ν)) (bytes : Bytes) :
    ℕ → ℕ → Map κ ν → Except (Fault MetaError) (Map κ ν)
  | 0, _, acc => .ok acc
  | n + 1, i, acc => do
    let shift ← mul i 36
    let off ← add 8 shift
    let e ← dec bytes off
    mapEntries dec bytes n (i + 1) (acc.insert e.1 e.2)

def deserializeMap (what : String) (dec : Bytes → ℕ → Except (Fault MetaError) (κ × ν))
    (bytes : Bytes) : Except (Fault MetaError) (Map κ ν) :=
  if bytes.length < 8 then
    .error (.err (.corrupted
      (what ++ ": expected at least 8 bytes, got " ++ toString bytes.length)))
  else do
    let field ← range bytes 0 8
    let count := (u64OfBytes field).toNat
    let body ← mul count 36
    let expected ← add 8 body
    ensure (bytes.length = expected) (.corrupted (what ++ ": expected " ++ toString expected ++
      " bytes for " ++ toString count ++ " entries, got " ++ toString bytes.length))
    mapEntries dec bytes count 0 ∅

end CountedMap

/-- The loop over the table of inodes, with the highest number so far. -/
def inodeEntries (bytes : Bytes) (i : ℕ) (acc : Map UInt64 Digest224) (hi : UInt64) :
    Except (Fault MetaError) (Map UInt64 Digest224 × UInt64) :=
  if i < bytes.length then do
    let e ← entry bytes i
    let _ ← add i 36
    inodeEntries bytes (i + 36) (acc.insert e.1 e.2) (if hi < e.1 then e.1 else hi)
  else .ok (acc, hi)
termination_by bytes.length - i

def deserializeInodeMap (bytes : Bytes) : Except (Fault MetaError) InodeMap :=
  if bytes.length % 36 ≠ 0 then
    .error (.err (.corrupted
      ("inode map: expected multiple-of-36 bytes, got " ++ toString bytes.length)))
  else do
    let (map, hi) ← inodeEntries bytes 0 ∅ 1
    let next ← add hi.toNat 1
    pure ⟨map, UInt64.ofNat next⟩

def deserializeInode (buf : Bytes) : Except (Fault MetaError) InodeMeta :=
  if buf.length ≠ 56 then
    .error (.err (.corrupted ("expected 56 bytes, got " ++ toString buf.length)))
  else do
    let ino ← range buf 0 8
    let mode ← range buf 8 12
    let uid ← range buf 12 16
    let gid ← range buf 16 20
    let nlinks ← range buf 20 24
    let size ← range buf 24 32
    let mtimeSec ← range buf 32 40
    let mtimeNsec ← range buf 40 44
    let ctimeSec ← range buf 44 52
    let ctimeNsec ← range buf 52 56
    pure {
      ino := u64OfBytes ino
      mode := u32OfBytes mode
      uid := u32OfBytes uid
      gid := u32OfBytes gid
      nlinks := u32OfBytes nlinks
      size := u64OfBytes size
      mtimeSec := (u64OfBytes mtimeSec).toInt64
      mtimeNsec := u32OfBytes mtimeNsec
      ctimeSec := (u64OfBytes ctimeSec).toInt64
      ctimeNsec := u32OfBytes ctimeNsec }

/-- A digest of the root record, and the offset after it. -/
def digestField (bytes : Bytes) (off : ℕ) : Except (Fault MetaError) (Digest224 × ℕ) := do
  let stop ← add off 28
  let field ← range bytes off stop
  let d ← if field.length = 28 then digest field 0 else .error .panic
  pure (d, stop)

/-- A number of the root record, and the offset after it. -/
def u64Field (bytes : Bytes) (off : ℕ) : Except (Fault MetaError) (UInt64 × ℕ) := do
  let stop ← add off 8
  let field ← range bytes off stop
  pure (u64OfBytes field, stop)

section Load
variable (B : Blockset)

def loadInodeMap (key : Digest224) : Prog B.Io MetaError InodeMap :=
  loadRecord "inode_map node" deserializeInodeMap key

def loadU64DigestMap (key : Digest224) : Prog B.Io MetaError (Map UInt64 Digest224) :=
  loadRecord "u64-digest map node" (deserializeMap "u64-digest map" entry) key

def loadDigest224U64Map (key : Digest224) : Prog B.Io MetaError (Map Digest224 UInt64) :=
  loadRecord "digest224-u64 map node" (deserializeMap "digest224-u64 map" countEntry) key

def loadSize (key : Digest224) : Prog B.Io MetaError UInt64 := do
  let m ← Prog.attempt (loadRecord "inode node" deserializeInode key)
  pure (m.toOption.elim 0 InodeMeta.size)

def sumSizes : UInt64 → List Digest224 → Prog B.Io MetaError UInt64
  | acc, [] => pure acc
  | acc, d :: ds => do
    let size ← loadSize B d
    let sum ← Prog.ofResult (add acc.toNat size.toNat)
    sumSizes (UInt64.ofNat sum) ds

def loadRefcounts (bytes : Bytes) (off : ℕ) : Prog B.Io MetaError (Map Digest224 UInt64) :=
  if bytes.length = 184 then do
    let (d, _) ← Prog.ofResult (digestField bytes off)
    loadDigest224U64Map B d
  else pure ∅

def loadFromRoot (root : Digest224) : Prog B.Io MetaError (Store B) := do
  let bytes ← B.get root
  let bytes ← Prog.ofOption bytes (.corrupted "missing root node")
  Prog.ensure (bytes.length = 156 ∨ bytes.length = 184)
    (.corrupted ("root record: expected 156 or 184 bytes, got " ++ toString bytes.length))
  let (inodeMapDigest, off) ← Prog.ofResult (digestField bytes 0)
  let (rootDirIno, off) ← Prog.ofResult (u64Field bytes off)
  let (nextIno, off) ← Prog.ofResult (u64Field bytes off)
  let (inodeDataDigest, off) ← Prog.ofResult (digestField bytes off)
  let (dirDataDigest, off) ← Prog.ofResult (digestField bytes off)
  let (manifestDataDigest, off) ← Prog.ofResult (digestField bytes off)
  let (xattrDataDigest, off) ← Prog.ofResult (digestField bytes off)
  let inodeMap ← loadInodeMap B inodeMapDigest
  let inodeData ← loadU64DigestMap B inodeDataDigest
  let dirData ← loadU64DigestMap B dirDataDigest
  let manifestData ← loadU64DigestMap B manifestDataDigest
  let xattrData ← loadU64DigestMap B xattrDataDigest
  let refcounts ← loadRefcounts B bytes off
  Prog.ensure (inodeData.contains rootDirIno = true)
    (.corrupted ("root dir ino " ++ toString rootDirIno.toNat ++
      " not found in inode_data after reload"))
  let logicalBytes ← sumSizes B 0 (inodeData.toList.map Prod.snd)
  Prog.read fun io =>
    { io := io
      maps := {
        inodeMap := { inodeMap with nextIno := nextIno }
        inodeData := inodeData
        dirData := dirData
        manifestData := manifestData
        xattrData := xattrData
        refcounts := refcounts
        logicalBytes := logicalBytes
        inodeCount := UInt64.ofNat inodeData.size }
      log := { StoreLog.empty with lastRoot := some root } }

end Load

section
variable {bytes : Bytes} {off : ℕ}

theorem entry_eq (hlen : bytes.length ≤ isizeMax) (h : off + 36 ≤ bytes.length) :
    entry bytes off = .ok (parseEntry ((bytes.drop off).take 36)) := by
  have hmax : isizeMax < 2 ^ 63 := by decide
  rw [entry, u64_eq hlen (by omega), ok_bind, add_of_lt (by omega), ok_bind,
    digest_eq hlen (by omega), ok_bind, parseEntry, List.take_take, List.drop_take, List.drop_drop]
  rfl

theorem countEntry_eq (hlen : bytes.length ≤ isizeMax) (h : off + 36 ≤ bytes.length) :
    countEntry bytes off = .ok (parseCountEntry ((bytes.drop off).take 36)) := by
  have hmax : isizeMax < 2 ^ 63 := by decide
  have hrange : (range bytes (off + 28) (off + 36) : Except (Fault MetaError) Bytes) =
      .ok ((bytes.drop (off + 28)).take 8) := range_of_le (i := off + 28) (n := 8) (by omega)
  rw [countEntry, digest_eq hlen (by omega), ok_bind, add_of_lt (by omega), ok_bind,
    add_of_lt (by omega), ok_bind, hrange, ok_bind, parseCountEntry, List.take_take, List.drop_take,
    List.drop_drop]
  rfl

section CountedMap
variable {κ ν : Type} [Ord κ] [Std.TransOrd κ] {dec : Bytes → ℕ → Except (Fault MetaError) (κ × ν)}
  {parse : Bytes → κ × ν}

/-- The loop inserts the entries that the fields of the blob decode to. -/
theorem mapEntries_eq (hlen : bytes.length ≤ isizeMax)
    (hdec : ∀ off, off + 36 ≤ bytes.length → dec bytes off = .ok (parse ((bytes.drop off).take 36)))
    {n i : ℕ} (h : bytes.length = 8 + (i + n) * 36) (acc : Map κ ν) :
    mapEntries dec bytes n i acc = .ok (((fieldsOf 36 n (bytes.drop (8 + i * 36))).map parse).foldl
      (fun m e => m.insert e.1 e.2) acc) := by
  have hmax : isizeMax < 2 ^ 63 := by decide
  induction n generalizing i acc with
  | zero => rfl
  | succ n ih =>
      rw [mapEntries, mul_of_lt (by omega), ok_bind, add_of_lt (by omega), ok_bind,
        hdec _ (by omega), ok_bind, ih (by omega), fieldsOf_succ, List.map_cons, List.foldl_cons,
        List.drop_drop]
      have hnext : 8 + i * 36 + 36 = 8 + (i + 1) * 36 := by omega
      rw [hnext]

theorem deserializeMap_eq (hlen : bytes.length ≤ isizeMax)
    (hdec : ∀ off, off + 36 ≤ bytes.length → dec bytes off = .ok (parse ((bytes.drop off).take 36)))
    (what : String) :
    deserializeMap what dec bytes = SliceFs.deserializeMap what parse bytes := by
  have hmax : isizeMax < 2 ^ 63 := by decide
  rw [deserializeMap, SliceFs.deserializeMap]
  by_cases hshort : bytes.length < 8
  · rw [if_pos hshort, if_pos hshort]
  have height : 0 + 8 ≤ bytes.length := by omega
  have hfield : (range bytes 0 8 : Except (Fault MetaError) Bytes) = .ok (bytes.take 8) :=
    range_of_le height
  rw [if_neg hshort, if_neg hshort, hfield, ok_bind]
  generalize (u64OfBytes (bytes.take 8)).toNat = count
  dsimp only
  by_cases hwide : 2 ^ 64 ≤ 8 + count * 36
  · rw [if_pos hwide]
    by_cases hmul : 2 ^ 64 ≤ count * 36
    · rw [mul_of_le hmul]
      rfl
    · rw [mul_of_lt (by omega), ok_bind, add_of_le hwide]
      rfl
  rw [if_neg hwide, mul_of_lt (by omega), ok_bind, add_of_lt (by omega), ok_bind]
  by_cases hcount : bytes.length = 8 + count * 36
  · have hentries := mapEntries_eq hlen hdec (i := 0) (n := count) (by omega) ∅
    rw [if_neg (not_not.mpr hcount), ensure_of hcount, ok_bind, hentries,
      Std.ExtTreeMap.ofList_eq_foldl]
  · rw [if_pos hcount, ensure_of_not hcount]
    rfl

end CountedMap

theorem inodeEntries_eq (hlen : bytes.length ≤ isizeMax) {n i : ℕ} (h : bytes.length = i + 36 * n)
    (acc : Map UInt64 Digest224) (hi : UInt64) :
    inodeEntries bytes i acc hi =
      .ok (((fieldsOf 36 n (bytes.drop i)).map parseEntry).foldl (fun m e => m.insert e.1 e.2) acc,
        ((fieldsOf 36 n (bytes.drop i)).map parseEntry).foldl
          (fun hi e => if hi < e.1 then e.1 else hi) hi) := by
  have hmax : isizeMax < 2 ^ 63 := by decide
  induction n generalizing i acc hi with
  | zero =>
      rw [inodeEntries, if_neg (by omega)]
      rfl
  | succ n ih =>
      rw [inodeEntries, if_pos (by omega), entry_eq hlen (by omega), ok_bind, add_of_lt (by omega),
        ok_bind, ih (by omega), fieldsOf_succ, List.map_cons, List.foldl_cons, List.foldl_cons,
        List.drop_drop]

theorem deserializeInodeMap_eq (hlen : bytes.length ≤ isizeMax) :
    deserializeInodeMap bytes = SliceFs.deserializeInodeMap bytes := by
  rw [deserializeInodeMap, SliceFs.deserializeInodeMap]
  by_cases hwidth : bytes.length % 36 ≠ 0
  · rw [if_pos hwidth, if_pos hwidth]
  rw [if_neg hwidth, if_neg hwidth,
    inodeEntries_eq hlen (i := 0) (n := bytes.length / 36) (by omega) ∅ 1, ok_bind, List.drop_zero]
  have hhi : ∀ hi : UInt64, hi = u64Max ↔ 2 ^ 64 ≤ hi.toNat + 1 := by
    intro hi
    have hlt := hi.toNat_lt
    rw [← UInt64.toNat_inj]
    show hi.toNat = 2 ^ 64 - 1 ↔ _
    omega
  show (add (maxIno _).toNat 1 >>= _) = _
  generalize (fieldsOf 36 (bytes.length / 36) bytes).map parseEntry = entries
  dsimp only
  by_cases hlast : maxIno entries = u64Max
  · rw [if_pos hlast, add_of_le ((hhi _).mp hlast)]
    rfl
  · have hroom : (maxIno entries).toNat + 1 < 2 ^ 64 := Nat.not_le.mp (mt (hhi _).mpr hlast)
    rw [if_neg hlast, add_of_lt hroom, ok_bind, Std.ExtTreeMap.ofList_eq_foldl, UInt64.ofNat_add,
      UInt64.ofNat_toNat]
    rfl

theorem deserializeInode_eq (buf : Bytes) :
    deserializeInode buf = noPanic SliceFs.deserializeInode buf := by
  rw [deserializeInode, noPanic, SliceFs.deserializeInode]
  by_cases hlen : buf.length ≠ 56
  · rw [if_pos hlen, if_pos hlen]
    rfl
  have hfield : ∀ start stop, start ≤ stop ∧ stop ≤ 56 →
      (range buf start stop : Except (Fault MetaError) Bytes) = .ok (slice buf start stop) :=
    fun start stop h => if_pos ⟨h.1, by omega⟩
  rw [if_neg hlen, if_neg hlen]
  simp only [hfield 0 8 (by decide), hfield 8 12 (by decide), hfield 12 16 (by decide),
    hfield 16 20 (by decide), hfield 20 24 (by decide), hfield 24 32 (by decide),
    hfield 32 40 (by decide), hfield 40 44 (by decide), hfield 44 52 (by decide),
    hfield 52 56 (by decide), ok_bind]
  rfl

theorem digestField_eq (hlen : bytes.length ≤ isizeMax) {stop : ℕ} (hstop : stop = off + 28)
    (h : stop ≤ bytes.length) :
    digestField bytes off = .ok (parseDigest224 (slice bytes off stop), stop) := by
  have hmax : isizeMax < 2 ^ 63 := by decide
  subst hstop
  have hfield : ((bytes.drop off).take 28).length = 28 := by
    rw [List.length_take, List.length_drop]
    omega
  rw [digestField, add_of_lt (by omega), ok_bind, range_of_le h, ok_bind, if_pos hfield,
    digest_eq (by omega) (by omega), ok_bind, List.drop_zero, List.take_take, slice, List.drop_take,
    Nat.add_sub_cancel_left]
  rfl

theorem u64Field_eq (hlen : bytes.length ≤ isizeMax) {stop : ℕ} (hstop : stop = off + 8)
    (h : stop ≤ bytes.length) :
    u64Field bytes off = .ok (u64OfBytes (slice bytes off stop), stop) := by
  have hmax : isizeMax < 2 ^ 63 := by decide
  subst hstop
  rw [u64Field, add_of_lt (by omega), ok_bind, range_of_le h, ok_bind, slice, List.drop_take,
    Nat.add_sub_cancel_left]
  rfl

end

section Load
variable {B : Blockset} {io : B.Io} {α β : Type}

/-- Only the blob under the digest matters to a decoder. -/
theorem loadRecord_bind_congr {what : String} {dec dec' : Bytes → Except (Fault MetaError) α}
    {key : Digest224} (hdec : ∀ b, B.fileStorageGet io key = some b → dec b = dec' b)
    {f f' : α → Prog B.Io MetaError β} (hf : ∀ a, f a io = f' a io) :
    (loadRecord what dec key >>= f) io = (loadRecord what dec' key >>= f') io := by
  rw [Prog.bind_apply, Prog.bind_apply, loadRecord_apply, loadRecord_apply]
  cases hget : B.fileStorageGet io key with
  | none => rfl
  | some b =>
      dsimp only
      rw [hdec b hget]
      cases dec' b with
      | error e => rfl
      | ok a => exact hf a

theorem loadSize_eq (d : Digest224) : loadSize B d = SliceFs.loadSize B d := by
  rw [loadSize, SliceFs.loadSize, loadInode, funext deserializeInode_eq]

theorem sumSizes_eq (acc : UInt64) (ds : List Digest224) :
    sumSizes B acc ds io = SliceFs.sumSizes B true acc ds io := by
  induction ds generalizing acc with
  | nil => rfl
  | cons d ds ih =>
      rw [sumSizes, SliceFs.sumSizes, loadSize_eq, Prog.bind_ok (loadSize_apply d io),
        Prog.bind_ok (loadSize_apply d io)]
      by_cases hsum : acc.toNat + (sizeAt io d).toNat < 2 ^ 64
      · have hadd : (Prog.ofResult (add acc.toNat (sizeAt io d).toNat) : Prog B.Io MetaError ℕ) io =
            (.ok (acc.toNat + (sizeAt io d).toNat), io) := by
          rw [add_of_lt hsum]
          rfl
        rw [Prog.bind_ok hadd, Prog.assert_bind_of fun _ => hsum, ih, UInt64.ofNat_add,
          UInt64.ofNat_toNat, UInt64.ofNat_toNat]
      · have hadd : (Prog.ofResult (add acc.toNat (sizeAt io d).toNat) : Prog B.Io MetaError ℕ) io =
            (.error .panic, io) := by
          rw [add_of_le (Nat.not_lt.mp hsum)]
          rfl
        rw [Prog.bind_error hadd, Prog.assert_bind_of_not fun h => hsum (h rfl)]

theorem ofResult_bind {r : Except (Fault MetaError) α} {a : α} (h : r = .ok a)
    (f : α → Prog B.Io MetaError β) : (Prog.ofResult r >>= f) io = f a io := by
  rw [Prog.bind_apply, h]
  rfl

theorem loadRefcounts_bind_congr {bytes : Bytes} (hlen : bytes.length ≤ isizeMax)
    (hcounts : ∀ d b, B.fileStorageGet io d = some b →
      deserializeMap "digest224-u64 map" countEntry b =
        SliceFs.deserializeMap "digest224-u64 map" parseCountEntry b)
    {f f' : Map Digest224 UInt64 → Prog B.Io MetaError β} (hf : ∀ m, f m io = f' m io) :
    (loadRefcounts B bytes 156 >>= f) io = (SliceFs.loadRefcounts B bytes >>= f') io := by
  unfold loadRefcounts SliceFs.loadRefcounts
  split_ifs with hwidth
  · have hread : (do
          let (d, _) ← Prog.ofResult (digestField bytes 156)
          loadDigest224U64Map B d) io =
        loadDigest224U64Map B (parseDigest224 (slice bytes 156 184)) io :=
      ofResult_bind (digestField_eq hlen (by decide : 184 = 156 + 28) (by omega)) _
    rw [Prog.bind_apply, hread]
    exact loadRecord_bind_congr (hcounts _) hf
  · exact hf ∅

/-- Every access of the loader is within its blob. -/
theorem loadFromRoot_eq (hvec : ∀ d b, B.fileStorageGet io d = some b → b.length ≤ isizeMax)
    (root : Digest224) : loadFromRoot B root io = SliceFs.loadFromRoot B true root io := by
  have hmap : ∀ d b, B.fileStorageGet io d = some b →
      deserializeMap "u64-digest map" entry b =
        SliceFs.deserializeMap "u64-digest map" parseEntry b :=
    fun d b hb => deserializeMap_eq (hvec d b hb) (fun _ => entry_eq (hvec d b hb)) _
  have hcounts : ∀ d b, B.fileStorageGet io d = some b →
      deserializeMap "digest224-u64 map" countEntry b =
        SliceFs.deserializeMap "digest224-u64 map" parseCountEntry b :=
    fun d b hb => deserializeMap_eq (hvec d b hb) (fun _ => countEntry_eq (hvec d b hb)) _
  rw [loadFromRoot, SliceFs.loadFromRoot, Blockset.get, Prog.bind_ok (Prog.read_apply _ _),
    Prog.bind_ok (Prog.read_apply _ _)]
  cases hget : B.fileStorageGet io root with
  | none => rfl
  | some bytes =>
      have hlen := hvec root bytes hget
      have hsome : (Prog.ofOption (some bytes) (.corrupted "missing root node") :
          Prog B.Io MetaError Bytes) io = (.ok bytes, io) := rfl
      rw [Prog.bind_ok hsome, Prog.bind_ok hsome]
      by_cases hwidth : bytes.length = 156 ∨ bytes.length = 184
      · rw [Prog.ensure_bind_of hwidth, Prog.ensure_bind_of hwidth]
        refine (ofResult_bind (digestField_eq hlen (by decide : 28 = 0 + 28) (by omega)) _).trans ?_
        refine (ofResult_bind (u64Field_eq hlen (by decide : 36 = 28 + 8) (by omega)) _).trans ?_
        refine (ofResult_bind (u64Field_eq hlen (by decide : 44 = 36 + 8) (by omega)) _).trans ?_
        refine (ofResult_bind (digestField_eq hlen (by decide : 72 = 44 + 28) (by omega)) _).trans
          ?_
        refine (ofResult_bind (digestField_eq hlen (by decide : 100 = 72 + 28) (by omega)) _).trans
          ?_
        refine (ofResult_bind (digestField_eq hlen (by decide : 128 = 100 + 28) (by omega)) _).trans
          ?_
        refine (ofResult_bind (digestField_eq hlen (by decide : 156 = 128 + 28) (by omega)) _).trans
          ?_
        refine loadRecord_bind_congr (fun b hb => deserializeInodeMap_eq (hvec _ b hb))
          fun inodeMap => ?_
        refine loadRecord_bind_congr (hmap _) fun inodeData => ?_
        refine loadRecord_bind_congr (hmap _) fun dirData => ?_
        refine loadRecord_bind_congr (hmap _) fun manifestData => ?_
        refine loadRecord_bind_congr (hmap _) fun xattrData => ?_
        refine loadRefcounts_bind_congr hlen hcounts fun refcounts => ?_
        by_cases hroot : inodeData.contains (u64OfBytes (slice bytes 28 36)) = true
        · rw [Prog.ensure_bind_of hroot, Prog.ensure_bind_of hroot, Prog.bind_apply, sumSizes_eq]
          rfl
        · rw [Prog.ensure_bind_of_not hroot, Prog.ensure_bind_of_not hroot]
      · rw [Prog.ensure_bind_of_not hwidth, Prog.ensure_bind_of_not hwidth]

end Load

end Cursor

/-- A value, or an error that the blobs explain. -/
def Returns {α : Type} (r : Except (Fault MetaError) α) : Prop :=
  (∃ a, r = .ok a) ∨ ∃ message, r = .error (.err (.corrupted message))

/-- The count of a counted map. -/
def countField (blob : Bytes) : ℕ := (u64OfBytes (blob.take 8)).toNat

/-- A blob that the loader decodes: when its numbers are in range, and when it is then
accepted. -/
structure MapBlob where
  digest : Digest224
  InRange : Bytes → Prop
  Accepted : Bytes → Prop

namespace MapBlob

/-- No inode number has no successor. -/
def inodeTable (d : Digest224) : MapBlob where
  digest := d
  InRange blob := blob.length % 36 = 0 →
    ∀ e ∈ (fieldsOf 36 (blob.length / 36) blob).map parseEntry, e.1 ≠ u64Max
  Accepted blob := blob.length % 36 = 0

/-- The length that the count asks for is a 64-bit number. -/
def counted (d : Digest224) : MapBlob where
  digest := d
  InRange blob := 8 ≤ blob.length → 8 + countField blob * 36 < 2 ^ 64
  Accepted blob := 8 ≤ blob.length ∧ blob.length = 8 + countField blob * 36

/-- The blobs are in range as far as the loader gets, and so is what comes after them. -/
def InOrder (get : Digest224 → Option Bytes) (last : Prop) : List MapBlob → Prop
  | [] => last
  | m :: ms => ∀ blob, get m.digest = some blob →
      m.InRange blob ∧ (m.Accepted blob → InOrder get last ms)

/-- A decoder panics on what is not in range, and tells what is accepted from what is not. -/
structure Decodes {α : Type} (m : MapBlob) (dec : Bytes → Except (Fault MetaError) α) : Prop where
  wide : ∀ b, ¬ m.InRange b → dec b = .error .panic
  accepted : ∀ b, m.InRange b → m.Accepted b → ∃ a, dec b = .ok a
  refused : ∀ b, m.InRange b → ¬ m.Accepted b →
    ∃ message, dec b = .error (.err (.corrupted message))

theorem le_foldl_max (entries : List (UInt64 × Digest224)) (hi : UInt64) :
    hi ≤ entries.foldl (fun hi e => if hi < e.1 then e.1 else hi) hi ∧
      ∀ e ∈ entries, e.1 ≤ entries.foldl (fun hi e => if hi < e.1 then e.1 else hi) hi := by
  induction entries generalizing hi with
  | nil => exact ⟨UInt64.le_refl _, nofun⟩
  | cons e entries ih =>
      obtain ⟨hle, hall⟩ := ih (if hi < e.1 then e.1 else hi)
      rw [List.foldl_cons]
      have hstep : hi ≤ (if hi < e.1 then e.1 else hi) ∧ e.1 ≤ (if hi < e.1 then e.1 else hi) := by
        split_ifs with hlt
        · exact ⟨UInt64.le_of_lt hlt, UInt64.le_refl _⟩
        · exact ⟨UInt64.le_refl _, UInt64.not_lt.mp hlt⟩
      refine ⟨UInt64.le_trans hstep.1 hle, fun e' he' => ?_⟩
      rcases List.mem_cons.mp he' with rfl | he'
      · exact UInt64.le_trans hstep.2 hle
      · exact hall e' he'

theorem maxIno_eq_u64Max_iff (entries : List (UInt64 × Digest224)) :
    maxIno entries = u64Max ↔ ∃ e ∈ entries, e.1 = u64Max := by
  constructor
  · intro h
    rcases maxIno_mem entries with hone | hmem
    · rw [hone] at h
      exact absurd h (by decide)
    · obtain ⟨e, he, heq⟩ := List.mem_map.mp hmem
      exact ⟨e, he, heq.trans h⟩
  · rintro ⟨e, he, heq⟩
    have hle := (le_foldl_max entries 1).2 e he
    rw [heq] at hle
    have hlt := (maxIno entries).toNat_lt
    have hnat : 2 ^ 64 - 1 ≤ (maxIno entries).toNat := UInt64.le_iff_toNat_le.mp hle
    refine UInt64.toNat_inj.mp ?_
    show (maxIno entries).toNat = 2 ^ 64 - 1
    omega

theorem decodes_inodeTable (d : Digest224) : (inodeTable d).Decodes deserializeInodeMap where
  wide b hb := by
    simp only [inodeTable, not_forall, not_not] at hb
    obtain ⟨hwidth, e, he, heq⟩ := hb
    rw [deserializeInodeMap, if_neg (not_not.mpr hwidth)]
    exact if_pos ((maxIno_eq_u64Max_iff _).mpr ⟨e, he, heq⟩)
  accepted b hb hwidth := by
    refine ⟨_, (if_neg (not_not.mpr hwidth)).trans (if_neg fun hmax => ?_)⟩
    obtain ⟨e, he, heq⟩ := (maxIno_eq_u64Max_iff _).mp hmax
    exact hb hwidth e he heq
  refused b _ hwidth := ⟨_, if_pos hwidth⟩

theorem decodes_counted {κ ν : Type} [Ord κ] [Std.TransOrd κ] (d : Digest224) (what : String)
    (parse : Bytes → κ × ν) : (counted d).Decodes (deserializeMap what parse) where
  wide b hb := by
    simp only [counted, Classical.not_imp, not_lt] at hb
    rw [deserializeMap, if_neg (by omega)]
    exact if_pos hb.2
  accepted b hb hacc := by
    have hlong : 8 ≤ b.length := hacc.1
    have hwide := hb hlong
    exact ⟨_, (if_neg (by omega)).trans ((if_neg (Nat.not_le.mpr hwide)).trans
      (if_neg (not_not.mpr hacc.2)))⟩
  refused b hb hacc := by
    by_cases hshort : b.length < 8
    · exact ⟨_, if_pos hshort⟩
    · have hwide := hb (Nat.not_lt.mp hshort)
      exact ⟨_, (if_neg hshort).trans ((if_neg (Nat.not_le.mpr hwide)).trans
        (if_pos fun heq => hacc ⟨Nat.not_lt.mp hshort, heq⟩))⟩

section
variable {B : Blockset} {io : B.Io} {α β : Type}

/-- One blob of the loader: what comes after it matters if it is accepted. -/
theorem Decodes.returns_bind_iff {m : MapBlob} {dec : Bytes → Except (Fault MetaError) α}
    (hdec : m.Decodes dec) (what : String) {f : α → Prog B.Io MetaError β} {rest : Prop}
    (hf : ∀ blob a, B.fileStorageGet io m.digest = some blob → dec blob = .ok a →
      (Returns (f a io).1 ↔ rest)) :
    Returns ((loadRecord what dec m.digest >>= f) io).1 ↔
      ∀ blob, B.fileStorageGet io m.digest = some blob →
        m.InRange blob ∧ (m.Accepted blob → rest) := by
  rw [Prog.bind_apply, loadRecord_apply]
  cases hget : B.fileStorageGet io m.digest with
  | none => exact ⟨fun _ _ => nofun, fun _ => .inr ⟨_, rfl⟩⟩
  | some blob =>
      have hblob : (∀ b, some blob = some b → m.InRange b ∧ (m.Accepted b → rest)) ↔
          m.InRange blob ∧ (m.Accepted blob → rest) :=
        ⟨fun h => h blob rfl, fun h b hb => Option.some.inj hb ▸ h⟩
      rw [hblob]
      by_cases hrange : m.InRange blob
      · by_cases hacc : m.Accepted blob
        · obtain ⟨a, ha⟩ := hdec.accepted blob hrange hacc
          dsimp only
          rw [ha]
          exact (hf blob a hget ha).trans ⟨fun h => ⟨hrange, fun _ => h⟩, fun h => h.2 hacc⟩
        · obtain ⟨message, herror⟩ := hdec.refused blob hrange hacc
          dsimp only
          rw [herror]
          exact ⟨fun _ => ⟨hrange, fun h => absurd h hacc⟩, fun _ => .inr ⟨message, rfl⟩⟩
      · dsimp only
        rw [hdec.wide blob hrange]
        refine ⟨?_, fun h => absurd h.1 hrange⟩
        rintro (⟨a, ha⟩ | ⟨message, hm⟩)
        · cases ha
        · cases hm

end

end MapBlob

section
variable {B : Blockset}

/-- The sizes that the loader adds up when the root directory has an inode. -/
def SizesInRange (io : B.Io) (rootIno : UInt64) (key : Digest224) : Prop :=
  ∀ blob inodeData, B.fileStorageGet io key = some blob →
    deserializeMap "u64-digest map" parseEntry blob = .ok inodeData →
    inodeData.contains rootIno = true →
    (inodeData.toList.map fun e => (sizeAt io e.2).toNat).sum < 2 ^ 64

/-- The maps that a root record leads to, in the order in which they are loaded. -/
def mapBlobs (bytes : Bytes) : List MapBlob :=
  [.inodeTable (parseDigest224 (slice bytes 0 28)),
    .counted (parseDigest224 (slice bytes 44 72)),
    .counted (parseDigest224 (slice bytes 72 100)),
    .counted (parseDigest224 (slice bytes 100 128)),
    .counted (parseDigest224 (slice bytes 128 156))] ++
  if bytes.length = 184 then [.counted (parseDigest224 (slice bytes 156 184))] else []

/-- The numbers that loading a root meets are in range. -/
def LoadInRange (io : B.Io) (root : Digest224) : Prop :=
  ∀ bytes, B.fileStorageGet io root = some bytes → bytes.length = 156 ∨ bytes.length = 184 →
    MapBlob.InOrder (B.fileStorageGet io)
      (SizesInRange io (u64OfBytes (slice bytes 28 36)) (parseDigest224 (slice bytes 44 72)))
      (mapBlobs bytes)

/-- The blob has room for so many entries. -/
def BlobHolds (io : B.Io) (d : Digest224) (n : ℕ) : Prop :=
  ∃ blob, B.fileStorageGet io d = some blob ∧ n ≤ blob.length / 36

/-- No map of a loaded store is larger than its blob. -/
def LoadedWithin (io : B.Io) (root : Digest224) (s : Store B) : Prop :=
  ∃ bytes, B.fileStorageGet io root = some bytes ∧
    BlobHolds io (parseDigest224 (slice bytes 0 28)) s.maps.inodeMap.map.size ∧
    BlobHolds io (parseDigest224 (slice bytes 44 72)) s.maps.inodeData.size ∧
    BlobHolds io (parseDigest224 (slice bytes 72 100)) s.maps.dirData.size ∧
    BlobHolds io (parseDigest224 (slice bytes 100 128)) s.maps.manifestData.size ∧
    BlobHolds io (parseDigest224 (slice bytes 128 156)) s.maps.xattrData.size ∧
    if bytes.length = 184 then
      BlobHolds io (parseDigest224 (slice bytes 156 184)) s.maps.refcounts.size
    else s.maps.refcounts = ∅

variable {io io' : B.Io} {root : Digest224} {α β : Type}

theorem loadRecord_bind_eq_ok {what : String} {dec : Bytes → Except (Fault MetaError) α}
    {d : Digest224} {f : α → Prog B.Io MetaError β} {b : β}
    (h : (loadRecord what dec d >>= f) io = (.ok b, io')) :
    ∃ blob a, B.fileStorageGet io d = some blob ∧ dec blob = .ok a ∧ f a io = (.ok b, io') := by
  obtain ⟨a, io₁, hload, hrest⟩ := Prog.bind_eq_ok h
  rw [loadRecord_apply] at hload
  obtain ⟨hdec, rfl⟩ := Prod.mk.inj hload
  cases hget : B.fileStorageGet io d with
  | none =>
      rw [hget] at hdec
      cases hdec
  | some blob =>
      rw [hget] at hdec
      exact ⟨blob, a, rfl, hdec, hrest⟩

theorem size_of_deserializeMap {κ ν : Type} [Ord κ] [Std.TransOrd κ] {what : String}
    {parse : Bytes → κ × ν} {blob : Bytes} {m : Map κ ν}
    (h : deserializeMap what parse blob = .ok m) : m.size ≤ blob.length / 36 := by
  rw [deserializeMap] at h
  dsimp only at h
  split_ifs at h with hshort hwide hlen
  rw [← Except.ok.inj h]
  refine Std.ExtTreeMap.size_ofList_le.trans ?_
  rw [fieldsOf, List.length_map, List.length_map, List.length_range]
  omega

theorem loadMap_bind_eq_ok {κ ν : Type} [Ord κ] [Std.TransOrd κ] {what what' : String}
    {parse : Bytes → κ × ν} {d : Digest224} {f : Map κ ν → Prog B.Io MetaError β} {b : β}
    (h : (loadRecord what (deserializeMap what' parse) d >>= f) io = (.ok b, io')) :
    ∃ m, BlobHolds io d m.size ∧ f m io = (.ok b, io') := by
  obtain ⟨blob, m, hget, hdec, hrest⟩ := loadRecord_bind_eq_ok h
  exact ⟨m, ⟨blob, hget, size_of_deserializeMap hdec⟩, hrest⟩

theorem loadInodeMap_bind_eq_ok {d : Digest224} {f : InodeMap → Prog B.Io MetaError β} {b : β}
    (h : (loadInodeMap B d >>= f) io = (.ok b, io')) :
    ∃ m : InodeMap, BlobHolds io d m.map.size ∧ f m io = (.ok b, io') := by
  obtain ⟨blob, m, hget, hdec, hrest⟩ := loadRecord_bind_eq_ok h
  refine ⟨m, ⟨blob, hget, ?_⟩, hrest⟩
  rw [deserializeInodeMap] at hdec
  dsimp only at hdec
  split_ifs at hdec with hwidth hmax
  rw [← Except.ok.inj hdec]
  refine Std.ExtTreeMap.size_ofList_le.trans ?_
  rw [fieldsOf, List.length_map, List.length_map, List.length_range]

theorem loadRefcounts_bind_eq_ok {bytes : Bytes} {f : Map Digest224 UInt64 → Prog B.Io MetaError β}
    {b : β} (h : (loadRefcounts B bytes >>= f) io = (.ok b, io')) :
    ∃ m, (if bytes.length = 184 then BlobHolds io (parseDigest224 (slice bytes 156 184)) m.size
      else m = ∅) ∧ f m io = (.ok b, io') := by
  unfold loadRefcounts at h
  split_ifs at h ⊢
  · exact loadMap_bind_eq_ok h
  · exact ⟨∅, rfl, h⟩

theorem loadedWithin_of_ok {s : Store B} (h : loadFromRoot B true root io = (.ok s, io')) :
    LoadedWithin io root s := by
  rw [loadFromRoot, Blockset.get, Prog.bind_ok (Prog.read_apply _ _)] at h
  cases hget : B.fileStorageGet io root with
  | none =>
      rw [hget] at h
      cases h
  | some bytes =>
      rw [hget, Prog.ofOption_some, Prog.bind_ok (Prog.pure_apply _ _)] at h
      obtain ⟨-, h₀⟩ := Prog.ensure_bind_eq_ok h
      obtain ⟨inodeMap, hinodeMap, h₁⟩ := loadInodeMap_bind_eq_ok h₀
      obtain ⟨inodeData, hinodeData, h₂⟩ := loadMap_bind_eq_ok h₁
      obtain ⟨dirData, hdirData, h₃⟩ := loadMap_bind_eq_ok h₂
      obtain ⟨manifestData, hmanifestData, h₄⟩ := loadMap_bind_eq_ok h₃
      obtain ⟨xattrData, hxattrData, h₅⟩ := loadMap_bind_eq_ok h₄
      obtain ⟨refcounts, hrefcounts, h₆⟩ := loadRefcounts_bind_eq_ok h₅
      obtain ⟨-, h₇⟩ := Prog.ensure_bind_eq_ok h₆
      obtain ⟨logicalBytes, _, -, h₈⟩ := Prog.bind_eq_ok h₇
      obtain rfl := Except.ok.inj (Prod.mk.inj h₈).1
      exact ⟨bytes, hget, hinodeMap, hinodeData, hdirData, hmanifestData, hxattrData, hrefcounts⟩

/-- The sum of the sizes is a 64-bit number, or the loader panics. -/
theorem returns_sumSizes_bind_iff {acc : UInt64} {ds : List Digest224}
    {f : UInt64 → Prog B.Io MetaError β} (hf : ∀ n, ∃ b, (f n io).1 = .ok b) :
    Returns ((sumSizes B true acc ds >>= f) io).1 ↔
      acc.toNat + (ds.map fun d => (sizeAt io d).toNat).sum < 2 ^ 64 := by
  by_cases hsum : acc.toNat + (ds.map fun d => (sizeAt io d).toNat).sum < 2 ^ 64
  · rw [Prog.bind_ok (sumSizes_eq fun _ => hsum)]
    exact ⟨fun _ => hsum, fun _ => .inl (hf _)⟩
  · refine ⟨?_, fun h => absurd h hsum⟩
    have hfault : ∀ (ds : List Digest224) (acc : UInt64) e,
        (sumSizes B true acc ds io).1 ≠ .error (.err e) := by
      intro ds
      induction ds with
      | nil =>
          intro acc e he
          cases he
      | cons d ds ih =>
          intro acc e
          rw [sumSizes, Prog.bind_ok (loadSize_apply d io)]
          by_cases hadd : true = true → acc.toNat + (sizeAt io d).toNat < 2 ^ 64
          · rw [Prog.assert_bind_of hadd]
            exact ih _ e
          · rw [Prog.assert_bind_of_not hadd]
            intro he
            cases he
    cases hrun : sumSizes B true acc ds io with
    | mk r io₁ =>
        cases r with
        | ok n => exact absurd (sum_lt_of_sumSizes rfl hrun) hsum
        | error e =>
            rw [Prog.bind_error hrun]
            rintro (⟨b, hb⟩ | ⟨message, hm⟩)
            · cases hb
            · have hnot := hfault ds acc (.corrupted message)
              obtain rfl : e = .err (.corrupted message) := Except.error.inj hm
              rw [hrun] at hnot
              exact absurd rfl hnot

theorem returns_loadRefcounts_bind_iff {bytes : Bytes} {last : Prop}
    {f : Map Digest224 UInt64 → Prog B.Io MetaError β} (hf : ∀ m, Returns (f m io).1 ↔ last) :
    Returns ((loadRefcounts B bytes >>= f) io).1 ↔
      MapBlob.InOrder (B.fileStorageGet io) last
        (if bytes.length = 184 then [.counted (parseDigest224 (slice bytes 156 184))] else []) := by
  unfold loadRefcounts
  split_ifs
  · exact (MapBlob.decodes_counted _ _ _).returns_bind_iff _ fun _ m _ _ => hf m
  · exact hf ∅

/-- The loader returns exactly when the numbers that it meets are in range. -/
theorem returns_loadFromRoot_iff :
    Returns (loadFromRoot B true root io).1 ↔ LoadInRange io root := by
  rw [loadFromRoot, Blockset.get, Prog.bind_ok (Prog.read_apply _ _), LoadInRange]
  cases hget : B.fileStorageGet io root with
  | none => exact ⟨fun _ bytes hb => absurd hb (by simp), fun _ => .inr ⟨_, rfl⟩⟩
  | some bytes =>
      rw [Prog.ofOption_some, Prog.bind_ok (Prog.pure_apply _ _)]
      simp only [Option.some.injEq, forall_eq']
      by_cases hwidth : bytes.length = 156 ∨ bytes.length = 184
      · rw [Prog.ensure_bind_of hwidth, imp_iff_right hwidth]
        refine (MapBlob.decodes_inodeTable _).returns_bind_iff _ fun _ inodeMap _ _ => ?_
        refine (MapBlob.decodes_counted _ _ _).returns_bind_iff _ fun blob inodeData hblob hdec =>
          ?_
        refine (MapBlob.decodes_counted _ _ _).returns_bind_iff _ fun _ dirData _ _ => ?_
        refine (MapBlob.decodes_counted _ _ _).returns_bind_iff _ fun _ manifestData _ _ => ?_
        refine (MapBlob.decodes_counted _ _ _).returns_bind_iff _ fun _ xattrData _ _ => ?_
        refine returns_loadRefcounts_bind_iff fun refcounts => ?_
        -- the blob of the inode data is the one that was loaded
        have hlast : SizesInRange io (u64OfBytes (slice bytes 28 36))
            (parseDigest224 (slice bytes 44 72)) ↔
              (inodeData.contains (u64OfBytes (slice bytes 28 36)) = true →
                (inodeData.toList.map fun e => (sizeAt io e.2).toNat).sum < 2 ^ 64) := by
          refine ⟨fun h => h blob inodeData hblob hdec, fun h blob' inodeData' hblob' hdec' => ?_⟩
          obtain rfl := Option.some.inj (hblob.symm.trans hblob')
          obtain rfl := Except.ok.inj (hdec.symm.trans hdec')
          exact h
        rw [hlast]
        by_cases hroot : inodeData.contains (u64OfBytes (slice bytes 28 36)) = true
        · rw [Prog.ensure_bind_of hroot, imp_iff_right hroot,
            returns_sumSizes_bind_iff fun n => ⟨_, rfl⟩, UInt64.toNat_zero, Nat.zero_add,
            List.map_map]
          rfl
        · rw [Prog.ensure_bind_of_not hroot]
          exact ⟨fun _ h => absurd h hroot, fun _ => .inr ⟨_, rfl⟩⟩
      · rw [Prog.ensure_bind_of_not hwidth]
        exact ⟨fun _ h => absurd h hwidth, fun _ => .inr ⟨_, rfl⟩⟩

end

/-- Loading a root returns a store, none of whose maps is larger than its blob allows, or an
error, exactly when the numbers that it meets in the blobs are in range. -/
theorem load_returns_iff {B : Blockset} {io : B.Io}
    (hvec : ∀ d b, B.fileStorageGet io d = some b → b.length ≤ isizeMax) (root : Digest224) :
    ((∃ s, (Cursor.loadFromRoot B root io).1 = .ok s ∧ LoadedWithin io root s) ∨
      ∃ message, (Cursor.loadFromRoot B root io).1 = .error (.err (.corrupted message))) ↔
      LoadInRange io root := by
  rw [Cursor.loadFromRoot_eq hvec, ← returns_loadFromRoot_iff, Returns]
  refine or_congr_left ⟨fun ⟨s, hs, _⟩ => ⟨s, hs⟩, fun ⟨s, hs⟩ => ⟨s, hs, ?_⟩⟩
  have hrun : loadFromRoot B true root io = (.ok s, (loadFromRoot B true root io).2) :=
    Prod.ext hs rfl
  exact loadedWithin_of_ok hrun

/-- A root record whose inode data is a count of `2 ^ 62` and nothing after it. -/
def wideRecord : Bytes :=
  RootRecord.toBytesV1 ⟨memoryDigest [], 2, memoryDigest (u64Bytes (2 ^ 62)), 0, 0, 0, 0⟩

def wideIo : MemoryIo := ((MemoryIo.empty.put []).put (u64Bytes (2 ^ 62))).put wideRecord

theorem MemoryIo.mem_of_get (io : MemoryIo) {d : Digest224} {b : Bytes}
    (h : memoryBlockset.fileStorageGet io d = some b) : b ∈ io.blobs.map Prod.snd := by
  obtain ⟨p, hp, rfl⟩ := Option.map_eq_some_iff.mp h
  exact List.mem_map_of_mem (List.mem_of_find?_eq_some hp)

theorem length_le_wideIo (d : Digest224) (b : Bytes)
    (h : memoryBlockset.fileStorageGet wideIo d = some b) : b.length ≤ isizeMax := by
  have hlen : ∀ c, c ∈ wideIo.blobs.map Prod.snd → c.length ≤ isizeMax := by
    have hblobs : wideIo.blobs.map Prod.snd =
        [wideRecord, u64Bytes (2 ^ 62), []] := by decide +kernel
    rw [hblobs]
    have hall : ∀ c ∈ [wideRecord, u64Bytes (2 ^ 62), []], c.length ≤ 156 := by decide +kernel
    exact fun c hc => (hall c hc).trans (by decide)
  exact hlen b (MemoryIo.mem_of_get wideIo h)

theorem load_returns_iff_wide :
    ((∃ s, (Cursor.loadFromRoot memoryBlockset (memoryDigest wideRecord) wideIo).1 = .ok s ∧
        LoadedWithin (B := memoryBlockset) wideIo (memoryDigest wideRecord) s) ∨
      ∃ message, (Cursor.loadFromRoot memoryBlockset (memoryDigest wideRecord) wideIo).1 =
        .error (.err (.corrupted message))) ↔
      LoadInRange (B := memoryBlockset) wideIo (memoryDigest wideRecord) :=
  load_returns_iff length_le_wideIo _

/-- The count times the width of an entry overflows. -/
theorem wide_count_panics :
    (Cursor.loadFromRoot memoryBlockset (memoryDigest wideRecord) wideIo).1 = .error .panic := by
  rw [Cursor.loadFromRoot_eq length_le_wideIo]
  have hpanic : (Prog.exec (loadFromRoot memoryBlockset true (memoryDigest wideRecord))
      wideIo).isNone = true := by decide +kernel
  exact Prog.panic_of_exec (Option.isNone_iff_eq_none.mp hpanic)

end SliceFs
