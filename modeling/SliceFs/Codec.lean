import SliceFs.ByteFile
import SliceFs.TreeMaps
import SliceFs.Metadata

/-!
# The metadata records

Every record is a blob of the content-addressed store: inodes are 56 bytes, an
inode table and the digest maps are sequences of 36-byte entries, a manifest is a
sequence of 28-byte digests. The decoders check lengths only, so each of them has
a value or an error for any bytes; arithmetic that overflows is a panic.
-/
namespace SliceFs
open LittleEndian ByteFile TreeMaps ProgramLogic

/-- The debug form of a digest, for messages. -/
def debugDigest (d : Digest224) : String :=
  "[" ++ ", ".intercalate (d.toList.map fun w => toString w.toNat) ++ "]"

def digestBytes (d : Digest224) : Bytes := d.toList.flatMap u32Bytes

def wordAt (b : Bytes) (i : ℕ) : UInt32 := u32OfBytes ((b.drop (4 * i)).take 4)

def parseDigest224 (b : Bytes) : Digest224 :=
  #v[wordAt b 0, wordAt b 1, wordAt b 2, wordAt b 3, wordAt b 4, wordAt b 5, wordAt b 6]

@[simp] theorem length_digestBytes (d : Digest224) : (digestBytes d).length = 28 := by
  rw [digestBytes, length_flatMap_of_width length_u32Bytes, Vector.length_toList]

@[simp] theorem parseDigest224_digestBytes (d : Digest224) :
    parseDigest224 (digestBytes d) = d := by
  have hw : ∀ i (hi : i < 7), wordAt (digestBytes d) i = d[i] := by
    intro i hi
    have hl : i < d.toList.length := by simpa using hi
    rw [wordAt, digestBytes, take_drop_flatMap_of_width length_u32Bytes _ _ hl,
      u32OfBytes_u32Bytes, Vector.getElem_toList]
  ext i hi
  simp only [parseDigest224]
  interval_cases i <;> simp [hw]

def serializeInode (m : InodeMeta) : Bytes :=
  u64Bytes m.ino ++ u32Bytes m.mode ++ u32Bytes m.uid ++ u32Bytes m.gid ++ u32Bytes m.nlinks ++
    u64Bytes m.size ++ u64Bytes m.mtimeSec.toUInt64 ++ u32Bytes m.mtimeNsec ++
    u64Bytes m.ctimeSec.toUInt64 ++ u32Bytes m.ctimeNsec

def deserializeInode (buf : Bytes) : Except MetaError InodeMeta :=
  if buf.length ≠ 56 then
    .error (.corrupted ("expected 56 bytes, got " ++ toString buf.length))
  else
    .ok {
      ino := u64OfBytes (slice buf 0 8)
      mode := u32OfBytes (slice buf 8 12)
      uid := u32OfBytes (slice buf 12 16)
      gid := u32OfBytes (slice buf 16 20)
      nlinks := u32OfBytes (slice buf 20 24)
      size := u64OfBytes (slice buf 24 32)
      mtimeSec := (u64OfBytes (slice buf 32 40)).toInt64
      mtimeNsec := u32OfBytes (slice buf 40 44)
      ctimeSec := (u64OfBytes (slice buf 44 52)).toInt64
      ctimeNsec := u32OfBytes (slice buf 52 56) }

@[simp] theorem length_serializeInode (m : InodeMeta) : (serializeInode m).length = 56 := by
  simp [serializeInode]

theorem deserializeInode_serializeInode (m : InodeMeta) :
    deserializeInode (serializeInode m) = .ok m := by
  rw [deserializeInode, if_neg (by simp)]
  simp (disch := simp) only [serializeInode, slice_append, slice_eq_nil, slice_eq_nil_of_stop,
    slice_eq_self, List.length_append, length_u64Bytes, length_u32Bytes, List.append_nil,
    List.nil_append]
  simp

/-- An entry of the maps from inode numbers to digests. -/
def entryBytes (e : UInt64 × Digest224) : Bytes := u64Bytes e.1 ++ digestBytes e.2

def parseEntry (b : Bytes) : UInt64 × Digest224 :=
  (u64OfBytes (b.take 8), parseDigest224 (b.drop 8))

@[simp] theorem length_entryBytes (e : UInt64 × Digest224) : (entryBytes e).length = 36 := by
  simp [entryBytes]

@[simp] theorem parseEntry_entryBytes (e : UInt64 × Digest224) :
    parseEntry (entryBytes e) = e := by
  rw [parseEntry, entryBytes, List.take_left' (length_u64Bytes e.1),
    List.drop_left' (length_u64Bytes e.1), u64OfBytes_u64Bytes, parseDigest224_digestBytes]

/-- An entry of the reference-count map, with the digest first. -/
def countEntryBytes (e : Digest224 × UInt64) : Bytes := digestBytes e.1 ++ u64Bytes e.2

def parseCountEntry (b : Bytes) : Digest224 × UInt64 :=
  (parseDigest224 (b.take 28), u64OfBytes (b.drop 28))

@[simp] theorem length_countEntryBytes (e : Digest224 × UInt64) :
    (countEntryBytes e).length = 36 := by
  simp [countEntryBytes]

@[simp] theorem parseCountEntry_countEntryBytes (e : Digest224 × UInt64) :
    parseCountEntry (countEntryBytes e) = e := by
  rw [parseCountEntry, countEntryBytes, List.take_left' (length_digestBytes e.1),
    List.drop_left' (length_digestBytes e.1), u64OfBytes_u64Bytes, parseDigest224_digestBytes]

section CountedMap
variable {κ ν : Type} [Ord κ] [Std.TransOrd κ]

/-- A map as a count followed by its entries in key order. -/
def serializeMap (enc : κ × ν → Bytes) (m : Map κ ν) : Bytes :=
  u64Bytes (UInt64.ofNat m.size) ++ m.toList.flatMap enc

/-- The decoder of a counted map; `what` is the map's name in the messages. -/
def deserializeMap (what : String) (dec : Bytes → κ × ν) (bytes : Bytes) :
    Except (Fault MetaError) (Map κ ν) :=
  if bytes.length < 8 then
    .error (.err (.corrupted
      (what ++ ": expected at least 8 bytes, got " ++ toString bytes.length)))
  else
    let count := (u64OfBytes (bytes.take 8)).toNat
    if 2 ^ 64 ≤ 8 + count * 36 then .error .panic
    else if bytes.length ≠ 8 + count * 36 then
      .error (.err (.corrupted (what ++ ": expected " ++ toString (8 + count * 36) ++
        " bytes for " ++ toString count ++ " entries, got " ++ toString bytes.length)))
    else .ok (.ofList ((fieldsOf 36 count (bytes.drop 8)).map dec))

variable {enc : κ × ν → Bytes} {dec : Bytes → κ × ν}

theorem length_serializeMap (henc : ∀ e, (enc e).length = 36) (m : Map κ ν) :
    (serializeMap enc m).length = 8 + m.size * 36 := by
  rw [serializeMap, List.length_append, length_u64Bytes, length_flatMap_of_width henc,
    Std.ExtTreeMap.length_toList]

theorem deserializeMap_serializeMap [Std.LawfulEqOrd κ] (what : String)
    (henc : ∀ e, (enc e).length = 36) (hdec : ∀ e, dec (enc e) = e) {m : Map κ ν}
    (hm : 8 + m.size * 36 < 2 ^ 64) : deserializeMap what dec (serializeMap enc m) = .ok m := by
  have hl := length_serializeMap henc m
  have hcount : (u64OfBytes ((serializeMap enc m).take 8)).toNat = m.size := by
    rw [serializeMap, List.take_left' (length_u64Bytes _), u64OfBytes_u64Bytes,
      UInt64.toNat_ofNat_of_lt' (by show m.size < 2 ^ 64; omega)]
  have hdrop : (serializeMap enc m).drop 8 = m.toList.flatMap enc := by
    rw [serializeMap, List.drop_left' (length_u64Bytes _)]
  have hfields : (fieldsOf 36 m.size (m.toList.flatMap enc)).map dec = m.toList := by
    have h := map_fieldsOf_flatMap henc hdec m.toList
    rwa [Std.ExtTreeMap.length_toList] at h
  simp only [deserializeMap, hcount, hl, hdrop, hfields]
  rw [if_neg (by omega), if_neg (by omega), if_neg (by simp), ofList_toList]

end CountedMap

structure InodeMap where
  map : Map UInt64 Digest224
  nextIno : UInt64
deriving DecidableEq

def InodeMap.new : InodeMap := ⟨∅, 2⟩

def serializeInodeMap (m : InodeMap) : Bytes := m.map.toList.flatMap entryBytes

/-- The highest inode number among the entries, and at least that of the root. -/
def maxIno (entries : List (UInt64 × Digest224)) : UInt64 :=
  entries.foldl (fun hi e => if hi < e.1 then e.1 else hi) 1

theorem foldl_max_mem (entries : List (UInt64 × Digest224)) (hi : UInt64) :
    entries.foldl (fun hi e => if hi < e.1 then e.1 else hi) hi ∈ hi :: entries.map Prod.fst := by
  induction entries generalizing hi with
  | nil => simp
  | cons e entries ih =>
      rw [List.foldl_cons]
      have h := ih (if hi < e.1 then e.1 else hi)
      split_ifs at h ⊢ <;> simp only [List.map_cons, List.mem_cons] at h ⊢ <;> tauto

theorem maxIno_mem (entries : List (UInt64 × Digest224)) :
    maxIno entries = 1 ∨ maxIno entries ∈ entries.map Prod.fst :=
  List.mem_cons.mp (foldl_max_mem entries 1)

def deserializeInodeMap (bytes : Bytes) : Except (Fault MetaError) InodeMap :=
  if bytes.length % 36 ≠ 0 then
    .error (.err (.corrupted
      ("inode map: expected multiple-of-36 bytes, got " ++ toString bytes.length)))
  else
    let entries := (fieldsOf 36 (bytes.length / 36) bytes).map parseEntry
    if maxIno entries = u64Max then .error .panic
    else .ok ⟨.ofList entries, maxIno entries + 1⟩

theorem length_serializeInodeMap (m : InodeMap) :
    (serializeInodeMap m).length = m.map.size * 36 := by
  rw [serializeInodeMap, length_flatMap_of_width length_entryBytes, Std.ExtTreeMap.length_toList]

/-- The decoder recomputes the next inode number from the highest one in the table. -/
theorem deserializeInodeMap_serializeInodeMap (m : InodeMap) :
    deserializeInodeMap (serializeInodeMap m) =
      if maxIno m.map.toList = u64Max then .error .panic
      else .ok ⟨m.map, maxIno m.map.toList + 1⟩ := by
  have hfields : (fieldsOf 36 m.map.size (serializeInodeMap m)).map parseEntry = m.map.toList := by
    have h := map_fieldsOf_flatMap length_entryBytes parseEntry_entryBytes m.map.toList
    rwa [Std.ExtTreeMap.length_toList] at h
  simp only [deserializeInodeMap, length_serializeInodeMap,
    Nat.mul_div_cancel _ (show 0 < 36 by decide), Nat.mul_mod_left, hfields]
  rw [if_neg (by simp), ofList_toList]

def serializeManifest (blocks : List Digest224) : Bytes := blocks.flatMap digestBytes

def deserializeManifest (bytes : Bytes) : Except MetaError (List Digest224) :=
  if bytes.length % 28 ≠ 0 then
    .error (.corrupted
      ("manifest: expected multiple-of-28 bytes, got " ++ toString bytes.length))
  else .ok ((fieldsOf 28 (bytes.length / 28) bytes).map parseDigest224)

theorem deserializeManifest_serializeManifest (blocks : List Digest224) :
    deserializeManifest (serializeManifest blocks) = .ok blocks := by
  have hl : (serializeManifest blocks).length = blocks.length * 28 :=
    length_flatMap_of_width length_digestBytes blocks
  have hfields : (fieldsOf 28 blocks.length (serializeManifest blocks)).map parseDigest224 =
      blocks :=
    map_fieldsOf_flatMap length_digestBytes parseDigest224_digestBytes blocks
  simp only [deserializeManifest, hl, Nat.mul_div_cancel _ (show 0 < 28 by decide),
    Nat.mul_mod_left, hfields]
  rw [if_neg (by simp)]

section Load
variable {B : Blockset} {ε α : Type}

/-- The blob under a digest, decoded; `what` names the blob in the message for a missing
one. -/
def loadRecord (what : String) (dec : Bytes → Except (Fault MetaError) α) (key : Digest224) :
    Prog B.Io MetaError α := do
  let bytes ← B.get key
  let bytes ← Prog.ofOption bytes (.corrupted ("missing " ++ what ++ " " ++ debugDigest key))
  Prog.ofResult (dec bytes)

/-- A decoder that cannot panic. -/
def noPanic (dec : Bytes → Except MetaError α) (bytes : Bytes) : Except (Fault MetaError) α :=
  (dec bytes).mapError .err

theorem noPanic_ok {dec : Bytes → Except MetaError α} {bytes : Bytes} {a : α}
    (h : dec bytes = .ok a) : noPanic dec bytes = .ok a := by
  rw [noPanic, h]
  rfl

theorem loadRecord_apply (what : String) (dec : Bytes → Except (Fault MetaError) α)
    (key : Digest224) (io : B.Io) :
    loadRecord what dec key io =
      (match B.fileStorageGet io key with
        | none => .error (.err (.corrupted ("missing " ++ what ++ " " ++ debugDigest key)))
        | some bytes => dec bytes, io) := by
  unfold loadRecord Blockset.get
  rw [Prog.bind_ok (Prog.read_apply _ _)]
  cases B.fileStorageGet io key <;> rfl

variable (L : B.Laws)

/-- A stored blob is what its digest loads. -/
theorem loadRecord_of_stored {what : String} {dec : Bytes → Except (Fault MetaError) α}
    {io : B.Io} {b : Bytes} (hc : L.NoCollision io) (hb : b ∈ L.stored io) :
    loadRecord what dec (L.digest b) io = (dec b, io) := by
  rw [loadRecord_apply, L.get_stored hc hb]

instance growing_loadRecord (what : String) (dec : Bytes → Except (Fault MetaError) α)
    (key : Digest224) : Growing L.growth (loadRecord what dec key) := by
  unfold loadRecord
  infer_instance

end Load

end SliceFs
