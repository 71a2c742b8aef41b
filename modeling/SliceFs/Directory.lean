import SliceFs.Codec

/-!
# Directories

A directory is a list of entries stored as one blob. The entries are kept in the
order of their keys, and the key of an entry is the digest of its name, so looking
a name up stores the name as a blob of its own.

The wire format counts entries and name bytes in 32 bits. Both fields are
truncated by the encoder: a directory of `2 ^ 32` entries or more decodes to the
first `size % 2 ^ 32` of them, which `deserializeEntryList_serializeEntryList`
states for every size.
-/
namespace SliceFs
open LittleEndian TreeMaps ProgramLogic

structure EntryRecord where
  key : Digest224
  ino : UInt64
  name : Str
deriving DecidableEq

def EntryRecord.toBytes (e : EntryRecord) : Bytes :=
  digestBytes e.key ++ (u64Bytes e.ino ++
    (u32Bytes (UInt32.ofNat e.name.bytes.length) ++ e.name.bytes))

def serializeEntryList (entries : Map Digest224 EntryRecord) : Bytes :=
  u32Bytes (UInt32.ofNat entries.size) ++ entries.toList.flatMap fun e => e.2.toBytes

/-- One entry at the front of the bytes, and the bytes after it. -/
def parseEntryRecord (b : Bytes) : Except MetaError (EntryRecord × Bytes) :=
  if b.length < 28 then .error (.corrupted "entry list truncated at key")
  else
    let key := parseDigest224 (b.take 28)
    let b := b.drop 28
    if b.length < 8 then .error (.corrupted "entry list truncated at ino")
    else
      let ino := u64OfBytes (b.take 8)
      let b := b.drop 8
      if b.length < 4 then .error (.corrupted "entry list truncated at name_len")
      else
        let nameLen := (u32OfBytes (b.take 4)).toNat
        let b := b.drop 4
        if b.length < nameLen then .error (.corrupted "entry list truncated at name bytes")
        else
          match Str.fromUtf8 (b.take nameLen) with
          | none => .error (.corrupted "entry name not utf-8")
          | some name => .ok (⟨key, ino, name⟩, b.drop nameLen)

def parseEntryRecords : ℕ → Bytes → Map Digest224 EntryRecord →
    Except MetaError (Map Digest224 EntryRecord)
  | 0, _, acc => .ok acc
  | n + 1, b, acc =>
    match parseEntryRecord b with
    | .error e => .error e
    | .ok (r, rest) => parseEntryRecords n rest (acc.insert r.key r)

def deserializeEntryList (bytes : Bytes) : Except MetaError (Map Digest224 EntryRecord) :=
  if bytes = [] then .ok ∅
  else if bytes.length < 4 then
    .error (.corrupted ("entry list too short: " ++ toString bytes.length ++ " bytes"))
  else parseEntryRecords (u32OfBytes (bytes.take 4)).toNat (bytes.drop 4) ∅

theorem parseEntryRecord_toBytes_append {e : EntryRecord} (he : e.name.bytes.length < 2 ^ 32)
    (rest : Bytes) : parseEntryRecord (e.toBytes ++ rest) = .ok (e, rest) := by
  have hlen : (u32OfBytes (u32Bytes (UInt32.ofNat e.name.bytes.length))).toNat =
      e.name.bytes.length := by
    rw [u32OfBytes_u32Bytes, UInt32.toNat_ofNat_of_lt' he]
  simp only [parseEntryRecord, EntryRecord.toBytes, List.append_assoc]
  rw [if_neg (by simp), List.take_left' (length_digestBytes _),
    List.drop_left' (length_digestBytes _), if_neg (by simp), List.take_left' (length_u64Bytes _),
    List.drop_left' (length_u64Bytes _), if_neg (by simp), List.take_left' (length_u32Bytes _),
    List.drop_left' (length_u32Bytes _), hlen, if_neg (by simp), List.take_left, List.drop_left,
    Str.fromUtf8_bytes]
  simp

theorem parseEntryRecords_flatMap {es : List EntryRecord}
    (hes : ∀ e ∈ es, e.name.bytes.length < 2 ^ 32) (rest : Bytes) {n : ℕ} (hn : n ≤ es.length)
    (acc : Map Digest224 EntryRecord) :
    parseEntryRecords n (es.flatMap EntryRecord.toBytes ++ rest) acc =
      .ok ((es.take n).foldl (fun m e => m.insert e.key e) acc) := by
  induction n generalizing es acc with
  | zero => simp [parseEntryRecords]
  | succ n ih =>
      cases es with
      | nil => simp at hn
      | cons e es =>
          have he := hes e List.mem_cons_self
          have hrest : ∀ e' ∈ es, e'.name.bytes.length < 2 ^ 32 :=
            fun e' h => hes e' (List.mem_cons_of_mem _ h)
          have hle : n ≤ es.length := by simpa using hn
          rw [List.flatMap_cons, List.append_assoc, parseEntryRecords,
            parseEntryRecord_toBytes_append he]
          exact ih hrest hle _

/-- Every entry is stored under its own key. -/
def KeysMatch (entries : Map Digest224 EntryRecord) : Prop :=
  ∀ (k : Digest224) (e : EntryRecord), entries[k]? = some e → e.key = k

/-- Inserting records by their own keys is building the map of their bindings. -/
theorem foldl_insert_key {entries : Map Digest224 EntryRecord} (hk : KeysMatch entries) (n : ℕ) :
    ((entries.toList.map Prod.snd).take n).foldl (fun m e => m.insert e.key e) ∅ =
      Std.ExtTreeMap.ofList (entries.toList.take n) compare := by
  rw [Std.ExtTreeMap.ofList_eq_foldl, ← List.map_take, List.foldl_map]
  have h : ∀ e ∈ entries.toList.take n, e.2.key = e.1 := fun e he =>
    hk e.1 e.2 (Std.ExtTreeMap.mem_toList_iff_getElem?_eq_some.mp (List.mem_of_mem_take he))
  generalize entries.toList.take n = l at h
  generalize (∅ : Map Digest224 EntryRecord) = acc
  induction l generalizing acc with
  | nil => rfl
  | cons e l ih =>
      rw [List.foldl_cons, List.foldl_cons, h e List.mem_cons_self]
      exact ih (fun e' he' => h e' (List.mem_cons_of_mem _ he')) _

/-- The decoder takes as many records as the count says and leaves the rest alone. -/
theorem deserializeEntryList_flatMap {es : List EntryRecord}
    (hes : ∀ e ∈ es, e.name.bytes.length < 2 ^ 32) {n : UInt32} (hn : n.toNat ≤ es.length)
    (rest : Bytes) :
    deserializeEntryList (u32Bytes n ++ (es.flatMap EntryRecord.toBytes ++ rest)) =
      .ok ((es.take n.toNat).foldl (fun m e => m.insert e.key e) ∅) := by
  have hne : u32Bytes n ++ (es.flatMap EntryRecord.toBytes ++ rest) ≠ [] := by
    intro h
    have := congrArg List.length h
    simp at this
  have hl : ¬ (u32Bytes n ++ (es.flatMap EntryRecord.toBytes ++ rest)).length < 4 := by
    rw [List.length_append, length_u32Bytes]
    omega
  rw [deserializeEntryList, if_neg hne, if_neg hl, List.take_left' (length_u32Bytes _),
    List.drop_left' (length_u32Bytes _), u32OfBytes_u32Bytes, parseEntryRecords_flatMap hes rest hn]

/-- The decoder returns the first `size % 2 ^ 32` entries in key order. -/
theorem deserializeEntryList_serializeEntryList {entries : Map Digest224 EntryRecord}
    (hk : KeysMatch entries)
    (hname : ∀ (k : Digest224) (e : EntryRecord), entries[k]? = some e →
    e.name.bytes.length < 2 ^ 32) : deserializeEntryList (serializeEntryList entries) =
      .ok (Std.ExtTreeMap.ofList (entries.toList.take (entries.size % 2 ^ 32)) compare) := by
  have hbytes : serializeEntryList entries = u32Bytes (UInt32.ofNat entries.size) ++
      ((entries.toList.map Prod.snd).flatMap EntryRecord.toBytes ++ []) := by
    rw [serializeEntryList, List.append_nil, List.flatMap_map]
  have hnames : ∀ e ∈ entries.toList.map Prod.snd, e.name.bytes.length < 2 ^ 32 := by
    intro e he
    obtain ⟨p, hp, rfl⟩ := List.mem_map.mp he
    exact hname p.1 p.2 (Std.ExtTreeMap.mem_toList_iff_getElem?_eq_some.mp hp)
  have hle : (UInt32.ofNat entries.size).toNat ≤ (entries.toList.map Prod.snd).length := by
    rw [List.length_map, Std.ExtTreeMap.length_toList, UInt32.toNat_ofNat']
    exact Nat.mod_le _ _
  rw [hbytes, deserializeEntryList_flatMap hnames hle, foldl_insert_key hk, UInt32.toNat_ofNat']

section Operations
variable (B : Blockset) {ε : Type}

def entryKey (name : Str) : Prog B.Fsa ε Digest224 := B.step (B.pushAll name.bytes)

def internEntryList (entries : Map Digest224 EntryRecord) : Prog B.Fsa ε Digest224 :=
  B.step (B.pushAll (serializeEntryList entries))

def loadEntryList (listDigest : Digest224) :
    Prog B.Io MetaError (Map Digest224 EntryRecord) :=
  loadRecord "dir entry list" (noPanic deserializeEntryList) listDigest

def createDirEntries (selfIno parentIno : UInt64) : Prog B.Fsa ε Digest224 := do
  let dotKey ← entryKey B .dot
  let dotdotKey ← entryKey B .dotDot
  internEntryList B ((Std.ExtTreeMap.insert ∅ dotKey ⟨dotKey, selfIno, .dot⟩).insert dotdotKey
    ⟨dotdotKey, parentIno, .dotDot⟩)

def addDirEntry (dirDigest : Digest224) (name : Str) (ino : UInt64) :
    Prog B.Io MetaError Digest224 := do
  Prog.ensure (¬ (name = .dot ∨ name = .dotDot)) (.invalidName name)
  let entries ← loadEntryList B dirDigest
  B.withFsa do
    let key ← entryKey B name
    Prog.ensure (entries[key]? = none) (.alreadyExists ino)
    internEntryList B (entries.insert key ⟨key, ino, name⟩)

def removeDirEntry (dirDigest : Digest224) (name : Str) : Prog B.Io MetaError Digest224 := do
  Prog.ensure (¬ (name = .dot ∨ name = .dotDot)) (.invalidName name)
  let entries ← loadEntryList B dirDigest
  B.withFsa do
    let key ← entryKey B name
    Prog.ensure (entries[key]? ≠ none) (.notFound 0)
    internEntryList B (entries.erase key)

def lookupDirEntry (dirDigest : Digest224) (name : Str) : Prog B.Io MetaError UInt64 := do
  let entries ← loadEntryList B dirDigest
  B.withFsa do
    let key ← entryKey B name
    Prog.ofOption (entries[key]?.map EntryRecord.ino) (.notFound 0)

def listDirEntries (dirDigest : Digest224) : Prog B.Io MetaError (List DirEntry) := do
  let entries ← loadEntryList B dirDigest
  pure (entries.toList.map fun e => ⟨e.2.name, e.2.ino⟩)

variable {B} (L : B.Laws)

instance growing_entryKey (name : Str) :
    Growing L.growthFsa (entryKey B name : Prog B.Fsa ε Digest224) := by
  unfold entryKey
  infer_instance

instance growing_internEntryList (entries : Map Digest224 EntryRecord) :
    Growing L.growthFsa (internEntryList B entries : Prog B.Fsa ε Digest224) := by
  unfold internEntryList
  infer_instance

instance growing_loadEntryList (d : Digest224) :
    Growing L.growth (loadEntryList B d) := by
  unfold loadEntryList
  infer_instance

instance growing_createDirEntries (selfIno parentIno : UInt64) :
    Growing L.growthFsa (createDirEntries B selfIno parentIno : Prog B.Fsa ε Digest224) := by
  unfold createDirEntries
  infer_instance

instance growing_addDirEntry (d : Digest224) (name : Str) (ino : UInt64) :
    Growing L.growth (addDirEntry B d name ino) := by
  unfold addDirEntry
  infer_instance

instance growing_removeDirEntry (d : Digest224) (name : Str) :
    Growing L.growth (removeDirEntry B d name) := by
  unfold removeDirEntry
  infer_instance

instance growing_lookupDirEntry (d : Digest224) (name : Str) :
    Growing L.growth (lookupDirEntry B d name) := by
  unfold lookupDirEntry
  infer_instance

instance growing_listDirEntries (d : Digest224) :
    Growing L.growth (listDirEntries B d) := by
  unfold listDirEntries
  infer_instance

end Operations

end SliceFs
