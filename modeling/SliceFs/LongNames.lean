import SliceFs.Links

/-!
# Names that are too long

An entry list keeps the length of a name in 32 bits. The name of `2 ^ 32` letters is written
with length zero, and when the list is read the letters are taken for the entries that
follow: they name an inode that nobody made.
-/
namespace SliceFs
open TreeMaps ProgramLogic LittleEndian

section Hash

/-- What `2 ^ k` letters do to a hash: the factor and the summand, modulo `2 ^ 224`. -/
def lettersHash : ℕ → ℕ × ℕ
  | 0 => (257, 98)
  | k + 1 =>
      match lettersHash k with
      | (a, b) => (a * a % 2 ^ 224, (b * a + b) % 2 ^ 224)

def hashStep (acc : ℕ) (x : UInt8) : ℕ := (acc * 257 + x.toNat + 1) % 2 ^ 224

theorem foldl_letters (k acc : ℕ) : (List.replicate (2 ^ k) (0x61 : UInt8)).foldl hashStep acc =
    (acc * (lettersHash k).1 + (lettersHash k).2) % 2 ^ 224 := by
  induction k generalizing acc with
  | zero =>
      show hashStep acc 0x61 = _
      rw [hashStep, Nat.add_assoc]
      rfl
  | succ k ih =>
      set a := (lettersHash k).1 with ha
      set b := (lettersHash k).2 with hb
      have hpair : lettersHash (k + 1) = (a * a % 2 ^ 224, (b * a + b) % 2 ^ 224) := rfl
      have hfirst : (acc * a + b) % 2 ^ 224 * a + b ≡ (acc * a + b) * a + b [MOD 2 ^ 224] :=
        ((Nat.mod_modEq _ _).mul_right _).add_right _
      have hsecond : acc * (a * a % 2 ^ 224) + (b * a + b) % 2 ^ 224 ≡
          acc * (a * a) + (b * a + b) [MOD 2 ^ 224] :=
        ((Nat.mod_modEq _ _).mul_left _).add (Nat.mod_modEq _ _)
      have hring : (acc * a + b) * a + b = acc * (a * a) + (b * a + b) := by ring
      rw [pow_succ, mul_two, ← List.replicate_append_replicate, List.foldl_append, ih, ih, hpair]
      rw [hring] at hfirst
      exact hfirst.trans hsecond.symm

def wordsOf (n : ℕ) : Digest224 :=
  #v[UInt32.ofNat n, UInt32.ofNat (n / 2 ^ 32), UInt32.ofNat (n / 2 ^ 64),
    UInt32.ofNat (n / 2 ^ 96), UInt32.ofNat (n / 2 ^ 128), UInt32.ofNat (n / 2 ^ 160),
    UInt32.ofNat (n / 2 ^ 192)]

/-- The digest of bytes with `2 ^ k` letters in the middle. -/
theorem memoryDigest_letters (k : ℕ) (b c : Bytes) :
    memoryDigest (b ++ (List.replicate (2 ^ k) 0x61 ++ c)) =
      wordsOf (c.foldl hashStep ((memoryHash b * (lettersHash k).1 + (lettersHash k).2) %
        2 ^ 224)) := by
  have hhash : ∀ b : Bytes, memoryHash b = b.foldl hashStep 0 := fun _ => rfl
  have hwords : ∀ b : Bytes, memoryDigest b = wordsOf (memoryHash b) := fun _ => rfl
  rw [hwords, hhash, List.foldl_append, List.foldl_append, foldl_letters, hhash]

end Hash

/-- The name of `2 ^ 32` letters. -/
@[irreducible] def hugeName : Str := .letters (2 ^ 32) (by decide)

theorem bytes_hugeName : hugeName.bytes = List.replicate (2 ^ 32) 0x61 := by
  unfold hugeName
  rfl

@[irreducible] def hugeKey : Digest224 :=
  wordsOf ((memoryHash [] * (lettersHash 32).1 + (lettersHash 32).2) % 2 ^ 224)

theorem memoryDigest_hugeName : memoryDigest hugeName.bytes = hugeKey := by
  have h := memoryDigest_letters 32 [] []
  rw [List.nil_append, List.append_nil, List.foldl_nil] at h
  rw [bytes_hugeName, h, hugeKey]

/-- The entries of a new root directory. -/
def rootEntries : Entries := Tree.newDir memoryLaws.key 1 1

/-- The store after the inode of a file was made. -/
def madeStore : Store memoryBlockset :=
  (createInode (.newFile 0 0 0 (fileMode 0o644 0)) freshStore).2

def madeIo : MemoryIo := madeStore.io

def rootRecords : Bytes := rootEntries.toList.flatMap fun e => e.2.toBytes

def hugeRecord : EntryRecord := ⟨hugeKey, 2, hugeName⟩

/-- The record that is read in its place. -/
def cutRecord : EntryRecord := ⟨hugeKey, 2, .empty⟩

/-- The root directory with the new entry, which comes first. -/
@[irreducible] def hugeEntries : Entries := rootEntries.insert hugeKey hugeRecord

@[irreducible] def hugeListKey : Digest224 :=
  wordsOf (rootRecords.foldl hashStep
    ((memoryHash (u32Bytes 3 ++ cutRecord.toBytes) * (lettersHash 32).1 + (lettersHash 32).2) %
      2 ^ 224))

/-- The digests under which a backend has blobs. -/
def MemoryIo.keys (io : MemoryIo) : List Digest224 := io.blobs.map Prod.fst

/-- What is computed about the store before the name is linked: the root directory is stored,
no digest is taken twice, and the new key is smaller than the keys of `.` and `..`. -/
theorem madeStore_facts :
    ((createInode (.newFile 0 0 0 (fileMode 0o644 0)) freshStore).1.toOption = some 2 ∧
      madeStore.maps.dirData[(1 : UInt64)]? =
        some (memoryDigest (serializeEntryList rootEntries))) ∧
    ((memoryDigest (serializeEntryList rootEntries), serializeEntryList rootEntries) ∈
        madeIo.blobs ∧ (memoryDigest Str.dot.bytes, Str.dot.bytes) ∈ madeIo.blobs ∧
      (memoryDigest Str.dotDot.bytes, Str.dotDot.bytes) ∈ madeIo.blobs) ∧
    (rootEntries.toList.filter (fun e => decide (compare e.1 hugeKey = .lt)) = [] ∧
      rootEntries.toList.filter (fun e => decide (compare hugeKey e.1 = .lt)) =
        rootEntries.toList ∧ rootEntries[hugeKey]? = none ∧ rootEntries.size = 2) ∧
    (hugeListKey :: hugeKey :: madeIo.keys).Nodup := by
  decide +kernel

theorem listed_rootEntries : memoryLaws.Listed madeIo rootEntries := by
  obtain ⟨-, ⟨hlist, hdot, hdotDot⟩, -⟩ := madeStore_facts
  exact listed_newDir hlist hdot hdotDot

theorem toBytes_hugeRecord :
    hugeRecord.toBytes = cutRecord.toBytes ++ List.replicate (2 ^ 32) 0x61 := by
  have hlen : UInt32.ofNat hugeName.bytes.length = 0 := by
    rw [bytes_hugeName, List.length_replicate]
    rfl
  have hcut : cutRecord.toBytes = digestBytes hugeKey ++ (u64Bytes 2 ++ (u32Bytes 0 ++ [])) := rfl
  rw [hcut, hugeRecord, EntryRecord.toBytes, hlen, bytes_hugeName, List.append_nil,
    List.append_assoc, List.append_assoc]

theorem serialize_hugeEntries : serializeEntryList hugeEntries =
    (u32Bytes 3 ++ cutRecord.toBytes) ++ (List.replicate (2 ^ 32) 0x61 ++ rootRecords) := by
  obtain ⟨-, -, ⟨hsmaller, hlarger, hnew, hroot⟩, -⟩ := madeStore_facts
  have hsize : hugeEntries.size = 3 := by
    have hmem : rootEntries.contains hugeKey = false := by
      rw [Std.ExtTreeMap.contains_eq_isSome_getElem?, hnew]
      rfl
    rw [hugeEntries, Std.ExtTreeMap.size_insert, hmem, hroot]
    rfl
  rw [serializeEntryList, hsize, hugeEntries, toList_insert_eq, hsmaller, hlarger, List.nil_append,
    List.flatMap_cons, toBytes_hugeRecord]
  simp only [List.append_assoc]
  rfl

theorem memoryDigest_hugeEntries : memoryDigest (serializeEntryList hugeEntries) = hugeListKey := by
  rw [serialize_hugeEntries, memoryDigest_letters, hugeListKey]

/-- What the letters are read as. -/
@[irreducible] def letterName : Str := .letters 0x61616161 (by decide)

theorem bytes_letterName : letterName.bytes = List.replicate 0x61616161 0x61 := by
  unfold letterName
  rfl

def letterRecord : EntryRecord :=
  ⟨.replicate 7 0x61616161, 0x6161616161616161, letterName⟩

theorem toBytes_letterRecord : letterRecord.toBytes = List.replicate (40 + 0x61616161) 0x61 := by
  have hlen : UInt32.ofNat letterName.bytes.length = 0x61616161 := by
    rw [bytes_letterName, List.length_replicate]
    rfl
  have hhead : digestBytes (.replicate 7 0x61616161) ++
      (u64Bytes 0x6161616161616161 ++ u32Bytes 0x61616161) = List.replicate 40 0x61 := by
    decide +kernel
  rw [letterRecord, EntryRecord.toBytes, hlen, bytes_letterName, ← List.replicate_append_replicate,
    ← hhead, List.append_assoc, List.append_assoc]

theorem letters_eq_records : List.replicate (2 ^ 32) (0x61 : UInt8) =
    letterRecord.toBytes ++
      (letterRecord.toBytes ++ List.replicate (2 ^ 32 - 2 * (40 + 0x61616161)) 0x61) := by
  rw [toBytes_letterRecord, List.replicate_append_replicate, List.replicate_append_replicate]
  exact congrArg (List.replicate · 0x61) (by norm_num)

/-- The two records after the first one are made of letters. -/
theorem deserialize_hugeEntries : deserializeEntryList (serializeEntryList hugeEntries) =
    .ok (((Std.ExtTreeMap.insert ∅ hugeKey cutRecord).insert letterRecord.key letterRecord).insert
      letterRecord.key letterRecord) := by
  have hletter : letterRecord.name.bytes.length < 2 ^ 32 := by
    show letterName.bytes.length < 2 ^ 32
    rw [bytes_letterName, List.length_replicate]
    norm_num
  have hnames : ∀ e ∈ [cutRecord, letterRecord, letterRecord], e.name.bytes.length < 2 ^ 32 := by
    intro e he
    simp only [List.mem_cons, List.not_mem_nil, or_false, or_self] at he
    rcases he with rfl | rfl
    · exact Nat.two_pow_pos 32
    · exact hletter
  have hflat : [cutRecord, letterRecord, letterRecord].flatMap EntryRecord.toBytes =
      cutRecord.toBytes ++ (letterRecord.toBytes ++ (letterRecord.toBytes ++ [])) := rfl
  have hdec := deserializeEntryList_flatMap hnames (n := 3) (Nat.le_refl 3)
    (List.replicate (2 ^ 32 - 2 * (40 + 0x61616161)) 0x61 ++ rootRecords)
  rw [hflat, List.append_nil] at hdec
  rw [serialize_hugeEntries, letters_eq_records]
  simp only [List.append_assoc] at hdec ⊢
  exact hdec

theorem hugeName_not_dots : ¬ hugeName.IsDots := by
  have hlen : hugeName.bytes.length = 2 ^ 32 := by rw [bytes_hugeName, List.length_replicate]
  rintro (h | h)
  · rw [h] at hlen
    exact absurd hlen (by decide)
  · rw [h] at hlen
    exact absurd hlen (by decide)

theorem letterName_not_dots : ¬ letterName.IsDots := by
  have hlen : letterName.bytes.length = 0x61616161 := by
    rw [bytes_letterName, List.length_replicate]
  rintro (h | h)
  · rw [h] at hlen
    exact absurd hlen (by decide)
  · rw [h] at hlen
    exact absurd hlen (by decide)

section Backend

theorem MemoryIo.keys_put (io : MemoryIo) {b : Bytes} {d : Digest224} (hd : memoryDigest b = d)
    (h : d ∉ io.keys) : (io.put b).keys = d :: io.keys := by
  subst hd
  have hnew : (memoryDigest b, b) ∉ io.blobs := fun hmem => h (List.mem_map_of_mem hmem)
  rw [keys, put, if_neg hnew]
  rfl

theorem addDirEntry_memoryBlockset {d d' key : Digest224} {es : Entries} {name : Str} {i : UInt64}
    {io : MemoryIo} (hproper : ¬ name.IsDots)
    (hload : loadEntryList memoryBlockset d io = (.ok es, io))
    (hkey : memoryDigest name.bytes = key) (hnew : es[key]? = none)
    (hlist : memoryDigest (serializeEntryList (es.insert key ⟨key, i, name⟩)) = d') :
    addDirEntry memoryBlockset d name i io = (.ok d', (io.put name.bytes).put
      (serializeEntryList (es.insert key ⟨key, i, name⟩))) := by
  subst hkey hlist
  exact addDirEntry_of_load hproper hload rfl hnew rfl

end Backend

/-- The backend with the name and the new entry list. -/
@[irreducible] def hugeIo : MemoryIo :=
  (madeIo.put hugeName.bytes).put (serializeEntryList hugeEntries)

theorem noCollision_hugeIo : memoryLaws.NoCollision hugeIo := by
  have hkeys := madeStore_facts.2.2.2
  obtain ⟨hlistKey, hrest⟩ := List.nodup_cons.mp hkeys
  have hname : (madeIo.put hugeName.bytes).keys = hugeKey :: madeIo.keys :=
    madeIo.keys_put memoryDigest_hugeName (List.nodup_cons.mp hrest).1
  have hfresh : hugeListKey ∉ (madeIo.put hugeName.bytes).keys := by
    rw [hname]
    exact hlistKey
  have hlist : hugeIo.keys = hugeListKey :: hugeKey :: madeIo.keys := by
    have hput := MemoryIo.keys_put _ memoryDigest_hugeEntries hfresh
    unfold hugeIo
    exact hput.trans (congrArg (hugeListKey :: ·) hname)
  have hnodup : hugeIo.keys.Nodup := by
    rw [hlist]
    exact hkeys
  exact memoryLaws_noCollision hnodup

theorem addDirEntry_hugeName :
    addDirEntry memoryBlockset (memoryLaws.digest (serializeEntryList rootEntries)) hugeName 2
      madeIo = (.ok hugeListKey, hugeIo) := by
  obtain ⟨-, -, ⟨-, -, hnew, -⟩, hkeys⟩ := madeStore_facts
  have hmade : memoryLaws.NoCollision madeIo := memoryLaws_noCollision hkeys.of_cons.of_cons
  have hload := loadEntryList_eq listed_rootEntries hmade
  have hlist := memoryDigest_hugeEntries
  unfold hugeIo
  unfold hugeEntries hugeRecord at hlist ⊢
  exact addDirEntry_memoryBlockset hugeName_not_dots hload memoryDigest_hugeName hnew hlist

/-- The file system with the file of the long name. -/
def hugeFs : Fs memoryBlockset where
  store := { madeStore with
    io := hugeIo, maps := { madeStore.maps with
      dirData := madeStore.maps.dirData.insert 1 hugeListKey } }
  openFiles := Std.ExtTreeMap.insert ∅ 1 (.new 2)
  nextFh := 1
  autoSnapshot := false

theorem testCreate_hugeName :
    testCreate 1 hugeName 0o644 0 0 0 freshFs = (.ok (2, 1), hugeFs) := by
  obtain ⟨⟨hmade, hdir⟩, -⟩ := madeStore_facts
  have hinode : createInode (.newFile 0 0 0 (fileMode 0o644 0)) freshFs.store =
      (.ok 2, madeStore) := Prog.eq_ok_of_toOption hmade
  have hlink : link 1 hugeName 2 madeStore = (.ok (), hugeFs.store) :=
    rewriteDir_ok hdir addDirEntry_hugeName
  have hattempt : Prog.attempt (onStore (link 1 hugeName 2)) { freshFs with store := madeStore } =
      ((.ok (.ok ()), { freshFs with store := hugeFs.store }) : Except (Fault Errno) _ × _) :=
    attempt_onStore_eq (r := .ok ()) hlink
  have hnode : createNode 1 hugeName (.newFile 0 0 0 (fileMode 0o644 0)) freshFs =
      (.ok 2, { freshFs with store := hugeFs.store }) := by
    rw [createNode, Prog.bind_ok (callStore_ok hinode), Prog.bind_ok hattempt]
    rfl
  rw [testCreate, Prog.bind_ok hnode]
  rfl

theorem letterName_mem_hugeFs : ⟨letterName, 0x6161616161616161⟩ ∈ hugeFs.entries 1 := by
  have hstored : serializeEntryList hugeEntries ∈ memoryLaws.stored hugeIo := by
    unfold hugeIo
    exact MemoryIo.mem_put _ _
  have hload : loadEntryList memoryBlockset hugeListKey hugeIo =
      (noPanic deserializeEntryList (serializeEntryList hugeEntries), hugeIo) := by
    rw [loadEntryList, ← memoryDigest_hugeEntries]
    exact loadRecord_of_stored memoryLaws noCollision_hugeIo hstored
  rw [noPanic_ok deserialize_hugeEntries] at hload
  have hdir : hugeFs.store.maps.dirData[(1 : UInt64)]? = some hugeListKey :=
    Std.ExtTreeMap.getElem?_insert_self
  have hlist : listDirectory 1 hugeFs.store = _ := listDirectory_of_load hdir hload
  have hentries : hugeFs.entries 1 = _ := congrArg (fun r => (r.1.toOption).getD []) hlist
  rw [hentries]
  exact List.mem_map.mpr ⟨(letterRecord.key, letterRecord),
    Std.ExtTreeMap.mem_toList_iff_getElem?_eq_some.mpr Std.ExtTreeMap.getElem?_insert_self, rfl⟩

/-- A file is made under the long name, and the root directory then names an inode that is
not there. -/
theorem hugeName_names_no_inode :
    Runs (fun _ op => op.OnNames ∧ ∀ n ∈ op.names, ¬ n.IsDots) (Fs.mount freshStore false) hugeFs ∧
    memoryLaws.NoCollision hugeFs.store.io ∧
    ∃ e ∈ hugeFs.entries 1, ¬ e.name.IsDots ∧ hugeFs.inode e.ino = none := by
  have hrun : (FsOp.create 1 hugeName 0o644 0 0 0).run freshFs = some hugeFs := by
    rw [FsOp.run, Prog.exec, testCreate_hugeName]
  have hproper : (FsOp.create 1 hugeName 0o644 0 0 0).OnNames ∧
      ∀ n ∈ (FsOp.create 1 hugeName 0o644 0 0 0).names, ¬ n.IsDots := by
    refine ⟨trivial, fun n hn => ?_⟩
    rw [List.mem_singleton.mp hn]
    exact hugeName_not_dots
  have hnone : hugeFs.inode 0x6161616161616161 = none := by decide +kernel
  exact ⟨.step (.refl _) hproper hrun, noCollision_hugeIo, _, letterName_mem_hugeFs,
    letterName_not_dots, hnone⟩

end SliceFs
