import SliceFs.Checked
import SliceFs.Directory

/-!
# The entry-list decoder on arbitrary bytes

The decoder walks an index through the blob, and a length of the blob itself decides how
far. Written out with checked arithmetic and indexing, it is the decoder on lists: each
test comes before the access that it guards, and no sum passes twice the largest slice.
-/
namespace SliceFs
open LittleEndian TreeMaps ProgramLogic Checked

namespace Cursor

def word (bytes : Bytes) (i j : ℕ) : Except (Fault MetaError) UInt32 := do
  let shift ← mul j 4
  let off ← add i shift
  let stop ← add off 4
  let field ← range bytes off stop
  pure (u32OfBytes field)

def digest (bytes : Bytes) (i : ℕ) : Except (Fault MetaError) Digest224 := do
  let w₀ ← word bytes i 0
  let w₁ ← word bytes i 1
  let w₂ ← word bytes i 2
  let w₃ ← word bytes i 3
  let w₄ ← word bytes i 4
  let w₅ ← word bytes i 5
  let w₆ ← word bytes i 6
  pure #v[w₀, w₁, w₂, w₃, w₄, w₅, w₆]

def u64 (bytes : Bytes) (i : ℕ) : Except (Fault MetaError) UInt64 := do
  let stop ← add i 8
  let field ← range bytes i stop
  pure (u64OfBytes field)

/-- The entry at index `i`, and the index after it. -/
def entryRecord (bytes : Bytes) (i : ℕ) : Except (Fault MetaError) (EntryRecord × ℕ) := do
  let stop ← add i 28
  ensure (stop ≤ bytes.length) (.corrupted "entry list truncated at key")
  let key ← digest bytes i
  let i ← add i 28
  let stop ← add i 8
  ensure (stop ≤ bytes.length) (.corrupted "entry list truncated at ino")
  let ino ← u64 bytes i
  let i ← add i 8
  let stop ← add i 4
  ensure (stop ≤ bytes.length) (.corrupted "entry list truncated at name_len")
  let field ← range bytes i stop
  let nameLen := (u32OfBytes field).toNat
  let i ← add i 4
  let stop ← add i nameLen
  ensure (stop ≤ bytes.length) (.corrupted "entry list truncated at name bytes")
  let field ← range bytes i stop
  match Str.fromUtf8 field with
  | none => .error (.err (.corrupted "entry name not utf-8"))
  | some name => do
    let i ← add i nameLen
    pure (⟨key, ino, name⟩, i)

def entryRecords (bytes : Bytes) : ℕ → ℕ → Map Digest224 EntryRecord →
    Except (Fault MetaError) (Map Digest224 EntryRecord)
  | 0, _, acc => .ok acc
  | n + 1, i, acc => do
    let (r, i) ← entryRecord bytes i
    entryRecords bytes n i (acc.insert r.key r)

def deserializeEntryList (bytes : Bytes) : Except (Fault MetaError) (Map Digest224 EntryRecord) :=
  if bytes = [] then .ok ∅
  else if bytes.length < 4 then
    .error (.err (.corrupted ("entry list too short: " ++ toString bytes.length ++ " bytes")))
  else do
    let field ← range bytes 0 4
    entryRecords bytes (u32OfBytes field).toNat 4 ∅

section
variable {bytes : Bytes} {i : ℕ}

theorem word_eq (hlen : bytes.length ≤ isizeMax) (h : i + 28 ≤ bytes.length) {j : ℕ} (hj : j < 7) :
    word bytes i j = .ok (wordAt ((bytes.drop i).take 28) j) := by
  have hmax : isizeMax < 2 ^ 63 := by decide
  rw [word, mul_of_lt (by omega), ok_bind, add_of_lt (by omega), ok_bind, add_of_lt (by omega),
    ok_bind, range_of_le (by omega), ok_bind, wordAt, List.drop_take, List.drop_drop,
    List.take_take, Nat.min_eq_left (by omega), Nat.mul_comm j 4]
  rfl

theorem digest_eq (hlen : bytes.length ≤ isizeMax) (h : i + 28 ≤ bytes.length) :
    digest bytes i = .ok (parseDigest224 ((bytes.drop i).take 28)) := by
  simp only [digest, word_eq hlen h (by decide : 0 < 7), word_eq hlen h (by decide : 1 < 7),
    word_eq hlen h (by decide : 2 < 7), word_eq hlen h (by decide : 3 < 7),
    word_eq hlen h (by decide : 4 < 7), word_eq hlen h (by decide : 5 < 7),
    word_eq hlen h (by decide : 6 < 7), ok_bind]
  rfl

theorem u64_eq (hlen : bytes.length ≤ isizeMax) (h : i + 8 ≤ bytes.length) :
    u64 bytes i = .ok (u64OfBytes ((bytes.drop i).take 8)) := by
  have hmax : isizeMax < 2 ^ 63 := by decide
  rw [u64, add_of_lt (by omega), ok_bind, range_of_le h]
  rfl

end

end Cursor

section Records
variable {b rest : Bytes} {r : EntryRecord}

theorem EntryRecord.length_toBytes (e : EntryRecord) :
    e.toBytes.length = 40 + e.name.bytes.length := by
  simp [toBytes]
  omega

/-- An entry that is read is as long as its own encoding, which the length field decides. -/
theorem parseEntryRecord_ok (h : parseEntryRecord b = .ok (r, rest)) :
    rest = b.drop r.toBytes.length ∧ r.toBytes.length ≤ b.length ∧
      r.toBytes.length = 40 + (u32OfBytes ((b.drop 36).take 4)).toNat := by
  unfold parseEntryRecord at h
  simp only [List.drop_drop, List.length_drop] at h
  split_ifs at h with h₁ h₂ h₃ h₄
  split at h
  · cases h
  · next name hname =>
      obtain ⟨rfl, rfl⟩ := Prod.mk.inj (Except.ok.inj h)
      have hbytes := congrArg List.length (Str.bytes_of_fromUtf8 hname)
      rw [List.length_take, List.length_drop, Nat.min_eq_left (by omega)] at hbytes
      rw [EntryRecord.length_toBytes, hbytes]
      exact ⟨rfl, by omega, rfl⟩

theorem parseEntryRecord_error {e : MetaError} (h : parseEntryRecord b = .error e) :
    ∃ message, e = .corrupted message := by
  unfold parseEntryRecord at h
  simp only at h
  split_ifs at h with h₁ h₂ h₃ h₄
  · exact ⟨_, (Except.error.inj h).symm⟩
  · exact ⟨_, (Except.error.inj h).symm⟩
  · exact ⟨_, (Except.error.inj h).symm⟩
  · exact ⟨_, (Except.error.inj h).symm⟩
  · split at h
    · exact ⟨_, (Except.error.inj h).symm⟩
    · cases h

/-- A part of the encoding of an entry is not an entry. -/
theorem parseEntryRecord_take_toBytes {e : EntryRecord} (he : e.name.bytes.length < 2 ^ 32) {k : ℕ}
    (hk : k < e.toBytes.length) :
    ∃ message, parseEntryRecord (e.toBytes.take k) = .error (.corrupted message) := by
  cases hparse : parseEntryRecord (e.toBytes.take k) with
  | error f =>
      obtain ⟨message, rfl⟩ := parseEntryRecord_error hparse
      exact ⟨message, rfl⟩
  | ok p =>
      obtain ⟨-, hle, hlen⟩ := parseEntryRecord_ok hparse
      rw [List.length_take, Nat.min_eq_left hk.le] at hle
      have hhead : (digestBytes e.key ++ u64Bytes e.ino).length = 36 := by simp
      have hfield : ((e.toBytes.take k).drop 36).take 4 =
          u32Bytes (UInt32.ofNat e.name.bytes.length) := by
        rw [List.drop_take, List.take_take, Nat.min_eq_left (by omega), EntryRecord.toBytes,
          ← List.append_assoc, List.drop_left' hhead, List.take_left' (length_u32Bytes _)]
      rw [hfield, u32OfBytes_u32Bytes, UInt32.toNat_ofNat_of_lt' he] at hlen
      rw [EntryRecord.length_toBytes] at hk
      omega

end Records

/-- How long the encoding of the entries is without their number. -/
def recordBytes (entries : Map Digest224 EntryRecord) : ℕ :=
  total (fun _ e => e.toBytes.length) entries

theorem length_serializeEntryList (entries : Map Digest224 EntryRecord) :
    (serializeEntryList entries).length = 4 + recordBytes entries := by
  rw [serializeEntryList, List.length_append, length_u32Bytes, List.length_flatMap]
  rfl

theorem recordBytes_insert_le (entries : Map Digest224 EntryRecord) (r : EntryRecord) :
    recordBytes (entries.insert r.key r) ≤ recordBytes entries + r.toBytes.length := by
  cases hold : entries[r.key]? with
  | none => exact (total_insert_new _ hold r).trans (Nat.add_comm _ _) |>.le
  | some old => exact (Nat.le_add_right _ _).trans (total_insert_of_some _ hold r).le

/-- The entries that are read are no more than asked for, and no longer than the bytes. -/
theorem parseEntryRecords_ok {n : ℕ} {b : Bytes} {acc entries : Map Digest224 EntryRecord}
    (h : parseEntryRecords n b acc = .ok entries) :
    entries.size ≤ acc.size + n ∧ recordBytes entries ≤ recordBytes acc + b.length := by
  induction n generalizing b acc with
  | zero =>
      obtain rfl := Except.ok.inj h
      exact ⟨Nat.le_add_right _ _, Nat.le_add_right _ _⟩
  | succ n ih =>
      rw [parseEntryRecords] at h
      split at h
      · cases h
      · next r rest hparse =>
          obtain ⟨rfl, hle, -⟩ := parseEntryRecord_ok hparse
          obtain ⟨hsize, hbytes⟩ := ih h
          have hinsert := recordBytes_insert_le acc r
          have hone : (acc.insert r.key r).size ≤ acc.size + 1 := Std.ExtTreeMap.size_insert_le
          rw [List.length_drop] at hbytes
          omega

theorem parseEntryRecords_error {n : ℕ} {b : Bytes} {acc : Map Digest224 EntryRecord}
    {e : MetaError} (h : parseEntryRecords n b acc = .error e) :
    ∃ message, e = .corrupted message := by
  induction n generalizing b acc with
  | zero => cases h
  | succ n ih =>
      rw [parseEntryRecords] at h
      split at h
      · next f hparse =>
          obtain rfl := Except.error.inj h
          exact parseEntryRecord_error hparse
      · exact ih h

/-- A part of the encodings of some entries is not as many entries. -/
theorem parseEntryRecords_take_flatMap {es : List EntryRecord}
    (hes : ∀ e ∈ es, e.name.bytes.length < 2 ^ 32) {k : ℕ}
    (hk : k < (es.flatMap EntryRecord.toBytes).length) (acc : Map Digest224 EntryRecord) :
    ∃ message, parseEntryRecords es.length ((es.flatMap EntryRecord.toBytes).take k) acc =
      .error (.corrupted message) := by
  induction es generalizing k acc with
  | nil => cases hk
  | cons e es ih =>
      have he := hes e List.mem_cons_self
      rw [List.flatMap_cons, List.length_append] at hk
      rw [List.flatMap_cons, List.length_cons, parseEntryRecords]
      by_cases hfirst : k < e.toBytes.length
      · obtain ⟨message, herror⟩ := parseEntryRecord_take_toBytes he hfirst
        rw [List.take_append_of_le_length hfirst.le, herror]
        exact ⟨message, rfl⟩
      · rw [List.take_append, List.take_of_length_le (by omega), parseEntryRecord_toBytes_append he]
        exact ih (fun e' he' => hes e' (List.mem_cons_of_mem _ he')) (by omega) _

theorem deserializeEntryList_error {bytes : Bytes} {e : MetaError}
    (h : deserializeEntryList bytes = .error e) : ∃ message, e = .corrupted message := by
  unfold deserializeEntryList at h
  split_ifs at h
  · exact ⟨_, (Except.error.inj h).symm⟩
  · exact parseEntryRecords_error h

theorem deserializeEntryList_take {entries : Map Digest224 EntryRecord}
    (hsize : entries.size < 2 ^ 32)
    (hname : ∀ (k : Digest224) (e : EntryRecord), entries[k]? = some e →
      e.name.bytes.length < 2 ^ 32) {k : ℕ} (hpos : 0 < k) (hk :
      k < (serializeEntryList entries).length) :
    ∃ message, deserializeEntryList ((serializeEntryList entries).take k) =
      .error (.corrupted message) := by
  have hlen : ((serializeEntryList entries).take k).length = k := by
    rw [List.length_take, Nat.min_eq_left hk.le]
  have hne : (serializeEntryList entries).take k ≠ [] := by
    rw [← List.length_pos_iff, hlen]
    exact hpos
  rw [deserializeEntryList, if_neg hne, hlen]
  split_ifs with hshort
  · exact ⟨_, rfl⟩
  · have hcount : (u32OfBytes (((serializeEntryList entries).take k).take 4)).toNat =
        (entries.toList.map Prod.snd).length := by
      rw [List.take_take, Nat.min_eq_left (by omega), serializeEntryList,
        List.take_left' (length_u32Bytes _), u32OfBytes_u32Bytes, UInt32.toNat_ofNat_of_lt' hsize,
        List.length_map, Std.ExtTreeMap.length_toList]
    have hdrop : (serializeEntryList entries).drop 4 =
        (entries.toList.map Prod.snd).flatMap EntryRecord.toBytes := by
      rw [serializeEntryList, List.drop_left' (length_u32Bytes _), List.flatMap_map]
    rw [hcount, List.drop_take, hdrop]
    refine parseEntryRecords_take_flatMap (fun e he => ?_) ?_ ∅
    · obtain ⟨p, hp, rfl⟩ := List.mem_map.mp he
      exact hname p.1 p.2 (Std.ExtTreeMap.mem_toList_iff_getElem?_eq_some.mp hp)
    · rw [← hdrop, List.length_drop]
      omega

namespace Cursor
variable {bytes : Bytes} {i : ℕ}

/-- The entry at an index is the one at the front of the bytes from there on. -/
theorem entryRecord_eq (hlen : bytes.length ≤ isizeMax) (hi : i ≤ bytes.length) :
    entryRecord bytes i = match parseEntryRecord (bytes.drop i) with
      | .error e => .error (.err e)
      | .ok (r, _) => .ok (r, i + r.toBytes.length) := by
  have hmax : isizeMax < 2 ^ 63 := by decide
  have hname := (u32OfBytes ((bytes.drop (i + 28 + 8)).take 4)).toNat_lt
  rw [entryRecord, add_of_lt (by omega), ok_bind, parseEntryRecord]
  simp only [List.drop_drop, List.length_drop]
  by_cases h₁ : bytes.length - i < 28
  · rw [if_pos h₁, ensure_of_not (by omega)]
    rfl
  rw [if_neg h₁, ensure_of (by omega), ok_bind, digest_eq hlen (by omega), ok_bind, ok_bind,
    add_of_lt (by omega), ok_bind]
  by_cases h₂ : bytes.length - (i + 28) < 8
  · rw [if_pos h₂, ensure_of_not (by omega)]
    rfl
  rw [if_neg h₂, ensure_of (by omega), ok_bind, u64_eq hlen (by omega), ok_bind, ok_bind,
    add_of_lt (by omega), ok_bind]
  by_cases h₃ : bytes.length - (i + 28 + 8) < 4
  · rw [if_pos h₃, ensure_of_not (by omega)]
    rfl
  rw [if_neg h₃, ensure_of (by omega), ok_bind, range_of_le (by omega), ok_bind, ok_bind,
    add_of_lt (by omega), ok_bind]
  by_cases h₄ : bytes.length - (i + 28 + 8 + 4) <
      (u32OfBytes ((bytes.drop (i + 28 + 8)).take 4)).toNat
  · rw [if_pos h₄, ensure_of_not (by omega)]
    rfl
  rw [if_neg h₄, ensure_of (by omega), ok_bind, range_of_le (by omega), ok_bind]
  cases hutf8 : Str.fromUtf8 ((bytes.drop (i + 28 + 8 + 4)).take
      (u32OfBytes ((bytes.drop (i + 28 + 8)).take 4)).toNat) with
  | none => rfl
  | some name =>
      have hbytes := congrArg List.length (Str.bytes_of_fromUtf8 hutf8)
      rw [List.length_take, List.length_drop, Nat.min_eq_left (by omega)] at hbytes
      have hnext : i + 28 + 8 + 4 + name.bytes.length = i + (40 + name.bytes.length) := by omega
      simp only [EntryRecord.length_toBytes, ok_bind, ← hbytes, hnext]
      rfl

theorem entryRecords_eq (hlen : bytes.length ≤ isizeMax) (hi : i ≤ bytes.length) (n : ℕ)
    (acc : Map Digest224 EntryRecord) :
    entryRecords bytes n i acc = (parseEntryRecords n (bytes.drop i) acc).mapError .err := by
  induction n generalizing i acc with
  | zero => rfl
  | succ n ih =>
      rw [entryRecords, parseEntryRecords, entryRecord_eq hlen hi]
      cases hparse : parseEntryRecord (bytes.drop i) with
      | error e => rfl
      | ok p =>
          obtain ⟨r, rest⟩ := p
          obtain ⟨rfl, hle, -⟩ := parseEntryRecord_ok hparse
          rw [List.length_drop] at hle
          rw [List.drop_drop]
          exact ih (by omega) _

/-- The decoder with an index is the decoder on lists: it never leaves the blob. -/
theorem deserializeEntryList_eq (hlen : bytes.length ≤ isizeMax) :
    deserializeEntryList bytes = noPanic SliceFs.deserializeEntryList bytes := by
  rw [deserializeEntryList, noPanic, SliceFs.deserializeEntryList]
  split_ifs with hnil hshort
  · rfl
  · rfl
  · have hfour : 0 + 4 ≤ bytes.length := by omega
    have hfield : (range bytes 0 4 : Except (Fault MetaError) Bytes) = .ok (bytes.take 4) :=
      range_of_le hfour
    rw [hfield, ok_bind, entryRecords_eq hlen (by omega)]

end Cursor

/-- On arbitrary bytes the decoder returns entries or an error and stays within them. The
entries are no more than the count and no longer than the bytes. A part of the encoding of
a directory is an error. -/
theorem entryList_decoder_safe {bytes : Bytes} (hlen : bytes.length ≤ isizeMax) :
    ((∃ entries, Cursor.deserializeEntryList bytes = .ok entries) ∨
      ∃ message, Cursor.deserializeEntryList bytes = .error (.err (.corrupted message))) ∧
    (∀ entries, Cursor.deserializeEntryList bytes = .ok entries → bytes ≠ [] →
      entries.size ≤ (u32OfBytes (bytes.take 4)).toNat ∧
        (serializeEntryList entries).length ≤ bytes.length) ∧
    ∀ entries : Map Digest224 EntryRecord, entries.size < 2 ^ 32 →
      (∀ (k : Digest224) (e : EntryRecord), entries[k]? = some e → e.name.bytes.length < 2 ^ 32) →
      ∀ k, 0 < k → k < (serializeEntryList entries).length →
        bytes = (serializeEntryList entries).take k →
        ∃ message, Cursor.deserializeEntryList bytes = .error (.err (.corrupted message)) := by
  rw [Cursor.deserializeEntryList_eq hlen, noPanic]
  refine ⟨?_, fun entries hok hne => ?_, ?_⟩
  · cases hdec : deserializeEntryList bytes with
    | ok entries => exact .inl ⟨entries, rfl⟩
    | error e =>
        obtain ⟨message, rfl⟩ := deserializeEntryList_error hdec
        exact .inr ⟨message, rfl⟩
  · cases hdec : deserializeEntryList bytes with
    | error e =>
        rw [hdec] at hok
        cases hok
    | ok entries' =>
        rw [hdec] at hok
        obtain rfl := Except.ok.inj hok
        rw [deserializeEntryList, if_neg hne] at hdec
        split_ifs at hdec with hshort
        obtain ⟨hsize, hbytes⟩ := parseEntryRecords_ok hdec
        have hempty : recordBytes ∅ = 0 := rfl
        rw [Std.ExtTreeMap.size_empty, Nat.zero_add] at hsize
        rw [hempty, List.length_drop] at hbytes
        rw [length_serializeEntryList]
        exact ⟨hsize, by omega⟩
  · rintro entries hsize hname k hpos hk rfl
    obtain ⟨message, herror⟩ := deserializeEntryList_take hsize hname hpos hk
    rw [herror]
    exact ⟨message, rfl⟩

/-- A count of one with half of an entry after it. -/
theorem entryList_decoder_safe_short : ∃ message,
    Cursor.deserializeEntryList ([1, 0, 0, 0] ++ List.replicate 20 0) =
      .error (.err (.corrupted message)) := by
  refine (entryList_decoder_safe (by decide)).2.2
    ((∅ : Map Digest224 EntryRecord).insert 0 ⟨0, 0, .dot⟩) (by decide +kernel) ?_ 24 (by decide)
    (by decide +kernel) (by decide +kernel)
  intro k e he
  rw [getElem?_insert_ite] at he
  split_ifs at he with hk
  · rw [← Option.some.inj he]
    decide
  · cases he

end SliceFs
