import SliceFs.Chunking

/-!
# The dedup index

The hashes of the stored blocks are kept twice: in a Bloom filter that answers "surely
not" fast, and in a set that has the last word. A removal leaves the filter alone, and only
the set is saved: the reader makes a new filter from the hashes it reads. The filter is a
parameter.
-/
namespace SliceFs
open LittleEndian ProgramLogic

/-- The Bloom filter. Rates are given by the 64 bits of a float. A filter for too many items
cannot be allocated. -/
structure BloomLib where
  Filter : Type
  expectedItems : UInt64 → ℕ → Option Filter
  insert : Filter → Bytes → Filter
  contains : Filter → Bytes → Bool

/-- The bits of a float above zero: the sign is plus, and it is neither zero nor a NaN. -/
def RatePositive (rate : UInt64) : Prop := 0 < rate ∧ rate ≤ 0x7FF0000000000000

instance (rate : UInt64) : Decidable (RatePositive rate) := inferInstanceAs (Decidable (_ ∧ _))

/-- A filter by its rate, which has to be positive, and the number of items. Without one the
library panics. -/
def BloomLib.withFalsePos (L : BloomLib) (rate : UInt64) (items : ℕ) :
    Except (Fault CasError) L.Filter :=
  if RatePositive rate then (L.expectedItems rate items).elim (.error .panic) .ok else .error .panic

/-- There are no false negatives. -/
structure BloomLib.Laws (L : BloomLib) : Prop where
  contains_insert : ∀ (f : L.Filter) (x : Bytes), L.contains (L.insert f x) x = true
  contains_mono : ∀ (f : L.Filter) (x y : Bytes), L.contains f y = true →
    L.contains (L.insert f x) y = true

inductive DedupResult where
  | definitelyAbsent | present | absent
deriving DecidableEq, Repr

structure MemDedupIndex (L : BloomLib) where
  bloom : L.Filter
  present : Finset ChunkHash
  expectedItems : UInt64
  falsePositiveRate : UInt64

/-- A hash set is one table, which cannot be larger than the largest allocation. -/
def tableMax : ℕ := isizeMax

/-- An order in which a set is iterated over. -/
structure Enumeration (s : Finset ChunkHash) where
  hashes : List ChunkHash
  nodup : hashes.Nodup
  toFinset : hashes.toFinset = s

def hashEntry (hash : ChunkHash) : Bytes := u32Bytes (UInt32.ofNat hash.length) ++ hash

/-- The first bytes of what is left to read, and the rest. -/
def readExact (n : ℕ) (b : Bytes) : Except (Fault CasError) (Bytes × Bytes) :=
  if b.length < n then .error (.err (.io .unexpectedEof)) else .ok (b.take n, b.drop n)

namespace MemDedupIndex
variable {L : BloomLib}

def new (expectedItems falsePositiveRate : UInt64) : Except (Fault CasError) (MemDedupIndex L) := do
  let bloom ← L.withFalsePos falsePositiveRate expectedItems.toNat
  pure ⟨bloom, ∅, expectedItems, falsePositiveRate⟩

def saveToWriter (idx : MemDedupIndex L) (iter : Enumeration idx.present) : Bytes :=
  u64Bytes (UInt64.ofNat idx.present.card) ++ iter.hashes.flatMap hashEntry

def saveToWriterWithHeader (idx : MemDedupIndex L) (iter : Enumeration idx.present) : Bytes :=
  u64Bytes idx.expectedItems ++ (u64Bytes idx.falsePositiveRate ++
    (u64Bytes (UInt64.ofNat idx.present.card) ++ iter.hashes.flatMap hashEntry))

/-- The loop of the reader: one hash after the other goes into the filter and the set. -/
def readHashes : ℕ → Bytes → L.Filter → Finset ChunkHash →
    Except (Fault CasError) (L.Filter × Finset ChunkHash)
  | 0, _, bloom, present => .ok (bloom, present)
  | n + 1, b, bloom, present => do
      let len ← readExact 4 b
      let hash ← readExact (u32OfBytes len.1).toNat len.2
      readHashes n hash.2 (L.insert bloom hash.1) (insert hash.1 present)

/-- The reader after the header: `HashSet::with_capacity` panics if there is no such
table. -/
def loadEntries (expectedItems falsePositiveRate : UInt64) (count : ℕ) (b : Bytes) :
    Except (Fault CasError) (MemDedupIndex L) := do
  let bloom ← L.withFalsePos falsePositiveRate (max (max expectedItems.toNat count) 1)
  if count ≤ tableMax then
    let read ← readHashes count b bloom ∅
    pure ⟨read.1, read.2, expectedItems, falsePositiveRate⟩
  else .error .panic

def loadFromReader (b : Bytes) : Except (Fault CasError) (MemDedupIndex L) := do
  let items ← readExact 8 b
  let rate ← readExact 8 items.2
  let size ← readExact 8 rate.2
  loadEntries (u64OfBytes items.1) (u64OfBytes rate.1) (u64OfBytes size.1).toNat size.2

def bloomCheck (idx : MemDedupIndex L) (hash : ChunkHash) : Bool := L.contains idx.bloom hash

def lookup (idx : MemDedupIndex L) (hash : ChunkHash) : DedupResult :=
  if idx.bloomCheck hash = false then .definitelyAbsent
  else if hash ∈ idx.present then .present
  else .absent

def insert (idx : MemDedupIndex L) (hash : ChunkHash) :
    Except (Fault CasError) (MemDedupIndex L) :=
  if hash ∈ idx.present ∨ idx.present.card < tableMax then
    .ok { idx with bloom := L.insert idx.bloom hash, present := Insert.insert hash idx.present }
  else .error .panic

def remove (idx : MemDedupIndex L) (hash : ChunkHash) : MemDedupIndex L :=
  { idx with present := idx.present.erase hash }

end MemDedupIndex

theorem readExact_append {n : ℕ} {a : Bytes} (h : a.length = n) (b : Bytes) :
    readExact n (a ++ b) = .ok (a, b) := by
  have hlen : ¬ (a ++ b).length < n := by
    rw [List.length_append]
    omega
  rw [readExact, if_neg hlen, List.take_left' h, List.drop_left' h]

theorem length_of_readExact {n : ℕ} {b : Bytes} {r : Bytes × Bytes} (h : readExact n b = .ok r) :
    r.1.length = n ∧ b.length = n + r.2.length := by
  unfold readExact at h
  split_ifs at h with hlt
  obtain rfl := Except.ok.inj h
  rw [List.length_take, List.length_drop]
  omega

@[simp] theorem length_hashEntry (hash : ChunkHash) :
    (hashEntry hash).length = 4 + hash.length := by
  rw [hashEntry, List.length_append, length_u32Bytes]

/-- The bytes that the entries of a set take. -/
def entriesSize (s : Finset ChunkHash) : ℕ := ∑ hash ∈ s, (hashEntry hash).length

theorem entriesSize_insert_le (hash : ChunkHash) (s : Finset ChunkHash) :
    entriesSize (insert hash s) ≤ entriesSize s + (4 + hash.length) := by
  unfold entriesSize
  by_cases hmem : hash ∈ s
  · rw [Finset.insert_eq_of_mem hmem]
    exact Nat.le_add_right _ _
  · rw [Finset.sum_insert hmem, length_hashEntry, Nat.add_comm]

theorem length_entries {s : Finset ChunkHash} (iter : Enumeration s) :
    (iter.hashes.flatMap hashEntry).length = entriesSize s := by
  obtain ⟨hashes, hnodup, rfl⟩ := iter
  rw [List.length_flatMap, entriesSize, List.sum_toFinset _ hnodup]

theorem Enumeration.mem_iff {s : Finset ChunkHash} (iter : Enumeration s) {hash : ChunkHash} :
    hash ∈ iter.hashes ↔ hash ∈ s := by
  obtain ⟨hashes, hnodup, rfl⟩ := iter
  exact List.mem_toFinset.symm

theorem Enumeration.length {s : Finset ChunkHash} (iter : Enumeration s) :
    iter.hashes.length = s.card := by
  obtain ⟨hashes, hnodup, rfl⟩ := iter
  exact (List.toFinset_card_of_nodup hnodup).symm

namespace MemDedupIndex
variable {L : BloomLib}

/-- What is read into the set was in the bytes. -/
theorem entriesSize_of_readHashes {n : ℕ} {b : Bytes} {bloom : L.Filter}
    {present : Finset ChunkHash} {r : L.Filter × Finset ChunkHash}
    (h : readHashes n b bloom present = .ok r) :
    entriesSize r.2 ≤ entriesSize present + b.length := by
  induction n generalizing b bloom present with
  | zero =>
      obtain rfl := Except.ok.inj h
      exact Nat.le_add_right _ _
  | succ n ih =>
      obtain ⟨len, hlen, h⟩ := Checked.bind_eq_ok h
      obtain ⟨hash, hhash, h⟩ := Checked.bind_eq_ok h
      have hrest := ih h
      have hinsert := entriesSize_insert_le hash.1 present
      have hbytes := length_of_readExact hlen
      have hbytes' := length_of_readExact hhash
      omega

/-- The entries of distinct hashes are read back in their order. -/
theorem readHashes_entries {hashes : List ChunkHash}
    (hlen : ∀ hash ∈ hashes, hash.length < 2 ^ 32) (bloom : L.Filter) (present : Finset ChunkHash) :
    readHashes hashes.length (hashes.flatMap hashEntry) bloom present =
      .ok (hashes.foldl L.insert bloom, present ∪ hashes.toFinset) := by
  induction hashes generalizing bloom present with
  | nil => simp [readHashes]
  | cons hash hashes ih =>
      have hsize : (u32OfBytes (u32Bytes (UInt32.ofNat hash.length))).toNat = hash.length := by
        rw [u32OfBytes_u32Bytes, UInt32.toNat_ofNat_of_lt' (hlen hash List.mem_cons_self)]
      rw [List.flatMap_cons, hashEntry, List.append_assoc, List.length_cons, readHashes,
        readExact_append (length_u32Bytes _), Checked.ok_bind]
      show (readExact (u32OfBytes (u32Bytes _)).toNat _ >>= _) = _
      rw [hsize, readExact_append rfl, Checked.ok_bind,
        ih fun x hx => hlen x (List.mem_cons_of_mem _ hx)]
      rw [List.foldl_cons, List.toFinset_cons, Finset.insert_union, Finset.union_insert]

/-- Bytes after a header of sixteen bytes are read as what they say. -/
theorem loadFromReader_header {items rate : Bytes} (hitems : items.length = 8)
    (hrate : rate.length = 8) (count : UInt64) (b : Bytes) :
    (loadFromReader (items ++ (rate ++ (u64Bytes count ++ b))) :
      Except (Fault CasError) (MemDedupIndex L)) =
        loadEntries (u64OfBytes items) (u64OfBytes rate) count.toNat b := by
  rw [loadFromReader, readExact_append hitems, Checked.ok_bind]
  show (readExact 8 (rate ++ _) >>= _) = _
  rw [readExact_append hrate, Checked.ok_bind]
  show (readExact 8 (u64Bytes count ++ _) >>= _) = _
  rw [readExact_append (length_u64Bytes _), Checked.ok_bind, u64OfBytes_u64Bytes]

/-- The set fits in a table, and the length of each hash in its field. -/
structure Fits (s : Finset ChunkHash) : Prop where
  card_le : s.card ≤ tableMax
  short : ∀ hash ∈ s, hash.length < 2 ^ 32

/-- What is saved is read back as soon as the library makes the filter. -/
theorem loadEntries_saved {s : Finset ChunkHash} (h : Fits s) (iter : Enumeration s)
    (items rate : UInt64) :
    (loadEntries items rate (UInt64.ofNat s.card).toNat (iter.hashes.flatMap hashEntry) :
      Except (Fault CasError) (MemDedupIndex L)) =
        (L.withFalsePos rate (max (max items.toNat s.card) 1)).map fun bloom =>
          ⟨iter.hashes.foldl L.insert bloom, s, items, rate⟩ := by
  have hcount : (UInt64.ofNat s.card).toNat = s.card :=
    UInt64.toNat_ofNat_of_lt' (Nat.lt_of_le_of_lt h.card_le (by decide))
  have hshort : ∀ hash ∈ iter.hashes, hash.length < 2 ^ 32 :=
    fun hash hmem => h.short hash (iter.mem_iff.mp hmem)
  rw [loadEntries, hcount]
  cases L.withFalsePos rate (max (max items.toNat s.card) 1) with
  | error f => rfl
  | ok bloom =>
      have hread := readHashes_entries hshort bloom ∅
      rw [iter.length, iter.toFinset, Finset.empty_union] at hread
      rw [Checked.ok_bind, if_pos h.card_le, hread]
      rfl

/-- Bytes that are read as an index with a given set are long enough for a header, the
count and the entries. -/
theorem le_length_of_loadFromReader {b : Bytes} {idx : MemDedupIndex L}
    (h : loadFromReader b = .ok idx) : 24 + entriesSize idx.present ≤ b.length := by
  obtain ⟨items, hitems, h⟩ := Checked.bind_eq_ok h
  obtain ⟨rate, hrate, h⟩ := Checked.bind_eq_ok h
  obtain ⟨size, hsize, h⟩ := Checked.bind_eq_ok h
  obtain ⟨bloom, -, h⟩ := Checked.bind_eq_ok h
  split_ifs at h
  obtain ⟨read, hread, h⟩ := Checked.bind_eq_ok h
  obtain rfl := Except.ok.inj h
  have hfit := entriesSize_of_readHashes hread
  have hempty : entriesSize ∅ = 0 := rfl
  have hitems' := length_of_readExact hitems
  have hrate' := length_of_readExact hrate
  have hsize' := length_of_readExact hsize
  show 24 + entriesSize read.2 ≤ b.length
  omega

/-- What `save_to_writer` writes is never read back as the same set. It is exactly behind the
sixteen bytes of a header that it leaves out, and only if there is a filter with the rate in
them. -/
theorem loadFromReader_saved_iff {idx : MemDedupIndex L} (h : Fits idx.present)
    (iter : Enumeration idx.present) :
    (∀ idx' : MemDedupIndex L, loadFromReader (idx.saveToWriter iter) = .ok idx' →
      idx'.present ≠ idx.present) ∧
    ∀ header : Bytes, header.length ≤ 16 →
      ((∃ idx' : MemDedupIndex L, loadFromReader (header ++ idx.saveToWriter iter) = .ok idx' ∧
          idx'.present = idx.present) ↔
        header.length = 16 ∧ ∃ bloom, L.withFalsePos (u64OfBytes (header.drop 8))
          (max (max (u64OfBytes (header.take 8)).toNat idx.present.card) 1) = .ok bloom) := by
  have hlength : ∀ (header : Bytes) (idx' : MemDedupIndex L),
      loadFromReader (header ++ idx.saveToWriter iter) = .ok idx' → idx'.present = idx.present →
        16 ≤ header.length := by
    intro header idx' hload hsame
    have hlen := le_length_of_loadFromReader hload
    rw [hsame, List.length_append, saveToWriter, List.length_append, length_u64Bytes,
      length_entries] at hlen
    omega
  refine ⟨fun idx' hload hsame => ?_, fun header hheader => ?_⟩
  · have hlen := hlength [] idx' hload hsame
    simp at hlen
  have hload : header.length = 16 →
      (loadFromReader (header ++ idx.saveToWriter iter) :
        Except (Fault CasError) (MemDedupIndex L)) = (L.withFalsePos (u64OfBytes (header.drop 8))
          (max (max (u64OfBytes (header.take 8)).toNat idx.present.card) 1)).map fun bloom =>
            ⟨iter.hashes.foldl L.insert bloom, idx.present, u64OfBytes (header.take 8),
              u64OfBytes (header.drop 8)⟩ := by
    intro hlen
    have hsplit : header ++ idx.saveToWriter iter =
        header.take 8 ++ (header.drop 8 ++ idx.saveToWriter iter) := by
      rw [← List.append_assoc, List.take_append_drop]
    have htake : (header.take 8).length = 8 := by rw [List.length_take]; omega
    have hdrop : (header.drop 8).length = 8 := by rw [List.length_drop]; omega
    rw [hsplit, saveToWriter, loadFromReader_header htake hdrop, loadEntries_saved h]
  constructor
  · rintro ⟨idx', hidx', hsame⟩
    have hlen : header.length = 16 := le_antisymm hheader (hlength header idx' hidx' hsame)
    rw [hload hlen] at hidx'
    refine ⟨hlen, ?_⟩
    cases hbloom : L.withFalsePos (u64OfBytes (header.drop 8))
        (max (max (u64OfBytes (header.take 8)).toNat idx.present.card) 1) with
    | error f =>
        rw [hbloom] at hidx'
        cases hidx'
    | ok bloom => exact ⟨bloom, rfl⟩
  · rintro ⟨hlen, bloom, hbloom⟩
    rw [hload hlen, hbloom]
    exact ⟨_, rfl, rfl⟩

/-- The filter answers "maybe" for every hash of the set. -/
structure Sound (idx : MemDedupIndex L) : Prop where
  covers : ∀ hash ∈ idx.present, L.contains idx.bloom hash = true
  fits : Fits idx.present

theorem contains_foldl_insert (hL : L.Laws) (hashes : List ChunkHash) (bloom : L.Filter) {x : Bytes}
    (h : x ∈ hashes ∨ L.contains bloom x = true) :
    L.contains (hashes.foldl L.insert bloom) x = true := by
  induction hashes generalizing bloom with
  | nil => exact h.resolve_left List.not_mem_nil
  | cons hash hashes ih =>
      apply ih (L.insert bloom hash)
      rcases h with hmem | hold
      · rcases List.mem_cons.mp hmem with rfl | htail
        · exact .inr (hL.contains_insert bloom x)
        · exact .inl htail
      · exact .inr (hL.contains_mono bloom hash x hold)

/-- The index with a filter of its own, made from the hashes in the order they were saved. -/
def refiltered (idx : MemDedupIndex L) (iter : Enumeration idx.present) (bloom : L.Filter) :
    MemDedupIndex L :=
  { idx with bloom := iter.hashes.foldl L.insert bloom }

/-- Saving with a header and loading gives the same set, if the library makes the filter. -/
theorem loadFromReader_saveToWriterWithHeader {idx : MemDedupIndex L} (h : Fits idx.present)
    (iter : Enumeration idx.present) : loadFromReader (idx.saveToWriterWithHeader iter) =
      (L.withFalsePos idx.falsePositiveRate
        (max (max idx.expectedItems.toNat idx.present.card) 1)).map
        (idx.refiltered iter) := by
  rw [saveToWriterWithHeader, loadFromReader_header (length_u64Bytes _) (length_u64Bytes _),
    loadEntries_saved h, u64OfBytes_u64Bytes, u64OfBytes_u64Bytes]
  rfl

theorem Sound.refiltered (hL : L.Laws) {idx : MemDedupIndex L} (h : idx.Sound)
    (iter : Enumeration idx.present) (bloom : L.Filter) : (idx.refiltered iter bloom).Sound where
  covers _ hmem := contains_foldl_insert hL _ _ (.inl (iter.mem_iff.mpr hmem))
  fits := h.fits

/-- A sound index answers as its set. -/
theorem Sound.lookup_eq_present_iff {idx : MemDedupIndex L} (h : idx.Sound) (hash : ChunkHash) :
    idx.lookup hash = .present ↔ hash ∈ idx.present := by
  unfold lookup bloomCheck
  constructor
  · intro hpresent
    split_ifs at hpresent with hbloom hmem
    exact hmem
  · intro hmem
    rw [h.covers hash hmem, if_neg (by decide), if_pos hmem]

end MemDedupIndex

inductive DedupOp where
  | insert (hash : ChunkHash)
  | remove (hash : ChunkHash)
  /-- The index is saved with a header, in some order, and loaded again. -/
  | reload (order : ∀ s : Finset ChunkHash, Enumeration s)

namespace DedupOp
variable {L : BloomLib}

def run : DedupOp → MemDedupIndex L → Except (Fault CasError) (MemDedupIndex L)
  | insert hash, idx => idx.insert hash
  | remove hash, idx => .ok (idx.remove hash)
  | reload order, idx =>
      MemDedupIndex.loadFromReader (idx.saveToWriterWithHeader (order idx.present))

/-- Whether a hash is in the set after a call, from whether it was before. -/
def member (hash : ChunkHash) (before : Bool) : DedupOp → Bool
  | insert h => if h = hash then true else before
  | remove h => if h = hash then false else before
  | reload _ => before

def Short : DedupOp → Prop
  | insert hash => hash.length < 2 ^ 32
  | _ => True

end DedupOp

def runDedup {L : BloomLib} :
    List DedupOp → MemDedupIndex L → Except (Fault CasError) (MemDedupIndex L)
  | [], idx => .ok idx
  | op :: ops, idx => op.run idx >>= runDedup ops

/-- Whether the last insertion or removal of a hash was an insertion. -/
def lastInserted (ops : List DedupOp) (hash : ChunkHash) : Bool :=
  ops.foldl (fun b op => op.member hash b) false

section
variable {L : BloomLib} {idx idx' : MemDedupIndex L} {op : DedupOp} {ops : List DedupOp}

theorem MemDedupIndex.Sound.insert (hL : L.Laws) (h : idx.Sound) {hash : ChunkHash}
    (hshort : hash.length < 2 ^ 32)
    (hroom : hash ∈ idx.present ∨ idx.present.card < tableMax) :
    ({ idx with bloom := L.insert idx.bloom hash, present := Insert.insert hash idx.present } :
      MemDedupIndex L).Sound := by
  refine ⟨fun x hx => ?_, ?_, fun x hx => ?_⟩
  · rcases Finset.mem_insert.mp hx with rfl | hold
    · exact hL.contains_insert _ _
    · exact hL.contains_mono _ _ _ (h.covers x hold)
  · rcases hroom with hmem | hlt
    · rw [Finset.insert_eq_of_mem hmem]
      exact h.fits.card_le
    · exact Nat.le_trans (Finset.card_insert_le _ _) hlt
  · rcases Finset.mem_insert.mp hx with rfl | hold
    · exact hshort
    · exact h.fits.short x hold

theorem MemDedupIndex.Sound.remove (h : idx.Sound) (hash : ChunkHash) :
    (idx.remove hash).Sound where
  covers x hx := h.covers x (Finset.mem_of_mem_erase hx)
  fits := ⟨Nat.le_trans Finset.card_erase_le h.fits.card_le,
    fun x hx => h.fits.short x (Finset.mem_of_mem_erase hx)⟩

/-- Every call keeps the index sound and does to the set what it says. -/
theorem DedupOp.run_spec (hL : L.Laws) (h : idx.Sound) (hshort : op.Short)
    (hrun : op.run idx = .ok idx') :
    idx'.Sound ∧ (∀ hash, decide (hash ∈ idx'.present) = op.member hash (hash ∈ idx.present)) ∧
      idx'.present.card ≤ idx.present.card + 1 ∧ idx'.expectedItems = idx.expectedItems ∧
      idx'.falsePositiveRate = idx.falsePositiveRate := by
  cases op with
  | insert x =>
      replace hrun : idx.insert x = .ok idx' := hrun
      unfold MemDedupIndex.insert at hrun
      split_ifs at hrun with hroom
      obtain rfl := Except.ok.inj hrun
      refine ⟨h.insert hL hshort hroom, fun hash => ?_, Finset.card_insert_le _ _, rfl, rfl⟩
      by_cases hx : x = hash
      · simp [DedupOp.member, hx]
      · simp [DedupOp.member, hx, Ne.symm hx]
  | remove x =>
      obtain rfl := Except.ok.inj hrun
      refine ⟨h.remove x, fun hash => ?_, Nat.le_succ_of_le Finset.card_erase_le, rfl, rfl⟩
      by_cases hx : x = hash
      · simp [DedupOp.member, MemDedupIndex.remove, hx]
      · simp [DedupOp.member, MemDedupIndex.remove, hx, Ne.symm hx]
  | reload order =>
      rw [DedupOp.run, MemDedupIndex.loadFromReader_saveToWriterWithHeader h.fits] at hrun
      cases hbloom : L.withFalsePos idx.falsePositiveRate
          (max (max idx.expectedItems.toNat idx.present.card) 1) with
      | error f =>
          rw [hbloom] at hrun
          cases hrun
      | ok bloom =>
          rw [hbloom] at hrun
          obtain rfl := Except.ok.inj hrun
          exact ⟨h.refiltered hL _ bloom, fun _ => rfl, Nat.le_succ _, rfl, rfl⟩

theorem DedupOp.run_ok (h : idx.Sound) (op : DedupOp) (hroom : idx.present.card < tableMax)
    (hfilter : ∃ bloom, L.withFalsePos idx.falsePositiveRate
      (max (max idx.expectedItems.toNat idx.present.card) 1) = .ok bloom) :
    ∃ idx', op.run idx = .ok idx' := by
  cases op with
  | insert x => exact ⟨_, if_pos (.inr hroom)⟩
  | remove x => exact ⟨_, rfl⟩
  | reload order =>
      obtain ⟨bloom, hbloom⟩ := hfilter
      rw [DedupOp.run, MemDedupIndex.loadFromReader_saveToWriterWithHeader h.fits, hbloom]
      exact ⟨_, rfl⟩

theorem runDedup_spec (hL : L.Laws) (h : idx.Sound) (hshort : ∀ op ∈ ops, op.Short)
    (hrun : runDedup ops idx = .ok idx') :
    idx'.Sound ∧ ∀ hash, decide (hash ∈ idx'.present) =
      ops.foldl (fun b op => op.member hash b) (decide (hash ∈ idx.present)) := by
  induction ops generalizing idx with
  | nil =>
      obtain rfl := Except.ok.inj hrun
      exact ⟨h, fun _ => rfl⟩
  | cons op ops ih =>
      obtain ⟨next, hop, hrest⟩ := Checked.bind_eq_ok hrun
      obtain ⟨hsound, hmember, -⟩ := op.run_spec hL h (hshort op List.mem_cons_self) hop
      obtain ⟨hsound', hmember'⟩ :=
        ih hsound (fun x hx => hshort x (List.mem_cons_of_mem _ hx)) hrest
      refine ⟨hsound', fun hash => ?_⟩
      rw [hmember' hash, hmember hash]
      rfl

theorem runDedup_ok (hL : L.Laws) (h : idx.Sound) (hshort : ∀ op ∈ ops, op.Short)
    (hroom : idx.present.card + ops.length ≤ tableMax)
    (hfilter : ∀ n ≤ max (max idx.expectedItems.toNat (idx.present.card + ops.length)) 1,
      ∃ bloom, L.withFalsePos idx.falsePositiveRate n = .ok bloom) :
    ∃ idx', runDedup ops idx = .ok idx' := by
  induction ops generalizing idx with
  | nil => exact ⟨idx, rfl⟩
  | cons op ops ih =>
      rw [List.length_cons] at hroom hfilter
      obtain ⟨next, hop⟩ := op.run_ok h (by omega) (hfilter _ (by omega))
      obtain ⟨hsound, -, hcard, hitems, hrate⟩ :=
        op.run_spec hL h (hshort op List.mem_cons_self) hop
      rw [runDedup, hop, Checked.ok_bind]
      refine ih hsound (fun x hx => hshort x (List.mem_cons_of_mem _ hx)) (by omega) fun n hn => ?_
      rw [hitems] at hn
      rw [hrate]
      exact hfilter n (by omega)

theorem MemDedupIndex.new_eq_ok {items rate : UInt64} (h : new items rate = .ok idx) :
    idx.Sound ∧ idx.present = ∅ ∧ idx.expectedItems = items ∧ idx.falsePositiveRate = rate := by
  obtain ⟨bloom, -, h⟩ := Checked.bind_eq_ok h
  obtain rfl := Except.ok.inj h
  exact ⟨⟨fun x hx => absurd hx (Finset.notMem_empty x),
    ⟨Nat.zero_le _, fun x hx => absurd hx (Finset.notMem_empty x)⟩⟩, rfl, rfl, rfl⟩

/-- After every sequence of insertions, removals, saves and loads on a new index it answers as
the set of the hashes whose last call was an insertion. As long as the table has room and the
library makes a filter for so many items nothing fails. -/
theorem dedup_index_is_set (hL : L.Laws) {items rate : UInt64}
    (hnew : MemDedupIndex.new items rate = .ok idx) (hshort : ∀ op ∈ ops, op.Short) :
    (∀ idx', runDedup ops idx = .ok idx' → ∀ hash,
      (idx'.lookup hash = .present ↔ lastInserted ops hash = true) ∧
      (lastInserted ops hash = true → idx'.lookup hash ≠ .definitelyAbsent)) ∧
    (ops.length ≤ tableMax →
      (∀ n ≤ max (max items.toNat ops.length) 1, ∃ bloom, L.withFalsePos rate n = .ok bloom) →
        ∃ idx', runDedup ops idx = .ok idx') := by
  obtain ⟨hsound, hempty, rfl, rfl⟩ := MemDedupIndex.new_eq_ok hnew
  constructor
  · intro idx' hrun hash
    obtain ⟨hsound', hmember⟩ := runDedup_spec hL hsound hshort hrun
    have hiff : idx'.lookup hash = .present ↔ lastInserted ops hash = true := by
      rw [hsound'.lookup_eq_present_iff, ← decide_eq_true_iff (p := hash ∈ idx'.present),
        hmember hash, hempty]
      rfl
    refine ⟨hiff, fun hlast habsent => ?_⟩
    rw [hiff.mpr hlast] at habsent
    cases habsent
  · intro hroom hfilter
    apply runDedup_ok hL hsound hshort
    · simpa [hempty] using hroom
    · simpa [hempty] using hfilter

end

/-- A filter that remembers everything. -/
def listBloom : BloomLib where
  Filter := List Bytes
  expectedItems _ _ := some []
  insert f x := x :: f
  contains f x := decide (x ∈ f)

theorem listBloom_laws : listBloom.Laws where
  contains_insert (f : List Bytes) x := by
    have hmem : decide (x ∈ x :: f) = true := decide_eq_true List.mem_cons_self
    exact hmem
  contains_mono (f : List Bytes) x y h := by
    have hold : y ∈ f := of_decide_eq_true h
    have hmem : decide (y ∈ x :: f) = true := decide_eq_true (List.mem_cons_of_mem x hold)
    exact hmem

/-- Some order for every set. -/
noncomputable def anyOrder (s : Finset ChunkHash) : Enumeration s :=
  ⟨s.toList, s.nodup_toList, s.toList_toFinset⟩

/-- The bits of `0.01`. -/
def onePercent : UInt64 := 0x3F847AE147AE147B

theorem dedup_index_is_set_reloaded : ∃ idx idx' : MemDedupIndex listBloom,
    MemDedupIndex.new 10 onePercent = .ok idx ∧
      runDedup [.insert [1, 2], .insert [3], .reload anyOrder, .remove [3]] idx = .ok idx' ∧
      idx'.lookup [1, 2] = .present ∧ idx'.lookup [3] ≠ .present := by
  have hshort : ∀ op ∈ [DedupOp.insert [1, 2], .insert [3], .reload anyOrder, .remove [3]],
      op.Short := by
    simp [DedupOp.Short]
  have hnew : MemDedupIndex.new 10 onePercent =
      .ok (⟨[], ∅, 10, onePercent⟩ : MemDedupIndex listBloom) :=
    rfl
  obtain ⟨hspec, hok⟩ := dedup_index_is_set listBloom_laws hnew hshort
  obtain ⟨idx', hrun⟩ := hok (by decide) fun n _ => ⟨[], rfl⟩
  refine ⟨_, idx', hnew, hrun, ?_, ?_⟩
  · rw [(hspec idx' hrun [1, 2]).1]
    decide
  · rw [ne_eq, (hspec idx' hrun [3]).1]
    decide

/-- A hash of zeros only. -/
def zeroHash : ChunkHash := List.replicate 32 0

def zeroIndex : MemDedupIndex listBloom := ⟨[zeroHash], {zeroHash}, 10000, onePercent⟩

def zeroOrder : Enumeration zeroIndex.present := ⟨[zeroHash], by decide, by decide⟩

/-- The header of the same index stands before what was saved. -/
theorem loadFromReader_saved_zeros :
    ∃ idx' : MemDedupIndex listBloom,
      MemDedupIndex.loadFromReader (u64Bytes 10000 ++ u64Bytes onePercent ++
        zeroIndex.saveToWriter zeroOrder) = .ok idx' ∧ idx'.present = {zeroHash} :=
  ((MemDedupIndex.loadFromReader_saved_iff ⟨by decide, by decide⟩ zeroOrder).2 _ (by decide)).mpr
    ⟨by decide, [], if_pos (by decide)⟩

/-- The reader takes the length of the hash for a rate and finds the count zero. -/
theorem loadFromReader_loses :
    zeroIndex.present = {zeroHash} ∧
      (MemDedupIndex.loadFromReader (L := listBloom) (zeroIndex.saveToWriter zeroOrder)).map
        MemDedupIndex.present = .ok ∅ :=
  ⟨rfl, by decide +kernel⟩

end SliceFs
