import SliceFs.Codec
import SliceFs.Numerals

/-!
# Segment files

A segment is an append-only log: a 16-byte header and then frames, each a type
byte, a payload length in 32 bits and the payload. Only root updates and snapshot
records are written. The reader skips frames of unknown types and stops at an end
marker, at a frame it cannot parse, and at a truncated frame, so a log cut anywhere
reads as the entries whose frames are complete.

Replaying a directory of segments goes through the files in the order of their
names and remembers the last root and every snapshot.
-/
namespace SliceFs
open LittleEndian TreeMaps

structure SnapshotEntry where
  version : UInt64
  name : Option Str
  root : Digest224
  createdAt : UInt64
deriving DecidableEq

inductive SegmentEntry where
  | rootUpdate (root : Digest224)
  | snapshotRecord (snap : SnapshotEntry)
deriving DecidableEq

namespace SegmentEntry

def recordType : SegmentEntry → UInt8
  | .rootUpdate _ => 0x02
  | .snapshotRecord _ => 0x03

def nameBytes (name : Option Str) : Bytes := (name.getD Str.empty).bytes

def payloadBytes : SegmentEntry → Bytes
  | .rootUpdate root => digestBytes root
  | .snapshotRecord snap =>
    u64Bytes snap.version ++ (digestBytes snap.root ++ (u64Bytes snap.createdAt ++
      (u32Bytes (UInt32.ofNat (nameBytes snap.name).length) ++ nameBytes snap.name)))

def parseRootUpdate (payload : Bytes) : Option SegmentEntry :=
  if payload.length < 28 then none else some (.rootUpdate (parseDigest224 payload))

def parseSnapshotRecord (payload : Bytes) : Option SegmentEntry :=
  if payload.length < 48 then none
  else
    let version := u64OfBytes (payload.take 8)
    let root := parseDigest224 ((payload.drop 8).take 28)
    let createdAt := u64OfBytes ((payload.drop 36).take 8)
    let nameLen := (u32OfBytes ((payload.drop 44).take 4)).toNat
    if payload.length < 48 + nameLen then none
    else if nameLen = 0 then some (.snapshotRecord ⟨version, none, root, createdAt⟩)
    else (Str.fromUtf8 ((payload.drop 48).take nameLen)).map fun name =>
      .snapshotRecord ⟨version, some name, root, createdAt⟩

/-- The frame `write_entry` appends. -/
def frameBytes (e : SegmentEntry) : Bytes :=
  e.recordType :: (u32Bytes (UInt32.ofNat e.payloadBytes.length) ++ e.payloadBytes)

/-- The payload length fits its field. -/
def Fits (e : SegmentEntry) : Prop := e.payloadBytes.length < 2 ^ 32

instance (e : SegmentEntry) : Decidable e.Fits := inferInstanceAs (Decidable (_ < _))

/-- What a written entry reads back as: an empty name is no name. -/
def readBack : SegmentEntry → SegmentEntry
  | .rootUpdate root => .rootUpdate root
  | .snapshotRecord snap =>
    .snapshotRecord { snap with name := snap.name.filter fun n => n.bytes ≠ [] }

end SegmentEntry

/-- What the reader's loop does with the bytes it has not read yet. -/
inductive ReadStep where
  | stop
  | skip (rest : Bytes)
  | yield (entry : SegmentEntry) (rest : Bytes)

def readStep : Bytes → ReadStep
  | [] => .stop
  | ty :: b =>
    if b.length < 4 then .stop
    else
      let len := (u32OfBytes (b.take 4)).toNat
      let b := b.drop 4
      if ty = 0xFF then .stop
      else if b.length < len then .stop
      else if ty = 0x02 then
        match SegmentEntry.parseRootUpdate (b.take len) with
        | some e => .yield e (b.drop len)
        | none => .stop
      else if ty = 0x03 then
        match SegmentEntry.parseSnapshotRecord (b.take len) with
        | some e => .yield e (b.drop len)
        | none => .stop
      else .skip (b.drop len)

def readEntries : ℕ → Bytes → List SegmentEntry
  | 0, _ => []
  | n + 1, b =>
    match readStep b with
    | .stop => []
    | .skip rest => readEntries n rest
    | .yield e rest => e :: readEntries n rest

/-- All entries the reader yields; every turn of its loop takes a type byte. -/
def readAll (b : Bytes) : List SegmentEntry := readEntries b.length b

theorem readStep_rest_lt {b rest : Bytes} :
    (readStep b = .skip rest → rest.length < b.length) ∧
      ∀ e, readStep b = .yield e rest → rest.length < b.length := by
  cases b with
  | nil => simp [readStep]
  | cons ty b =>
      have hdrop : ∀ n, ((b.drop 4).drop n).length < (ty :: b).length := by
        intro n
        simp only [List.length_drop, List.length_cons]
        omega
      simp only [readStep]
      split_ifs
      · simp
      · simp
      · simp
      · split
        · simp only [reduceCtorEq, ReadStep.yield.injEq, false_implies, true_and]
          rintro e ⟨-, rfl⟩
          exact hdrop _
        · simp
      · split
        · simp only [reduceCtorEq, ReadStep.yield.injEq, false_implies, true_and]
          rintro e ⟨-, rfl⟩
          exact hdrop _
        · simp
      · simp only [ReadStep.skip.injEq, false_implies, implies_true, and_true]
        rintro rfl
        exact hdrop _

/-- Beyond the number of bytes left, more turns of the loop change nothing. -/
theorem readEntries_eq_readAll {b : Bytes} {fuel : ℕ} (h : b.length ≤ fuel) :
    readEntries fuel b = readAll b := by
  induction fuel using Nat.strong_induction_on generalizing b with
  | _ fuel ih =>
      rcases Nat.eq_zero_or_pos b.length with hb | hb
      · rw [List.length_eq_zero_iff] at hb
        subst hb
        cases fuel <;> simp [readAll, readEntries, readStep]
      · obtain ⟨k, hk⟩ := Nat.exists_eq_succ_of_ne_zero hb.ne'
        obtain ⟨f, rfl⟩ : ∃ f, fuel = f + 1 := ⟨fuel - 1, by omega⟩
        rw [readAll, hk, readEntries, readEntries]
        cases hstep : readStep b with
        | stop => rfl
        | skip rest =>
            have hlt := readStep_rest_lt.1 hstep
            simp only
            rw [ih f (by omega) (by omega), ih k (by omega) (by omega)]
        | yield e rest =>
            have hlt := readStep_rest_lt.2 e hstep
            simp only
            rw [ih f (by omega) (by omega), ih k (by omega) (by omega)]

theorem readAll_of_stop {b : Bytes} (h : readStep b = .stop) : readAll b = [] := by
  unfold readAll
  cases b with
  | nil => rfl
  | cons ty b => simp [readEntries, h]

theorem readAll_of_skip {b rest : Bytes} (h : readStep b = .skip rest) :
    readAll b = readAll rest := by
  have hlt := readStep_rest_lt.1 h
  obtain ⟨k, hk⟩ : ∃ k, b.length = k + 1 := ⟨b.length - 1, by omega⟩
  rw [readAll, hk, readEntries, h]
  exact readEntries_eq_readAll (by omega)

theorem readAll_of_yield {b rest : Bytes} {e : SegmentEntry} (h : readStep b = .yield e rest) :
    readAll b = e :: readAll rest := by
  have hlt := readStep_rest_lt.2 e h
  obtain ⟨k, hk⟩ : ∃ k, b.length = k + 1 := ⟨b.length - 1, by omega⟩
  rw [readAll, hk, readEntries, h]
  simp only
  rw [readEntries_eq_readAll (by omega)]

namespace SegmentEntry

theorem parseSnapshotRecord_payloadBytes {snap : SnapshotEntry}
    (h : (snapshotRecord snap).Fits) :
    parseSnapshotRecord (payloadBytes (.snapshotRecord snap)) =
      some (readBack (.snapshotRecord snap)) := by
  have hlen : (payloadBytes (.snapshotRecord snap)).length = 48 + (nameBytes snap.name).length := by
    simp only [payloadBytes, List.length_append, length_u64Bytes, length_digestBytes,
      length_u32Bytes]
    omega
  have hname : (nameBytes snap.name).length < 2 ^ 32 := by
    rw [Fits, hlen] at h
    omega
  have hver : (payloadBytes (.snapshotRecord snap)).take 8 = u64Bytes snap.version :=
    List.take_left' (length_u64Bytes _)
  have hd8 : (payloadBytes (.snapshotRecord snap)).drop 8 =
      digestBytes snap.root ++ (u64Bytes snap.createdAt ++
        (u32Bytes (UInt32.ofNat (nameBytes snap.name).length) ++ nameBytes snap.name)) :=
    List.drop_left' (length_u64Bytes _)
  have hd36 : (payloadBytes (.snapshotRecord snap)).drop 36 = u64Bytes snap.createdAt ++
      (u32Bytes (UInt32.ofNat (nameBytes snap.name).length) ++ nameBytes snap.name) := by
    rw [show 36 = 8 + 28 from rfl, ← List.drop_drop, hd8, List.drop_left' (length_digestBytes _)]
  have hd44 : (payloadBytes (.snapshotRecord snap)).drop 44 =
      u32Bytes (UInt32.ofNat (nameBytes snap.name).length) ++ nameBytes snap.name := by
    rw [show 44 = 36 + 8 from rfl, ← List.drop_drop, hd36, List.drop_left' (length_u64Bytes _)]
  have hd48 : (payloadBytes (.snapshotRecord snap)).drop 48 = nameBytes snap.name := by
    rw [show 48 = 44 + 4 from rfl, ← List.drop_drop, hd44, List.drop_left' (length_u32Bytes _)]
  have hcount : (u32OfBytes (((payloadBytes (.snapshotRecord snap)).drop 44).take 4)).toNat =
      (nameBytes snap.name).length := by
    rw [hd44, List.take_left' (length_u32Bytes _), u32OfBytes_u32Bytes,
      UInt32.toNat_ofNat_of_lt' hname]
  simp only [parseSnapshotRecord, hcount, hver, hd8, hd36, hd48, hlen,
    List.take_left' (length_digestBytes _), List.take_left' (length_u64Bytes _),
    u64OfBytes_u64Bytes, parseDigest224_digestBytes, List.take_length]
  rw [if_neg (by omega), if_neg (by omega)]
  cases hs : snap.name with
  | none => simp [nameBytes, Str.empty, readBack, hs]
  | some name =>
      by_cases hb : name.bytes = []
      · simp [nameBytes, hb, readBack, hs, Option.filter_some]
      · rw [if_neg (by simpa [nameBytes] using hb)]
        simp [nameBytes, Str.fromUtf8_bytes, readBack, hs, hb, Option.filter_some]

/-- A complete frame is read as its entry, whatever follows it. -/
theorem readStep_frameBytes_append {e : SegmentEntry} (h : e.Fits) (rest : Bytes) :
    readStep (e.frameBytes ++ rest) = .yield e.readBack rest := by
  have hcount : (u32OfBytes (u32Bytes (UInt32.ofNat e.payloadBytes.length))).toNat =
      e.payloadBytes.length := by
    rw [u32OfBytes_u32Bytes, UInt32.toNat_ofNat_of_lt' h]
  simp only [frameBytes, List.cons_append, List.append_assoc, readStep,
    List.take_left' (length_u32Bytes _), List.drop_left' (length_u32Bytes _), hcount,
    List.take_left, List.drop_left]
  rw [if_neg (by simp)]
  cases e with
  | rootUpdate root =>
      simp [recordType, payloadBytes, parseRootUpdate, readBack]
  | snapshotRecord snap =>
      simp [recordType, parseSnapshotRecord_payloadBytes h]

/-- A frame cut anywhere before its end stops the reader, whatever its type. -/
theorem readStep_take_frame {payload : Bytes} (h : payload.length < 2 ^ 32) (ty : UInt8) {k : ℕ}
    (hk : k < 5 + payload.length) :
    readStep ((ty :: (u32Bytes (UInt32.ofNat payload.length) ++ payload)).take k) = .stop := by
  cases k with
  | zero => rfl
  | succ k =>
      simp only [List.take_succ_cons, readStep]
      by_cases h4 : k < 4
      · rw [if_pos]
        simp only [List.length_take]
        omega
      · have hhead : ((u32Bytes (UInt32.ofNat payload.length) ++ payload).take k).take 4 =
            u32Bytes (UInt32.ofNat payload.length) := by
          rw [List.take_take, min_eq_left (by omega), List.take_left' (length_u32Bytes _)]
        have hcount : (u32OfBytes (u32Bytes (UInt32.ofNat payload.length))).toNat =
            payload.length := by
          rw [u32OfBytes_u32Bytes, UInt32.toNat_ofNat_of_lt' h]
        have hshort : (((u32Bytes (UInt32.ofNat payload.length) ++ payload).take k).drop 4).length <
            payload.length := by
          simp only [List.length_drop, List.length_take, List.length_append, length_u32Bytes]
          omega
        rw [hhead, hcount]
        split_ifs
        · rfl
        · rfl
        · rfl

theorem readStep_take_frameBytes {e : SegmentEntry} (h : e.Fits) {k : ℕ}
    (hk : k < e.frameBytes.length) : readStep (e.frameBytes.take k) = .stop := by
  refine readStep_take_frame h e.recordType ?_
  simp only [frameBytes, List.length_cons, List.length_append, length_u32Bytes] at hk
  omega

/-- The frames of a log, one after the other. -/
def framesBytes (es : List SegmentEntry) : Bytes := es.flatMap frameBytes

/-- The entries whose frames lie within the first `k` bytes of the log. -/
def complete : ℕ → List SegmentEntry → List SegmentEntry
  | _, [] => []
  | k, e :: es =>
    if e.frameBytes.length ≤ k then e :: complete (k - e.frameBytes.length) es else []

theorem readAll_framesBytes_append {es : List SegmentEntry} (h : ∀ e ∈ es, e.Fits)
    (rest : Bytes) : readAll (framesBytes es ++ rest) = es.map readBack ++ readAll rest := by
  induction es with
  | nil => rfl
  | cons e es ih =>
      have he := readStep_frameBytes_append (h e List.mem_cons_self) (framesBytes es ++ rest)
      have hes := ih fun e' he' => h e' (List.mem_cons_of_mem _ he')
      rw [framesBytes, List.flatMap_cons, List.append_assoc, List.map_cons, List.cons_append, ← hes]
      exact readAll_of_yield he

/-- A log cut after any number of bytes reads as the entries of its complete frames. -/
theorem readAll_take_framesBytes {es : List SegmentEntry} (h : ∀ e ∈ es, e.Fits) (k : ℕ) :
    readAll ((framesBytes es).take k) = (complete k es).map readBack := by
  induction es generalizing k with
  | nil => simp [framesBytes, complete, readAll, readEntries]
  | cons e es ih =>
      have he := h e List.mem_cons_self
      have hes : ∀ e' ∈ es, e'.Fits := fun e' he' => h e' (List.mem_cons_of_mem _ he')
      rw [framesBytes, List.flatMap_cons, List.take_append, complete]
      split_ifs with hk
      · rw [List.take_of_length_le hk, readAll_of_yield (readStep_frameBytes_append he _),
          List.map_cons]
        exact congrArg _ (ih hes _)
      · rw [Nat.sub_eq_zero_of_le (by omega), List.take_zero, List.append_nil,
          readAll_of_stop (readStep_take_frameBytes he (by omega))]
        rfl

/-- Cutting at or after the end loses nothing. -/
theorem complete_of_length_le {es : List SegmentEntry} {k : ℕ} (h : (framesBytes es).length ≤ k) :
    complete k es = es := by
  induction es generalizing k with
  | nil => rfl
  | cons e es ih =>
      simp only [framesBytes, List.flatMap_cons, List.length_append] at h
      rw [complete, if_pos (by omega), ih]
      rw [framesBytes]
      omega

theorem complete_zero (es : List SegmentEntry) : complete 0 es = [] := by
  cases es with
  | nil => rfl
  | cons e es => simp [complete, frameBytes]

theorem complete_mono {k k' : ℕ} (h : k ≤ k') (es : List SegmentEntry) :
    complete k es <+: complete k' es := by
  induction es generalizing k k' with
  | nil => exact List.prefix_refl _
  | cons e es ih =>
      rw [complete, complete]
      split_ifs with h₁ h₂ h₂
      · exact (List.prefix_cons_inj e).mpr (ih (by omega))
      · omega
      · exact List.nil_prefix
      · exact List.nil_prefix

theorem complete_isPrefixOf (k : ℕ) (es : List SegmentEntry) : complete k es <+: es := by
  have hall := complete_mono (le_max_left k (framesBytes es).length) es
  rwa [complete_of_length_le (le_max_right _ _)] at hall

theorem mem_of_mem_complete {k : ℕ} {es : List SegmentEntry} {e : SegmentEntry}
    (h : e ∈ complete k es) : e ∈ es := (complete_isPrefixOf k es).subset h

/-- An entry whose frame is not complete does not count. -/
theorem complete_append {k : ℕ} {es : List SegmentEntry} {e : SegmentEntry}
    (h : k < (framesBytes (es ++ [e])).length) : complete k (es ++ [e]) = complete k es := by
  induction es generalizing k with
  | nil =>
      have hlt : ¬ e.frameBytes.length ≤ k := by simpa [framesBytes] using h
      simp [complete, hlt]
  | cons e' es ih =>
      rw [List.cons_append, complete, complete]
      split_ifs with hk
      · rw [ih]
        simp only [framesBytes, List.cons_append, List.flatMap_cons, List.length_append] at h ⊢
        omega
      · rfl

end SegmentEntry

def segmentMagic : Bytes := [0x53, 0x4C, 0x53, 0x47]

def headerBytes (segmentId : ℕ) : Bytes :=
  segmentMagic ++ (u32Bytes 1 ++ u64Bytes (UInt64.ofNat segmentId))

def validHeader (b : Bytes) : Bool :=
  b.take 4 == segmentMagic && u32OfBytes ((b.drop 4).take 4) == 1

@[simp] theorem length_headerBytes (segmentId : ℕ) : (headerBytes segmentId).length = 16 := by
  simp [headerBytes, segmentMagic]

theorem validHeader_headerBytes (segmentId : ℕ) : validHeader (headerBytes segmentId) = true := by
  have htake : (headerBytes segmentId).take 4 = segmentMagic := List.take_left' rfl
  have hdrop : (headerBytes segmentId).drop 4 = u32Bytes 1 ++ u64Bytes (UInt64.ofNat segmentId) :=
    List.drop_left' rfl
  rw [validHeader, htake, hdrop, List.take_left' (length_u32Bytes 1), u32OfBytes_u32Bytes]
  simp

inductive SegmentError where
  | io
  | invalidHeader
deriving DecidableEq

/-- `SegmentReader::open` on a file of at least 16 bytes, and everything it yields. -/
def readSegment (file : Bytes) : Except SegmentError (List SegmentEntry) :=
  if file.length < 16 then .error .io
  else if validHeader (file.take 16) then .ok (readAll (file.drop 16))
  else .error .invalidHeader

theorem readSegment_headerBytes_append (segmentId : ℕ) (body : Bytes) :
    readSegment (headerBytes segmentId ++ body) = .ok (readAll body) := by
  rw [readSegment, if_neg (by simp), List.take_left' (length_headerBytes segmentId),
    List.drop_left' (length_headerBytes segmentId), if_pos (validHeader_headerBytes segmentId)]

abbrev FileName := Bytes

/-- The contents of the `segments` directory by file name, in name order. -/
abbrev SegmentDir := Map FileName Bytes

def segmentPrefixBytes : Bytes := [0x73, 0x65, 0x67, 0x6D, 0x65, 0x6E, 0x74, 0x2D]

def segmentSuffixBytes : Bytes := [0x2E, 0x73, 0x65, 0x67]

/-- `segment-{id}.seg` with the number padded to `width` digits. -/
def segmentNameOfWidth (width segmentId : ℕ) : FileName :=
  segmentPrefixBytes ++ (Numerals.decimal width segmentId ++ segmentSuffixBytes)

/-- The name of a write-ahead segment. -/
def segmentName (segmentId : ℕ) : FileName := segmentNameOfWidth 6 segmentId

def isSegmentName (name : FileName) : Bool :=
  segmentPrefixBytes.isPrefixOf name && segmentSuffixBytes.isSuffixOf name

/-- What replay has seen so far: the last root and the snapshots. -/
abbrev Replay := Option Digest224 × List SnapshotEntry

def replayEntry (acc : Replay) : SegmentEntry → Replay
  | .rootUpdate root => (some root, acc.2)
  | .snapshotRecord snap => (acc.1, acc.2 ++ [snap])

def replayFile (acc : Replay) (file : Bytes) : Except SegmentError Replay :=
  if file.length < 16 then .ok acc
  else
    match readSegment file with
    | .error e => .error e
    | .ok entries => .ok (entries.foldl replayEntry acc)

def replayFiles : List Bytes → Replay → Except SegmentError Replay
  | [], acc => .ok acc
  | file :: files, acc =>
    match replayFile acc file with
    | .error e => .error e
    | .ok acc => replayFiles files acc

def segmentFiles (dir : SegmentDir) : List (FileName × Bytes) :=
  dir.toList.filter fun f => isSegmentName f.1

def loadStoreFromSegments (dir : SegmentDir) : Except SegmentError Replay :=
  replayFiles ((segmentFiles dir).map Prod.snd) (none, [])

end SliceFs
