import SliceFs.Gc

/-!
# What the reader of a segment yields

The frames of a segment are those of the entries that were written and frames of types
that the reader does not know, which it skips. After them may come an end marker, and then
anything. However the file is cut, the reader goes through the frames that are complete
and ends at the first that is not, or at the marker.
-/
namespace SliceFs
open SegmentEntry LittleEndian

/-- A run of the reader's loop to its end, with the entries it yields. -/
inductive Reads : Bytes → List SegmentEntry → Prop where
  | stop {b : Bytes} : readStep b = .stop → Reads b []
  | skip {b rest : Bytes} {es : List SegmentEntry} : readStep b = .skip rest → Reads rest es →
      Reads b es
  | yield {b rest : Bytes} {e : SegmentEntry} {es : List SegmentEntry} :
      readStep b = .yield e rest → Reads rest es → Reads b (e :: es)

theorem Reads.readAll_eq {b : Bytes} {es : List SegmentEntry} (h : Reads b es) :
    readAll b = es := by
  induction h with
  | stop hstep => exact readAll_of_stop hstep
  | skip hstep _ ih => rw [readAll_of_skip hstep, ih]
  | yield hstep _ ih => rw [readAll_of_yield hstep, ih]

/-- A frame of a segment: of an entry, or of a type that is neither an entry's nor the end
marker's. -/
inductive SegmentFrame where
  | entry (e : SegmentEntry)
  | other (type : UInt8) (payload : Bytes) (unknown : type ≠ 0x02 ∧ type ≠ 0x03 ∧ type ≠ 0xFF)
      (fits : payload.length < 2 ^ 32)

namespace SegmentFrame

def bytes : SegmentFrame → Bytes
  | .entry e => e.frameBytes
  | .other type payload _ _ => type :: (u32Bytes (UInt32.ofNat payload.length) ++ payload)

/-- What is read from a frame. -/
def read? : SegmentFrame → Option SegmentEntry
  | .entry e => some e.readBack
  | .other .. => none

def Fits : SegmentFrame → Prop
  | .entry e => e.Fits
  | .other .. => True

/-- The frames that lie within the first `k` bytes. -/
def complete : ℕ → List SegmentFrame → List SegmentFrame
  | _, [] => []
  | k, f :: fs => if f.bytes.length ≤ k then f :: complete (k - f.bytes.length) fs else []

/-- A complete frame is skipped or yields its entry, whatever follows it. -/
theorem reads_append {f : SegmentFrame} (hf : f.Fits) {rest : Bytes} {es : List SegmentEntry}
    (h : Reads rest es) : Reads (f.bytes ++ rest) (f.read?.toList ++ es) := by
  cases f with
  | entry e => exact .yield (readStep_frameBytes_append hf rest) h
  | other type payload unknown fits =>
      have hcount : (u32OfBytes (u32Bytes (UInt32.ofNat payload.length))).toNat =
          payload.length := by
        rw [u32OfBytes_u32Bytes, UInt32.toNat_ofNat_of_lt' fits]
      refine .skip ?_ h
      simp only [bytes, List.cons_append, List.append_assoc, readStep,
        List.take_left' (length_u32Bytes _), List.drop_left' (length_u32Bytes _), hcount,
        List.drop_left]
      rw [if_neg (by simp), if_neg unknown.2.2, if_neg (by simp), if_neg unknown.1,
        if_neg unknown.2.1]

theorem readStep_take {f : SegmentFrame} (hf : f.Fits) {k : ℕ} (hk : k < f.bytes.length) :
    readStep (f.bytes.take k) = .stop := by
  cases f with
  | entry e => exact readStep_take_frameBytes hf hk
  | other type payload unknown fits =>
      refine readStep_take_frame fits type ?_
      simp only [bytes, List.length_cons, List.length_append, length_u32Bytes] at hk
      omega

/-- The reader goes through the complete frames of a cut file, if what comes after the
frames stops it. -/
theorem reads_take {fs : List SegmentFrame} (hfs : ∀ f ∈ fs, f.Fits) {tail : Bytes}
    (htail : ∀ k, readStep (tail.take k) = .stop) (k : ℕ) :
    Reads ((fs.flatMap bytes ++ tail).take k) ((complete k fs).filterMap read?) := by
  induction fs generalizing k with
  | nil => exact .stop (htail k)
  | cons f fs ih =>
      have hf := hfs f List.mem_cons_self
      rw [List.flatMap_cons, List.append_assoc, List.take_append, complete]
      split_ifs with hk
      · have hrest := ih (fun f' hf' => hfs f' (List.mem_cons_of_mem f hf')) (k - f.bytes.length)
        have hread := reads_append hf hrest
        rw [List.take_of_length_le hk]
        cases f with
        | entry e => exact hread
        | other type payload unknown fits => exact hread
      · rw [Nat.sub_eq_zero_of_le (by omega), List.take_zero, List.append_nil]
        exact .stop (readStep_take hf (by omega))

end SegmentFrame

/-- What may follow the frames: nothing, or an end marker and anything. -/
def segmentEnd : Option Bytes → Bytes
  | none => []
  | some rest => eofBytes ++ rest

theorem readStep_take_segmentEnd (tail : Option Bytes) (k : ℕ) :
    readStep ((segmentEnd tail).take k) = .stop := by
  have hmarker : ∀ b, readStep (0xFF :: b) = .stop := by
    intro b
    simp [readStep]
  cases tail with
  | none => rw [segmentEnd, List.take_nil]; rfl
  | some rest =>
      cases k with
      | zero => rfl
      | succ k => exact hmarker _

/-- A file with a valid header and any frames, cut anywhere after the header, reads as the
entries of the frames that are complete before the cut and come before the end marker. -/
theorem reader_recovers_complete {header : Bytes} (hlen : header.length = 16)
    (hvalid : validHeader header = true) {fs : List SegmentFrame} (hfs : ∀ f ∈ fs, f.Fits)
    (tail : Option Bytes) {k : ℕ} (hk : 16 ≤ k) :
    Reads (((header ++ (fs.flatMap SegmentFrame.bytes ++ segmentEnd tail)).take k).drop 16)
        ((SegmentFrame.complete (k - 16) fs).filterMap SegmentFrame.read?) ∧
      readSegment ((header ++ (fs.flatMap SegmentFrame.bytes ++ segmentEnd tail)).take k) =
        .ok ((SegmentFrame.complete (k - 16) fs).filterMap SegmentFrame.read?) := by
  have hcut : (header ++ (fs.flatMap SegmentFrame.bytes ++ segmentEnd tail)).take k =
      header ++ (fs.flatMap SegmentFrame.bytes ++ segmentEnd tail).take (k - 16) := by
    rw [List.take_append, hlen, List.take_of_length_le (by omega)]
  have hreads := SegmentFrame.reads_take hfs (readStep_take_segmentEnd tail) (k - 16)
  rw [hcut, List.drop_left' hlen]
  refine ⟨hreads, ?_⟩
  rw [readSegment, if_neg (by simp [hlen]), List.take_left' hlen, List.drop_left' hlen,
    if_pos hvalid, hreads.readAll_eq]

/-- A legacy frame and a root update, with an end marker; the cut falls into the marker. -/
theorem reader_recovers_complete_legacy :
    readSegment ((headerBytes 1 ++ ([SegmentFrame.other 0x01 [7, 7] (by decide) (by decide),
      .entry (.rootUpdate (parseDigest224 []))].flatMap SegmentFrame.bytes ++
        segmentEnd (some [1, 2]))).take 58) = .ok [.rootUpdate (parseDigest224 [])] := by
  have hfs : ∀ f ∈ [SegmentFrame.other 0x01 [7, 7] (by decide) (by decide),
      .entry (.rootUpdate (parseDigest224 []))], f.Fits := by
    intro f hf
    rcases List.mem_pair.mp hf with rfl | rfl
    · trivial
    · exact (settled_rootUpdate _).fits
  have hread := (reader_recovers_complete (length_headerBytes 1) (validHeader_headerBytes 1) hfs
    (some [1, 2]) (by decide : 16 ≤ 58)).2
  rw [hread]
  decide +kernel

/-- A frame whose payload length wraps to zero ends the reading. -/
theorem readStep_wrapped {e : SnapshotEntry} (h : (nameBytes e.name).length = 2 ^ 32 - 48) :
    readStep (snapshotRecord e).frameBytes = .stop := by
  have hlen : (snapshotRecord e).payloadBytes.length = 2 ^ 32 := by
    simp only [payloadBytes, List.length_append, h]
    simp
  have hzero : u32Bytes (UInt32.ofNat (2 ^ 32)) = [0, 0, 0, 0] := by decide
  have hcount : u32OfBytes [0, 0, 0, 0] = 0 := by decide
  have hstop : ∀ payload, readStep (0x03 :: ([0, 0, 0, 0] ++ payload)) = .stop := by
    intro payload
    simp [readStep, hcount, parseSnapshotRecord]
  rw [frameBytes, hlen, hzero]
  exact hstop _

/-- A name so long that the length of its record wraps to zero. -/
@[irreducible] def longName : Str := .letters (2 ^ 32 - 48) (by decide)

theorem length_longName : longName.bytes.length = 2 ^ 32 - 48 := by
  rw [longName]
  exact List.length_replicate

/-- The frame that `write_entry` makes for a snapshot with that name is not read back. -/
theorem longName_frame_not_read :
    readSegment (headerBytes 1 ++
      (SegmentFrame.entry (.snapshotRecord ⟨1, some longName, parseDigest224 [], 0⟩)).bytes) =
        .ok [] ∧
      (SegmentFrame.entry (.snapshotRecord ⟨1, some longName, parseDigest224 [], 0⟩)).read? ≠
        none := by
  refine ⟨?_, Option.some_ne_none _⟩
  rw [readSegment_headerBytes_append]
  exact congrArg Except.ok (readAll_of_stop (readStep_wrapped length_longName))

end SliceFs
