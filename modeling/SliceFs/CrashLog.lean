import SliceFs.Unmount
import SliceFs.BackgroundGc

/-!
# Segments after crashes

A session that is killed leaves a prefix of its segment: the frames behind the cut are
lost, and a segment cut inside its header holds nothing. Replay still reads all the
segments in the order they were written, and of the last one it reads at least the entries
a sync had covered.
-/
namespace SliceFs
open TreeMaps ProgramLogic SegmentEntry

/-- The segments have numbers of six digits and replay as these entries, whatever sessions
left them. -/
structure Segments (dir : SegmentDir) (es : List SegmentEntry) : Prop where
  name : ∀ name ∈ dir, ∃ n < 10 ^ 6, name = segmentName n
  readable : Readable dir
  entries : entriesIn (segmentFiles dir) = es

section Directory
variable {dir : SegmentDir} {es : List SegmentEntry}

theorem Segments.load (h : Segments dir es) :
    loadStoreFromSegments dir = .ok (lastRoot es, snapshotsOf es) := by
  rw [load_of_readable h.readable, h.entries]

theorem segments_empty : Segments ∅ [] where
  name _ h := absurd h Std.ExtTreeMap.not_mem_empty
  readable := by
    have hload : loadStoreFromSegments ∅ = .ok (none, []) := rfl
    exact readable_of_load hload
  entries := rfl

theorem lt_nextSegmentId_of_mem {n : ℕ} (hn : n < 10 ^ 6) (hmem : segmentName n ∈ dir) :
    n < nextSegmentId dir := by
  refine Nat.lt_succ_of_le (le_foldr_max (List.mem_filterMap.mpr ⟨segmentName n, ?_, ?_⟩))
  · exact Std.ExtTreeMap.mem_keys.mpr hmem
  · exact parseSegmentId_segmentName (lt_trans hn (by norm_num))

/-- The segment of the next session is read after the others. -/
theorem Segments.insert (h : Segments dir es) (hn : nextSegmentId dir < 10 ^ 6) {file : Bytes}
    (hfile : FileReadable file) :
    Segments (dir.insert (segmentName (nextSegmentId dir)) file) (es ++ entriesOf file) where
  name name hmem := by
    rcases mem_insert_iff.mp hmem with rfl | hmem
    · exact ⟨_, hn, rfl⟩
    · exact h.name name hmem
  readable := h.readable.insert hfile
  entries := by
    have hbefore : ∀ e ∈ segmentFiles dir, compare e.1 (segmentName (nextSegmentId dir)) = .lt := by
      intro e he
      have hmem := mem_of_getElem?_eq_some
        (Std.ExtTreeMap.mem_toList_iff_getElem?_eq_some.mp (List.mem_filter.mp he).1)
      obtain ⟨m, hm, hname⟩ := h.name e.1 hmem
      rw [hname] at hmem ⊢
      exact (compare_segmentName hm hn).mpr (lt_nextSegmentId_of_mem hm hmem)
    rw [segmentFiles_insert dir (isSegmentName_segmentName _),
      List.filter_eq_self.mpr fun e he => decide_eq_true (hbefore e he),
      List.filter_eq_nil_iff.mpr fun e he => ?_]
    · rw [entriesIn, List.flatMap_append, ← entriesIn, h.entries]
      simp
    · have hswap : compare (segmentName (nextSegmentId dir)) e.1 =
          (compare e.1 (segmentName (nextSegmentId dir))).swap := Std.OrientedCmp.eq_swap
      rw [decide_eq_true_iff, hswap, hbefore e he]
      decide

end Directory

/-- A log whose writes do not fail: `es` are in its file, under the last sync, and `held`
are held back. -/
structure Wal.Steady (wal : Wal) (n : ℕ) (es held : List SegmentEntry) : Prop where
  writer : ∃ w, wal.writer? = some w ∧ w.name = segmentName n ∧ w.faults = [] ∧
    w.written = headerBytes n ++ framesBytes es ∧
    (w.synced = 0 ∧ es = [] ∨ w.synced = w.written.length)
  buffer : wal.held = held

section Log
variable {wal : Wal} {n : ℕ} {es held : List SegmentEntry}

theorem Wal.steady_create {config : WalConfig} (h : config ≠ .noWal) (n : ℕ) :
    (Wal.create config n []).Steady n [] [] := by
  have hnew : ∃ w, some (SegmentWriter.new (segmentName n) n []) = some w ∧ w.name = segmentName n ∧
      w.faults = [] ∧ w.written = headerBytes n ++ framesBytes [] ∧
      (w.synced = 0 ∧ ([] : List SegmentEntry) = [] ∨ w.synced = w.written.length) :=
    ⟨_, rfl, rfl, rfl, (List.append_nil _).symm, .inl ⟨rfl, rfl⟩⟩
  cases config with
  | perOp => exact ⟨hnew, rfl⟩
  | flushOnFsync => exact ⟨hnew, rfl⟩
  | periodic => exact ⟨hnew, rfl⟩
  | noWal => exact absurd rfl h

/-- An entry is written and synced, or held back. -/
theorem Wal.Steady.logMutation (h : wal.Steady n es held) (e : SegmentEntry) :
    held = [] ∧ (Wal.logMutation e wal).2.Steady n (es ++ [e]) [] ∨
      (∀ w, wal ≠ .perOp w) ∧ (Wal.logMutation e wal).2.Steady n es (held ++ [e]) := by
  obtain ⟨⟨w, hw, hname, hfaults, hwritten, hsynced⟩, rfl⟩ := h
  cases wal with
  | perOp v =>
      obtain rfl : v = w := Option.some.inj hw
      refine .inl ⟨rfl, ?_⟩
      rw [Wal.logMutation_perOp hfaults]
      refine ⟨⟨_, rfl, hname, hfaults, ?_, .inr rfl⟩, rfl⟩
      rw [hwritten, framesBytes_append, List.append_assoc]
      simp [framesBytes]
  | flushOnFsync buffer v =>
      exact .inr ⟨by simp, ⟨w, hw, hname, hfaults, hwritten, hsynced⟩, rfl⟩
  | periodic buffer v =>
      exact .inr ⟨by simp, ⟨w, hw, hname, hfaults, hwritten, hsynced⟩, rfl⟩
  | noWal => cases hw

/-- A flush puts all entries under a sync. -/
theorem Wal.Steady.flushAndSync (h : wal.Steady n es held) :
    (Wal.flushAndSync wal).2.Steady n (es ++ held) [] := by
  obtain ⟨⟨w, hw, hname, hfaults, hwritten, hsynced⟩, rfl⟩ := h
  have hbuffer : ∀ buffer, w.written ++ framesBytes buffer =
      headerBytes n ++ framesBytes (es ++ buffer) := by
    intro buffer
    rw [hwritten, framesBytes_append, List.append_assoc]
  cases wal with
  | perOp v =>
      obtain rfl : v = w := Option.some.inj hw
      simp only [Wal.flushAndSync, Wal.sync_eq hfaults]
      refine ⟨⟨_, rfl, hname, hfaults, ?_, .inr rfl⟩, rfl⟩
      rw [hwritten, Wal.held, List.append_nil]
  | flushOnFsync buffer v =>
      obtain rfl : v = w := Option.some.inj hw
      simp only [Wal.flushAndSync, Wal.drain_eq hfaults]
      exact ⟨⟨_, rfl, hname, hfaults, hbuffer buffer, .inr rfl⟩, rfl⟩
  | periodic buffer v =>
      obtain rfl : v = w := Option.some.inj hw
      simp only [Wal.flushAndSync, Wal.drain_eq hfaults]
      exact ⟨⟨_, rfl, hname, hfaults, hbuffer buffer, .inr rfl⟩, rfl⟩
  | noWal => cases hw

/-- What is left of the file of a session that was killed while it wrote `new`: what was
synced before, and some of the rest. -/
theorem Wal.Steady.survivors (h : wal.Steady n es held) {w : SegmentWriter}
    (hw : wal.writer? = some w) {new : List SegmentEntry} (hfits : ∀ e ∈ es ++ new, e.Settled)
    {k : ℕ} (hk : w.synced ≤ k) :
    FileReadable ((headerBytes n ++ framesBytes (es ++ new)).take k) ∧
      ∃ p, p <+: new ∧ entriesOf ((headerBytes n ++ framesBytes (es ++ new)).take k) = es ++ p := by
  obtain ⟨⟨w', hw', -, -, hwritten, hsynced⟩, -⟩ := h
  obtain rfl := Option.some.inj (hw.symm.trans hw')
  have hall : ∀ e ∈ es ++ new, e.Fits := fun e he => (hfits e he).fits
  refine ⟨fileReadable_take n _ k, ?_⟩
  have hread : ∀ p, p <+: new → (es ++ p).map readBack = es ++ p := fun p hp =>
    map_readBack_of_settled fun e he => hfits e <| by
      rcases List.mem_append.mp he with he | he
      · exact List.mem_append_left _ he
      · exact List.mem_append_right _ (hp.subset he)
  have hcut : ∀ j, complete j new <+: new := fun j => by
    have hpre := complete_mono (le_max_left j (framesBytes new).length) new
    rwa [complete_of_length_le (le_max_right _ _)] at hpre
  rw [entriesOf_take n hall]
  rcases hsynced with ⟨-, rfl⟩ | hsynced
  · exact ⟨_, hcut _, hread _ (hcut _)⟩
  · rw [hwritten, List.length_append, length_headerBytes] at hsynced
    rw [complete_append_of_le (by omega)]
    exact ⟨_, hcut _, hread _ (hcut _)⟩

end Log

end SliceFs
