import SliceFs.Segment

/-!
# Numbered segments

A directory whose segments are named by six-digit numerals is a log: a map from the
numbers to the entries. Replay goes through it in the order of the numbers, so the live
root is the last one of the highest segment that has a root.
-/
namespace SliceFs
open TreeMaps SegmentEntry

namespace SegmentEntry

def root? : SegmentEntry → Option Digest224
  | .rootUpdate root => some root
  | .snapshotRecord _ => none

def snapshot? : SegmentEntry → Option SnapshotEntry
  | .rootUpdate _ => none
  | .snapshotRecord snap => some snap

end SegmentEntry

/-- The root of the last root update. -/
def lastRoot (es : List SegmentEntry) : Option Digest224 :=
  (es.filterMap SegmentEntry.root?).getLast?

def snapshotsOf (es : List SegmentEntry) : List SnapshotEntry := es.filterMap SegmentEntry.snapshot?

@[simp] theorem lastRoot_nil : lastRoot [] = none := rfl

@[simp] theorem snapshotsOf_nil : snapshotsOf [] = [] := rfl

theorem lastRoot_append (a b : List SegmentEntry) :
    lastRoot (a ++ b) = (lastRoot b).or (lastRoot a) := by
  rw [lastRoot, List.filterMap_append, List.getLast?_append]
  rfl

@[simp] theorem snapshotsOf_append (a b : List SegmentEntry) :
    snapshotsOf (a ++ b) = snapshotsOf a ++ snapshotsOf b :=
  List.filterMap_append

theorem lastRoot_eq_none_iff {es : List SegmentEntry} :
    lastRoot es = none ↔ ∀ e ∈ es, e.root? = none := by
  rw [lastRoot, List.getLast?_eq_none_iff, List.filterMap_eq_nil_iff]

/-- What replaying entries adds to what was seen before. -/
theorem foldl_replayEntry (es : List SegmentEntry) (acc : Replay) :
    es.foldl replayEntry acc = ((lastRoot es).or acc.1, acc.2 ++ snapshotsOf es) := by
  induction es generalizing acc with
  | nil => simp
  | cons e es ih =>
      rw [List.foldl_cons, ih, ← List.singleton_append, lastRoot_append, snapshotsOf_append]
      cases e with
      | rootUpdate root => simp [replayEntry, lastRoot, snapshotsOf, SegmentEntry.root?,
          SegmentEntry.snapshot?]
      | snapshotRecord snap => simp [replayEntry, lastRoot, snapshotsOf, SegmentEntry.root?,
          SegmentEntry.snapshot?]

/-- The entries of numbered segments. -/
abbrev SegmentLog := Map ℕ (List SegmentEntry)

/-- All entries, in the order of the segments. -/
def SegmentLog.entries (log : SegmentLog) : List SegmentEntry := log.toList.flatMap Prod.snd

/-- `r` is the last root of the highest segment that has one. -/
def SegmentLog.Latest (log : SegmentLog) (r : Digest224) : Prop :=
  ∃ (n : ℕ) (es : List SegmentEntry), log[n]? = some es ∧ lastRoot es = some r ∧
    ∀ (m : ℕ) (es' : List SegmentEntry), n < m → log[m]? = some es' → lastRoot es' = none

theorem SegmentLog.Latest.lastRoot_entries {log : SegmentLog} {r : Digest224} (h : log.Latest r) :
    lastRoot log.entries = some r := by
  obtain ⟨n, es, hn, hr, hlater⟩ := h
  obtain ⟨l₁, l₂, hsplit⟩ :=
    List.append_of_mem (Std.ExtTreeMap.mem_toList_iff_getElem?_eq_some.mpr hn)
  have hsorted := pairwise_toList log
  rw [hsplit, List.pairwise_append, List.pairwise_cons] at hsorted
  have hnone : lastRoot (l₂.flatMap Prod.snd) = none := by
    rw [lastRoot_eq_none_iff]
    intro e he
    obtain ⟨f, hf, hef⟩ := List.mem_flatMap.mp he
    have hlt : n < f.1 := Nat.compare_eq_lt.mp (hsorted.2.1.1 f hf)
    have hmem : f ∈ log.toList := by
      rw [hsplit]
      exact List.mem_append_right _ (List.mem_cons_of_mem _ hf)
    have hlast := hlater f.1 f.2 hlt (Std.ExtTreeMap.mem_toList_iff_getElem?_eq_some.mp hmem)
    exact lastRoot_eq_none_iff.mp hlast e hef
  rw [SegmentLog.entries, hsplit, List.flatMap_append, List.flatMap_cons, lastRoot_append,
    lastRoot_append, hnone, hr]
  rfl

theorem isSegmentName_ofWidth (width n : ℕ) :
    isSegmentName (segmentNameOfWidth width n) = true := by
  rw [isSegmentName, segmentNameOfWidth, Bool.and_eq_true, List.isPrefixOf_iff_prefix,
    List.isSuffixOf_iff_suffix]
  exact ⟨List.prefix_append _ _, (List.suffix_append _ _).trans (List.suffix_append _ _)⟩

theorem isSegmentName_segmentName (n : ℕ) : isSegmentName (segmentName n) = true :=
  isSegmentName_ofWidth 6 n

/-- Six-digit names are ordered as their numbers. -/
theorem compare_segmentName {a b : ℕ} (ha : a < 10 ^ 6) (hb : b < 10 ^ 6) :
    compare (segmentName a) (segmentName b) = .lt ↔ a < b := by
  rw [segmentName, segmentName, segmentNameOfWidth, segmentNameOfWidth,
    Numerals.compare_append_left, Numerals.decimal_eq_padded (by decide) ha,
    Numerals.decimal_eq_padded (by decide) hb, Numerals.compare_append_right (by simp),
    Numerals.compare_padded_eq_lt ha hb]

theorem segmentName_injective {a b : ℕ} (ha : a < 10 ^ 6) (hb : b < 10 ^ 6)
    (h : segmentName a = segmentName b) : a = b := by
  rw [segmentName, segmentName, segmentNameOfWidth, segmentNameOfWidth, List.append_cancel_left_eq,
    List.append_cancel_right_eq] at h
  exact Numerals.decimal_injective (lt_trans ha (by decide)) (lt_trans hb (by decide)) h

/-- The segments of a directory are those of a log. -/
structure Renders (dir : SegmentDir) (log : SegmentLog) : Prop where
  name : ∀ name ∈ dir, ∃ n ∈ log, name = segmentName n
  file : ∀ (n : ℕ) (es : List SegmentEntry), log[n]? = some es → n < 10 ^ 6 ∧
    ∃ file, dir[segmentName n]? = some file ∧ 16 ≤ file.length ∧ readSegment file = .ok es

variable {dir : SegmentDir} {log : SegmentLog}

theorem Renders.lt (h : Renders dir log) {n : ℕ} (hn : n ∈ log) : n < 10 ^ 6 := by
  obtain ⟨es, hes⟩ := Option.isSome_iff_exists.mp (Std.ExtTreeMap.mem_iff_isSome_getElem?.mp hn)
  exact (h.file n es hes).1

/-- The files of a directory are listed in the order of the log. -/
theorem Renders.toList_eq (h : Renders dir log) : dir.toList =
    log.toList.map fun e => (segmentName e.1, (dir[segmentName e.1]?).getD []) := by
  refine toList_eq_map segmentName (fun n _ => (dir[segmentName n]?).getD []) ?_ ?_
  · intro a b ha hb hlt
    exact (compare_segmentName (h.lt ha) (h.lt hb)).mpr (Nat.compare_eq_lt.mp hlt)
  · intro name file
    constructor
    · intro hfile
      obtain ⟨n, hn, rfl⟩ := h.name name (mem_of_getElem?_eq_some hfile)
      obtain ⟨es, hes⟩ := Option.isSome_iff_exists.mp (Std.ExtTreeMap.mem_iff_isSome_getElem?.mp hn)
      exact ⟨n, es, hes, rfl, by rw [hfile, Option.getD_some]⟩
    · rintro ⟨n, es, hes, rfl, rfl⟩
      obtain ⟨-, file, hfile, -⟩ := h.file n es hes
      rw [hfile, Option.getD_some]

theorem Renders.segmentFiles_eq (h : Renders dir log) : segmentFiles dir = dir.toList := by
  rw [segmentFiles, List.filter_eq_self]
  intro e he
  have hmem : e.1 ∈ dir :=
    mem_of_getElem?_eq_some (Std.ExtTreeMap.mem_toList_iff_getElem?_eq_some.mp he)
  obtain ⟨n, -, hn⟩ := h.name e.1 hmem
  rw [hn]
  exact isSegmentName_segmentName n

theorem replayFile_ok {file : Bytes} {es : List SegmentEntry} (hlen : 16 ≤ file.length)
    (hread : readSegment file = .ok es) (acc : Replay) :
    replayFile acc file = .ok (es.foldl replayEntry acc) := by
  rw [replayFile, if_neg (by omega), hread]

theorem replayFiles_map {files : List (ℕ × List SegmentEntry)} {f : ℕ → Bytes}
    (h : ∀ e ∈ files, 16 ≤ (f e.1).length ∧ readSegment (f e.1) = .ok e.2) (acc : Replay) :
    replayFiles (files.map fun e => f e.1) acc =
      .ok ((files.flatMap Prod.snd).foldl replayEntry acc) := by
  induction files generalizing acc with
  | nil => rfl
  | cons e files ih =>
      obtain ⟨hlen, hread⟩ := h e List.mem_cons_self
      rw [List.map_cons, replayFiles, replayFile_ok hlen hread, List.flatMap_cons,
        List.foldl_append]
      exact ih (fun e' he' => h e' (List.mem_cons_of_mem _ he')) _

/-- What replay of a numbered directory returns. -/
theorem Renders.load (h : Renders dir log) :
    loadStoreFromSegments dir = .ok (lastRoot log.entries, snapshotsOf log.entries) := by
  have hfiles : ∀ e ∈ log.toList, 16 ≤ ((dir[segmentName e.1]?).getD []).length ∧
      readSegment ((dir[segmentName e.1]?).getD []) = .ok e.2 := by
    intro e he
    obtain ⟨-, file, hfile, hlen, hread⟩ :=
      h.file e.1 e.2 (Std.ExtTreeMap.mem_toList_iff_getElem?_eq_some.mp he)
    rw [hfile]
    exact ⟨hlen, hread⟩
  have hreplay := replayFiles_map (f := fun n => (dir[segmentName n]?).getD []) hfiles (none, [])
  rw [loadStoreFromSegments, h.segmentFiles_eq, h.toList_eq, List.map_map]
  refine hreplay.trans ?_
  rw [← SegmentLog.entries, foldl_replayEntry]
  simp

/-- A directory with one more segment. -/
theorem Renders.insert (h : Renders dir log) {n : ℕ} (hn : n < 10 ^ 6) {file : Bytes}
    {es : List SegmentEntry} (hlen : 16 ≤ file.length) (hread : readSegment file = .ok es) :
    Renders (dir.insert (segmentName n) file) (log.insert n es) where
  name name hname := by
    rcases mem_insert_iff.mp hname with rfl | hname
    · exact ⟨n, mem_insert_iff.mpr (.inl rfl), rfl⟩
    · obtain ⟨m, hm, rfl⟩ := h.name name hname
      exact ⟨m, mem_insert_iff.mpr (.inr hm), rfl⟩
  file m es' hm := by
    rw [getElem?_insert_ite] at hm
    split_ifs at hm with hmn
    · obtain rfl := Option.some.inj hm
      rw [hmn, getElem?_insert_ite, if_pos rfl]
      exact ⟨hn, file, rfl, hlen, hread⟩
    · obtain ⟨hlt, file', hfile', hrest⟩ := h.file m es' hm
      refine ⟨hlt, file', ?_, hrest⟩
      rw [getElem?_insert_ite, if_neg fun heq => hmn (segmentName_injective hlt hn heq), hfile']

/-! The entries of the files of a directory, whatever they are called. -/

/-- The entries that replay takes from a file. -/
def entriesOf (file : Bytes) : List SegmentEntry :=
  if file.length < 16 then [] else (readSegment file).toOption.getD []

/-- Replay does not stop at the file. -/
def FileReadable (file : Bytes) : Prop :=
  file.length < 16 ∨ (readSegment file).toOption.isSome = true

def Readable (dir : SegmentDir) : Prop := ∀ e ∈ segmentFiles dir, FileReadable e.2

def entriesIn (files : List (FileName × Bytes)) : List SegmentEntry :=
  files.flatMap fun e => entriesOf e.2

theorem replayFile_entriesOf {file : Bytes} (h : FileReadable file) (acc : Replay) :
    replayFile acc file = .ok ((entriesOf file).foldl replayEntry acc) := by
  unfold replayFile entriesOf
  split_ifs with hlen
  · rfl
  · rcases h with hshort | hread
    · exact absurd hshort hlen
    · cases hok : readSegment file with
      | error e => simp [hok, Except.toOption] at hread
      | ok es => rfl

theorem replayFiles_entriesIn {files : List (FileName × Bytes)} (h : ∀ e ∈ files, FileReadable e.2)
    (acc : Replay) :
    replayFiles (files.map Prod.snd) acc = .ok ((entriesIn files).foldl replayEntry acc) := by
  induction files generalizing acc with
  | nil => rfl
  | cons e files ih =>
      rw [List.map_cons, replayFiles, replayFile_entriesOf (h e List.mem_cons_self)]
      simp only
      rw [ih fun e' he' => h e' (List.mem_cons_of_mem _ he'), entriesIn, entriesIn,
        List.flatMap_cons, List.foldl_append]

theorem load_of_readable {dir : SegmentDir} (h : Readable dir) :
    loadStoreFromSegments dir = .ok (lastRoot (entriesIn (segmentFiles dir)),
      snapshotsOf (entriesIn (segmentFiles dir))) := by
  rw [loadStoreFromSegments, replayFiles_entriesIn h, foldl_replayEntry]
  simp

/-- The entries of a segment of which the first `k` bytes are in its file. -/
theorem entriesOf_take (n : ℕ) {es : List SegmentEntry} (h : ∀ e ∈ es, e.Fits) (k : ℕ) :
    entriesOf ((headerBytes n ++ framesBytes es).take k) = (complete (k - 16) es).map readBack := by
  unfold entriesOf
  by_cases hk : 16 ≤ k
  · have htake : (headerBytes n ++ framesBytes es).take k =
        headerBytes n ++ (framesBytes es).take (k - 16) := by
      rw [List.take_append, length_headerBytes, List.take_of_length_le (by simpa using hk)]
    rw [htake, if_neg (by simp), readSegment_headerBytes_append, readAll_take_framesBytes h]
    rfl
  · rw [if_pos, Nat.sub_eq_zero_of_le (by omega), complete_zero, List.map_nil]
    rw [List.length_take]
    omega

theorem fileReadable_take (n : ℕ) (es : List SegmentEntry) (k : ℕ) :
    FileReadable ((headerBytes n ++ framesBytes es).take k) := by
  by_cases hk : 16 ≤ k
  · rw [List.take_append, length_headerBytes, List.take_of_length_le (by simpa using hk)]
    refine .inr ?_
    rw [readSegment_headerBytes_append]
    rfl
  · refine .inl ?_
    rw [List.length_take]
    omega

theorem Readable.insert {dir : SegmentDir} (h : Readable dir) {name : FileName} {file : Bytes}
    (hfile : FileReadable file) : Readable (dir.insert name file) := by
  intro e he
  obtain ⟨hmem, hname⟩ := List.mem_filter.mp he
  rw [Std.ExtTreeMap.mem_toList_iff_getElem?_eq_some, getElem?_insert_ite] at hmem
  split_ifs at hmem with heq
  · rw [← Option.some.inj hmem]
    exact hfile
  · exact h e (List.mem_filter.mpr
      ⟨Std.ExtTreeMap.mem_toList_iff_getElem?_eq_some.mpr hmem, hname⟩)

theorem readable_of_load {dir : SegmentDir} {p : Replay} (h : loadStoreFromSegments dir = .ok p) :
    Readable dir := by
  have hfiles : ∀ (files : List (FileName × Bytes)) (acc : Replay),
      replayFiles (files.map Prod.snd) acc = .ok p → ∀ e ∈ files, FileReadable e.2 := by
    intro files
    induction files with
    | nil => exact fun _ _ => nofun
    | cons f files ih =>
        intro acc hok e he
        rw [List.map_cons, replayFiles] at hok
        cases hfile : replayFile acc f.2 with
        | error err => simp [hfile] at hok
        | ok acc' =>
            simp only [hfile] at hok
            rcases List.mem_cons.mp he with rfl | he
            · unfold replayFile at hfile
              split_ifs at hfile with hlen
              · exact .inl hlen
              · cases hread : readSegment e.2 with
                | error err => simp [hread] at hfile
                | ok es => exact .inr (by rw [hread]; rfl)
            · exact ih acc' hok e he
  exact hfiles _ _ h

theorem segmentFiles_insert (dir : SegmentDir) {name : FileName} (h : isSegmentName name = true)
    (file : Bytes) : segmentFiles (dir.insert name file) =
      (segmentFiles dir).filter (fun e => decide (compare e.1 name = .lt)) ++
        (name, file) :: (segmentFiles dir).filter (fun e => decide (compare name e.1 = .lt)) := by
  have hcons : ∀ l : List (FileName × Bytes),
      ((name, file) :: l).filter (fun f => isSegmentName f.1) =
        (name, file) :: l.filter fun f => isSegmentName f.1 :=
    fun l => List.filter_cons_of_pos h
  have hcomm : ∀ p : FileName × Bytes → Bool,
      (dir.toList.filter p).filter (fun f => isSegmentName f.1) = (segmentFiles dir).filter p := by
    intro p
    rw [segmentFiles, List.filter_filter, List.filter_filter]
    exact List.filter_congr fun f _ => Bool.and_comm _ _
  rw [segmentFiles, toList_insert_eq, List.filter_append, hcons, hcomm, hcomm]

/-- The files before, or after, a name. -/
def filesBefore (name : FileName) (dir : SegmentDir) : List (FileName × Bytes) :=
  (segmentFiles dir).filter fun e => decide (compare e.1 name = .lt)

def filesAfter (name : FileName) (dir : SegmentDir) : List (FileName × Bytes) :=
  (segmentFiles dir).filter fun e => decide (compare name e.1 = .lt)

theorem segmentFiles_split (dir : SegmentDir) {name : FileName} (h : isSegmentName name = true) :
    segmentFiles dir = filesBefore name dir ++
      ((dir[name]?).toList.map (fun file => (name, file)) ++ filesAfter name dir) := by
  have hcomm : ∀ p : FileName × Bytes → Bool,
      (dir.toList.filter p).filter (fun f => isSegmentName f.1) = (segmentFiles dir).filter p := by
    intro p
    rw [segmentFiles, List.filter_filter, List.filter_filter]
    exact List.filter_congr fun f _ => Bool.and_comm _ _
  have hname : ((dir[name]?).toList.map (fun file => (name, file))).filter
      (fun f => isSegmentName f.1) = (dir[name]?).toList.map (fun file => (name, file)) := by
    refine List.filter_eq_self.mpr fun e he => ?_
    obtain ⟨file, -, rfl⟩ := List.mem_map.mp he
    exact h
  rw [filesBefore, filesAfter, ← hcomm, ← hcomm, ← hname, ← List.filter_append,
    ← List.filter_append, ← toList_split, segmentFiles]

end SliceFs
