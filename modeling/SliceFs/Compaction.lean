import SliceFs.Gc
import SliceFs.ProgramLogic

/-!
# Passes of the collector

A pass reads every file with the extension `seg` and writes its entries to the segment
whose number is higher by 100000. Here the pass is followed file by file, with its
results: it ends at the first file that it cannot read, and the copies made before stay.
Replay goes by other rules. It takes only the names that start with `segment-` and passes
over files without a whole header.
-/
namespace SliceFs
open TreeMaps SegmentEntry ProgramLogic

structure CompactionResult where
  entriesKept : ℕ
  entriesRemoved : ℕ
deriving DecidableEq

/-- The loop that writes what was read, and counts it. -/
def writeKept : List SegmentEntry → Bytes → CompactionResult → Bytes × CompactionResult
  | [], out, result => (out, result)
  | .rootUpdate root :: es, out, result =>
    writeKept es (out ++ (rootUpdate root).frameBytes)
      { result with entriesKept := result.entriesKept + 1 }
  | .snapshotRecord snap :: es, out, result =>
    writeKept es (out ++ (snapshotRecord snap).frameBytes)
      { result with entriesKept := result.entriesKept + 1 }

/-- The compaction of one file with its counts. -/
def compactSegmentResult (path : FileName) (outputSegmentId : ℕ) :
    Prog SegmentDir SegmentError CompactionResult := fun dir =>
  match dir[path]? with
  | none => (.error (.err .io), dir)
  | some file =>
    match readSegment file with
    | .error e => (.error (.err e), dir)
    | .ok entries =>
      let written := writeKept entries (headerBytes outputSegmentId) ⟨0, 0⟩
      (.ok written.2,
        dir.insert (segmentNameOfWidth 3 outputSegmentId) (written.1 ++ eofBytes))

structure GcStats where
  entriesScanned : ℕ
  entriesRemoved : ℕ
  segmentsCompacted : ℕ
deriving DecidableEq

/-- The number that a pass takes from the name of a file. -/
def gcSegmentId (path : FileName) : ℕ := (parseSegmentId path).getD 0

/-- The number of the copy is computed in 64 bits. -/
def compactId (path : FileName) : ℕ := (gcSegmentId path + 100000) % 2 ^ 64

def GcStats.add (stats : GcStats) (result : CompactionResult) : GcStats where
  entriesScanned := stats.entriesScanned + (result.entriesKept + result.entriesRemoved)
  entriesRemoved := stats.entriesRemoved + result.entriesRemoved
  segmentsCompacted := stats.segmentsCompacted + 1

/-- A pass over the files, as the directory lists them. -/
def runGcPass (overflowChecks : Bool) :
    List FileName → GcStats → Prog SegmentDir SegmentError GcStats
  | [], stats => pure stats
  | path :: paths, stats => do
    Prog.assert (overflowChecks = true → gcSegmentId path + 100000 < 2 ^ 64)
    let result ← compactSegmentResult path (compactId path)
    runGcPass overflowChecks paths (stats.add result)

variable {overflowChecks : Bool} {dir dir' : SegmentDir} {path : FileName} {file : Bytes}
  {es : List SegmentEntry}

theorem writeKept_eq (es : List SegmentEntry) (out : Bytes) (result : CompactionResult) :
    writeKept es out result = (out ++ framesBytes es,
      { result with entriesKept := result.entriesKept + es.length }) := by
  induction es generalizing out result with
  | nil => simp [writeKept, framesBytes]
  | cons e es ih =>
      have hframes : framesBytes (e :: es) = e.frameBytes ++ framesBytes es := rfl
      cases e <;> rw [writeKept, ih, hframes, List.length_cons, List.append_assoc,
        Nat.add_right_comm] <;> rfl

theorem compactSegmentResult_ok (hfile : dir[path]? = some file) (hread : readSegment file = .ok es)
    (id : ℕ) : compactSegmentResult path id dir =
      (.ok ⟨es.length, 0⟩, dir.insert (segmentNameOfWidth 3 id) (closedSegment id es)) := by
  simp only [compactSegmentResult, hfile, hread, writeKept_eq, Nat.zero_add, closedSegment,
    List.append_assoc]

/-- A file that cannot be read is an error and changes nothing. -/
theorem compactSegmentResult_stuck
    (h : ∀ file ∈ dir[path]?, ∀ es, readSegment file ≠ .ok es) (id : ℕ) :
    ∃ e, compactSegmentResult path id dir = (.error (.err e), dir) := by
  unfold compactSegmentResult
  cases hfile : dir[path]? with
  | none => exact ⟨_, rfl⟩
  | some file =>
      cases hread : readSegment file with
      | error e => exact ⟨e, by simp only [hread]⟩
      | ok es => exact absurd hread (h file hfile es)

/-- The results apart, this is the compaction of the other passes. -/
theorem compactSegmentResult_eq_ok {id : ℕ} {result : CompactionResult}
    (h : compactSegmentResult path id dir = (.ok result, dir')) :
    compactSegment dir path id = .ok dir' ∧ ∃ file es, dir[path]? = some file ∧
      readSegment file = .ok es ∧ result = ⟨es.length, 0⟩ := by
  cases hfile : dir[path]? with
  | none =>
      simp only [compactSegmentResult, hfile] at h
      cases h
  | some file =>
      cases hread : readSegment file with
      | error e =>
          simp only [compactSegmentResult, hfile, hread] at h
          cases h
      | ok es =>
          rw [compactSegmentResult_ok hfile hread] at h
          obtain ⟨hresult, hdir⟩ := Prod.mk.inj h
          refine ⟨?_, file, es, rfl, hread, (Except.ok.inj hresult).symm⟩
          simp only [compactSegment, hfile, hread, hdir]

/-- Whatever follows the header of a file, its compaction reads as the same entries, and
counts them. -/
theorem compaction_keeps_entries {id : ℕ} {result : CompactionResult}
    (hfile : dir[path]? = some file) (hlen : 16 ≤ file.length)
    (hvalid : validHeader (file.take 16) = true)
    (hrun : compactSegmentResult path id dir = (.ok result, dir')) :
    ∃ out es, dir'[segmentNameOfWidth 3 id]? = some out ∧ readSegment file = .ok es ∧
      readSegment out = .ok es ∧ result.entriesKept = es.length := by
  have hread : readSegment file = .ok (readAll (file.drop 16)) := by
    rw [readSegment, if_neg (by omega), if_pos hvalid]
  rw [compactSegmentResult_ok hfile hread] at hrun
  obtain ⟨hresult, rfl⟩ := Prod.mk.inj hrun
  refine ⟨_, _, Std.ExtTreeMap.getElem?_insert_self, hread,
    readSegment_closedSegment id (settled_of_readSegment hread), ?_⟩
  rw [← Except.ok.inj hresult]

/-- A segment that no writer made: its root update has two bytes too many, and a type
byte follows. -/
def oddDir : SegmentDir :=
  (∅ : SegmentDir).insert (segmentName 7)
    (headerBytes 7 ++ (0x02 :: (LittleEndian.u32Bytes 30 ++ List.replicate 30 1)) ++ [0x03])

theorem compaction_keeps_entries_odd : ∃ dir' out,
    compactSegmentResult (segmentName 7) 9 oddDir = (.ok ⟨1, 0⟩, dir') ∧
      dir'[segmentNameOfWidth 3 9]? = some out ∧
      ∃ e, readSegment out = .ok [e] := by
  have hrun : compactSegmentResult (segmentName 7) 9 oddDir = (.ok ⟨1, 0⟩, _) :=
    Prog.eq_ok_of_toOption (by decide +kernel)
  obtain ⟨out, es, hout, -, hread, hkept⟩ := compaction_keeps_entries
    (Std.ExtTreeMap.getElem?_insert_self) (by decide +kernel) (by decide +kernel) hrun
  obtain ⟨e, rfl⟩ := List.length_eq_one_iff.mp hkept.symm
  exact ⟨_, out, hrun, hout, e, hread⟩

section Pass
variable {paths : List FileName} {stats stats' : GcStats}

theorem runGcPass_cons (hid : overflowChecks = true → gcSegmentId path + 100000 < 2 ^ 64)
    (hfile : dir[path]? = some file) (hread : readSegment file = .ok es) :
    runGcPass overflowChecks (path :: paths) stats dir =
      runGcPass overflowChecks paths (stats.add ⟨es.length, 0⟩)
        (dir.insert (segmentNameOfWidth 3 (compactId path))
          (closedSegment (compactId path) es)) := by
  rw [runGcPass, Prog.assert_bind_of hid, Prog.bind_ok (compactSegmentResult_ok hfile hread _)]

/-- A file that stops the pass: its number overflows, or it cannot be read. -/
theorem runGcPass_stuck (h : (overflowChecks = true ∧ 2 ^ 64 ≤ gcSegmentId path + 100000) ∨
      ∀ file ∈ dir[path]?, ∀ es, readSegment file ≠ .ok es) :
    ∃ e, runGcPass overflowChecks (path :: paths) stats dir = (.error e, dir) := by
  rw [runGcPass]
  by_cases hid : overflowChecks = true → gcSegmentId path + 100000 < 2 ^ 64
  · have hread := h.resolve_left fun hover => absurd (hid hover.1) (by omega)
    obtain ⟨e, he⟩ := compactSegmentResult_stuck hread (compactId path)
    exact ⟨.err e, by rw [Prog.assert_bind_of hid, Prog.bind_error he]⟩
  · exact ⟨.panic, Prog.assert_bind_of_not hid _ _⟩

/-- A pass goes on with a file or stops at it. -/
theorem runGcPass_cases (overflowChecks : Bool) (path : FileName) (dir : SegmentDir) :
    ((overflowChecks = true → gcSegmentId path + 100000 < 2 ^ 64) ∧
        ∃ file es, dir[path]? = some file ∧ readSegment file = .ok es) ∨
      (overflowChecks = true ∧ 2 ^ 64 ≤ gcSegmentId path + 100000) ∨
        ∀ file ∈ dir[path]?, ∀ es, readSegment file ≠ .ok es := by
  by_cases hid : overflowChecks = true → gcSegmentId path + 100000 < 2 ^ 64
  · by_cases hread : ∃ file es, dir[path]? = some file ∧ readSegment file = .ok es
    · exact .inl ⟨hid, hread⟩
    · exact .inr (.inr fun file hfile es hes => hread ⟨file, es, hfile, hes⟩)
  · rw [Classical.not_imp, Nat.not_lt] at hid
    exact .inr (.inl hid)

/-- What every copy keeps, a pass keeps, also one that stops. -/
theorem runGcPass_invariant {I : SegmentDir → Prop}
    (hcopy : ∀ d id es, (∀ e ∈ es, e.Settled) → I d →
      I (d.insert (segmentNameOfWidth 3 id) (closedSegment id es)))
    (h : I dir) : I (runGcPass overflowChecks paths stats dir).2 := by
  induction paths generalizing dir stats with
  | nil => exact h
  | cons path paths ih =>
      rcases runGcPass_cases overflowChecks path dir with ⟨hid, file, es, hfile, hread⟩ | hstuck
      · rw [runGcPass_cons hid hfile hread]
        exact ih (hcopy dir _ es (settled_of_readSegment hread) h)
      · obtain ⟨e, he⟩ : ∃ e, runGcPass overflowChecks (path :: paths) stats dir =
          (.error e, dir) :=
          runGcPass_stuck hstuck
        rw [he]
        exact h

/-- Without overflow a pass that succeeds is one of the passes between two mounts. -/
theorem runGcInner_of_runGcPass (hid : ∀ path ∈ paths, gcSegmentId path + 100000 < 2 ^ 64)
    (h : runGcPass overflowChecks paths stats dir = (.ok stats', dir')) :
    runGcInner paths dir = .ok dir' := by
  induction paths generalizing dir stats with
  | nil =>
      obtain ⟨-, rfl⟩ := Prod.mk.inj h
      rfl
  | cons path paths ih =>
      obtain ⟨-, hrun⟩ := Prog.assert_bind_eq_ok h
      obtain ⟨result, d, hcompact, hrest⟩ := Prog.bind_eq_ok hrun
      obtain ⟨hsame, -⟩ := compactSegmentResult_eq_ok hcompact
      rw [compactId, Nat.mod_eq_of_lt (hid path List.mem_cons_self), gcSegmentId] at hsame
      rw [runGcInner, hsame]
      exact ih (fun p hp => hid p (List.mem_cons_of_mem _ hp)) hrest

/-- The records that replay goes through. -/
def replayed (dir : SegmentDir) : List SegmentEntry := entriesIn (segmentFiles dir)

theorem mem_replayed {e : SegmentEntry} :
    e ∈ replayed dir ↔ ∃ (path : FileName) (file : Bytes), dir[path]? = some file ∧
      isSegmentName path = true ∧ e ∈ entriesOf file := by
  simp only [replayed, entriesIn, segmentFiles, List.mem_flatMap, List.mem_filter, Prod.exists,
    Std.ExtTreeMap.mem_toList_iff_getElem?_eq_some, and_assoc]

theorem entriesOf_of_readSegment (h : readSegment file = .ok es) : entriesOf file = es := by
  unfold entriesOf
  rw [h]
  split_ifs with hlen
  · rw [readSegment, if_pos hlen] at h
    cases h
  · rfl

/-- Every file of a pass can be read, as records of `S`. -/
def ReadsWithin (S : List SegmentEntry) (dir : SegmentDir) : Prop :=
  ∀ (path : FileName) (file : Bytes), dir[path]? = some file → hasSegExtension path = true →
    ∃ es, readSegment file = .ok es ∧ ∀ e ∈ es, e ∈ S

theorem ReadsWithin.insert {S : List SegmentEntry} (h : ReadsWithin S dir)
    (hsettled : ∀ e ∈ es, e.Settled) (hes : ∀ e ∈ es, e ∈ S) (name : FileName) (id : ℕ) :
    ReadsWithin S (dir.insert name (closedSegment id es)) := by
  intro path file hfile hseg
  rw [getElem?_insert_ite] at hfile
  split_ifs at hfile
  · obtain rfl := Option.some.inj hfile
    exact ⟨es, readSegment_closedSegment id hsettled, hes⟩
  · exact h path file hfile hseg

/-- A pass over files that can be read succeeds, and the copies hold nothing new. -/
theorem ReadsWithin.runGcPass {S : List SegmentEntry} (h : ReadsWithin S dir)
    (hpaths : ∀ path ∈ paths, dir[path]? ≠ none ∧ hasSegExtension path = true)
    (hid : ∀ path ∈ paths, overflowChecks = true → gcSegmentId path + 100000 < 2 ^ 64) :
    ∃ stats' dir', SliceFs.runGcPass overflowChecks paths stats dir = (.ok stats', dir') ∧
      ReadsWithin S dir' := by
  induction paths generalizing dir stats with
  | nil => exact ⟨stats, dir, rfl, h⟩
  | cons path paths ih =>
      obtain ⟨hsome, hseg⟩ := hpaths path List.mem_cons_self
      obtain ⟨file, hfile⟩ := Option.ne_none_iff_exists'.mp hsome
      obtain ⟨es, hread, hes⟩ := h path file hfile hseg
      rw [runGcPass_cons (hid path List.mem_cons_self) hfile hread]
      refine ih (h.insert (settled_of_readSegment hread) hes _ _) (fun p hp => ?_)
        fun p hp => hid p (List.mem_cons_of_mem _ hp)
      obtain ⟨hsome', hseg'⟩ := hpaths p (List.mem_cons_of_mem _ hp)
      refine ⟨?_, hseg'⟩
      rw [getElem?_insert_ite]
      split_ifs
      · exact Option.some_ne_none _
      · exact hsome'

theorem mem_gcPaths : path ∈ gcPaths dir ↔ dir[path]? ≠ none ∧ hasSegExtension path = true := by
  rw [gcPaths, List.mem_filter, Std.ExtTreeMap.mem_keys, Std.ExtTreeMap.mem_iff_isSome_getElem?,
    Option.isSome_iff_ne_none]

/-- Every file of a pass has a whole and valid header and a number that leaves room for the
copy's. What replay does not take by its name holds only records that it finds elsewhere. -/
def GcSafe (overflowChecks : Bool) (dir : SegmentDir) : Prop :=
  ∀ (path : FileName) (file : Bytes), dir[path]? = some file → hasSegExtension path = true →
    (overflowChecks = true → gcSegmentId path + 100000 < 2 ^ 64) ∧
    ∃ es, readSegment file = .ok es ∧ (isSegmentName path = false → ∀ e ∈ es, e ∈ replayed dir)

theorem GcSafe.readsWithin (h : GcSafe overflowChecks dir) : ReadsWithin (replayed dir) dir := by
  intro path file hfile hseg
  obtain ⟨-, es, hread, hforeign⟩ := h path file hfile hseg
  refine ⟨es, hread, fun e he => ?_⟩
  cases hname : isSegmentName path with
  | false => exact hforeign hname e he
  | true =>
      refine mem_replayed.mpr ⟨path, file, hfile, hname, ?_⟩
      rwa [entriesOf_of_readSegment hread]

/-- The copy of a file that is no segment by its name and comes last stays. -/
theorem runGcPass_last (hname : isSegmentName path = false) (hfile : dir[path]? = some file)
    (hread : readSegment file = .ok es)
    (hrun : runGcPass overflowChecks (paths ++ [path]) stats dir = (.ok stats', dir')) :
    dir'[segmentNameOfWidth 3 (compactId path)]? = some (closedSegment (compactId path) es) := by
  induction paths generalizing dir stats with
  | nil =>
      rcases runGcPass_cases overflowChecks path dir with ⟨hid, -⟩ | hstuck
      · rw [List.nil_append, runGcPass_cons hid hfile hread] at hrun
        rw [← (Prod.mk.inj hrun).2]
        exact Std.ExtTreeMap.getElem?_insert_self
      · obtain ⟨e, he⟩ : ∃ e, runGcPass overflowChecks [path] stats dir = (.error e, dir) :=
          runGcPass_stuck hstuck
        rw [List.nil_append, he] at hrun
        cases hrun
  | cons other paths ih =>
      rcases runGcPass_cases overflowChecks other dir with
        ⟨hid, file', es', hfile', hread'⟩ | hstuck
      · rw [List.cons_append, runGcPass_cons hid hfile' hread'] at hrun
        refine ih ?_ hrun
        -- copies have names of segments
        rw [getElem?_insert_ite, if_neg, hfile]
        rintro rfl
        rw [isSegmentName_ofWidth] at hname
        cases hname
      · obtain ⟨e, he⟩ : ∃ e, runGcPass overflowChecks (other :: (paths ++ [path])) stats dir =
            (.error e, dir) := runGcPass_stuck hstuck
        rw [List.cons_append, he] at hrun
        cases hrun

end Pass

/-- A pass succeeds in whatever order the directory lists its files, and later replays see
no record that they did not see before, exactly when the directory is safe. -/
theorem gc_accepts_iff (overflowChecks : Bool) (dir : SegmentDir) :
    (∀ order : List FileName, order.Perm (gcPaths dir) →
      ∃ stats dir', runGcPass overflowChecks order ⟨0, 0, 0⟩ dir = (.ok stats, dir') ∧
        ∀ e ∈ replayed dir', e ∈ replayed dir) ↔
      GcSafe overflowChecks dir := by
  constructor
  · intro h path file hfile hseg
    have hmem : path ∈ gcPaths dir := mem_gcPaths.mpr ⟨by simp [hfile], hseg⟩
    -- the file may be listed first
    obtain ⟨stats, dir', hrun, -⟩ := h (path :: (gcPaths dir).erase path)
      (List.perm_cons_erase hmem).symm
    rcases runGcPass_cases overflowChecks path dir with ⟨hid, file', es, hfile', hread⟩ | hstuck
    · obtain rfl := Option.some.inj (hfile.symm.trans hfile')
      refine ⟨hid, es, hread, fun hname e he => ?_⟩
      -- or last
      obtain ⟨stats₂, dir₂, hrun₂, hseen⟩ := h ((gcPaths dir).erase path ++ [path])
        ((List.perm_append_singleton _ _).trans (List.perm_cons_erase hmem).symm)
      refine hseen e (mem_replayed.mpr ⟨_, _, runGcPass_last hname hfile hread hrun₂,
        isSegmentName_ofWidth _ _, ?_⟩)
      rwa [entriesOf_of_readSegment (readSegment_closedSegment _ (settled_of_readSegment hread))]
    · obtain ⟨e, he⟩ : ∃ e, runGcPass overflowChecks (path :: (gcPaths dir).erase path) ⟨0, 0, 0⟩
          dir = (.error e, dir) := runGcPass_stuck hstuck
      rw [he] at hrun
      cases hrun
  · intro h order horder
    have hpaths : ∀ path ∈ order, dir[path]? ≠ none ∧ hasSegExtension path = true :=
      fun path hpath => mem_gcPaths.mp (horder.mem_iff.mp hpath)
    obtain ⟨stats, dir', hrun, hwithin⟩ := h.readsWithin.runGcPass hpaths fun path hpath => by
      obtain ⟨hsome, hseg⟩ := hpaths path hpath
      obtain ⟨file, hfile⟩ := Option.ne_none_iff_exists'.mp hsome
      exact (h path file hfile hseg).1
    refine ⟨stats, dir', hrun, fun e he => ?_⟩
    obtain ⟨path, file, hfile, hname, hmem⟩ := mem_replayed.mp he
    obtain ⟨es, hread, hes⟩ := hwithin path file hfile (hasSegExtension_of_isSegmentName hname)
    rw [entriesOf_of_readSegment hread] at hmem
    exact hes e hmem

/-- A mount that was killed before its first commit leaves a segment without a header. -/
def killedDir (root : Digest224) : SegmentDir := (seededDir root).insert (segmentName 2) []

/-- Replay accepts it, a pass does not. -/
theorem killed_mount_stops_gc :
    loadStoreFromSegments (killedDir (parseDigest224 [])) = .ok (some (parseDigest224 []), []) ∧
      ∃ order : List FileName, order.Perm (gcPaths (killedDir (parseDigest224 []))) ∧
        (runGcPass true order ⟨0, 0, 0⟩ (killedDir (parseDigest224 []))).1 = .error (.err .io) := by
  refine ⟨by decide +kernel, _, List.Perm.refl _, ?_⟩
  decide +kernel

/-- The directory after `k` passes, one after the other. -/
inductive GcRuns (overflowChecks : Bool) (dir : SegmentDir) : ℕ → SegmentDir → Prop where
  | zero : GcRuns overflowChecks dir 0 dir
  | succ {k : ℕ} {d : SegmentDir} {order : List FileName} : GcRuns overflowChecks dir k d →
      order.Perm (gcPaths d) →
      GcRuns overflowChecks dir (k + 1) (runGcPass overflowChecks order ⟨0, 0, 0⟩ d).2

def segmentCount (dir : SegmentDir) : ℕ :=
  total (fun name _ => if hasSegExtension name = true then 1 else 0) dir

def recordCount (dir : SegmentDir) : ℕ :=
  total (fun name file => if hasSegExtension name = true then (entriesOf file).length else 0) dir

/-- `cur` has all files of `dir`, and only those unless it has more segments. -/
structure Extends (dir cur : SegmentDir) : Prop where
  keep : ∀ name : FileName, dir[name]? ≠ none → cur[name]? ≠ none
  le : segmentCount dir ≤ segmentCount cur
  same : segmentCount cur = segmentCount dir → ∀ name : FileName, cur[name]? ≠ none →
    dir[name]? ≠ none

theorem Extends.insert {cur : SegmentDir} (h : Extends dir cur) (width id : ℕ) (file : Bytes) :
    Extends dir (cur.insert (segmentNameOfWidth width id) file) := by
  have hseg := hasSegExtension_of_isSegmentName (isSegmentName_ofWidth width id)
  have hkeep : ∀ name : FileName, cur[name]? ≠ none →
      (cur.insert (segmentNameOfWidth width id) file)[name]? ≠ none := by
    intro name hname
    rw [getElem?_insert_ite]
    split_ifs
    · exact Option.some_ne_none _
    · exact hname
  cases hold : cur[segmentNameOfWidth width id]? with
  | none =>
      have hcount : segmentCount (cur.insert (segmentNameOfWidth width id) file) =
          1 + segmentCount cur := by
        rw [segmentCount, total_insert_new _ hold, if_pos hseg]
        rfl
      have hle := h.le
      exact ⟨fun name hname => hkeep name (h.keep name hname), by omega, fun heq => by omega⟩
  | some old =>
      have hcount : segmentCount (cur.insert (segmentNameOfWidth width id) file) =
          segmentCount cur := by
        have hsum := total_insert_of_some
          (fun name _ => if hasSegExtension name = true then 1 else 0) hold file
        rw [if_pos hseg] at hsum
        exact Nat.add_right_cancel hsum
      refine ⟨fun name hname => hkeep name (h.keep name hname), by rw [hcount]; exact h.le, ?_⟩
      intro heq name hname
      rw [hcount] at heq
      refine h.same heq name ?_
      rw [getElem?_insert_ite] at hname
      split_ifs at hname with hname'
      · rw [hname', hold]
        exact Option.some_ne_none _
      · exact hname

theorem Extends.refl (dir : SegmentDir) : Extends dir dir := ⟨fun _ h => h, le_rfl, fun _ _ h => h⟩

theorem GcRuns.cons {order : List FileName} (horder : order.Perm (gcPaths dir)) {k : ℕ}
    (h : GcRuns overflowChecks (runGcPass overflowChecks order ⟨0, 0, 0⟩ dir).2 k dir') :
    GcRuns overflowChecks dir (k + 1) dir' := by
  induction h with
  | zero => exact .succ .zero horder
  | succ _ hperm ih => exact .succ ih hperm

/-- As long as there is a file that a pass can read, some number of passes adds a segment. -/
theorem exists_growth (hids : ∀ path ∈ gcPaths dir, gcSegmentId path + 100000 < 2 ^ 64)
    (hmem : path ∈ gcPaths dir) (hfile : dir[path]? = some file)
    (hread : readSegment file = .ok es) :
    ∃ k dir', GcRuns overflowChecks dir k dir' ∧ segmentCount dir < segmentCount dir' := by
  induction hn : 2 ^ 64 - gcSegmentId path using Nat.strong_induction_on
    generalizing dir path file es with
  | _ n ih =>
      have hid := hids path hmem
      have hperm := (List.perm_cons_erase hmem).symm
      set dir₁ := (runGcPass overflowChecks (path :: (gcPaths dir).erase path) ⟨0, 0, 0⟩ dir).2
        with hdir₁
      have hrun : GcRuns overflowChecks dir 1 dir₁ := .succ .zero hperm
      have hstart := Extends.refl dir |>.insert 3 (compactId path)
        (closedSegment (compactId path) es)
      have hext : Extends dir dir₁ := by
        rw [hdir₁, runGcPass_cons (fun _ => hid) hfile hread]
        exact runGcPass_invariant (fun d id es _ hd => hd.insert 3 id _) hstart
      -- the copy is there and can be read, also if it was replaced by another copy
      obtain ⟨file₁, es₁, hfile₁, hread₁⟩ : ∃ file₁ es₁,
          dir₁[segmentNameOfWidth 3 (compactId path)]? = some file₁ ∧
          readSegment file₁ = .ok es₁ := by
        rw [hdir₁, runGcPass_cons (fun _ => hid) hfile hread]
        refine runGcPass_invariant (I := fun d => ∃ file₁ es₁,
          d[segmentNameOfWidth 3 (compactId path)]? = some file₁ ∧ readSegment file₁ = .ok es₁)
            ?_ ?_
        · rintro d id es hsettled ⟨file₁, es₁, hfile₁, hread₁⟩
          rw [getElem?_insert_ite]
          split_ifs
          · exact ⟨_, es, rfl, readSegment_closedSegment id hsettled⟩
          · exact ⟨file₁, es₁, hfile₁, hread₁⟩
        · exact ⟨_, es, Std.ExtTreeMap.getElem?_insert_self,
            readSegment_closedSegment _ (settled_of_readSegment hread)⟩
      rcases Nat.lt_or_eq_of_le hext.le with hlt | heq
      · exact ⟨1, dir₁, hrun, hlt⟩
      · have hcopyId : gcSegmentId (segmentNameOfWidth 3 (compactId path)) =
            gcSegmentId path + 100000 := by
          rw [compactId, Nat.mod_eq_of_lt hid, gcSegmentId, parseSegmentId_ofWidth 3 hid,
            Option.getD_some]
        have hids₁ : ∀ p ∈ gcPaths dir₁, gcSegmentId p + 100000 < 2 ^ 64 := by
          intro p hp
          obtain ⟨hsome, hseg⟩ := mem_gcPaths.mp hp
          exact hids p (mem_gcPaths.mpr ⟨hext.same heq.symm p hsome, hseg⟩)
        have hmem₁ : segmentNameOfWidth 3 (compactId path) ∈ gcPaths dir₁ :=
          mem_gcPaths.mpr ⟨by simp [hfile₁],
            hasSegExtension_of_isSegmentName (isSegmentName_ofWidth _ _)⟩
        obtain ⟨k, dir', hruns, hgrow⟩ := ih _ (by rw [← hn, hcopyId]; omega) hids₁ hmem₁ hfile₁
          hread₁ rfl
        exact ⟨k + 1, dir', hruns.cons hperm, heq ▸ hgrow⟩

/-- Consecutive passes never grow the log exactly when no file with the extension can be
read, so that every pass ends before its first copy. -/
theorem gc_never_grows_iff (overflowChecks : Bool)
    (hids : ∀ path ∈ gcPaths dir, gcSegmentId path + 100000 < 2 ^ 64) :
    (∀ k dir', GcRuns overflowChecks dir k dir' →
      segmentCount dir' ≤ segmentCount dir ∧ recordCount dir' ≤ recordCount dir) ↔
      ∀ path ∈ gcPaths dir, ∀ file ∈ dir[path]?, ∀ es, readSegment file ≠ .ok es := by
  constructor
  · intro h path hmem file hfile es hread
    obtain ⟨k, dir', hruns, hgrow⟩ : ∃ k dir', GcRuns overflowChecks dir k dir' ∧
        segmentCount dir < segmentCount dir' := exists_growth hids hmem hfile hread
    exact absurd (h k dir' hruns).1 (Nat.not_le.mpr hgrow)
  · intro h k dir' hruns
    have hsame : dir' = dir := by
      induction hruns with
      | zero => rfl
      | @succ k d order _ hperm ih =>
          rw [ih] at hperm ⊢
          cases order with
          | nil => rfl
          | cons path paths =>
              have hmem := hperm.mem_iff.mp (List.mem_cons_self (a := path) (l := paths))
              obtain ⟨e, he⟩ : ∃ e, runGcPass overflowChecks (path :: paths) ⟨0, 0, 0⟩ dir =
                  (.error e, dir) := runGcPass_stuck (.inr (h path hmem))
              rw [he]
    rw [hsame]
    exact ⟨le_rfl, le_rfl⟩

/-- A directory in which no segment has a header is left alone. -/
theorem gc_never_grows_iff_empty :
    segmentCount ((∅ : SegmentDir).insert (segmentName 1) []) = 1 ∧ ∀ k dir',
      GcRuns true ((∅ : SegmentDir).insert (segmentName 1) []) k dir' → segmentCount dir' ≤ 1 := by
  have hpaths : gcPaths ((∅ : SegmentDir).insert (segmentName 1) []) = [segmentName 1] := by
    decide +kernel
  have hids : ∀ path ∈ gcPaths ((∅ : SegmentDir).insert (segmentName 1) []),
      gcSegmentId path + 100000 < 2 ^ 64 := by
    rw [hpaths]
    decide +kernel
  have hnone : ∀ path ∈ gcPaths ((∅ : SegmentDir).insert (segmentName 1) []),
      ∀ file ∈ ((∅ : SegmentDir).insert (segmentName 1) [])[path]?, ∀ es,
        readSegment file ≠ .ok es := by
    rw [hpaths]
    intro path hpath file hfile es hread
    obtain rfl := List.mem_singleton.mp hpath
    obtain rfl : [] = file := Option.some.inj (Std.ExtTreeMap.getElem?_insert_self.symm.trans hfile)
    cases hread
  refine ⟨by decide +kernel, fun k dir' hruns => ?_⟩
  exact ((gc_never_grows_iff true hids).mpr hnone k dir' hruns).1

/-- One pass over a new store doubles its log. -/
theorem gc_grows_seeded : ∃ dir', GcRuns true (seededDir (parseDigest224 [])) 1 dir' ∧
    segmentCount (seededDir (parseDigest224 [])) = 1 ∧ segmentCount dir' = 2 ∧
    recordCount (seededDir (parseDigest224 [])) = 1 ∧ recordCount dir' = 2 := by
  refine ⟨_, .succ .zero (List.Perm.refl _), ?_⟩
  decide +kernel

end SliceFs
