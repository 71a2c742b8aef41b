import SliceFs.Gc

/-!
# The collector beside a mounted store

A mounted store appends its commits to its active segment while the collector lists the
directory, reads the files one by one and puts a copy of each in place. The two share no
lock, so their steps interleave in any way; a crash can come after any step, and replay
then sees the files as they are.

A copy sorts after the active segment, so it can hide commits that come later, and a pass
that is not finished can bring an old root back. Replay is right after every step exactly
when each copy put in place and each commit completed meets a condition on the files that
sort after it.
-/
namespace SliceFs
open TreeMaps SegmentEntry

/-- The directory and the two threads: `begun` are the roots of the commits given to the
writer, of which the first `written` bytes, header included, are in the file. `linked`
says that the active segment's name still stands for the writer's file. `base` is the
root that replay gave at the mount. -/
structure LiveLog where
  dir : SegmentDir
  segmentId : ℕ
  base : Option Digest224
  begun : List Digest224
  written : ℕ
  linked : Bool
  pass : List FileName
  copy : Option (ℕ × List SegmentEntry)

namespace LiveLog
variable (s : LiveLog)

def bytes : Bytes := headerBytes s.segmentId ++ framesBytes (s.begun.map .rootUpdate)

def name : FileName := segmentName s.segmentId

/-- The root of the last commit that is completely written. -/
def last : Option Digest224 :=
  (lastRoot (complete (s.written - 16) (s.begun.map .rootUpdate))).or s.base

/-- Replay gives that root. -/
def Good : Prop := ∃ snaps, loadStoreFromSegments s.dir = .ok (s.last, snaps)

end LiveLog

/-- A commit is handed to the writer; the file has grown to `k` bytes; the collector lists
the directory, reads the next file, and renames its copy into place. -/
inductive LiveStep where
  | commit (root : Digest224)
  | write (k : ℕ)
  | list (order : List FileName)
  | read
  | put
deriving DecidableEq

/-- The state after a step that can be taken. -/
def LiveStep.run (s : LiveLog) : LiveStep → Option LiveLog
  | .commit root =>
    -- the log's lock: the next commit waits for the last one's sync
    if s.written = s.bytes.length ∨ s.begun = [] then
      some { s with begun := s.begun ++ [root] }
    else none
  | .write k =>
    if s.written ≤ k ∧ k ≤ s.bytes.length then
      some { s with
        written := k
        dir := if s.linked then s.dir.insert s.name (s.bytes.take k) else s.dir }
    else none
  | .list order =>
    if s.pass = [] ∧ s.copy = none ∧ order.Perm (gcPaths s.dir) then some { s with pass := order }
    else none
  | .read =>
    match s.pass, s.copy with
    | path :: paths, none =>
      -- an error ends the pass
      match (s.dir[path]?).bind fun file => (readSegment file).toOption with
      | none => some { s with pass := [] }
      | some es => some { s with
          pass := paths
          copy := some ((parseSegmentId path).getD 0 + 100000, es) }
    | _, _ => none
  | .put =>
    s.copy.map fun p => { s with
      dir := s.dir.insert (segmentNameOfWidth 3 p.1) (closedSegment p.1 p.2)
      linked := s.linked && decide (segmentNameOfWidth 3 p.1 ≠ s.name)
      copy := none }

/-- The last root of the files after, or before, a name. -/
def rootAfter (name : FileName) (dir : SegmentDir) : Option Digest224 :=
  lastRoot (entriesIn (filesAfter name dir))

def rootBefore (name : FileName) (dir : SegmentDir) : Option Digest224 :=
  lastRoot (entriesIn (filesBefore name dir))

/-- A commit that changes the root is completed only while the active segment is in place
and no file after it has a root. A copy is put in place only if a file after it has a
root, or the last root up to it is the last commit's. -/
def LiveStep.Safe (s : LiveLog) : LiveStep → Prop
  | .write k => ({ s with written := k } : LiveLog).last = s.last ∨
      (s.linked = true ∧ rootAfter s.name s.dir = none)
  | .put => ∀ p ∈ s.copy, (rootAfter (segmentNameOfWidth 3 p.1) s.dir).isSome = true ∨
      (lastRoot p.2).or (rootBefore (segmentNameOfWidth 3 p.1) s.dir) = s.last
  | _ => True

/-- Replay is right after each of the steps. -/
def AllGood : List LiveStep → LiveLog → Prop
  | [], s => s.Good
  | step :: steps, s => s.Good ∧ ∀ s', step.run s = some s' → AllGood steps s'

/-- Each of the steps is safe where it is taken. -/
def AllSafe : List LiveStep → LiveLog → Prop
  | [], _ => True
  | step :: steps, s => ∀ s', step.run s = some s' → step.Safe s ∧ AllSafe steps s'

/-- A store that was just mounted: its segment is new and empty, and replay gives `base`. -/
structure LiveLog.Start (s : LiveLog) : Prop where
  load : ∃ dir snaps, s.dir = dir.insert s.name [] ∧ s.segmentId = nextSegmentId dir ∧
    loadStoreFromSegments dir = .ok (s.base, snaps)
  segmentId_lt : s.segmentId < 2 ^ 64
  written : s.written = 0
  begun : s.begun = []
  linked : s.linked = true
  pass : s.pass = []
  copy : s.copy = none

/-- The root that replay of readable files gives. -/
def rootIn (dir : SegmentDir) : Option Digest224 := lastRoot (entriesIn (segmentFiles dir))

theorem rootIn_eq (dir : SegmentDir) {name : FileName} (h : isSegmentName name = true) :
    rootIn dir = (rootAfter name dir).or
      ((lastRoot ((dir[name]?).elim [] entriesOf)).or (rootBefore name dir)) := by
  have hmid : entriesIn ((dir[name]?).toList.map fun file => (name, file)) =
      (dir[name]?).elim [] entriesOf := by
    cases dir[name]? <;> simp [entriesIn]
  rw [rootIn, segmentFiles_split dir h, entriesIn, List.flatMap_append, List.flatMap_append,
    lastRoot_append, lastRoot_append, ← entriesIn, ← entriesIn, ← entriesIn, hmid,
    Option.or_assoc, rootAfter, rootBefore]

theorem rootIn_insert (dir : SegmentDir) {name : FileName} (h : isSegmentName name = true)
    (file : Bytes) : rootIn (dir.insert name file) = (rootAfter name dir).or
      ((lastRoot (entriesOf file)).or (rootBefore name dir)) := by
  rw [rootIn, segmentFiles_insert dir h, entriesIn, List.flatMap_append, List.flatMap_cons,
    lastRoot_append, lastRoot_append, Option.or_assoc]
  rfl

/-- The part of the active segment that is in its file. -/
theorem entriesOf_take_roots (n k : ℕ) (roots : List Digest224) :
    entriesOf ((headerBytes n ++ framesBytes (roots.map .rootUpdate)).take k) =
        complete (k - 16) (roots.map .rootUpdate) ∧
      FileReadable ((headerBytes n ++ framesBytes (roots.map .rootUpdate)).take k) := by
  have hsettled : ∀ e ∈ roots.map SegmentEntry.rootUpdate, e.Settled := by
    intro e he
    obtain ⟨root, -, rfl⟩ := List.mem_map.mp he
    exact settled_rootUpdate root
  have hfits : ∀ e ∈ roots.map SegmentEntry.rootUpdate, e.Fits := fun e he => (hsettled e he).fits
  refine ⟨?_, fileReadable_take n _ k⟩
  rw [entriesOf_take n hfits, map_readBack_of_settled fun e he =>
    hsettled e (mem_of_mem_complete he)]

theorem entriesOf_closedSegment (n : ℕ) {es : List SegmentEntry} (h : ∀ e ∈ es, e.Settled) :
    entriesOf (closedSegment n es) = es ∧ FileReadable (closedSegment n es) := by
  have hread := readSegment_closedSegment n h
  refine ⟨?_, .inr (by rw [hread]; rfl)⟩
  rw [entriesOf, if_neg (by simp [closedSegment]), hread]
  rfl

/-- What holds of the files at all times. -/
structure LiveLog.Wf (s : LiveLog) : Prop where
  readable : Readable s.dir
  active : s.linked = true → s.dir[s.name]? = some (s.bytes.take s.written)
  written_le : s.written ≤ s.bytes.length
  copy : ∀ p ∈ s.copy, ∀ e ∈ p.2, e.Settled

variable {s s' : LiveLog}

theorem LiveLog.Wf.good_iff (h : s.Wf) : s.Good ↔ rootIn s.dir = s.last := by
  rw [LiveLog.Good, load_of_readable h.readable]
  simp only [Except.ok.injEq, Prod.mk.injEq, exists_and_left, exists_eq', and_true]
  rfl

theorem LiveLog.name_isSegmentName (s : LiveLog) : isSegmentName s.name = true :=
  isSegmentName_segmentName s.segmentId

/-- The bytes of the active segment only grow. -/
theorem lastRoot_complete_of_le {k k' : ℕ} (h : k ≤ k') {es : List SegmentEntry}
    (hnone : lastRoot (complete (k' - 16) es) = none) : lastRoot (complete (k - 16) es) = none := by
  rw [lastRoot_eq_none_iff] at hnone ⊢
  exact fun e he => hnone e ((complete_mono (by omega) es).subset he)

/-- `after`, `mid` and `before` are the last roots of the files after the active segment, of
the active segment, and of the files before it. -/
theorem or_eq_iff {after mid mid' before base : Option Digest224}
    (h : after.or (mid.or before) = mid.or base) (hmono : mid' = none → mid = none) :
    after.or (mid'.or before) = mid'.or base ↔ mid'.or base = mid.or base ∨ after = none := by
  cases after with
  | some r => simp [← h, eq_comm]
  | none =>
      cases mid' with
      | some r => simp
      | none => simpa [hmono rfl] using h

theorem LiveLog.Wf.entriesOf_active (h : s.Wf) (hlinked : s.linked = true) :
    (s.dir[s.name]?).elim [] entriesOf = complete (s.written - 16) (s.begun.map .rootUpdate) := by
  rw [h.active hlinked]
  exact (entriesOf_take_roots s.segmentId s.written s.begun).1

theorem LiveLog.Wf.good_write (h : s.Wf) (hgood : s.Good) {k : ℕ}
    (hrun : (LiveStep.write k).run s = some s') :
    s'.Wf ∧ (s'.Good ↔ (LiveStep.write k).Safe s) := by
  rw [LiveStep.run] at hrun
  split_ifs at hrun with hk hlinked
  · obtain rfl := Option.some.inj hrun
    have hwf : LiveLog.Wf { s with
        written := k
        dir := s.dir.insert s.name (s.bytes.take k) } :=
      ⟨h.readable.insert (entriesOf_take_roots s.segmentId k s.begun).2,
        fun _ => by rw [getElem?_insert_ite]; exact if_pos rfl, hk.2, h.copy⟩
    refine ⟨hwf, ?_⟩
    have hroot := rootIn_insert s.dir s.name_isSegmentName (s.bytes.take k)
    have hroot₀ := h.good_iff.mp hgood
    rw [LiveLog.bytes, (entriesOf_take_roots s.segmentId k s.begun).1, ← LiveLog.bytes] at hroot
    rw [rootIn_eq s.dir s.name_isSegmentName, h.entriesOf_active hlinked] at hroot₀
    rw [hwf.good_iff, hroot, LiveStep.Safe]
    have hmono : lastRoot (complete (k - 16) (s.begun.map .rootUpdate)) = none →
        lastRoot (complete (s.written - 16) (s.begun.map .rootUpdate)) = none :=
      lastRoot_complete_of_le hk.1
    simp only [LiveLog.last, hlinked, true_and] at hroot₀ ⊢
    exact or_eq_iff hroot₀ hmono
  · obtain rfl := Option.some.inj hrun
    have hwf : LiveLog.Wf { s with written := k } :=
      ⟨h.readable, fun hl => absurd hl hlinked, hk.2, h.copy⟩
    refine ⟨hwf, ?_⟩
    rw [hwf.good_iff, LiveStep.Safe, or_iff_left fun hl => hlinked hl.1]
    have hroot := h.good_iff.mp hgood
    simp only [hroot]
    exact eq_comm

theorem LiveLog.Wf.good_put (h : s.Wf) (hgood : s.Good) (hrun : LiveStep.put.run s = some s') :
    s'.Wf ∧ (s'.Good ↔ LiveStep.put.Safe s) := by
  obtain ⟨p, hp, rfl⟩ := Option.map_eq_some_iff.mp hrun
  have hcopied := entriesOf_closedSegment p.1 (h.copy p hp)
  have hwf : LiveLog.Wf { s with
      dir := s.dir.insert (segmentNameOfWidth 3 p.1) (closedSegment p.1 p.2)
      linked := s.linked && decide (segmentNameOfWidth 3 p.1 ≠ s.name)
      copy := none } := by
    refine ⟨h.readable.insert hcopied.2, fun hl => ?_, h.written_le, nofun⟩
    rw [Bool.and_eq_true, decide_eq_true_iff] at hl
    have hactive := h.active hl.1
    rw [getElem?_insert_ite]
    exact (if_neg (Ne.symm hl.2)).trans hactive
  refine ⟨hwf, ?_⟩
  have hroot := rootIn_insert s.dir (isSegmentName_ofWidth 3 p.1) (closedSegment p.1 p.2)
  have hroot₀ := h.good_iff.mp hgood
  rw [hcopied.1] at hroot
  rw [rootIn_eq s.dir (isSegmentName_ofWidth 3 p.1)] at hroot₀
  rw [hwf.good_iff, hroot, LiveStep.Safe]
  simp only [hp, Option.mem_def, Option.some.injEq, forall_eq']
  cases hafter : rootAfter (segmentNameOfWidth 3 p.1) s.dir with
  | none => simp [LiveLog.last]
  | some r =>
      rw [hafter, Option.some_or] at hroot₀
      simp only [Option.isSome_some, true_or, iff_true, Option.some_or]
      exact hroot₀

/-- A commit that was only handed to the writer changes neither the files nor the last
complete commit. -/
theorem LiveLog.Wf.good_commit (h : s.Wf) (hgood : s.Good) {root : Digest224}
    (hrun : (LiveStep.commit root).run s = some s') : s'.Wf ∧ s'.Good := by
  rw [LiveStep.run] at hrun
  split_ifs at hrun
  obtain rfl := Option.some.inj hrun
  have hbytes : LiveLog.bytes { s with begun := s.begun ++ [root] } =
      s.bytes ++ (SegmentEntry.rootUpdate root).frameBytes := by
    simp [LiveLog.bytes, framesBytes]
  have hlast : LiveLog.last { s with begun := s.begun ++ [root] } = s.last := by
    have hlt : s.written - 16 <
        (framesBytes (s.begun.map .rootUpdate ++ [SegmentEntry.rootUpdate root])).length := by
      have hle := h.written_le
      have hpos : 0 < (SegmentEntry.rootUpdate root).frameBytes.length := by simp [frameBytes]
      simp only [LiveLog.bytes, List.length_append, length_headerBytes] at hle
      simp only [framesBytes, List.flatMap_append, List.flatMap_cons, List.flatMap_nil,
        List.append_nil, List.length_append] at hle ⊢
      omega
    simp only [LiveLog.last, List.map_append, List.map_cons, List.map_nil, complete_append hlt]
  have hwf : LiveLog.Wf { s with begun := s.begun ++ [root] } := by
    refine ⟨h.readable, fun hl => ?_, ?_, h.copy⟩
    · rw [hbytes, List.take_append_of_le_length h.written_le]
      exact h.active hl
    · rw [hbytes, List.length_append]
      exact le_trans h.written_le (Nat.le_add_right _ _)
  exact ⟨hwf, by rw [hwf.good_iff, hlast]; exact h.good_iff.mp hgood⟩

/-- A step after which replay is right is a safe one, and the other way round. -/
theorem LiveLog.Wf.good_step (h : s.Wf) (hgood : s.Good) {step : LiveStep}
    (hrun : step.run s = some s') : s'.Wf ∧ (s'.Good ↔ step.Safe s) := by
  cases step with
  | write k => exact h.good_write hgood hrun
  | put => exact h.good_put hgood hrun
  | commit root =>
      obtain ⟨hwf, hgood'⟩ := h.good_commit hgood hrun
      exact ⟨hwf, iff_of_true hgood' trivial⟩
  | list order =>
      rw [LiveStep.run] at hrun
      split_ifs at hrun
      obtain rfl := Option.some.inj hrun
      exact ⟨⟨h.readable, h.active, h.written_le, h.copy⟩, iff_of_true hgood trivial⟩
  | read =>
      rw [LiveStep.run] at hrun
      split at hrun
      · split at hrun
        · obtain rfl := Option.some.inj hrun
          exact ⟨⟨h.readable, h.active, h.written_le, h.copy⟩, iff_of_true hgood trivial⟩
        · next es hes =>
            obtain rfl := Option.some.inj hrun
            obtain ⟨file, -, hfile⟩ := Option.bind_eq_some_iff.mp hes
            have hread : readSegment file = .ok es := by
              cases hok : readSegment file <;> simp_all [Except.toOption]
            refine ⟨⟨h.readable, h.active, h.written_le, ?_⟩, iff_of_true hgood trivial⟩
            rintro _ ⟨⟩
            exact settled_of_readSegment hread
      · cases hrun

theorem LiveLog.Start.wf (h : s.Start) : s.Wf ∧ s.Good := by
  obtain ⟨dir, snaps, hdir, hid, hload⟩ := h.load
  have hreadable := readable_of_load hload
  have hempty : FileReadable [] := .inl (by decide)
  have hwf : s.Wf := by
    refine ⟨hdir ▸ hreadable.insert hempty, fun _ => ?_, h.written ▸ Nat.zero_le _, ?_⟩
    · rw [hdir, h.written, getElem?_insert_ite, if_pos rfl, List.take_zero]
    · rw [h.copy]
      exact nofun
  have hnew : dir[s.name]? = none := by
    by_contra hsome
    have hmem : s.name ∈ dir := mem_of_getElem?_eq_some (Option.eq_some_of_isSome
      (Option.isSome_iff_ne_none.mpr hsome))
    have hle := le_foldr_max (List.mem_filterMap.mpr ⟨s.name, Std.ExtTreeMap.mem_keys.mpr hmem,
      parseSegmentId_segmentName h.segmentId_lt⟩)
    rw [nextSegmentId] at hid
    omega
  refine ⟨hwf, hwf.good_iff.mpr ?_⟩
  have hbase : rootIn dir = s.base := by
    rw [load_of_readable hreadable] at hload
    exact congrArg Prod.fst (Except.ok.inj hload)
  have hnil : lastRoot (entriesOf []) = none := rfl
  have hlast : s.last = s.base := by
    rw [LiveLog.last, h.begun]
    simp [complete, lastRoot]
  rw [hlast, ← hbase, hdir, rootIn_insert dir s.name_isSegmentName, hnil,
    rootIn_eq dir s.name_isSegmentName, hnew]
  rfl

theorem LiveLog.Wf.allGood_iff (h : s.Wf) (hgood : s.Good) (steps : List LiveStep) :
    AllGood steps s ↔ AllSafe steps s := by
  induction steps generalizing s with
  | nil => exact iff_of_true hgood trivial
  | cons step steps ih =>
      constructor
      · rintro ⟨-, hall⟩ s' hrun
        obtain ⟨hwf', hiff⟩ := h.good_step hgood hrun
        have hall' := hall s' hrun
        have hgood' : s'.Good := by
          cases steps with
          | nil => exact hall'
          | cons _ _ => exact hall'.1
        exact ⟨hiff.mp hgood', (ih hwf' hgood').mp hall'⟩
      · intro hall
        refine ⟨hgood, fun s' hrun => ?_⟩
        obtain ⟨hwf', hiff⟩ := h.good_step hgood hrun
        obtain ⟨hsafe, hall'⟩ := hall s' hrun
        exact (ih hwf' (hiff.mpr hsafe)).mpr hall'

/-- Replay gives the last complete commit after every step of a mounted store and the
collector beside it exactly when all steps are safe. -/
theorem background_gc_iff (h : s.Start) (steps : List LiveStep) :
    AllGood steps s ↔ AllSafe steps s :=
  h.wf.1.allGood_iff h.wf.2 steps

section Runs

instance (s : LiveLog) : (step : LiveStep) → Decidable (step.Safe s)
  | .write _ => inferInstanceAs (Decidable (_ ∨ _))
  | .put => inferInstanceAs (Decidable (∀ p ∈ s.copy, _ ∨ _))
  | .commit _ => isTrue trivial
  | .list _ => isTrue trivial
  | .read => isTrue trivial

instance decidableAllSafe : (steps : List LiveStep) → (s : LiveLog) → Decidable (AllSafe steps s)
  | [], _ => isTrue trivial
  | step :: steps, s =>
    match hrun : step.run s with
    | none => isTrue fun _ hs' => absurd (hrun.symm.trans hs') nofun
    | some s₁ =>
      have := decidableAllSafe steps s₁
      decidable_of_iff (step.Safe s ∧ AllSafe steps s₁)
        ⟨fun h _ hs' => Option.some.inj (hrun.symm.trans hs') ▸ h, fun h => h s₁ hrun⟩

/-- A store seeded with one root, as it is mounted. -/
def mountedLog : LiveLog where
  dir := (seededDir oldRoot).insert (segmentName 2) []
  segmentId := 2
  base := some oldRoot
  begun := []
  written := 0
  linked := true
  pass := []
  copy := none

theorem start_mountedLog : mountedLog.Start where
  load := ⟨seededDir oldRoot, [], rfl, by decide +kernel, by decide +kernel⟩
  segmentId_lt := by decide
  written := rfl
  begun := rfl
  linked := rfl
  pass := rfl
  copy := rfl

/-- A commit is written out. -/
def commitSteps (root : Digest224) (count : ℕ) : List LiveStep :=
  [.commit root, .write (16 + count * (SegmentEntry.rootUpdate root).frameBytes.length)]

/-- The collector copies the two files, in the given order. -/
def collectSteps (order : List FileName) : List LiveStep :=
  [.list order, .read, .put, .read, .put]

/-- A copy of the newer file is in place before the older file's. -/
theorem background_gc_iff_mountedLog :
    AllGood (commitSteps newRoot 1 ++ collectSteps [segmentName 2, segmentName 1]) mountedLog :=
  (background_gc_iff start_mountedLog _).mpr (by decide +kernel)

def runSteps (steps : List LiveStep) (s : LiveLog) : Option LiveLog :=
  steps.foldlM (fun s step => step.run s) s

theorem AllGood.good_of_runSteps {steps : List LiveStep} (h : AllGood steps s)
    (hrun : runSteps steps s = some s') : s'.Good := by
  induction steps generalizing s with
  | nil =>
      obtain rfl : s = s' := Option.some.inj hrun
      exact h
  | cons step steps ih =>
      obtain ⟨s₁, hstep, hrest⟩ := Option.bind_eq_some_iff.mp hrun
      exact ih (h.2 s₁ hstep) hrest

def lateRoot : Digest224 := .replicate 7 3

def lateCommit : List LiveStep :=
  commitSteps newRoot 1 ++ collectSteps [segmentName 1, segmentName 2] ++ commitSteps lateRoot 2

theorem isSome_runSteps_lateCommit : (runSteps lateCommit mountedLog).isSome := by
  decide +kernel

/-- The second commit is in the active segment, which sorts before the copy of the first. -/
theorem lateCommit_lost : mountedLog.Start ∧ ¬ AllGood lateCommit mountedLog ∧
    ∃ s, runSteps lateCommit mountedLog = some s ∧ s.last = some lateRoot ∧
      loadStoreFromSegments s.dir = .ok (some newRoot, []) := by
  have hrun := (Option.some_get isSome_runSteps_lateCommit).symm
  have hlast : ((runSteps lateCommit mountedLog).get isSome_runSteps_lateCommit).last =
      some lateRoot := by
    decide +kernel
  have hload : loadStoreFromSegments
      ((runSteps lateCommit mountedLog).get isSome_runSteps_lateCommit).dir =
      .ok (some newRoot, []) := by
    decide +kernel
  have hne : some newRoot ≠ some lateRoot := by decide
  refine ⟨start_mountedLog, fun hall => ?_, _, hrun, hlast, hload⟩
  obtain ⟨snaps, hgood⟩ := hall.good_of_runSteps hrun
  rw [hload, hlast] at hgood
  exact hne (congrArg Prod.fst (Except.ok.inj hgood))

end Runs

end SliceFs
