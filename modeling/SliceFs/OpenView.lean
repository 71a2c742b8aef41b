import SliceFs.FilesView

/-!
# Truncating, opening and reading, seen by the files

Truncation through a handle changes what the handle holds, truncation without one
changes the committed content. A read returns the bytes of a write handle that has some,
else the committed content.
-/
namespace SliceFs
open TreeMaps ProgramLogic ByteFile

section
variable {B : Blockset} {L : B.Laws} {s : Fs B} {f : Files}

theorem resizeVec_eq {buf : Bytes} {n : UInt64} (hn : n.toNat ≤ isizeMax) :
    resizeVec buf n s = (.ok (resize 0 n.toNat buf), s) := by
  rw [resizeVec, Prog.assert_bind_of (.inr hn)]
  rfl

theorem resizeVec_panic {buf : Bytes} {n : UInt64} (hbuf : buf.length ≤ isizeMax)
    (hn : isizeMax < n.toNat) : resizeVec buf n s = (.error .panic, s) := by
  have hbig : ¬ (n.toNat ≤ buf.length ∨ n.toNat ≤ isizeMax) := by omega
  rw [resizeVec, Prog.bind_apply, Prog.assert_apply, if_neg hbig]

theorem truncateToZero_eq (h : L.Views s f) {fh : UInt64} {o : OpenFileState B} {hd : Handle}
    (hfh : f.handles[fh]? = some hd) (ho : L.HandleView s.store.io o hd) :
    ∃ s', truncateToZero fh o s = (.ok (), s') ∧
      L.Views s' { f with
        core := f.core.drop hd.last, handles := f.handles.insert fh (hd.truncate 0) } := by
  obtain ⟨hle, hi⟩ := h.known fh hd hfh
  have hlast : (hd.truncate 0).last = none := by simp [Handle.truncate, Handle.Releases]
  have hcontent : (hd.truncate 0).content = [] := resize_zero 0 hd.content
  have hmode : L.ModeView s.store.io o.writeMode.cleared hd.buffered [] := by
    have hm := ho.mode
    generalize hd.buffered = b at hm ⊢
    generalize hd.content = c at hm
    generalize o.writeMode = mode at hm ⊢
    cases hm with
    | buffered => exact .buffered []
    | streaming _ =>
        have hdef := Blockset.Laws.ModeView.streaming (L.backed_default s.store.io)
        rw [L.content_default] at hdef
        exact hdef
  obtain ⟨s₁, hput, -, h₁⟩ := putFile_views h fh { o with
      writeMode := o.writeMode.cleared
      byteCount := 0
      casCommitted := false
      lastCommittedRoot := none }
    (hd.truncate 0)
    ⟨ho.ino, by rw [hcontent]; exact hmode, by rw [hcontent]; rfl,
      by rw [hcontent]; exact Nat.zero_le _, rfl, hlast.symm⟩ hle hi
  obtain ⟨st, hdec, -, h₂⟩ := decrementIfSome_eq h₁ o.lastCommittedRoot
  refine ⟨{ s₁ with store := st }, ?_, ?_⟩
  · rw [truncateToZero, Prog.bind_ok hput, hdec]
  · rw [ho.last] at h₂
    exact h₂

theorem truncateBuffered_eq (h : L.Views s f) {fh : UInt64} {o : OpenFileState B} {hd : Handle}
    (hfh : f.handles[fh]? = some hd) (ho : L.HandleView s.store.io o hd)
    (hbuf : hd.buffered = true) {n : UInt64} (hn0 : n ≠ 0) (hn : n.toNat ≤ isizeMax) :
    ∃ s', truncateBuffered fh o hd.content n s = (.ok (), s') ∧
      L.Views s' { f with handles := f.handles.insert fh (hd.truncate n) } := by
  obtain ⟨hle, hi⟩ := h.known fh hd hfh
  have hlast : (hd.truncate n).last = hd.last := by
    refine if_neg ?_
    rintro (h | h)
    · exact hn0 h
    · simp [hbuf] at h
  obtain ⟨s₁, hput, -, h₁⟩ := putFile_views h fh { o with
      writeMode := .buffered (resize 0 n.toNat hd.content)
      byteCount := UInt64.ofNat (resize 0 n.toNat hd.content).length
      casCommitted := false }
    (hd.truncate n)
    ⟨ho.ino, by show L.ModeView _ _ hd.buffered _; rw [hbuf]; exact .buffered _, rfl,
      by simpa [Handle.truncate] using hn, rfl, ho.last.trans hlast.symm⟩ hle hi
  refine ⟨s₁, ?_, h₁⟩
  rw [truncateBuffered, Prog.bind_ok (resizeVec_eq hn), hput]

theorem wp_streamBase (hB : L.Reliable) {o : OpenFileState B} {hd : Handle}
    (ho : L.HandleView s.store.io o hd) {state : B.State} (hst : L.backed s.store.io state)
    (hcontent : L.content state = hd.content) :
    wp L.growthFs (streamBase o state) (fun r s' => r = .ok hd.content ∧
      ∃ io, L.le s.store.io io ∧ s' = { s with store := { s.store with io := io } }) s := by
  unfold streamBase
  by_cases hne : hd.content = []
  · rw [if_pos ((byteCount_eq_zero_iff ho).mpr hne), hne]
    exact wp_pure fun _ => ⟨rfl, _, L.le_refl _, rfl⟩
  · rw [if_neg (fun hz => hne ((byteCount_eq_zero_iff ho).mp hz)), ← hcontent]
    exact wp_streamedContent hB hst

theorem wp_truncateStreaming (hB : L.Reliable) (h : L.Views s f) {fh : UInt64}
    {o : OpenFileState B} {hd : Handle} (hfh : f.handles[fh]? = some hd)
    (ho : L.HandleView s.store.io o hd) (hbuf : hd.buffered = false) {state : B.State}
    (hst : L.backed s.store.io state) (hcontent : L.content state = hd.content) {n : UInt64}
    (hn : n.toNat ≤ isizeMax) :
    wp L.growthFs (truncateStreaming fh o state n)
      (fun r s' => r = .ok () ∧ L.Views s' { f with
        core := f.core.drop hd.last, handles := f.handles.insert fh (hd.truncate n) }) s := by
  obtain ⟨hle, hi⟩ := h.known fh hd hfh
  unfold truncateStreaming
  refine wp_bind ((wp_streamBase hB ho hst hcontent).mono ?_)
  rintro _ _ - ⟨rfl, io, hio, rfl⟩
  have h₀ := h.grow hio
  generalize hs₀ : ({ s with store := { s.store with io := io } } : Fs B) = s₀ at h₀
  refine wp_bind_of_eq (resizeVec_eq hn) ?_
  obtain ⟨fresh, w, hpush, hle', hfresh, hback⟩ := L.step_pushBytes_eq (ε := Errno) hB
    (resize 0 n.toNat hd.content) (L.backed_default (B.drop (B.new s₀.store.io)))
  rw [L.content_default, List.nil_append] at hfresh
  have hrun : onStore (onIo (B.withFsa (B.step (B.pushBytes B.stateDefault
      (resize 0 n.toNat hd.content))))) s₀ = ((.ok fresh, { s₀ with store :=
        { s₀.store with io := B.drop w } }) : Except (Fault Errno) _ × _) := by
    simp only [onStore, onIo, Blockset.withFsa, Prog.zoom, hpush]
  refine wp_bind_of_eq hrun ?_
  have h₁ := h₀.grow (L.le_trans (L.le_new _) hle')
  have hlast : (hd.truncate n).last = none := if_pos (.inr hbuf)
  have hmode := Blockset.Laws.ModeView.streaming hback
  rw [hfresh] at hmode
  obtain ⟨s₂, hput, -, h₂⟩ := putFile_views h₁ fh { o with
      writeMode := .streaming fresh (UInt64.ofNat (resize 0 n.toNat hd.content).length)
      byteCount := UInt64.ofNat (resize 0 n.toNat hd.content).length
      casCommitted := false
      lastCommittedRoot := none }
    (hd.truncate n)
    ⟨ho.ino, by show L.ModeView _ _ hd.buffered _; rw [hbuf]; exact hmode, rfl,
      by simpa [Handle.truncate] using hn, rfl, hlast.symm⟩ hle hi
  refine wp_bind_of_eq hput ?_
  obtain ⟨st, hdec, -, h₃⟩ := decrementIfSome_eq h₂ o.lastCommittedRoot
  refine wp_of_eq hdec fun _ => ⟨rfl, ?_⟩
  rw [ho.last] at h₃
  exact h₃

theorem wp_truncateHandle (hB : L.Reliable) (h : L.Views s f) {fh : UInt64}
    {o : OpenFileState B} {hd : Handle} (hfh : f.handles[fh]? = some hd)
    (ho : L.HandleView s.store.io o hd) {n : UInt64} (hn : n.toNat ≤ isizeMax) :
    wp L.growthFs (truncateHandle fh o n)
      (fun r s' => r = .ok () ∧ L.Views s' { f with
        core := if hd.Releases n then f.core.drop hd.last else f.core
        handles := f.handles.insert fh (hd.truncate n) }) s := by
  unfold truncateHandle
  by_cases hn0 : n = 0
  · rw [if_pos hn0, if_pos (.inl hn0), hn0]
    obtain ⟨s', hrun, h'⟩ := truncateToZero_eq h hfh ho
    exact wp_of_eq hrun fun _ => ⟨rfl, h'⟩
  · rw [if_neg hn0]
    have hmode := ho.mode
    generalize hbuf : hd.buffered = b at hmode
    generalize hcon : hd.content = c at hmode
    generalize hmode' : o.writeMode = mode at hmode
    cases hmode with
    | buffered =>
        rw [if_neg (by simp [Handle.Releases, hn0, hbuf])]
        obtain ⟨s', hrun, h'⟩ := truncateBuffered_eq h hfh ho hbuf hn0 hn
        rw [hcon] at hrun
        exact wp_of_eq hrun fun _ => ⟨rfl, h'⟩
    | streaming hst =>
        rw [if_pos (.inr hbuf)]
        exact wp_truncateStreaming hB h hfh ho hbuf hst hcon.symm hn

theorem wp_recordTruncation (hB : L.Reliable) (h : L.Views s f) (i n : UInt64) (now : Now) :
    wp L.growthFs (recordTruncation i n now)
      (fun r s' => r = f.commitResult i ∧
        L.Views s' { f with core := f.core.setSize i n now }) s :=
  wp_editInode hB h eio i (fun m => ({ m with size := n } : InodeMeta).setCtime now)
    fun _ => rfl

/-- Truncation through an open handle. -/
theorem wp_testSetattrSize_open (hB : L.Reliable) (h : L.Views s f) {fh : UInt64} {hd : Handle}
    (hfh : f.handles[fh]? = some hd) {n : UInt64} (hn : n.toNat ≤ isizeMax) (now : Now) :
    wp L.growthFs (testSetattrSize hd.ino (some fh) n now)
      (fun r s' => r = f.commitResult hd.ino ∧ L.Views s' (f.truncate fh hd n now)) s := by
  obtain ⟨o, hopen, ho⟩ := h.getFile_some hfh
  unfold testSetattrSize
  refine wp_bind_of_eq (Prog.read_apply _ _) ?_
  simp only [Option.bind_some, hopen, Option.map_some, Option.elim_some]
  refine wp_bind ((wp_truncateHandle hB h hfh ho hn).mono ?_)
  rintro _ s₁ - ⟨rfl, h₁⟩
  refine (wp_recordTruncation hB h₁ hd.ino n now).mono ?_
  rintro r s₂ - ⟨rfl, h₂⟩
  refine ⟨?_, h₂⟩
  unfold Files.commitResult
  split_ifs <;> rfl

theorem requireContent_eq (h : L.Views s f) (hc : L.NoCollision s.store.io) (i : UInt64) :
    requireContent ((f.core.content i).map L.digest) s =
      (.ok ((f.core.content i).getD []), s) := by
  cases hb : f.core.content i with
  | none => rfl
  | some b =>
      rw [Option.map_some, requireContent,
        Prog.bind_ok (fileStorageGet_eq hc (h.core.content i b hb).1)]
      rfl

theorem manifestOrEmpty_eq (digest : Bytes → Digest224) (c : Contents) (i : UInt64) :
    ∃ m, manifestOrEmpty (c.manifest digest i) s = (.ok m, s) ∧
      m.head? = (c.content i).map digest := by
  unfold Contents.manifest Contents.content
  rcases c.manifests[i]? with _ | _ | b
  · exact ⟨[], rfl, rfl⟩
  · exact ⟨[], rfl, rfl⟩
  · exact ⟨[digest b], rfl, rfl⟩

theorem setContent_eq (hB : L.Reliable) (h : L.Views s f) {i : UInt64} (hi : i < f.core.nextIno)
    {b : Bytes} (hb : b.length ≤ isizeMax) :
    ∃ s', setContent i b s = (.ok (), s') ∧ L.Views s' { f with
      core := if b = [] then f.core.setContent i none
        else (f.core.setContent i (some b)).increment (L.digest b) } := by
  unfold setContent
  by_cases hnil : b = []
  · rw [if_pos hnil, if_pos (List.isEmpty_iff.mpr hnil)]
    obtain ⟨st, hset, hcore⟩ := setManifest_eq (b := none) hB h.core hi (by simp)
    exact ⟨_, callStore_ok hset, h.store (le_of_run hset) hcore (UInt64.le_refl _)⟩
  · rw [if_neg hnil, if_neg (fun he => hnil (List.isEmpty_iff.mp he))]
    obtain ⟨io, hpush, hio, hstored⟩ := onIo_pushAll_eq (L := L) (ε := Errno) hB b s.store
    have h₁ := h.grow hio
    obtain ⟨st, hset, hcore⟩ := setManifest_eq (b := some b) hB h₁.core hi (by
      rintro x ⟨rfl⟩
      exact ⟨hstored, hb⟩)
    have h₂ := h₁.store (le_of_run hset) hcore (UInt64.le_refl _)
    obtain ⟨st', hinc, hcore', hio'⟩ := incrementRefcount_eq (ε := Errno) h₂.core (L.digest b)
    have h₃ := h₂.store (hio' ▸ L.le_refl _) hcore' (UInt64.le_refl _)
    refine ⟨_, ?_, h₃⟩
    refine (Prog.bind_ok (onStore_eq hpush)).trans ?_
    refine (Prog.bind_ok (callStore_ok hset)).trans ?_
    exact onStore_eq hinc

theorem wp_truncateCommitted (hB : L.Reliable) (h : L.Views s f) {i n : UInt64}
    (hi : i < f.core.nextIno) (hn : n.toNat ≤ isizeMax) :
    wp L.growthFs (truncateCommitted i n)
      (fun r s' => r = .ok () ∧
        L.Views s' { f with core := f.core.resizeContent L.digest i n }) s := by
  refine wp_of_good fun hc => ?_
  unfold truncateCommitted
  refine wp_bind_of_eq (attempt_getManifest_eq h hc i) ?_
  obtain ⟨m, hm, hhead⟩ := manifestOrEmpty_eq (s := s) L.digest f.core i
  refine wp_bind_of_eq hm ?_
  rw [hhead]
  refine wp_bind_of_eq (requireContent_eq h hc i) ?_
  obtain ⟨st, hdec, -, h₁⟩ := decrementIfSome_eq h ((f.core.content i).map L.digest)
  refine wp_bind_of_eq hdec (wp_bind_of_eq (resizeVec_eq hn) ?_)
  obtain ⟨s₂, hset, h₂⟩ := setContent_eq hB h₁ hi
    (b := resize 0 n.toNat ((f.core.content i).getD [])) (by simpa using hn)
  exact wp_of_eq hset fun _ => ⟨rfl, h₂⟩

/-- Truncation without an open handle. -/
theorem wp_testSetattrSize_closed (hB : L.Reliable) (h : L.Views s f) {i : UInt64}
    {fh : Option UInt64} (hfh : fh.bind (fun fh => f.handles[fh]?) = none)
    (hi : i < f.core.nextIno) {n : UInt64} (hn : n.toNat ≤ isizeMax) (now : Now) :
    wp L.growthFs (testSetattrSize i fh n now)
      (fun r s' => r = f.commitResult i ∧
        L.Views s' (f.truncateCommitted L.digest i n now)) s := by
  unfold testSetattrSize
  refine wp_bind_of_eq (Prog.read_apply _ _) ?_
  have hnone : (fh.bind fun fh => (s.openFiles[fh]?).map fun o => (fh, o)) = none := by
    cases fh with
    | none => rfl
    | some j => rw [Option.bind_some, h.getFile_none hfh, Option.map_none]
  rw [hnone, Option.elim_none]
  refine wp_bind ((wp_truncateCommitted hB h hi hn).mono ?_)
  rintro _ s₁ - ⟨rfl, h₁⟩
  refine (wp_recordTruncation hB h₁ i n now).mono ?_
  rintro r s₂ - ⟨rfl, h₂⟩
  refine ⟨?_, h₂⟩
  unfold Files.commitResult Contents.resizeContent
  dsimp only
  split_ifs <;> rfl

theorem wp_truncateHandle_panic (hB : L.Reliable) {fh : UInt64} {o : OpenFileState B}
    {hd : Handle} (ho : L.HandleView s.store.io o hd) {n : UInt64} (hn : isizeMax < n.toNat) :
    wp L.growthFs (truncateHandle fh o n) (fun r _ => r = .error .panic) s := by
  have hn0 : n ≠ 0 := by
    rintro rfl
    exact absurd hn (Nat.not_lt_zero _)
  unfold truncateHandle
  rw [if_neg hn0]
  have hmode := ho.mode
  generalize hcontent : hd.content = c at hmode
  generalize hbuf : hd.buffered = b at hmode
  generalize o.writeMode = mode at hmode ⊢
  cases hmode with
  | streaming hst =>
      refine wp_bind ((wp_streamBase hB ho hst hcontent.symm).mono ?_)
      rintro _ s₁ - ⟨rfl, -⟩
      exact wp_of_eq (Prog.bind_error (resizeVec_panic ho.length_le hn)) fun _ => rfl
  | buffered buf =>
      exact wp_of_eq (Prog.bind_error (resizeVec_panic (hcontent ▸ ho.length_le) hn)) fun _ => rfl

theorem wp_truncateCommitted_panic (h : L.Views s f) (i : UInt64) {n : UInt64}
    (hn : isizeMax < n.toNat) :
    wp L.growthFs (truncateCommitted i n) (fun r _ => r = .error .panic) s := by
  refine wp_of_good fun hc => ?_
  unfold truncateCommitted
  refine wp_bind_of_eq (attempt_getManifest_eq h hc i) ?_
  obtain ⟨m, hm, hhead⟩ := manifestOrEmpty_eq (s := s) L.digest f.core i
  refine wp_bind_of_eq hm ?_
  rw [hhead]
  refine wp_bind_of_eq (requireContent_eq h hc i) ?_
  obtain ⟨st, hdec, -, -⟩ := decrementIfSome_eq h ((f.core.content i).map L.digest)
  have hlen : ((f.core.content i).getD []).length ≤ isizeMax := by
    cases hb : f.core.content i with
    | none => exact Nat.zero_le _
    | some b => exact (h.core.content i b hb).2
  exact wp_bind_of_eq hdec (wp_of_eq (Prog.bind_error (resizeVec_panic hlen hn)) fun _ => rfl)

/-- No file is resized beyond the largest file. -/
theorem wp_testSetattrSize_panic (hB : L.Reliable) (h : L.Views s f) (i : UInt64)
    (fh : Option UInt64) {n : UInt64} (hn : isizeMax < n.toNat) (now : Now) :
    wp L.growthFs (testSetattrSize i fh n now) (fun r _ => r = .error .panic) s := by
  unfold testSetattrSize
  refine wp_bind_of_eq (Prog.read_apply _ _) (wp_bind ?_)
  cases hopen : fh.bind fun fh => (s.openFiles[fh]?).map fun o => (fh, o) with
  | none =>
      refine (wp_truncateCommitted_panic h i hn).mono ?_
      rintro _ _ - rfl
      rfl
  | some p =>
      obtain ⟨j, -, hj⟩ := Option.bind_eq_some_iff.mp hopen
      obtain ⟨o, ho, rfl⟩ := Option.map_eq_some_iff.mp hj
      obtain ⟨hd, -, hview⟩ := h.handle_some ho
      refine (wp_truncateHandle_panic hB hview hn).mono ?_
      rintro _ _ - rfl
      rfl

theorem Blockset.Laws.Views.nextFh_closed (h : L.Views s f) (hmax : f.nextFh ≠ u64Max) :
    f.handles[f.nextFh + 1]? = none := by
  cases hfh : f.handles[f.nextFh + 1]? with
  | none => rfl
  | some hd =>
      exact absurd (h.known _ hd hfh).1 (UInt64.not_le.mpr (lt_add_one_of_ne_u64Max hmax))

theorem allocateFh_eq (h : L.Views s f) (hmax : f.nextFh ≠ u64Max) :
    ∃ s', allocateFh s = (.ok (f.nextFh + 1), s') ∧ s'.store = s.store ∧
      L.Views s' { f with nextFh := f.nextFh + 1 } := by
  refine ⟨{ s with nextFh := f.nextFh + 1 }, ?_, rfl, ?_⟩
  · rw [allocateFh, ← h.nextFh]
    rw [← h.nextFh] at hmax
    exact Prog.assert_bind_of hmax _ _
  · exact ⟨h.core, h.handles, fun fh hd hfh => ⟨UInt64.le_trans (h.known fh hd hfh).1
      (UInt64.le_of_lt (lt_add_one_of_ne_u64Max hmax)), (h.known fh hd hfh).2⟩, rfl⟩

theorem allocateFh_panic (h : s.nextFh = u64Max) :
    allocateFh s = (.error .panic, { s with nextFh := s.nextFh + 1 }) := by
  have hassert : (Prog.assert (s.nextFh ≠ u64Max) : FsM B Unit) { s with nextFh := s.nextFh + 1 } =
      (.error .panic, { s with nextFh := s.nextFh + 1 }) := by
    rw [Prog.assert_apply, if_neg (by simp [h])]
  refine (Prog.bind_ok (Prog.read_apply _ _)).trans ?_
  refine (Prog.bind_ok (Prog.modify_apply _ _)).trans ?_
  exact Prog.bind_error hassert

theorem handleView_new (io : B.Io) (i : UInt64) : L.HandleView io (.new i) (.new i) := by
  have hdef := Blockset.Laws.ModeView.streaming (L.backed_default io)
  rw [L.content_default] at hdef
  exact ⟨rfl, hdef, rfl, Nat.zero_le _, rfl, rfl⟩

theorem insertHandle_eq (h : L.Views s f) (hmax : f.nextFh ≠ u64Max) {i : UInt64}
    (hi : i < f.core.nextIno) :
    ∃ s', insertHandle i s = (.ok (f.nextFh + 1), s') ∧ L.Views s' (f.insertHandle i) := by
  obtain ⟨s₁, halloc, -, h₁⟩ := allocateFh_eq h hmax
  obtain ⟨s₂, hput, -, h₂⟩ := putFile_views h₁ _ _ _ (handleView_new s₁.store.io i)
    (UInt64.le_refl (f.nextFh + 1)) hi
  refine ⟨s₂, ?_, h₂⟩
  rw [insertHandle, Prog.bind_ok halloc, Prog.bind_ok hput]
  rfl

theorem insertHandle_panic (h : s.nextFh = u64Max) (i : UInt64) :
    insertHandle i s = (.error .panic, { s with nextFh := s.nextFh + 1 }) :=
  Prog.bind_error (allocateFh_panic h)

theorem wp_truncateOnOpen (hB : L.Reliable) (h : L.Views s f) {fh i : UInt64}
    (hfh : f.handles[fh]? = some (.new i)) {flags : UInt32} (htr : flags &&& O_TRUNC ≠ 0)
    (now : Now) :
    wp L.growthFs (truncateOnOpen i fh flags now)
      (fun r s' => r = f.commitResult i ∧
        L.Views s' (if f.core.inodes[i]? = none then { f with handles := f.handles.erase fh }
          else f.truncate fh (.new i) 0 now)) s := by
  unfold truncateOnOpen
  rw [if_pos htr]
  refine wp_bind (wp_attempt ((wp_testSetattrSize_open hB h hfh (Nat.zero_le _) now).mono ?_))
  rintro r s₁ - ⟨rfl, h₁⟩
  unfold Files.commitResult
  have hino : (Handle.new i).ino = i := rfl
  rw [hino]
  cases hi : f.core.inodes[i]? with
  | none =>
      show wp L.growthFs (closeOnError fh (.error .eio)) _ s₁
      refine wp_of_eq rfl fun _ => ⟨rfl, ?_⟩
      have h₂ := h₁.remove fh
      have hcore : (f.truncate fh (.new i) 0 now).core = f.core := by
        simp [Files.truncate, Contents.setSize, Contents.modifyInode, Contents.drop, dropIfSome,
          Handle.new, Handle.Releases, hi]
      rw [hcore] at h₂
      simpa only [Files.truncate, erase_insert_self, if_true] using h₂
  | some m =>
      show wp L.growthFs (closeOnError fh (.ok ())) _ s₁
      exact wp_of_eq rfl fun _ => ⟨rfl, by simpa using h₁⟩

theorem wp_testOpen (hB : L.Reliable) (h : L.Views s f) (hmax : f.nextFh ≠ u64Max) {i : UInt64}
    (hi : i < f.core.nextIno) (flags : UInt32) (now : Now) :
    wp L.growthFs (testOpen i flags now)
      (fun r s' => r = f.openResult i flags ∧ L.Views s' (f.opened i flags now)) s := by
  obtain ⟨s₁, halloc, -, h₁⟩ := allocateFh_eq h hmax
  unfold testOpen Files.openResult Files.opened
  refine wp_bind_of_eq halloc ?_
  by_cases hw : isWriteOpen flags
  · obtain ⟨s₂, hput, -, h₂⟩ := putFile_views h₁ _ _ _ (handleView_new s₁.store.io i)
      (UInt64.le_refl (f.nextFh + 1)) hi
    simp only [not_true_eq_false, if_false, if_true, hw, true_and, decide_true]
    by_cases htr : flags &&& O_TRUNC = 0
    · simp only [htr, ne_eq, not_true_eq_false, false_and, if_false, if_true]
      have hkeep : truncateOnOpen i (f.nextFh + 1) flags now s₂ = (.ok (), s₂) := by
        rw [truncateOnOpen, if_neg (by simp [htr])]
        rfl
      exact wp_bind_of_eq hput (wp_bind_of_eq hkeep (wp_pure fun _ => ⟨rfl, h₂⟩))
    · have hnew : (f.insertHandle i).handles[f.nextFh + 1]? = some (.new i) := by
        simp [Files.insertHandle]
      refine wp_bind_of_eq hput (wp_bind ((wp_truncateOnOpen hB h₂ hnew htr now).mono ?_))
      rintro r s₃ - ⟨rfl, h₃⟩
      have hcore : ({ f with nextFh := f.nextFh + 1 }.put (f.nextFh + 1) (.new i) : Files) =
          f.insertHandle i := rfl
      rw [hcore] at h₃ ⊢
      simp only [ne_eq, htr, not_false_eq_true, true_and, if_false]
      unfold Files.commitResult
      have hsame : (f.insertHandle i).core = f.core := rfl
      rw [hsame] at h₃ ⊢
      cases hnode : f.core.inodes[i]? with
      | none =>
          rw [hnode] at h₃
          refine ⟨by simp, ?_⟩
          have herase := erase_of_getElem?_eq_none f.handles (h.nextFh_closed hmax)
          simpa [Files.insertHandle, erase_insert_self, herase] using h₃
      | some m =>
          rw [hnode] at h₃
          exact wp_pure fun _ => ⟨by simp, by simpa using h₃⟩
  · simp only [hw, if_false, not_false_eq_true, if_true, false_and, decide_false]
    exact wp_bind_of_eq rfl (wp_pure fun _ => ⟨rfl, h₁⟩)

theorem findWriter_rel (h : L.Views s f) (order : List UInt64) (i : UInt64) :
    Option.Rel (L.HandleView s.store.io) (findWriter order i s.openFiles)
      (f.findWriter order i) := by
  unfold SliceFs.findWriter Files.findWriter
  induction order with
  | nil => exact .none
  | cons fh order ih =>
      have hrel := h.handles fh
      simp only [List.filterMap_cons]
      generalize s.openFiles[fh]? = a at hrel ⊢
      generalize f.handles[fh]? = b at hrel ⊢
      cases hrel with
      | none => exact ih
      | @some o hd ho =>
          have hpos : 0 < o.byteCount ↔ hd.content ≠ [] := by
            rw [UInt64.pos_iff_ne_zero, ne_eq, byteCount_eq_zero_iff ho]
          simp only [List.find?_cons, ho.ino, hpos]
          split
          · exact .some ho
          · exact ih

theorem readManifest_eq (h : L.Views s f) (hc : L.NoCollision s.store.io) (i : UInt64) :
    readManifest i s = ((f.core.manifests[i]?).elim (.error (.err .eio)) (fun b => .ok (b.getD [])),
      s) := by
  have hget := getManifest_eq h.core hc i
  unfold readManifest
  cases hm : f.core.manifests[i]? with
  | none =>
      rw [Contents.getManifest, hm] at hget
      exact Prog.bind_error (callStore_error hget)
  | some b =>
      rw [Contents.getManifest, hm] at hget
      refine (Prog.bind_ok (callStore_ok hget)).trans ?_
      have hreq := requireContent_eq h hc i
      rw [Contents.content, hm] at hreq
      cases b <;> exact hreq

theorem wp_readContent (hB : L.Reliable) (h : L.Views s f) (order : List UInt64) (i : UInt64) :
    wp L.growthFs (readContent i ((findWriter order i s.openFiles).map OpenFileState.writeMode))
      (fun r s' => r = f.readContent order i ∧ L.Views s' f) s := by
  have hrel := findWriter_rel h order i
  unfold Files.readContent
  generalize findWriter order i s.openFiles = a at hrel ⊢
  generalize f.findWriter order i = b at hrel ⊢
  cases hrel with
  | none => exact wp_of_good fun hc => wp_of_eq (readManifest_eq h hc i) fun _ => ⟨rfl, h⟩
  | @some o hd ho =>
      have hmode := ho.mode
      rw [Option.map_some]
      dsimp only
      generalize hd.buffered = b at hmode
      generalize hd.content = c at hmode ⊢
      generalize o.writeMode = mode at hmode ⊢
      cases hmode with
      | buffered => exact wp_pure fun _ => ⟨rfl, h⟩
      | streaming hst =>
          refine wp_bind ((wp_materialize hB hst).mono ?_)
          rintro _ _ - ⟨rfl, io, hio, rfl⟩
          exact wp_pure fun _ => ⟨rfl, h.grow hio⟩

/-- A read returns the bytes in range of the content it works on. -/
theorem wp_testRead (hB : L.Reliable) (h : L.Views s f) (order : List UInt64) (i offset : UInt64)
    (size : UInt32) :
    wp L.growthFs (testRead order i offset size)
      (fun r s' => r = (f.readContent order i).map
        (fun b => (b.drop offset.toNat).take size.toNat) ∧ L.Views s' f) s := by
  unfold testRead
  refine wp_bind_of_eq (Prog.read_apply _ _) ?_
  refine wp_bind ((wp_readContent hB h order i).mono ?_)
  rintro r s' - ⟨rfl, h'⟩
  cases f.readContent order i with
  | error e => exact ⟨rfl, h'⟩
  | ok b => exact wp_pure fun _ => ⟨congrArg Except.ok (slice_clamp _ _ _), h'⟩

end

end SliceFs
