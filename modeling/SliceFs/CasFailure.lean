import SliceFs.NodeWrites
import SliceFs.OpenTable

/-!
# Writes when the backend fails

Only a write at the expected offset of a stream asks the writer for errors. When it reports
one, the accumulator has taken the bytes and the offset has not moved, so a second attempt
puts them there once more. No other call asks: a commit of the content returns without an
error also when a file of the content was not written. Which of the failed writes matter is
said by the files: those that no other write of the same file made good.
-/
namespace SliceFs
open TreeMaps ProgramLogic ByteFile

section Store
variable {B : Blockset} {ε α : Type}

instance neverFails_onStore {m : Prog (Store B) ε α} [h : NeverFails m] : NeverFails (onStore m) :=
  ⟨fun s e => h.ne_error s.store e⟩

instance neverFails_fileStorageGet (d : Digest224) :
    NeverFails (fileStorageGet d : FsM B (Option Bytes)) := by
  unfold fileStorageGet Blockset.get
  infer_instance

instance neverFails_blockContent (d : Option Digest224) :
    NeverFails (blockContent d : FsM B Bytes) := by
  cases d <;> unfold blockContent <;> infer_instance

instance neverFails_decrementIfSome (d : Option Digest224) :
    NeverFails (decrementIfSome d : FsM B Unit) := by
  cases d
  · exact neverFails_pure ()
  · unfold decrementIfSome decrementRefcount modifyMaps
    infer_instance

instance neverFails_fallbackWrite (fh : UInt64) (f : OpenFileState B) (state : B.State)
    (offset : UInt64) (data : Bytes) : NeverFails (fallbackWrite fh f state offset data) := by
  unfold fallbackWrite fallbackBase streamedContent materialize Blockset.finish committedContent
    writeInto putFile
  infer_instance

instance neverFails_bufferedWrite (fh : UInt64) (f : OpenFileState B) (buf : Bytes)
    (offset : UInt64) (data : Bytes) : NeverFails (bufferedWrite fh f buf offset data) := by
  unfold bufferedWrite writeInto putFile
  infer_instance

end Store

section Retry
variable {B : Blockset} {L : B.Laws} {s s' : Fs B} {o : OpenFileState B} {fh offset : UInt64}
  {data : Bytes} {state : B.State} {next : UInt64}

/-- The accumulator after a write was pushed into it. -/
def pushedState (s : Fs B) (state : B.State) (data : Bytes) : B.State :=
  (B.pushBytes state data (B.new s.store.io)).1

/-- A write is what its handle does. -/
theorem testWrite_eq (ho : s.openFiles[fh]? = some o) : testWrite fh offset data s =
    (do writeHandle fh offset data o; pure (UInt32.ofNat data.length) : FsM B UInt32) s := by
  have hfile : Prog.ofOption (some o) Errno.ebadf s = (.ok o, s) := rfl
  rw [testWrite, Prog.bind_ok (getFile_eq ho), Prog.bind_ok hfile]

/-- The state after it, before the handle is updated. -/
def pushedFs (s : Fs B) (state : B.State) (data : Bytes) : Fs B :=
  { s with store := { s.store with
    io := B.drop (B.takeIoError (B.pushBytes state data (B.new s.store.io)).2).2 } }

/-- A write at the expected offset, by what the writer reports. -/
theorem sequentialWrite_cases (fh : UInt64) (o : OpenFileState B) (state : B.State) (next : UInt64)
    (data : Bytes) (s : Fs B) :
    sequentialWrite fh o state next data s =
      (.error (.err .eio), { pushedFs s state data with openFiles := (s.openFiles.insert fh
        { o with writeMode := .streaming (pushedState s state data) next }) }) ∨
    sequentialWrite fh o state next data s = (.error .panic, pushedFs s state data) ∨
    sequentialWrite fh o state next data s =
      (.ok (), { pushedFs s state data with openFiles := (s.openFiles.insert fh { o with
        writeMode := .streaming (pushedState s state data) (next + UInt64.ofNat data.length)
        byteCount := o.byteCount + UInt64.ofNat data.length
        casCommitted := false }) }) := by
  have hpush : onStore (onIo (B.withFsa (pushChecked state data))) s =
      ((.ok (pushedState s state data,
          (B.takeIoError (B.pushBytes state data (B.new s.store.io)).2).1),
        pushedFs s state data) : Except (Fault Errno) _ × _) := rfl
  rw [sequentialWrite, Prog.bind_ok hpush]
  cases (B.takeIoError (B.pushBytes state data (B.new s.store.io)).2).1 with
  | true => exact .inl rfl
  | false =>
      rw [if_neg (by simp), advance]
      by_cases hnext : next.toNat + data.length < 2 ^ 64
      · rw [Prog.assert_bind_of hnext]
        by_cases hcount : o.byteCount.toNat + data.length < 2 ^ 64
        · rw [Prog.assert_bind_of hcount]
          exact .inr (.inr rfl)
        · exact .inr (.inl (Prog.assert_bind_of_not hcount _ _))
      · exact .inr (.inl (Prog.assert_bind_of_not hnext _ _))

/-- Only a write at the expected offset of a stream fails; the stream has the bytes then. -/
theorem testWrite_eq_error {e : Errno} (ho : s.openFiles[fh]? = some o)
    (h : testWrite fh offset data s = (.error (.err e), s')) :
    ∃ state, o.writeMode = .streaming state offset ∧
      s'.openFiles[fh]? =
        some { o with writeMode := .streaming (pushedState s state data) offset } := by
  rw [testWrite_eq ho] at h
  have hall : ∀ m : FsM B Unit, NeverFails m →
      (do m; pure (UInt32.ofNat data.length) : FsM B UInt32) s ≠ (.error (.err e), s') :=
    fun m _ hm => (neverFails_bind (f := fun _ => pure (UInt32.ofNat data.length))).ne_error s e
      (congrArg Prod.fst hm)
  unfold writeHandle at h
  cases hmode : o.writeMode with
  | buffered buf =>
      rw [hmode] at h
      exact absurd h (hall _ inferInstance)
  | streaming state next =>
      rw [hmode] at h
      by_cases hoff : offset = next
      · subst hoff
        refine ⟨state, rfl, ?_⟩
        simp only [ne_eq, not_true_eq_false, if_false] at h
        rcases sequentialWrite_cases fh o state offset data s with hrun | hrun | hrun
        · rw [Prog.bind_error hrun] at h
          obtain ⟨-, rfl⟩ := Prod.mk.inj h
          exact (getElem?_insert_ite _ _ _ _).trans (if_pos rfl)
        · rw [Prog.bind_error hrun] at h
          exact nomatch (Prod.mk.inj h).1
        · rw [Prog.bind_ok hrun] at h
          exact nomatch (Prod.mk.inj h).1
      · simp only [ne_eq, hoff, not_false_eq_true, if_true] at h
        exact absurd h (hall _ inferInstance)

/-- A write at the expected offset of a stream that succeeds. -/
theorem testWrite_eq_ok {r : UInt32} (ho : s.openFiles[fh]? = some o)
    (hmode : o.writeMode = .streaming state offset)
    (h : testWrite fh offset data s = (.ok r, s')) :
    s'.openFiles[fh]? = some { o with
      writeMode := .streaming (pushedState s state data) (offset + UInt64.ofNat data.length)
      byteCount := o.byteCount + UInt64.ofNat data.length
      casCommitted := false } := by
  rw [testWrite_eq ho, writeHandle, hmode] at h
  simp only [ne_eq, not_true_eq_false, if_false] at h
  rcases sequentialWrite_cases fh o state offset data s with hrun | hrun | hrun
  · rw [Prog.bind_error hrun] at h
    exact nomatch (Prod.mk.inj h).1
  · rw [Prog.bind_error hrun] at h
    exact nomatch (Prod.mk.inj h).1
  · rw [Prog.bind_ok hrun] at h
    obtain ⟨-, rfl⟩ := Prod.mk.inj h
    exact (getElem?_insert_ite _ _ _ _).trans (if_pos rfl)

/-- The digest of a content, computed whether or not the content could be stored. -/
theorem contentDigest_fst (L : B.Laws) (o : OpenFileState B) (s : Fs B) :
    (contentDigest o.writeMode s).1 = .ok (L.digest (L.contentOf o)) := by
  unfold contentDigest Blockset.Laws.contentOf
  cases o.writeMode with
  | streaming state next => exact congrArg Except.ok (L.digest_end state _)
  | buffered buf =>
      refine congrArg Except.ok ((L.digest_end _ _).trans ?_)
      rw [L.content_pushBytes, L.content_default, List.nil_append]

/-- A read that finds a handle returns bytes of its content, if the backend has the content. -/
theorem testRead_writer {order : List UInt64} {i : UInt64}
    (hwriter : findWriter order i s.openFiles = some o)
    (hget : ∀ io, L.le s.store.io io →
      B.fileStorageGet io (L.digest (L.contentOf o)) = some (L.contentOf o))
    (offset : UInt64) (size : UInt32) : (testRead order i offset size s).1 =
      .ok (((L.contentOf o).drop offset.toNat).take size.toNat) := by
  have hcontent : (readContent i (some o.writeMode) s).1 = .ok (L.contentOf o) := by
    unfold Blockset.Laws.contentOf at hget ⊢
    cases hmode : o.writeMode with
    | buffered buf => rfl
    | streaming state next =>
        rw [hmode] at hget
        have hdigest := contentDigest_fst L o s
        rw [hmode, Blockset.Laws.contentOf, hmode] at hdigest
        have hle := (growing_contentDigest (g := L.growthQuiet) (.streaming state next)).le_run s
        have hrun : onStore (onIo (B.withFsa (B.finish state))) s =
            ((.ok (L.digest (L.content state)), (contentDigest (.streaming state next) s).2) :
              Except (Fault Errno) _ × _) := Prod.ext hdigest rfl
        have hblob : fileStorageGet (L.digest (L.content state))
            (contentDigest (.streaming state next) s).2 =
            ((.ok (some (L.content state)), (contentDigest (.streaming state next) s).2) :
              Except (Fault Errno) _ × _) := by
          refine Prod.ext ?_ rfl
          exact congrArg Except.ok (hget _ hle.1)
        have hmaterialize : materialize state s =
            ((.ok (some (L.content state)), (contentDigest (.streaming state next) s).2) :
              Except (Fault Errno) _ × _) := by
          rw [materialize, Prog.bind_ok hrun, hblob]
        rw [readContent, Prog.bind_ok hmaterialize]
        rfl
  unfold testRead
  refine (congrArg Prod.fst (Prog.bind_ok (Prog.read_apply _ _))).trans ?_
  rw [hwriter]
  refine (congrArg Prod.fst (Prog.bind_ok (Prod.ext hcontent rfl))).trans ?_
  exact congrArg Except.ok (slice_clamp _ _ _)

/-- A backend grows and the manifest of an inode stays. -/
abbrev growthAside (k : Growth B.Io) (i : UInt64) : Growth (Store B) :=
  (k.comap Store.io).both (.fixed fun st => st.maps.manifestData[i]?)

section Aside
variable {k : Growth B.Io} {i : UInt64} {ε α : Type}

instance aside_onIo {m : Prog B.Io ε α} [h : Growing k m] : Growing (growthAside k i) (onIo m) :=
  ⟨fun st => ⟨h.le_run st.io, rfl⟩⟩

instance aside_refcounts (f : Map Digest224 UInt64 → Map Digest224 UInt64) :
    Growing (growthAside k i)
      (modifyMaps fun m => { m with refcounts := f m.refcounts } : Prog (Store B) ε Unit) :=
  growing_modify fun st => ⟨k.le_refl st.io, rfl⟩

instance aside_flushWal : Growing (growthAside k i) (flushWal : Prog (Store B) WalError Unit) := by
  refine ⟨fun st => ?_⟩
  unfold flushWal onWal
  split
  · exact (growthAside k i).le_refl st
  · exact ⟨k.le_refl st.io, rfl⟩

instance aside_decrementIfSome (d : Option Digest224) :
    Growing ((growthAside k i).comap Fs.store) (decrementIfSome d : FsM B Unit) := by
  cases d with
  | none => exact growing_pure ()
  | some d => exact growing_onStore (h := aside_refcounts fun counts => dropRefcount counts d)

variable [∀ b, Growing k (B.withFsa (B.step (B.pushAll b)) : Prog B.Io MetaError Digest224)]

instance aside_editInode (errno : MetaError → Errno) (j : UInt64)
    (change : InodeMeta → InodeMeta) :
    Growing ((growthAside k i).comap Fs.store) (editInode errno j change : FsM B Unit) := by
  have hmaps : ∀ (ino oldSize size : UInt64) (new : Digest224), Growing (growthAside k i)
      (modifyMaps fun m => { m.setInode ino new with
        logicalBytes :=
          if oldSize < size then m.logicalBytes + (size - oldSize)
          else saturatingSub m.logicalBytes (oldSize - size) } : StoreM B Unit) :=
    fun ino oldSize size new => growing_modify fun st => ⟨k.le_refl st.io, rfl⟩
  unfold editInode getInode updateInode loadSize loadInode internInode loadRecord Blockset.get
    readMaps
  infer_instance

end Aside

/-- The digest of a content becomes the manifest of an inode, whether or not it was stored. -/
theorem recordDigest_records (L : B.Laws) (i : UInt64) (old : Option Digest224) (d : Digest224)
    (s : Fs B) :
    ∃ s', recordDigest i old d s = (.ok (), s') ∧ s'.openFiles = s.openFiles ∧
      s'.store.maps.manifestData[i]? = some (L.digest (serializeManifest [d])) ∧
      s'.store.io = B.drop (B.pushAll (serializeManifest [d]) (B.new s.store.io)).2 := by
  have hmanifest : ∀ s : Fs B,
      (s.store.maps.manifestData.insert i
        (B.pushAll (serializeManifest [d]) (B.new s.store.io)).1)[i]? =
        some (L.digest (serializeManifest [d])) := by
    intro s
    rw [getElem?_insert_ite, if_pos rfl, L.digest_pushAll]
  unfold recordDigest
  cases old.filter fun d' => d' ≠ d with
  | none =>
      split_ifs
      · exact ⟨_, rfl, rfl, hmanifest s, rfl⟩
      · exact ⟨_, rfl, rfl, hmanifest s, rfl⟩
  | some d' =>
      split_ifs
      · exact ⟨_, rfl, rfl, hmanifest s, rfl⟩
      · exact ⟨_, rfl, rfl, hmanifest s, rfl⟩

/-- A handle that was written to and not committed since is committed by its release. -/
theorem testRelease_records {i : UInt64} {now : Now} (ho : s.openFiles[fh]? = some o)
    (hcount : o.byteCount ≠ 0) (hfresh : o.casCommitted = false)
    (h : testRelease i fh now s = (.ok (), s')) :
    s'.store.maps.manifestData[i]? = some (L.digest (L.manifestBytes (some (L.contentOf o)))) := by
  have hremove : (removeFile fh : FsM B Unit) s =
      (.ok (), { s with openFiles := s.openFiles.erase fh }) := rfl
  rw [testRelease, Prog.bind_ok (getFile_eq ho), Option.elim_some, releaseHandle,
    Prog.bind_ok hremove, if_neg hcount, releaseContent,
    Prog.bind_ok (Prod.ext (contentDigest_fst L o _) rfl),
    if_neg fun hc => by rw [hfresh] at hc; exact Bool.false_ne_true hc.2] at h
  obtain ⟨s₁, hrecord, -, hmanifest, -⟩ := recordDigest_records L i o.lastCommittedRoot
    (L.digest (L.contentOf o)) (contentDigest o.writeMode
      { s with openFiles := s.openFiles.erase fh }).2
  rw [Prog.bind_ok hrecord] at h
  have hpush : ∀ b, Growing (.fixed fun _ : B.Io => ())
      (B.withFsa (B.step (B.pushAll b)) : Prog B.Io MetaError Digest224) := fun _ => ⟨fun _ => rfl⟩
  have hsize : Growing ((growthAside (.fixed fun _ : B.Io => ()) i).comap Fs.store)
      (recordSize i o.byteCount now : FsM B Unit) := by
    unfold recordSize
    infer_instance
  have hkeep := (hsize.le_run s₁).2
  rw [h] at hkeep
  exact hkeep.trans hmanifest

theorem pwrite_nil {b : Bytes} {n : ℕ} (h : n ≤ b.length) : pwrite 0 b n [] = b := by
  rw [pwrite, if_neg (by simpa using h)]
  simp [splice]

/-- A write that failed and is issued again. The handle is left as it was, and has the bytes
once after the second attempt, exactly when there are no bytes; reads and a release go by
what the handle has. -/
theorem retried_write_iff {overflowChecks : Bool} {s₁ s₂ : Fs B} {r : UInt32}
    (hs : Mounted L overflowChecks s) (ho : s.openFiles[fh]? = some o)
    (hfail : testWrite fh offset data s = (.error (.err .eio), s₁))
    (hretry : testWrite fh offset data s₁ = (.ok r, s₂)) :
    ∃ o₁ o₂, s₁.openFiles[fh]? = some o₁ ∧ s₂.openFiles[fh]? = some o₂ ∧
      (L.contentOf o₁ = L.contentOf o ↔ data = []) ∧
      (L.contentOf o₂ = pwrite 0 (L.contentOf o) offset.toNat data ↔ data = []) ∧
      (∀ (order : List UInt64) (k : UInt64) (n : UInt32),
        findWriter order o₂.ino s₂.openFiles = some o₂ →
        (∀ io, L.le s₂.store.io io →
          B.fileStorageGet io (L.digest (L.contentOf o₂)) = some (L.contentOf o₂)) →
        (testRead order o₂.ino k n s₂).1 = .ok (((L.contentOf o₂).drop k.toNat).take n.toNat)) ∧
      ∀ (now : Now) (s₃ : Fs B), o₂.byteCount ≠ 0 → testRelease o₂.ino fh now s₂ = (.ok (), s₃) →
        s₃.store.maps.manifestData[o₂.ino]? =
          some (L.digest (L.manifestBytes (some (L.contentOf o₂)))) := by
  obtain ⟨state, hmode, ho₁⟩ := testWrite_eq_error ho hfail
  have ho₂ := testWrite_eq_ok ho₁ rfl hretry
  refine ⟨_, _, ho₁, ho₂, ?_, ?_, fun order k n hwriter hget => testRead_writer hwriter hget k n,
    fun now s₃ hcount hrun => testRelease_records ho₂ hcount rfl hrun⟩
  · simp only [Blockset.Laws.contentOf, hmode, pushedState, L.content_pushBytes]
    exact List.append_right_eq_self
  · have hle := hs.aligned fh o ho state offset hmode
    simp only [Blockset.Laws.contentOf, hmode, pushedState, L.content_pushBytes]
    constructor
    · intro hsame
      have hlen := congrArg List.length hsame
      rw [length_pwrite, List.length_append, List.length_append] at hlen
      exact List.eq_nil_of_length_eq_zero (by omega)
    · rintro rfl
      rw [List.append_nil, List.append_nil, pwrite_nil hle]

end Retry

section Runs

/-- A backend of which the sixteenth write fails. -/
def sixteenthFails : FaultyIo := ⟨List.replicate 15 false ++ [true], []⟩

def failingStore : Store faultyBlockset :=
  (Store.new faultyBlockset 0 0 sixteenthFails).1.toOption.get (by decide +kernel)

/-- A file was created and one byte was written; that took fifteen writes. -/
def failingFs : Fs faultyBlockset :=
  (runFsOps [.create 1 nameA 0o644 0 0 0, .write 1 0 [1]] (Fs.mount failingStore false)).get
    (by decide +kernel)

theorem mounted_failingFs : Mounted faultyLaws true failingFs := by
  have hnew : Store.new faultyBlockset 0 0 sixteenthFails = (.ok failingStore, _) :=
    Prog.eq_ok_of_isSome (by decide +kernel)
  exact (Mounted.start false (.new hnew)).runFsOps (Option.some_get _).symm

def failingHandle : OpenFileState faultyBlockset := (failingFs.openFiles[(1 : UInt64)]?).get
  (by decide +kernel)

/-- The states after the first and the second attempt at a write at the end. -/
def failedFs (data : Bytes) : Fs faultyBlockset := (testWrite 1 1 data failingFs).2

def retriedFs (data : Bytes) : Fs faultyBlockset := (testWrite 1 1 data (failedFs data)).2

theorem retried_write_iff_empty : ∃ o₁ o₂, (failedFs []).openFiles[(1 : UInt64)]? = some o₁ ∧
    (retriedFs []).openFiles[(1 : UInt64)]? = some o₂ ∧
    faultyLaws.contentOf o₁ = faultyLaws.contentOf failingHandle ∧
    faultyLaws.contentOf o₂ = pwrite 0 (faultyLaws.contentOf failingHandle) 1 [] := by
  have herror : (testWrite 1 1 [] failingFs).1 = .error (.err .eio) := by decide +kernel
  have hfail : testWrite 1 1 [] failingFs = (.error (.err .eio), failedFs []) := by
    rw [failedFs, ← herror]
  have hretry : testWrite 1 1 [] (failedFs []) = (.ok 0, retriedFs []) :=
    Prog.eq_ok_of_toOption (by decide +kernel)
  have hhandle : failingFs.openFiles[(1 : UInt64)]? = some failingHandle := (Option.some_get _).symm
  obtain ⟨o₁, o₂, ho₁, ho₂, hsame, honce, -⟩ :=
    retried_write_iff mounted_failingFs hhandle hfail hretry
  exact ⟨o₁, o₂, ho₁, ho₂, hsame.mpr rfl, honce.mpr rfl⟩

/-- The second attempt puts the byte there a second time, and reads and the release give it. -/
theorem retried_write_duplicates :
    Mounted faultyLaws true failingFs ∧
      (testWrite 1 1 [7] failingFs).1 = .error (.err .eio) ∧
      (testWrite 1 1 [7] (failedFs [7])).1 = .ok 1 ∧
      (testRead [1] 2 0 8 (retriedFs [7])).1 = .ok [1, 7, 7] ∧
      (testRelease 2 1 midnight (retriedFs [7])).2.committed 2 = some [1, 7, 7] := by
  refine ⟨mounted_failingFs, ?_, ?_, ?_, ?_⟩
  · decide +kernel
  · decide +kernel
  · decide +kernel
  · decide +kernel

end Runs

/-- The calls that commit the content of a handle. -/
inductive HandleCommit where
  | fsync (now : Now)
  | release (now : Now)

def HandleCommit.run {B : Blockset} (i fh : UInt64) : HandleCommit → FsM B Unit
  | fsync now => testFsync i fh now
  | release now => testRelease i fh now

section Tracks
variable {B : Blockset} {N : B.Nodes} {s s' : Fs B} {st st' : Store B} {o : OpenFileState B}
  {i fh : UInt64} {α : Type}

/-- Every file that pushes into the handle's stream took care of was tried. If the handle says
that it is committed, the digest it committed last is the manifest. -/
structure Blockset.Nodes.Keeps (N : B.Nodes) (i : UInt64) (st : Store B) (o : OpenFileState B) :
    Prop where
  tried : ∀ state next, o.writeMode = .streaming state next → N.inner state ⊆ N.tried st.io
  counted : o.casCommitted = true → o.byteCount ≠ 0
  recorded : o.casCommitted = true → ∀ d, o.lastCommittedRoot = some d →
    st.maps.manifestData[i]? = some (N.digest (serializeManifest [d])) ∧
      serializeManifest [d] ∈ N.attempted st.io

/-- The state has such a handle. -/
def Blockset.Nodes.Tracks (N : B.Nodes) (i fh : UInt64) (s : Fs B) : Prop :=
  ∃ o, s.openFiles[fh]? = some o ∧ N.Keeps i s.store o

namespace Blockset.Nodes

theorem Keeps.mono (h : N.Keeps i st o) (hle : (growthAside N.growth i).le st st') :
    N.Keeps i st' o where
  tried state next hmode := (h.tried state next hmode).trans hle.1
  counted := h.counted
  recorded hc d hd := by
    obtain ⟨hmanifest, hrecord⟩ := h.recorded hc d hd
    exact ⟨hle.2.trans hmanifest, hrecord.trans hle.1⟩

/-- A buffer that is not committed depends on no file. -/
theorem keeps_buffered {buf : Bytes} (hmode : o.writeMode = .buffered buf)
    (hc : o.casCommitted = false) (st : Store B) : N.Keeps i st o where
  tried state next h := by
    rw [hmode] at h
    cases h
  counted h := by
    rw [hc] at h
    cases h
  recorded h := by
    rw [hc] at h
    cases h

theorem keeps_streaming {state : B.State} {next : UInt64}
    (hmode : o.writeMode = .streaming state next) (hc : o.casCommitted = false)
    (htried : N.inner state ⊆ N.tried st.io) : N.Keeps i st o where
  tried state' next' h := by
    rw [hmode] at h
    cases h
    exact htried
  counted h := by
    rw [hc] at h
    cases h
  recorded h := by
    rw [hc] at h
    cases h

theorem keeps_default {next : UInt64} (hmode : o.writeMode = .streaming B.stateDefault next)
    (hc : o.casCommitted = false) (st : Store B) : N.Keeps i st o := by
  refine keeps_streaming hmode hc ?_
  rw [N.inner_default]
  exact Set.empty_subset _

theorem aside_pushedFs (i : UInt64) (s : Fs B) (state : B.State) (data : Bytes) :
    (growthAside N.growth i).le s.store (pushedFs s state data).store :=
  ⟨(N.given_new _).trans ((N.given_pushBytes _ _ _).trans
    ((N.given_takeIoError _).trans (N.tried_drop _))), rfl⟩

/-- What the push of a write leaves: the files of the accumulator were tried. -/
theorem tried_pushedState {state : B.State} (h : N.inner state ⊆ N.tried s.store.io)
    (data : Bytes) :
    N.inner (pushedState s state data) ⊆ N.tried (pushedFs s state data).store.io := by
  intro n hn
  rcases N.inner_pushBytes _ _ _ hn with hn | hn
  · exact (aside_pushedFs 0 s state data).1 (h hn)
  · exact N.tried_drop _ (N.given_takeIoError _ hn)

abbrev growthTracks (N : B.Nodes) (i fh : UInt64) : Growth (Fs B) := .keeps (N.Tracks i fh)

theorem tracks_putFile (hf : ∀ st, N.Keeps i st o) : Growing (N.growthTracks i fh) (putFile fh o) :=
  growing_modify fun s _ => ⟨o, (getElem?_insert_ite _ _ _ _).trans (if_pos rfl), hf s.store⟩

/-- A program that leaves the table and the manifest alone. -/
theorem Tracks.aside {m : FsM B α} [hm : Growing ((growthAside N.growth i).comap Fs.store) m]
    [ht : ∀ P, Growing (growthTable P) m] (h : N.Tracks i fh s) : N.Tracks i fh (m s).2 := by
  obtain ⟨o, ho, hkeeps⟩ := h
  have htable : (m s).2.openFiles = s.openFiles := (ht (· = s.openFiles)).le_run s rfl
  exact ⟨o, by rw [htable, ho], hkeeps.mono (hm.le_run s)⟩

instance tracks_aside {m : FsM B α} [Growing ((growthAside N.growth i).comap Fs.store) m]
    [∀ P, Growing (growthTable P) m] : Growing (N.growthTracks i fh) m :=
  ⟨fun _ h => h.aside⟩

end Blockset.Nodes

instance aside_fileStorageGet (d : Digest224) : Growing ((growthAside N.growth i).comap Fs.store)
    (fileStorageGet d : FsM B (Option Bytes)) := by
  unfold fileStorageGet
  infer_instance

instance aside_materialize (state : B.State) : Growing ((growthAside N.growth i).comap Fs.store)
    (materialize state : FsM B (Option Bytes)) := by
  unfold materialize
  infer_instance

instance aside_blockContent (d : Option Digest224) :
    Growing ((growthAside N.growth i).comap Fs.store)
    (blockContent d : FsM B Bytes) := by
  cases d <;> unfold blockContent <;> infer_instance

instance aside_requireContent (d : Option Digest224) :
    Growing ((growthAside N.growth i).comap Fs.store) (requireContent d : FsM B Bytes) := by
  cases d <;> unfold requireContent <;> infer_instance

instance aside_getManifest (j : UInt64) :
    Growing (growthAside N.growth i) (getManifest j : StoreM B (List Digest224)) := by
  unfold getManifest loadManifest loadRecord
  infer_instance

instance aside_readContent (j : UInt64) (mode : Option (WriteMode B)) :
    Growing ((growthAside N.growth i).comap Fs.store) (readContent j mode : FsM B Bytes) := by
  unfold readContent readManifest
  split <;> infer_instance

instance aside_fallbackBase (f : OpenFileState B) (state : B.State) :
    Growing ((growthAside N.growth i).comap Fs.store) (fallbackBase f state : FsM B Bytes) := by
  unfold fallbackBase streamedContent committedContent
  infer_instance

instance aside_contentDigest (mode : WriteMode B) :
    Growing ((growthAside N.growth i).comap Fs.store)
    (contentDigest mode : FsM B Digest224) := by
  unfold contentDigest pushContent pushBuffer
  cases mode <;> infer_instance

instance aside_testRead (order : List UInt64) (j offset : UInt64) (size : UInt32) :
    Growing ((growthAside N.growth i).comap Fs.store)
      (testRead order j offset size : FsM B Bytes) := by
  unfold testRead
  infer_instance

instance aside_writeInto (buf : Bytes) (offset : UInt64) (data : Bytes) :
    Growing ((growthAside N.growth i).comap Fs.store)
      (writeInto buf offset data : FsM B Bytes) := by
  unfold writeInto
  infer_instance

instance aside_resizeVec (buf : Bytes) (n : UInt64) :
    Growing ((growthAside N.growth i).comap Fs.store) (resizeVec buf n : FsM B Bytes) := by
  unfold resizeVec
  infer_instance

instance aside_streamBase (f : OpenFileState B) (state : B.State) :
    Growing ((growthAside N.growth i).comap Fs.store) (streamBase f state : FsM B Bytes) := by
  unfold streamBase streamedContent
  infer_instance

namespace Blockset.Nodes

/-- A stream that is started anew with a content. -/
theorem tracks_restream {content : Bytes} {next : UInt64} {f : B.State → OpenFileState B}
    (hmode : ∀ state, (f state).writeMode = .streaming state next)
    (hc : ∀ state, (f state).casCommitted = false) (d : Option Digest224) :
    Growing (N.growthTracks i fh) (do
      let fresh ← onStore (onIo (B.withFsa (B.step (B.pushBytes B.stateDefault content))))
      putFile fh (f fresh)
      decrementIfSome d : FsM B Unit) := by
  refine ⟨fun s _ => ?_⟩
  have htried : N.inner (B.pushBytes B.stateDefault content (B.new s.store.io)).1 ⊆
      N.tried (B.drop (B.pushBytes B.stateDefault content (B.new s.store.io)).2) := by
    intro n hn
    rcases N.inner_pushBytes _ _ _ hn with hn | hn
    · rw [N.inner_default] at hn
      exact hn.elim
    · exact N.tried_drop _ hn
  have hput : N.Tracks i fh ((onStore
      (onIo (B.withFsa (B.step (B.pushBytes B.stateDefault content))))
      >>= fun fresh => putFile fh (f fresh) : FsM B Unit) s).2 :=
    ⟨_, (getElem?_insert_ite _ _ _ _).trans (if_pos rfl), keeps_streaming (hmode _) (hc _) htried⟩
  exact Tracks.aside (m := decrementIfSome d) hput

/-- A write at the expected offset keeps the accumulator tried, also when it fails or panics. -/
theorem Keeps.sequentialWrite {state : B.State} {next : UInt64} (ho : s.openFiles[fh]? = some o)
    (h : N.Keeps i s.store o) (hmode : o.writeMode = .streaming state next) (data : Bytes) :
    N.Tracks i fh (sequentialWrite fh o state next data s).2 := by
  have htried := tried_pushedState (h.tried state next hmode) data
  have hpushed := h.mono (aside_pushedFs i s state data)
  rcases sequentialWrite_cases fh o state next data s with hrun | hrun | hrun
  · rw [hrun]
    refine ⟨_, (getElem?_insert_ite _ _ _ _).trans (if_pos rfl), ?_, hpushed.counted,
      hpushed.recorded⟩
    rintro _ _ ⟨⟩
    exact htried
  · rw [hrun]
    exact ⟨o, ho, hpushed⟩
  · rw [hrun]
    exact ⟨_, (getElem?_insert_ite _ _ _ _).trans (if_pos rfl), keeps_streaming rfl rfl htried⟩

theorem Tracks.testWrite (h : N.Tracks i fh s) (offset : UInt64) (data : Bytes) :
    N.Tracks i fh (testWrite fh offset data s).2 := by
  obtain ⟨o, ho, hkeeps⟩ := h
  have hhandle : N.Tracks i fh (writeHandle fh offset data o s).2 := by
    unfold writeHandle
    cases hmode : o.writeMode with
    | streaming state next =>
        by_cases hoff : offset ≠ next
        · have hput : ∀ buf : Bytes, Growing (N.growthTracks i fh) (putFile fh { o with
              writeMode := .buffered buf
              byteCount := UInt64.ofNat buf.length
              casCommitted := false
              lastCommittedRoot := none }) := fun buf => tracks_putFile (keeps_buffered rfl rfl)
          have hfallback : Growing (N.growthTracks i fh)
              (fallbackWrite fh o state offset data) := by
            unfold fallbackWrite
            infer_instance
          simp only [if_pos hoff]
          exact hfallback.le_run s ⟨o, ho, hkeeps⟩
        · simp only [if_neg hoff]
          exact hkeeps.sequentialWrite ho hmode data
    | buffered buf =>
        have hput : ∀ buf : Bytes, Growing (N.growthTracks i fh) (putFile fh { o with
            writeMode := .buffered buf
            byteCount := UInt64.ofNat buf.length
            casCommitted := false }) := fun buf => tracks_putFile (keeps_buffered rfl rfl)
        have hbuffered : Growing (N.growthTracks i fh) (bufferedWrite fh o buf offset data) := by
          unfold bufferedWrite
          infer_instance
        exact hbuffered.le_run s ⟨o, ho, hkeeps⟩
  rw [testWrite_eq ho]
  exact Growing.le_bind (g := N.growthTracks i fh) _ _ s hhandle

theorem Tracks.testSetattrSize (h : N.Tracks i fh s) (size : UInt64) (now : Now) :
    N.Tracks i fh (testSetattrSize i (some fh) size now s).2 := by
  obtain ⟨o, ho, hkeeps⟩ := h
  have hhandle : Growing (N.growthTracks i fh) (truncateHandle fh o size) := by
    unfold truncateHandle truncateToZero truncateBuffered truncateStreaming
    split_ifs
    · have hput : Growing (N.growthTracks i fh) (putFile fh { o with
          writeMode := o.writeMode.cleared
          byteCount := 0
          casCommitted := false
          lastCommittedRoot := none }) := by
        refine tracks_putFile fun st => ?_
        cases hmode : o.writeMode with
        | streaming state next => exact keeps_default rfl rfl st
        | buffered buf => exact keeps_buffered rfl rfl st
      infer_instance
    · split
      · have hput : ∀ buf : Bytes, Growing (N.growthTracks i fh) (putFile fh { o with
            writeMode := .buffered buf
            byteCount := UInt64.ofNat buf.length
            casCommitted := false }) := fun buf => tracks_putFile (keeps_buffered rfl rfl)
        infer_instance
      · have hpush : ∀ content : Bytes, Growing (N.growthTracks i fh) (do
            let fresh ← onStore (onIo (B.withFsa (B.step (B.pushBytes B.stateDefault content))))
            putFile fh { o with
              writeMode := .streaming fresh (UInt64.ofNat content.length)
              byteCount := UInt64.ofNat content.length
              casCommitted := false
              lastCommittedRoot := none }
            decrementIfSome o.lastCommittedRoot : FsM B Unit) :=
          fun content => tracks_restream (fun _ => rfl) (fun _ => rfl) _
        infer_instance
  have hfile : Prog.read (fun s : Fs B => (some fh).bind fun fh =>
      (s.openFiles[fh]?).map fun f => (fh, f)) s =
        ((.ok (some (fh, o)), s) : Except (Fault Errno) _ × _) := by
    rw [Prog.read_apply, Option.bind_some, ho]
    rfl
  rw [SliceFs.testSetattrSize, Prog.bind_ok hfile, Option.elim_some]
  have hsize : Growing (N.growthTracks i fh)
      (truncateHandle fh o size >>= fun _ => recordTruncation i size now) := by
    unfold recordTruncation
    infer_instance
  exact hsize.le_run s ⟨o, ho, hkeeps⟩

/-- The manifest of an inode is that of a content, and both were to be stored. -/
structure Recorded (N : B.Nodes) (i : UInt64) (b : Bytes) (st : Store B) : Prop where
  manifest : st.maps.manifestData[i]? = some (N.digest (N.laws.manifestBytes (some b)))
  content : b ∈ N.attempted st.io
  record : N.laws.manifestBytes (some b) ∈ N.attempted st.io

theorem Recorded.mono {b : Bytes} (h : N.Recorded i b st)
    (hle : (growthAside N.growth i).le st st') : N.Recorded i b st' :=
  ⟨hle.2.trans h.manifest, h.content.trans hle.1, h.record.trans hle.1⟩

/-- The digest of a handle's content is computed, so the content was to be stored. -/
theorem Keeps.attempted_contentDigest (h : N.Keeps i s.store o) :
    N.laws.contentOf o ∈ N.attempted (contentDigest o.writeMode s).2.store.io := by
  unfold contentDigest Blockset.Laws.contentOf
  cases hmode : o.writeMode with
  | streaming state next =>
      intro n hn
      rcases N.nodes_end state (B.new s.store.io) hn with hn | hn
      · have htried := h.tried state next hmode hn
        exact N.tried_drop _ (N.given_fsaEnd _ _ (N.given_stateEnd _ _ (N.given_new _ htried)))
      · exact N.tried_drop _ hn
  | buffered buf =>
      intro n hn
      have hcontent : N.content (B.pushBytes B.stateDefault buf (B.new s.store.io)).1 = buf := by
        rw [N.content_pushBytes, N.content_default, List.nil_append]
      have hn' : n ∈ N.nodes (N.content (B.pushBytes B.stateDefault buf (B.new s.store.io)).1) := by
        rwa [hcontent]
      rcases N.nodes_end _ (B.pushBytes B.stateDefault buf (B.new s.store.io)).2 hn' with hn | hn
      · rcases N.inner_pushBytes _ _ _ hn with hn | hn
        · rw [N.inner_default] at hn
          exact hn.elim
        · exact N.tried_drop _ (N.given_fsaEnd _ _ (N.given_stateEnd _ _ hn))
      · exact N.tried_drop _ hn

theorem contentDigest_run (N : B.Nodes) (o : OpenFileState B) (s : Fs B) :
    contentDigest o.writeMode s =
    (.ok (N.digest (N.laws.contentOf o)), (contentDigest o.writeMode s).2) :=
  Prod.ext (contentDigest_fst N.laws o s) rfl

/-- What a commit of a digest leaves. -/
theorem recordDigest_attempted (N : B.Nodes) (i : UInt64) (old : Option Digest224) (d : Digest224)
    (s : Fs B) : ∃ s', recordDigest i old d s = (.ok (), s') ∧ s'.openFiles = s.openFiles ∧
      s'.store.maps.manifestData[i]? = some (N.digest (serializeManifest [d])) ∧
      serializeManifest [d] ∈ N.attempted s'.store.io ∧
      N.tried s.store.io ⊆ N.tried s'.store.io := by
  obtain ⟨s', hrun, htable, hmanifest, hio⟩ := recordDigest_records N.laws i old d s
  refine ⟨s', hrun, htable, hmanifest, ?_, ?_⟩
  · rw [hio]
    exact (N.nodes_pushAll _ _).trans (N.tried_drop _)
  · rw [hio]
    exact (N.given_new _).trans ((N.given_pushAll _ _).trans (N.tried_drop _))

instance aside_recordSize (j size : UInt64) (now : Now) :
    Growing ((growthAside N.growth i).comap Fs.store) (recordSize j size now : FsM B Unit) := by
  unfold recordSize
  infer_instance

instance table_recordSize {P : Map UInt64 (OpenFileState B) → Prop} (j size : UInt64) (now : Now) :
    Growing (growthTable P) (recordSize j size now : FsM B Unit) := by
  unfold recordSize
  infer_instance

/-- A flush of a handle with bytes commits its content, however the flush ends. -/
theorem Keeps.flushHandle (h : N.Keeps i s.store o) (hcount : o.byteCount ≠ 0) (now : Now) :
    N.Tracks i fh (flushHandle i fh now o s).2 ∧
      N.Recorded i (N.laws.contentOf o) (flushHandle i fh now o s).2.store := by
  have hput : putFile fh { o with casCommitted := true } s = ((.ok (), { s with
      openFiles := s.openFiles.insert fh { o with casCommitted := true } }) :
        Except (Fault Errno) _ × _) := rfl
  rw [SliceFs.flushHandle, if_neg hcount, Prog.bind_ok hput,
    Prog.bind_ok (contentDigest_run N o _)]
  generalize hs₁ : ({ s with
    openFiles := s.openFiles.insert fh { o with casCommitted := true } } : Fs B) = s₁
  have hkeeps : N.Keeps i s₁.store o := by
    rw [← hs₁]
    exact h
  have hdigest := (aside_contentDigest (N := N) (i := i) o.writeMode).le_run s₁
  have hcontent := hkeeps.attempted_contentDigest
  obtain ⟨s₃, hrecord, -, hmanifest, hattempted, htried⟩ := recordDigest_attempted N i
    o.lastCommittedRoot (N.digest (N.laws.contentOf o)) (contentDigest o.writeMode s₁).2
  rw [Prog.bind_ok hrecord]
  refine ⟨?_, ?_⟩
  · refine Growing.le_run (g := N.growthTracks i fh) (m := recordSize i o.byteCount now) _
      ⟨_, (getElem?_insert_ite _ _ _ _).trans (if_pos rfl), ?_, fun _ => hcount, ?_⟩
    · intro state next hmode
      exact (hkeeps.tried state next hmode).trans (hdigest.1.trans htried)
    · rintro - d ⟨⟩
      exact ⟨hmanifest, hattempted⟩
  · have hsize := (aside_recordSize (N := N) (i := i) i o.byteCount now).le_run { s₃ with
      openFiles := (s₃.openFiles.insert fh { o with
        casCommitted := true, lastCommittedRoot := some (N.digest (N.laws.contentOf o)) }) }
    exact Recorded.mono ⟨hmanifest, hcontent.trans htried, hattempted⟩ hsize

theorem Tracks.flushBufferForFsync (h : N.Tracks i fh s) (now : Now) :
    N.Tracks i fh (flushBufferForFsync i fh now s).2 := by
  obtain ⟨o, ho, hkeeps⟩ := h
  rw [SliceFs.flushBufferForFsync, Prog.bind_ok (getFile_eq ho), Option.elim_some]
  by_cases hcount : o.byteCount = 0
  · rw [SliceFs.flushHandle, if_pos hcount]
    exact ⟨o, ho, hkeeps⟩
  · exact (hkeeps.flushHandle hcount now).1

theorem Tracks.testFsync (h : N.Tracks i fh s) (now : Now) :
    N.Tracks i fh (testFsync i fh now s).2 :=
  Growing.le_bind (g := N.growthTracks i fh) _ _ s (h.flushBufferForFsync now)

instance table_testRead {P : Map UInt64 (OpenFileState B) → Prop} (order : List UInt64)
    (j offset : UInt64) (size : UInt32) :
    Growing (growthTable P) (testRead order j offset size : FsM B Bytes) := by
  unfold testRead
  infer_instance

/-- One call through the handle, however it ends. -/
theorem Tracks.next (h : N.Tracks i fh s) (op : HandleOp) : N.Tracks i fh (op.next i fh s) := by
  cases op with
  | write offset data => exact h.testWrite offset data
  | truncate size now => exact h.testSetattrSize size now
  | flush now => exact h.flushBufferForFsync now
  | fsync now => exact h.testFsync now
  | read order offset size => exact h.aside (m := testRead order i offset size)

theorem Tracks.runHandle (h : N.Tracks i fh s) (ops : List HandleOp) :
    N.Tracks i fh (runHandle i fh ops s) := by
  induction ops generalizing s with
  | nil => exact h
  | cons op ops ih => exact ih (h.next op)

/-- The release of a handle with bytes commits its content, unless that was done before. -/
theorem Keeps.releaseContent (h : N.Keeps i s.store o) (now : Now) :
    N.Recorded i (N.laws.contentOf o) (releaseContent i o now s).2.store := by
  have hdigest := (aside_contentDigest (N := N) (i := i) o.writeMode).le_run s
  have hcontent := h.attempted_contentDigest
  rw [SliceFs.releaseContent, Prog.bind_ok (contentDigest_run N o s)]
  split_ifs with hskip
  · obtain ⟨hmanifest, hrecord⟩ := (h.mono hdigest).recorded hskip.2 _ hskip.1
    exact ⟨hmanifest, hcontent, hrecord⟩
  · obtain ⟨s₂, hrun, -, hmanifest, hrecord, htried⟩ := recordDigest_attempted N i
      o.lastCommittedRoot (N.digest (N.laws.contentOf o)) (contentDigest o.writeMode s).2
    rw [Prog.bind_ok hrun]
    exact Recorded.mono ⟨hmanifest, hcontent.trans htried, hrecord⟩
      ((aside_recordSize i o.byteCount now).le_run s₂)

/-- A commit of a handle with bytes. -/
theorem Keeps.commit (h : N.Keeps i s.store o) (ho : s.openFiles[fh]? = some o)
    (hcount : o.byteCount ≠ 0) (call : HandleCommit) :
    N.Recorded i (N.laws.contentOf o) (call.run i fh s).2.store := by
  cases call with
  | fsync now =>
      have hflush : N.Recorded i (N.laws.contentOf o) (flushBufferForFsync i fh now s).2.store := by
        rw [SliceFs.flushBufferForFsync, Prog.bind_ok (getFile_eq ho), Option.elim_some]
        exact (h.flushHandle hcount now).2
      exact hflush.mono (Growing.le_bind (g := (growthAside N.growth i).comap Fs.store) _ _ s)
  | release now =>
      have hremove : (removeFile fh : FsM B Unit) s =
          (.ok (), { s with openFiles := s.openFiles.erase fh }) := rfl
      rw [HandleCommit.run, testRelease, Prog.bind_ok (getFile_eq ho), Option.elim_some,
        releaseHandle, Prog.bind_ok hremove, if_neg hcount]
      exact Keeps.releaseContent (s := { s with openFiles := s.openFiles.erase fh }) h now

end Blockset.Nodes

end Tracks

section Resolves
variable {B : Blockset} {N : B.Nodes} {s s' : Fs B} {i fh : UInt64} {b : Bytes}

/-- The manifest of an inode, if there is one, leads to a content. -/
def Fs.Resolves (s : Fs B) (i : UInt64) (b : Bytes) : Prop :=
  ∀ d, s.store.maps.manifestData[i]? = some d → s.committed i = some b

/-- The manifest that a backend has under a digest. -/
def manifestAt (io : B.Io) (d : Digest224) : Option (List Digest224) :=
  (B.fileStorageGet io d).bind fun bytes => (deserializeManifest bytes).toOption

/-- The manifest of an inode as far as it can be read. -/
def Fs.manifest? (s : Fs B) (i : UInt64) : Option (List Digest224) :=
  (s.store.maps.manifestData[i]?).bind (manifestAt s.store.io)

theorem loadManifest_toOption (io : B.Io) (d : Digest224) :
    (loadManifest B d io).1.toOption = manifestAt io d ∧ (loadManifest B d io).2 = io := by
  have hget : (B.get d : Prog B.Io MetaError _) io = (.ok (B.fileStorageGet io d), io) := rfl
  rw [loadManifest, loadRecord, Prog.bind_ok hget, manifestAt]
  cases B.fileStorageGet io d with
  | none => exact ⟨rfl, rfl⟩
  | some bytes =>
      refine ⟨?_, rfl⟩
      show ((deserializeManifest bytes).mapError Fault.err).toOption =
          (deserializeManifest bytes).toOption
      cases deserializeManifest bytes <;> rfl

theorem getManifest_toOption (s : Fs B) (i : UInt64) :
    (getManifest i s.store).1.toOption = s.manifest? i ∧ (getManifest i s.store).2 = s.store := by
  have hread : (readMaps (fun m => m.manifestData[i]?) : StoreM B _) s.store =
      (.ok s.store.maps.manifestData[i]?, s.store) := rfl
  rw [getManifest, Prog.bind_ok hread, Fs.manifest?]
  cases s.store.maps.manifestData[i]? with
  | none => exact ⟨rfl, rfl⟩
  | some d =>
      obtain ⟨hresult, hio⟩ := loadManifest_toOption s.store.io d
      exact ⟨hresult, congrArg (fun io => { s.store with io := io }) hio⟩

theorem requireContent_toOption (s : Fs B) (d : Option Digest224) :
    (requireContent d s).1.toOption = d.elim (some []) (B.fileStorageGet s.store.io) := by
  cases d with
  | none => rfl
  | some d =>
      have hget : fileStorageGet d s =
          ((.ok (B.fileStorageGet s.store.io d), s) : Except (Fault Errno) _ × _) := rfl
      rw [requireContent, Prog.bind_ok hget, Option.elim_some]
      cases B.fileStorageGet s.store.io d <;> rfl

theorem Fs.committed_eq (s : Fs B) (i : UInt64) : s.committed i =
    (s.manifest? i).bind fun m => m.head?.elim (some []) (B.fileStorageGet s.store.io) := by
  obtain ⟨hresult, hstate⟩ := getManifest_toOption s i
  have hstore : (onStore (getManifest i) s : Except (Fault MetaError) _ × Fs B) =
      ((getManifest i s.store).1, s) :=
    Prod.ext rfl (congrArg (fun st => { s with store := st }) hstate)
  rw [← hresult, Fs.committed, readManifest, callStore]
  cases hm : (getManifest i s.store).1 with
  | error e =>
      rw [hm] at hstore
      have hcall : Prog.mapErr eio (onStore (getManifest i)) s = (.error (e.map eio), s) := by
        rw [Prog.mapErr, hstore]
      rw [Prog.bind_error hcall]
      rfl
  | ok m =>
      rw [hm] at hstore
      rw [Prog.bind_ok (Prog.mapErr_ok eio hstore)]
      exact requireContent_toOption s m.head?

/-- The content that a manifest of an inode in the backend leads to. -/
theorem Fs.committed_of_manifest {blocks : List Digest224} {s : Fs B}
    (hd : s.store.maps.manifestData[i]? = some (N.digest (serializeManifest blocks)))
    (hc : Set.InjOn N.digest (N.attempted s.store.io))
    (hrecord : serializeManifest blocks ∈ N.attempted s.store.io) (b : Bytes) :
    s.Resolves i b ↔ N.MadeGood s.store.io (serializeManifest blocks) ∧
      blocks.head?.elim (some []) (B.fileStorageGet s.store.io) = some b := by
  have hresolves : s.Resolves i b ↔ s.committed i = some b :=
    ⟨fun h => h _ hd, fun h _ _ => h⟩
  rw [hresolves, s.committed_eq, Fs.manifest?, hd, Option.bind_some, manifestAt]
  have hget := fun c => N.get_digest_iff (c := c) hc hrecord
  cases hbytes : B.fileStorageGet s.store.io (N.digest (serializeManifest blocks)) with
  | none =>
      simp only [hbytes] at hget
      refine ⟨nofun, fun h => nomatch (hget _).mpr ⟨rfl, h.1⟩⟩
  | some c =>
      obtain ⟨rfl, hgood⟩ := (hget c).mp hbytes
      simp [deserializeManifest_serializeManifest, Except.toOption, hgood]

/-- What a commit does for a handle that counts no bytes: a flush does nothing, a release gives
a file without a readable manifest an empty one. -/
def HandleCommit.Idle (N : B.Nodes) (s : Fs B) (i : UInt64) (b : Bytes) (io : B.Io) :
    HandleCommit → Prop
  | fsync _ => s.Resolves i b
  | release _ =>
    if (s.manifest? i).getD [] = [] then b = [] ∧ N.MadeGood io (N.laws.manifestBytes none)
    else s.Resolves i b

theorem Fs.resolves_congr (hio : s'.store.io = s.store.io) (hmaps : s'.store.maps = s.store.maps) :
    s'.Resolves i b ↔ s.Resolves i b := by
  unfold Fs.Resolves
  rw [s'.committed_eq, s.committed_eq, Fs.manifest?, Fs.manifest?, hio, hmaps]

/-- Such a handle is not committed, so a release looks at the manifest. -/
theorem releaseEmpty_idle {o : OpenFileState B} (hc : o.casCommitted = false)
    (hrun : releaseEmpty i o s = (.ok (), s')) :
    if (s.manifest? i).getD [] = [] then
      s'.store.maps.manifestData[i]? = some (N.digest (serializeManifest [])) ∧
        serializeManifest [] ∈ N.attempted s'.store.io
    else s' = s := by
  obtain ⟨hresult, hstate⟩ := getManifest_toOption s i
  rw [releaseEmpty, if_neg (by rw [hc]; exact Bool.false_ne_true)] at hrun
  obtain ⟨r, s₁, hattempt, hrun⟩ := Prog.bind_eq_ok hrun
  obtain ⟨rfl, hr⟩ := attempt_onStore_eq_ok hattempt
  have hmanifest : r.toOption = s.manifest? i := by
    rw [← hresult, hr]
    cases r <;> rfl
  rw [hstate, hmanifest] at hrun
  by_cases hnil : (s.manifest? i).getD [] = []
  · rw [hnil] at hrun
    rw [if_pos hnil]
    obtain ⟨-, rfl⟩ := Prod.mk.inj hrun
    refine ⟨?_, ?_⟩
    · exact (getElem?_insert_ite _ _ _ _).trans ((if_pos rfl).trans
        (congrArg some (N.digest_pushAll _ _)))
    · exact (N.nodes_pushAll _ _).trans (N.tried_drop _)
  · rw [if_neg (by simpa using hnil)] at hrun
    rw [if_neg hnil]
    exact (Prod.mk.inj hrun).2.symm

theorem Blockset.Nodes.Keeps.idle {o : OpenFileState B} (h : N.Keeps i s.store o)
    (ho : s.openFiles[fh]? = some o) (hcount : o.byteCount = 0) {call : HandleCommit}
    (hrun : call.run i fh s = (.ok (), s')) (hc : Set.InjOn N.digest (N.attempted s'.store.io)) :
    s'.Resolves i b ↔ call.Idle N s i b s'.store.io := by
  cases call with
  | fsync now =>
      have hflush : flushBufferForFsync i fh now s = (.ok (), s) := by
        rw [flushBufferForFsync, Prog.bind_ok (getFile_eq ho), Option.elim_some,
          SliceFs.flushHandle, if_pos hcount]
        rfl
      rw [HandleCommit.run, testFsync, Prog.bind_ok hflush] at hrun
      have hstate : s' = { s with store := (flushWal s.store).2 } :=
        (congrArg Prod.snd (Prog.mapErr_eq_ok hrun)).symm
      have hsame : (flushWal s.store).2.io = s.store.io ∧
          (flushWal s.store).2.maps = s.store.maps := by
        unfold flushWal onWal
        split <;> exact ⟨rfl, rfl⟩
      rw [hstate]
      exact Fs.resolves_congr hsame.1 hsame.2
  | release now =>
      have hfresh : o.casCommitted = false := by
        cases hcommitted : o.casCommitted with
        | false => rfl
        | true => exact absurd hcount (h.counted hcommitted)
      have hremove : (removeFile fh : FsM B Unit) s =
          (.ok (), { s with openFiles := s.openFiles.erase fh }) := rfl
      rw [HandleCommit.run, testRelease, Prog.bind_ok (getFile_eq ho), Option.elim_some,
        releaseHandle, Prog.bind_ok hremove, if_pos hcount] at hrun
      have hempty := releaseEmpty_idle (N := N) hfresh hrun
      have hmanifest : Fs.manifest? { s with openFiles := s.openFiles.erase fh } i =
        s.manifest? i := rfl
      rw [hmanifest] at hempty
      unfold HandleCommit.Idle
      split_ifs at hempty ⊢ with hnil
      · rw [Fs.committed_of_manifest hempty.1 hc hempty.2, and_comm]
        exact and_congr ⟨fun h => (Option.some.inj h).symm, fun h => by rw [h]; rfl⟩ Iff.rfl
      · rw [hempty]
        exact Fs.resolves_congr rfl rfl

end Resolves

section Runs

end Runs

end SliceFs
