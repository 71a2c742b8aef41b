import SliceFs.Ledger

/-!
# The table of write handles

Requests on names and attributes leave the table of write handles alone. The others change
one handle; a stream expects its next write at or before the end of what it holds, also
when the backend reported errors.
-/
namespace SliceFs
open TreeMaps ProgramLogic ByteFile

section
variable {B : Blockset} {ε α : Type}

/-- Growth that keeps to a property of the table. -/
abbrev growthTable (P : Map UInt64 (OpenFileState B) → Prop) : Growth (Fs B) :=
  .keeps fun s => P s.openFiles

section Any
variable {P : Map UInt64 (OpenFileState B) → Prop}

instance table_onStore (m : Prog (Store B) ε α) : Growing (growthTable P) (onStore m) :=
  ⟨fun _ h => h⟩

instance table_callStore (errno : MetaError → Errno) (m : StoreM B α) :
    Growing (growthTable P) (callStore errno m) := by
  unfold callStore
  infer_instance

instance table_undoCreate (ino : UInt64) (r : Except MetaError Unit) :
    Growing (growthTable P) (undoCreate ino r : FsM B Unit) := by
  unfold undoCreate
  split <;> infer_instance

instance table_createNode (parent : UInt64) (name : Str) (inode : InodeMeta) :
    Growing (growthTable P) (createNode parent name inode : FsM B UInt64) := by
  unfold createNode
  infer_instance

instance table_editInode (errno : MetaError → Errno) (ino : UInt64)
    (change : InodeMeta → InodeMeta) :
    Growing (growthTable P) (editInode errno ino change : FsM B Unit) := by
  unfold editInode
  infer_instance

instance table_decrementEach (ds : List Digest224) :
    Growing (growthTable P) (decrementEach ds : FsM B Unit) := by
  induction ds with
  | nil => exact growing_pure ()
  | cons d ds ih =>
      unfold decrementEach
      infer_instance

instance table_deleteFile (ino : UInt64) :
    Growing (growthTable P) (deleteFile ino : FsM B Unit) := by
  unfold deleteFile
  infer_instance

instance table_removeTarget (parent : UInt64) (name : Str) (target : Option UInt64) :
    Growing (growthTable P) (removeTarget parent name target : FsM B Unit) := by
  unfold removeTarget displace
  split <;> infer_instance

set_option synthInstance.maxSize 400 in
instance table_simulateRmdir (parent : UInt64) (name : Str) :
    Growing (growthTable P) (simulateRmdir parent name : FsM B Unit) := by
  unfold simulateRmdir dropBacklink
  infer_instance

set_option synthInstance.maxSize 400 in
instance table_simulateRename (parent : UInt64) (name : Str) (newParent : UInt64) (newName : Str)
    (flags : UInt32) (now : Now) :
    Growing (growthTable P) (simulateRename parent name newParent newName flags now :
      FsM B Unit) := by
  unfold simulateRename touchCtime
  infer_instance

instance table_fileStorageGet (d : Digest224) :
    Growing (growthTable P) (fileStorageGet d : FsM B (Option Bytes)) := by
  unfold fileStorageGet
  infer_instance

instance table_materialize (state : B.State) :
    Growing (growthTable P) (materialize state : FsM B (Option Bytes)) := by
  unfold materialize
  infer_instance

instance table_blockContent (d : Option Digest224) :
    Growing (growthTable P) (blockContent d : FsM B Bytes) := by
  cases d <;> unfold blockContent <;> infer_instance

instance table_requireContent (d : Option Digest224) :
    Growing (growthTable P) (requireContent d : FsM B Bytes) := by
  cases d <;> unfold requireContent <;> infer_instance

instance table_decrementIfSome (d : Option Digest224) :
    Growing (growthTable P) (decrementIfSome d : FsM B Unit) := by
  cases d <;> unfold decrementIfSome <;> infer_instance

instance table_contentDigest (mode : WriteMode B) :
    Growing (growthTable P) (contentDigest mode : FsM B Digest224) := by
  unfold contentDigest
  infer_instance

instance table_recordDigest (ino : UInt64) (old : Option Digest224) (new : Digest224) :
    Growing (growthTable P) (recordDigest ino old new : FsM B Unit) := by
  unfold recordDigest
  infer_instance

instance table_fallbackBase (f : OpenFileState B) (state : B.State) :
    Growing (growthTable P) (fallbackBase f state : FsM B Bytes) := by
  unfold fallbackBase streamedContent committedContent
  infer_instance

instance table_writeInto (buf : Bytes) (offset : UInt64) (data : Bytes) :
    Growing (growthTable P) (writeInto buf offset data : FsM B Bytes) := by
  unfold writeInto
  infer_instance

instance table_resizeVec (buf : Bytes) (n : UInt64) :
    Growing (growthTable P) (resizeVec buf n : FsM B Bytes) := by
  unfold resizeVec
  infer_instance

instance table_streamBase (f : OpenFileState B) (state : B.State) :
    Growing (growthTable P) (streamBase f state : FsM B Bytes) := by
  unfold streamBase streamedContent
  infer_instance

instance table_readContent (ino : UInt64) (mode : Option (WriteMode B)) :
    Growing (growthTable P) (readContent ino mode : FsM B Bytes) := by
  unfold readContent readManifest
  split <;> infer_instance

instance table_releaseContent (ino : UInt64) (f : OpenFileState B) (now : Now) :
    Growing (growthTable P) (releaseContent ino f now : FsM B Unit) := by
  unfold releaseContent recordSize
  infer_instance

instance table_releaseEmpty (ino : UInt64) (f : OpenFileState B) :
    Growing (growthTable P) (releaseEmpty ino f : FsM B Unit) := by
  unfold releaseEmpty
  infer_instance

instance table_truncateCommitted (ino newSize : UInt64) :
    Growing (growthTable P) (truncateCommitted ino newSize : FsM B Unit) := by
  have hor : ∀ r : Except MetaError (List Digest224),
      Growing (growthTable P) (manifestOrEmpty r : FsM B (List Digest224)) := by
    intro r
    unfold manifestOrEmpty
    split <;> infer_instance
  unfold truncateCommitted setContent
  infer_instance

end Any

/-- The requests that may change the table. -/
def FsOp.OnTable : FsOp → Prop
  | create .. => True
  | openFile .. => True
  | write .. => True
  | truncate .. => True
  | flush .. => True
  | fsync .. => True
  | release .. => True
  | _ => False

theorem openFiles_of_growing {m : FsM B α} [h : ∀ P, Growing (growthTable P) m] {s s' : Fs B}
    (hrun : Prog.exec m s = some s') : s'.openFiles = s.openFiles := by
  rw [← Prog.snd_of_exec hrun]
  exact (h (· = s.openFiles)).le_run s rfl

/-- The other requests leave the table as it is. -/
theorem FsOp.openFiles_eq {op : FsOp} (hop : ¬ op.OnTable) {s s' : Fs B}
    (hrun : op.run s = some s') : s'.openFiles = s.openFiles := by
  cases op with
  | create => exact absurd trivial hop
  | openFile => exact absurd trivial hop
  | write => exact absurd trivial hop
  | truncate => exact absurd trivial hop
  | flush => exact absurd trivial hop
  | fsync => exact absurd trivial hop
  | release => exact absurd trivial hop
  | mknod parent name mode uid gid umask =>
      have : ∀ P, Growing (growthTable P)
          (testMknod parent name mode uid gid umask : FsM B UInt64) := by
        intro P
        unfold testMknod
        infer_instance
      exact openFiles_of_growing hrun
  | mkdir parent name mode umask uid gid =>
      have : ∀ P, Growing (growthTable P)
          (simulateMkdir parent name mode umask uid gid : FsM B UInt64) := by
        intro P
        unfold simulateMkdir
        infer_instance
      exact openFiles_of_growing hrun
  | symlink parent name target uid gid =>
      have : ∀ P, Growing (growthTable P)
          (simulateSymlink parent name target uid gid : FsM B UInt64) := by
        intro P
        unfold simulateSymlink
        infer_instance
      exact openFiles_of_growing hrun
  | link ino newParent newName now =>
      have : ∀ P, Growing (growthTable P)
          (simulateLink ino newParent newName now : FsM B UInt64) := by
        intro P
        unfold simulateLink
        infer_instance
      exact openFiles_of_growing hrun
  | unlink parent name =>
      have : ∀ P, Growing (growthTable P) (simulateUnlink parent name : FsM B Unit) := by
        intro P
        unfold simulateUnlink
        infer_instance
      exact openFiles_of_growing hrun
  | rmdir parent name => exact openFiles_of_growing hrun
  | rename parent name newParent newName flags now => exact openFiles_of_growing hrun
  | read order ino offset size =>
      have : ∀ P, Growing (growthTable P) (testRead order ino offset size : FsM B Bytes) := by
        intro P
        unfold testRead
        infer_instance
      exact openFiles_of_growing hrun
  | chmod ino mode now =>
      have : ∀ P, Growing (growthTable P) (testSetattrMode ino mode now : FsM B Unit) := by
        intro P
        unfold testSetattrMode setattr
        infer_instance
      exact openFiles_of_growing hrun
  | chown ino uid gid now =>
      have : ∀ P, Growing (growthTable P) (testSetattrUidGid ino uid gid now : FsM B Unit) := by
        intro P
        unfold testSetattrUidGid setattr
        infer_instance
      exact openFiles_of_growing hrun
  | utimes ino sec nsec now =>
      have : ∀ P, Growing (growthTable P) (testSetattrMtime ino sec nsec now : FsM B Unit) := by
        intro P
        unfold testSetattrMtime setattr
        infer_instance
      exact openFiles_of_growing hrun
  | setxattr ino name value =>
      have : ∀ P, Growing (growthTable P) (testSetxattr ino name value : FsM B Unit) := by
        intro P
        unfold testSetxattr
        infer_instance
      exact openFiles_of_growing hrun
  | removexattr ino name =>
      have : ∀ P, Growing (growthTable P) (testRemovexattr ino name : FsM B Unit) := by
        intro P
        unfold testRemovexattr
        infer_instance
      exact openFiles_of_growing hrun

/-- Every write handle has a property. -/
def Fs.AllHandles (p : OpenFileState B → Prop) (s : Fs B) : Prop :=
  ∀ (fh : UInt64) (o : OpenFileState B), s.openFiles[fh]? = some o → p o

section All
variable {p : OpenFileState B → Prop} {s : Fs B}

/-- As growth of the table. -/
abbrev growthHandles (p : OpenFileState B → Prop) : Growth (Fs B) :=
  growthTable fun files => ∀ (fh : UInt64) (o : OpenFileState B), files[fh]? = some o → p o

theorem handles_putFile (fh : UInt64) {f : OpenFileState B} (hf : p f) :
    Growing (growthHandles p) (putFile fh f) := by
  refine growing_modify fun s hs fh' o ho => ?_
  rw [getElem?_insert_ite] at ho
  split_ifs at ho with hfh
  · rwa [← Option.some.inj ho]
  · exact hs fh' o ho

instance handles_removeFile (fh : UInt64) :
    Growing (growthHandles p) (removeFile fh : FsM B Unit) := by
  refine growing_modify fun s hs fh' o ho => ?_
  rw [getElem?_erase_ite] at ho
  split_ifs at ho
  exact hs fh' o ho

instance handles_allocateFh : Growing (growthHandles p) (allocateFh : FsM B UInt64) := by
  have hnext : ∀ fh, Growing (growthHandles p)
      (Prog.modify (fun s => { s with nextFh := fh + 1 }) : FsM B Unit) :=
    fun fh => growing_modify fun s hs => hs
  unfold allocateFh
  infer_instance

/-- The second part of a sequence may use what is known of the value of the first. -/
theorem handles_bind {β : Type} (R : α → Prop) {m : FsM B α} {k : α → FsM B β}
    (hm : ∀ s : Fs B, s.AllHandles p → (m s).2.AllHandles p ∧ ∀ a, (m s).1 = .ok a → R a)
    (hk : ∀ a, R a → Growing (growthHandles p) (k a)) : Growing (growthHandles p) (m >>= k) :=
  growing_keeps_bind hm hk

/-- A program on one handle may use that the handle has the property. -/
theorem handles_getFile {fh : UInt64} {k : Option (OpenFileState B) → FsM B α}
    (hk : ∀ o : Option (OpenFileState B), (∀ f, o = some f → p f) →
    Growing (growthHandles p) (k o)) : Growing (growthHandles p) (getFile fh >>= k) := by
  refine handles_bind (fun o => ∀ f, o = some f → p f) (fun s hs => ⟨hs, fun a ha => ?_⟩) hk
  rintro f rfl
  exact hs fh f (Except.ok.inj ha)

end All

section Aligned
variable {L : B.Laws} {f : OpenFileState B} {fh : UInt64}

/-- A stream does not expect its next write past the end of what it holds. -/
def OpenFileState.Aligned (L : B.Laws) (o : OpenFileState B) : Prop :=
  ∀ (state : B.State) (next : UInt64), o.writeMode = .streaming state next →
    next.toNat ≤ (L.content state).length

theorem aligned_new (L : B.Laws) (ino : UInt64) :
    (OpenFileState.new ino : OpenFileState B).Aligned L := by
  rintro state next ⟨⟩
  exact Nat.zero_le _

theorem aligned_buffered {o : OpenFileState B} {buf : Bytes} (h : o.writeMode = .buffered buf) :
    o.Aligned L := by
  intro state next hmode
  rw [h] at hmode
  cases hmode

theorem aligned_streaming {o : OpenFileState B} {state : B.State} {next : UInt64}
    (h : o.writeMode = .streaming state next) (hle : next.toNat ≤ (L.content state).length) :
    o.Aligned L := by
  intro state' next' hmode
  rw [h] at hmode
  cases hmode
  exact hle

theorem toNat_add_ofNat_le (a : UInt64) (n : ℕ) : (a + UInt64.ofNat n).toNat ≤ a.toNat + n := by
  rw [UInt64.toNat_add, UInt64.toNat_ofNat']
  exact (Nat.mod_le _ _).trans (Nat.add_le_add_left (Nat.mod_le _ _) _)

/-- What a writer pushes is in the accumulator, whether or not it was stored. -/
theorem content_pushChecked (state : B.State) (data : Bytes) {s s' : Fs B} {r : B.State × Bool}
    (h : onStore (onIo (B.withFsa (pushChecked state data))) s =
      ((.ok r, s') : Except (Fault ε) _ × _)) : L.content r.1 = L.content state ++ data := by
  obtain ⟨hr, -⟩ := Prod.mk.inj h
  obtain rfl := Except.ok.inj hr
  exact L.content_pushBytes state data _

theorem aligned_sequentialWrite {state : B.State} {next : UInt64}
    (hf : next.toNat ≤ (L.content state).length) (data : Bytes) :
    Growing (growthHandles (OpenFileState.Aligned L)) (sequentialWrite fh f state next data) := by
  unfold sequentialWrite
  refine handles_bind (fun r => L.content r.1 = L.content state ++ data)
    (fun s hs => ⟨hs, fun r hr => content_pushChecked state data (Prod.ext hr rfl)⟩) fun r hr => ?_
  have hfail : Growing (growthHandles (OpenFileState.Aligned L))
      (putFile fh { f with writeMode := .streaming r.1 next }) := by
    refine handles_putFile fh (aligned_streaming rfl ?_)
    rw [hr, List.length_append]
    omega
  have hadvance : Growing (growthHandles (OpenFileState.Aligned L)) (putFile fh { f with
      writeMode := .streaming r.1 (next + UInt64.ofNat data.length)
      byteCount := f.byteCount + UInt64.ofNat data.length
      casCommitted := false }) := by
    refine handles_putFile fh (aligned_streaming rfl ?_)
    rw [hr, List.length_append]
    exact (toNat_add_ofNat_le _ _).trans (Nat.add_le_add_right hf _)
  unfold advance
  infer_instance

theorem aligned_writeHandle (hf : f.Aligned L) (offset : UInt64) (data : Bytes) :
    Growing (growthHandles (OpenFileState.Aligned L)) (writeHandle fh offset data f) := by
  unfold writeHandle
  split
  · next state next hmode =>
      have hseq : Growing (growthHandles (OpenFileState.Aligned L))
          (sequentialWrite fh f state next data) :=
          aligned_sequentialWrite (hf state next hmode) data
      have hput : ∀ buf : Bytes, Growing (growthHandles (OpenFileState.Aligned L))
          (putFile fh { f with
          writeMode := .buffered buf
          byteCount := UInt64.ofNat buf.length
          casCommitted := false
          lastCommittedRoot := none }) := fun buf => handles_putFile fh (aligned_buffered rfl)
      unfold fallbackWrite
      infer_instance
  · have hput : ∀ buf : Bytes,
        Growing (growthHandles (OpenFileState.Aligned L)) (putFile fh { f with
        writeMode := .buffered buf
        byteCount := UInt64.ofNat buf.length
        casCommitted := false }) := fun buf => handles_putFile fh (aligned_buffered rfl)
    unfold bufferedWrite
    infer_instance

theorem aligned_truncateHandle (n : UInt64) :
    Growing (growthHandles (OpenFileState.Aligned L)) (truncateHandle fh f n) := by
  have hzero : Growing (growthHandles (OpenFileState.Aligned L)) (truncateToZero fh f) := by
    have hput : Growing (growthHandles (OpenFileState.Aligned L)) (putFile fh { f with
        writeMode := f.writeMode.cleared
        byteCount := 0
        casCommitted := false
        lastCommittedRoot := none }) := by
      refine handles_putFile fh ?_
      cases hmode : f.writeMode with
      | streaming state next => exact aligned_streaming rfl (Nat.zero_le _)
      | buffered buf => exact aligned_buffered rfl
    unfold truncateToZero
    infer_instance
  unfold truncateHandle
  split
  · exact hzero
  · split
    · have hput : ∀ buf : Bytes,
          Growing (growthHandles (OpenFileState.Aligned L)) (putFile fh { f with
          writeMode := .buffered buf
          byteCount := UInt64.ofNat buf.length
          casCommitted := false }) := fun buf => handles_putFile fh (aligned_buffered rfl)
      unfold truncateBuffered
      infer_instance
    · next state next hmode =>
        have hpush : ∀ content : Bytes, Growing (growthHandles (OpenFileState.Aligned L)) (do
            let fresh ← onStore (onIo (B.withFsa (B.step (B.pushBytes B.stateDefault content))))
            putFile fh { f with
              writeMode := .streaming fresh (UInt64.ofNat content.length)
              byteCount := UInt64.ofNat content.length
              casCommitted := false
              lastCommittedRoot := none }
            decrementIfSome f.lastCommittedRoot : FsM B Unit) := by
          intro content
          refine handles_bind (fun fresh => L.content fresh = content)
            (fun s hs => ⟨hs, fun fresh hfresh => ?_⟩) fun fresh hfresh => ?_
          · obtain rfl := Except.ok.inj hfresh
            rw [L.content_pushBytes, L.content_default, List.nil_append]
          · have hput : Growing (growthHandles (OpenFileState.Aligned L)) (putFile fh { f with
                writeMode := .streaming fresh (UInt64.ofNat content.length)
                byteCount := UInt64.ofNat content.length
                casCommitted := false
                lastCommittedRoot := none }) := by
              refine handles_putFile fh (aligned_streaming rfl ?_)
              rw [hfresh, UInt64.toNat_ofNat']
              exact Nat.mod_le _ _
            infer_instance
        unfold truncateStreaming
        infer_instance

theorem aligned_flushHandle (hf : f.Aligned L) (ino : UInt64) (now : Now) :
    Growing (growthHandles (OpenFileState.Aligned L)) (flushHandle ino fh now f) := by
  have hput : ∀ (committed : Bool) (root : Option Digest224),
      Growing (growthHandles (OpenFileState.Aligned L))
        (putFile fh { f with casCommitted := committed, lastCommittedRoot := root }) :=
    fun committed root => handles_putFile fh hf
  have hfirst : Growing (growthHandles (OpenFileState.Aligned L))
      (putFile fh { f with casCommitted := true }) := handles_putFile fh hf
  unfold flushHandle recordSize
  infer_instance

instance aligned_flushBufferForFsync (ino fh : UInt64) (now : Now) :
    Growing (growthHandles (OpenFileState.Aligned L))
      (flushBufferForFsync ino fh now : FsM B Unit) := by
  unfold flushBufferForFsync
  refine handles_getFile fun o ho => ?_
  cases o with
  | none => exact growing_pure ()
  | some f => exact aligned_flushHandle (ho f rfl) ino now

instance aligned_testSetattrSize (ino : UInt64) (fh : Option UInt64) (n : UInt64) (now : Now) :
    Growing (growthHandles (OpenFileState.Aligned L))
      (testSetattrSize ino fh n now : FsM B Unit) := by
  unfold testSetattrSize recordTruncation
  refine handles_bind (fun file => ∀ p : UInt64 × OpenFileState B, file = some p → p.2.Aligned L)
    (fun s hs => ⟨hs, fun file hfile => ?_⟩) fun file hfile => ?_
  · rintro p rfl
    obtain ⟨j, -, hj⟩ := Option.bind_eq_some_iff.mp (Except.ok.inj hfile)
    obtain ⟨f, hf, rfl⟩ := Option.map_eq_some_iff.mp hj
    exact hs j f hf
  · have hbody : Growing (growthHandles (OpenFileState.Aligned L))
        (file.elim (truncateCommitted ino n) fun p => truncateHandle p.1 p.2 n) := by
      cases file with
      | none => exact table_truncateCommitted ino n
      | some p => exact aligned_truncateHandle n
    infer_instance

/-- Every request leaves the handles aligned. -/
theorem FsOp.aligned {op : FsOp} {s s' : Fs B} (h : s.AllHandles (OpenFileState.Aligned L))
    (hrun : op.run s = some s') : s'.AllHandles (OpenFileState.Aligned L) := by
  have hgrows : ∀ {α : Type} {m : FsM B α}, Growing (growthHandles (OpenFileState.Aligned L)) m →
      Prog.exec m s = some s' → s'.AllHandles (OpenFileState.Aligned L) := by
    intro α m hm hrun
    rw [← Prog.snd_of_exec hrun]
    exact hm.le_run s h
  have hnew : ∀ fh ino : UInt64, Growing (growthHandles (OpenFileState.Aligned L))
      (putFile fh (.new ino)) := fun fh ino => handles_putFile fh (aligned_new L ino)
  cases op with
  | create parent name mode umask uid gid =>
      refine hgrows (m := testCreate parent name mode umask uid gid) ?_ hrun
      unfold testCreate insertHandle
      infer_instance
  | openFile ino flags now =>
      refine hgrows (m := testOpen ino flags now) ?_ hrun
      have hclose : ∀ fh r, Growing (growthHandles (OpenFileState.Aligned L))
          (closeOnError fh r : FsM B Unit) := by
        intro fh r
        unfold closeOnError
        split <;> infer_instance
      unfold testOpen truncateOnOpen
      infer_instance
  | write fh offset data =>
      refine hgrows (m := testWrite fh offset data) ?_ hrun
      unfold testWrite
      refine handles_getFile fun o ho => ?_
      cases o with
      | none => exact ⟨fun _ h => h⟩
      | some f =>
          have hwrite : Growing (growthHandles (OpenFileState.Aligned L))
              (writeHandle fh offset data f) := aligned_writeHandle (ho f rfl) offset data
          refine handles_bind (· = f) (fun s hs => ⟨hs, fun a ha => (Except.ok.inj ha).symm⟩) ?_
          rintro a rfl
          infer_instance
  | truncate ino fh size now =>
      exact hgrows (m := testSetattrSize ino fh size now) inferInstance hrun
  | flush ino fh now =>
      exact hgrows (m := testFlush ino fh now) (aligned_flushBufferForFsync ino fh now) hrun
  | fsync ino fh now =>
      refine hgrows (m := testFsync ino fh now) ?_ hrun
      unfold testFsync
      infer_instance
  | release ino fh now =>
      refine hgrows (m := testRelease ino fh now) ?_ hrun
      unfold testRelease
      refine handles_getFile fun o _ => ?_
      cases o with
      | none => exact growing_pure ()
      | some f =>
          show Growing _ (releaseHandle ino fh now f)
          unfold releaseHandle
          infer_instance
  | _ =>
      intro fh o ho
      rw [FsOp.openFiles_eq (by simp [FsOp.OnTable]) hrun] at ho
      exact h fh o ho

theorem Mounted.aligned {overflowChecks : Bool} {s : Fs B} (h : Mounted L overflowChecks s) :
    s.AllHandles (OpenFileState.Aligned L) := by
  have hmount : ∀ (st : Store B) (auto : Bool),
      (Fs.mount st auto).AllHandles (OpenFileState.Aligned L) := by
    intro st auto fh o ho
    cases ho
  induction h with
  | start auto _ => exact hmount _ auto
  | step _ _ hrun ih => exact FsOp.aligned ih hrun
  | remount log auto _ _ _ _ _ _ => exact hmount _ auto

end Aligned

end

end SliceFs
