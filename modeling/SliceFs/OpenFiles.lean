import SliceFs.RootRecord
import SliceFs.ByteFile

/-!
# Open files

The file system adapter keeps a state per write handle. A handle starts as a stream:
bytes that arrive at the expected offset go into a Merkle accumulator. The first write
elsewhere turns it into a buffer for good. `fsync` and `release` push the content to the
backend, set the inode's manifest to its digest and move one reference count from the
digest the handle committed before to the new one.

Calls run one after the other. Where the source takes a handle's state out of the table
for the time of a write, the model leaves it there and replaces it at the end.
-/
namespace SliceFs
open TreeMaps ProgramLogic ByteFile

/-- The error numbers the file system returns. -/
inductive Errno where
  | eperm | enoent | eio | ebadf | eexist | enotdir | eisdir | einval | enosys | enotempty | enodata
deriving DecidableEq, Repr

def metaErrorToErrno : MetaError → Errno
  | .notFound _ => .enoent
  | .alreadyExists _ => .eexist
  | .notADirectory _ => .enotdir
  | .isADirectory _ => .eisdir
  | .notEmpty _ => .enotempty
  | .invalidName _ => .einval
  | .corrupted _ => .eio
  | .io => .eio

inductive WriteMode (B : Blockset) where
  | streaming (state : B.State) (nextExpectedOffset : UInt64)
  | buffered (buf : Bytes)

structure OpenFileState (B : Blockset) where
  ino : UInt64
  writeMode : WriteMode B
  byteCount : UInt64
  casCommitted : Bool
  lastCommittedRoot : Option Digest224

/-- The mounted file system: the store, the write handles and the last handle number. -/
structure Fs (B : Blockset) where
  store : Store B
  openFiles : Map UInt64 (OpenFileState B)
  nextFh : UInt64
  autoSnapshot : Bool

section
variable (B : Blockset)

abbrev FsM (α : Type) := Prog (Fs B) Errno α

variable {B} {ε α : Type}

def Fs.new (store : Store B) : Fs B := ⟨store, ∅, 0, false⟩

/-- The state of a handle that was just opened. -/
def OpenFileState.new (ino : UInt64) : OpenFileState B :=
  ⟨ino, .streaming B.stateDefault 0, 0, false, none⟩

def onStore (m : Prog (Store B) ε α) : Prog (Fs B) ε α :=
  Prog.zoom Fs.store (fun st s => { s with store := st }) m

/-- A call of the store with its errors turned into error numbers. -/
def callStore (errno : MetaError → Errno) (m : StoreM B α) : FsM B α :=
  Prog.mapErr errno (onStore m)

def eio (_ : MetaError) : Errno := .eio

def getFile (fh : UInt64) : FsM B (Option (OpenFileState B)) := Prog.read fun s => s.openFiles[fh]?

def putFile (fh : UInt64) (f : OpenFileState B) : FsM B Unit :=
  Prog.modify fun s => { s with openFiles := s.openFiles.insert fh f }

def removeFile (fh : UInt64) : FsM B Unit :=
  Prog.modify fun s => { s with openFiles := s.openFiles.erase fh }

/-- `next_fh.fetch_add(1) + 1` -/
def allocateFh : FsM B UInt64 := do
  let fh ← Prog.read Fs.nextFh
  Prog.modify fun s => { s with nextFh := fh + 1 }
  Prog.assert (fh ≠ u64Max)
  pure (fh + 1)

def insertHandle (ino : UInt64) : FsM B UInt64 := do
  let fh ← allocateFh
  putFile fh (.new ino)
  pure fh

/-- The digest of a buffer, pushed through a fresh accumulator. -/
def pushBuffer (buf : Bytes) : Prog B.Fsa ε Digest224 := do
  let state ← B.step (B.pushBytes B.stateDefault buf)
  B.finish state

/-- The digest of the content of a handle, with the content in the backend. -/
def pushContent : WriteMode B → Prog B.Fsa ε Digest224
  | .streaming state _ => B.finish state
  | .buffered buf => pushBuffer buf

def contentDigest (mode : WriteMode B) : FsM B Digest224 :=
  onStore (onIo (B.withFsa (pushContent mode)))

def fileStorageGet (d : Digest224) : FsM B (Option Bytes) := onStore (onIo (B.get d))

/-- The bytes pushed into an accumulator, read back through their digest. -/
def materialize (state : B.State) : FsM B (Option Bytes) := do
  let d ← onStore (onIo (B.withFsa (B.finish state)))
  fileStorageGet d

/-- The bytes of the first digest of a manifest; no digest gives no bytes. -/
def blockContent : Option Digest224 → FsM B Bytes
  | none => pure []
  | some d => do
    let b ← fileStorageGet d
    pure (b.getD [])

/-- The committed content of an inode, empty when there is none or it cannot be read. -/
def committedContent (ino : UInt64) : FsM B Bytes := do
  let manifest ← Prog.attempt (onStore (getManifest ino))
  blockContent (manifest.toOption.bind List.head?)

/-- A positional write into a vector; the vector cannot grow past the largest
allocation. -/
def writeInto (buf : Bytes) (offset : UInt64) (data : Bytes) : FsM B Bytes := do
  Prog.assert (offset.toNat + data.length < 2 ^ 64)
  Prog.assert (offset.toNat + data.length ≤ buf.length ∨ offset.toNat + data.length ≤ isizeMax)
  pure (pwrite 0 buf offset.toNat data)

def decrementIfSome : Option Digest224 → FsM B Unit
  | none => pure ()
  | some d => onStore (decrementRefcount d)

/-- The content of a stream with bytes in it; empty when it cannot be read back. -/
def streamedContent (state : B.State) : FsM B Bytes := do
  let b ← materialize state
  pure (b.getD [])

/-- The content so far, or the committed content when nothing was written yet. -/
def fallbackBase (f : OpenFileState B) (state : B.State) : FsM B Bytes :=
  if 0 < f.byteCount then streamedContent state else committedContent f.ino

/-- A write at another offset than the expected one makes the handle a buffer. -/
def fallbackWrite (fh : UInt64) (f : OpenFileState B) (state : B.State) (offset : UInt64)
    (data : Bytes) : FsM B Unit := do
  let buf ← fallbackBase f state
  let buf ← writeInto buf offset data
  putFile fh { f with
    writeMode := .buffered buf
    byteCount := UInt64.ofNat buf.length
    casCommitted := false
    lastCommittedRoot := none }
  decrementIfSome f.lastCommittedRoot

def pushChecked (state : B.State) (data : Bytes) : Prog B.Fsa ε (B.State × Bool) := do
  let state ← B.step (B.pushBytes state data)
  let failed ← B.step B.takeIoError
  pure (state, failed)

/-- The counters of a stream after a write. -/
def advance (fh : UInt64) (f : OpenFileState B) (state : B.State) (next : UInt64) (data : Bytes) :
    FsM B Unit := do
  Prog.assert (next.toNat + data.length < 2 ^ 64)
  Prog.assert (f.byteCount.toNat + data.length < 2 ^ 64)
  putFile fh { f with
    writeMode := .streaming state (next + UInt64.ofNat data.length)
    byteCount := f.byteCount + UInt64.ofNat data.length
    casCommitted := false }

/-- A write at the expected offset. When the backend reports an error the accumulator
has the bytes and the counters have not. -/
def sequentialWrite (fh : UInt64) (f : OpenFileState B) (state : B.State) (next : UInt64)
    (data : Bytes) : FsM B Unit := do
  let pushed ← onStore (onIo (B.withFsa (pushChecked state data)))
  if pushed.2 then do
    putFile fh { f with writeMode := .streaming pushed.1 next }
    Prog.fail .eio
  else advance fh f pushed.1 next data

def bufferedWrite (fh : UInt64) (f : OpenFileState B) (buf : Bytes) (offset : UInt64)
    (data : Bytes) : FsM B Unit := do
  let buf ← writeInto buf offset data
  putFile fh { f with
    writeMode := .buffered buf
    byteCount := UInt64.ofNat buf.length
    casCommitted := false }

def writeHandle (fh offset : UInt64) (data : Bytes) (f : OpenFileState B) : FsM B Unit :=
  match f.writeMode with
  | .streaming state next =>
    if offset ≠ next then fallbackWrite fh f state offset data
    else sequentialWrite fh f state next data
  | .buffered buf => bufferedWrite fh f buf offset data

def testWrite (fh offset : UInt64) (data : Bytes) : FsM B UInt32 := do
  let file ← getFile fh
  let f ← Prog.ofOption file .ebadf
  writeHandle fh offset data f
  pure (UInt32.ofNat data.length)

/-- The manifest of an inode becomes the digest `new`, counted in place of `old`, which
the handle counted before. -/
def recordDigest (ino : UInt64) (old : Option Digest224) (new : Digest224) : FsM B Unit := do
  decrementIfSome (old.filter fun d => d ≠ new)
  callStore eio (setManifest ino [new])
  if old = some new then pure () else onStore (incrementRefcount new)

/-- An inode is read, changed and written back. -/
def editInode (errno : MetaError → Errno) (ino : UInt64) (change : InodeMeta → InodeMeta) :
    FsM B Unit := do
  let inode ← callStore errno (getInode ino)
  callStore errno (updateInode (change inode))

/-- Size and times of an inode after a commit of its content. -/
def recordSize (ino size : UInt64) (now : Now) : FsM B Unit :=
  editInode eio ino fun m => m.setWritten size now

/-- Nothing was written through the handle: a new file gets an empty manifest, existing
content stays. -/
def releaseEmpty (ino : UInt64) (f : OpenFileState B) : FsM B Unit :=
  if f.casCommitted then pure ()
  else do
    let manifest ← Prog.attempt (onStore (getManifest ino))
    if (manifest.toOption.getD []).isEmpty then callStore eio (setManifest ino []) else pure ()

def releaseContent (ino : UInt64) (f : OpenFileState B) (now : Now) : FsM B Unit := do
  let digest ← contentDigest f.writeMode
  if f.lastCommittedRoot = some digest ∧ f.casCommitted = true then pure ()
  else do
    recordDigest ino f.lastCommittedRoot digest
    recordSize ino f.byteCount now

def releaseHandle (ino fh : UInt64) (now : Now) (f : OpenFileState B) : FsM B Unit := do
  removeFile fh
  if f.byteCount = 0 then releaseEmpty ino f else releaseContent ino f now

def testRelease (ino fh : UInt64) (now : Now) : FsM B Unit := do
  let file ← getFile fh
  file.elim (pure ()) (releaseHandle ino fh now)

def flushHandle (ino fh : UInt64) (now : Now) (f : OpenFileState B) : FsM B Unit :=
  if f.byteCount = 0 then pure ()
  else do
    putFile fh { f with casCommitted := true }
    let digest ← contentDigest f.writeMode
    recordDigest ino f.lastCommittedRoot digest
    putFile fh { f with casCommitted := true, lastCommittedRoot := some digest }
    recordSize ino f.byteCount now

def flushBufferForFsync (ino fh : UInt64) (now : Now) : FsM B Unit := do
  let file ← getFile fh
  file.elim (pure ()) (flushHandle ino fh now)

def testFlush (ino fh : UInt64) (now : Now) : FsM B Unit := flushBufferForFsync ino fh now

def testFsync (ino fh : UInt64) (now : Now) : FsM B Unit := do
  flushBufferForFsync ino fh now
  Prog.mapErr (fun _ => .eio) (onStore flushWal)

/-- The first write handle on an inode with bytes in it, in the order in which the hash
table is walked. -/
def findWriter (order : List UInt64) (ino : UInt64) (files : Map UInt64 (OpenFileState B)) :
    Option (OpenFileState B) :=
  (order.filterMap fun fh => files[fh]?).find? fun f => f.ino = ino ∧ 0 < f.byteCount

/-- The bytes of the first digest of a manifest, which must be readable. -/
def requireContent : Option Digest224 → FsM B Bytes
  | none => pure []
  | some d => do
    let b ← fileStorageGet d
    Prog.ofOption b .eio

def readManifest (ino : UInt64) : FsM B Bytes := do
  let manifest ← callStore eio (getManifest ino)
  requireContent manifest.head?

/-- The whole content that a read of an inode works on. -/
def readContent (ino : UInt64) : Option (WriteMode B) → FsM B Bytes
  | some (.buffered buf) => pure buf
  | some (.streaming state _) => do
    let b ← materialize state
    Prog.ofOption b .eio
  | none => readManifest ino

def testRead (order : List UInt64) (ino offset : UInt64) (size : UInt32) : FsM B Bytes := do
  let writer ← Prog.read fun s => findWriter order ino s.openFiles
  let bytes ← readContent ino (writer.map OpenFileState.writeMode)
  pure (slice bytes (min offset.toNat bytes.length)
    (min (min offset.toNat bytes.length + size.toNat) bytes.length))

/-- A vector resized to `n` bytes. -/
def resizeVec (buf : Bytes) (n : UInt64) : FsM B Bytes := do
  Prog.assert (n.toNat ≤ buf.length ∨ n.toNat ≤ isizeMax)
  pure (resize 0 n.toNat buf)

/-- A stream starts anew, a buffer stays a buffer. -/
def WriteMode.cleared : WriteMode B → WriteMode B
  | .streaming _ _ => .streaming B.stateDefault 0
  | .buffered _ => .buffered []

/-- Truncation to nothing: the handle forgets its content and gives up its count. -/
def truncateToZero (fh : UInt64) (f : OpenFileState B) : FsM B Unit := do
  putFile fh { f with
    writeMode := f.writeMode.cleared
    byteCount := 0
    casCommitted := false
    lastCommittedRoot := none }
  decrementIfSome f.lastCommittedRoot

/-- The digest a buffer committed before stays recorded. -/
def truncateBuffered (fh : UInt64) (f : OpenFileState B) (buf : Bytes) (newSize : UInt64) :
    FsM B Unit := do
  let buf ← resizeVec buf newSize
  putFile fh { f with
    writeMode := .buffered buf
    byteCount := UInt64.ofNat buf.length
    casCommitted := false }

/-- The content of a stream, which need not be read back when there is none. -/
def streamBase (f : OpenFileState B) (state : B.State) : FsM B Bytes :=
  if f.byteCount = 0 then pure [] else streamedContent state

/-- A stream is read back, resized and pushed into a fresh accumulator. -/
def truncateStreaming (fh : UInt64) (f : OpenFileState B) (state : B.State) (newSize : UInt64) :
    FsM B Unit := do
  let content ← streamBase f state
  let content ← resizeVec content newSize
  let fresh ← onStore (onIo (B.withFsa (B.step (B.pushBytes B.stateDefault content))))
  putFile fh { f with
    writeMode := .streaming fresh (UInt64.ofNat content.length)
    byteCount := UInt64.ofNat content.length
    casCommitted := false
    lastCommittedRoot := none }
  decrementIfSome f.lastCommittedRoot

def truncateHandle (fh : UInt64) (f : OpenFileState B) (newSize : UInt64) : FsM B Unit :=
  if newSize = 0 then truncateToZero fh f
  else match f.writeMode with
    | .buffered buf => truncateBuffered fh f buf newSize
    | .streaming state _ => truncateStreaming fh f state newSize

/-- The size and change time of an inode after a truncation. -/
def recordTruncation (ino newSize : UInt64) (now : Now) : FsM B Unit :=
  editInode eio ino fun m => ({ m with size := newSize } : InodeMeta).setCtime now

/-- A manifest that is missing counts as empty here, any other failure is an error. -/
def manifestOrEmpty : Except MetaError (List Digest224) → FsM B (List Digest224)
  | .ok m => pure m
  | .error (.notFound _) => pure []
  | .error _ => Prog.fail .eio

def setContent (ino : UInt64) (content : Bytes) : FsM B Unit :=
  if content.isEmpty then callStore eio (setManifest ino [])
  else do
    let digest ← onStore (onIo (B.withFsa (B.step (B.pushAll content))))
    callStore eio (setManifest ino [digest])
    onStore (incrementRefcount digest)

/-- Truncation without an open write handle works on the committed content. -/
def truncateCommitted (ino newSize : UInt64) : FsM B Unit := do
  let loaded ← Prog.attempt (onStore (getManifest ino))
  let manifest ← manifestOrEmpty loaded
  let content ← requireContent manifest.head?
  decrementIfSome manifest.head?
  let content ← resizeVec content newSize
  setContent ino content

def testSetattrSize (ino : UInt64) (fh : Option UInt64) (newSize : UInt64) (now : Now) :
    FsM B Unit := do
  let file ← Prog.read fun s => fh.bind fun fh => (s.openFiles[fh]?).map fun f => (fh, f)
  file.elim (truncateCommitted ino newSize) fun p => truncateHandle p.1 p.2 newSize
  recordTruncation ino newSize now

/-- The access modes and flags of `open`, as on Linux. -/
def O_ACCMODE : UInt32 := 3

def O_WRONLY : UInt32 := 1

def O_RDWR : UInt32 := 2

def O_TRUNC : UInt32 := 0o1000

def isWriteOpen (flags : UInt32) : Prop :=
  flags &&& O_ACCMODE = O_WRONLY ∨ flags &&& O_ACCMODE = O_RDWR

instance (flags : UInt32) : Decidable (isWriteOpen flags) := inferInstanceAs (Decidable (_ ∨ _))

/-- The error of a failed truncation, after the handle is taken back. -/
def closeOnError (fh : UInt64) : Except Errno Unit → FsM B Unit
  | .ok _ => pure ()
  | .error e => do
    removeFile fh
    Prog.fail e

/-- `O_TRUNC` on a handle that was just inserted. -/
def truncateOnOpen (ino fh : UInt64) (flags : UInt32) (now : Now) : FsM B Unit :=
  if flags &&& O_TRUNC ≠ 0 then do
    let r ← Prog.attempt (testSetattrSize ino (some fh) 0 now)
    closeOnError fh r
  else pure ()

def testOpen (ino : UInt64) (flags : UInt32) (now : Now) : FsM B (UInt64 × Bool) := do
  let fh ← allocateFh
  if isWriteOpen flags then do
    putFile fh (.new ino)
    truncateOnOpen ino fh flags now
  else pure ()
  pure (fh, decide (isWriteOpen flags))

/-- What an attempt at a call of the store did, when it did not panic. -/
theorem attempt_onStore_eq_ok {ε' : Type} {m : Prog (Store B) ε α} {r : Except ε α} {s s' : Fs B}
    (h : (Prog.attempt (onStore m) : Prog (Fs B) ε' _) s = (.ok r, s')) :
    s' = { s with store := (m s.store).2 } ∧
      (m s.store).1 = r.mapError Fault.err := by
  unfold Prog.attempt onStore Prog.zoom at h
  cases hm : (m s.store).1 with
  | ok a =>
      rw [hm] at h
      obtain ⟨hr, rfl⟩ := Prod.mk.inj h
      obtain rfl := Except.ok.inj hr
      exact ⟨rfl, rfl⟩
  | error f =>
      rw [hm] at h
      cases f with
      | panic => exact nomatch (Prod.mk.inj h).1
      | err e =>
          obtain ⟨hr, rfl⟩ := Prod.mk.inj h
          obtain rfl := Except.ok.inj hr
          exact ⟨rfl, rfl⟩

/-- The file system grows as its store. -/
abbrev Blockset.Laws.growthFs (L : B.Laws) : Growth (Fs B) := L.growthQuiet.comap Fs.store

variable {L : B.Laws} {g : Growth (Store B)}

theorem part_onStore (g : Growth (Store B)) :
    (g.comap Fs.store).Part g Fs.store (fun st s => { s with store := st }) where
  le_set h := h
  good_set h := h

instance growing_onStore {m : Prog (Store B) ε α} [h : Growing g m] :
    Growing (g.comap Fs.store) (onStore m) :=
  growing_zoom (part_onStore g) h

instance growing_callStore (errno : MetaError → Errno) {m : StoreM B α} [h : Growing g m] :
    Growing (g.comap Fs.store) (callStore errno m) := by
  unfold callStore
  infer_instance

instance growing_getFile (fh : UInt64) : Growing (g.comap Fs.store) (getFile fh : FsM B _) :=
  growing_read _

instance growing_putFile (fh : UInt64) (f : OpenFileState B) :
    Growing (g.comap Fs.store) (putFile fh f) :=
  growing_modify fun s => g.le_refl s.store

instance growing_removeFile (fh : UInt64) :
    Growing (g.comap Fs.store) (removeFile fh : FsM B Unit) :=
  growing_modify fun s => g.le_refl s.store

instance growing_allocateFh : Growing (g.comap Fs.store) (allocateFh : FsM B UInt64) := by
  have hnext : ∀ fh, Growing (g.comap Fs.store)
      (Prog.modify (fun s => { s with nextFh := fh + 1 }) : FsM B Unit) :=
    fun fh => growing_modify fun s => g.le_refl s.store
  unfold allocateFh
  infer_instance

instance growing_insertHandle (ino : UInt64) :
    Growing (g.comap Fs.store) (insertHandle ino : FsM B UInt64) := by
  unfold insertHandle
  infer_instance

instance growing_pushBuffer (buf : Bytes) :
    Growing L.growthFsa (pushBuffer buf : Prog B.Fsa ε Digest224) := by
  unfold pushBuffer
  infer_instance

instance growing_pushContent (mode : WriteMode B) :
    Growing L.growthFsa (pushContent mode : Prog B.Fsa ε Digest224) := by
  cases mode <;> unfold pushContent <;> infer_instance

instance growing_contentDigest [StoreGrowth L g] (mode : WriteMode B) :
    Growing (g.comap Fs.store) (contentDigest mode) := by
  unfold contentDigest
  infer_instance

instance growing_fileStorageGet [StoreGrowth L g] (d : Digest224) :
    Growing (g.comap Fs.store) (fileStorageGet d : FsM B (Option Bytes)) := by
  unfold fileStorageGet
  infer_instance

instance growing_materialize [StoreGrowth L g] (state : B.State) :
    Growing (g.comap Fs.store) (materialize state) := by
  unfold materialize
  infer_instance

instance growing_blockContent [StoreGrowth L g] (d : Option Digest224) :
    Growing (g.comap Fs.store) (blockContent d : FsM B Bytes) := by
  cases d <;> unfold blockContent <;> infer_instance

instance growing_requireContent [StoreGrowth L g] (d : Option Digest224) :
    Growing (g.comap Fs.store) (requireContent d : FsM B Bytes) := by
  cases d <;> unfold requireContent <;> infer_instance

instance growing_committedContent [StoreGrowth L g] (ino : UInt64) :
    Growing (g.comap Fs.store) (committedContent ino : FsM B Bytes) := by
  unfold committedContent
  infer_instance

instance growing_writeInto (buf : Bytes) (offset : UInt64) (data : Bytes) :
    Growing (g.comap Fs.store) (writeInto buf offset data : FsM B Bytes) := by
  unfold writeInto
  infer_instance

instance growing_decrementIfSome [StoreGrowth L g] (d : Option Digest224) :
    Growing (g.comap Fs.store) (decrementIfSome d : FsM B Unit) := by
  cases d <;> unfold decrementIfSome <;> infer_instance

instance growing_streamedContent [StoreGrowth L g] (state : B.State) :
    Growing (g.comap Fs.store) (streamedContent state) := by
  unfold streamedContent
  infer_instance

instance growing_fallbackWrite [StoreGrowth L g] (fh : UInt64) (f : OpenFileState B)
    (state : B.State) (offset : UInt64) (data : Bytes) :
    Growing (g.comap Fs.store) (fallbackWrite fh f state offset data) := by
  unfold fallbackWrite fallbackBase
  infer_instance

instance growing_pushChecked (state : B.State) (data : Bytes) :
    Growing L.growthFsa (pushChecked state data : Prog B.Fsa ε _) := by
  unfold pushChecked
  infer_instance

instance growing_sequentialWrite [StoreGrowth L g] (fh : UInt64) (f : OpenFileState B)
    (state : B.State) (next : UInt64) (data : Bytes) :
    Growing (g.comap Fs.store) (sequentialWrite fh f state next data) := by
  unfold sequentialWrite advance
  infer_instance

instance growing_bufferedWrite [StoreGrowth L g] (fh : UInt64) (f : OpenFileState B) (buf : Bytes)
    (offset : UInt64) (data : Bytes) :
    Growing (g.comap Fs.store) (bufferedWrite fh f buf offset data) := by
  unfold bufferedWrite
  infer_instance

instance growing_writeHandle [StoreGrowth L g] (fh offset : UInt64) (data : Bytes)
    (f : OpenFileState B) : Growing (g.comap Fs.store) (writeHandle fh offset data f) := by
  unfold writeHandle
  split <;> infer_instance

instance growing_testWrite [StoreGrowth L g] (fh offset : UInt64) (data : Bytes) :
    Growing (g.comap Fs.store) (testWrite fh offset data : FsM B UInt32) := by
  unfold testWrite
  infer_instance

instance growing_recordDigest [StoreGrowth L g] (ino : UInt64) (old : Option Digest224)
    (new : Digest224) : Growing (g.comap Fs.store) (recordDigest ino old new : FsM B Unit) := by
  unfold recordDigest
  infer_instance

instance growing_editInode [InodeGrowth L g] (errno : MetaError → Errno) (ino : UInt64)
    (change : InodeMeta → InodeMeta) :
    Growing (g.comap Fs.store) (editInode errno ino change : FsM B Unit) := by
  unfold editInode
  infer_instance

instance growing_recordSize [InodeGrowth L g] (ino size : UInt64) (now : Now) :
    Growing (g.comap Fs.store) (recordSize ino size now : FsM B Unit) := by
  unfold recordSize
  infer_instance

instance growing_releaseEmpty [StoreGrowth L g] (ino : UInt64) (f : OpenFileState B) :
    Growing (g.comap Fs.store) (releaseEmpty ino f) := by
  unfold releaseEmpty
  infer_instance

instance growing_releaseContent [InodeGrowth L g] (ino : UInt64) (f : OpenFileState B) (now : Now) :
    Growing (g.comap Fs.store) (releaseContent ino f now) := by
  unfold releaseContent
  infer_instance

instance growing_releaseHandle [InodeGrowth L g] (ino fh : UInt64) (now : Now)
    (f : OpenFileState B) : Growing (g.comap Fs.store) (releaseHandle ino fh now f) := by
  unfold releaseHandle
  infer_instance

instance growing_option_elim {β γ : Type} {o : Option β} {n : FsM B γ} {k : β → FsM B γ}
    [hn : Growing (g.comap Fs.store) n] [hk : ∀ b, Growing (g.comap Fs.store) (k b)] :
    Growing (g.comap Fs.store) (o.elim n k) := by
  cases o with
  | none => exact hn
  | some b => exact hk b

instance growing_testRelease [InodeGrowth L g] (ino fh : UInt64) (now : Now) :
    Growing (g.comap Fs.store) (testRelease ino fh now : FsM B Unit) := by
  unfold testRelease
  infer_instance

instance growing_flushBufferForFsync [InodeGrowth L g] (ino fh : UInt64) (now : Now) :
    Growing (g.comap Fs.store) (flushBufferForFsync ino fh now : FsM B Unit) := by
  unfold flushBufferForFsync flushHandle
  infer_instance

instance growing_testFlush [InodeGrowth L g] (ino fh : UInt64) (now : Now) :
    Growing (g.comap Fs.store) (testFlush ino fh now : FsM B Unit) :=
  growing_flushBufferForFsync ino fh now

instance growing_testFsync [InodeGrowth L g] (ino fh : UInt64) (now : Now) :
    Growing (g.comap Fs.store) (testFsync ino fh now : FsM B Unit) := by
  unfold testFsync
  infer_instance

instance growing_readContent [StoreGrowth L g] (ino : UInt64) (mode : Option (WriteMode B)) :
    Growing (g.comap Fs.store) (readContent ino mode) := by
  unfold readContent readManifest
  split <;> infer_instance

instance growing_testRead [StoreGrowth L g] (order : List UInt64) (ino offset : UInt64)
    (size : UInt32) :
    Growing (g.comap Fs.store) (testRead order ino offset size : FsM B Bytes) := by
  unfold testRead
  infer_instance

instance growing_resizeVec (buf : Bytes) (n : UInt64) :
    Growing (g.comap Fs.store) (resizeVec buf n : FsM B Bytes) := by
  unfold resizeVec
  infer_instance

instance growing_truncateHandle [StoreGrowth L g] (fh : UInt64) (f : OpenFileState B)
    (newSize : UInt64) : Growing (g.comap Fs.store) (truncateHandle fh f newSize) := by
  unfold truncateHandle truncateToZero truncateBuffered truncateStreaming streamBase
  split
  · infer_instance
  · split <;> infer_instance

instance growing_recordTruncation [InodeGrowth L g] (ino newSize : UInt64) (now : Now) :
    Growing (g.comap Fs.store) (recordTruncation ino newSize now : FsM B Unit) := by
  unfold recordTruncation
  infer_instance

instance growing_manifestOrEmpty (r : Except MetaError (List Digest224)) :
    Growing (g.comap Fs.store) (manifestOrEmpty r : FsM B (List Digest224)) := by
  unfold manifestOrEmpty
  split <;> infer_instance

instance growing_setContent [StoreGrowth L g] (ino : UInt64) (content : Bytes) :
    Growing (g.comap Fs.store) (setContent ino content : FsM B Unit) := by
  unfold setContent
  infer_instance

instance growing_truncateCommitted [StoreGrowth L g] (ino newSize : UInt64) :
    Growing (g.comap Fs.store) (truncateCommitted ino newSize : FsM B Unit) := by
  unfold truncateCommitted
  infer_instance

instance growing_testSetattrSize [InodeGrowth L g] (ino : UInt64) (fh : Option UInt64)
    (newSize : UInt64) (now : Now) :
    Growing (g.comap Fs.store) (testSetattrSize ino fh newSize now : FsM B Unit) := by
  unfold testSetattrSize
  infer_instance

instance growing_closeOnError (fh : UInt64) (r : Except Errno Unit) :
    Growing (g.comap Fs.store) (closeOnError fh r : FsM B Unit) := by
  unfold closeOnError
  split <;> infer_instance

instance growing_truncateOnOpen [InodeGrowth L g] (ino fh : UInt64) (flags : UInt32) (now : Now) :
    Growing (g.comap Fs.store) (truncateOnOpen ino fh flags now : FsM B Unit) := by
  unfold truncateOnOpen
  infer_instance

instance growing_testOpen [InodeGrowth L g] (ino : UInt64) (flags : UInt32) (now : Now) :
    Growing (g.comap Fs.store) (testOpen ino flags now : FsM B (UInt64 × Bool)) := by
  unfold testOpen
  infer_instance

end

end SliceFs
