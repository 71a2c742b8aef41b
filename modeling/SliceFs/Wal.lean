import SliceFs.ProgramLogic
import SliceFs.Segment

/-!
# Write-ahead logging

A mounted store appends to one segment through a buffered writer. `written` is
everything handed to the writer since the file was created and `synced` is how much
of it is known to be on disk; a crash leaves a prefix of `written` at least that
long. Each write and each sync of the writer may fail; `faults` lists the outcomes
of the coming ones, and after its end all of them succeed. An entry takes three writes,
so one that fails may leave a part of its frame behind.
-/
namespace SliceFs
open ProgramLogic LittleEndian SegmentEntry

inductive WalError where
  | io
deriving DecidableEq

/-- How a call of the writer ends; `taken` is how far a write got that went past the buffer. -/
inductive Outcome where
  | done
  | failed (taken : ℕ)
deriving DecidableEq

structure SegmentWriter where
  name : FileName
  written : Bytes
  synced : ℕ
  faults : List Outcome
deriving DecidableEq

namespace SegmentWriter

/-- Creating the file truncates it; the header stays in the buffer. -/
def new (name : FileName) (segmentId : ℕ) (faults : List Outcome) : SegmentWriter :=
  ⟨name, headerBytes segmentId, 0, faults⟩

/-- The next call of the writer, by its outcome. -/
def call (done : SegmentWriter → SegmentWriter) (failed : ℕ → SegmentWriter → SegmentWriter) :
    Prog SegmentWriter WalError Unit := fun w =>
  match w.faults with
  | [] => (.ok (), done w)
  | .done :: faults => (.ok (), done { w with faults := faults })
  | .failed taken :: faults => (.error (.err .io), failed taken { w with faults := faults })

def append (w : SegmentWriter) (b : Bytes) : SegmentWriter := { w with written := w.written ++ b }

/-- The capacity of a `BufWriter`. -/
def bufferSize : ℕ := 8192

/-- What a failed write leaves: bytes that fit the buffer get there all or not at all, more of
them go to the file directly. -/
def part (b : Bytes) (taken : ℕ) : Bytes :=
  if b.length < bufferSize then [] else b.dropLast.take taken

def writeAll (b : Bytes) : Prog SegmentWriter WalError Unit :=
  call (fun w => w.append b) fun taken w => w.append (part b taken)

def writeEntry (e : SegmentEntry) : Prog SegmentWriter WalError Unit := do
  writeAll [e.recordType]
  writeAll (u32Bytes (UInt32.ofNat e.payloadBytes.length))
  writeAll e.payloadBytes

def sync : Prog SegmentWriter WalError Unit :=
  call (fun w => { w with synced := w.written.length }) fun _ w => w

def writeEntries : List SegmentEntry → Prog SegmentWriter WalError Unit
  | [] => pure ()
  | e :: es => do
    writeEntry e
    writeEntries es

end SegmentWriter

inductive WalConfig where
  | perOp
  | flushOnFsync
  | periodic
  | noWal
deriving DecidableEq

/-- A write-ahead log in use: its strategy, the entries it holds back and its writer. -/
inductive Wal where
  | perOp (writer : SegmentWriter)
  | flushOnFsync (buffer : List SegmentEntry) (writer : SegmentWriter)
  | periodic (buffer : List SegmentEntry) (writer : SegmentWriter)
  | noWal
deriving DecidableEq

namespace Wal
open SegmentWriter

def create (config : WalConfig) (segmentId : ℕ) (faults : List Outcome) : Wal :=
  match config with
  | .perOp => .perOp (.new (segmentName segmentId) segmentId faults)
  | .flushOnFsync => .flushOnFsync [] (.new (segmentName segmentId) segmentId faults)
  | .periodic => .periodic [] (.new (segmentName segmentId) segmentId faults)
  | .noWal => .noWal

def writer? : Wal → Option SegmentWriter
  | .perOp w => some w
  | .flushOnFsync _ w => some w
  | .periodic _ w => some w
  | .noWal => none

def logMutation (e : SegmentEntry) : Prog Wal WalError Unit := fun wal =>
  match wal with
  | .perOp w =>
    let p := (do writeEntry e; sync) w
    (p.1, .perOp p.2)
  | .flushOnFsync buffer w => (.ok (), .flushOnFsync (buffer ++ [e]) w)
  | .periodic buffer w => (.ok (), .periodic (buffer ++ [e]) w)
  | .noWal => (.ok (), .noWal)

/-- Draining the buffer empties it even when a write fails half-way. -/
def flushAndSync : Prog Wal WalError Unit := fun wal =>
  match wal with
  | .perOp w =>
    let p := sync w
    (p.1, .perOp p.2)
  | .flushOnFsync buffer w =>
    let p := (do writeEntries buffer; sync) w
    (p.1, .flushOnFsync [] p.2)
  | .periodic buffer w =>
    let p := (do writeEntries buffer; sync) w
    (p.1, .periodic [] p.2)
  | .noWal => (.ok (), .noWal)

def shutdown : Prog Wal WalError Unit := flushAndSync

section Quiet
variable {w : SegmentWriter} (hw : w.faults = [])
include hw

theorem writeAll_eq (b : Bytes) : writeAll b w = (.ok (), w.append b) := by
  rw [writeAll, call, hw]

theorem writeEntry_eq (e : SegmentEntry) : writeEntry e w = (.ok (), w.append e.frameBytes) := by
  have hsecond : (w.append [e.recordType]).faults = [] := hw
  have hthird : ((w.append [e.recordType]).append
      (u32Bytes (UInt32.ofNat e.payloadBytes.length))).faults = [] := hw
  rw [writeEntry, Prog.bind_ok (writeAll_eq hw _), Prog.bind_ok (writeAll_eq hsecond _),
    writeAll_eq hthird]
  simp [append, frameBytes]

theorem writeEntries_eq (es : List SegmentEntry) :
    writeEntries es w = (.ok (), w.append (framesBytes es)) := by
  induction es generalizing w with
  | nil => simp [writeEntries, framesBytes, append, Pure.pure, Prog.pure]
  | cons e es ih =>
      rw [writeEntries, Prog.bind_ok (writeEntry_eq hw e), ih (w := w.append e.frameBytes) hw]
      simp [framesBytes, append]

theorem sync_eq : sync w = (.ok (), { w with synced := w.written.length }) := by
  rw [sync, call, hw]

theorem drain_eq (es : List SegmentEntry) :
    (do writeEntries es; sync : Prog SegmentWriter WalError Unit) w = (.ok (), { w with
      written := w.written ++ framesBytes es
      synced := (w.written ++ framesBytes es).length }) := by
  have hwritten : (w.append (framesBytes es)).faults = [] := hw
  rw [Prog.bind_ok (writeEntries_eq hw es), sync_eq hwritten]
  rfl

theorem logMutation_perOp (e : SegmentEntry) :
    logMutation e (.perOp w) = (.ok (), .perOp { w with
      written := w.written ++ e.frameBytes
      synced := (w.written ++ e.frameBytes).length }) := by
  have hwritten : (w.append e.frameBytes).faults = [] := hw
  simp only [logMutation, Prog.bind_ok (writeEntry_eq hw e), sync_eq hwritten]
  rfl

end Quiet

/-- The entries that were logged and not written yet. -/
def held : Wal → List SegmentEntry
  | .perOp _ => []
  | .flushOnFsync buffer _ => buffer
  | .periodic buffer _ => buffer
  | .noWal => []

/-- The log of segment `n`, which was given `es`; no call fails. -/
def Logged (wal : Wal) (n : ℕ) (es : List SegmentEntry) : Prop :=
  ∃ w, wal.writer? = some w ∧ w.name = segmentName n ∧ w.faults = [] ∧
    w.written ++ framesBytes wal.held = headerBytes n ++ framesBytes es

theorem logged_create {config : WalConfig} (h : config ≠ .noWal) (n : ℕ) :
    (Wal.create config n []).Logged n [] := by
  cases config with
  | perOp => exact ⟨_, rfl, rfl, rfl, rfl⟩
  | flushOnFsync => exact ⟨_, rfl, rfl, rfl, rfl⟩
  | periodic => exact ⟨_, rfl, rfl, rfl, rfl⟩
  | noWal => exact absurd rfl h

theorem Logged.logMutation {wal : Wal} {n : ℕ} {es : List SegmentEntry} (h : wal.Logged n es)
    (e : SegmentEntry) : (Wal.logMutation e wal).2.Logged n (es ++ [e]) := by
  obtain ⟨w, hw, hname, hfaults, hwritten⟩ := h
  cases wal with
  | perOp v =>
      obtain rfl : v = w := Option.some.inj hw
      rw [logMutation_perOp hfaults]
      refine ⟨_, rfl, hname, hfaults, ?_⟩
      simpa [held, framesBytes] using congrArg (· ++ e.frameBytes) hwritten
  | flushOnFsync buffer v =>
      obtain rfl : v = w := Option.some.inj hw
      refine ⟨_, rfl, hname, hfaults, ?_⟩
      simpa [held, framesBytes, Wal.logMutation] using congrArg (· ++ e.frameBytes) hwritten
  | periodic buffer v =>
      obtain rfl : v = w := Option.some.inj hw
      refine ⟨_, rfl, hname, hfaults, ?_⟩
      simpa [held, framesBytes, Wal.logMutation] using congrArg (· ++ e.frameBytes) hwritten
  | noWal => cases hw

/-- Flushing writes out what was held back. -/
theorem Logged.flushAndSync {wal : Wal} {n : ℕ} {es : List SegmentEntry} (h : wal.Logged n es) :
    (Wal.flushAndSync wal).2.Logged n es ∧ (Wal.flushAndSync wal).2.held = [] ∧
      (Wal.flushAndSync wal).1 = .ok () := by
  obtain ⟨w, hw, hname, hfaults, hwritten⟩ := h
  cases wal with
  | perOp v =>
      obtain rfl : v = w := Option.some.inj hw
      simp only [Wal.flushAndSync, sync_eq hfaults]
      exact ⟨⟨_, rfl, hname, hfaults, hwritten⟩, rfl, trivial⟩
  | flushOnFsync buffer v =>
      obtain rfl : v = w := Option.some.inj hw
      simp only [Wal.flushAndSync, drain_eq hfaults]
      exact ⟨⟨_, rfl, hname, hfaults, by simpa [held, framesBytes] using hwritten⟩, rfl, trivial⟩
  | periodic buffer v =>
      obtain rfl : v = w := Option.some.inj hw
      simp only [Wal.flushAndSync, drain_eq hfaults]
      exact ⟨⟨_, rfl, hname, hfaults, by simpa [held, framesBytes] using hwritten⟩, rfl, trivial⟩
  | noWal => cases hw

end Wal

end SliceFs
