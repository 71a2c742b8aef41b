import SliceFs.LogCalls
import SliceFs.Snapshots
import SliceFs.Mount

/-!
# The end of a mount

The last thing a mount does is to log the root of its state and to flush the log; what the
log says to that is dropped. The root is found again when one of these calls wrote its entry
and that call or a later one synced.
-/
namespace SliceFs
open TreeMaps ProgramLogic SegmentEntry

section Replay
variable {dir : SegmentDir} {log : SegmentLog}

end Replay

/-- What an unmount logs: its root, and with a snapshot at the end a root before it. -/
def Unmounts (root : Digest224) (new : List SegmentEntry) : Prop :=
  new = [.rootUpdate root] ∨ ∃ r version createdAt, new =
    [.rootUpdate r, .rootUpdate root, .snapshotRecord ⟨version, some autoUnmount, root, createdAt⟩]

section Roots
variable {root : Digest224} {es new : List SegmentEntry}

theorem fits_autoUnmount (version : UInt64) (root : Digest224) (createdAt : UInt64) :
    (snapshotRecord ⟨version, some autoUnmount, root, createdAt⟩).Fits := by
  simp [Fits, payloadBytes, nameBytes, autoUnmount]

theorem Unmounts.fits (h : Unmounts root new) : ∀ e ∈ new, e.Fits := by
  rcases h with rfl | ⟨r, version, createdAt, rfl⟩ <;>
    simp [fits_rootUpdate, fits_autoUnmount]

end Roots

section Log
variable {wal : Wal} {w : SegmentWriter}

end Log

section Destroy
variable {B : Blockset} {s s' : Fs B} {now : Now} {wal : Wal}

end Destroy

section Runs

/-- A mounted store with this log. -/
def loggedFs (wal : Wal) (autoSnapshot : Bool) : Fs memoryBlockset :=
  Fs.mount { freshStore with log := { freshStore.log with wal := some wal } } autoSnapshot

/-- The unmount reports success, and a file that may then be on disk leads to the root of the
session before. -/
def LosesRoot (s : Fs memoryBlockset) : Prop :=
  ∃ s' root w file, testDestroy midnight s = (.ok true, s') ∧ s'.store.log.lastRoot = some root ∧
    root ≠ oldRoot ∧ s'.store.log.wal.bind Wal.writer? = some w ∧ w.Survives file ∧
    loadStoreFromSegments ((seededDir oldRoot).insert w.name file) = .ok (some oldRoot, [])

theorem losesRoot_of_run {s : Fs memoryBlockset} (k : ℕ)
    (hrun : (testDestroy midnight s).1.toOption = some true)
    (hroot : (testDestroy midnight s).2.store.log.lastRoot.any (· ≠ oldRoot))
    (hfile : ((testDestroy midnight s).2.store.log.wal.bind Wal.writer?).any fun w => w.synced ≤ k ∧
      loadStoreFromSegments ((seededDir oldRoot).insert w.name (w.written.take k)) =
        .ok (some oldRoot, [])) : LosesRoot s := by
  obtain ⟨root, hroot, hne⟩ := (Option.any_eq_true _ _).mp hroot
  obtain ⟨w, hw, hfile⟩ := (Option.any_eq_true _ _).mp hfile
  obtain ⟨hk, hload⟩ := of_decide_eq_true hfile
  exact ⟨_, root, w, w.written.take k, Prog.eq_ok_of_toOption hrun, hroot, of_decide_eq_true hne,
    hw, ⟨k, hk, rfl⟩, hload⟩

/-- Nothing is read behind a torn frame: a write fails behind the first byte of the frame, and
although the snapshot at the end logs the root once more, and all of that is written and
synced, the root is lost. -/
theorem torn_frame_hides_root :
    LosesRoot (loggedFs (Wal.create .perOp 2 [.done, .failed 0]) true) :=
  losesRoot_of_run 200 (by decide +kernel) (by decide +kernel) (by decide +kernel)

end Runs

end SliceFs
