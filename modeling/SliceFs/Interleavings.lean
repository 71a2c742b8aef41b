import SliceFs.LockedStore

/-!
# Threads that share a metadata store

The file system, its commands and the background collector are clients of one store. A client
makes one call after the other, and which one it makes next depends on what the calls so far
returned. The calls of all clients are run side by side, a lock or an action at a time.

No interleaving ends with threads that wait for each other: as long as a client is not finished
some thread can go on, and no run is infinite. A call that is not interrupted does what the
single-threaded store does.
-/
namespace SliceFs
open TreeMaps ProgramLogic

namespace Threads
open Locked

/-- The calls that threads make of a store they share, with their errors and results. -/
inductive Call : Type → Type → Type where
  | incrementRefcount (digest : Digest224) : Call MetaError Unit
  | decrementRefcount (digest : Digest224) : Call MetaError Unit
  | getRefcount (digest : Digest224) : Call MetaError UInt64
  | createInode (inode : InodeMeta) : Call MetaError UInt64
  | getInode (ino : UInt64) : Call MetaError InodeMeta
  | updateInode (inode : InodeMeta) : Call MetaError Unit
  | deleteInode (ino : UInt64) : Call MetaError Unit
  | createDirectory (parentIno : UInt64) (name : Str) (inode : InodeMeta) : Call MetaError UInt64
  | listDirectory (ino : UInt64) : Call MetaError (List DirEntry)
  | lookup (parentIno : UInt64) (name : Str) : Call MetaError UInt64
  | link (parentIno : UInt64) (name : Str) (ino : UInt64) : Call MetaError Unit
  | unlink (parentIno : UInt64) (name : Str) : Call MetaError Unit
  | setManifest (ino : UInt64) (blocks : List Digest224) : Call MetaError Unit
  | getManifest (ino : UInt64) : Call MetaError (List Digest224)
  | setXattr (ino : UInt64) (name : Str) (value : Bytes) : Call MetaError Unit
  | getXattr (ino : UInt64) (name : Str) : Call MetaError Bytes
  | listXattrs (ino : UInt64) : Call MetaError (List Str)
  | removeXattr (ino : UInt64) (name : Str) : Call MetaError Unit
  | commit : Call MetaError Digest224
  | commitRoot (root : Digest224) : Call MetaError Unit
  | createSnapshot (name : Option Str) (now : Now) : Call MetaError SnapshotEntry
  | listSnapshots : Call MetaError (List SnapshotEntry)
  | findSnapshot (reference : Str) : Call MetaError (Option SnapshotEntry)
  | currentRoot : Call MetaError (Option Digest224)
  | snapshotRoots : Call MetaError (List Digest224)
  | flushWal : Call WalError Unit
  | shutdownWal : Call WalError Unit

section Calls
variable {B : Blockset} {ε α : Type}

/-- A call in a thread. -/
def Call.perform : Call ε α → Locked Mutex (Store B) ε α
  | incrementRefcount digest => Threads.incrementRefcount digest
  | decrementRefcount digest => Threads.decrementRefcount digest
  | getRefcount digest => Threads.getRefcount digest
  | createInode inode => Threads.createInode inode
  | getInode ino => Threads.getInode ino
  | updateInode inode => Threads.updateInode inode
  | deleteInode ino => Threads.deleteInode ino
  | createDirectory parentIno name inode => Threads.createDirectory parentIno name inode
  | listDirectory ino => Threads.listDirectory ino
  | lookup parentIno name => Threads.lookup parentIno name
  | link parentIno name ino => Threads.link parentIno name ino
  | unlink parentIno name => Threads.unlink parentIno name
  | setManifest ino blocks => Threads.setManifest ino blocks
  | getManifest ino => Threads.getManifest ino
  | setXattr ino name value => Threads.setXattr ino name value
  | getXattr ino name => Threads.getXattr ino name
  | listXattrs ino => Threads.listXattrs ino
  | removeXattr ino name => Threads.removeXattr ino name
  | commit => Threads.commit
  | commitRoot root => Threads.commitRoot root
  | createSnapshot name now => Threads.createSnapshot name now
  | listSnapshots => Threads.listSnapshots
  | findSnapshot reference => Threads.findSnapshot reference
  | currentRoot => Threads.currentRoot
  | snapshotRoots => Threads.snapshotRoots
  | flushWal => Threads.flushWal
  | shutdownWal => Threads.shutdownWal

/-- The call in the single-threaded store. -/
def Call.run : Call ε α → Prog (Store B) ε α
  | incrementRefcount digest => SliceFs.incrementRefcount digest
  | decrementRefcount digest => SliceFs.decrementRefcount digest
  | getRefcount digest => SliceFs.getRefcount digest
  | createInode inode => SliceFs.createInode inode
  | getInode ino => SliceFs.getInode ino
  | updateInode inode => SliceFs.updateInode inode
  | deleteInode ino => SliceFs.deleteInode ino
  | createDirectory parentIno name inode => SliceFs.createDirectory parentIno name inode
  | listDirectory ino => SliceFs.listDirectory ino
  | lookup parentIno name => SliceFs.lookup parentIno name
  | link parentIno name ino => SliceFs.link parentIno name ino
  | unlink parentIno name => SliceFs.unlink parentIno name
  | setManifest ino blocks => SliceFs.setManifest ino blocks
  | getManifest ino => SliceFs.getManifest ino
  | setXattr ino name value => SliceFs.setXattr ino name value
  | getXattr ino name => SliceFs.getXattr ino name
  | listXattrs ino => SliceFs.listXattrs ino
  | removeXattr ino name => SliceFs.removeXattr ino name
  | commit => SliceFs.commit
  | commitRoot root => SliceFs.commitRoot root
  | createSnapshot name now => SliceFs.createSnapshot name now
  | listSnapshots => readLog SliceFs.listSnapshots
  | findSnapshot reference => readLog (SliceFs.findSnapshot reference)
  | currentRoot => readLog StoreLog.lastRoot
  | snapshotRoots => readLog SliceFs.snapshotRoots
  | flushWal => SliceFs.flushWal
  | shutdownWal => SliceFs.shutdownWal

/-- A call that no other thread interrupts does what the single-threaded store does. -/
theorem Call.alone_perform (call : Call ε α) :
    (call.perform : Locked Mutex (Store B) ε α).alone = call.run := by
  cases call <;> simp only [Call.perform, Call.run, alone_incrementRefcount,
    alone_decrementRefcount, alone_getRefcount, alone_createInode, alone_getInode,
    alone_updateInode, alone_deleteInode, alone_createDirectory, alone_listDirectory,
    alone_lookup, alone_link, alone_unlink, alone_setManifest, alone_getManifest, alone_setXattr,
    alone_getXattr, alone_listXattrs, alone_removeXattr, alone_commit, alone_commitRoot,
    alone_createSnapshot, alone_listSnapshots, alone_findSnapshot, alone_currentRoot,
    alone_snapshotRoots, alone_flushWal, alone_shutdownWal]

instance Call.orderly_perform (call : Call ε α) :
    Orderly Mutex.rank ∅ (call.perform : Locked Mutex (Store B) ε α) := by
  cases call <;> unfold Call.perform <;> infer_instance

end Calls

/-- A client that waits for a call goes on with whatever it returns. -/
inductive Client : Type 1 where
  | stop
  | send {ε α : Type} (call : Call ε α) (next : Except ε α → Client)

section Pools
variable {B : Blockset} {ι : Type}

/-- The thread of a client. A panic ends it. -/
def Client.program : Client → Locked Mutex (Store B) Empty Unit
  | stop => pure ()
  | send call next => do
    let outcome ← attempt call.perform
    (next outcome).program

instance orderly_program (client : Client) :
    Orderly Mutex.rank ∅ (client.program : Locked Mutex (Store B) Empty Unit) := by
  induction client with
  | stop => exact orderly_pure ()
  | send call next ih =>
      unfold Client.program
      infer_instance

/-- The threads of clients on a store. -/
abbrev StorePool (B : Blockset) (ι : Type) := Pool ι Mutex (Store B) Empty Unit

variable [DecidableEq ι]

/-- What the clients come to in some interleaving. -/
def Reached (clients : ι → Client) (s : Store B) : StorePool B ι → Prop :=
  Relation.ReflTransGen Pool.Step (.start (fun i => (clients i).program) s)

variable {clients : ι → Client} {s : Store B} {p : StorePool B ι}

theorem Reached.orderly (h : Reached clients s p) : p.Orderly Mutex.rank := by
  induction h with
  | refl => exact Pool.orderly_start (fun i => orderly_program (clients i)) s
  | tail _ hstep ih => exact hstep.orderly ih

/-- When no lock is held a client may make its next call without interruption. The store
changes then as the single-threaded one does, and the client is told the same. -/
theorem Reached.uninterrupted (h : Reached clients s p) (hheld : ∀ j, p.held j = ∅) {i : ι}
    {ε α : Type} {call : Call ε α} {next : Except ε α → Client}
    (hi : p.threads i = (Client.send call next).program) {outcome : Except ε α} {s' : Store B}
    (hrun : (Prog.attempt call.run : Prog (Store B) Empty _) p.shared = (.ok outcome, s')) :
    Reached clients s
      ⟨Function.update p.threads i (next outcome).program, p.held, s'⟩ := by
  have hordered : Orderly Mutex.rank ∅
      (attempt call.perform : Locked Mutex (Store B) Empty (Except ε α)) := inferInstance
  have hsteps := Pool.runs_alone hi (by rw [hheld i]; exact hordered.ordered) fun j _ => hheld j
  rw [alone_attempt, call.alone_perform, hrun, ← hheld i, Function.update_eq_self] at hsteps
  exact h.trans hsteps

/-- From any moment of any interleaving on, some thread can go on unless all are finished, the
threads cannot run for ever, and they can come to their end. Where no lock is held, the next
call of any client may be made as in the single-threaded store. -/
theorem clients_never_deadlock [Finite ι] (clients : ι → Client) (s : Store B)
    (p : StorePool B ι) (h : Reached clients s p) :
    ((∃ i, ¬ p.Finished i) → ∃ p', p.Step p') ∧
      (¬ ∃ run : ℕ → StorePool B ι, run 0 = p ∧ ∀ n, (run n).Step (run (n + 1))) ∧
      (∃ p', Relation.ReflTransGen Pool.Step p p' ∧ ∀ i, p'.Finished i) ∧
      ((∀ j, p.held j = ∅) → ∀ (i : ι) (ε α : Type) (call : Call ε α) (next : Except ε α → Client),
        p.threads i = (Client.send call next).program → ∀ (outcome : Except ε α) (s' : Store B),
          (Prog.attempt call.run : Prog (Store B) Empty _) p.shared = (.ok outcome, s') →
            Reached clients s
              ⟨Function.update p.threads i (next outcome).program, p.held, s'⟩) := by
  refine ⟨?_, ?_, Pool.finishes h.orderly, ?_⟩
  · rintro ⟨i, hi⟩
    exact Pool.exists_step h.orderly hi
  · rintro ⟨run, -, hrun⟩
    exact (wellFounded_iff_isEmpty_descending_chain.mp Pool.wellFounded_step).false ⟨run, hrun⟩
  · intro hheld i ε α call next hi outcome s' hrun
    exact h.uninterrupted hheld hi hrun

/-- One client makes a file and the other commits. -/
def twoClients : Bool → Client
  | true => .send (.createInode (.newFile 0 0 0 (S_IFREG ||| 0o644))) fun _ => .stop
  | false => .send .commit fun _ => .stop

theorem clients_never_deadlock_twoClients :
    (∃ p, Reached twoClients freshStore p ∧ .inodeMap ∈ p.held true ∧
      (∃ rest, p.threads false = .lock .inodeMap rest) ∧
        ∃ p', Relation.ReflTransGen Pool.Step p p' ∧ ∀ i, p'.Finished i) ∧
      ∃ p, Reached twoClients freshStore p ∧ p.Finished true ∧ p.shared.maps.inodeCount = 2 := by
  have hstart : Reached twoClients freshStore _ := .refl
  have hstep : Pool.Step (.start (fun i => (twoClients i).program) freshStore) _ :=
    .lock (i := true) (l := .inodeMap) rfl fun _ => Finset.notMem_empty _
  have hreached : Reached twoClients freshStore _ := .single hstep
  have hmade : ((Prog.attempt (Call.run
      (.createInode (.newFile 0 0 0 (S_IFREG ||| 0o644)))) : Prog _ Empty _) freshStore).1 =
        .ok (.ok 2) := by
    decide +kernel
  have hdone := (clients_never_deadlock twoClients freshStore _ hstart).2.2.2 (fun _ => rfl) true
    _ _ _ _ rfl _ _ (Prod.ext hmade rfl)
  refine ⟨⟨_, hreached, by simp, ⟨_, rfl⟩,
    (clients_never_deadlock twoClients freshStore _ hreached).2.2.1⟩, _, hdone, ⟨.ok (), rfl⟩, ?_⟩
  decide +kernel

end Pools

end Threads

end SliceFs
