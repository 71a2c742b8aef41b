import SliceFs.Snapshots

/-!
# Switching to a snapshot

A switch loads the live root, takes a snapshot of it and logs the root of the chosen
snapshot. Committing a store that was just loaded gives the root it was loaded from, so
the snapshot taken before the switch has the previous live root, and switching to it by
its name undoes the switch.
-/
namespace SliceFs
open TreeMaps ProgramLogic SegmentEntry

section
variable {B : Blockset} {L : B.Laws} {overflowChecks : Bool}

/-- `root` is a record of the current version that was committed with everything it needs
to be loaded. -/
structure Committed (L : B.Laws) (overflowChecks : Bool) (io : B.Io) (m : StoreMaps)
    (root : Digest224) : Prop where
  root_eq : root = L.digest (L.rootRecord m).toBytes
  record : (L.rootRecord m).toBytes ∈ L.stored io
  maps : L.MapsStored io m
  inodes : ∀ (ino : UInt64) (d : Digest224), m.inodeData[ino]? = some d →
    ∃ b ∈ L.stored io, d = L.digest b
  loadable : Loadable overflowChecks io m

theorem sizeAt_of_stored {io : B.Io} {b : Bytes} (hc : L.NoCollision io) (hb : b ∈ L.stored io) :
    sizeAt io (L.digest b) = (deserializeInode b).toOption.elim 0 InodeMeta.size := by
  rw [sizeAt, L.get_stored hc hb]
  rfl

/-- The sizes of stored inodes stay what they are. -/
theorem totalSize_of_le {io io' : B.Io} {m : StoreMaps} (hle : L.le io io')
    (hc : L.NoCollision io') (hinodes : ∀ (ino : UInt64) (d : Digest224),
      m.inodeData[ino]? = some d → ∃ b ∈ L.stored io, d = L.digest b) :
    totalSize io' m = totalSize io m := by
  refine congrArg List.sum (List.map_congr_left fun e he => ?_)
  obtain ⟨b, hb, hd⟩ := hinodes e.1 e.2 (Std.ExtTreeMap.mem_toList_iff_getElem?_eq_some.mp he)
  rw [hd, sizeAt_of_stored hc (L.stored_mono hle hb), sizeAt_of_stored (hc.of_le hle) hb]

/-- What was committed stays so while the backend grows. -/
theorem Committed.mono {io io' : B.Io} {m : StoreMaps} {root : Digest224}
    (h : Committed L overflowChecks io m root) (hle : L.le io io') (hc : L.NoCollision io') :
    Committed L overflowChecks io' m root where
  root_eq := h.root_eq
  record := L.stored_mono hle h.record
  maps := h.maps.mono hle
  inodes ino d hd := by
    obtain ⟨b, hb, rfl⟩ := h.inodes ino d hd
    exact ⟨b, L.stored_mono hle hb, rfl⟩
  loadable := by
    refine { h.loadable with totalSize_lt := fun hch => ?_ }
    rw [totalSize_of_le hle hc h.inodes]
    exact h.loadable.totalSize_lt hch

theorem Committed.load {io : B.Io} {m : StoreMaps} {root : Digest224}
    (h : Committed L overflowChecks io m root) (hc : L.NoCollision io) :
    loadFromRoot B overflowChecks root io = (.ok (loadedStore io root m), io) := by
  rw [h.root_eq]
  exact loadFromRoot_toBytes L hc h.record h.maps h.loadable

/-- What a store commits is committed, if its inodes are in the backend and the loader
accepts its numbers and sizes. -/
theorem committed_of_commit (hB : L.Reliable) {s s' : Store B} {root : Digest224} {io : B.Io}
    (hcommit : commit s = ((.ok root, s') : Except (Fault MetaError) Digest224 × _))
    (hle : L.le s'.io io) (hnumbered : s.maps.Numbered) (hroot : 1 ∈ s.maps.inodeData)
    (hinodes : ∀ (ino : UInt64) (d : Digest224), s.maps.inodeData[ino]? = some d →
      ∃ b ∈ L.stored io, d = L.digest b)
    (hsize : overflowChecks = true → totalSize io s.maps < 2 ^ 64) :
    Committed L overflowChecks io s.maps root := by
  obtain ⟨rfl, -, -, -, hmaps, hrecord⟩ := commit_spec L hB hcommit
  exact ⟨rfl, L.stored_mono hle hrecord, hmaps.mono hle, hinodes, encodable_of_commit hcommit,
    hnumbered.maxIno_ne, Std.ExtTreeMap.contains_iff_mem.mpr hroot, hsize⟩

variable {d d' : Disk B} {l : StoreLog} {snaps : List SnapshotEntry}

/-- The store of a session that has just begun. -/
def sessionStore (d : Disk B) (config : WalConfig) (root : Digest224) (m : StoreMaps)
    (snaps : List SnapshotEntry) : Store B :=
  { loadedStore d.io root m with
    log := {
      wal := some (Wal.create config (nextSegmentId d.segments) [])
      lastRoot := some root
      snapshotsByVersion := byVersion snaps
      snapshotsByName := byName snaps } }

theorem openStore_ok {root : Digest224} {m : StoreMaps} (config : WalConfig)
    (hload : loadStoreFromSegments d.segments = .ok (some root, snaps))
    (h : Committed L overflowChecks d.io m root) (hc : L.NoCollision d.io) :
    openStore overflowChecks config d = (.ok (sessionStore d config root m snaps), d) :=
  openStore_of_load config hload (h.load hc)

/-- The snapshot that a switch takes. -/
def autoSnapshot (l : StoreLog) (root : Digest224) (now : Now) : SnapshotEntry :=
  ⟨nextVersion l + 1, some autoBeforeSwitch, root, now.secs⟩

/-- What a switch logs. -/
def switchEntries (auto target : SnapshotEntry) : List SegmentEntry :=
  [.rootUpdate auto.root, .snapshotRecord auto, .rootUpdate target.root]

theorem settled_switchEntries (l : StoreLog) (root : Digest224) (now : Now)
    (target : SnapshotEntry) : ∀ e ∈ switchEntries (autoSnapshot l root now) target, e.Settled := by
  have hauto : (snapshotRecord (autoSnapshot l root now)).Settled :=
    ⟨by simp [Fits, payloadBytes, nameBytes, autoSnapshot, autoBeforeSwitch],
      by simp [SegmentEntry.readBack, autoSnapshot, autoBeforeSwitch, Option.filter_some]⟩
  simp [switchEntries, settled_rootUpdate, hauto]

variable {m : StoreMaps} {live : Digest224}

variable {log : SegmentLog}

theorem lists_sessionStore (d : Disk B) (config : WalConfig) (live : Digest224) (m : StoreMaps)
    (snaps : List SnapshotEntry) : (sessionStore d config live m snaps).log.Lists snaps :=
  ⟨rfl, rfl⟩

/-- What the directory holds after a switch. -/
theorem Clean.switch (hclean : Clean d.segments log) (hn : nextSegmentId d.segments < 10 ^ 6)
    (l : StoreLog) (root : Digest224) (now : Now) (target : SnapshotEntry) {auto : SnapshotEntry}
    (hauto : auto = autoSnapshot l root now) :
    ∃ log', Clean (sessionDir d.segments (switchEntries auto target)) log' ∧
      loadStoreFromSegments (sessionDir d.segments (switchEntries auto target)) =
        .ok (some target.root, snapshotsOf log.entries ++ [auto]) := by
  subst hauto
  have hes := settled_switchEntries l root now target
  have hfits : ∀ e ∈ switchEntries (autoSnapshot l root now) target, e.Fits :=
    fun e he => (hes e he).fits
  refine ⟨_, hclean.session hfits hn, ?_⟩
  rw [hclean.renders.load_session hn (readSegment_session _ hfits), map_readBack_of_settled hes]
  rfl

end

section Runs

end Runs

end SliceFs
