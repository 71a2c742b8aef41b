import SliceFs.Snapshots

/-!
# What a snapshot reference resolves to

A reference that reads as a number is taken for a version, whatever snapshots are called,
so a name that reads as a number finds the snapshot of that version. An empty name is
written to the log like no name, and is gone once the log is replayed.
-/
namespace SliceFs
open TreeMaps ProgramLogic SegmentEntry

/-- A snapshot as its record reads back. -/
def SnapshotEntry.readBack (s : SnapshotEntry) : SnapshotEntry :=
  { s with name := s.name.filter fun n => n.bytes ≠ [] }

theorem snapshotsOf_map_readBack (es : List SegmentEntry) :
    snapshotsOf (es.map SegmentEntry.readBack) = (snapshotsOf es).map SnapshotEntry.readBack := by
  rw [snapshotsOf, snapshotsOf, List.filterMap_map, List.map_filterMap]
  refine List.filterMap_congr fun e _ => ?_
  cases e <;> rfl

section
variable {snaps : List SnapshotEntry} {n : Str} {e : SnapshotEntry} {l : StoreLog}

end

section
variable {B : Blockset} {ε : Type} {d d' : Disk B} {l : StoreLog} {snaps : List SnapshotEntry}

/-- Snapshots, one after the other. -/
def createAll : List (Option Str × Now) → Prog (Store B) ε (List SnapshotEntry)
  | [] => pure []
  | c :: calls => do
    let e ← createSnapshot c.1 c.2
    let es ← createAll calls
    pure (e :: es)

/-- The snapshots made so far are in the table, and their records are in the segments or
were logged as they are. -/
structure Recorded (d : Disk B) (l : StoreLog) (snaps : List SnapshotEntry) : Prop where
  increasing : Increasing snaps
  lists : l.Lists snaps
  logged : ∃ wal log es, l.wal = some wal ∧ wal.Logged (nextSegmentId d.segments) es ∧
    nextSegmentId d.segments < 10 ^ 6 ∧ Clean d.segments log ∧ (∀ e ∈ es, e.Fits) ∧
    snapshotsOf log.entries ++ snapshotsOf es = snaps

theorem Kept.recorded (h : Kept d l snaps) : Recorded d l snaps := by
  obtain ⟨increasing, lists, wal, log, es, hwal, hlogged, hn, hclean, hes, hsnaps⟩ := h
  exact ⟨increasing, lists, wal, log, es, hwal, hlogged, hn, hclean, fun e he => (hes e he).fits,
    hsnaps⟩

theorem Recorded.logSnapshot (h : Recorded d l snaps) (root : Digest224) {e : SnapshotEntry}
    (hmax : nextVersion l ≠ u64Max) (hversion : e.version = nextVersion l + 1)
    (he : (snapshotRecord e).Fits) :
    Recorded d ((l.logRoot root).logSnapshot e) (snaps ++ [e]) := by
  obtain ⟨increasing, lists, wal, log, es, hwal, hlogged, hn, hclean, hes, hsnaps⟩ := h
  refine ⟨increasing.append lists hmax hversion, ⟨?_, ?_⟩, _, log,
    es ++ [.rootUpdate root] ++ [.snapshotRecord e], ?_,
    (hlogged.logMutation (.rootUpdate root)).logMutation (.snapshotRecord e), hn, hclean, ?_, ?_⟩
  · rw [byVersion_append, ← lists.version]
    rfl
  · rw [byName_append, ← lists.name]
    rfl
  · rw [StoreLog.logSnapshot, StoreLog.logRoot, hwal]
    rfl
  · simpa [or_imp, forall_and, he, (settled_rootUpdate root).fits] using hes
  · rw [snapshotsOf_append, snapshotsOf_append, ← List.append_assoc, ← List.append_assoc, hsnaps]
    simp [snapshotsOf, SegmentEntry.snapshot?]

theorem fits_of_name {e : SnapshotEntry} (h : ∀ n ∈ e.name, n.bytes.length < nameBound) :
    (snapshotRecord e).Fits := by
  cases hname : e.name with
  | none => simp [Fits, payloadBytes, nameBytes, hname, Str.empty]
  | some n =>
      have hlen := h n hname
      unfold nameBound at hlen
      simp [Fits, payloadBytes, nameBytes, hname]
      omega

theorem Recorded.createAll {calls : List (Option Str × Now)} {s s' : Store B}
    {made : List SnapshotEntry} (h : Recorded d s.log snaps)
    (hnames : ∀ c ∈ calls, ∀ n ∈ c.1, n.bytes.length < nameBound)
    (hrun : createAll calls s = ((.ok made, s') : Except (Fault ε) _ × _)) :
    Recorded d s'.log (snaps ++ made) ∧ made.map SnapshotEntry.name = calls.map Prod.fst := by
  induction calls generalizing s snaps made with
  | nil =>
      obtain ⟨hmade, rfl⟩ := Prod.mk.inj hrun
      obtain rfl := Except.ok.inj hmade
      rw [List.append_nil]
      exact ⟨h, rfl⟩
  | cons c calls ih =>
      obtain ⟨e, s₁, hcreate, hrest⟩ := Prog.bind_eq_ok hrun
      obtain ⟨es, s₂, hall, hpure⟩ := Prog.bind_eq_ok hrest
      obtain ⟨hmade, rfl⟩ := Prod.mk.inj hpure
      obtain rfl := Except.ok.inj hmade
      rcases createSnapshot_cases (ε := ε) c.1 c.2 s with
        ⟨f, s₃, hfail, -⟩ | ⟨r, s₃, hok, hmax, hlog⟩
      · rw [hfail] at hcreate
        cases hcreate
      · rw [hok] at hcreate
        obtain ⟨he, rfl⟩ := Prod.mk.inj hcreate
        obtain rfl := Except.ok.inj he
        have h₁ : Recorded d s₃.log (snaps ++ [⟨nextVersion s.log + 1, c.1, r, c.2.secs⟩]) := by
          rw [hlog]
          exact h.logSnapshot r hmax rfl (fits_of_name (hnames c List.mem_cons_self))
        obtain ⟨h₂, hmap⟩ := ih h₁ (fun c' hc' => hnames c' (List.mem_cons_of_mem _ hc')) hall
        rw [List.append_assoc] at h₂
        exact ⟨h₂, congrArg₂ List.cons rfl hmap⟩

/-- Replaying the segments gives the snapshots as their records read back. -/
theorem Recorded.load {s : Store B} (h : Recorded d s.log snaps) :
    ∃ root, loadStoreFromSegments ((inStore s shutdownWal d).2 : Disk B).segments =
      .ok (root, snaps.map SnapshotEntry.readBack) := by
  obtain ⟨-, -, wal, log, es, hwal, hlogged, hn, hclean, hes, hsnaps⟩ := h
  have hdir : ((inStore s shutdownWal d).2 : Disk B).segments = sessionDir d.segments es := by
    rw [inStore, shutdownWal_eq hwal hlogged]
    exact keep_segments rfl hlogged.flushAndSync.1 hlogged.flushAndSync.2.1
  have hsettled : (snapshotsOf log.entries).map SnapshotEntry.readBack =
      snapshotsOf log.entries := by
    rw [← snapshotsOf_map_readBack, map_readBack_of_settled]
    intro e he
    obtain ⟨p, hp, hmem⟩ := List.mem_flatMap.mp he
    exact hclean.settled p.1 p.2 (Std.ExtTreeMap.mem_toList_iff_getElem?_eq_some.mp hp) e hmem
  rw [hdir, (hclean.session hes hn).renders.load,
    SegmentLog.entries_insert fun m hm => hclean.renders.lt_nextSegmentId hm, snapshotsOf_append,
    snapshotsOf_map_readBack, ← hsnaps, List.map_append, hsettled]
  exact ⟨_, rfl⟩

end

end SliceFs
