import SliceFs.LogCalls
import SliceFs.SegmentReader

/-!
# The strategies of the write-ahead log

Two of the strategies hold entries back until a flush; the third writes and syncs each of
them at once. A flush takes the entries out of the buffer before they are written, so those
that a failed write does not reach are gone.
-/
namespace SliceFs
open ProgramLogic SegmentEntry SegmentWriter

/-- The buffer and the writer of a log that holds entries back. -/
def Wal.buffered? : Wal → Option (List SegmentEntry × SegmentWriter)
  | .flushOnFsync buffer w => some (buffer, w)
  | .periodic buffer w => some (buffer, w)
  | _ => none

/-- A flush would write all that is held back. -/
def Wal.Writes (wal : Wal) : Prop := ∀ p ∈ wal.buffered?, (writeEntries p.1 p.2).1 = .ok ()

/-- No flush among the calls meets a write that fails. -/
def Wal.AllWritten : Wal → List WalCall → Prop
  | _, [] => True
  | wal, c :: cs => (c = .flush → wal.Writes) ∧ Wal.AllWritten (c.run wal) cs

section
variable {wal : Wal} {buffer : List SegmentEntry} {w : SegmentWriter} {n : ℕ}

theorem buffered_create {config : WalConfig} (h : config = .flushOnFsync ∨ config = .periodic)
    (n : ℕ) (faults : List Outcome) : (Wal.create config n faults).buffered? =
      some ([], .new (segmentName n) n faults) := by
  rcases h with rfl | rfl <;> rfl

theorem buffered_log (h : wal.buffered? = some (buffer, w)) (e : SegmentEntry) :
    ((WalCall.log e).run wal).buffered? = some (buffer ++ [e], w) := by
  cases wal with
  | flushOnFsync b v =>
      obtain ⟨rfl, rfl⟩ := Prod.mk.inj (Option.some.inj h)
      rfl
  | periodic b v =>
      obtain ⟨rfl, rfl⟩ := Prod.mk.inj (Option.some.inj h)
      rfl
  | perOp v => cases h
  | noWal => cases h

theorem buffered_flush (h : wal.buffered? = some (buffer, w)) :
    (WalCall.flush.run wal).buffered? = some ([], (drain buffer w).2) ∧
      (Wal.flushAndSync wal).1 = (drain buffer w).1 := by
  cases wal with
  | flushOnFsync b v =>
      obtain ⟨rfl, rfl⟩ := Prod.mk.inj (Option.some.inj h)
      exact ⟨rfl, rfl⟩
  | periodic b v =>
      obtain ⟨rfl, rfl⟩ := Prod.mk.inj (Option.some.inj h)
      exact ⟨rfl, rfl⟩
  | perOp v => cases h
  | noWal => cases h

theorem writer_of_buffered (h : wal.buffered? = some (buffer, w)) : wal.writer? = some w := by
  cases wal with
  | flushOnFsync b v => exact congrArg (Option.map Prod.snd) h
  | periodic b v => exact congrArg (Option.map Prod.snd) h
  | perOp v => cases h
  | noWal => cases h

/-- What a flush writes: all that was held back, or less when a write fails. -/
theorem written_flush (buffer : List SegmentEntry) (w : SegmentWriter) :
    ((writeEntries buffer w).1 = .ok () →
      (drain buffer w).2.written = w.written ++ framesBytes buffer) ∧
    ((writeEntries buffer w).1 ≠ .ok () → (drain buffer w).2.written.length <
      (w.written ++ framesBytes buffer).length) := by
  obtain ⟨faults, -, ⟨-, hrun⟩ | ⟨-, p, e, q, k, rfl, hk, -, hrun⟩⟩ := writeEntries_cases buffer w
  · obtain ⟨faults', -, hsync | ⟨-, hsync⟩⟩ :=
      sync_cases { w with written := w.written ++ framesBytes buffer, faults := faults }
    · rw [drain, Prog.bind_ok hrun, hsync, hrun]
      exact ⟨fun _ => rfl, fun h => absurd rfl h⟩
    · rw [drain, Prog.bind_ok hrun, hsync, hrun]
      exact ⟨fun _ => rfl, fun h => absurd rfl h⟩
  · rw [drain, Prog.bind_error hrun, hrun]
    refine ⟨by rintro ⟨⟩, fun _ => ?_⟩
    simp only [framesBytes, List.flatMap_append, List.flatMap_cons, List.length_append,
      List.length_take]
    omega

/-- After a flush that succeeds its bytes are all there is on disk. -/
theorem survives_flush (h : (drain buffer w).1 = .ok ()) (file : Bytes) :
    (drain buffer w).2.Survives file ↔ file = w.written ++ framesBytes buffer := by
  obtain ⟨faults, -, ⟨-, hrun⟩ | ⟨-, torn, hrun, -⟩⟩ := drain_cases buffer w
  · rw [hrun]
    constructor
    · rintro ⟨k, hk, rfl⟩
      exact List.take_of_length_le hk
    · rintro rfl
      exact ⟨_, le_rfl, List.take_length.symm⟩
  · rw [hrun] at h
    cases h

/-- The bytes of the log with those still to be written: every call adds its entry, and
only a flush with a failed write loses some. -/
theorem pending_runCalls (h : wal.buffered? = some (buffer, w)) (cs : List WalCall) :
    ∃ buffer' w', (wal.runCalls cs).buffered? = some (buffer', w') ∧
      (wal.AllWritten cs → w'.written ++ framesBytes buffer' =
        w.written ++ framesBytes buffer ++ framesBytes (logged cs)) ∧
      (¬ wal.AllWritten cs → (w'.written ++ framesBytes buffer').length <
        (w.written ++ framesBytes buffer ++ framesBytes (logged cs)).length) ∧
      (w'.written ++ framesBytes buffer').length ≤
        (w.written ++ framesBytes buffer ++ framesBytes (logged cs)).length := by
  induction cs generalizing wal buffer w with
  | nil =>
      refine ⟨buffer, w, h, fun _ => ?_, fun hno => absurd trivial hno, ?_⟩
      · simp [logged, framesBytes]
      · simp [logged, framesBytes]
  | cons c cs ih =>
      cases c with
      | log e =>
          obtain ⟨buffer', w', hrun, hall, hlost, hle⟩ := ih (buffered_log h e)
          have hbytes : w.written ++ framesBytes (buffer ++ [e]) ++ framesBytes (logged cs) =
              w.written ++ framesBytes buffer ++ framesBytes (logged (.log e :: cs)) := by
            simp [framesBytes, logged, WalCall.entry?]
          rw [hbytes] at hall hlost hle
          exact ⟨buffer', w', hrun, fun hw => hall hw.2, fun hw => hlost fun hw' =>
            hw ⟨by simp, hw'⟩,
            hle⟩
      | flush =>
          obtain ⟨hflush, -⟩ := buffered_flush h
          obtain ⟨buffer', w', hrun, hall, hlost, hle⟩ := ih hflush
          obtain ⟨hok, hfail⟩ := written_flush buffer w
          have hlogged : logged (.flush :: cs) = logged cs := rfl
          have hnil : framesBytes [] = [] := rfl
          rw [hnil, List.append_nil] at hall hlost hle
          rw [hlogged]
          refine ⟨buffer', w', hrun, ?_⟩
          by_cases hwrites : (writeEntries buffer w).1 = .ok ()
          · have hw : wal.Writes := by
              intro p hp
              obtain rfl := Option.some.inj (h.symm.trans hp)
              exact hwrites
            rw [hok hwrites] at hall hlost hle
            exact ⟨fun hw' => hall hw'.2, fun hw' => hlost fun hrest => hw' ⟨fun _ => hw, hrest⟩,
              hle⟩
          · have hshort := hfail hwrites
            rw [List.length_append] at hle ⊢
            refine ⟨fun hw => absurd (hw.1 rfl _ h) hwrites, fun _ => ?_, ?_⟩
            · rw [List.length_append] at hle ⊢
              omega
            · rw [List.length_append] at hle ⊢
              omega

end

/-- After a flush that succeeds the segment holds every logged entry once and in order,
exactly when no write of an earlier flush failed. -/
theorem flush_keeps_entries_iff {config : WalConfig}
    (hconfig : config = .flushOnFsync ∨ config = .periodic) (n : ℕ) (faults : List Outcome)
    (cs : List WalCall)
    (hflush : (Wal.flushAndSync ((Wal.create config n faults).runCalls cs)).1 = .ok ()) :
    (∀ w ∈ (Wal.flushAndSync ((Wal.create config n faults).runCalls cs)).2.writer?,
      ∀ file, w.Survives file → file = headerBytes n ++ framesBytes (logged cs)) ↔
      (Wal.create config n faults).AllWritten cs := by
  obtain ⟨buffer, w, hrun, hall, hlost, -⟩ :=
    pending_runCalls (buffered_create hconfig n faults) cs
  obtain ⟨hdone, hresult⟩ := buffered_flush hrun
  have hwriter : (Wal.flushAndSync ((Wal.create config n faults).runCalls cs)).2.writer? = some _ :=
    writer_of_buffered hdone
  rw [hresult] at hflush
  have hnew : (SegmentWriter.new (segmentName n) n faults).written ++ framesBytes [] =
      headerBytes n :=
    List.append_nil _
  rw [hnew] at hall hlost
  rw [hwriter]
  constructor
  · intro hfiles
    by_contra hwritten
    have hfile := hfiles _ rfl _ ((survives_flush hflush _).mpr rfl)
    exact absurd (congrArg List.length hfile) (hlost hwritten).ne
  · intro hwritten v hv file hfile
    obtain rfl := Option.some.inj hv
    exact ((survives_flush hflush file).mp hfile).trans (hall hwritten)

/-- Two entries are flushed, and the sync fails when all is written; a third follows before
the next flush. -/
theorem flush_keeps_entries_iff_failedSync :
    let faults : List Outcome := List.replicate 6 .done ++ [.failed 0]
    let cs : List WalCall := [.log (.rootUpdate 0), .log (.rootUpdate (Vector.replicate 7 1)),
      .flush, .log (.rootUpdate (Vector.replicate 7 2))]
    (∀ w ∈ (Wal.flushAndSync ((Wal.create .periodic 1 faults).runCalls cs)).2.writer?,
      ∀ file, w.Survives file → file = headerBytes 1 ++ framesBytes (logged cs)) ↔
      (Wal.create .periodic 1 faults).AllWritten cs :=
  flush_keeps_entries_iff (.inr rfl) 1 _ _ (by decide +kernel)

/-- Two entries are logged, the first write of the flush fails, the next flush succeeds:
the segment has its header and nothing else. -/
theorem failed_flush_loses_entries :
    let wal := (Wal.create .flushOnFsync 1 [.failed 0]).runCalls
      [.log (.rootUpdate 0), .log (.rootUpdate (Vector.replicate 7 1)), .flush]
    (Wal.flushAndSync wal).1 = .ok () ∧
      (Wal.flushAndSync wal).2.writer?.map SegmentWriter.written = some (headerBytes 1) := by
  decide +kernel

/-- What a crash may leave of the file, between two calls or during one: no less than the
last sync covered, and no more than the call would have written. -/
def Wal.Leaves (wal : Wal) (during : Option WalCall) (file : Bytes) : Prop :=
  ∃ w w' k, wal.writer? = some w ∧ (wal.runCalls during.toList).writer? = some w' ∧ w.synced ≤ k ∧
    file = w'.written.take k

section
variable {wal : Wal} {buffer : List SegmentEntry} {w : SegmentWriter} {n : ℕ}
  {done held : List SegmentEntry}

theorem isSome_buffered_runCalls (h : wal.buffered?.isSome) (cs : List WalCall) :
    (wal.runCalls cs).buffered?.isSome := by
  obtain ⟨⟨buffer, w⟩, hsome⟩ := Option.isSome_iff_exists.mp h
  obtain ⟨buffer', w', hrun, -⟩ := pending_runCalls hsome cs
  rw [hrun]
  rfl

theorem held_perOp_runCalls (w : SegmentWriter) (cs : List WalCall) :
    ((Wal.perOp w).runCalls cs).held = [] := by
  induction cs generalizing w with
  | nil => rfl
  | cons c cs ih =>
      cases c with
      | log e => exact ih _
      | flush => exact ih _

/-- One call without a fault. What is written is synced; only a log that holds nothing back
writes what it is given at once. -/
theorem Wal.Keeps.calm_call (h : wal.Keeps n done [] held []) (hcalm : wal.Calm) (c : WalCall)
    (hfits : ∀ e ∈ c.entry?, e.Fits) :
    ∃ done' held', (c.run wal).Keeps n done' [] held' [] ∧ done <+: done' ∧
      done' ++ held' = done ++ held ++ c.entry?.toList ∧ (c = .flush → held' = []) ∧
      (wal.buffered?.isSome → done' <+: done ++ held) := by
  obtain ⟨w, hw, -⟩ := h.writer
  rcases h.call_cases hfits fun _ _ => h.whole with
    ⟨hdrains, -, h'⟩ | ⟨hsyncs, hwrites, h'⟩ | ⟨-, -, hfail, -⟩
  · refine ⟨done, _, h', List.prefix_rfl, (List.append_assoc _ _ _).symm, ?_,
      fun _ => List.prefix_append _ _⟩
    rintro rfl
    cases wal with
    | perOp | flushOnFsync | periodic => cases hdrains
    | noWal => cases hw
  · rw [hwrites, List.append_nil] at h'
    refine ⟨_, [], h', List.prefix_append _ _, by simp, fun _ => rfl, fun hbuffered => ?_⟩
    have hentry : c.entry?.toList = [] := by
      cases wal with
      | perOp v => cases hbuffered
      | flushOnFsync buffer v =>
          cases c with
          | log e => cases hsyncs.1
          | flush => rfl
      | periodic buffer v =>
          cases c with
          | log e => cases hsyncs.1
          | flush => rfl
      | noWal => cases hw
    rw [hentry, List.append_nil]
  · exact absurd hcalm hfail

/-- A run without a fault: the log has written and synced all that it does not hold back, and
that is everything from before the last flush. -/
theorem Wal.Keeps.calm_runCalls (h : wal.Keeps n [] [] [] []) (hcalm : wal.Calm)
    {cs : List WalCall} (hfits : ∀ e ∈ logged cs, e.Fits) :
    ∃ done held, (wal.runCalls cs).Keeps n done [] held [] ∧ (wal.runCalls cs).Calm ∧
      done ++ held = logged cs ∧
      ∀ cs₁ cs₂, cs = cs₁ ++ .flush :: cs₂ → logged cs₁ <+: done := by
  induction cs using List.reverseRecOn with
  | nil => exact ⟨[], [], h, hcalm, rfl, fun cs₁ cs₂ heq => by simp at heq⟩
  | append_singleton cs c ih =>
      rw [logged_append] at hfits
      obtain ⟨done, held, hkeeps, hcalm, hlogged, hflushed⟩ :=
        ih fun e he => hfits e (List.mem_append_left _ he)
      obtain ⟨done', held', hkeeps', hle, hall, hflush, -⟩ := hkeeps.calm_call hcalm c
        fun e he => hfits e (List.mem_append_right _ (by simpa [logged] using he))
      rw [Wal.runCalls_append]
      refine ⟨done', held', hkeeps', hcalm.run c, ?_, fun cs₁ cs₂ heq => ?_⟩
      · rw [hall, hlogged, logged_append]
        cases c <;> rfl
      · rcases List.eq_nil_or_concat cs₂ with rfl | ⟨cs₂, c', rfl⟩
        · obtain ⟨rfl, hc⟩ := List.append_inj' heq rfl
          obtain rfl := List.singleton_inj.mp hc
          rw [hflush rfl, List.append_nil, hlogged] at hall
          rw [hall]
          exact List.prefix_append _ _
        · have heq' : cs ++ [c] = (cs₁ ++ .flush :: cs₂) ++ [c'] := by
            rw [heq]
            simp
          exact (hflushed cs₁ cs₂ (List.append_inj' heq' rfl).1).trans hle

/-- A crash leaves the entries that were synced. A log that holds entries back cannot leave
any that it was not given before. -/
theorem Wal.Keeps.entriesOf_leaves (h : wal.Keeps n done [] held []) (hcalm : wal.Calm)
    {during : Option WalCall} (hfits : ∀ e ∈ logged during.toList, e.Fits) {file : Bytes}
    (hfile : wal.Leaves during file) :
    done.map readBack <+: entriesOf file ∧
      (wal.buffered?.isSome → entriesOf file <+: (done ++ held).map readBack) := by
  obtain ⟨done', held', ⟨⟨v', hv', hkeeps'⟩, -, -⟩, hle, hbuffered⟩ : ∃ done' held',
      (wal.runCalls during.toList).Keeps n done' [] held' [] ∧ done <+: done' ∧
        (wal.buffered?.isSome → done' <+: done ++ held) := by
    cases during with
    | none => exact ⟨done, held, h, List.prefix_rfl, fun _ => List.prefix_append _ _⟩
    | some c =>
        obtain ⟨done', held', hkeeps, hle, -, -, hbuffered⟩ := h.calm_call hcalm c
          fun e he => hfits e (by simpa [logged] using he)
        exact ⟨done', held', hkeeps, hle, hbuffered⟩
  obtain ⟨w, w', k, hw, hw', hk, rfl⟩ := hfile
  obtain ⟨⟨v, hv, hkeeps⟩, -, -⟩ := h
  obtain rfl := Option.some.inj (hw.symm.trans hv)
  obtain rfl := Option.some.inj (hw'.symm.trans hv')
  rw [hkeeps'.entriesOf_take_written, List.append_nil]
  refine ⟨List.IsPrefix.map _ ?_, fun hsome =>
    List.IsPrefix.map _ ((complete_isPrefixOf _ _).trans (hbuffered hsome))⟩
  have hdone : done <+: complete (k - 16) done := by
    have hsynced := hkeeps.synced
    rw [List.append_nil] at hsynced
    have hmono := complete_mono (Nat.sub_le_sub_right hk 16) done
    rwa [hsynced] at hmono
  obtain ⟨rest, rfl⟩ := hle
  rcases le_total (framesBytes done).length (k - 16) with hlen | hlen
  · rw [complete_append_of_le hlen]
    exact List.prefix_append _ _
  · rwa [complete_append_of_ge hlen]

end

/-- Logs of different strategies with the same calls, none of which fails. After a last
flush or shutdown they read back as the same entries; a crash leaves a log that holds
entries back no more than the one that does not, and no less than its last flush wrote. -/
theorem strategies_agree (n : ℕ) (cs : List WalCall) (during : Option WalCall)
    (hfits : ∀ e ∈ logged (cs ++ during.toList), e.Fits) :
    (∀ config, config ≠ .noWal → ∀ last ∈ [Wal.flushAndSync, Wal.shutdown],
      ∃ w, (last ((Wal.create config n []).runCalls cs)).2.writer? = some w ∧
        ∀ file, w.Survives file → entriesOf file = (logged cs).map readBack) ∧
    ∀ config, config = .flushOnFsync ∨ config = .periodic → ∀ file perOpFile,
      ((Wal.create config n []).runCalls cs).Leaves during file →
      ((Wal.create .perOp n []).runCalls cs).Leaves during perOpFile →
      entriesOf file <+: entriesOf perOpFile ∧
        ∀ cs₁ cs₂, cs = cs₁ ++ .flush :: cs₂ → (logged cs₁).map readBack <+: entriesOf file := by
  rw [logged_append] at hfits
  have hcalls : ∀ e ∈ logged cs, e.Fits := fun e he => hfits e (List.mem_append_left _ he)
  have hcreate : ∀ config, config ≠ .noWal → ∃ done held,
      ((Wal.create config n []).runCalls cs).Keeps n done [] held [] ∧
      ((Wal.create config n []).runCalls cs).Calm ∧ done ++ held = logged cs ∧
      ∀ cs₁ cs₂, cs = cs₁ ++ .flush :: cs₂ → logged cs₁ <+: done := fun config hconfig =>
    (Wal.keeps_create hconfig n []).calm_runCalls (Wal.calm_create config n) hcalls
  constructor
  · intro config hconfig last hlast
    have hlast : last = Wal.flushAndSync := by simpa [Wal.shutdown] using hlast
    obtain ⟨done, held, hkeeps, hcalm, hlogged, -⟩ := hcreate config hconfig
    obtain ⟨done', held', ⟨⟨w, hw, hkeeps'⟩, -, -⟩, -, hall, hflush, -⟩ :=
      hkeeps.calm_call hcalm .flush (by simp [WalCall.entry?])
    rw [hflush rfl, hlogged] at hall
    obtain rfl : done' = logged cs := by simpa [WalCall.entry?] using hall
    refine ⟨w, hlast ▸ hw, (hkeeps'.survives_iff (· = (logged cs).map readBack)).mpr fun p hp => ?_⟩
    rw [List.prefix_nil.mp hp, List.append_nil]
  · intro config hconfig file perOpFile hfile hperOpFile
    have hbuffered : ((Wal.create config n []).runCalls cs).buffered?.isSome :=
      isSome_buffered_runCalls (by rw [buffered_create hconfig]; rfl) cs
    have hduring : ∀ e ∈ logged during.toList, e.Fits :=
      fun e he => hfits e (List.mem_append_right _ he)
    obtain ⟨done, held, hkeeps, hcalm, hlogged, hflushed⟩ :=
      hcreate config (by rcases hconfig with rfl | rfl <;> simp)
    obtain ⟨all, held', hperOp, hperOpCalm, hall, -⟩ := hcreate .perOp (by simp)
    obtain rfl : held' = [] := hperOp.buffer.symm.trans (held_perOp_runCalls _ cs)
    rw [List.append_nil] at hall
    obtain ⟨hdone, hsome⟩ := hkeeps.entriesOf_leaves hcalm hduring hfile
    obtain ⟨hsynced, -⟩ := hperOp.entriesOf_leaves hperOpCalm hduring hperOpFile
    rw [hlogged, ← hall] at hsome
    exact ⟨(hsome hbuffered).trans hsynced,
      fun cs₁ cs₂ heq => ((hflushed cs₁ cs₂ heq).map readBack).trans hdone⟩

/-- A root is logged and flushed, and the process dies while the next one is logged. -/
theorem strategies_agree_twoRoots :
    (∀ config, config ≠ .noWal → ∀ last ∈ [Wal.flushAndSync, Wal.shutdown],
      ∃ w, (last ((Wal.create config 1 []).runCalls [.log (.rootUpdate 0), .flush])).2.writer? =
          some w ∧
        ∀ file, w.Survives file → entriesOf file = [.rootUpdate 0].map readBack) ∧
    ∀ config, config = .flushOnFsync ∨ config = .periodic → ∀ file perOpFile,
      ((Wal.create config 1 []).runCalls [.log (.rootUpdate 0), .flush]).Leaves
        (some (.log (.rootUpdate 0))) file →
      ((Wal.create .perOp 1 []).runCalls [.log (.rootUpdate 0), .flush]).Leaves
        (some (.log (.rootUpdate 0))) perOpFile →
      entriesOf file <+: entriesOf perOpFile ∧
        ∀ cs₁ cs₂, [.log (.rootUpdate 0), .flush] = cs₁ ++ WalCall.flush :: cs₂ →
          (logged cs₁).map readBack <+: entriesOf file :=
  strategies_agree 1 [.log (.rootUpdate 0), .flush] (some (.log (.rootUpdate 0))) (by
    intro e he
    obtain rfl : e = .rootUpdate 0 := by simpa [logged, WalCall.entry?, eq_comm] using he
    exact SegmentEntry.fits_rootUpdate _)

/-- A snapshot with so long a name is logged and flushed; its segment reads as empty. -/
theorem longName_not_flushed : ∃ w,
    (Wal.flushAndSync ((Wal.create .flushOnFsync 1 []).runCalls
      [.log (.snapshotRecord ⟨1, some longName, 0, 0⟩)])).2.writer? = some w ∧
      entriesOf w.written = [] := by
  obtain ⟨⟨w, hw, -, -, hwritten⟩, hheld, -⟩ := ((Wal.logged_create (by decide :
    WalConfig.flushOnFsync ≠ .noWal) 1).logMutation
      (.snapshotRecord ⟨1, some longName, 0, 0⟩)).flushAndSync
  refine ⟨w, hw, ?_⟩
  rw [hheld] at hwritten
  have hbytes : w.written =
      headerBytes 1 ++ (SegmentEntry.snapshotRecord ⟨1, some longName, 0, 0⟩).frameBytes := by
    simpa [framesBytes] using hwritten
  have hlen : ¬ w.written.length < 16 := by
    rw [hbytes, List.length_append, length_headerBytes]
    omega
  have hread : readAll (SegmentEntry.snapshotRecord ⟨1, some longName, 0, 0⟩).frameBytes = [] :=
    readAll_of_stop (readStep_wrapped length_longName)
  rw [entriesOf, if_neg hlen, hbytes, readSegment_headerBytes_append, hread]
  rfl

end SliceFs
