import SliceFs.SegmentLog
import SliceFs.Wal

/-!
# Calls of the write-ahead log

A log gets calls that hand it an entry and calls that flush it. A call either holds its entry
back, or it writes what is held back with the entry, one after the other up to the first
write that fails, and then syncs. So a log is known by its entries: those that a sync
covered, those written after it, those held back, and the part of a frame that a failed write
may have left at the end.
-/
namespace SliceFs
open ProgramLogic LittleEndian SegmentEntry SegmentWriter

section Writer
variable {w : SegmentWriter} {n : ℕ} {es fs new : List SegmentEntry} {torn : Bytes}

/-- The calls of the writer that are still to come succeed. -/
def SegmentWriter.Calm (w : SegmentWriter) : Prop := ∀ o ∈ w.faults, o = .done

/-- What may be on disk of the file of a writer. -/
def SegmentWriter.Survives (w : SegmentWriter) (file : Bytes) : Prop :=
  ∃ k, w.synced ≤ k ∧ file = w.written.take k

/-- The entries that a sync covered. -/
def SegmentWriter.durable (w : SegmentWriter) : List SegmentEntry :=
  entriesOf (w.written.take w.synced)

/-- The entries that were written after the last sync. -/
def SegmentWriter.fresh (w : SegmentWriter) : List SegmentEntry :=
  (entriesOf w.written).drop w.durable.length

/-- Of entries to be written, those before the first write that fails. -/
def SegmentWriter.wrote : List SegmentEntry → SegmentWriter → List SegmentEntry
  | [], _ => []
  | e :: es, w => if (writeEntry e w).1 = .ok () then e :: wrote es (writeEntry e w).2 else []

def SegmentWriter.drain (es : List SegmentEntry) : Prog SegmentWriter WalError Unit := do
  writeEntries es
  sync

theorem framesBytes_append (es fs : List SegmentEntry) :
    framesBytes (es ++ fs) = framesBytes es ++ framesBytes fs := List.flatMap_append

theorem complete_append_of_le {k : ℕ} (h : (framesBytes es).length ≤ k) (fs : List SegmentEntry) :
    complete k (es ++ fs) = es ++ complete (k - (framesBytes es).length) fs := by
  induction es generalizing k with
  | nil => rfl
  | cons e es ih =>
      simp only [framesBytes, List.flatMap_cons, List.length_append] at h ih ⊢
      rw [List.cons_append, complete, if_pos (by omega), ih (by omega), Nat.sub_sub,
        List.cons_append]

/-- Every number of whole frames is what some cut leaves. -/
theorem complete_length_framesBytes (es fs : List SegmentEntry) :
    complete (framesBytes es).length (es ++ fs) = es := by
  rw [complete_append_of_le le_rfl, Nat.sub_self, complete_zero, List.append_nil]

/-- What is behind the cut does not count. -/
theorem complete_append_of_ge {k : ℕ} (h : k ≤ (framesBytes es).length) (fs : List SegmentEntry) :
    complete k (es ++ fs) = complete k es := by
  induction es generalizing k with
  | nil =>
      obtain rfl : k = 0 := Nat.le_zero.mp h
      rw [complete_zero, complete_zero]
  | cons e es ih =>
      simp only [framesBytes, List.flatMap_cons, List.length_append] at h ih
      rw [List.cons_append, complete, complete]
      split_ifs
      · rw [ih (by omega)]
      · rfl

theorem payloadBytes_ne_nil (e : SegmentEntry) : e.payloadBytes ≠ [] := by
  intro h
  have hlen := congrArg List.length h
  cases e with
  | rootUpdate root => simp [payloadBytes] at hlen
  | snapshotRecord snap => simp [payloadBytes] at hlen

/-- What a write that fails leaves is less than it was to write. -/
theorem SegmentWriter.part_eq_take {b : Bytes} (hb : b ≠ []) (taken : ℕ) :
    ∃ k, k < b.length ∧ part b taken = b.take k := by
  have hpos : 0 < b.length := List.length_pos_of_ne_nil hb
  unfold part
  split_ifs
  · exact ⟨0, hpos, rfl⟩
  · refine ⟨min taken (b.length - 1), by omega, ?_⟩
    rw [List.dropLast_eq_take, List.take_take]

/-- A program of the writer that appends `b`, or fails with less of it appended. -/
def SegmentWriter.Appends (m : Prog SegmentWriter WalError Unit) (b : Bytes) : Prop :=
  ∀ w : SegmentWriter, ∃ faults, (∀ o ∈ faults, o ∈ w.faults) ∧
    (m w = (.ok (), { w with written := w.written ++ b, faults := faults }) ∨
      ¬ w.Calm ∧ ∃ k, k < b.length ∧
        m w = (.error (.err .io), { w with written := w.written ++ b.take k, faults := faults }))

theorem SegmentWriter.not_calm_of_failed {taken : ℕ} {faults : List Outcome}
    (h : w.faults = .failed taken :: faults) : ¬ w.Calm := by
  intro hw
  have hfailed := hw (.failed taken) (by rw [h]; exact List.mem_cons_self)
  cases hfailed

theorem SegmentWriter.appends_writeAll {b : Bytes} (hb : b ≠ []) : Appends (writeAll b) b := by
  intro w
  obtain ⟨name, written, synced, faults⟩ := w
  cases faults with
  | nil => exact ⟨[], nofun, .inl rfl⟩
  | cons o faults =>
      refine ⟨faults, fun _ => List.mem_cons_of_mem o, ?_⟩
      cases o with
      | done => exact .inl rfl
      | failed taken =>
          obtain ⟨k, hk, hpart⟩ := part_eq_take hb taken
          refine .inr ⟨not_calm_of_failed rfl, k, hk, ?_⟩
          rw [← hpart]
          rfl

theorem SegmentWriter.Appends.bind {m m' : Prog SegmentWriter WalError Unit} {b b' : Bytes}
    (h : Appends m b) (h' : Appends m' b') : Appends (do m; m') (b ++ b') := by
  intro w
  obtain ⟨faults, hsub, hrun | ⟨hcalm, k, hk, hrun⟩⟩ := h w
  · obtain ⟨faults', hsub', hrun' | ⟨hcalm, k, hk, hrun'⟩⟩ :=
      h' { w with written := w.written ++ b, faults := faults }
    · refine ⟨faults', fun o ho => hsub o (hsub' o ho), .inl ?_⟩
      rw [Prog.bind_ok hrun, hrun', List.append_assoc]
    · refine ⟨faults', fun o ho => hsub o (hsub' o ho),
        .inr ⟨fun hw => hcalm fun o ho => hw o (hsub o ho), b.length + k, ?_, ?_⟩⟩
      · rw [List.length_append]
        omega
      · rw [Prog.bind_ok hrun, hrun', List.take_length_add_append, List.append_assoc]
  · refine ⟨faults, hsub, .inr ⟨hcalm, k, ?_, ?_⟩⟩
    · rw [List.length_append]
      omega
    · rw [Prog.bind_error hrun, List.take_append_of_le_length hk.le]

theorem SegmentWriter.appends_writeEntry (e : SegmentEntry) : Appends (writeEntry e) e.frameBytes :=
  (appends_writeAll (b := [e.recordType]) (by simp)).bind
    ((appends_writeAll (List.ne_nil_of_length_pos (by rw [length_u32Bytes]; decide))).bind
      (appends_writeAll (payloadBytes_ne_nil e)))

/-- All entries are written, or those before the first write that fails and a part of its
frame. -/
theorem SegmentWriter.writeEntries_cases (es : List SegmentEntry) (w : SegmentWriter) :
    ∃ faults, (∀ o ∈ faults, o ∈ w.faults) ∧
      (w.wrote es = es ∧ writeEntries es w =
          (.ok (), { w with written := w.written ++ framesBytes es, faults := faults }) ∨
        ¬ w.Calm ∧ ∃ p e q k, es = p ++ e :: q ∧ k < e.frameBytes.length ∧ w.wrote es = p ∧
          writeEntries es w = (.error (.err .io),
            { w with
              written := w.written ++ (framesBytes p ++ e.frameBytes.take k)
              faults := faults })) := by
  induction es generalizing w with
  | nil =>
      exact ⟨w.faults, fun _ => id,
        .inl ⟨rfl, by simp [writeEntries, framesBytes, Pure.pure, Prog.pure]⟩⟩
  | cons e es ih =>
      rw [writeEntries, wrote]
      obtain ⟨faults, hsub, hrun | ⟨hcalm, k, hk, hrun⟩⟩ := appends_writeEntry e w
      · rw [Prog.bind_ok hrun, hrun, if_pos rfl]
        obtain ⟨faults', hsub', ⟨hall, hrest⟩ | ⟨hcalm, p, e', q, k, rfl, hk, hp, hrest⟩⟩ :=
          ih { w with written := w.written ++ e.frameBytes, faults := faults }
        · refine ⟨faults', fun o ho => hsub o (hsub' o ho), .inl ⟨by rw [hall], hrest.trans ?_⟩⟩
          simp [framesBytes]
        · refine ⟨faults', fun o ho => hsub o (hsub' o ho),
            .inr ⟨fun hw => hcalm fun o ho => hw o (hsub o ho), e :: p, e', q, k, rfl, hk,
              by rw [hp], hrest.trans ?_⟩⟩
          simp [framesBytes]
      · rw [Prog.bind_error hrun, hrun, if_neg (by rintro ⟨⟩)]
        exact ⟨faults, hsub, .inr ⟨hcalm, [], e, es, k, rfl, hk, rfl, by simp [framesBytes]⟩⟩

theorem SegmentWriter.sync_cases (w : SegmentWriter) : ∃ faults, (∀ o ∈ faults, o ∈ w.faults) ∧
    (sync w = (.ok (), { w with synced := w.written.length, faults := faults }) ∨
      ¬ w.Calm ∧ sync w = (.error (.err .io), { w with faults := faults })) := by
  obtain ⟨name, written, synced, faults⟩ := w
  cases faults with
  | nil => exact ⟨[], nofun, .inl rfl⟩
  | cons o faults =>
      refine ⟨faults, fun _ => List.mem_cons_of_mem o, ?_⟩
      cases o with
      | done => exact .inl rfl
      | failed taken => exact .inr ⟨not_calm_of_failed rfl, rfl⟩

/-- How a call that writes and syncs ends. -/
theorem SegmentWriter.drain_cases (es : List SegmentEntry) (w : SegmentWriter) :
    ∃ faults, (∀ o ∈ faults, o ∈ w.faults) ∧
      (w.wrote es = es ∧ drain es w = (.ok (), { w with
          written := w.written ++ framesBytes es
          synced := (w.written ++ framesBytes es).length
          faults := faults }) ∨
        ¬ w.Calm ∧ ∃ torn, drain es w = (.error (.err .io), { w with
            written := w.written ++ (framesBytes (w.wrote es) ++ torn), faults := faults }) ∧
          (w.wrote es = es ∧ torn = [] ∨
            ∃ e q k, es = w.wrote es ++ e :: q ∧ k < e.frameBytes.length ∧
            torn = e.frameBytes.take k)) := by
  obtain ⟨faults, hsub, ⟨hall, hrun⟩ | ⟨hcalm, p, e, q, k, hes, hk, hp, hrun⟩⟩ :=
    writeEntries_cases es w
  · obtain ⟨faults', hsub', hsync | ⟨hcalm, hsync⟩⟩ :=
      sync_cases { w with written := w.written ++ framesBytes es, faults := faults }
    · refine ⟨faults', fun o ho => hsub o (hsub' o ho), .inl ⟨hall, ?_⟩⟩
      rw [drain, Prog.bind_ok hrun, hsync]
    · refine ⟨faults', fun o ho => hsub o (hsub' o ho),
        .inr ⟨fun hw => hcalm fun o ho => hw o (hsub o ho), [], ?_, .inl ⟨hall, rfl⟩⟩⟩
      rw [drain, Prog.bind_ok hrun, hsync, hall, List.append_nil]
  · refine ⟨faults, hsub, .inr ⟨hcalm, e.frameBytes.take k, ?_, .inr ⟨e, q, k, ?_, hk, rfl⟩⟩⟩
    · rw [drain, Prog.bind_error hrun, hp]
    · rw [hp, hes]

/-- A writer of segment `n` that wrote `es` up to its last sync and `fs` after it, and then
perhaps a part of a frame. -/
structure SegmentWriter.Keeps (w : SegmentWriter) (n : ℕ) (es fs : List SegmentEntry)
    (torn : Bytes) : Prop where
  name : w.name = segmentName n
  written : w.written = headerBytes n ++ framesBytes (es ++ fs) ++ torn
  synced : complete (w.synced - 16) (es ++ fs) = es
  le : w.synced ≤ w.written.length
  fits : ∀ e ∈ es ++ fs, e.Fits
  torn : ∃ e : SegmentEntry, e.Fits ∧ ∃ k, k < e.frameBytes.length ∧ torn = e.frameBytes.take k

theorem SegmentEntry.fits_rootUpdate (root : Digest224) : (rootUpdate root).Fits := by
  simp [Fits, payloadBytes]

theorem torn_nil : ∃ e : SegmentEntry, e.Fits ∧ ∃ k, k < e.frameBytes.length ∧
    ([] : Bytes) = e.frameBytes.take k :=
  ⟨.rootUpdate 0, fits_rootUpdate 0, 0, Nat.succ_pos _, rfl⟩

namespace SegmentWriter.Keeps

/-- Each cut of the file is a cut of whole frames. -/
theorem take_written (h : w.Keeps n es fs torn) (k : ℕ) : ∃ e k', e.Fits ∧
    w.written.take k = (headerBytes n ++ framesBytes (es ++ fs ++ [e])).take k' ∧
    complete (k' - 16) (es ++ fs ++ [e]) = complete (k - 16) (es ++ fs) := by
  obtain ⟨e, he, j, hj, rfl⟩ := h.torn
  have hframes : framesBytes (es ++ fs ++ [e]) = framesBytes (es ++ fs) ++ e.frameBytes := by
    rw [framesBytes_append (es ++ fs)]
    simp [framesBytes]
  have hlen : w.written.length = 16 + (framesBytes (es ++ fs)).length + j := by
    rw [h.written]
    simp only [List.length_append, length_headerBytes, List.length_take]
    omega
  refine ⟨e, min k w.written.length, he, ?_, ?_⟩
  · rw [hframes, ← List.append_assoc, ← List.take_take, hlen]
    refine congrArg (List.take k) ?_
    rw [List.take_append, List.take_of_length_le (by simp), h.written]
    simp
  · rw [complete_append (by rw [hframes, List.length_append]; omega)]
    by_cases hk : k ≤ w.written.length
    · rw [min_eq_left hk]
    · rw [complete_of_length_le (by omega), complete_of_length_le (by omega)]

theorem entriesOf_take_written (h : w.Keeps n es fs torn) (k : ℕ) :
    entriesOf (w.written.take k) = (complete (k - 16) (es ++ fs)).map readBack := by
  obtain ⟨e, k', he, htake, hcomplete⟩ := h.take_written k
  have hfits : ∀ e' ∈ es ++ fs ++ [e], e'.Fits := by
    intro e' he'
    rcases List.mem_append.mp he' with he' | he'
    · exact h.fits e' he'
    · rwa [List.mem_singleton.mp he']
  rw [htake, entriesOf_take n hfits, hcomplete]

/-- What a file that may be on disk holds: the synced entries and some of the others. -/
theorem survives_iff (h : w.Keeps n es fs torn) (P : List SegmentEntry → Prop) :
    (∀ file, w.Survives file → P (entriesOf file)) ↔
      ∀ p, p <+: fs → P ((es ++ p).map readBack) := by
  constructor
  · rintro hall p ⟨q, rfl⟩
    have hfile := hall _ ⟨max w.synced (16 + (framesBytes (es ++ p)).length), le_max_left _ _, rfl⟩
    rw [h.entriesOf_take_written] at hfile
    rcases le_total w.synced (16 + (framesBytes (es ++ p)).length) with hle | hle
    · rwa [max_eq_right hle, Nat.add_sub_cancel_left, ← List.append_assoc,
        complete_length_framesBytes] at hfile
    · -- the sync covers the frames of `p`, so there are none
      have hpre := complete_mono (Nat.le_sub_of_add_le' hle) (es ++ (p ++ q))
      rw [h.synced, ← List.append_assoc, complete_length_framesBytes] at hpre
      obtain rfl : p = [] := by
        have hlen := hpre.length_le
        rw [List.length_append] at hlen
        exact List.eq_nil_of_length_eq_zero (by omega)
      rw [max_eq_left hle, h.synced] at hfile
      rwa [List.append_nil]
  · rintro hall file ⟨k, hk, rfl⟩
    rw [h.entriesOf_take_written]
    have hsynced := complete_mono (Nat.sub_le_sub_right hk 16) (es ++ fs)
    rw [h.synced] at hsynced
    obtain ⟨p, hp⟩ := hsynced
    have hpre := complete_isPrefixOf (k - 16) (es ++ fs)
    rw [← hp] at hpre ⊢
    exact hall p ((List.prefix_append_right_inj es).mp hpre)

theorem frameBytes_readBack (e : SegmentEntry) : (readBack e).frameBytes = e.frameBytes := by
  cases e with
  | rootUpdate root => rfl
  | snapshotRecord snap =>
      have hname : nameBytes (snap.name.filter fun n => n.bytes ≠ []) = nameBytes snap.name := by
        cases hname : snap.name with
        | none => rfl
        | some name =>
            by_cases hnil : name.bytes = []
            · simp [Option.filter, nameBytes, hnil, Str.empty]
            · simp [Option.filter, nameBytes, hnil]
      simp only [readBack, frameBytes, payloadBytes, recordType, hname]

/-- A file of whole frames has no part of one at its end. -/
theorem torn_eq_nil (h : w.Keeps n es fs torn) {es' : List SegmentEntry} (hfits : ∀ e ∈ es', e.Fits)
    (hwhole : w.written = headerBytes n ++ framesBytes es') : torn = [] := by
  have hbytes : framesBytes es' = framesBytes (es ++ fs) ++ torn := by
    have heq := hwhole.symm.trans h.written
    rwa [List.append_assoc, List.append_cancel_left_eq] at heq
  have hframes : ∀ l : List SegmentEntry, framesBytes (l.map readBack) = framesBytes l := by
    intro l
    simp [framesBytes, List.flatMap_map, frameBytes_readBack]
  obtain ⟨e, he, k, hk, rfl⟩ := h.torn
  have hnil : readAll [] = [] := rfl
  have hread := congrArg readAll hbytes
  rw [readAll_framesBytes_append h.fits, readAll_of_stop (readStep_take_frameBytes he hk),
    List.append_nil, ← List.append_nil (framesBytes es'), readAll_framesBytes_append hfits, hnil,
    List.append_nil] at hread
  have hsame : framesBytes es' = framesBytes (es ++ fs) := by
    rw [← hframes es', hread, hframes]
  rw [hsame] at hbytes
  exact (List.append_right_eq_self.mp hbytes.symm)

/-- A call that writes and syncs. Nothing may be written behind a part of a frame. -/
theorem drain_cases (h : w.Keeps n es fs torn) (hfits : ∀ e ∈ new, e.Fits)
    (hwhole : new ≠ [] → torn = []) :
    (drain new w).1 = .ok () ∧ w.wrote new = new ∧
        (drain new w).2.Keeps n (es ++ fs ++ new) [] torn ∨
      (drain new w).1 ≠ .ok () ∧ ¬ w.Calm ∧
        ∃ torn', (w.wrote new = new → torn' = torn) ∧
          (drain new w).2.Keeps n es (fs ++ w.wrote new) torn' := by
  have hbytes : ∀ p : List SegmentEntry, framesBytes (es ++ fs ++ p) =
      framesBytes (es ++ fs) ++ framesBytes p := framesBytes_append (es ++ fs)
  have hwritten : ∀ p : List SegmentEntry, (p ≠ [] → torn = []) →
      w.written ++ framesBytes p = headerBytes n ++ framesBytes (es ++ fs ++ p) ++ torn := by
    intro p hp
    by_cases hnil : p = []
    · rw [hnil, List.append_nil, h.written]
      exact List.append_nil _
    · rw [hp hnil, List.append_nil, h.written, hp hnil, List.append_nil, hbytes, List.append_assoc]
  have hall : ∀ p : List SegmentEntry, p ⊆ new → ∀ e ∈ es ++ fs ++ p, e.Fits := by
    intro p hp e he
    rcases List.mem_append.mp he with he | he
    · exact h.fits e he
    · exact hfits e (hp he)
  obtain ⟨faults, -, ⟨hwrote, hrun⟩ | ⟨hcalm, torn', hrun, htorn⟩⟩ :=
    SegmentWriter.drain_cases new w
  · refine .inl ⟨by rw [hrun], hwrote, ?_⟩
    rw [hrun]
    refine ⟨h.name, ?_, ?_, le_rfl, ?_, h.torn⟩
    · rw [List.append_nil]
      exact hwritten new hwhole
    · rw [List.append_nil, complete_of_length_le]
      show _ ≤ (w.written ++ framesBytes new).length - 16
      rw [hwritten new hwhole]
      simp only [List.length_append, length_headerBytes]
      omega
    · rw [List.append_nil]
      exact hall new (List.Subset.refl _)
  · refine .inr ⟨by rw [hrun]; exact nofun, hcalm, ?_⟩
    have hpre : w.wrote new <+: new := by
      rcases htorn with ⟨hwrote, -⟩ | ⟨e, q, k, hnew, -⟩
      · rw [hwrote]
      · exact ⟨e :: q, hnew.symm⟩
    have hempty : w.wrote new ≠ [] → torn = [] := fun hne => hwhole fun hnew => hne (by
      rw [hnew] at hpre ⊢
      exact List.prefix_nil.mp hpre)
    -- the last sync is before what this call wrote
    have hsynced : complete (w.synced - 16) (es ++ fs ++ w.wrote new) = es := by
      by_cases hnil : w.wrote new = []
      · rw [hnil, List.append_nil, h.synced]
      · have hle := h.le
        rw [h.written, hempty hnil, List.append_nil, List.length_append, length_headerBytes] at hle
        rw [complete_append_of_ge (by omega), h.synced]
    have hkeeps : ∀ torn'', w.written ++ (framesBytes (w.wrote new) ++ torn') =
          headerBytes n ++ framesBytes (es ++ fs ++ w.wrote new) ++ torn'' →
        (∃ e : SegmentEntry, e.Fits ∧ ∃ k, k < e.frameBytes.length ∧ torn'' = e.frameBytes.take k) →
        (drain new w).2.Keeps n es (fs ++ w.wrote new) torn'' := by
      intro torn'' hbytes' htorn''
      rw [hrun]
      refine ⟨h.name, ?_, ?_, ?_, ?_, htorn''⟩
      · rw [← List.append_assoc es]
        exact hbytes'
      · rw [← List.append_assoc es]
        exact hsynced
      · exact h.le.trans (by simp)
      · rw [← List.append_assoc es]
        exact hall _ hpre.subset
    rcases htorn with ⟨-, rfl⟩ | ⟨e, q, k, hnew, hk, rfl⟩
    · refine ⟨torn, fun _ => rfl, hkeeps torn ?_ h.torn⟩
      rw [List.append_nil]
      exact hwritten _ hempty
    · have hnil : torn = [] := hwhole fun hnil => by
        rw [hnil] at hnew
        simp at hnew
      refine ⟨_, fun hall => ?_, hkeeps _ ?_ ⟨e, hfits e ?_, k, hk, rfl⟩⟩
      · rw [hall] at hnew
        simp at hnew
      · rw [← List.append_assoc, hwritten _ hempty, hnil, List.append_nil]
      · rw [hnew]
        simp

end SegmentWriter.Keeps

end Writer

inductive WalCall where
  | log (e : SegmentEntry)
  | flush
deriving DecidableEq

namespace WalCall

def run (wal : Wal) : WalCall → Wal
  | .log e => (Wal.logMutation e wal).2
  | .flush => (Wal.flushAndSync wal).2

def result (wal : Wal) : WalCall → Except (Fault WalError) Unit
  | .log e => (Wal.logMutation e wal).1
  | .flush => (Wal.flushAndSync wal).1

def entry? : WalCall → Option SegmentEntry
  | .log e => some e
  | .flush => none

/-- Whether a call writes out what is held back, with its own entry. -/
def drains : Wal → WalCall → Bool
  | .perOp _, _ => true
  | .flushOnFsync _ _, .flush => true
  | .periodic _ _, .flush => true
  | _, _ => false

/-- The entries that a call writes whole. -/
def writes (wal : Wal) (c : WalCall) : List SegmentEntry :=
  if c.drains wal then wal.writer?.elim [] (wrote (wal.held ++ c.entry?.toList)) else []

/-- The call ends with a sync that succeeds. -/
def Syncs (wal : Wal) (c : WalCall) : Prop := c.drains wal = true ∧ c.result wal = .ok ()

instance (wal : Wal) (c : WalCall) : Decidable (c.Syncs wal) := inferInstanceAs (Decidable (_ ∧ _))

end WalCall

/-- The entries that calls hand over. -/
def logged (cs : List WalCall) : List SegmentEntry := cs.filterMap WalCall.entry?

theorem logged_append (cs cs' : List WalCall) : logged (cs ++ cs') = logged cs ++ logged cs' :=
  List.filterMap_append

theorem logged_cons (c : WalCall) (cs : List WalCall) :
    logged (c :: cs) = c.entry?.toList ++ logged cs := by
  cases c <;> rfl

namespace Wal

/-- The log after some calls, whatever they returned. -/
def runCalls (wal : Wal) (cs : List WalCall) : Wal := cs.foldl WalCall.run wal

/-- One of the calls ends with a sync that succeeds. -/
def Synced : Wal → List WalCall → Prop
  | _, [] => False
  | wal, c :: cs => c.Syncs wal ∨ Synced (c.run wal) cs

/-- The entries that the calls write whole. -/
def wrote : Wal → List WalCall → List SegmentEntry
  | _, [] => []
  | wal, c :: cs => c.writes wal ++ wrote (c.run wal) cs

instance decidableSynced : (wal : Wal) → (cs : List WalCall) → Decidable (wal.Synced cs)
  | _, [] => .isFalse id
  | wal, c :: cs =>
    have := decidableSynced (c.run wal) cs
    inferInstanceAs (Decidable (c.Syncs wal ∨ (c.run wal).Synced cs))

/-- Those of them that a sync covers, that of the call itself or of a later one. -/
def landed : Wal → List WalCall → List SegmentEntry
  | _, [] => []
  | wal, c :: cs =>
    if wal.Synced (c :: cs) then c.writes wal ++ landed (c.run wal) cs else []

/-- The file of the log consists of whole frames. -/
def Whole (wal : Wal) (n : ℕ) : Prop :=
  ∀ w ∈ wal.writer?, ∃ es, (∀ e ∈ es, e.Fits) ∧ w.written = headerBytes n ++ framesBytes es

/-- No call writes an entry behind a part of a frame. -/
def Unbroken (n : ℕ) : Wal → List WalCall → Prop
  | _, [] => True
  | wal, c :: cs =>
    (c.drains wal = true → wal.held ++ c.entry?.toList ≠ [] → wal.Whole n) ∧
      Unbroken n (c.run wal) cs

/-- A log in use, as entries: those synced, those written since, and those held back. -/
structure Keeps (wal : Wal) (n : ℕ) (es fs held : List SegmentEntry) (torn : Bytes) : Prop where
  writer : ∃ w, wal.writer? = some w ∧ w.Keeps n es fs torn
  buffer : wal.held = held
  fits : ∀ e ∈ held, e.Fits

def Calm (wal : Wal) : Prop := ∀ w ∈ wal.writer?, w.Calm

variable {wal : Wal} {n : ℕ} {es fs held : List SegmentEntry} {torn : Bytes} {w : SegmentWriter}

theorem runCalls_append (wal : Wal) (cs cs' : List WalCall) :
    wal.runCalls (cs ++ cs') = (wal.runCalls cs).runCalls cs' := List.foldl_append

theorem keeps_create {config : WalConfig} (h : config ≠ .noWal) (n : ℕ) (faults : List Outcome) :
    (Wal.create config n faults).Keeps n [] [] [] [] := by
  have hnew : (SegmentWriter.new (segmentName n) n faults).Keeps n [] [] [] :=
    ⟨rfl, by simp [SegmentWriter.new, framesBytes], rfl, Nat.zero_le _, by simp, torn_nil⟩
  have hfits : ∀ e ∈ ([] : List SegmentEntry), e.Fits := by simp
  cases config with
  | perOp => exact ⟨⟨_, rfl, hnew⟩, rfl, hfits⟩
  | flushOnFsync => exact ⟨⟨_, rfl, hnew⟩, rfl, hfits⟩
  | periodic => exact ⟨⟨_, rfl, hnew⟩, rfl, hfits⟩
  | noWal => exact absurd rfl h

theorem calm_create (config : WalConfig) (n : ℕ) : (Wal.create config n []).Calm := by
  cases config <;> rintro w ⟨⟩ o ho <;> cases ho

theorem drain_singleton (e : SegmentEntry) (w : SegmentWriter) :
    drain [e] w = (do writeEntry e; sync : Prog SegmentWriter WalError Unit) w := by
  rw [drain, writeEntries]
  cases hrun : writeEntry e w with
  | mk r w' =>
      cases r with
      | error f => rw [Prog.bind_error hrun, Prog.bind_error (Prog.bind_error hrun)]
      | ok _ =>
          have hpure : (do writeEntry e; writeEntries []) w = (.ok (), w') := by
            rw [Prog.bind_ok hrun]
            rfl
          rw [Prog.bind_ok hrun, Prog.bind_ok hpure]

/-- A call writes and syncs, or it holds its entry back. -/
theorem run_cases (hw : wal.writer? = some w) (c : WalCall) :
    c.drains wal = true ∧ (c.run wal).writer? = some (drain (wal.held ++ c.entry?.toList) w).2 ∧
        (c.run wal).held = [] ∧ c.result wal = (drain (wal.held ++ c.entry?.toList) w).1 ∨
      c.drains wal = false ∧ (c.run wal).writer? = some w ∧
        (c.run wal).held = wal.held ++ c.entry?.toList := by
  cases wal with
  | perOp v =>
      obtain rfl : v = w := Option.some.inj hw
      cases c with
      | log e =>
          have hrun : (WalCall.run (.perOp v) (.log e)).writer? = some (drain [e] v).2 := by
            rw [drain_singleton]
            rfl
          have hresult : WalCall.result (.perOp v) (.log e) = (drain [e] v).1 := by
            rw [drain_singleton]
            rfl
          exact .inl ⟨rfl, hrun, rfl, hresult⟩
      | flush => exact .inl ⟨rfl, rfl, rfl, rfl⟩
  | flushOnFsync buffer v =>
      obtain rfl : v = w := Option.some.inj hw
      cases c with
      | log e => exact .inr ⟨rfl, rfl, rfl⟩
      | flush =>
          rw [show WalCall.flush.entry?.toList = [] from rfl, List.append_nil]
          exact .inl ⟨rfl, rfl, rfl, rfl⟩
  | periodic buffer v =>
      obtain rfl : v = w := Option.some.inj hw
      cases c with
      | log e => exact .inr ⟨rfl, rfl, rfl⟩
      | flush =>
          rw [show WalCall.flush.entry?.toList = [] from rfl, List.append_nil]
          exact .inl ⟨rfl, rfl, rfl, rfl⟩
  | noWal => cases hw

/-- What one call makes of a log: it holds the entry back, it writes all there is and syncs,
or it fails. -/
theorem Keeps.call_cases (h : wal.Keeps n es fs held torn) {c : WalCall}
    (hfits : ∀ e ∈ c.entry?, e.Fits)
    (hwhole : c.drains wal = true → held ++ c.entry?.toList ≠ [] → wal.Whole n) :
    (c.drains wal = false ∧ c.writes wal = [] ∧
        (c.run wal).Keeps n es fs (held ++ c.entry?.toList) torn) ∨
      (c.Syncs wal ∧ c.writes wal = held ++ c.entry?.toList ∧
        (c.run wal).Keeps n (es ++ fs ++ c.writes wal) [] [] torn) ∨
      c.drains wal = true ∧ ¬ c.Syncs wal ∧ ¬ wal.Calm ∧
        ∃ torn', (c.writes wal = held ++ c.entry?.toList → torn' = torn) ∧
          (c.run wal).Keeps n es (fs ++ c.writes wal) [] torn' := by
  obtain ⟨⟨w, hw, hkeeps⟩, rfl, hheld⟩ := h
  have hnew : ∀ e ∈ wal.held ++ c.entry?.toList, e.Fits := by
    intro e he
    rcases List.mem_append.mp he with he | he
    · exact hheld e he
    · exact hfits e (Option.mem_toList.mp he)
  rcases run_cases hw c with ⟨hdrains, hwriter, hbuffer, hresult⟩ | ⟨hdrains, hwriter, hbuffer⟩
  · have hwrites : c.writes wal = w.wrote (wal.held ++ c.entry?.toList) := by
      rw [WalCall.writes, if_pos hdrains, hw]
      rfl
    have htorn : wal.held ++ c.entry?.toList ≠ [] → torn = [] := by
      intro hne
      obtain ⟨es', hes', hbytes⟩ := hwhole hdrains hne w hw
      exact hkeeps.torn_eq_nil hes' hbytes
    rcases hkeeps.drain_cases hnew htorn with ⟨hok, hall, h'⟩ | ⟨hfail, hcalm, torn', hsame, h'⟩
    · refine .inr (.inl ⟨⟨hdrains, hresult.trans hok⟩, hwrites.trans hall, ⟨_, hwriter, ?_⟩,
        hbuffer, nofun⟩)
      rwa [hwrites, hall]
    · refine .inr (.inr ⟨hdrains, fun hs => hfail (hresult ▸ hs.2), fun hc => hcalm (hc w hw),
        torn', fun hall => hsame (hwrites ▸ hall), ⟨_, hwriter, ?_⟩, hbuffer, nofun⟩)
      rwa [hwrites]
  · refine .inl ⟨hdrains, ?_, ⟨w, hwriter, hkeeps⟩, hbuffer, hnew⟩
    rw [WalCall.writes, hdrains]
    rfl

theorem Keeps.whole (h : wal.Keeps n es fs held []) : wal.Whole n := by
  obtain ⟨⟨w, hw, hkeeps⟩, -, -⟩ := h
  rintro v hv
  obtain rfl := Option.some.inj (hw.symm.trans hv)
  exact ⟨es ++ fs, hkeeps.fits, hkeeps.written.trans (List.append_nil _)⟩

/-- Calls that succeed leave calls that succeed. -/
theorem Calm.run (h : wal.Calm) (c : WalCall) : (c.run wal).Calm := by
  cases hw : wal.writer? with
  | none =>
      cases wal with
      | noWal => cases c <;> rintro w ⟨⟩
      | perOp | flushOnFsync | periodic => cases hw
  | some w =>
      rcases run_cases hw c with ⟨-, hwriter, -⟩ | ⟨-, hwriter, -⟩
      · obtain ⟨faults, hsub, ⟨-, hrun⟩ | ⟨hcalm, -⟩⟩ :=
          SegmentWriter.drain_cases (wal.held ++ c.entry?.toList) w
        · rw [hrun] at hwriter
          intro v hv
          obtain rfl := Option.some.inj (hwriter.symm.trans hv)
          exact fun o ho => h w hw o (hsub o ho)
        · exact absurd (h w hw) hcalm
      · intro v hv
        obtain rfl := Option.some.inj (hwriter.symm.trans hv)
        exact h w hw

theorem landed_of_not_synced {cs : List WalCall} (h : ¬ wal.Synced cs) : wal.landed cs = [] := by
  cases cs with
  | nil => rfl
  | cons c cs => rw [landed, if_neg h]

/-- What calls make of a log. The entries that they write come behind those written before; if
a sync succeeds, the last one covers all that landed. -/
theorem Keeps.runCalls (h : wal.Keeps n es fs held torn) {cs : List WalCall}
    (hfits : ∀ e ∈ logged cs, e.Fits) (hunbroken : wal.Unbroken n cs) :
    ∃ es' fs' held' torn', (wal.runCalls cs).Keeps n es' fs' held' torn' ∧
      es' ++ fs' = es ++ fs ++ wal.wrote cs ∧
      (wal.Synced cs → es' = es ++ fs ++ wal.landed cs) ∧ (¬ wal.Synced cs → es' = es) := by
  induction cs generalizing wal es fs held torn with
  | nil => exact ⟨es, fs, held, torn, h, (List.append_nil _).symm, nofun, fun _ => rfl⟩
  | cons c cs ih =>
      rw [logged_cons] at hfits
      obtain ⟨hwhole, hrest⟩ := hunbroken
      rw [h.buffer] at hwhole
      have hentry : ∀ e ∈ c.entry?, e.Fits := fun e he =>
        hfits e (List.mem_append_left _ (Option.mem_toList.mpr he))
      have hlogged : ∀ e ∈ logged cs, e.Fits := fun e he => hfits e (List.mem_append_right _ he)
      obtain ⟨es₁, fs₁, held₁, torn₁, h₁, hall₁, hsync₁, hfail₁⟩ : ∃ es₁ fs₁ held₁ torn₁,
          (c.run wal).Keeps n es₁ fs₁ held₁ torn₁ ∧ es₁ ++ fs₁ = es ++ fs ++ c.writes wal ∧
          (c.Syncs wal → fs₁ = []) ∧ (¬ c.Syncs wal → es₁ = es) := by
        rcases h.call_cases hentry hwhole with
          ⟨hdrains, hwrites, h'⟩ | ⟨hsyncs, -, h'⟩ | ⟨-, hsyncs, -, torn', -, h'⟩
        · refine ⟨_, _, _, _, h', by rw [hwrites, List.append_nil], fun hs => ?_, fun _ => rfl⟩
          rw [hs.1] at hdrains
          cases hdrains
        · exact ⟨_, _, _, _, h', List.append_nil _, fun _ => rfl, fun hs => absurd hsyncs hs⟩
        · exact ⟨_, _, _, _, h', (List.append_assoc _ _ _).symm, fun hs => absurd hs hsyncs,
            fun _ => rfl⟩
      obtain ⟨es', fs', held', torn', h', hall', hsync', hfail'⟩ := ih h₁ hlogged hrest
      refine ⟨es', fs', held', torn', h', ?_, fun hsynced => ?_, fun hsynced => ?_⟩
      · rw [hall', hall₁, wrote, List.append_assoc _ (c.writes wal)]
      · rw [landed, if_pos hsynced]
        by_cases hlater : (c.run wal).Synced cs
        · rw [hsync' hlater, hall₁, List.append_assoc _ (c.writes wal)]
        · rw [landed_of_not_synced hlater, List.append_nil, hfail' hlater, ← hall₁,
            hsync₁ (hsynced.resolve_right hlater), List.append_nil]
      · obtain ⟨hnow, hlater⟩ := not_or.mp hsynced
        rw [hfail' hlater, hfail₁ hnow]

end Wal

end SliceFs
