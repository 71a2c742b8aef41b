import SliceFs.StoreContents
import SliceFs.Namespace

/-!
# The file system refines its files

`Views` relates a mounted file system to the files it stands for. Under it, and as long
as no two stored blobs share a digest, every operation on handles is the operation of
the same name on files.
-/
namespace SliceFs
open TreeMaps ProgramLogic ByteFile

/-- What the write mode of a handle stands for. -/
inductive Blockset.Laws.ModeView {B : Blockset} (L : B.Laws) (io : B.Io) :
    WriteMode B → Bool → Bytes → Prop where
  | streaming {state : B.State} : L.backed io state →
      ModeView L io (.streaming state (UInt64.ofNat (L.content state).length)) false
        (L.content state)
  | buffered (buf : Bytes) : ModeView L io (.buffered buf) true buf

section
variable {B : Blockset} {ε α : Type} (L : B.Laws)

structure Blockset.Laws.HandleView (io : B.Io) (o : OpenFileState B) (h : Handle) : Prop where
  ino : o.ino = h.ino
  mode : L.ModeView io o.writeMode h.buffered h.content
  byteCount : o.byteCount = UInt64.ofNat h.content.length
  length_le : h.content.length ≤ isizeMax
  committed : o.casCommitted = h.committed
  last : o.lastCommittedRoot = h.last

/-- The file system `s` stands for the files `f`. -/
structure Blockset.Laws.Views (s : Fs B) (f : Files) : Prop where
  core : L.Holds s.store f.core
  handles : ∀ fh : UInt64, Option.Rel (L.HandleView s.store.io) s.openFiles[fh]? f.handles[fh]?
  known : ∀ (fh : UInt64) (h : Handle), f.handles[fh]? = some h →
    fh ≤ f.nextFh ∧ h.ino < f.core.nextIno
  nextFh : s.nextFh = f.nextFh

variable {L}

theorem Blockset.Laws.ModeView.mono {io io' : B.Io} (hle : L.le io io') {mode : WriteMode B}
    {b : Bool} {c : Bytes} (h : L.ModeView io mode b c) : L.ModeView io' mode b c := by
  cases h with
  | streaming hst => exact .streaming (L.backed_mono hle hst)
  | buffered => exact .buffered _

theorem Blockset.Laws.HandleView.mono {io io' : B.Io} (hle : L.le io io') {o : OpenFileState B}
    {h : Handle} (ho : L.HandleView io o h) : L.HandleView io' o h :=
  { ho with mode := ho.mode.mono hle }

variable {s : Fs B} {f : Files}

/-- A call of the store, seen by the files. -/
theorem Blockset.Laws.Views.store (h : L.Views s f) {st : Store B} {c : Contents}
    (hle : L.le s.store.io st.io) (hc : L.Holds st c) (hn : f.core.nextIno ≤ c.nextIno) :
    L.Views { s with store := st } { f with core := c } where
  core := hc
  handles fh := by
    have hrel := h.handles fh
    generalize s.openFiles[fh]? = a at hrel ⊢
    generalize f.handles[fh]? = b at hrel ⊢
    cases hrel with
    | some ho => exact .some (ho.mono hle)
    | none => exact .none
  known fh hd hfh := ⟨(h.known fh hd hfh).1, UInt64.lt_of_lt_of_le (h.known fh hd hfh).2 hn⟩
  nextFh := h.nextFh

theorem Blockset.Laws.Views.grow (h : L.Views s f) {io : B.Io} (hle : L.le s.store.io io) :
    L.Views { s with store := { s.store with io := io } } f :=
  h.store hle (h.core.grow hle) (UInt64.le_refl _)

/-- An open handle of the files is one of the file system. -/
theorem Blockset.Laws.Views.getFile_some (h : L.Views s f) {fh : UInt64} {hd : Handle}
    (hfh : f.handles[fh]? = some hd) :
    ∃ o, s.openFiles[fh]? = some o ∧ L.HandleView s.store.io o hd := by
  have hrel := h.handles fh
  rw [hfh] at hrel
  generalize s.openFiles[fh]? = a at hrel
  cases hrel with
  | some ho => exact ⟨_, rfl, ho⟩

theorem Blockset.Laws.Views.getFile_none (h : L.Views s f) {fh : UInt64}
    (hfh : f.handles[fh]? = none) : s.openFiles[fh]? = none := by
  have hrel := h.handles fh
  rw [hfh] at hrel
  generalize s.openFiles[fh]? = a at hrel
  cases hrel with
  | none => rfl

theorem Blockset.Laws.Views.handle_some (h : L.Views s f) {fh : UInt64}
    {o : OpenFileState B} (ho : s.openFiles[fh]? = some o) :
    ∃ hd, f.handles[fh]? = some hd ∧ L.HandleView s.store.io o hd := by
  have hrel := h.handles fh
  rw [ho] at hrel
  generalize f.handles[fh]? = a at hrel
  cases hrel with
  | some hview => exact ⟨_, rfl, hview⟩

theorem Blockset.Laws.Views.put (h : L.Views s f) (fh : UInt64) {o : OpenFileState B} {hd : Handle}
    (ho : L.HandleView s.store.io o hd) (hle : fh ≤ f.nextFh) (hi : hd.ino < f.core.nextIno) :
    L.Views { s with openFiles := s.openFiles.insert fh o } (f.put fh hd) where
  core := h.core
  handles j := by
    show Option.Rel _ _ (f.handles.insert fh hd)[j]?
    rw [getElem?_insert_ite, getElem?_insert_ite]
    split_ifs
    · exact .some ho
    · exact h.handles j
  known j hd' hj := by
    rw [Files.put, getElem?_insert_ite] at hj
    split_ifs at hj with hjf
    · obtain rfl := Option.some.inj hj
      exact ⟨hjf ▸ hle, hi⟩
    · exact h.known j hd' hj
  nextFh := h.nextFh

theorem putFile_views (h : L.Views s f) (fh : UInt64) (o : OpenFileState B) (hd : Handle)
    (ho : L.HandleView s.store.io o hd) (hle : fh ≤ f.nextFh) (hi : hd.ino < f.core.nextIno) :
    ∃ s', putFile fh o s = (.ok (), s') ∧ s'.store = s.store ∧ L.Views s' (f.put fh hd) :=
  ⟨_, rfl, rfl, h.put fh ho hle hi⟩

theorem Blockset.Laws.Views.remove (h : L.Views s f) (fh : UInt64) :
    L.Views { s with openFiles := s.openFiles.erase fh }
      { f with handles := f.handles.erase fh } where
  core := h.core
  handles j := by
    show Option.Rel _ _ (f.handles.erase fh)[j]?
    rw [getElem?_erase_ite, getElem?_erase_ite]
    split_ifs
    · exact .none
    · exact h.handles j
  known j hd hj := by
    rw [getElem?_erase_ite] at hj
    split_ifs at hj
    exact h.known j hd hj
  nextFh := h.nextFh

theorem onStore_eq {m : Prog (Store B) ε α} {r : Except (Fault ε) α} {st : Store B}
    (h : m s.store = (r, st)) : onStore m s = (r, { s with store := st }) := by
  rw [onStore, Prog.zoom, h]

theorem callStore_ok {e : MetaError → Errno} {m : StoreM B α} {a : α} {st : Store B}
    (h : m s.store = (.ok a, st)) : callStore e m s = (.ok a, { s with store := st }) := by
  rw [callStore, Prog.mapErr, onStore_eq h]

theorem callStore_error {errno : MetaError → Errno} {m : StoreM B α} {e : Fault MetaError}
    {st : Store B} (h : m s.store = (.error e, st)) :
    callStore errno m s = (.error (e.map errno), { s with store := st }) := by
  rw [callStore, Prog.mapErr, onStore_eq h]

theorem pushContent_eq (hB : L.Reliable) {mode : WriteMode B} {b : Bool} {c : Bytes} {w : B.Fsa}
    (hm : L.ModeView (B.drop w) mode b c) :
    ∃ w', pushContent mode w = ((.ok (L.digest c), w') : Except (Fault ε) _ × _) ∧
      L.le (B.drop w) (B.drop w') ∧ c ∈ L.stored (B.drop w') := by
  cases hm with
  | streaming hst => exact L.finish_eq hB hst
  | buffered =>
      obtain ⟨st, w₁, h₁, hle₁, hcontent, hst⟩ :=
        L.step_pushBytes_eq (ε := ε) hB c (L.backed_default (B.drop w))
      obtain ⟨w₂, h₂, hle₂, hstored⟩ := L.finish_eq (ε := ε) hB hst
      rw [L.content_default, List.nil_append] at hcontent
      rw [hcontent] at h₂ hstored
      refine ⟨w₂, ?_, L.le_trans hle₁ hle₂, hstored⟩
      rw [pushContent, pushBuffer, Prog.bind_ok h₁, h₂]

/-- The content of a handle reaches the backend. -/
theorem contentDigest_eq (hB : L.Reliable) {mode : WriteMode B} {b : Bool} {c : Bytes}
    (hm : L.ModeView s.store.io mode b c) :
    ∃ io, contentDigest mode s = (.ok (L.digest c), { s with store := { s.store with io := io } }) ∧
      L.le s.store.io io ∧ c ∈ L.stored io := by
  obtain ⟨w, hw, hle, hc⟩ := pushContent_eq (ε := Errno) hB (hm.mono (L.le_new s.store.io))
  refine ⟨B.drop w, ?_, L.le_trans (L.le_new _) hle, hc⟩
  simp only [contentDigest, onStore, onIo, Blockset.withFsa, Prog.zoom, hw]

theorem contentDigest_views (hB : L.Reliable) (h : L.Views s f) {mode : WriteMode B} {b : Bool}
    {c : Bytes} (hm : L.ModeView s.store.io mode b c) :
    ∃ s', contentDigest mode s = (.ok (L.digest c), s') ∧ L.le s.store.io s'.store.io ∧
      c ∈ L.stored s'.store.io ∧ L.Views s' f := by
  obtain ⟨io, hd, hle, hc⟩ := contentDigest_eq hB hm
  exact ⟨_, hd, hle, hc, h.grow hle⟩

theorem fileStorageGet_eq (hc : L.NoCollision s.store.io) {b : Bytes}
    (hb : b ∈ L.stored s.store.io) :
    fileStorageGet (L.digest b) s = (.ok (some b), s) := by
  simp only [fileStorageGet, onStore, onIo, Prog.zoom, L.get_apply hc hb]

theorem wp_materialize (hB : L.Reliable) {state : B.State} (hst : L.backed s.store.io state) :
    wp L.growthFs (materialize state) (fun r s' => r = .ok (some (L.content state)) ∧
      ∃ io, L.le s.store.io io ∧ s' = { s with store := { s.store with io := io } }) s := by
  obtain ⟨io, hd, hle, hc⟩ := contentDigest_eq hB (Blockset.Laws.ModeView.streaming hst)
  refine wp_bind_of_eq hd (wp_of_good fun hgood => ?_)
  exact wp_of_eq (fileStorageGet_eq hgood hc) fun _ => ⟨rfl, io, hle, rfl⟩

theorem wp_streamedContent (hB : L.Reliable) {state : B.State}
    (hst : L.backed s.store.io state) :
    wp L.growthFs (streamedContent state) (fun r s' => r = .ok (L.content state) ∧
      ∃ io, L.le s.store.io io ∧ s' = { s with store := { s.store with io := io } }) s := by
  refine wp_bind ((wp_materialize hB hst).mono ?_)
  rintro _ _ - ⟨rfl, io, hle, rfl⟩
  exact wp_pure fun _ => ⟨rfl, io, hle, rfl⟩

theorem attempt_onStore_eq {m : StoreM B α} {r : Except MetaError α} {st : Store B}
    (h : m s.store = (r.mapError .err, st)) :
    Prog.attempt (onStore m) s =
      ((.ok r, { s with store := st }) : Except (Fault Errno) _ × _) := by
  rw [Prog.attempt, onStore_eq h]
  cases r <;> rfl

/-- What `get_manifest` returns, as a value. -/
def Contents.manifest (digest : Bytes → Digest224) (c : Contents) (i : UInt64) :
    Except MetaError (List Digest224) :=
  (c.manifests[i]?).elim (.error (.notFound i)) fun b => .ok (b.toList.map digest)

theorem attempt_getManifest_eq (h : L.Views s f) (hc : L.NoCollision s.store.io) (i : UInt64) :
    Prog.attempt (onStore (getManifest i)) s =
      ((.ok (f.core.manifest L.digest i), s) : Except (Fault Errno) _ × _) := by
  apply attempt_onStore_eq
  rw [getManifest_eq h.core hc, Contents.getManifest, Contents.manifest]
  cases f.core.manifests[i]? <;> rfl

theorem Contents.head_manifest (digest : Bytes → Digest224) (c : Contents) (i : UInt64) :
    (c.manifest digest i).toOption.bind List.head? = (c.content i).map digest := by
  unfold Contents.manifest Contents.content
  rcases c.manifests[i]? with _ | _ | b <;> rfl

theorem committedContent_eq (h : L.Views s f) (hc : L.NoCollision s.store.io) (i : UInt64) :
    committedContent i s = (.ok ((f.core.content i).getD []), s) := by
  rw [committedContent, Prog.bind_ok (attempt_getManifest_eq h hc i), Contents.head_manifest]
  cases hb : f.core.content i with
  | none => rfl
  | some b =>
      rw [Option.map_some, blockContent,
        Prog.bind_ok (fileStorageGet_eq hc (h.core.content i b hb).1)]
      rfl

theorem decrementIfSome_eq (h : L.Views s f) (d : Option Digest224) :
    ∃ st, decrementIfSome d s = (.ok (), { s with store := st }) ∧ st.io = s.store.io ∧
      L.Views { s with store := st } { f with core := f.core.drop d } := by
  cases d with
  | none => exact ⟨s.store, rfl, rfl, h⟩
  | some d =>
      obtain ⟨st, hst, hcore, hio⟩ := decrementRefcount_eq (ε := Errno) h.core d
      refine ⟨st, onStore_eq hst, hio, h.store ?_ hcore (UInt64.le_refl _)⟩
      rw [hio]
      exact L.le_refl _

theorem writeInto_eq {buf data : Bytes} {offset : UInt64}
    (hle : offset.toNat + data.length ≤ isizeMax) :
    writeInto buf offset data s = (.ok (pwrite 0 buf offset.toNat data), s) := by
  have hlt : offset.toNat + data.length < 2 ^ 64 := by
    unfold isizeMax at hle
    omega
  rw [writeInto, Prog.assert_bind_of hlt, Prog.assert_bind_of (.inr hle)]
  rfl

theorem toNat_ofNat_length {c : Bytes} (h : c.length ≤ isizeMax) :
    (UInt64.ofNat c.length).toNat = c.length := by
  apply UInt64.toNat_ofNat_of_lt'
  unfold isizeMax at h
  show c.length < 2 ^ 64
  omega

theorem length_pwrite_le {c data : Bytes} {offset : ℕ} (hc : c.length ≤ isizeMax)
    (h : offset + data.length ≤ isizeMax) : (pwrite 0 c offset data).length ≤ isizeMax := by
  rw [length_pwrite]
  exact max_le hc h

theorem bufferedWrite_eq (h : L.Views s f) {fh : UInt64} {o : OpenFileState B} {hd : Handle}
    (hfh : f.handles[fh]? = some hd) (ho : L.HandleView s.store.io o hd)
    (hbuf : hd.buffered = true) {offset : UInt64} {data : Bytes}
    (hle : offset.toNat + data.length ≤ isizeMax) :
    ∃ s', bufferedWrite fh o hd.content offset data s = (.ok (), s') ∧
      L.Views s' (f.write fh hd offset.toNat data) := by
  have hfall : ¬ hd.FallsBack offset.toNat := by
    rintro ⟨h, -⟩
    simp [hbuf] at h
  refine ⟨?st, ?run, ?views⟩
  case run =>
    rw [bufferedWrite, Prog.bind_ok (writeInto_eq hle)]
    rfl
  case views =>
    rw [Files.write, if_neg hfall]
    refine h.put fh ?_ (h.known fh hd hfh).1 ?_
    · rw [Handle.write, if_neg hfall]
      exact
        { ino := ho.ino
          mode := by
            rw [hbuf]
            exact .buffered _
          byteCount := rfl
          length_le := length_pwrite_le ho.length_le hle
          committed := rfl
          last := ho.last }
    · rw [Handle.write, if_neg hfall]
      exact (h.known fh hd hfh).2

theorem pushChecked_eq (hB : L.Reliable) {state : B.State} {w : B.Fsa} (data : Bytes)
    (hst : L.backed (B.drop w) state)
    (hquiet : (B.takeIoError (B.pushBytes state data w).2).1 = false) :
    ∃ state' w', pushChecked state data w =
        ((.ok (state', false), w') : Except (Fault ε) _ × _) ∧
      L.le (B.drop w) (B.drop w') ∧ L.content state' = L.content state ++ data ∧
      L.backed (B.drop w') state' := by
  have hle := L.le_pushBytes state data w
  have hle' := L.le_takeIoError (B.pushBytes state data w).2
  have hpush : B.step (B.pushBytes state data) w =
      ((.ok (B.pushBytes state data w).1, (B.pushBytes state data w).2) :
        Except (Fault ε) _ × _) := rfl
  have herr : B.step B.takeIoError (B.pushBytes state data w).2 =
      ((.ok false, (B.takeIoError (B.pushBytes state data w).2).2) : Except (Fault ε) _ × _) := by
    rw [Blockset.step, hquiet]
  refine ⟨(B.pushBytes state data w).1, (B.takeIoError (B.pushBytes state data w).2).2, ?_,
    L.le_trans hle hle', L.content_pushBytes state data w,
    L.backed_mono hle' (hB.backed_pushBytes hst)⟩
  rw [pushChecked, Prog.bind_ok hpush, Prog.bind_ok herr]
  rfl

/-- A write at the expected offset ends with a backend above the one it pushed to. -/
theorem le_sequentialWrite (L : B.Laws) (fh : UInt64) (o : OpenFileState B) (state : B.State)
    (next : UInt64) (data : Bytes) (s : Fs B) :
    L.le (B.drop (B.pushBytes state data (B.new s.store.io)).2)
      (sequentialWrite fh o state next data s).2.store.io := by
  have hstep : ∀ pushed : B.State × Bool, Growing L.growthFs (if pushed.2 then do
        putFile fh { o with writeMode := .streaming pushed.1 next }
        Prog.fail .eio
      else advance fh o pushed.1 next data : FsM B Unit) := by
    intro pushed
    unfold advance
    infer_instance
  have hrest := (le_run_bind s :
    L.growthFs.le (onStore (onIo (B.withFsa (pushChecked state data))) s).2
    (sequentialWrite fh o state next data s).2)
  exact L.le_trans (L.le_takeIoError _) hrest.1

theorem sequentialWrite_eq (hB : L.Reliable) (h : L.Views s f) {fh : UInt64}
    {o : OpenFileState B} {hd : Handle} (hfh : f.handles[fh]? = some hd)
    (ho : L.HandleView s.store.io o hd) (hbuf : hd.buffered = false) {state : B.State}
    (hst : L.backed s.store.io state) (hcontent : L.content state = hd.content) (data : Bytes)
    (hle : hd.content.length + data.length ≤ isizeMax)
    (hquiet : (B.takeIoError (B.pushBytes state data (B.new s.store.io)).2).1 = false) :
    ∃ s', sequentialWrite fh o state (UInt64.ofNat hd.content.length) data s = (.ok (), s') ∧
      L.Views s' (f.write fh hd hd.content.length data) := by
  obtain ⟨state', w, hpush, hle', hcontent', hst'⟩ := pushChecked_eq (ε := Errno) hB data
    (L.backed_mono (L.le_new s.store.io) hst) hquiet
  have hio : onStore (onIo (B.withFsa (pushChecked state data))) s =
      ((.ok (state', false), { s with store := { s.store with io := B.drop w } }) :
        Except (Fault Errno) _ × _) := by
    simp only [onStore, onIo, Blockset.withFsa, Prog.zoom, hpush]
  have hlen := toNat_ofNat_length ho.length_le
  have hlt : (UInt64.ofNat hd.content.length).toNat + data.length < 2 ^ 64 := by
    rw [hlen]
    unfold isizeMax at hle
    omega
  have hfall : ¬ hd.FallsBack hd.content.length := fun hf => hf.2 rfl
  have hdata : hd.content ++ data = L.content state' := by rw [hcontent', hcontent]
  have hadd : UInt64.ofNat hd.content.length + UInt64.ofNat data.length =
      UInt64.ofNat (L.content state').length := by
    rw [← hdata, List.length_append, UInt64.ofNat_add]
  have hgrown := h.grow (L.le_trans (L.le_new _) hle')
  refine ⟨?st, ?run, ?views⟩
  case run =>
    rw [sequentialWrite, Prog.bind_ok hio, if_neg (by simp), advance, Prog.assert_bind_of hlt,
      Prog.assert_bind_of (by rw [ho.byteCount]; exact hlt)]
    rfl
  case views =>
    rw [Files.write, if_neg hfall]
    refine hgrown.put fh ?_ (h.known fh hd hfh).1 ?_
    · rw [Handle.write, if_neg hfall, pwrite_length, hdata, hadd, hbuf]
      exact
        { ino := ho.ino
          mode := .streaming hst'
          byteCount := by rw [ho.byteCount, hadd]
          length_le := by rwa [← hdata, List.length_append]
          committed := rfl
          last := ho.last }
    · rw [Handle.write, if_neg hfall]
      exact (h.known fh hd hfh).2

/-- What a write that falls back starts from is read correctly. -/
theorem wp_fallbackBase (hB : L.Reliable) (h : L.Views s f) {o : OpenFileState B} {hd : Handle}
    (ho : L.HandleView s.store.io o hd) {state : B.State} (hst : L.backed s.store.io state)
    (hcontent : L.content state = hd.content) :
    wp L.growthFs (fallbackBase o state)
      (fun r s' => r = .ok (hd.base (f.core.content hd.ino)) ∧
        ∃ io, L.le s.store.io io ∧ s' = { s with store := { s.store with io := io } }) s := by
  have hpos : 0 < o.byteCount ↔ hd.content ≠ [] := by
    rw [UInt64.lt_iff_toNat_lt, ho.byteCount, toNat_ofNat_length ho.length_le,
      ← List.length_pos_iff]
    rfl
  unfold fallbackBase
  by_cases hne : hd.content = []
  · rw [if_neg (by simpa [hpos] using hne), Handle.base, if_pos hne, ho.ino]
    refine wp_of_good fun hc => ?_
    exact wp_of_eq (committedContent_eq h hc hd.ino) fun _ => ⟨rfl, _, L.le_refl _, rfl⟩
  · rw [if_pos (hpos.mpr hne), Handle.base, if_neg hne, ← hcontent]
    exact wp_streamedContent hB hst

theorem wp_fallbackWrite (hB : L.Reliable) (h : L.Views s f) {fh : UInt64}
    {o : OpenFileState B} {hd : Handle} (hfh : f.handles[fh]? = some hd)
    (ho : L.HandleView s.store.io o hd) {state : B.State} (hst : L.backed s.store.io state)
    (hcontent : L.content state = hd.content) {offset : UInt64} {data : Bytes}
    (hfall : hd.FallsBack offset.toNat) (hle : offset.toNat + data.length ≤ isizeMax) :
    wp L.growthFs (fallbackWrite fh o state offset data)
      (fun r s' => r = .ok () ∧ L.Views s' (f.write fh hd offset.toNat data)) s := by
  unfold fallbackWrite
  refine wp_bind ((wp_fallbackBase hB h ho hst hcontent).mono ?_)
  rintro _ _ - ⟨rfl, io, hio, rfl⟩
  refine wp_bind_of_eq (writeInto_eq hle) (wp_bind_of_eq rfl ?_)
  have hbase : (hd.base (f.core.content hd.ino)).length ≤ isizeMax := by
    unfold Handle.base
    split_ifs
    · cases hb : f.core.content hd.ino with
      | none => exact Nat.zero_le _
      | some b => exact (h.core.content _ b hb).2
    · exact ho.length_le
  have hput := (h.grow hio).put fh
    (o := { o with
      writeMode := .buffered (pwrite 0 (hd.base (f.core.content hd.ino)) offset.toNat data)
      byteCount := UInt64.ofNat
        (pwrite 0 (hd.base (f.core.content hd.ino)) offset.toNat data).length
      casCommitted := false
      lastCommittedRoot := none })
    (show L.HandleView _ _ (hd.write (f.core.content hd.ino) offset.toNat data) by
      rw [Handle.write, if_pos hfall]
      exact ⟨ho.ino, .buffered _, rfl, length_pwrite_le hbase hle, rfl, rfl⟩)
    (h.known fh hd hfh).1
    (by
      rw [Handle.write, if_pos hfall]
      exact (h.known fh hd hfh).2)
  obtain ⟨st, hdec, -, hviews⟩ := decrementIfSome_eq hput o.lastCommittedRoot
  refine wp_of_eq hdec fun _ => ⟨rfl, ?_⟩
  rw [Files.write, if_pos hfall, ← ho.last]
  exact hviews

theorem wp_testWrite (hB : L.Reliable) (h : L.Views s f) {fh : UInt64} {hd : Handle}
    (hfh : f.handles[fh]? = some hd) {offset : UInt64} {data : Bytes}
    (hle : offset.toNat + data.length ≤ isizeMax) :
    wp L.growthFs (testWrite fh offset data)
      (fun r s' => r = .ok (UInt32.ofNat data.length) ∧
        L.Views s' (f.write fh hd offset.toNat data)) s := by
  obtain ⟨o, hopen, ho⟩ := h.getFile_some hfh
  have hget : getFile fh s = (.ok (some o), s) := by rw [getFile, Prog.read_apply, hopen]
  refine wp_bind_of_eq hget (wp_bind_of_eq rfl ?_)
  have hwrite : wp L.growthFs (writeHandle fh offset data o)
      (fun r s' => r = .ok () ∧ L.Views s' (f.write fh hd offset.toNat data)) s := by
    have hmode := ho.mode
    unfold writeHandle
    generalize hbuf : hd.buffered = b at hmode
    generalize hcon : hd.content = c at hmode
    generalize hmode' : o.writeMode = mode at hmode
    cases hmode with
    | buffered =>
        obtain ⟨s', hrun, hs'⟩ := bufferedWrite_eq h hfh ho hbuf hle
        rw [hcon] at hrun
        exact wp_of_eq hrun fun _ => ⟨rfl, hs'⟩
    | @streaming state hst =>
        have hlen := toNat_ofNat_length ho.length_le
        rw [hcon] at hlen
        by_cases hoff : offset = UInt64.ofNat (L.content state).length
        · have hnat : offset.toNat = (L.content state).length := by rw [hoff, hlen]
          rw [hnat] at hle ⊢
          simp only [ne_eq, hoff, not_true_eq_false, if_false]
          -- a backend that ends without a collision reported no error on the way
          intro hgood
          have hpushed := Blockset.Laws.NoCollision.of_le hgood
            (le_sequentialWrite L fh o state _ data s)
          obtain ⟨s', hrun, hs'⟩ := sequentialWrite_eq hB h hfh ho hbuf hst
            hcon.symm data (by rwa [hcon]) (hB.quiet hpushed)
          rw [hcon] at hrun hs'
          rw [hrun]
          exact ⟨rfl, hs'⟩
        · have hfall : hd.FallsBack offset.toNat := by
            refine ⟨hbuf, fun heq => hoff ?_⟩
            rw [← hcon, ← heq, UInt64.ofNat_toNat]
          simp only [ne_eq, hoff, not_false_eq_true, if_true]
          exact wp_fallbackWrite hB h hfh ho hst hcon.symm hfall hle
  refine wp_bind (hwrite.mono ?_)
  rintro _ s' - ⟨rfl, hs'⟩
  exact wp_pure fun _ => ⟨rfl, hs'⟩

theorem Contents.record_eq (digest : Bytes → Digest224) (c : Contents) (i : UInt64)
    (old : Option Digest224) (b : Bytes) :
    (if old = some (digest b)
      then (c.drop (old.filter fun d => d ≠ digest b)).setContent i (some b)
      else ((c.drop (old.filter fun d => d ≠ digest b)).setContent i (some b)).increment
        (digest b)) = c.record digest i old b := by
  unfold Contents.record recount
  by_cases hold : old = some (digest b)
  · rw [if_pos hold, if_pos hold, hold]
    simp [Contents.drop, Contents.setContent, dropIfSome, Option.filter_some]
  · rw [if_neg hold, if_neg hold]
    cases old with
    | none => simp [Contents.drop, Contents.setContent, Contents.increment, dropIfSome]
    | some d =>
        have hne : d ≠ digest b := fun h => hold (congrArg some h)
        simp [Contents.drop, Contents.setContent, Contents.increment, Option.filter_some, hne]

theorem recordDigest_eq (hB : L.Reliable) (h : L.Views s f) {i : UInt64}
    (old : Option Digest224) {b : Bytes} (hi : i < f.core.nextIno)
    (hb : b ∈ L.stored s.store.io) (hlen : b.length ≤ isizeMax) :
    ∃ s', recordDigest i old (L.digest b) s = (.ok (), s') ∧
      L.le s.store.io s'.store.io ∧
      L.Views s' { f with core := f.core.record L.digest i old b } := by
  obtain ⟨st₁, h₁, hio₁, hv₁⟩ := decrementIfSome_eq h (old.filter fun d => d ≠ L.digest b)
  obtain ⟨st₂, h₂, hc₂⟩ := setManifest_eq (b := some b) hB hv₁.core (i := i) hi (by
    rintro x ⟨rfl⟩
    exact ⟨hio₁ ▸ hb, hlen⟩)
  have hle₂ : L.le s.store.io st₂.io := hio₁ ▸ le_of_run h₂
  have hv₂ := hv₁.store (hio₁ ▸ hle₂) hc₂ (UInt64.le_refl _)
  have hset := callStore_ok (s := { s with store := st₁ }) (e := eio) h₂
  have hrec := Contents.record_eq L.digest f.core i old b
  by_cases hold : old = some (L.digest b)
  · refine ⟨{ s with store := st₂ }, ?_, hle₂, ?_⟩
    · rw [recordDigest, Prog.bind_ok h₁]
      refine (Prog.bind_ok hset).trans ?_
      rw [if_pos hold]
      rfl
    · rw [if_pos hold] at hrec
      rw [← hrec]
      exact hv₂
  · obtain ⟨st₃, h₃, hc₃, hio₃⟩ := incrementRefcount_eq (ε := Errno) hv₂.core (L.digest b)
    refine ⟨{ s with store := st₃ }, ?_, (congrArg (L.le s.store.io) hio₃).mpr hle₂, ?_⟩
    · rw [recordDigest, Prog.bind_ok h₁]
      refine (Prog.bind_ok hset).trans ?_
      rw [if_neg hold]
      exact onStore_eq h₃
    · rw [if_neg hold] at hrec
      rw [← hrec]
      exact hv₂.store (hio₃ ▸ L.le_refl _) hc₃ (UInt64.le_refl _)

theorem wp_editInode (hB : L.Reliable) (h : L.Views s f) (errno : MetaError → Errno) (i : UInt64)
    (change : InodeMeta → InodeMeta) (hchange : ∀ m, (change m).ino = m.ino) :
    wp L.growthFs (editInode errno i change)
      (fun r s' => r = (f.core.inodes[i]?).elim (.error (.err (errno (.notFound i))))
          (fun _ => .ok ()) ∧
        L.Views s' { f with core := f.core.modifyInode i change }) s := by
  refine wp_of_good fun hc => ?_
  have hget := getInode_eq h.core hc i
  unfold editInode
  cases hm : f.core.inodes[i]? with
  | none =>
      rw [Contents.getInode, hm] at hget
      refine wp_of_eq (Prog.bind_error (callStore_error hget)) fun _ => ⟨rfl, ?_⟩
      rw [Contents.modifyInode, hm]
      exact h
  | some m =>
      rw [Contents.getInode, hm] at hget
      have hino : (change m).ino = i := (hchange m).trans (h.core.inode i m hm).2.1
      obtain ⟨st, hupd, hc'⟩ := updateInode_eq (m := change m) hB h.core (n := m)
        (by rw [hino, hm])
      refine wp_bind_of_eq (callStore_ok hget) (wp_of_eq (callStore_ok hupd) fun _ => ⟨rfl, ?_⟩)
      rw [Contents.modifyInode, hm]
      rw [Contents.putInode, hino] at hc'
      exact h.store (le_of_run hupd) hc' (UInt64.le_refl _)

theorem byteCount_eq_zero_iff {o : OpenFileState B} {hd : Handle} {io : B.Io}
    (ho : L.HandleView io o hd) : o.byteCount = 0 ↔ hd.content = [] := by
  rw [← UInt64.toNat_inj, ho.byteCount, toNat_ofNat_length ho.length_le]
  exact List.length_eq_zero_iff

theorem getFile_eq {fh : UInt64} {o : Option (OpenFileState B)} (h : s.openFiles[fh]? = o) :
    getFile fh s = (.ok o, s) := by
  rw [getFile, Prog.read_apply, h]

theorem wp_recordSize (hB : L.Reliable) (h : L.Views s f) (i size : UInt64) (now : Now) :
    wp L.growthFs (recordSize i size now)
      (fun r s' => r = f.commitResult i ∧
        L.Views s' { f with core := f.core.modifyInode i fun m => m.setWritten size now }) s :=
  wp_editInode hB h eio i (fun m => m.setWritten size now) fun _ => rfl

theorem wp_flushBufferForFsync (hB : L.Reliable) (h : L.Views s f) {fh : UInt64} {hd : Handle}
    (hfh : f.handles[fh]? = some hd) (now : Now) :
    wp L.growthFs (flushBufferForFsync hd.ino fh now)
      (fun r s' => r = f.flushResult hd ∧ L.Views s' (f.flush L.digest fh hd now)) s := by
  obtain ⟨o, hopen, ho⟩ := h.getFile_some hfh
  refine wp_bind_of_eq (getFile_eq hopen) ?_
  show wp L.growthFs (flushHandle hd.ino fh now o) _ s
  unfold flushHandle Files.flush Files.flushResult
  by_cases hne : hd.content = []
  · rw [if_pos ((byteCount_eq_zero_iff ho).mpr hne), if_pos hne, if_pos hne]
    exact wp_pure fun _ => ⟨rfl, h⟩
  · rw [if_neg (fun hz => hne ((byteCount_eq_zero_iff ho).mp hz)), if_neg hne, if_neg hne]
    obtain ⟨hle, hi⟩ := h.known fh hd hfh
    obtain ⟨s₁, hput, hst₁, h₁⟩ := putFile_views h fh { o with casCommitted := true }
      { hd with committed := true }
      ⟨ho.ino, ho.mode, ho.byteCount, ho.length_le, rfl, ho.last⟩ hle hi
    refine wp_bind_of_eq hput ?_
    have hmode₁ := ho.mode
    rw [← hst₁] at hmode₁
    obtain ⟨s₂, hdig, hle₂, hstored, h₂⟩ := contentDigest_views hB h₁ hmode₁
    refine wp_bind_of_eq hdig ?_
    obtain ⟨s₃, hrec, hle₃, h₃⟩ := recordDigest_eq hB h₂ o.lastCommittedRoot hi
      hstored ho.length_le
    refine wp_bind_of_eq hrec ?_
    obtain ⟨s₄, hput₄, -, h₄⟩ := putFile_views h₃ fh
      { o with casCommitted := true, lastCommittedRoot := some (L.digest hd.content) }
      { hd with committed := true, last := some (L.digest hd.content) }
      ⟨ho.ino, (hmode₁.mono hle₂).mono hle₃, ho.byteCount, ho.length_le, rfl, rfl⟩ hle hi
    refine wp_bind_of_eq hput₄ ?_
    refine (wp_recordSize hB h₄ hd.ino o.byteCount now).mono ?_
    rintro r s' - ⟨rfl, hs'⟩
    refine ⟨rfl, ?_⟩
    rw [ho.byteCount, ho.last] at hs'
    simpa only [Files.put, insert_insert] using hs'

theorem flush_closed (h : L.Views s f) {fh : UInt64} (hfh : f.handles[fh]? = none) (i : UInt64)
    (now : Now) : flushBufferForFsync i fh now s = (.ok (), s) := by
  rw [flushBufferForFsync, Prog.bind_ok (getFile_eq (h.getFile_none hfh))]
  rfl

/-- The log is flushed after the content; what the files are does not depend on it. -/
theorem Blockset.Laws.Views.flushWal (h : L.Views s f) :
    L.Views { s with store := (flushWal s.store).2 } f := by
  have hmaps : (SliceFs.flushWal s.store).2.maps = s.store.maps := by
    unfold SliceFs.flushWal onWal
    split <;> rfl
  have hio : (SliceFs.flushWal s.store).2.io = s.store.io := by
    unfold SliceFs.flushWal onWal
    split <;> rfl
  have hcore := h.core
  refine h.store (hio ▸ L.le_refl _) ?_ (UInt64.le_refl _)
  constructor
  · rw [hmaps]; exact hcore.inodes
  · rw [hio]; exact hcore.inode
  · rw [hmaps]; exact hcore.manifests
  · rw [hio]; exact hcore.manifest
  · rw [hio]; exact hcore.content
  · rw [hmaps, hio]; exact hcore.dirs
  · rw [hmaps]; exact hcore.refcounts
  · rw [hmaps]; exact hcore.nextIno

theorem Blockset.Laws.Views.mapErr_flushWal (h : L.Views s f) (e : WalError → Errno) :
    L.Views (Prog.mapErr e (onStore SliceFs.flushWal) s).2 f := by
  have hw := h.flushWal
  unfold Prog.mapErr
  cases hrun : onStore (SliceFs.flushWal (B := B)) s with
  | mk r s₂ =>
      have hs₂ : s₂ = { s with store := (SliceFs.flushWal s.store).2 } :=
        (congrArg Prod.snd hrun).symm
      rw [hs₂]
      cases r <;> exact hw

/-- A flush that failed, or the log's own error. -/
theorem wp_testFsync (hB : L.Reliable) (h : L.Views s f) {fh : UInt64} {hd : Handle}
    (hfh : f.handles[fh]? = some hd) (now : Now) :
    wp L.growthFs (testFsync hd.ino fh now)
      (fun r s' => (r = .ok () → f.flushResult hd = .ok ()) ∧
        L.Views s' (f.flush L.digest fh hd now)) s := by
  unfold testFsync
  refine wp_bind ((wp_flushBufferForFsync hB h hfh now).mono ?_)
  rintro r s₁ - ⟨rfl, h₁⟩
  cases hr : f.flushResult hd with
  | error e => exact ⟨nofun, h₁⟩
  | ok _ => exact fun _ => ⟨fun _ => rfl, h₁.mapErr_flushWal _⟩

theorem attempt_manifest_isEmpty (digest : Bytes → Digest224) (c : Contents) (i : UInt64) :
    ((c.manifest digest i).toOption.getD []).isEmpty = true ↔ c.content i = none := by
  unfold Contents.manifest Contents.content
  rcases c.manifests[i]? with _ | _ | b <;> simp [Except.toOption]

theorem wp_releaseEmpty (hB : L.Reliable) (h : L.Views s f) {o : OpenFileState B} {hd : Handle}
    (ho : o.casCommitted = hd.committed) (hi : hd.ino < f.core.nextIno) :
    wp L.growthFs (releaseEmpty hd.ino o)
      (fun r s' => r = .ok () ∧ L.Views s' { f with
        core := if hd.committed = true ∨ f.core.content hd.ino ≠ none then f.core
          else f.core.setContent hd.ino none }) s := by
  refine wp_of_good fun hc => ?_
  unfold releaseEmpty
  rw [ho]
  by_cases hcom : hd.committed = true
  · rw [if_pos hcom, if_pos (.inl hcom)]
    exact wp_pure fun _ => ⟨rfl, h⟩
  · rw [if_neg hcom]
    refine wp_bind_of_eq (attempt_getManifest_eq h hc hd.ino) ?_
    by_cases hnone : f.core.content hd.ino = none
    · rw [if_pos ((attempt_manifest_isEmpty _ _ _).mpr hnone), if_neg (by simp [hcom, hnone])]
      obtain ⟨st, hset, hcore⟩ := setManifest_eq (b := none) hB h.core hi (by simp)
      exact wp_of_eq (callStore_ok hset) fun _ =>
        ⟨rfl, h.store (le_of_run hset) hcore (UInt64.le_refl _)⟩
    · rw [if_neg (fun he => hnone ((attempt_manifest_isEmpty _ _ _).mp he)),
        if_pos (.inr hnone)]
      exact wp_pure fun _ => ⟨rfl, h⟩

theorem wp_releaseContent (hB : L.Reliable) (h : L.Views s f) {o : OpenFileState B}
    {hd : Handle} (ho : L.HandleView s.store.io o hd) (hi : hd.ino < f.core.nextIno) (now : Now) :
    wp L.growthFs (releaseContent hd.ino o now)
      (fun r s' => r = (if hd.last = some (L.digest hd.content) ∧ hd.committed = true then .ok ()
          else f.commitResult hd.ino) ∧
        L.Views s' { f with
          core := if hd.last = some (L.digest hd.content) ∧ hd.committed = true then f.core
            else (f.core.record L.digest hd.ino hd.last hd.content).modifyInode hd.ino fun m =>
              m.setWritten (UInt64.ofNat hd.content.length) now }) s := by
  unfold releaseContent
  obtain ⟨s₁, hdig, -, hstored, h₁⟩ := contentDigest_views hB h ho.mode
  refine wp_bind_of_eq hdig ?_
  rw [ho.last, ho.committed]
  by_cases hsame : hd.last = some (L.digest hd.content) ∧ hd.committed = true
  · rw [if_pos hsame, if_pos hsame, if_pos hsame]
    exact wp_pure fun _ => ⟨rfl, h₁⟩
  · rw [if_neg hsame, if_neg hsame, if_neg hsame]
    obtain ⟨s₂, hrec, -, h₂⟩ := recordDigest_eq hB h₁ hd.last hi
      hstored ho.length_le
    refine wp_bind_of_eq hrec ?_
    rw [ho.byteCount]
    exact wp_recordSize hB h₂ hd.ino _ now

theorem wp_testRelease (hB : L.Reliable) (h : L.Views s f) {fh : UInt64} {hd : Handle}
    (hfh : f.handles[fh]? = some hd) (now : Now) :
    wp L.growthFs (testRelease hd.ino fh now)
      (fun r s' => r = f.releaseResult L.digest hd ∧ L.Views s' (f.release L.digest fh hd now))
        s := by
  obtain ⟨o, hopen, ho⟩ := h.getFile_some hfh
  refine wp_bind_of_eq (getFile_eq hopen) ?_
  show wp L.growthFs (releaseHandle hd.ino fh now o) _ s
  have hi := (h.known fh hd hfh).2
  have hrem := h.remove fh
  unfold releaseHandle Files.release Files.releasedCore Files.releaseResult
  refine wp_bind_of_eq (Prog.modify_apply _ _) ?_
  by_cases hne : hd.content = []
  · rw [if_pos ((byteCount_eq_zero_iff ho).mpr hne), if_pos hne, if_pos (.inl hne)]
    exact wp_releaseEmpty hB hrem ho.committed hi
  · rw [if_neg (fun hz => hne ((byteCount_eq_zero_iff ho).mp hz)), if_neg hne]
    simp only [hne, false_or]
    exact wp_releaseContent hB hrem ho hi now

theorem release_closed (h : L.Views s f) {fh : UInt64} (hfh : f.handles[fh]? = none) (i : UInt64)
    (now : Now) : testRelease i fh now s = (.ok (), s) := by
  rw [testRelease, Prog.bind_ok (getFile_eq (h.getFile_none hfh))]
  rfl

end

end SliceFs
