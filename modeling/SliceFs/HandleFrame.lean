import SliceFs.Numbers
import SliceFs.TreeView
import SliceFs.WritePath

/-!
# What a handle leaves alone

A call on a write handle changes the attributes and the manifest of its own inode, its
own buffer and the reference counts. Everything that can be asked about another inode, and
every entry list, gives the same answer as before: also when the contents are shared,
since blobs are only added and no answer depends on a count.
-/
namespace SliceFs
open TreeMaps ProgramLogic ByteFile

/-- The calls on handle `fh` of inode `i`. -/
def FsOp.OnHandle (i fh : UInt64) : FsOp → Prop
  | write fh' _ _ => fh' = fh
  | truncate i' fh' _ _ => i' = i ∧ fh' = some fh
  | flush i' fh' _ => i' = i ∧ fh' = fh
  | fsync i' fh' _ => i' = i ∧ fh' = fh
  | release i' fh' _ => i' = i ∧ fh' = fh
  | _ => False

/-- The files differ at most in inode `i` and its handles, and in the counts. -/
structure Files.SameOff (i : UInt64) (f f' : Files) : Prop where
  inodes : ∀ j, j ≠ i → f'.core.inodes[j]? = f.core.inodes[j]?
  manifests : ∀ j, j ≠ i → f'.core.manifests[j]? = f.core.manifests[j]?
  handles : ∀ (k : UInt64) (h : Handle), h.ino ≠ i →
    (f'.handles[k]? = some h ↔ f.handles[k]? = some h)

section
variable {digest : Bytes → Digest224} {f f' : Files} {c : Contents} {i fh : UInt64} {h : Handle}

theorem Contents.manifests_record_of_ne (c : Contents) {j : UInt64} (hj : j ≠ i)
    (old : Option Digest224) (b : Bytes) :
    (c.record digest i old b).manifests[j]? = c.manifests[j]? := by
  rw [Contents.record, getElem?_insert_ite, if_neg hj]

/-- A handle of the inode is replaced by another one, or by none. -/
theorem Files.handles_insert_iff (hfh : f.handles[fh]? = some h) {h' : Handle}
    (hi' : h'.ino = h.ino) (k : UInt64) (hd : Handle) (hne : hd.ino ≠ h.ino) :
    (f.handles.insert fh h')[k]? = some hd ↔ f.handles[k]? = some hd := by
  rw [getElem?_insert_ite]
  split_ifs with hk
  · rw [hk, hfh]
    constructor
    · rintro ⟨⟩
      exact absurd hi' hne
    · rintro ⟨⟩
      exact absurd rfl hne
  · rfl

theorem Files.handles_erase_iff (hfh : f.handles[fh]? = some h) (k : UInt64) (hd : Handle)
    (hne : hd.ino ≠ h.ino) : (f.handles.erase fh)[k]? = some hd ↔ f.handles[k]? = some hd := by
  rw [getElem?_erase_ite]
  split_ifs with hk
  · rw [hk, hfh]
    refine ⟨nofun, ?_⟩
    rintro ⟨⟩
    exact absurd rfl hne
  · rfl

theorem Files.SameOff.refl (i : UInt64) (f : Files) : f.SameOff i f :=
  ⟨fun _ _ => rfl, fun _ _ => rfl, fun _ _ _ => .rfl⟩

theorem Files.sameOff_write (hfh : f.handles[fh]? = some h) (offset : ℕ) (data : Bytes) :
    f.SameOff h.ino (f.write fh h offset data) := by
  refine ⟨fun j _ => ?_, fun j _ => ?_, handles_insert_iff hfh (h.ino_write _ _ _)⟩
  · unfold Files.write
    split_ifs <;> rfl
  · unfold Files.write
    split_ifs <;> rfl

theorem Files.sameOff_truncate (hfh : f.handles[fh]? = some h) (n : UInt64) (now : Now) :
    f.SameOff h.ino (f.truncate fh h n now) := by
  refine ⟨fun j hj => ?_, fun j _ => ?_, handles_insert_iff hfh rfl⟩
  · rw [Files.truncate, Contents.setSize, Contents.inodes_modifyInode_of_ne _ hj]
    split_ifs <;> rfl
  · rw [Files.truncate, Contents.setSize, Contents.manifests_modifyInode]
    split_ifs <;> rfl

theorem Files.sameOff_flush (hfh : f.handles[fh]? = some h) (now : Now) :
    f.SameOff h.ino (f.flush digest fh h now) := by
  unfold Files.flush
  split_ifs with hnil
  · exact .refl h.ino f
  · refine ⟨fun j hj => ?_, fun j hj => ?_, handles_insert_iff hfh rfl⟩
    · rw [Contents.inodes_modifyInode_of_ne _ hj]
      rfl
    · rw [Contents.manifests_modifyInode, Contents.manifests_record_of_ne _ hj]

theorem Files.sameOff_release (hfh : f.handles[fh]? = some h) (now : Now) :
    f.SameOff h.ino (f.release digest fh h now) := by
  refine ⟨fun j hj => ?_, fun j hj => ?_, handles_erase_iff hfh⟩
  · unfold Files.release Files.releasedCore
    split_ifs
    · rfl
    · rfl
    · rfl
    · rw [Contents.inodes_modifyInode_of_ne _ hj]
      rfl
  · unfold Files.release Files.releasedCore
    split_ifs
    · rfl
    · rw [Contents.setContent, getElem?_insert_ite, if_neg hj]
    · rfl
    · rw [Contents.manifests_modifyInode, Contents.manifests_record_of_ne _ hj]

theorem find?_filterMap_eq_findSome? {α β : Type} (g : α → Option β) (p : β → Bool) (l : List α) :
    (l.filterMap g).find? p = l.findSome? fun a => (g a).filter p := by
  induction l with
  | nil => rfl
  | cons a l ih =>
      rw [List.filterMap_cons, List.findSome?_cons, ← ih]
      cases g a with
      | none => rfl
      | some b => cases hp : p b <;> simp [Option.filter, hp]

/-- The writers of another inode are the same. -/
theorem Files.SameOff.findWriter (hs : f.SameOff i f') (order : List UInt64) {j : UInt64}
    (hj : j ≠ i) : f'.findWriter order j = f.findWriter order j := by
  have hfilter : ∀ k : UInt64,
      (f'.handles[k]?).filter (fun hd => hd.ino = j ∧ hd.content ≠ []) =
        (f.handles[k]?).filter fun hd => hd.ino = j ∧ hd.content ≠ [] := by
    intro k
    ext hd
    simp only [Option.filter_eq_some_iff, decide_eq_true_eq]
    exact and_congr_left fun hhd => hs.handles k hd (by rw [hhd.1]; exact hj)
  rw [Files.findWriter, Files.findWriter, find?_filterMap_eq_findSome?,
    find?_filterMap_eq_findSome?]
  simp only [hfilter]

theorem Files.SameOff.readContent (hs : f.SameOff i f') (order : List UInt64) {j : UInt64}
    (hj : j ≠ i) : f'.readContent order j = f.readContent order j := by
  rw [Files.readContent, Files.readContent, hs.findWriter order hj, hs.manifests j hj]

end

section
variable {B : Blockset} {L : B.Laws} {s s' : Fs B}

instance fixedXattrs_store : StoreGrowth L (L.growthMaps (.fixed StoreMaps.xattrData)) :=
  storeGrowth_maps (fun _ _ => rfl) fun _ _ => rfl

instance fixedXattrs_tree : TreeGrowth L (L.growthMaps (.fixed StoreMaps.xattrData)) :=
  AllowsDirs.treeGrowth
    ⟨⟨fun _ _ _ => rfl, fun _ _ _ => rfl, fun _ _ => rfl, fun _ _ _ => rfl⟩, fun _ _ _ _ => rfl⟩

variable (L) in
/-- Every list of extended attributes is in the backend. -/
def Store.XattrsNamed (st : Store B) : Prop :=
  ∀ (i : UInt64) (d : Digest224), st.maps.xattrData[i]? = some d → L.Names st.io d

theorem Blockset.Laws.Names.mono {io io' : B.Io} {d : Digest224} (h : L.Names io d)
    (hle : L.le io io') : L.Names io' d := by
  obtain ⟨b, hb, rfl⟩ := h
  exact ⟨b, L.stored_mono hle hb, rfl⟩

theorem Store.XattrsNamed.mono {st st' : Store B} (h : st.XattrsNamed L) (hle : L.le st.io st'.io)
    (hx : st'.maps.xattrData = st.maps.xattrData) : st'.XattrsNamed L := by
  intro i d hd
  rw [hx] at hd
  exact (h i d hd).mono hle

theorem Store.XattrsNamed.setXattrs (hB : L.Reliable) {st : Store B} (h : st.XattrsNamed L)
    (ino : UInt64) (xs : Xattrs) : (SliceFs.setXattrs ino xs st).2.XattrsNamed L := by
  obtain ⟨io, hpush, hle, hstored⟩ := onIo_pushAll_eq (L := L) (ε := MetaError) hB
    (serializeXattrs xs) st
  rw [SliceFs.setXattrs, internXattrs, Prog.bind_ok hpush]
  intro i d hd
  have hd' : (st.maps.xattrData.insert ino (L.digest (serializeXattrs xs)))[i]? = some d := hd
  rw [getElem?_insert_ite] at hd'
  split_ifs at hd'
  · exact ⟨_, hstored, (Option.some.inj hd').symm⟩
  · exact (h i d hd').mono hle

/-- Setting and removing an attribute read the list, and may then set it. -/
theorem growing_xattrsNamed (hB : L.Reliable) (ino : UInt64) (name : Str) (value : Bytes) :
    Growing (.keeps (Store.XattrsNamed L)) (setXattr ino name value : StoreM B Unit) ∧
      Growing (.keeps (Store.XattrsNamed L)) (removeXattr ino name : StoreM B Unit) := by
  have hio : ∀ {α : Type} (m : Prog B.Io MetaError α) [Growing L.growth m],
      Growing (.keeps (Store.XattrsNamed L)) (onIo m) := fun m hm =>
    ⟨fun st h => h.mono ((growing_onIo (g := L.growthQuiet) (m := m)).le_run st).1 rfl⟩
  have hset : ∀ xs : Xattrs, Growing (.keeps (Store.XattrsNamed L))
      (setXattrs ino xs : StoreM B Unit) := fun xs => ⟨fun st h => h.setXattrs hB ino xs⟩
  have hload : ∀ digest : Option Digest224,
      Growing L.growth (digest.elim (pure []) (loadXattrs B)) := by
    intro digest
    cases digest with
    | none => exact growing_pure []
    | some d => exact growing_loadXattrs L d
  constructor
  · unfold setXattr loadXattrsOf
    infer_instance
  · unfold removeXattr
    infer_instance

theorem FsOp.xattrsNamed (hB : L.Reliable) {op : FsOp} (h : s.store.XattrsNamed L)
    (hrun : op.run s = some s') : s'.store.XattrsNamed L := by
  have hquiet : op.xattrIno = none → s'.store.XattrsNamed L := by
    intro hop
    have hgrow := FsOp.grows (L := L) (g := L.growthMaps (.fixed StoreMaps.xattrData))
      (fun ino hino => by simp [hop] at hino) hrun
    exact h.mono hgrow.1.1 hgrow.2
  have hcall : ∀ m : StoreM B Unit, Growing (.keeps (Store.XattrsNamed L)) m →
      Prog.exec (callStore metaErrorToErrno m) s = some s' → s'.store.XattrsNamed L := by
    intro m hm hrun
    rw [← Prog.snd_of_exec hrun]
    exact (growing_callStore (g := .keeps (Store.XattrsNamed L)) metaErrorToErrno).le_run s h
  cases op with
  | setxattr ino name value => exact hcall _ (growing_xattrsNamed hB ino name value).1 hrun
  | removexattr ino name => exact hcall _ (growing_xattrsNamed hB ino name []).2 hrun
  | _ => exact hquiet rfl

theorem Prepared.xattrsNamed (hB : L.Reliable) {overflowChecks files : Bool} {st : Store B}
    (h : Prepared L overflowChecks files st) : st.XattrsNamed L := by
  induction h with
  | new hnew =>
      obtain ⟨io, rfl, -⟩ := new_eq (L := L) hB hnew
      intro i d hd
      simp [StoreMaps.initial] at hd
  | @seeded _ _ _ _ st _ source tree hnew hseed _ =>
      have hgrow := (growing_seed (g := L.growthMaps (.fixed StoreMaps.xattrData))
        source tree).le_run st
      rw [hseed] at hgrow
      obtain ⟨io, rfl, -⟩ := new_eq (L := L) hB hnew
      refine Store.XattrsNamed.mono ?_ hgrow.1.1 hgrow.2
      intro i d hd
      simp [StoreMaps.initial] at hd
  | loaded _ hcommit hle hio hload ih =>
      obtain rfl := eq_loadedStore_of_commit L hB hcommit hle hio hload
      obtain ⟨-, -, -, hle', -, -⟩ := commit_spec L hB hcommit
      exact ih.mono (L.le_trans hle' hle) rfl
  | logged log _ ih => exact ih

theorem Mounted.xattrsNamed (hB : L.Reliable) {overflowChecks : Bool}
    (h : Mounted L overflowChecks s) : s.store.XattrsNamed L := by
  induction h with
  | start _ hst => exact hst.xattrsNamed hB
  | step _ _ hrun ih => exact FsOp.xattrsNamed hB ih hrun
  | remount _ _ _ hcommit hle hio hload ih =>
      obtain rfl := eq_loadedStore_of_commit L hB hcommit hle hio hload
      obtain ⟨-, -, -, hle', -, -⟩ := commit_spec L hB hcommit
      exact ih.mono (L.le_trans hle' hle) rfl

theorem loadRecord_grow {α : Type} {what : String} {dec : Bytes → Except (Fault MetaError) α}
    {io io' : B.Io} {d : Digest224} (hd : L.Names io d) (hle : L.le io io')
    (hc : L.NoCollision io') : (loadRecord what dec d io').1 = (loadRecord what dec d io).1 := by
  obtain ⟨b, hb, rfl⟩ := hd
  rw [loadRecord_of_stored L hc (L.stored_mono hle hb), loadRecord_of_stored L (hc.of_le hle) hb]

/-- The attributes of an inode do not depend on what else the backend has. -/
theorem loadXattrsOf_grow {st st' : Store B} (h : st.XattrsNamed L) (hle : L.le st.io st'.io)
    (hc : L.NoCollision st'.io) (hx : st'.maps.xattrData = st.maps.xattrData) (i : UInt64) :
    (loadXattrsOf i st').1 = (loadXattrsOf i st).1 := by
  have hread : ∀ u : Store B, loadXattrsOf i u =
      onIo ((u.maps.xattrData[i]?).elim (pure []) (loadXattrs B)) u := fun _ => rfl
  rw [hread, hread, hx]
  cases hd : st.maps.xattrData[i]? with
  | none => rfl
  | some d => exact loadRecord_grow (h i d hd) hle hc

/-- Nor do the entries of a directory. -/
theorem listDirectory_grow {st st' : Store B} {c : Contents} (h : L.Holds st c)
    (hle : L.le st.io st'.io) (hc : L.NoCollision st'.io)
    (hdirs : st'.maps.dirData = st.maps.dirData) (p : UInt64) :
    (listDirectory p st').1 = (listDirectory p st).1 := by
  have hdig := dirDigestOf_apply p st
  have hdig' := dirDigestOf_apply p st'
  rw [hdirs] at hdig'
  unfold listDirectory
  cases hd : st.maps.dirData[p]? with
  | none =>
      rw [hd] at hdig hdig'
      rw [Prog.bind_error hdig, Prog.bind_error hdig']
  | some d =>
      rw [hd] at hdig hdig'
      rw [Prog.bind_ok hdig, Prog.bind_ok hdig']
      have hload : (loadEntryList B d st'.io).1 = (loadEntryList B d st.io).1 :=
        loadRecord_grow (h.dirs p d hd) hle hc
      unfold onIo Prog.zoom listDirEntries
      simp only [Prog.bind_apply]
      generalize loadEntryList B d st'.io = r' at hload ⊢
      generalize loadEntryList B d st.io = r at hload ⊢
      obtain ⟨r', io'⟩ := r'
      obtain ⟨r, io⟩ := r
      obtain rfl : r' = r := hload
      cases r' <;> rfl

variable (L) in
/-- All that can be asked about inode `j` has the same answer in `s'` as in `s`. -/
structure Fs.SameAt (s s' : Fs B) (j : UInt64) : Prop where
  inode : (getInode j s'.store).1 = (getInode j s.store).1
  manifest : (getManifest j s'.store).1 = (getManifest j s.store).1
  xattrs : (loadXattrsOf j s'.store).1 = (loadXattrsOf j s.store).1
  entries : (listDirectory j s'.store).1 = (listDirectory j s.store).1
  read : ∀ (order : List UInt64) (offset : UInt64) (size : UInt32),
    L.NoCollision (testRead order j offset size s).2.store.io →
    L.NoCollision (testRead order j offset size s').2.store.io →
    (testRead order j offset size s').1 = (testRead order j offset size s).1

/-- A call on a handle, seen by the files. -/
theorem FsOp.sameOff (hB : L.Reliable) {f : Files} (h : L.Views s f) {fh : UInt64} {hd : Handle}
    (hfh : f.handles[fh]? = some hd) {op : FsOp} (hop : op.OnHandle hd.ino fh) (hv : op.Valid s)
    (hrun : op.run s = some s') (hc : L.NoCollision s'.store.io) :
    ∃ f', f.SameOff hd.ino f' ∧ L.Views s' f' := by
  cases op with
  | write k offset data =>
      obtain rfl : k = fh := hop
      obtain ⟨r, -, -, hv'⟩ := (wp_testWrite hB h hfh hv).exec hrun hc
      exact ⟨_, Files.sameOff_write hfh _ _, hv'⟩
  | truncate i k n now =>
      obtain ⟨rfl, rfl⟩ := hop
      obtain ⟨r, -, -, hv'⟩ := (wp_testSetattrSize_open hB h hfh hv.2.2 now).exec hrun hc
      exact ⟨_, Files.sameOff_truncate hfh _ _, hv'⟩
  | flush i k now =>
      obtain ⟨rfl, rfl⟩ := hop
      obtain ⟨r, -, -, hv'⟩ := (wp_flushBufferForFsync hB h hfh now).exec hrun hc
      exact ⟨_, Files.sameOff_flush hfh _, hv'⟩
  | fsync i k now =>
      obtain ⟨rfl, rfl⟩ := hop
      obtain ⟨r, -, -, hv'⟩ := (wp_testFsync hB h hfh now).exec hrun hc
      exact ⟨_, Files.sameOff_flush hfh _, hv'⟩
  | release i k now =>
      obtain ⟨rfl, rfl⟩ := hop
      obtain ⟨r, -, -, hv'⟩ := (wp_testRelease hB h hfh now).exec hrun hc
      exact ⟨_, Files.sameOff_release hfh _, hv'⟩
  | _ => exact hop.elim

/-- What such a call keeps to in the store. -/
theorem FsOp.OnHandle.grows {i fh : UInt64} {op : FsOp} (hop : op.OnHandle i fh)
    {g : Growth (Store B)} [InodeGrowth L g] (hrun : op.run s = some s') :
    g.le s.store s'.store := by
  have key : ∀ {α : Type} {m : FsM B α}, Growing (g.comap Fs.store) m →
      Prog.exec m s = some s' → g.le s.store s'.store := by
    intro α m hm hx
    rw [← Prog.snd_of_exec hx]
    exact hm.le_run s
  cases op with
  | write k offset data => exact key (growing_testWrite k offset data) hrun
  | truncate i k n now => exact key (growing_testSetattrSize i k n now) hrun
  | flush i k now => exact key (growing_testFlush i k now) hrun
  | fsync i k now => exact key (growing_testFsync i k now) hrun
  | release i k now => exact key (growing_testRelease i k now) hrun
  | _ => exact hop.elim

/-- A call on a write handle of one inode leaves every other inode and all entry lists as
they are. -/
theorem handle_frame (L : B.Laws) (hB : B.NoIoErrors) {overflowChecks : Bool}
    (hm : Mounted L overflowChecks s) {i fh : UInt64} {o : OpenFileState B}
    (ho : s.openFiles[fh]? = some o) (hi : o.ino = i) {op : FsOp} (hop : op.OnHandle i fh)
    (hv : op.Valid s) (hrun : op.run s = some s') (hc : L.NoCollision s'.store.io) :
    (∀ j, j ≠ i → s.SameAt L s' j) ∧
      ∀ p, (listDirectory p s'.store).1 = (listDirectory p s.store).1 := by
  have hB := hB.reliable L
  have hle := (hop.grows (g := L.growthQuiet) hrun).1
  have hc₀ := hc.of_le hle
  have hdirs : s'.store.maps.dirData = s.store.maps.dirData :=
    (hop.grows (g := L.fixedDirs) hrun).2
  have hxattrs : s'.store.maps.xattrData = s.store.maps.xattrData :=
    (hop.grows (g := L.growthMaps (.fixed StoreMaps.xattrData)) hrun).2
  obtain ⟨f, hf⟩ := hm.views hB hc₀
  obtain ⟨hd, hfh, hview⟩ := hf.handle_some ho
  obtain rfl : hd.ino = i := hview.ino.symm.trans hi
  obtain ⟨f', hsame, hf'⟩ := FsOp.sameOff hB hf hfh hop hv hrun hc
  have hlist := listDirectory_grow hf.core hle hc hdirs
  refine ⟨fun j hj => ⟨?_, ?_, ?_, hlist j, ?_⟩, hlist⟩
  · rw [getInode_eq hf'.core hc, getInode_eq hf.core hc₀, Contents.getInode, Contents.getInode,
      hsame.inodes j hj]
  · rw [getManifest_eq hf'.core hc, getManifest_eq hf.core hc₀, Contents.getManifest,
      Contents.getManifest, hsame.manifests j hj]
  · exact loadXattrsOf_grow (hm.xattrsNamed hB) hle hc hxattrs j
  · intro order offset size hcr hcr'
    obtain ⟨hr, -⟩ := wp_testRead hB hf order j offset size hcr
    obtain ⟨hr', -⟩ := wp_testRead hB hf' order j offset size hcr'
    rw [hr', hr, hsame.readContent order hj]

end

/-- Two files with the same content, both open. -/
def sharedOps : List FsOp :=
  [.create 1 nameA 0o644 0 0 0, .create 1 nameB 0o644 0 0 0, .write 1 0 [1, 2, 3],
    .write 2 0 [1, 2, 3], .fsync 2 1 midnight, .fsync 3 2 midnight]

def sharedFs : Fs memoryBlockset := (runFsOps sharedOps freshFs).get (by decide +kernel)

def truncateOp : FsOp := .truncate 2 (some 1) 0 midnight

def truncatedFs : Fs memoryBlockset := (truncateOp.run sharedFs).get (by decide +kernel)

theorem handle_frame_sharedFs : sharedFs.SameAt memoryLaws truncatedFs 3 := by
  have hm : Mounted memoryLaws true sharedFs :=
    (mounted_freshFs true).runFsOps (Option.some_get _).symm
  obtain ⟨o, ho⟩ : ∃ o, sharedFs.openFiles[(1 : UInt64)]? = some o :=
    Option.isSome_iff_exists.mp (by decide +kernel)
  have hino : o.ino = 2 := by
    have hall : ∀ o ∈ sharedFs.openFiles[(1 : UInt64)]?, o.ino = 2 := by decide +kernel
    exact hall o ho
  have hop : truncateOp.OnHandle 2 1 := ⟨rfl, rfl⟩
  have hvalid : truncateOp.Valid sharedFs := by decide +kernel
  have hrun : truncateOp.run sharedFs = some truncatedFs := (Option.some_get _).symm
  have hc : memoryLaws.NoCollision truncatedFs.store.io :=
    memoryLaws_noCollision (by decide +kernel)
  exact (handle_frame memoryLaws memoryBlockset_noIoErrors hm ho hino hop hvalid hrun hc).1 3
    (by decide)

end SliceFs
