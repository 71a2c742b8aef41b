import SliceFs.Files

/-!
# The contents of a store

`Holds` relates a store to the contents it stands for: every digest in its maps is the
digest of a blob that the backend has. Under it the operations of the store are the
operations on contents; directories keep their place in the maps and need only be
readable.
-/
namespace SliceFs
open TreeMaps ProgramLogic ByteFile

section
variable {B : Blockset} {ε α : Type} (L : B.Laws)

/-- The manifest blob of a content. -/
def Blockset.Laws.manifestBytes (b : Option Bytes) : Bytes :=
  serializeManifest (b.toList.map L.digest)

/-- The digest of a blob that the backend has. -/
def Blockset.Laws.Names (io : B.Io) (d : Digest224) : Prop :=
  ∃ b ∈ L.stored io, d = L.digest b

/-- The store stands for the contents `c`. -/
structure Blockset.Laws.Holds (st : Store B) (c : Contents) : Prop where
  inodes : ∀ i : UInt64, st.maps.inodeData[i]? =
    (c.inodes[i]?).map fun m => L.digest (serializeInode m)
  inode : ∀ (i : UInt64) (m : InodeMeta), c.inodes[i]? = some m →
    serializeInode m ∈ L.stored st.io ∧ m.ino = i ∧ i < c.nextIno
  manifests : ∀ i : UInt64, st.maps.manifestData[i]? =
    (c.manifests[i]?).map fun b => L.digest (L.manifestBytes b)
  manifest : ∀ (i : UInt64) (b : Option Bytes), c.manifests[i]? = some b →
    L.manifestBytes b ∈ L.stored st.io ∧ i < c.nextIno
  content : ∀ (i : UInt64) (b : Bytes), c.content i = some b →
    b ∈ L.stored st.io ∧ b.length ≤ isizeMax
  dirs : ∀ (p : UInt64) (d : Digest224), st.maps.dirData[p]? = some d → L.Names st.io d
  refcounts : st.maps.refcounts = c.refcounts
  nextIno : st.maps.inodeMap.nextIno = c.nextIno

variable {L} {st : Store B} {c : Contents}

theorem Blockset.Laws.Holds.grow (h : L.Holds st c) {io : B.Io} (hle : L.le st.io io) :
    L.Holds { st with io := io } c where
  inodes := h.inodes
  inode i m hm := ⟨L.stored_mono hle (h.inode i m hm).1, (h.inode i m hm).2⟩
  manifests := h.manifests
  manifest i b hb := ⟨L.stored_mono hle (h.manifest i b hb).1, (h.manifest i b hb).2⟩
  content i b hb := ⟨L.stored_mono hle (h.content i b hb).1, (h.content i b hb).2⟩
  dirs p d hd := by
    obtain ⟨b, hb, rfl⟩ := h.dirs p d hd
    exact ⟨b, L.stored_mono hle hb, rfl⟩
  refcounts := h.refcounts
  nextIno := h.nextIno

/-- The next number is not in use. -/
theorem Blockset.Laws.Holds.inodes_nextIno (h : L.Holds st c) : c.inodes[c.nextIno]? = none := by
  cases hm : c.inodes[c.nextIno]? with
  | none => rfl
  | some m => exact absurd (h.inode _ m hm).2.2 (UInt64.lt_irrefl _)

theorem le_of_run {m : Prog (Store B) ε α} [hm : Growing L.growthQuiet m] {st st' : Store B}
    {r : Except (Fault ε) α} (h : m st = (r, st')) : L.le st.io st'.io := by
  have hle := (hm.le_run st).1
  rwa [h] at hle

/-- Pushing a blob into the backend of a store. -/
theorem onIo_pushAll_eq (hB : L.Reliable) (b : Bytes) (st : Store B) :
    ∃ io, onIo (B.withFsa (B.step (B.pushAll b))) st =
        ((.ok (L.digest b), { st with io := io }) : Except (Fault ε) _ × _) ∧
      L.le st.io io ∧ b ∈ L.stored io := by
  obtain ⟨f, hf, hle, hb⟩ := L.step_pushAll_eq (ε := ε) hB b (B.new st.io)
  refine ⟨B.drop f, ?_, L.le_trans (L.le_new st.io) hle, hb⟩
  simp only [onIo, Blockset.withFsa, Prog.zoom, hf]

/-- What `get_inode` returns. -/
def Contents.getInode (c : Contents) (i : UInt64) : Except (Fault MetaError) InodeMeta :=
  (c.inodes[i]?).elim (.error (.err (.notFound i))) .ok

theorem getInode_eq (h : L.Holds st c) (hc : L.NoCollision st.io) (i : UInt64) :
    getInode i st = (c.getInode i, st) := by
  have hread : (readMaps (fun m => m.inodeData[i]?) : StoreM B _) st =
      (.ok (st.maps.inodeData[i]?), st) := rfl
  rw [SliceFs.getInode, Prog.bind_ok hread, h.inodes i, Contents.getInode]
  cases hi : c.inodes[i]? with
  | none => rfl
  | some m =>
      have hload : onIo (loadInode B (L.digest (serializeInode m))) st = (.ok m, st) := by
        rw [onIo, Prog.zoom, loadInode_of_stored L hc (h.inode i m hi).1]
      exact hload

/-- What `get_manifest` returns. -/
def Contents.getManifest (digest : Bytes → Digest224) (c : Contents) (i : UInt64) :
    Except (Fault MetaError) (List Digest224) :=
  (c.manifests[i]?).elim (.error (.err (.notFound i))) fun b => .ok (b.toList.map digest)

theorem getManifest_eq (h : L.Holds st c) (hc : L.NoCollision st.io) (i : UInt64) :
    getManifest i st = (c.getManifest L.digest i, st) := by
  have hread : (readMaps (fun m => m.manifestData[i]?) : StoreM B _) st =
      (.ok (st.maps.manifestData[i]?), st) := rfl
  rw [SliceFs.getManifest, Prog.bind_ok hread, h.manifests i, Contents.getManifest]
  cases hi : c.manifests[i]? with
  | none => rfl
  | some b =>
      have hload : onIo (loadManifest B (L.digest (L.manifestBytes b))) st =
          (.ok (b.toList.map L.digest), st) := by
        rw [onIo, Prog.zoom, Blockset.Laws.manifestBytes,
          loadManifest_of_stored L hc (h.manifest i b hi).1]
      exact hload

/-- A new record for an inode, in the store and in the contents. -/
theorem Blockset.Laws.Holds.setInode (h : L.Holds st c) {i : UInt64} {m : InodeMeta}
    (hm : serializeInode m ∈ L.stored st.io) (hi : m.ino = i) (hlt : i < c.nextIno)
    (logicalBytes inodeCount : UInt64) :
    L.Holds { st with maps := { st.maps.setInode i (L.digest (serializeInode m)) with
        logicalBytes := logicalBytes, inodeCount := inodeCount } }
      { c with inodes := c.inodes.insert i m } where
  inodes j := by
    rw [StoreMaps.setInode, getElem?_insert_ite, getElem?_insert_ite, h.inodes j]
    split_ifs <;> rfl
  inode j m' hj := by
    rw [getElem?_insert_ite] at hj
    split_ifs at hj with hji
    · obtain rfl := Option.some.inj hj
      exact ⟨hm, hi.trans hji.symm, hji ▸ hlt⟩
    · exact h.inode j m' hj
  manifests := h.manifests
  manifest := h.manifest
  content := h.content
  dirs := h.dirs
  refcounts := h.refcounts
  nextIno := h.nextIno

theorem updateInode_eq (hB : L.Reliable) (h : L.Holds st c) {m n : InodeMeta}
    (hm : c.inodes[m.ino]? = some n) :
    ∃ st', updateInode m st = (.ok (), st') ∧ L.Holds st' (c.putInode m) := by
  have hread : (readMaps (fun maps => maps.inodeData[m.ino]?) : StoreM B _) st =
      (.ok (some (L.digest (serializeInode n))), st) := by
    rw [readMaps, Prog.read_apply, h.inodes, hm]
    rfl
  have hsize : onIo (loadSize B (L.digest (serializeInode n))) st =
      (.ok (sizeAt st.io (L.digest (serializeInode n))), st) := by
    rw [onIo, Prog.zoom, loadSize_apply]
  obtain ⟨io, hpush, hle, hb⟩ := onIo_pushAll_eq (L := L) (ε := MetaError) hB (serializeInode m) st
  refine ⟨?st, ?run, ?holds⟩
  case run =>
    rw [updateInode, Prog.bind_ok hread, Prog.ofOption_some, Prog.bind_ok (Prog.pure_apply _ _),
      Prog.bind_ok hsize, internInode, Prog.bind_ok hpush]
    rfl
  case holds =>
    exact (h.grow hle).setInode hb rfl (h.inode _ _ hm).2.2 _ _

theorem Blockset.Laws.Holds.burn (h : L.Holds st c) (hmax : c.nextIno ≠ u64Max) :
    L.Holds { st with maps := { st.maps with
      inodeMap := { st.maps.inodeMap with nextIno := c.nextIno + 1 } } } c.burnIno := by
  have hlt : c.nextIno < c.nextIno + 1 := lt_add_one_of_ne_u64Max hmax
  exact
    { inodes := h.inodes
      inode := fun i m hm => ⟨(h.inode i m hm).1, (h.inode i m hm).2.1,
        UInt64.lt_trans (h.inode i m hm).2.2 hlt⟩
      manifests := h.manifests
      manifest := fun i b hb => ⟨(h.manifest i b hb).1, UInt64.lt_trans (h.manifest i b hb).2 hlt⟩
      content := h.content
      dirs := h.dirs
      refcounts := h.refcounts
      nextIno := rfl }

/-- What `allocate_ino` does to the contents. -/
theorem allocateIno_eq (h : L.Holds st c) (hmax : c.nextIno ≠ u64Max) :
    ∃ st', allocateIno st = ((.ok c.nextIno, st') : Except (Fault ε) _ × _) ∧
      L.Holds st' c.burnIno ∧ st'.io = st.io := by
  have halloc := allocateIno_apply (ε := ε) st
  rw [if_neg (by rwa [h.nextIno]), h.nextIno] at halloc
  exact ⟨_, halloc, h.burn hmax, rfl⟩

theorem allocateIno_panic (h : L.Holds st c) (hmax : c.nextIno = u64Max) :
    allocateIno st = ((.error .panic, st) : Except (Fault ε) _ × _) := by
  have halloc := allocateIno_apply (ε := ε) st
  rwa [if_pos (by rw [h.nextIno, hmax])] at halloc

theorem createInode_eq (hB : L.Reliable) (h : L.Holds st c) (m : InodeMeta)
    (hmax : c.nextIno ≠ u64Max) :
    ∃ st', createInode m st = (.ok c.nextIno, st') ∧ L.Holds st' (c.addInode m) := by
  obtain ⟨st₁, halloc, h₁, -⟩ := allocateIno_eq (ε := MetaError) h hmax
  obtain ⟨io, hpush, hle, hb⟩ := onIo_pushAll_eq (L := L) (ε := MetaError) hB
    (serializeInode { m with ino := c.nextIno }) st₁
  refine ⟨?st, ?run, ?holds⟩
  case run =>
    rw [createInode, Prog.bind_ok halloc, internInode, Prog.bind_ok hpush]
    rfl
  case holds =>
    exact (h₁.grow hle).setInode (i := c.nextIno) hb rfl (lt_add_one_of_ne_u64Max hmax) _ _

theorem createInode_panic (h : L.Holds st c) (m : InodeMeta) (hmax : c.nextIno = u64Max) :
    createInode m st = (.error .panic, st) := by
  rw [createInode, Prog.bind_error (allocateIno_panic h hmax)]

theorem deleteInode_eq (h : L.Holds st c) {i : UInt64} {m : InodeMeta}
    (hm : c.inodes[i]? = some m) :
    ∃ st', deleteInode i st = (.ok (), st') ∧ L.Holds st' (c.removeInode i) := by
  have hread : (readMaps (fun maps => maps.inodeData[i]?) : StoreM B _) st =
      (.ok (some (L.digest (serializeInode m))), st) := by
    rw [readMaps, Prog.read_apply, h.inodes, hm]
    rfl
  have hsize : onIo (loadSize B (L.digest (serializeInode m))) st =
      (.ok (sizeAt st.io (L.digest (serializeInode m))), st) := by
    rw [onIo, Prog.zoom, loadSize_apply]
  refine ⟨?st, ?run, ?holds⟩
  case run =>
    rw [deleteInode, Prog.bind_ok hread, Prog.ofOption_some, Prog.bind_ok (Prog.pure_apply _ _),
      Prog.bind_ok hsize]
    rfl
  case holds =>
    exact
      { inodes := fun j => by
          show (st.maps.inodeData.erase i)[j]? = _
          rw [Contents.removeInode, getElem?_erase_ite, getElem?_erase_ite, h.inodes j]
          split_ifs <;> rfl
        inode := fun j m' hj => by
          rw [Contents.removeInode, getElem?_erase_ite] at hj
          split_ifs at hj
          exact h.inode j m' hj
        manifests := h.manifests
        manifest := h.manifest
        content := h.content
        dirs := h.dirs
        refcounts := h.refcounts
        nextIno := h.nextIno }

theorem setManifest_eq (hB : L.Reliable) (h : L.Holds st c) {i : UInt64} {b : Option Bytes}
    (hi : i < c.nextIno) (hb : ∀ x ∈ b, x ∈ L.stored st.io ∧ x.length ≤ isizeMax) :
    ∃ st', setManifest i (b.toList.map L.digest) st = (.ok (), st') ∧
      L.Holds st' (c.setContent i b) := by
  obtain ⟨io, hpush, hle, hm⟩ := onIo_pushAll_eq (L := L) (ε := MetaError) hB (L.manifestBytes b) st
  have hg := h.grow hle
  refine ⟨?st, ?run, ?holds⟩
  case run =>
    have hintern : onIo (B.withFsa (internManifest B (b.toList.map L.digest))) st =
        ((.ok (L.digest (L.manifestBytes b)), { st with io := io }) :
          Except (Fault MetaError) _ × _) := hpush
    rw [setManifest, Prog.bind_ok hintern]
    rfl
  case holds =>
    exact
      { inodes := hg.inodes
        inode := hg.inode
        manifests := fun j => by
          rw [Contents.setContent, getElem?_insert_ite, getElem?_insert_ite, hg.manifests j]
          split_ifs <;> rfl
        manifest := fun j b' hj => by
          rw [Contents.setContent, getElem?_insert_ite] at hj
          split_ifs at hj with hji
          · obtain rfl := Option.some.inj hj
            exact ⟨hm, hji ▸ hi⟩
          · exact hg.manifest j b' hj
        content := fun j x hj => by
          rw [Contents.content, Contents.setContent, getElem?_insert_ite] at hj
          split_ifs at hj with hji
          · obtain rfl : b = some x := by simpa using hj
            exact ⟨L.stored_mono hle (hb x rfl).1, (hb x rfl).2⟩
          · exact hg.content j x hj
        dirs := hg.dirs
        refcounts := hg.refcounts
        nextIno := hg.nextIno }

theorem incrementRefcount_eq (h : L.Holds st c) (d : Digest224) :
    ∃ st', incrementRefcount d st = ((.ok (), st') : Except (Fault ε) _ × _) ∧
      L.Holds st' (c.increment d) ∧ st'.io = st.io :=
  ⟨_, rfl, ⟨h.inodes, h.inode, h.manifests, h.manifest, h.content, h.dirs,
    congrArg (fun rc => bumpRefcount rc d) h.refcounts, h.nextIno⟩, rfl⟩

theorem decrementRefcount_eq (h : L.Holds st c) (d : Digest224) :
    ∃ st', decrementRefcount d st = ((.ok (), st') : Except (Fault ε) _ × _) ∧
      L.Holds st' (c.drop (some d)) ∧ st'.io = st.io :=
  ⟨_, rfl, ⟨h.inodes, h.inode, h.manifests, h.manifest, h.content, h.dirs,
    congrArg (fun rc => dropRefcount rc d) h.refcounts, h.nextIno⟩, rfl⟩

theorem names_internEntryList (hB : L.Reliable) (entries : Map Digest224 EntryRecord)
    {f f' : B.Fsa} {d : Digest224}
    (h : internEntryList B entries f = ((.ok d, f') : Except (Fault ε) _ × _)) :
    L.Names (B.drop f') d := by
  obtain ⟨f₁, hf, -, hb⟩ := L.step_pushAll_eq (ε := ε) hB (serializeEntryList entries) f
  rw [internEntryList, hf] at h
  obtain ⟨h₁, rfl⟩ := Prod.mk.inj h
  exact ⟨_, hb, (Except.ok.inj h₁).symm⟩

theorem names_withFsa {m : Prog B.Fsa ε Digest224} {io io' : B.Io} {d : Digest224}
    (hm : ∀ f f', m f = (.ok d, f') → L.Names (B.drop f') d)
    (h : B.withFsa m io = (.ok d, io')) : L.Names io' d := by
  unfold Blockset.withFsa Prog.zoom at h
  obtain ⟨h₁, rfl⟩ := Prod.mk.inj h
  exact hm _ _ (Prod.ext h₁ rfl)

theorem names_addDirEntry (hB : L.Reliable) {io io' : B.Io} {d d' : Digest224} {name : Str}
    {ino : UInt64} (h : addDirEntry B d name ino io = (.ok d', io')) : L.Names io' d' := by
  obtain ⟨-, h⟩ := Prog.ensure_bind_eq_ok h
  obtain ⟨entries, io₁, -, h⟩ := Prog.bind_eq_ok h
  refine names_withFsa (fun f f' hf => ?_) h
  obtain ⟨key, f₁, -, hf⟩ := Prog.bind_eq_ok hf
  exact names_internEntryList hB _ (Prog.ensure_bind_eq_ok hf).2

theorem names_removeDirEntry (hB : L.Reliable) {io io' : B.Io} {d d' : Digest224} {name : Str}
    (h : removeDirEntry B d name io = (.ok d', io')) : L.Names io' d' := by
  obtain ⟨-, h⟩ := Prog.ensure_bind_eq_ok h
  obtain ⟨entries, io₁, -, h⟩ := Prog.bind_eq_ok h
  refine names_withFsa (fun f f' hf => ?_) h
  obtain ⟨key, f₁, -, hf⟩ := Prog.bind_eq_ok hf
  exact names_internEntryList hB _ (Prog.ensure_bind_eq_ok hf).2

theorem Blockset.Laws.Holds.setDir (h : L.Holds st c) {p : UInt64} {d : Digest224}
    (hd : L.Names st.io d) :
    L.Holds { st with maps := { st.maps with dirData := st.maps.dirData.insert p d } } c where
  inodes := h.inodes
  inode := h.inode
  manifests := h.manifests
  manifest := h.manifest
  content := h.content
  dirs q e he := by
    rw [getElem?_insert_ite] at he
    split_ifs at he with hq
    · obtain rfl := Option.some.inj he
      exact hd
    · exact h.dirs q e he
  refcounts := h.refcounts
  nextIno := h.nextIno

/-- A call on the backend alone. -/
theorem Blockset.Laws.Holds.onIo (h : L.Holds st c) (m : Prog B.Io ε α)
    [hm : Growing L.growth m] : L.Holds (SliceFs.onIo m st).2 c :=
  h.grow (hm.le_run st.io)

theorem Blockset.Laws.Holds.rewriteDir (h : L.Holds st c) (p : UInt64)
    {edit : Digest224 → Prog B.Io MetaError Digest224} [hg : ∀ d, Growing L.growth (edit d)]
    (hedit : ∀ d io d' io', edit d io = (.ok d', io') → L.Names io' d') :
    L.Holds (SliceFs.rewriteDir p edit st).2 c := by
  unfold SliceFs.rewriteDir dirDigestOf
  rw [Prog.bind_apply]
  have hread : (readMaps (fun m => m.dirData[p]?) : StoreM B _) st =
      (.ok (st.maps.dirData[p]?), st) := rfl
  rw [Prog.bind_ok hread]
  cases hd : st.maps.dirData[p]? with
  | none => exact h
  | some d =>
      show L.Holds ((SliceFs.onIo (edit d) >>= fun newDigest => SliceFs.setDir p newDigest) st).2 c
      have hio := h.onIo (edit d)
      rw [Prog.bind_apply]
      split
      · next d' st₁ he =>
          rw [he] at hio
          apply hio.setDir
          unfold SliceFs.onIo Prog.zoom at he
          obtain ⟨h₁, rfl⟩ := Prod.mk.inj he
          exact hedit d _ d' _ (Prod.ext h₁ rfl)
      · next e st₁ he =>
          rw [he] at hio
          exact hio

theorem Blockset.Laws.Holds.link (hB : L.Reliable) (h : L.Holds st c) (p : UInt64) (name : Str)
    (i : UInt64) : L.Holds (SliceFs.link p name i st).2 c :=
  h.rewriteDir p fun _ _ _ _ => names_addDirEntry hB

theorem Blockset.Laws.Holds.unlink (hB : L.Reliable) (h : L.Holds st c) (p : UInt64)
    (name : Str) : L.Holds (SliceFs.unlink p name st).2 c :=
  h.rewriteDir p fun _ _ _ _ => names_removeDirEntry hB

theorem wp_addBacklink (hB : L.Reliable) (h : L.Holds st c) (p : UInt64) :
    wp L.growthQuiet (addBacklink p)
      (fun _ st' => ∃ c', L.Holds st' c' ∧ c.Tweak c') st := by
  refine wp_of_good fun hc => ?_
  have hget := getInode_eq h hc p
  unfold addBacklink
  cases hp : c.inodes[p]? with
  | none =>
      rw [Contents.getInode, hp] at hget
      refine wp_of_eq (Prog.bind_error hget) fun _ => ⟨c, h, .refl c⟩
  | some m =>
      rw [Contents.getInode, hp] at hget
      refine wp_bind_of_eq hget ?_
      have hino : m.ino = p := (h.inode p m hp).2.1
      obtain ⟨st', hupd, hst'⟩ := updateInode_eq (m := { m with nlinks := m.nlinks + 1 }) hB h
        (n := m) (by rw [← hp, ← hino])
      by_cases hlinks : m.nlinks.toNat + 1 < 2 ^ 32
      · refine wp_of_eq ((Prog.assert_bind_of hlinks _ _).trans hupd) fun _ => ⟨_, hst', ?_⟩
        exact .attr (.refl c) (m := m) (by rw [← hp, ← hino]) rfl rfl
      · exact wp_of_eq (Prog.assert_bind_of_not hlinks _ _) fun _ => ⟨c, h, .refl c⟩

theorem dirDigestOf_apply (p : UInt64) (st : Store B) :
    dirDigestOf p st =
      ((st.maps.dirData[p]?).elim (.error (.err (.notADirectory p))) .ok, st) := by
  have hread : (readMaps (fun m => m.dirData[p]?) : StoreM B _) st =
      (.ok (st.maps.dirData[p]?), st) := rfl
  rw [dirDigestOf, Prog.bind_ok hread]
  cases st.maps.dirData[p]? <;> rfl

theorem Blockset.Laws.Holds.counters (h : L.Holds st c) (logicalBytes inodeCount : UInt64) :
    L.Holds { st with maps := { st.maps with
      logicalBytes := logicalBytes, inodeCount := inodeCount } } c :=
  ⟨h.inodes, h.inode, h.manifests, h.manifest, h.content, h.dirs, h.refcounts, h.nextIno⟩

variable (L) in
/-- The entries of a new directory. -/
def Blockset.Laws.newDir (i p : UInt64) : Map Digest224 EntryRecord :=
  (Std.ExtTreeMap.insert ∅ (L.digest Str.dot.bytes) ⟨L.digest Str.dot.bytes, i, .dot⟩).insert
    (L.digest Str.dotDot.bytes) ⟨L.digest Str.dotDot.bytes, p, .dotDot⟩

theorem createDirEntries_eq (hB : L.Reliable) (i p : UInt64) (f : B.Fsa) :
    ∃ f', createDirEntries B i p f =
        ((.ok (L.digest (serializeEntryList (L.newDir i p))), f') : Except (Fault ε) _ × _) ∧
      L.le (B.drop f) (B.drop f') ∧ serializeEntryList (L.newDir i p) ∈ L.stored (B.drop f') ∧
      Str.dot.bytes ∈ L.stored (B.drop f') ∧ Str.dotDot.bytes ∈ L.stored (B.drop f') := by
  obtain ⟨f₁, h₁, le₁, hdot⟩ := L.step_pushAll_eq (ε := ε) hB Str.dot.bytes f
  obtain ⟨f₂, h₂, le₂, hdotDot⟩ := L.step_pushAll_eq (ε := ε) hB Str.dotDot.bytes f₁
  obtain ⟨f₃, h₃, le₃, hb⟩ := L.step_pushAll_eq (ε := ε) hB (serializeEntryList (L.newDir i p)) f₂
  refine ⟨f₃, ?_, L.le_trans le₁ (L.le_trans le₂ le₃), hb, L.stored_mono (L.le_trans le₂ le₃) hdot,
    L.stored_mono le₃ hdotDot⟩
  rw [createDirEntries, entryKey, Prog.bind_ok h₁, entryKey, Prog.bind_ok h₂]
  exact h₃

theorem internDirectory_eq (hB : L.Reliable) (m : InodeMeta) (i p : UInt64) (f : B.Fsa) :
    ∃ f', internDirectory m i p f = ((.ok (L.digest (serializeInode m),
        L.digest (serializeEntryList (L.newDir i p))), f') : Except (Fault ε) _ × _) ∧
      L.le (B.drop f) (B.drop f') ∧ serializeInode m ∈ L.stored (B.drop f') ∧
      serializeEntryList (L.newDir i p) ∈ L.stored (B.drop f') ∧
      Str.dot.bytes ∈ L.stored (B.drop f') ∧ Str.dotDot.bytes ∈ L.stored (B.drop f') := by
  obtain ⟨f₁, h₁, le₁, hm⟩ := L.step_pushAll_eq (ε := ε) hB (serializeInode m) f
  obtain ⟨f₂, h₂, le₂, hstored⟩ := createDirEntries_eq (L := L) (ε := ε) hB i p f₁
  refine ⟨f₂, ?_, L.le_trans le₁ le₂, L.stored_mono le₂ hm, hstored⟩
  rw [internDirectory, internInode, Prog.bind_ok h₁, Prog.bind_ok h₂]
  rfl

theorem onIo_internDirectory_eq (hB : L.Reliable) (m : InodeMeta) (i p : UInt64) (st : Store B) :
    ∃ io, onIo (B.withFsa (internDirectory m i p)) st = ((.ok (L.digest (serializeInode m),
        L.digest (serializeEntryList (L.newDir i p))), { st with io := io }) :
          Except (Fault ε) _ × _) ∧
      L.le st.io io ∧ serializeInode m ∈ L.stored io ∧
      serializeEntryList (L.newDir i p) ∈ L.stored io ∧
      Str.dot.bytes ∈ L.stored io ∧ Str.dotDot.bytes ∈ L.stored io := by
  obtain ⟨f, hf, hle, hstored⟩ := internDirectory_eq (L := L) (ε := ε) hB m i p (B.new st.io)
  refine ⟨B.drop f, ?_, L.le_trans (L.le_new st.io) hle, hstored⟩
  simp only [onIo, Blockset.withFsa, Prog.zoom, hf]

/-- `create_directory` once its number is known. -/
theorem wp_insertDirectory (hB : L.Reliable) (h : L.Holds st c) {i : UInt64}
    (hi : i < c.nextIno) (p : UInt64) (name : Str) (m : InodeMeta) :
    wp L.growthQuiet (insertDirectory i p name m)
      (fun _ st' => ∃ c', L.Holds st' c' ∧ (c' = c ∨
        ({ c with inodes := c.inodes.insert i (m.asDirectory i) } : Contents).Tweak c')) st := by
  have hdig := dirDigestOf_apply p st
  unfold insertDirectory
  cases hd : st.maps.dirData[p]? with
  | none =>
      rw [hd] at hdig
      exact wp_of_eq (Prog.bind_error hdig) fun _ => ⟨c, h, .inl rfl⟩
  | some d =>
      rw [hd] at hdig
      refine wp_bind_of_eq hdig ?_
      obtain ⟨io, hdir, hle, hm, hentries, -, -⟩ :=
        onIo_internDirectory_eq (L := L) (ε := MetaError) hB (m.asDirectory i) i p st
      refine wp_bind_of_eq hdir ?_
      have hadd := (h.grow hle).onIo (addDirEntry B d name i)
      refine wp_bind (wp_of_eq (Prod.mk.eta).symm fun _ => ?_)
      cases hr : (onIo (addDirEntry B d name i) { st with io := io }).1 with
      | error e => exact ⟨c, hadd, .inl rfl⟩
      | ok d' =>
          have hnames : L.Names _ d' := names_addDirEntry hB (Prod.ext hr rfl)
          have hle' := (growing_addDirEntry L d name i).le_run io
          have hset := (hadd.setInode (i := i) (L.stored_mono hle' hm) rfl hi
            st.maps.logicalBytes st.maps.inodeCount).setDir (p := i)
            ⟨_, L.stored_mono hle' hentries, rfl⟩
          refine wp_bind_of_eq (Prog.modify_apply _ _) ?_
          refine wp_bind ((wp_addBacklink hB (hset.setDir (p := p) hnames) p).mono ?_)
          rintro r st₂ - ⟨c', hc', htweak⟩
          cases r with
          | error e => exact ⟨c', hc', .inr htweak⟩
          | ok _ =>
              exact wp_modify fun _ => ⟨c', hc'.counters _ _, .inr htweak⟩

theorem wp_createDirectory (hB : L.Reliable) (h : L.Holds st c) (p : UInt64) (name : Str)
    (m : InodeMeta) (hsize : m.size = 0) :
    wp L.growthQuiet (createDirectory p name m)
      (fun _ st' => ∃ c', L.Holds st' c' ∧ c.Tweak c') st := by
  refine wp_of_good fun hc => ?_
  have hget := getInode_eq h hc p
  unfold createDirectory
  cases hp : c.inodes[p]? with
  | none =>
      rw [Contents.getInode, hp] at hget
      exact wp_of_eq (Prog.bind_error hget) fun _ => ⟨c, h, .refl c⟩
  | some mp =>
      rw [Contents.getInode, hp] at hget
      refine wp_bind_of_eq hget ?_
      by_cases hdir : mp.isDir
      · refine wp_congr (Prog.ensure_bind_of hdir _ _ _) ?_
        have hdig := dirDigestOf_apply p st
        cases hd : st.maps.dirData[p]? with
        | none =>
            rw [hd] at hdig
            exact wp_of_eq (Prog.bind_error hdig) fun _ => ⟨c, h, .refl c⟩
        | some d =>
            rw [hd] at hdig
            refine wp_bind_of_eq hdig ?_
            by_cases hmax : c.nextIno = u64Max
            · exact wp_of_eq (Prog.bind_error (allocateIno_panic h hmax)) fun _ => ⟨c, h, .refl c⟩
            · obtain ⟨st₁, halloc, h₁, -⟩ := allocateIno_eq (ε := MetaError) h hmax
              refine wp_bind_of_eq halloc ?_
              refine wp_bind ((wp_insertDirectory hB h₁
                (lt_add_one_of_ne_u64Max hmax) p name m).mono ?_)
              rintro r st₂ - ⟨c', hc', htweak⟩
              have htweak' : c.Tweak c' := by
                rcases htweak with rfl | htweak
                · exact .burn (.refl c) hmax
                · exact (Contents.Tweak.add (m.asDirectory c.nextIno) (.refl c) hmax hsize).trans
                    htweak
              cases r with
              | error e => exact ⟨c', hc', htweak'⟩
              | ok _ => exact wp_pure fun _ => ⟨c', hc', htweak'⟩
      · exact wp_of_eq (Prog.ensure_bind_of_not hdir _ _ _) fun _ => ⟨c, h, .refl c⟩

end

end SliceFs
