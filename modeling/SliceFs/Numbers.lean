import SliceFs.Mount

/-!
# Inode numbers

Deleting an inode leaves its manifest, its entry list and its attributes in the maps. A
new inode does not inherit them: the next number is above every key of every map, in
every session and across commits and loads, and it only goes up.
-/
namespace SliceFs
open TreeMaps ProgramLogic

/-- Every key of the four maps is below `n`. -/
structure StoreMaps.Below (m : StoreMaps) (n : UInt64) : Prop where
  inode : ∀ i ∈ m.inodeData, i < n
  dir : ∀ i ∈ m.dirData, i < n
  manifest : ∀ i ∈ m.manifestData, i < n
  xattr : ∀ i ∈ m.xattrData, i < n

/-- The next number goes up, and an entry list is new only for a number that was handed
out. -/
def dirsBelow : Growth StoreMaps where
  le m m' := m.inodeMap.nextIno ≤ m'.inodeMap.nextIno ∧
    ∀ p ∈ m'.dirData, p ∈ m.dirData ∨ p < m'.inodeMap.nextIno
  good _ := True
  le_refl m := ⟨UInt64.le_refl _, fun _ => .inl⟩
  le_trans h₁ h₂ := by
    refine ⟨UInt64.le_trans h₁.1 h₂.1, fun p hp => ?_⟩
    rcases h₂.2 p hp with hp | hp
    · exact (h₁.2 p hp).imp_right fun hlt => UInt64.lt_of_lt_of_le hlt h₂.1
    · exact .inr hp
  good_of_le _ _ := trivial

/-- Attributes are new only for the inode `o`. -/
def xattrsOf (o : Option UInt64) : Growth StoreMaps where
  le m m' := ∀ i ∈ m'.xattrData, i ∈ m.xattrData ∨ o = some i
  good _ := True
  le_refl _ _ := .inl
  le_trans h₁ h₂ := fun i hi => (h₂ i hi).elim (h₁ i) .inr
  good_of_le _ _ := trivial

section
variable {B : Blockset} {L : B.Laws} {k : Growth StoreMaps}

theorem nameGrowth_maps [StoreGrowth L (L.growthMaps k)]
    (hdir : ∀ (m : StoreMaps) (p : UInt64) (d : Digest224), p ∈ m.dirData →
      k.le m { m with dirData := m.dirData.insert p d }) : NameGrowth L (L.growthMaps k) where
  rewriteDir p edit := by
    intro _
    constructor
    intro s
    have hdig := dirDigestOf_apply p s
    cases hd : s.maps.dirData[p]? with
    | none =>
        rw [hd] at hdig
        rw [rewriteDir, Prog.bind_error hdig]
        exact (L.growthMaps k).le_refl s
    | some d =>
        rw [hd] at hdig
        rw [rewriteDir, Prog.bind_ok hdig]
        refine Growth.le_bind (growing_onIo.le_run s) fun d' s₁ h₁ => ?_
        have hmaps : s₁.maps = s.maps := congrArg (fun r => r.2.maps) h₁.symm
        refine ⟨⟨L.le_refl s₁.io, .refl s₁.log⟩, hdir s₁.maps p d' ?_⟩
        rw [hmaps]
        exact mem_of_getElem?_eq_some hd

/-- What a growth of the maps has to allow for directories to be inserted. -/
structure AllowsDirs (k : Growth StoreMaps) : Prop extends AllowsInodes k where
  dirs : ∀ (m : StoreMaps) (p : UInt64) (d : Digest224), p ∈ m.dirData ∨ p < m.inodeMap.nextIno →
    k.le m { m with dirData := m.dirData.insert p d }

/-- The maps after the new directory's records are entered. -/
theorem AllowsDirs.insert (h : AllowsDirs k) {m : StoreMaps} {ino parent : UInt64}
    (hino : ino < m.inodeMap.nextIno) (hparent : parent ∈ m.dirData) (d₁ d₂ d₃ : Digest224) :
    k.le m { m.setInode ino d₁ with dirData := (m.dirData.insert ino d₂).insert parent d₃ } := by
  have h₁ := h.set m ino d₁
  have h₂ := h.dirs (m.setInode ino d₁) ino d₂ (.inr hino)
  have h₃ := h.dirs { m.setInode ino d₁ with dirData := m.dirData.insert ino d₂ } parent d₃
    (.inl (mem_insert_iff.mpr (.inr hparent)))
  exact k.le_trans (k.le_trans h₁ h₂) h₃

theorem AllowsDirs.le_insertDirectory (h : AllowsDirs k) [InodeGrowth L (L.growthMaps k)]
    {s : Store B} {ino : UInt64} (hino : ino < s.maps.inodeMap.nextIno) (parent : UInt64)
    (name : Str) (inode : InodeMeta) :
    (L.growthMaps k).le s (insertDirectory ino parent name inode s).2 := by
  have hcount : Growing (L.growthMaps k) (modifyMaps fun m =>
      { m with inodeCount := m.inodeCount + 1 } : StoreM B Unit) :=
    growingMaps_modify fun m => h.counters m m.logicalBytes _
  have hdig := dirDigestOf_apply parent s
  unfold insertDirectory
  cases hd : s.maps.dirData[parent]? with
  | none =>
      rw [hd] at hdig
      rw [Prog.bind_error hdig]
      exact (L.growthMaps k).le_refl s
  | some d =>
      rw [hd] at hdig
      rw [Prog.bind_ok hdig]
      refine Growth.le_bind (growing_onIo.le_run s) fun newDir s₁ h₁ => ?_
      refine Growth.le_bind (growing_onIo.le_run s₁) fun newParent s₂ h₂ => ?_
      have hmaps : s₂.maps = s.maps :=
        (congrArg (fun r => r.2.maps) h₂.symm).trans (congrArg (fun r => r.2.maps) h₁.symm)
      refine Growth.le_bind ⟨⟨L.le_refl s₂.io, .refl s₂.log⟩, h.insert ?_ ?_ _ _ _⟩ fun _ s₃ _ => ?_
      · rw [hmaps]
        exact hino
      · rw [hmaps]
        exact mem_of_getElem?_eq_some hd
      · exact growing_bind.le_run s₃

theorem AllowsDirs.growing_createDirectory (h : AllowsDirs k) [InodeGrowth L (L.growthMaps k)]
    (parent : UInt64) (name : Str) (inode : InodeMeta) :
    Growing (L.growthMaps k) (createDirectory parent name inode : StoreM B UInt64) := by
  constructor
  intro s
  unfold createDirectory
  refine Growth.le_bind ((growing_getInode parent).le_run s) fun m s₁ _ => ?_
  refine Growth.le_bind ((growing_ensure _ _).le_run s₁) fun _ s₂ _ => ?_
  refine Growth.le_bind ((growing_dirDigestOf parent).le_run s₂) fun _ s₃ _ => ?_
  refine Growth.le_bind (InodeGrowth.allocateIno.le_run s₃) fun ino s₄ h₄ => ?_
  rw [allocateIno_apply] at h₄
  split_ifs at h₄ with hmax
  · cases h₄
  obtain ⟨hino, rfl⟩ := Prod.mk.inj h₄
  obtain rfl := Except.ok.inj hino
  refine Growth.le_bind (h.le_insertDirectory (lt_add_one_of_ne_u64Max hmax) _ _ _) fun _ s₅ _ => ?_
  exact (L.growthMaps k).le_refl s₅

theorem AllowsDirs.treeGrowth (h : AllowsDirs k) [hs : StoreGrowth L (L.growthMaps k)] :
    TreeGrowth L (L.growthMaps k) :=
  have hname : NameGrowth L (L.growthMaps k) :=
    nameGrowth_maps fun m p d hp => h.dirs m p d (.inl hp)
  have hinode : InodeGrowth L (L.growthMaps k) := h.toAllowsInodes.inodeGrowth
  { hname, hinode with createDirectory := h.growing_createDirectory }

instance dirsBelow_store : StoreGrowth L (L.growthMaps dirsBelow) :=
  storeGrowth_maps (fun _ _ => ⟨UInt64.le_refl _, fun _ => .inl⟩)
    fun _ _ => ⟨UInt64.le_refl _, fun _ => .inl⟩

theorem dirsBelow_allows : AllowsDirs dirsBelow := by
  refine ⟨⟨fun _ _ hle => ⟨hle, fun _ => .inl⟩, fun _ _ _ => ⟨UInt64.le_refl _, fun _ => .inl⟩,
    fun _ _ => ⟨UInt64.le_refl _, fun _ => .inl⟩, fun _ _ _ => ⟨UInt64.le_refl _, fun _ => .inl⟩⟩,
    fun m p d hp => ?_⟩
  refine ⟨UInt64.le_refl _, fun q hq => ?_⟩
  rcases mem_insert_iff.mp hq with rfl | hq
  · exact hp
  · exact .inl hq

instance dirsBelow_tree : TreeGrowth L (L.growthMaps dirsBelow) := dirsBelow_allows.treeGrowth

instance dirsBelow_xattr : XattrGrowth L (L.growthMaps dirsBelow) where
  xattr _ _ := growingMaps_modify fun _ => ⟨UInt64.le_refl _, fun _ => .inl⟩

instance xattrsOf_store (o : Option UInt64) : StoreGrowth L (L.growthMaps (xattrsOf o)) :=
  storeGrowth_maps (fun _ _ _ => .inl) fun _ _ _ => .inl

instance xattrsOf_tree (o : Option UInt64) : TreeGrowth L (L.growthMaps (xattrsOf o)) :=
  AllowsDirs.treeGrowth
    ⟨⟨fun _ _ _ _ => .inl, fun _ _ _ _ => .inl, fun _ _ _ => .inl, fun _ _ _ _ => .inl⟩,
      fun _ _ _ _ _ => .inl⟩

theorem xattrsOf_setXattrs (ino : UInt64) (xs : Xattrs) :
    Growing (L.growthMaps (xattrsOf (some ino))) (setXattrs ino xs : StoreM B Unit) := by
  have hset : ∀ d : Digest224, Growing (L.growthMaps (xattrsOf (some ino))) (modifyMaps fun m =>
      { m with xattrData := m.xattrData.insert ino d } : StoreM B Unit) := by
    refine fun d => growingMaps_modify fun m i hi => ?_
    exact (mem_insert_iff.mp hi).symm.imp_right fun h => congrArg some h.symm
  unfold setXattrs
  infer_instance

variable {s s' : Fs B} {op : FsOp}

theorem FsOp.dirs_run (L : B.Laws) (hrun : op.run s = some s') :
    dirsBelow.le s.store.maps s'.store.maps :=
  (FsOp.grows (g := L.growthMaps dirsBelow) (fun _ _ _ => inferInstance) hrun).2

theorem FsOp.xattrs_run (L : B.Laws) (hrun : op.run s = some s') :
    (xattrsOf op.xattrIno).le s.store.maps s'.store.maps := by
  refine (FsOp.grows (g := L.growthMaps (xattrsOf op.xattrIno)) (fun ino hino xs => ?_) hrun).2
  rw [hino]
  exact xattrsOf_setXattrs ino xs

/-- The inode numbers that a request names. -/
def FsOp.inos : FsOp → List UInt64
  | create parent .. => [parent]
  | mknod parent .. => [parent]
  | mkdir parent .. => [parent]
  | symlink parent .. => [parent]
  | link ino newParent .. => [ino, newParent]
  | unlink parent _ => [parent]
  | rmdir parent _ => [parent]
  | rename parent _ newParent .. => [parent, newParent]
  | openFile ino .. => [ino]
  | read _ ino .. => [ino]
  | write .. => []
  | truncate ino .. => [ino]
  | flush ino .. => [ino]
  | fsync ino .. => [ino]
  | release ino .. => [ino]
  | chmod ino .. => [ino]
  | chown ino .. => [ino]
  | utimes ino .. => [ino]
  | setxattr ino .. => [ino]
  | removexattr ino _ => [ino]

/-- The number that `create_inode` or `create_directory` returns in a request. -/
def FsOp.created (s : Fs B) : FsOp → Option UInt64
  | create _ _ mode umask uid gid =>
      (createInode (.newFile 0 uid gid (fileMode mode umask)) s.store).1.toOption
  | mknod _ _ mode uid gid umask =>
      if mode &&& S_IFMT = S_IFREG ∨ mode &&& S_IFMT = 0 then
        (createInode (.newFile 0 uid gid (fileMode mode umask)) s.store).1.toOption
      else none
  | mkdir parent name mode umask uid gid =>
      (createDirectory parent name
        (.newDirectory 0 uid gid (S_IFDIR ||| (mode &&& ~~~umask &&& 0o7777))) s.store).1.toOption
  | symlink _ _ target uid gid =>
      (createInode (symlinkInode uid gid (UInt64.ofNat target.bytes.length)) s.store).1.toOption
  | _ => none

/-- The states of mounted file systems over any number of sessions, with the numbers that
requests have created so far. Requests name only numbers that were handed out. -/
inductive Numbered (L : B.Laws) (overflowChecks : Bool) : List UInt64 → Fs B → Prop where
  | start {st : Store B} (autoSnapshot : Bool) : Prepared L overflowChecks true st →
      Numbered L overflowChecks [] (Fs.mount st autoSnapshot)
  | step {created : List UInt64} {s s' : Fs B} {op : FsOp} : Numbered L overflowChecks created s →
      op.Valid s → (∀ i ∈ op.inos, s.Knows i) → op.run s = some s' →
      Numbered L overflowChecks ((op.created s).toList ++ created) s'
  | remount {created : List UInt64} {s : Fs B} {st u : Store B} {root : Digest224} {io io' : B.Io}
      (log : StoreLog) (autoSnapshot : Bool) : Numbered L overflowChecks created s →
      commit s.store = ((.ok root, st) : Except (Fault MetaError) _ × _) → L.le st.io io →
      L.NoCollision io → loadFromRoot B overflowChecks root io = (.ok u, io') →
      Numbered L overflowChecks created (Fs.mount { u with log := log } autoSnapshot)

theorem allocateIno_eq_ok {ε : Type} {st st' : Store B} {i : UInt64}
    (h : allocateIno st = ((.ok i, st') : Except (Fault ε) _ × _)) :
    i = st.maps.inodeMap.nextIno ∧ i < st'.maps.inodeMap.nextIno := by
  rw [allocateIno_apply] at h
  split_ifs at h with hmax
  · cases h
  · obtain ⟨hi, rfl⟩ := Prod.mk.inj h
    obtain rfl := Except.ok.inj hi
    exact ⟨rfl, lt_add_one_of_ne_u64Max hmax⟩

theorem createInode_eq_ok {m : InodeMeta} {st st' : Store B} {i : UInt64}
    (h : createInode m st = (.ok i, st')) :
    i = st.maps.inodeMap.nextIno ∧ i < st'.maps.inodeMap.nextIno := by
  obtain ⟨j, st₁, halloc, h⟩ := Prog.bind_eq_ok h
  obtain ⟨rfl, hlt⟩ := allocateIno_eq_ok halloc
  obtain ⟨d, st₂, hd, h⟩ := Prog.bind_eq_ok h
  have hmaps : st₂.maps = st₁.maps := congrArg (fun r => r.2.maps) hd.symm
  cases h
  rw [← hmaps] at hlt
  exact ⟨rfl, hlt⟩

theorem getInode_maps (i : UInt64) (st : Store B) : (getInode i st).2.maps = st.maps := by
  have hread : (readMaps (fun m => m.inodeData[i]?) : StoreM B _) st =
      (.ok (st.maps.inodeData[i]?), st) := rfl
  rw [getInode, Prog.bind_ok hread]
  cases st.maps.inodeData[i]? <;> rfl

theorem createDirectory_eq_ok (L : B.Laws) {parent : UInt64} {name : Str} {m : InodeMeta}
    {st st' : Store B} {i : UInt64} (h : createDirectory parent name m st = (.ok i, st')) :
    i = st.maps.inodeMap.nextIno ∧ i < st'.maps.inodeMap.nextIno := by
  obtain ⟨mp, st₁, hget, h⟩ := Prog.bind_eq_ok h
  have hmaps₁ : st₁.maps = st.maps := by
    rw [← getInode_maps parent st, hget]
  obtain ⟨-, h⟩ := Prog.ensure_bind_eq_ok h
  obtain ⟨d, st₂, hdig, h⟩ := Prog.bind_eq_ok h
  have hst₂ : st₂ = st₁ := congrArg Prod.snd (hdig.symm.trans (dirDigestOf_apply parent st₁))
  obtain ⟨j, st₃, halloc, h⟩ := Prog.bind_eq_ok h
  obtain ⟨hj, hlt⟩ := allocateIno_eq_ok halloc
  obtain ⟨_, st₄, hins, h⟩ := Prog.bind_eq_ok h
  have hle := (AllowsDirs.le_insertDirectory (L := L) dirsBelow_allows hlt parent name m).2.1
  rw [hins] at hle
  cases h
  rw [hst₂, hmaps₁] at hj
  exact ⟨hj, UInt64.lt_of_lt_of_le hlt hle⟩

/-- What is created gets the next number. -/
theorem FsOp.created_eq (L : B.Laws) {n : UInt64} (h : op.created s = some n) :
    n = s.store.maps.inodeMap.nextIno := by
  cases op with
  | create parent name mode umask uid gid => exact (createInode_eq_ok (Prog.eq_ok_of_toOption h)).1
  | mknod parent name mode uid gid umask =>
      rw [FsOp.created] at h
      split_ifs at h
      exact (createInode_eq_ok (Prog.eq_ok_of_toOption h)).1
  | mkdir parent name mode umask uid gid =>
      exact (createDirectory_eq_ok L (Prog.eq_ok_of_toOption h)).1
  | symlink parent name target uid gid => exact (createInode_eq_ok (Prog.eq_ok_of_toOption h)).1
  | _ => cases h

theorem callStore_store {α : Type} (errno : MetaError → Errno) (m : StoreM B α) (s : Fs B) :
    (callStore errno m s).2.store = (m s.store).2 := by
  rw [callStore, Prog.mapErr_snd]
  rfl

/-- A node that is created uses up its number, also when it cannot be linked. -/
theorem lt_createNode (L : B.Laws) {m : InodeMeta} {n : UInt64}
    (h : (createInode m s.store).1.toOption = some n) (parent : UInt64) (name : Str) :
    n < (createNode parent name m s).2.store.maps.inodeMap.nextIno := by
  have hlt := (createInode_eq_ok (Prog.eq_ok_of_toOption h)).2
  rw [← callStore_store metaErrorToErrno] at hlt
  exact UInt64.lt_of_lt_of_le hlt
    (le_run_bind (g := (L.growthMaps dirsBelow).comap Fs.store) s).2.1

theorem FsOp.created_lt (L : B.Laws) {n : UInt64} (h : op.created s = some n)
    (hrun : op.run s = some s') : n < s'.store.maps.inodeMap.nextIno := by
  cases op with
  | create parent name mode umask uid gid =>
      rw [← Prog.snd_of_exec hrun]
      exact UInt64.lt_of_lt_of_le (lt_createNode L h parent name)
        (le_run_bind (g := (L.growthMaps dirsBelow).comap Fs.store) s).2.1
  | mknod parent name mode uid gid umask =>
      rw [FsOp.created] at h
      split_ifs at h with hmode
      have hs := Prog.snd_of_exec hrun
      rw [testMknod, Prog.ensure_bind_of hmode] at hs
      rw [← hs]
      exact lt_createNode L h parent name
  | mkdir parent name mode umask uid gid =>
      rw [← Prog.snd_of_exec hrun, simulateMkdir, callStore_store]
      exact (createDirectory_eq_ok L (Prog.eq_ok_of_toOption h)).2
  | symlink parent name target uid gid =>
      rw [← Prog.snd_of_exec hrun]
      exact UInt64.lt_of_lt_of_le (lt_createNode L h parent name)
        (le_run_bind (g := (L.growthMaps dirsBelow).comap Fs.store) s).2.1
  | _ => cases h

/-- The files of a mounted file system keep inodes and manifests below the next number. -/
theorem Blockset.Laws.Holds.below {st : Store B} {c : Contents} (h : L.Holds st c)
    (hdir : ∀ i ∈ st.maps.dirData, i < st.maps.inodeMap.nextIno)
    (hxattr : ∀ i ∈ st.maps.xattrData, i < st.maps.inodeMap.nextIno) :
    st.maps.Below st.maps.inodeMap.nextIno where
  inode i hi := by
    rw [Std.ExtTreeMap.mem_iff_isSome_getElem?, h.inodes i, Option.isSome_map] at hi
    obtain ⟨m, hm⟩ := Option.isSome_iff_exists.mp hi
    rw [h.nextIno]
    exact (h.inode i m hm).2.2
  dir := hdir
  manifest i hi := by
    rw [Std.ExtTreeMap.mem_iff_isSome_getElem?, h.manifests i, Option.isSome_map] at hi
    obtain ⟨b, hb⟩ := Option.isSome_iff_exists.mp hi
    rw [h.nextIno]
    exact (h.manifest i b hb).2
  xattr := hxattr

/-- Entry lists and attributes belong to numbers that were handed out. -/
structure StoreMaps.Dated (m : StoreMaps) : Prop where
  dir : ∀ i ∈ m.dirData, i < m.inodeMap.nextIno
  xattr : ∀ i ∈ m.xattrData, i < m.inodeMap.nextIno

theorem StoreMaps.Dated.grow {m m' : StoreMaps} {o : Option UInt64} (h : m.Dated)
    (hdir : dirsBelow.le m m') (hxattr : (xattrsOf o).le m m')
    (ho : ∀ i ∈ o, i < m.inodeMap.nextIno) : m'.Dated where
  dir i hi := by
    rcases hdir.2 i hi with hi | hi
    · exact UInt64.lt_of_lt_of_le (h.dir i hi) hdir.1
    · exact hi
  xattr i hi := by
    rcases hxattr i hi with hi | hi
    · exact UInt64.lt_of_lt_of_le (h.xattr i hi) hdir.1
    · exact UInt64.lt_of_lt_of_le (ho i hi) hdir.1

theorem Prepared.dated (hB : L.Reliable) {overflowChecks files : Bool} {st : Store B}
    (h : Prepared L overflowChecks files st) : st.maps.Dated := by
  have hnew : ∀ {uid gid : UInt32} {io io' : B.Io} {st : Store B},
      Store.new B uid gid io = (.ok st, io') → st.maps.Dated := by
    intro uid gid io io' st h
    obtain ⟨io₁, rfl, -⟩ := new_eq (L := L) hB h
    refine ⟨fun i hi => ?_, fun i hi => absurd hi Std.ExtTreeMap.not_mem_empty⟩
    rcases mem_insert_iff.mp hi with rfl | hi
    · exact (by decide : (1 : UInt64) < 2)
    · exact absurd hi Std.ExtTreeMap.not_mem_empty
  induction h with
  | new h => exact hnew h
  | @seeded _ _ _ _ st st' source tree h hseed _ =>
      have hdir := ((growing_seed (g := L.growthMaps dirsBelow) source tree).le_run st).2
      have hxattr := ((growing_seed (g := L.growthMaps (xattrsOf none)) source tree).le_run st).2
      rw [hseed] at hdir hxattr
      exact (hnew h).grow hdir hxattr nofun
  | loaded _ hcommit hle hio hload ih =>
      obtain rfl := eq_loadedStore_of_commit L hB hcommit hle hio hload
      exact ⟨ih.dir, ih.xattr⟩
  | logged _ _ ih => exact ih

theorem FsOp.mem_inos_of_xattrIno {i : UInt64} (h : i ∈ op.xattrIno) : i ∈ op.inos := by
  cases op with
  | setxattr ino name value => simpa [FsOp.xattrIno, FsOp.inos, eq_comm] using h
  | removexattr ino name => simpa [FsOp.xattrIno, FsOp.inos, eq_comm] using h
  | _ => cases h

theorem FsOp.knows_inos (h : (op.inos.all fun i => decide (s.Knows i)) = true) :
    ∀ i ∈ op.inos, s.Knows i :=
  fun i hi => of_decide_eq_true (List.all_eq_true.mp h i hi)

variable {overflowChecks : Bool} {created : List UInt64}

theorem Numbered.mounted (h : Numbered L overflowChecks created s) :
    Mounted L overflowChecks s := by
  induction h with
  | start auto hst => exact .start auto hst
  | step _ hvalid _ hrun ih => exact ih.step hvalid hrun
  | remount log auto _ hcommit hle hio hload ih => exact ih.remount log auto hcommit hle hio hload

theorem Numbered.dated (hB : L.Reliable) (h : Numbered L overflowChecks created s) :
    s.store.maps.Dated := by
  induction h with
  | start auto hst => exact hst.dated hB
  | step _ _ hknown hrun ih =>
      refine ih.grow (FsOp.dirs_run L hrun) (FsOp.xattrs_run L hrun) fun i hi => ?_
      exact hknown i (FsOp.mem_inos_of_xattrIno hi)
  | remount log auto _ hcommit hle hio hload ih =>
      obtain rfl := eq_loadedStore_of_commit L hB hcommit hle hio hload
      exact ⟨ih.dir, ih.xattr⟩

theorem Numbered.created_lt (hB : L.Reliable) (h : Numbered L overflowChecks created s) :
    ∀ i ∈ created, i < s.store.maps.inodeMap.nextIno := by
  induction h with
  | start auto hst => simp
  | step _ _ _ hrun ih =>
      intro i hi
      rcases List.mem_append.mp hi with hi | hi
      · exact FsOp.created_lt L (Option.mem_toList.mp hi) hrun
      · exact UInt64.lt_of_lt_of_le (ih i hi) (FsOp.dirs_run L hrun).1
  | remount log auto _ hcommit hle hio hload ih =>
      obtain rfl := eq_loadedStore_of_commit L hB hcommit hle hio hload
      exact ih

/-- Every number that is handed out is new, and no map has anything under it or above. -/
theorem numbers_fresh (hB : B.NoIoErrors) (h : Numbered L overflowChecks created s)
    (hc : L.NoCollision s.store.io) {n : UInt64} (hn : op.created s = some n) :
    n ∉ created ∧ s.store.maps.Below n := by
  have hB := hB.reliable L
  obtain rfl := FsOp.created_eq L hn
  obtain ⟨f, hf⟩ := h.mounted.views hB hc
  have hdated := h.dated hB
  refine ⟨fun hmem => ?_, hf.core.below hdated.dir hdated.xattr⟩
  exact UInt64.lt_irrefl _ (h.created_lt hB _ hmem)

end

/-- The first file was created, closed and removed; its manifest is still in the map. -/
def madeAndClosedFs : Fs memoryBlockset :=
  ((FsOp.release 2 1 midnight).run fileFs).get (by decide +kernel)

def madeAndRemovedFs : Fs memoryBlockset :=
  ((FsOp.unlink 1 nameA).run madeAndClosedFs).get (by decide +kernel)

theorem numbered_madeAndRemoved : Numbered memoryLaws true [2] madeAndRemovedFs := by
  have hcreate : Numbered memoryLaws true
      (((FsOp.create 1 nameA 0o644 0 0 0).created freshFs).toList ++ []) fileFs :=
    .step (.start false (prepared_freshStore true true)) trivial
    (FsOp.knows_inos (by decide +kernel))
      (Option.some_get _).symm
  have hnumber : (FsOp.create 1 nameA 0o644 0 0 0).created freshFs = some 2 := by decide +kernel
  rw [hnumber] at hcreate
  have hvalid : (FsOp.release 2 1 midnight).Valid fileFs := by decide +kernel
  have hclose : Numbered memoryLaws true [2] madeAndClosedFs :=
    hcreate.step hvalid (FsOp.knows_inos (by decide +kernel)) (Option.some_get _).symm
  have hremove : (FsOp.unlink 1 nameA).Valid madeAndClosedFs := trivial
  exact hclose.step hremove (FsOp.knows_inos (by decide +kernel)) (Option.some_get _).symm

def removedRoot : Digest224 :=
  ((commit : StoreM memoryBlockset Digest224) madeAndRemovedFs.store).1.toOption.get
  (by decide +kernel)

def removedStore : Store memoryBlockset :=
  ((commit : StoreM memoryBlockset Digest224) madeAndRemovedFs.store).2

def reloadedStore : Store memoryBlockset :=
  (loadFromRoot memoryBlockset true removedRoot removedStore.io).1.toOption.get (by decide +kernel)

/-- What was committed is loaded and mounted again. -/
def remountedFs : Fs memoryBlockset := Fs.mount { reloadedStore with log := freshStore.log } false

theorem numbered_remountedFs : Numbered memoryLaws true [2] remountedFs := by
  have hcommit : (commit : StoreM memoryBlockset Digest224) madeAndRemovedFs.store =
      (.ok removedRoot, removedStore) :=
    Prog.eq_ok_of_isSome (by decide +kernel)
  have hload : loadFromRoot memoryBlockset true removedRoot removedStore.io =
      (.ok reloadedStore, _) :=
    Prog.eq_ok_of_isSome (by decide +kernel)
  exact .remount freshStore.log false numbered_madeAndRemoved hcommit (memoryLaws.le_refl _)
    (memoryLaws_noCollision (by decide +kernel)) hload

/-- The number of the removed file is not given again after a commit and a reload. -/
theorem numbers_fresh_remounted :
    (2 : UInt64) ∈ remountedFs.store.maps.manifestData ∧
    (2 : UInt64) ∉ remountedFs.store.maps.inodeData ∧
      (FsOp.create 1 nameA 0o644 0 0 0).created remountedFs = some 3 ∧
      (3 : UInt64) ∉ [(2 : UInt64)] ∧ remountedFs.store.maps.Below 3 := by
  have hn : (FsOp.create 1 nameA 0o644 0 0 0).created remountedFs = some 3 := by decide +kernel
  exact ⟨by decide +kernel, by decide +kernel, hn, numbers_fresh memoryBlockset_noIoErrors
    numbered_remountedFs (memoryLaws_noCollision (by decide +kernel)) hn⟩

end SliceFs
