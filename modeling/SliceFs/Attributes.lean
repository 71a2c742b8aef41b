import SliceFs.Rewrite

/-!
# Combined attribute changes

`test_setattr` takes any of mode, owner, times and size. It changes a copy of the inode
and then, for a size, truncates the file, which reads and writes the same inode, and
takes the record that the truncation left as the one to write back.
-/
namespace SliceFs
open TreeMaps ProgramLogic ByteFile

/-- The requested fields other than the size. -/
def InodeMeta.setFields (m : InodeMeta) (mode uid gid : Option UInt32)
    (mtime : Option (Int64 × UInt32)) : InodeMeta :=
  { m with
    mode := mode.elim m.mode fun x => (m.mode &&& S_IFMT) ||| (x &&& 0o7777)
    uid := uid.getD m.uid
    gid := gid.getD m.gid
    mtimeSec := mtime.elim m.mtimeSec Prod.fst
    mtimeNsec := mtime.elim m.mtimeNsec Prod.snd }

section
variable {B : Blockset}

/-- The inode that is written back: after a change of the size it is read anew. -/
def sizedInode (ino : UInt64) (fh : Option UInt64) (now : Now) (inode : InodeMeta) :
    Option UInt64 → FsM B InodeMeta
  | none => pure inode
  | some newSize => do
    testSetattrSize ino fh newSize now
    callStore metaErrorToErrno (getInode ino)

/-- The clock is read once for the truncation and once at the end. -/
def testSetattr (ino : UInt64) (mode uid gid : Option UInt32) (size fh : Option UInt64)
    (mtime : Option (Int64 × UInt32)) (sized now : Now) : FsM B InodeMeta := do
  let inode ← callStore metaErrorToErrno (getInode ino)
  let inode ← sizedInode ino fh sized (inode.setFields mode uid gid mtime) size
  callStore metaErrorToErrno (updateInode (inode.setCtime now))
  pure (inode.setCtime now)

end

/-- The inode after a combined change. -/
def InodeMeta.setattr (m : InodeMeta) (mode uid gid : Option UInt32) (size : Option UInt64)
    (mtime : Option (Int64 × UInt32)) (sized now : Now) : InodeMeta :=
  (size.elim (m.setFields mode uid gid mtime) fun n =>
    ({ m with size := n } : InodeMeta).setCtime sized).setCtime now

section
variable {B : Blockset} {L : B.Laws} {g : Growth (Store B)} {s : Fs B} {f : Files}

instance growing_sizedInode [InodeGrowth L g] (ino : UInt64) (fh : Option UInt64) (now : Now)
    (inode : InodeMeta) (size : Option UInt64) :
    Growing (g.comap Fs.store) (sizedInode ino fh now inode size : FsM B InodeMeta) := by
  unfold sizedInode
  split <;> infer_instance

instance growing_testSetattr [InodeGrowth L g] (ino : UInt64) (mode uid gid : Option UInt32)
    (size fh : Option UInt64) (mtime : Option (Int64 × UInt32)) (sized now : Now) :
    Growing (g.comap Fs.store)
      (testSetattr ino mode uid gid size fh mtime sized now : FsM B InodeMeta) := by
  unfold testSetattr
  infer_instance

/-- The inode after a change of the size, by way of any handle or none. -/
theorem wp_testSetattrSize_inode (hB : L.Reliable) (h : L.Views s f) {i : UInt64} {m : InodeMeta}
    (hm : f.core.inodes[i]? = some m) (fh : Option UInt64) {n : UInt64} (hn : n.toNat ≤ isizeMax)
    (now : Now) :
    wp L.growthFs (testSetattrSize i fh n now) (fun r s' => r = .ok () ∧ ∃ f', L.Views s' f' ∧
      f'.core.inodes[i]? = some (({ m with size := n } : InodeMeta).setCtime now)) s := by
  have hi := (h.core.inode i m hm).2.2
  cases hopen : fh.bind (fun j => f.handles[j]?) with
  | none =>
      refine (wp_testSetattrSize_closed hB h hopen hi hn now).mono ?_
      rintro r s' - ⟨rfl, h'⟩
      have hm' : (f.core.resizeContent L.digest i n).inodes[i]? = some m := by
        rw [← hm, Contents.resizeContent]
        split_ifs <;> rfl
      exact ⟨by rw [Files.commitResult, hm]; rfl, _, h', Contents.modifyInode_self hm' _⟩
  | some hd =>
      obtain ⟨j, rfl, hj⟩ := Option.bind_eq_some_iff.mp hopen
      obtain ⟨o, ho, hview⟩ := h.getFile_some hj
      unfold testSetattrSize
      refine wp_bind_of_eq (Prog.read_apply _ _) ?_
      simp only [Option.bind_some, ho, Option.map_some, Option.elim_some]
      refine wp_bind ((wp_truncateHandle hB h hj hview hn).mono ?_)
      rintro _ s₁ - ⟨rfl, h₁⟩
      refine (wp_recordTruncation hB h₁ i n now).mono ?_
      rintro r s₂ - ⟨rfl, h₂⟩
      have hm' : (if hd.Releases n then f.core.drop hd.last else f.core).inodes[i]? = some m := by
        rw [← hm]
        split_ifs <;> rfl
      exact ⟨by rw [Files.commitResult, hm']; rfl, _, h₂, Contents.modifyInode_self hm' _⟩

/-- A combined change of a live inode. -/
theorem wp_testSetattr (hB : L.Reliable) (h : L.Views s f) {i : UInt64} {m : InodeMeta}
    (hm : f.core.inodes[i]? = some m) (mode uid gid : Option UInt32) (size fh : Option UInt64)
    (mtime : Option (Int64 × UInt32)) (sized now : Now) (hn : ∀ n ∈ size, n.toNat ≤ isizeMax) :
    wp L.growthFs (testSetattr i mode uid gid size fh mtime sized now) (fun r s' =>
      r = .ok (m.setattr mode uid gid size mtime sized now) ∧ ∃ f', L.Views s' f' ∧
        f'.core.inodes[i]? = some (m.setattr mode uid gid size mtime sized now)) s := by
  obtain ⟨-, hino, -⟩ := h.core.inode i m hm
  -- the record that is written back replaces the one it was read from
  have hwrite : ∀ {s₁ : Fs B} {f₁ : Files} {m₁ n : InodeMeta}, L.Views s₁ f₁ →
      f₁.core.inodes[i]? = some m₁ → n.ino = i →
      wp L.growthFs (do
        callStore metaErrorToErrno (updateInode (n.setCtime now))
        pure (n.setCtime now)) (fun r s' => r = .ok (n.setCtime now) ∧ ∃ f', L.Views s' f' ∧
          f'.core.inodes[i]? = some (n.setCtime now)) s₁ := by
    intro s₁ f₁ m₁ n h₁ hm₁ hn
    obtain ⟨st, hupd, hcore⟩ := updateInode_eq hB h₁.core (m := n.setCtime now) (n := m₁)
      (by rw [← hm₁, ← hn]; rfl)
    refine wp_bind_of_eq (callStore_ok hupd) (wp_pure fun _ => ⟨rfl, _,
      h₁.store (le_of_run hupd) hcore (UInt64.le_refl _), ?_⟩)
    show (f₁.core.inodes.insert n.ino (n.setCtime now))[i]? = _
    rw [hn, getElem?_insert_ite, if_pos rfl]
  refine wp_of_good fun hc => ?_
  have hget := getInode_eq h.core hc i
  rw [Contents.getInode, hm] at hget
  unfold testSetattr
  refine wp_bind_of_eq (callStore_ok hget) ?_
  cases size with
  | none => exact wp_bind_of_eq rfl (hwrite h hm hino)
  | some n =>
      refine wp_bind (wp_bind ((wp_testSetattrSize_inode hB h hm fh (hn n rfl) sized).mono ?_))
      rintro _ s₁ - ⟨rfl, f₁, h₁, hm₁⟩
      refine wp_of_good fun hc₁ => ?_
      have hget₁ := getInode_eq h₁.core hc₁ i
      rw [Contents.getInode, hm₁] at hget₁
      exact wp_of_eq (callStore_ok hget₁) fun _ => hwrite h₁ hm₁ hino

/-- The request is applied: each field that was given has its value, the others are as
before. -/
def InodeMeta.Applied (m m' : InodeMeta) (mode uid gid : Option UInt32) (size : Option UInt64)
    (mtime : Option (Int64 × UInt32)) : Prop :=
  m'.mode = mode.elim m.mode (fun x => (m.mode &&& S_IFMT) ||| (x &&& 0o7777)) ∧
    m'.uid = uid.getD m.uid ∧ m'.gid = gid.getD m.gid ∧ m'.size = size.getD m.size ∧
    (m'.mtimeSec, m'.mtimeNsec) = mtime.getD (m.mtimeSec, m.mtimeNsec)

theorem InodeMeta.applied_setattr_iff (m : InodeMeta) (mode uid gid : Option UInt32)
    (size : Option UInt64) (mtime : Option (Int64 × UInt32)) (sized now : Now) :
    m.Applied (m.setattr mode uid gid size mtime sized now) mode uid gid size mtime ↔
      size = none ∨ m.setFields mode uid gid mtime = m := by
  cases size with
  | none =>
      refine ⟨fun _ => .inl rfl, fun _ => ⟨rfl, rfl, rfl, rfl, ?_⟩⟩
      cases mtime <;> rfl
  | some n =>
      constructor
      · rintro ⟨hmode, huid, hgid, -, hmtime⟩
        obtain ⟨hsec, hnsec⟩ : mtime.elim m.mtimeSec Prod.fst = m.mtimeSec ∧
            mtime.elim m.mtimeNsec Prod.snd = m.mtimeNsec := by
          cases mtime with
          | none => exact ⟨rfl, rfl⟩
          | some t => exact ⟨(congrArg Prod.fst hmtime).symm, (congrArg Prod.snd hmtime).symm⟩
        refine .inr ?_
        rw [InodeMeta.setFields, hsec, hnsec]
        exact congr (congr (congrArg
          (fun mode uid gid => { m with mode := mode, uid := uid, gid := gid })
          hmode.symm) huid.symm) hgid.symm
      · rintro (hnone | hsame)
        · cases hnone
        · have hmtime : mtime.getD (m.mtimeSec, m.mtimeNsec) = (m.mtimeSec, m.mtimeNsec) := by
            cases mtime with
            | none => rfl
            | some t =>
                exact Prod.ext (congrArg InodeMeta.mtimeSec hsame : t.1 = m.mtimeSec)
                  (congrArg InodeMeta.mtimeNsec hsame : t.2 = m.mtimeNsec)
          exact ⟨(congrArg InodeMeta.mode hsame).symm, (congrArg InodeMeta.uid hsame).symm,
            (congrArg InodeMeta.gid hsame).symm, rfl, hmtime.symm⟩

/-- No size beyond the largest file is set. -/
theorem wp_testSetattr_panic (hB : L.Reliable) (h : L.Views s f) {i n : UInt64} {m : InodeMeta}
    (hm : f.core.inodes[i]? = some m) (mode uid gid : Option UInt32) (fh : Option UInt64)
    (mtime : Option (Int64 × UInt32)) (sized now : Now) (hn : isizeMax < n.toNat) :
    wp L.growthFs (testSetattr i mode uid gid (some n) fh mtime sized now)
      (fun r _ => r = .error .panic) s := by
  refine wp_of_good fun hc => ?_
  have hget := getInode_eq h.core hc i
  rw [Contents.getInode, hm] at hget
  unfold testSetattr
  refine wp_bind_of_eq (callStore_ok hget) (wp_bind (wp_bind ?_))
  refine (wp_testSetattrSize_panic hB h i fh hn sized).mono ?_
  rintro _ _ - rfl
  rfl

/-- A combined change is applied exactly when it has no size, or asks for nothing else that
is not so already. -/
theorem setattr_applied_iff (hB : B.NoIoErrors) {overflowChecks : Bool}
    (hs : Mounted L overflowChecks s) {i : UInt64} {m r : InodeMeta} (hm : s.inode i = some m)
    {mode uid gid : Option UInt32} {size fh : Option UInt64} {mtime : Option (Int64 × UInt32)}
    {sized now : Now} {s' : Fs B}
    (hrun : testSetattr i mode uid gid size fh mtime sized now s = (.ok r, s'))
    (hc : L.NoCollision s'.store.io) :
    (∃ m', s'.inode i = some m' ∧ r = m' ∧ m.Applied m' mode uid gid size mtime) ↔
      size = none ∨ m.setFields mode uid gid mtime = m := by
  have hB := hB.reliable L
  have hle := (growing_testSetattr (g := L.growthQuiet) i mode uid gid size fh mtime sized
    now).le_run s
  rw [hrun] at hle
  have hc₀ := hc.of_le hle.1
  obtain ⟨f, hv⟩ := hs.views hB hc₀
  rw [hv.inode hc₀] at hm
  have hn : ∀ n ∈ size, n.toNat ≤ isizeMax := by
    rintro n rfl
    by_contra hn
    have hpanic := wp_testSetattr_panic hB hv hm mode uid gid fh mtime sized now (not_le.mp hn)
    unfold wp at hpanic
    rw [hrun] at hpanic
    cases hpanic hc
  have hwp := wp_testSetattr hB hv hm mode uid gid size fh mtime sized now hn
  unfold wp at hwp
  rw [hrun] at hwp
  obtain ⟨hr, f', hv', hm'⟩ := hwp hc
  obtain rfl := Except.ok.inj hr
  rw [hv'.inode hc, hm', ← m.applied_setattr_iff mode uid gid size mtime sized now]
  simp

end

/-- The file with other permissions and another owner. -/
def chmodFs : Fs memoryBlockset :=
  (testSetattr 2 (some 0o600) (some 7) none none none none midnight midnight savedFs).2

theorem setattr_applied_iff_saved : ∃ m m', savedFs.inode 2 = some m ∧ chmodFs.inode 2 = some m' ∧
    m.Applied m' (some 0o600) (some 7) none none none := by
  have hrun : testSetattr 2 (some 0o600) (some 7) none none none none midnight midnight savedFs =
      (.ok _, chmodFs) :=
    Prog.eq_ok_of_isSome (by decide +kernel)
  have hm : savedFs.inode 2 = some _ := (Option.some_get (by decide +kernel)).symm
  obtain ⟨m', hm', -, happlied⟩ := (setattr_applied_iff memoryBlockset_noIoErrors
    (mounted_savedFs true) hm hrun (memoryLaws_noCollision (by decide +kernel))).mpr (.inl rfl)
  exact ⟨_, m', hm, hm', happlied⟩

/-- The file with other permissions and a smaller size. -/
def chmodSizedFs : Fs memoryBlockset :=
  (testSetattr 2 (some 0o600) none none (some 2) none none midnight midnight savedFs).2

theorem setattr_size_drops_mode :
    Mounted memoryLaws true savedFs ∧
    (savedFs.inode 2).map InodeMeta.mode = some (S_IFREG ||| 0o644) ∧
    (testSetattr 2 (some 0o600) none none (some 2) none none midnight midnight
      savedFs).1.toOption.isSome = true ∧
    memoryLaws.NoCollision chmodSizedFs.store.io ∧
    (chmodSizedFs.inode 2).map InodeMeta.size = some 2 ∧
    (chmodSizedFs.inode 2).map InodeMeta.mode = some (S_IFREG ||| 0o644) :=
  ⟨mounted_savedFs true, by decide +kernel, by decide +kernel,
    memoryLaws_noCollision (by decide +kernel), by decide +kernel, by decide +kernel⟩

end SliceFs
