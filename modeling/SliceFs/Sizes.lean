import SliceFs.HandleFrame
import SliceFs.Truncation

/-!
# Sizes and contents

The size of a file is recorded at once when it is truncated, its manifest only when a
handle is committed. Between the two an open handle stands for the difference: it has
bytes that are not committed, or it has none and the size is zero.
-/
namespace SliceFs
open TreeMaps ProgramLogic ByteFile

def InodeMeta.isReg (m : InodeMeta) : Prop := m.mode &&& S_IFMT = S_IFREG

instance (m : InodeMeta) : Decidable m.isReg := inferInstanceAs (Decidable (_ = _))

/-- What an open handle still has to record about the size `n` of its inode. -/
def Handle.Owes (h : Handle) (n : UInt64) : Prop :=
  if h.content = [] then n = 0 else h.committed = false

/-- The size of an inode is the length of its content, or an open handle owes the rest. -/
def Files.SizedAt (f : Files) (i : UInt64) (m : InodeMeta) : Prop :=
  m.size.toNat = ((f.core.content i).getD []).length ∨
    ∃ (fh : UInt64) (h : Handle), f.handles[fh]? = some h ∧ h.ino = i ∧ h.Owes m.size

def Files.Sized (f : Files) : Prop :=
  ∀ (i : UInt64) (m : InodeMeta), f.core.inodes[i]? = some m → m.isReg → f.SizedAt i m

section
variable {digest : Bytes → Digest224} {f f' : Files} {i fh : UInt64} {h : Handle} {m : InodeMeta}

theorem Files.SizedAt.congr (hs : f.SizedAt i m) {m' : InodeMeta} (hsize : m'.size = m.size)
    (hcontent : f'.core.content i = f.core.content i)
    (hhandles : ∀ (k : UInt64) (hd : Handle), f.handles[k]? = some hd → hd.ino = i →
      f'.handles[k]? = some hd) :
    f'.SizedAt i m' := by
  unfold Files.SizedAt
  rw [hsize, hcontent]
  refine hs.imp_right ?_
  rintro ⟨k, hd, hk, hi, howes⟩
  exact ⟨k, hd, hhandles k hd hk hi, hi, howes⟩

/-- A change at one inode need only be looked at there. -/
theorem Files.Sized.of_sameOff (hs : f.Sized) (hsame : f.SameOff i f')
    (hi : ∀ m, f'.core.inodes[i]? = some m → m.isReg → f'.SizedAt i m) : f'.Sized := by
  intro j m hm hreg
  by_cases hj : j = i
  · subst hj
    exact hi m hm hreg
  · rw [hsame.inodes j hj] at hm
    refine (hs j m hm hreg).congr rfl ?_ fun k hd hk hkj => ?_
    · rw [Contents.content, Contents.content, hsame.manifests j hj]
    · exact (hsame.handles k hd (by rw [hkj]; exact hj)).mpr hk

/-- Attributes other than type and size, and new empty inodes, change nothing. -/
theorem Files.Sized.tweak (hs : f.Sized) {c c' : Contents} (htweak : c.Tweak c')
    (hsub : ∀ (j : UInt64) (n : InodeMeta), c.inodes[j]? = some n → n.isReg →
      f.core.inodes[j]? = some n ∧ c.content j = f.core.content j)
    (hfresh : ∀ j, c.nextIno ≤ j → c.content j = none) : ({ f with core := c' } : Files).Sized := by
  intro j m hm hreg
  have hcontent := htweak.content j
  rcases htweak.inode hm with ⟨n, hn, hsize, hmode⟩ | ⟨hle, hz⟩
  · obtain ⟨hn', hb⟩ := hsub j n hn (hmode.symm.trans hreg)
    exact (hs j n hn' (hmode.symm.trans hreg)).congr hsize (hcontent.trans hb) fun _ _ hk _ => hk
  · refine .inl ?_
    show _ = ((c'.content j).getD []).length
    rw [hcontent, hfresh j hle, hz]
    rfl

theorem Files.Sized.edit (hs : f.Sized) {removed : Option UInt64} {c : Contents}
    (hw : f.Wf) (h : f.core.Edit digest removed c) : ({ f with core := c } : Files).Sized := by
  cases h with
  | tweak h => exact hs.tweak h (fun j n hn _ => ⟨hn, rfl⟩) hw.content_fresh
  | delete _ _ h =>
      refine hs.tweak h (fun j n hn _ => ⟨?_, rfl⟩) hw.content_fresh
      rw [Contents.deleteFile, Contents.removeInode, getElem?_erase_ite] at hn
      split_ifs at hn
      exact hn

/-- A new handle changes nothing. -/
theorem Files.Sized.insertHandle (hs : f.Sized) (hnew : f.handles[f.nextFh + 1]? = none)
    (i : UInt64) : (f.insertHandle i).Sized := by
  intro j m hm hreg
  refine (hs j m hm hreg).congr rfl rfl fun k hd hk _ => ?_
  rw [Files.insertHandle, getElem?_insert_ite, if_neg]
  · exact hk
  · rintro rfl
    rw [hnew] at hk
    cases hk

theorem Files.Sized.addInode (hs : f.Sized) (hw : f.Wf) {n : InodeMeta} (hn : n.size = 0) :
    ({ f with core := f.core.addInode n } : Files).Sized := by
  intro j m hm hreg
  rw [Contents.addInode, getElem?_insert_ite] at hm
  split_ifs at hm with hj
  · obtain rfl := Option.some.inj hm
    refine .inl ?_
    show n.size.toNat = ((f.core.content j).getD []).length
    rw [hw.content_fresh j (UInt64.le_of_eq hj.symm), hn]
    rfl
  · exact (hs j m hm hreg).congr rfl rfl fun _ _ hk _ => hk

/-- The inode of a handle after its content was recorded. -/
theorem Files.sizedAt_record (c : Contents) (old : Option Digest224) {b : Bytes}
    (hlen : b.length ≤ isizeMax) (now : Now) (handles : Map UInt64 Handle) (nextFh : UInt64)
    (hm : ((c.record digest i old b).modifyInode i fun m =>
      m.setWritten (UInt64.ofNat b.length) now).inodes[i]? = some m) :
    Files.SizedAt ⟨(c.record digest i old b).modifyInode i fun m =>
      m.setWritten (UInt64.ofNat b.length) now, handles, nextFh⟩ i m := by
  refine .inl ?_
  rw [Contents.content_modifyInode, Contents.content, Contents.record, getElem?_insert_ite,
    if_pos rfl]
  cases hn : c.inodes[i]? with
  | none =>
      have hn' : (c.record digest i old b).inodes[i]? = none := hn
      rw [Contents.modifyInode, hn', hn'] at hm
      cases hm
  | some n =>
      have hn' : (c.record digest i old b).inodes[i]? = some n := hn
      rw [Contents.modifyInode_self hn'] at hm
      obtain rfl := Option.some.inj hm
      exact toNat_ofNat_length hlen

theorem Files.Sized.write (hs : f.Sized) (hfh : f.handles[fh]? = some h) (offset : ℕ)
    (data : Bytes) : (f.write fh h offset data).Sized := by
  refine hs.of_sameOff (sameOff_write hfh offset data) fun m hm hreg => ?_
  have hinodes : (f.write fh h offset data).core.inodes = f.core.inodes := by
    unfold Files.write
    split_ifs <;> rfl
  have hcontent : (f.write fh h offset data).core.content h.ino = f.core.content h.ino := by
    unfold Files.write
    split_ifs <;> rfl
  rw [hinodes] at hm
  rcases hs _ m hm hreg with heq | ⟨k, hd, hk, hki, howes⟩
  · exact .inl (by rw [hcontent]; exact heq)
  · refine .inr ?_
    by_cases hkf : k = fh
    · -- the handle itself has bytes now, or still none
      rw [hkf, hfh] at hk
      obtain rfl := Option.some.inj hk
      refine ⟨fh, h.write (f.core.content h.ino) offset data, ?_, h.ino_write _ _ _, ?_⟩
      · rw [Files.write, getElem?_insert_ite, if_pos rfl]
      · unfold Handle.Owes at howes ⊢
        split_ifs with hnil
        · by_cases hold : h.content = []
          · rwa [if_pos hold] at howes
          · have hne : pwrite 0 h.content offset data ≠ [] := by
              intro hnil
              have hlen := congrArg List.length hnil
              rw [length_pwrite, List.length_nil] at hlen
              exact hold (List.eq_nil_of_length_eq_zero (by omega))
            rw [h.content_write_of_ne _ _ _ hold] at hnil
            exact absurd hnil hne
        · unfold Handle.write
          split_ifs <;> rfl
    · refine ⟨k, hd, ?_, hki, howes⟩
      rw [Files.write, getElem?_insert_ite, if_neg hkf]
      exact hk

theorem Contents.size_of_setSize {c : Contents} {n : UInt64} {now : Now}
    (hm : (c.setSize i n now).inodes[i]? = some m) : m.size = n := by
  cases hold : c.inodes[i]? with
  | none =>
      rw [Contents.setSize, Contents.modifyInode, hold, hold] at hm
      cases hm
  | some k =>
      rw [Contents.setSize, Contents.modifyInode_self hold] at hm
      obtain rfl := Option.some.inj hm
      rfl

theorem Files.Sized.truncate (hs : f.Sized) (hfh : f.handles[fh]? = some h) (n : UInt64)
    (now : Now) : (f.truncate fh h n now).Sized := by
  refine hs.of_sameOff (sameOff_truncate hfh n now) fun m hm _ => ?_
  have hsize := Contents.size_of_setSize hm
  refine .inr ⟨fh, h.truncate n, ?_, rfl, ?_⟩
  · rw [Files.truncate, getElem?_insert_ite, if_pos rfl]
  · unfold Handle.Owes
    split_ifs with hnil
    · rw [hsize]
      by_contra hne
      exact resize_ne_nil hne hnil
    · rfl

theorem Files.sameOff_truncateCommitted (digest : Bytes → Digest224) (f : Files) (i n : UInt64)
    (now : Now) :
    f.SameOff i (f.truncateCommitted digest i n now) := by
  refine ⟨fun j hj => ?_, fun j hj => ?_, fun _ _ _ => .rfl⟩
  · rw [Files.truncateCommitted, Contents.setSize, Contents.inodes_modifyInode_of_ne _ hj,
      Contents.resizeContent]
    split_ifs <;> rfl
  · rw [Files.truncateCommitted, Contents.setSize, Contents.manifests_modifyInode,
      Contents.resizeContent]
    split_ifs
    · rw [Contents.setContent, getElem?_insert_ite, if_neg hj]
      rfl
    · rw [Contents.increment, Contents.setContent, getElem?_insert_ite, if_neg hj]
      rfl

theorem Contents.content_resizeContent (digest : Bytes → Digest224) (c : Contents) (i n : UInt64) :
    ((c.resizeContent digest i n).content i).getD [] =
      resize 0 n.toNat ((c.content i).getD []) := by
  rw [Contents.resizeContent]
  split_ifs with hnil
  · rw [Contents.content, Contents.setContent, getElem?_insert_ite, if_pos rfl, hnil]
    rfl
  · rw [Contents.content, Contents.increment, Contents.setContent, getElem?_insert_ite, if_pos rfl]
    rfl

theorem Contents.inodes_resizeContent (digest : Bytes → Digest224) (c : Contents) (i n : UInt64) :
    (c.resizeContent digest i n).inodes = c.inodes := by
  rw [Contents.resizeContent]
  split_ifs <;> rfl

theorem Files.Sized.truncateCommitted (hs : f.Sized) (i n : UInt64) (now : Now) :
    (f.truncateCommitted digest i n now).Sized := by
  refine hs.of_sameOff (f.sameOff_truncateCommitted digest i n now) fun m hm _ => .inl ?_
  rw [Contents.size_of_setSize hm, Files.truncateCommitted, Contents.setSize,
    Contents.content_modifyInode, Contents.content_resizeContent, length_resize]

theorem Files.Sized.flush (hs : f.Sized) (hfh : f.handles[fh]? = some h)
    (hlen : h.content.length ≤ isizeMax) (now : Now) : (f.flush digest fh h now).Sized := by
  refine hs.of_sameOff (sameOff_flush hfh now) fun m hm hreg => ?_
  unfold Files.flush at hm ⊢
  split_ifs at hm ⊢ with hnil
  · exact hs _ m hm hreg
  · exact sizedAt_record f.core h.last hlen now _ _ hm

theorem Files.inodes_release_of_nil (hnil : h.content = []) (now : Now) :
    (f.release digest fh h now).core.inodes = f.core.inodes := by
  rw [Files.release, Files.releasedCore, if_pos hnil]
  split_ifs <;> rfl

theorem Files.content_release_of_nil (hnil : h.content = []) (now : Now) :
    ((f.release digest fh h now).core.content h.ino).getD [] =
      (f.core.content h.ino).getD [] := by
  rw [Files.release, Files.releasedCore, if_pos hnil]
  split_ifs with hkeep
  · rfl
  · rw [not_or, not_not] at hkeep
    rw [hkeep.2, Contents.content, Contents.setContent, getElem?_insert_ite, if_pos rfl]
    rfl

/-- A handle that owes the size of an inode with content may not be released without
bytes. -/
theorem Files.Sized.release (hs : f.Sized) (hfh : f.handles[fh]? = some h)
    (hlen : h.content.length ≤ isizeMax)
    (hempty : h.content = [] → ∀ m, f.core.inodes[h.ino]? = some m → m.size = 0 →
      f.core.content h.ino = none) (now : Now) : (f.release digest fh h now).Sized := by
  refine hs.of_sameOff (sameOff_release hfh now) fun m hm hreg => ?_
  have hothers : ∀ k (hd : Handle), f.handles[k]? = some hd → k ≠ fh →
      (f.release digest fh h now).handles[k]? = some hd := by
    intro k hd hk hne
    rw [Files.release, getElem?_erase_ite, if_neg hne]
    exact hk
  by_cases hnil : h.content = []
  · have hcontent : ((f.release digest fh h now).core.content h.ino).getD [] = _ :=
      Files.content_release_of_nil hnil now
    rw [Files.inodes_release_of_nil hnil] at hm
    rcases hs _ m hm hreg with heq | ⟨k, hd, hk, hki, howes⟩
    · exact .inl (by rw [hcontent]; exact heq)
    · by_cases hkf : k = fh
      · rw [hkf, hfh] at hk
        obtain rfl := Option.some.inj hk
        rw [Handle.Owes, if_pos hnil] at howes
        refine .inl ?_
        rw [hcontent, hempty hnil m hm howes, howes]
        rfl
      · exact .inr ⟨k, hd, hothers k hd hk hkf, hki, howes⟩
  · by_cases hsame : h.last = some (digest h.content) ∧ h.committed = true
    · have hcore : (f.release digest fh h now).core = f.core := by
        rw [Files.release, Files.releasedCore, if_neg hnil, if_pos hsame]
      rw [hcore] at hm
      rcases hs _ m hm hreg with heq | ⟨k, hd, hk, hki, howes⟩
      · exact .inl (by rw [hcore]; exact heq)
      · refine .inr ⟨k, hd, hothers k hd hk ?_, hki, howes⟩
        rintro rfl
        rw [hfh] at hk
        obtain rfl := Option.some.inj hk
        rw [Handle.Owes, if_neg hnil, hsame.2] at howes
        cases howes
    · rw [Files.release, Files.releasedCore, if_neg hnil, if_neg hsame] at hm ⊢
      exact sizedAt_record f.core h.last hlen now _ _ hm

theorem Files.Sized.opened (hs : f.Sized) (hnew : f.handles[f.nextFh + 1]? = none) (i : UInt64)
    (flags : UInt32) (now : Now) : (f.opened i flags now).Sized := by
  have hinserted := hs.insertHandle hnew i
  unfold Files.opened
  split_ifs
  · exact hinserted
  · exact hs
  · refine hinserted.truncate ?_ 0 now
    rw [Files.insertHandle, getElem?_insert_ite, if_pos rfl]
  · exact hs

/-- Every request keeps the sizes, unless it releases a handle that owes one. -/
theorem FsOp.Effect.sized {removed : Option UInt64} {op : FsOp}
    (he : FsOp.Effect digest removed op f f') (hs : f.Sized)
    (hw : f.Wf)
    (hempty : ∀ (i k : UInt64) (now : Now) (hd : Handle), op = .release i k now →
      f.handles[k]? = some hd → hd.content = [] →
      ∀ m, f.core.inodes[hd.ino]? = some m → m.size = 0 → f.core.content hd.ino = none) :
    f'.Sized := by
  cases he with
  | edit _ h => exact hs.edit hw h
  | closed => exact hs
  | create _ hfh hsize => exact (hs.addInode hw hsize).insertHandle (hw.nextFh_closed hfh) _
  | symlink hmax hmode h =>
      have hlt := lt_add_one_of_ne_u64Max hmax
      refine hs.tweak h (fun j n hn hreg => ?_) fun j hj => ?_
      · rw [Contents.addSymlink, Contents.increment, Contents.setContent, Contents.addInode,
          getElem?_insert_ite] at hn
        split_ifs at hn with hj
        · obtain rfl := Option.some.inj hn
          have hlink : S_IFLNK = S_IFREG := hmode.symm.trans hreg
          exact absurd hlink (by decide)
        · refine ⟨hn, ?_⟩
          rw [Contents.content, Contents.addSymlink, Contents.increment, Contents.setContent,
            getElem?_insert_ite, if_neg hj]
          rfl
      · have hj' : f.core.nextIno < j := UInt64.lt_of_lt_of_le hlt hj
        rw [Contents.content, Contents.addSymlink, Contents.increment, Contents.setContent,
          getElem?_insert_ite, if_neg (UInt64.ne_of_lt hj').symm]
        exact hw.content_fresh j (UInt64.le_of_lt hj')
  | rmdir _ _ h =>
      refine hs.tweak h (fun j n hn _ => ⟨?_, rfl⟩) hw.content_fresh
      rw [Contents.removeInode, getElem?_erase_ite] at hn
      split_ifs at hn
      exact hn
  | openFile hfh _ => exact hs.opened (hw.nextFh_closed hfh) _ _ _
  | write hfh => exact hs.write hfh _ _
  | truncate hfh => exact hs.truncate hfh _ _
  | truncateCommitted => exact hs.truncateCommitted _ _ _
  | flush hfh => exact hs.flush hfh (hw.length_le _ _ hfh) _
  | fsync hfh => exact hs.flush hfh (hw.length_le _ _ hfh) _
  | release hfh => exact hs.release hfh (hw.length_le _ _ hfh) (hempty _ _ _ _ rfl hfh) _

end

section
variable {B : Blockset} {L : B.Laws} {s : Fs B}

/-- No handle without bytes is released while its file has the size zero and a manifest
that is not empty. -/
def FsOp.KeepsSize (s : Fs B) : FsOp → Prop
  | release ino fh _ => ∀ o ∈ s.openFiles[fh]?, o.byteCount = 0 →
      ∀ m ∈ s.inode ino, m.size = 0 → s.block ino = none
  | _ => True

instance (s : Fs B) (op : FsOp) : Decidable (op.KeepsSize s) := by
  -- over the handle and the inode, not over all of them
  have hinode : ∀ ino : UInt64, Decidable (∀ m ∈ s.inode ino, m.size = 0 → s.block ino = none) :=
    fun _ => Option.decidableForallMem _
  have hrelease : ∀ ino fh : UInt64, Decidable (∀ o ∈ s.openFiles[fh]?, o.byteCount = 0 →
      ∀ m ∈ s.inode ino, m.size = 0 → s.block ino = none) :=
    fun _ _ => Option.decidableForallMem _
  apply FsOp.casesOn (motive := fun op => Decidable (op.KeepsSize s)) op <;> intros <;>
    unfold FsOp.KeepsSize <;> infer_instance

theorem Files.sized_initial (uid gid : UInt32) :
    Files.Sized ⟨.initial (rootInode uid gid), ∅, 0⟩ := by
  intro i m hm hreg
  have hm' : ((∅ : Map UInt64 InodeMeta).insert 1 (rootInode uid gid))[i]? = some m := hm
  rw [getElem?_insert_ite] at hm'
  split_ifs at hm'
  · obtain rfl := Option.some.inj hm'
    have hdir : (S_IFDIR ||| 0o755) &&& S_IFMT = S_IFREG := hreg
    exact absurd hdir (by decide)
  · simp at hm'

theorem Blockset.Laws.Views.sized {f f' : Files} (hv : L.Views s f) (hc : L.NoCollision s.store.io)
    {op : FsOp} (hvalid : op.Valid s) (hkeeps : op.KeepsSize s) {removed : Option UInt64}
    (hs : f.Sized) (he : FsOp.Effect L.digest removed op f f') : f'.Sized := by
  refine he.sized hs hv.wf fun i k now hd hrelease hk hnil m hm hz => ?_
  subst hrelease
  obtain ⟨o, ho, hview⟩ := hv.getFile_some hk
  obtain rfl := hv.handleOf hvalid hk
  have hzero : o.byteCount = 0 := by rw [hview.byteCount, hnil]; rfl
  have hblock := hkeeps o ho hzero m (by rw [hv.inode hc]; exact hm) hz
  rw [hv.block hc] at hblock
  exact Option.map_eq_none_iff.mp hblock

/-- After every run of requests in which no handle without bytes is released over a file of
size zero with content, and when all write handles are closed, the size of a regular file
is the length of its content. -/
theorem sizes_agree (hB : B.NoIoErrors) {uid gid : UInt32} {io io' : B.Io} {st : Store B}
    (hnew : Store.new B uid gid io = (.ok st, io')) {auto : Bool}
    (hrun : Runs (fun s op => op.Valid s ∧ op.KeepsSize s) (Fs.mount st auto) s)
    (hc : L.NoCollision s.store.io) (hclosed : s.openFiles = ∅) {i : UInt64} {m : InodeMeta}
    (hm : s.inode i = some m) (hreg : m.isReg) :
    m.size.toNat = ((s.committed i).getD []).length := by
  have hB := hB.reliable L
  have hstart := views_mount (holds_new (L := L) hB hnew).1 auto
  obtain ⟨f, hv, hs⟩ := Runs.files hB (fun _ _ h => h.1) hstart (Files.sized_initial uid gid)
    (fun _ _ _ _ hop hc hv hs he => hv.sized hc hop.1 hop.2 hs he) hrun hc
  rw [hv.inode hc] at hm
  rw [hv.committed_getD hc]
  rcases hs i m hm hreg with heq | ⟨k, hd, hk, -, -⟩
  · exact heq
  · obtain ⟨o, ho, -⟩ := hv.getFile_some hk
    rw [hclosed] at ho
    simp at ho

end

/-- A saved file is opened with truncation, written and closed. -/
def retakenOps : List FsOp :=
  savedOps ++ [.openFile 2 (O_WRONLY ||| O_TRUNC) midnight, .write 2 0 [9],
    .release 2 2 midnight]

def retakenFs : Fs memoryBlockset :=
  (runMeeting (fun s op => op.Valid s ∧ op.KeepsSize s) retakenOps freshFs).get (by decide +kernel)

theorem sizes_agree_retaken :
    ∃ m, retakenFs.inode 2 = some m ∧ m.size.toNat = ((retakenFs.committed 2).getD []).length := by
  have hnew : Store.new memoryBlockset 0 0 MemoryIo.empty = (.ok freshStore, _) :=
    Prog.eq_ok_of_isSome (by decide +kernel)
  have hrun : Runs (fun s op => op.Valid s ∧ op.KeepsSize s)
      (Fs.mount freshStore false) retakenFs :=
    (Runs.refl _).runMeeting (Option.some_get _).symm
  have hm : retakenFs.inode 2 = some ((retakenFs.inode 2).get (by decide +kernel)) :=
    (Option.some_get _).symm
  exact ⟨_, hm, sizes_agree memoryBlockset_noIoErrors hnew hrun
    (memoryLaws_noCollision (by decide +kernel))
    (Std.ExtTreeMap.isEmpty_iff.mp (by decide +kernel)) hm (by decide +kernel)⟩

/-- A saved file opened with truncation and closed again. -/
def emptiedFs : Fs memoryBlockset :=
  (runFsOps [.openFile 2 (O_WRONLY ||| O_TRUNC) midnight, .release 2 2 midnight] savedFs).get
    (by decide +kernel)

theorem size_without_content :
    Mounted memoryLaws true emptiedFs ∧ emptiedFs.openFiles.isEmpty = true ∧
    (emptiedFs.inode 2).map InodeMeta.size = some 0 ∧
    (emptiedFs.inode 2).map (fun m => decide m.isReg) = some true ∧
    emptiedFs.committed 2 = some [1, 2, 3] :=
  ⟨(mounted_savedFs true).runFsOps (Option.some_get _).symm, by decide +kernel, by decide +kernel,
    by decide +kernel, by decide +kernel⟩

end SliceFs
