import SliceFs.NameRuns
import SliceFs.SeededStore
import SliceFs.Sessions

/-!
# The root directory over sessions

No name but `.` and `..` leads to inode 1, and the requests that remove an inode look it up
by a name. So inode 1 stays, from the seeding on and over all sessions, and every state that
an unmount commits has the root directory that the next session looks for.
-/
namespace SliceFs
open TreeMaps ProgramLogic

namespace Tree
variable {t t' : Tree} {key : Str → Digest224} {p i : UInt64} {k : Digest224} {name : Str}
  {m : InodeMeta}

/-- The root directory is there, and no name leads to it. -/
structure HasRoot (t : Tree) : Prop where
  dir : ∃ m, t.inodes[(1 : UInt64)]? = some m ∧ m.isDir
  unnamed : Unnamed t.dirs 1

theorem HasRoot.ne_of_names (h : t.HasRoot) (hdots : ¬ name.IsDots) (hname : t.Names key p name i) :
    i ≠ 1 := by
  obtain ⟨e, he, rfl, rfl⟩ := hname
  obtain ⟨es, hes, hk⟩ := Option.bind_eq_some_iff.mp he
  exact h.unnamed p es hes _ e hk hdots

theorem HasRoot.ne_of_file (h : t.HasRoot) (hm : t.inodes[i]? = some m) (hfile : ¬ m.isDir) :
    i ≠ 1 := by
  rintro rfl
  obtain ⟨m', hm', hdir⟩ := h.dir
  rw [hm'] at hm
  exact hfile (Option.some.inj hm ▸ hdir)

theorem HasRoot.link (h : t.HasRoot) (hi : i ≠ 1) : (t.link k p name i).HasRoot :=
  ⟨h.dir, h.unnamed.insert ((h.unnamed.entries p).insert hi)⟩

theorem HasRoot.unlink (h : t.HasRoot) : (t.unlink k p).HasRoot := by
  refine ⟨h.dir, h.unnamed.insert fun j e he => ?_⟩
  rw [getElem?_erase_ite] at he
  split_ifs at he
  exact h.unnamed.entries p j e he

/-- Another inode than that of the root is set. -/
theorem HasRoot.insertInode (h : t.HasRoot) (hi : i ≠ 1) (m : InodeMeta) (next : UInt64) :
    HasRoot ⟨t.inodes.insert i m, t.dirs, next⟩ := by
  refine ⟨?_, h.unnamed⟩
  rw [getElem?_insert_ite, if_neg hi.symm]
  exact h.dir

theorem HasRoot.removeInode (h : t.HasRoot) (hi : i ≠ 1) : (t.removeInode i).HasRoot := by
  refine ⟨?_, h.unnamed⟩
  rw [Tree.removeInode, getElem?_erase_ite, if_neg hi.symm]
  exact h.dir

theorem HasRoot.modifyInode (h : t.HasRoot) {change : InodeMeta → InodeMeta}
    (hchange : ∀ m : InodeMeta, m.isDir → (change m).isDir) :
    (t.modifyInode i change).HasRoot := by
  unfold Tree.modifyInode
  split
  case h_1 => exact h
  case h_2 m hm =>
    refine ⟨?_, h.unnamed⟩
    obtain ⟨m', hm', hdir⟩ := h.dir
    rw [getElem?_insert_ite]
    split_ifs with hi
    · subst hi
      rw [hm'] at hm
      exact ⟨_, rfl, hchange _ (Option.some.inj hm ▸ hdir)⟩
    · exact ⟨m', hm', hdir⟩

theorem HasRoot.displace (h : t.HasRoot) (hi : i ≠ 1) (hino : m.ino = i) :
    (t.displace i m).HasRoot := by
  unfold Tree.displace
  split_ifs
  · exact h
  · exact h.removeInode hi
  · exact h.insertInode (hino ▸ hi) _ _

theorem HasRoot.insertDir (h : t.HasRoot) (hnext : t.nextIno ≠ 1) :
    (t.insertDir (newDir key t.nextIno p) m).HasRoot :=
  ⟨(h.insertInode hnext _ (t.nextIno + 1)).dir,
    h.unnamed.insert fun _ _ he hdots => absurd (getElem?_newDir he).1 hdots⟩

/-- No request on names removes the root or gives it a name. -/
theorem Step.hasRoot {op : FsOp}
    (hino : ∀ (i : UInt64) (m : InodeMeta), t.inodes[i]? = some m → m.ino = i ∧ i < t.nextIno)
    (hstep : t.Step key op t') (h : t.HasRoot) : t'.HasRoot := by
  have hnext : t.nextIno ≠ 1 := by
    obtain ⟨m, hm, -⟩ := h.dir
    exact fun heq => UInt64.lt_irrefl _ (heq ▸ (hino 1 m hm).2)
  cases hstep with
  | skip => exact h
  | burn => exact ⟨h.dir, h.unnamed⟩
  | create => exact (h.insertInode hnext _ _).link hnext
  | mkdir => exact ((h.insertDir hnext).link hnext).modifyInode fun _ hdir => hdir
  | link hm hfile =>
      have hi := h.ne_of_file hm hfile
      exact (h.link hi).insertInode ((hino _ _ hm).1 ▸ hi) _ _
  | unlink hdots hname hm => exact h.unlink.displace (h.ne_of_names hdots hname) (hino _ _ hm).1
  | rmdir hdots hname =>
      refine (h.unlink.removeInode (h.ne_of_names hdots hname)).modifyInode fun m hdir => ?_
      unfold InodeMeta.dropLink
      split_ifs <;> exact hdir
  | @rename _ cleared _ _ _ _ _ _ _ _ _ hdots hname hcleared hfree =>
      have hroot : cleared.HasRoot := by
        cases hcleared with
        | none => exact h
        | some hj hm => exact h.unlink.displace (h.ne_of_names hfree.proper hj) (hino _ _ hm).1
      exact ((hroot.link (h.ne_of_names hdots hname)).unlink).modifyInode fun _ hdir => hdir

theorem SameNames.hasRoot (hsame : t.SameNames t') (h : t.HasRoot) : t'.HasRoot := by
  obtain ⟨m, hm, hdir⟩ := h.dir
  obtain ⟨m', hm', hkind⟩ := hsame.exists_inode hm
  refine ⟨⟨m', hm', ?_⟩, hsame.dirs ▸ h.unnamed⟩
  rwa [InodeMeta.isDir_iff_kind, hkind, ← InodeMeta.isDir_iff_kind]

end Tree

/-- Seeding gives the root no name. -/
theorem Image.Grown.hasRoot {key : Str → Digest224} {source : SourceMeta} {tree : SeedTree}
    {v : Image} (h : Image.Grown key tree 1 (.bare key source) v) (hs : tree.Seedable) :
    v.tree.HasRoot where
  dir := ⟨_, h.parent _ (hs.ready key source).inode, isDir_dirInodeMeta source⟩
  unnamed := by
    refine h.unnamed 1 (by decide : (1 : UInt64) < 2) fun p es hes => ?_
    rw [Image.bare, getElem?_insert_ite] at hes
    split_ifs at hes
    · obtain rfl := Option.some.inj hes
      exact fun _ _ he hdots => absurd (Tree.getElem?_newDir he).1 hdots
    · simp at hes

section
variable {B : Blockset} {L : B.Laws} {s : Fs B} {st : Store B} {t : Tree} {overflowChecks : Bool}
  {d d' d₁ : Disk B} {m m' : StoreMaps}

/-- A file system on a store with the same maps shows the same tree. -/
theorem Blockset.Laws.Shows.carried (h : L.Shows s t) (hle : L.le s.store.io st.io)
    (hm : st.maps.persistent = s.store.maps.persistent) (auto : Bool) :
    L.Shows (Fs.mount st auto) t := by
  obtain ⟨f, hv, hin, hnext⟩ := h.files
  exact ⟨⟨_, views_mount (hv.core.carried hle hm) auto, hin, hnext⟩,
    h.listing.frame hle (StoreMaps.mk.inj hm).2.2.1⟩

variable (L) in
/-- A store with these maps on this disk has a root directory. -/
def Blockset.Laws.KeepsRoot (d : Disk B) (m : StoreMaps) : Prop :=
  ∃ t : Tree, t.HasRoot ∧ ∀ (st : Store B) (auto : Bool), L.le d.io st.io →
    st.maps.persistent = m.persistent → L.Shows (Fs.mount st auto) t

theorem Blockset.Laws.Shows.keepsRoot (h : L.Shows s t) (hr : t.HasRoot)
    (hle : L.le s.store.io d.io) : L.KeepsRoot d s.store.maps.persistent :=
  ⟨t, hr, fun _ auto hle' hm => h.carried (L.le_trans hle hle') hm auto⟩

theorem Blockset.Laws.KeepsRoot.mono (h : L.KeepsRoot d m) (hle : L.le d.io d'.io) :
    L.KeepsRoot d' m := by
  obtain ⟨t, hr, hshows⟩ := h
  exact ⟨t, hr, fun st auto hle' => hshows st auto (L.le_trans hle hle')⟩

/-- A session that starts with a root directory keeps it. -/
theorem Blockset.Laws.KeepsRoot.served (hB : L.Reliable) (h : L.KeepsRoot d m)
    (hle : L.le d.io st.io) (hm : st.maps.persistent = m.persistent) {auto : Bool}
    (hrun : Runs (fun s op => op.Tame s) (Fs.mount st auto) s) (hc : L.NoCollision s.store.io) :
    ∃ t : Tree, L.Shows s t ∧ t.HasRoot := by
  obtain ⟨t, hr, hshows⟩ := h
  exact Runs.tameTree hB (fun hs hr hstep => hstep.hasRoot (fun _ _ hi => hs.ino hi) hr)
    (fun hr hsame => hsame.hasRoot hr) (hshows st auto hle hm) hr hrun hc

theorem Blockset.Laws.KeepsRoot.ends (hB : L.Reliable) (h : L.KeepsRoot d m)
    (hle : L.le d.io s.store.io) (ht : L.Shows s t) (hr : t.HasRoot)
    (hends : Ends L overflowChecks d m s d' m') : L.KeepsRoot d' m' := by
  have hle' := hends.le hB
  have hold : L.KeepsRoot d' m := h.mono (L.le_trans hle hle')
  have hnew : L.KeepsRoot d' s.store.maps.persistent := ht.keepsRoot hr hle'
  cases hends with
  | killed => exact hold
  | unmounted => exact hnew
  | unmounting _ _ hm => exact hm.elim (fun hm => hm ▸ hold) fun hm => hm ▸ hnew

/-- Whatever sessions a store has been through, the root directory is there. -/
theorem Mounts.keepsRoot (hB : L.Reliable)
    (h : Mounts L overflowChecks SeedTree.Seedable (fun s op => op.Tame s) d m)
    (hc : L.NoCollision d.io) : L.KeepsRoot d m := by
  induction h with
  | seeded hs hempty hseed _ hopen =>
      obtain ⟨-, v, hv, hg⟩ := pictures_seeded hB hs hseed hempty hc hopen
      refine (hv.shows false).keepsRoot (hg.hasRoot hs) ?_
      rw [← (openStore_seeded hB hseed hempty hc hopen).1]
      exact L.le_refl _
  | @session d d₁ d' m m' config auto st s hmounts _ _ hopen hrun hends ih =>
      have hle := L.le_trans (le_of_openStore hopen) (hrun.le L).1
      have hcs := hc.of_le (hends.le hB)
      have hkeeps := ih (hcs.of_le hle)
      obtain ⟨t, ht, hr⟩ := hkeeps.served hB (le_of_openStore hopen)
        (hmounts.maps_eq hB (hcs.of_le hle) hopen) hrun hcs
      exact hkeeps.ends hB hle ht hr hends

/-- In a session on names and files, at any point, the root directory is there; what the
state lacks for the next session to open it can only be room for its sizes. -/
theorem kernel_session_complete_iff (hB : B.NoIoErrors)
    (h : Mounts L overflowChecks SeedTree.Seedable (fun s op => op.Tame s) d m) {config : WalConfig}
    (hopen : openStore overflowChecks config d = (.ok st, d₁)) {auto : Bool}
    (hrun : Runs (fun s op => op.Tame s) (Fs.mount st auto) s) (hc : L.NoCollision s.store.io) :
    (∃ m, s.inode 1 = some m ∧ m.isDir) ∧ (s.Complete overflowChecks ↔
      (overflowChecks = true → totalSize s.store.io s.store.maps < 2 ^ 64)) := by
  have hB := hB.reliable L
  have hle := L.le_trans (le_of_openStore hopen) (hrun.le L).1
  have hcd := hc.of_le hle
  obtain ⟨t, ht, hr⟩ := (h.keepsRoot hB hcd).served hB (le_of_openStore hopen)
    (h.maps_eq hB hcd hopen) hrun hc
  obtain ⟨m, hm, hdir⟩ := hr.dir
  have hroot : 1 ∈ s.store.maps.inodeData := by
    obtain ⟨f, hv, hin, -⟩ := ht.files
    have hdigest := hv.core.inodes 1
    rw [hin, hm] at hdigest
    exact mem_of_getElem?_eq_some hdigest
  exact ⟨⟨m, (ht.inode hc 1).trans hm, hdir⟩, fun hcomplete => hcomplete.size,
    fun hsize => ⟨hroot, hsize⟩⟩

end

theorem kernel_session_complete_iff_unlinkedFs :
    (∃ m, unlinkedFs.inode 1 = some m ∧ m.isDir) ∧ unlinkedFs.Complete true := by
  have hcreate : FsOp.Tame (Fs.mount openedStore false) (.create 1 .a 0o644 0 0 0) :=
    FsOp.tame_of_onNames ⟨trivial, by decide, by decide +kernel⟩
  have hunlink : FsOp.Tame (Fs.mount reopenedStore false) (.unlink 1 .a) :=
    FsOp.tame_of_onNames ⟨trivial, by decide, by decide +kernel⟩
  have hmounts : Mounts memoryLaws true SeedTree.Seedable (fun s op => op.Tame s) unmountedDisk
      madeFs.store.maps.persistent :=
    mounts_unmountedDisk ⟨trivial, trivial, by decide, by decide⟩ hcreate
  have hopen : openStore true .perOp unmountedDisk = (.ok reopenedStore, _) :=
    Prog.eq_ok_of_isSome _
  have hrun : Runs (fun s op => op.Tame s) (Fs.mount reopenedStore false) unlinkedFs :=
    (Runs.refl _).step hunlink (Option.some_get _).symm
  have hc : memoryLaws.NoCollision unlinkedFs.store.io := memoryLaws_noCollision (by decide +kernel)
  obtain ⟨hroot, hiff⟩ := kernel_session_complete_iff memoryBlockset_noIoErrors hmounts
    hopen hrun hc
  exact ⟨hroot, hiff.mpr fun _ => by decide +kernel⟩

end SliceFs
