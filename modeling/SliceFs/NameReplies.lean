import SliceFs.NameFs

/-!
# Replies to requests on names

Every regular request on names is answered as `NameFs` says, and leaves a file system that
looks as `NameFs` says.
-/
namespace SliceFs
open TreeMaps ProgramLogic

section
variable {B : Blockset} {α : Type} {L : B.Laws} {s s' : Fs B} {t : Tree} {es : Entries}
  {p q i : UInt64} {name newName : Str}

section View
variable {key : Str → Digest224}

theorem Tree.dirs_view (hlive : t.liveDir p = some es) :
    (t.view key).dirs p = some (Entries.names key es) := by
  simp only [Tree.view, hlive, Option.map_some]

theorem Tree.exists_liveDir (h : ((t.view key).dirs p).isSome) : ∃ es, t.liveDir p = some es := by
  simpa [Tree.view, Option.isSome_iff_exists] using h

theorem Tree.resolve_view_some (hlive : t.liveDir p = some es) (hdots : ¬ name.IsDots)
    (hname : t.Names key p name i) : (t.view key).resolve p name = some i := by
  obtain ⟨e, he, hename, rfl⟩ := hname
  rw [Tree.entry, Tree.dirs_of_liveDir hlive] at he
  have he' : es[key name]? = some e := he
  simp [NameFs.resolve, Tree.dirs_view hlive, Entries.names, hdots, he', hename]

theorem Tree.resolve_view_none (hlive : t.liveDir p = some es)
    (hnone : t.entry p (key name) = none) : (t.view key).resolve p name = none := by
  rw [Tree.entry, Tree.dirs_of_liveDir hlive] at hnone
  have hnone' : es[key name]? = none := hnone
  simp [NameFs.resolve, Tree.dirs_view hlive, Entries.names, hnone']

/-- A name can be made in a live directory when it is free. -/
theorem Tree.refusal_view_free (hlive : t.liveDir p = some es)
    (hfree : t.entry p (key name) = none) : (t.view key).refusal p name = none := by
  have hnone := Tree.resolve_view_none hlive hfree
  rw [NameFs.resolve, Tree.dirs_view hlive] at hnone
  have hnone' : Entries.names key es name = none := hnone
  simp [NameFs.refusal, Tree.dirs_view hlive, hnone']

theorem Tree.refusal_view_taken (hlive : t.liveDir p = some es) (hdots : ¬ name.IsDots)
    (hname : t.Names key p name i) : (t.view key).refusal p name = some .eexist := by
  have hsome := Tree.resolve_view_some hlive hdots hname
  rw [NameFs.resolve, Tree.dirs_view hlive] at hsome
  have hsome' : Entries.names key es name = some i := hsome
  simp [NameFs.refusal, Tree.dirs_view hlive, hsome']

end View

theorem Tree.liveDir_addInode {m : InodeMeta} (hfresh : t.inodes[t.nextIno]? = none)
    (hdir : ¬ m.isDir) : (t.addInode m).liveDir = t.liveDir := by
  have hdir' : ¬ ({ m with ino := t.nextIno } : InodeMeta).isDir := hdir
  funext q
  simp only [Tree.liveDir, Tree.addInode, getElem?_insert_ite]
  split_ifs with hq
  · simp [hq, hfresh, hdir']
  · rfl

theorem Tree.make_view {m : InodeMeta} (hfresh : t.inodes[t.nextIno]? = none) (hdir : ¬ m.isDir)
    (hlive : t.liveDir p = some es) (hfree : t.Free L.key p name) :
    (t.view L.key).make p name m = (.ok (some t.nextIno),
      ((t.addInode m).link (L.key name) p name t.nextIno).view L.key) := by
  have hlive' : (t.addInode m).liveDir p = some es := by rwa [Tree.liveDir_addInode hfresh hdir]
  have hfree' : (t.addInode m).Free L.key p name := ⟨hfree.proper, hfree.dir, hfree.entry⟩
  rw [NameFs.make, Tree.refusal_view_free hlive hfree.entry, Tree.view_link hlive' hfree',
    Tree.view_addInode hfresh hdir]
  rfl

theorem Tree.target_view (hlive : t.liveDir p = some es) (hdots : ¬ name.IsDots)
    (hname : t.Names L.key p name i) :
    (t.view L.key).target p name = (t.inodes[i]?).map fun m => (i, m) := by
  rw [NameFs.target, Tree.resolve_view_some hlive hdots hname]
  rfl

/-- A name of a list is an entry beside `.` and `..`. -/
theorem Entries.exists_of_names {key : Str → Digest224} (h : Entries.names key es name ≠ none) :
    ∃ (k : Digest224) (e : EntryRecord), es[k]? = some e ∧ ¬ e.name.IsDots := by
  unfold Entries.names at h
  split_ifs at h with hdots
  · exact absurd rfl h
  cases he : es[key name]? with
  | none => simp [he] at h
  | some e =>
      have hename : e.name = name := by
        by_contra hne
        simp [he, hne] at h
      exact ⟨_, e, he, hename ▸ hdots⟩

theorem Blockset.Laws.Listed.names_ne_none {io : B.Io} (h : L.Listed io es) {k : Digest224}
    {e : EntryRecord} (he : es[k]? = some e) (hdots : ¬ e.name.IsDots) :
    Entries.names L.key es e.name ≠ none := by
  obtain ⟨-, rfl, -⟩ := h.entry k e he
  simp [Entries.names, hdots, he]

theorem Tree.exists_inode_of_liveDir (h : t.liveDir p = some es) :
    ∃ m, t.inodes[p]? = some m ∧ m.isDir := by
  unfold Tree.liveDir at h
  obtain ⟨m, hm, h⟩ := Option.bind_eq_some_iff.mp h
  split_ifs at h with hdir
  exact ⟨m, hm, hdir⟩

/-- A new directory with its entry and the parent's count. -/
theorem Tree.mkdir_view {m : InodeMeta} (hlive : t.liveDir p = some es) (hne : p ≠ t.nextIno)
    (hdir : m.isDir) (hfree : t.Free L.key p name) :
    (t.view L.key).mkdir p name m = (.ok (some t.nextIno),
      (t.addDirectory (Tree.newDir L.key t.nextIno p) (L.key name) p name m).view L.key) := by
  have hlive' : (t.insertDir (Tree.newDir L.key t.nextIno p) m).liveDir p = some es := by
    simp only [Tree.liveDir, Tree.insertDir, Tree.addInode, getElem?_insert_ite, if_neg hne]
    exact hlive
  have hfree' : (t.insertDir (Tree.newDir L.key t.nextIno p) m).Free L.key p name := by
    refine ⟨hfree.proper, ?_, ?_⟩
    · simpa [Tree.insertDir, getElem?_insert_ite, hne] using hfree.dir
    · simpa [Tree.entry, Tree.insertDir, getElem?_insert_ite, hne] using hfree.entry
  have hcount : ∀ m : InodeMeta, ({ m with nlinks := m.nlinks + 1 } : InodeMeta).isDir ↔ m.isDir :=
    fun _ => Iff.rfl
  rw [NameFs.mkdir, Tree.refusal_view_free hlive hfree.entry, Tree.addDirectory,
    Tree.view_modifyInode hcount]
  have hlink := Tree.view_link hlive' hfree' t.nextIno
  rw [Tree.view_insertDir hdir] at hlink
  exact congrArg (fun f : NameFs => ((.ok (some t.nextIno), f.modifyInode p _) : Reply × NameFs))
    hlink.symm

theorem Tree.Names.ne_of_free (hname : t.Names L.key p name i) (hfree : t.Free L.key q newName) :
    ¬ (p = q ∧ L.key name = L.key newName) := by
  rintro ⟨rfl, hkey⟩
  obtain ⟨e, he, -, -⟩ := hname
  have hnone := hfree.entry
  rw [← hkey, he] at hnone
  cases hnone

/-- A name in use stays in use when another one is made. -/
theorem Tree.Names.link (hname : t.Names L.key p name i) (hfree : t.Free L.key q newName)
    (j : UInt64) : (t.link (L.key newName) q newName j).Names L.key p name i := by
  have hne := hname.ne_of_free hfree
  obtain ⟨e, he, hename, rfl⟩ := hname
  exact ⟨e, by rw [Tree.entry_link, if_neg hne, he], hename, rfl⟩

theorem Tree.liveDir_link (hq : t.liveDir q = some es) (hp : (t.liveDir p).isSome) (j : UInt64) :
    ((t.link (L.key newName) q newName j).liveDir p).isSome := by
  simp only [Tree.link, Tree.dirs_of_liveDir hq, Option.getD_some, Tree.liveDir_setDirs hq,
    Function.update_apply]
  split_ifs
  · rfl
  · exact hp

theorem Tree.view_renamed (hp : (t.liveDir p).isSome) (hq : (t.liveDir q).isSome)
    (hname : t.Names L.key p name i) (hfree : t.Free L.key q newName) (now : Now) :
    (t.renamed L.key p name q newName now i).view L.key =
      (t.view L.key).move p name q newName i now := by
  obtain ⟨es, hq⟩ := Option.isSome_iff_exists.mp hq
  have hlive : ((t.link (L.key newName) q newName i).liveDir p).isSome := Tree.liveDir_link hq hp i
  obtain ⟨ps, hps⟩ := Option.isSome_iff_exists.mp hlive
  have htouch : ∀ m : InodeMeta, (m.setCtime now).isDir ↔ m.isDir := fun _ => Iff.rfl
  rw [Tree.renamed, Tree.touch, Tree.view_modifyInode htouch,
    Tree.view_unlink hps (hname.link hfree i), Tree.view_link hq hfree]
  rfl

theorem Tree.isSome_dirs_view (key : Str → Digest224) :
    ((t.view key).dirs p).isSome = (t.liveDir p).isSome := by
  simp [Tree.view]

section Replaced
variable {j : UInt64} {n : InodeMeta}

theorem Tree.view_replaced (hj : t.Names L.key q newName j) (hn : t.inodes[j]? = some n)
    (hino : n.ino = j) (hdir : ¬ n.isDir) (hq : t.liveDir q = some es) :
    ((t.unlink (L.key newName) q).displace j n).view L.key =
      ((t.view L.key).enter q newName none).dropLink j n := by
  have hn' : (t.unlink (L.key newName) q).inodes[j]? = some n := hn
  rw [Tree.view_displace hn' hino hdir, Tree.view_unlink hq hj]

theorem Tree.liveDir_replaced (hj : t.Names L.key q newName j) (hn : t.inodes[j]? = some n)
    (hino : n.ino = j) (hdir : ¬ n.isDir) (hq : t.liveDir q = some es) (hp : (t.liveDir p).isSome) :
    (((t.unlink (L.key newName) q).displace j n).liveDir p).isSome := by
  rw [← Tree.isSome_dirs_view L.key] at hp ⊢
  rw [Tree.view_replaced hj hn hino hdir hq]
  simp only [NameFs.dropLink, NameFs.setInode, NameFs.enter, NameFs.setDir, Function.update_apply]
  split_ifs with hpq
  · simpa [hpq] using hp
  · exact hp

theorem Tree.names_replaced (hj : t.Names L.key q newName j) (hname : t.Names L.key p name i)
    (hij : j ≠ i) :
    ((t.unlink (L.key newName) q).displace j n).Names L.key p name i := by
  obtain ⟨e, he, hename, rfl⟩ := hname
  obtain ⟨e', he', -, rfl⟩ := hj
  refine ⟨e, ?_, hename, rfl⟩
  rw [Tree.entry_displace, Tree.entry_unlink, if_neg, he]
  rintro ⟨rfl, hkey⟩
  rw [← hkey, he] at he'
  exact hij (congrArg EntryRecord.ino (Option.some.inj he').symm)

theorem Tree.inode_replaced (hino : n.ino = j) (hij : j ≠ i) :
    ((t.unlink (L.key newName) q).displace j n).inodes[i]? = t.inodes[i]? := by
  unfold Tree.displace
  split_ifs
  · rfl
  · simp [Tree.removeInode, Tree.unlink, getElem?_erase_ite, hij.symm]
  · simp [Tree.putInode, Tree.unlink, getElem?_insert_ite, hino, hij.symm]

end Replaced

/-- A rename that is refused. -/
theorem Tree.RefusesRename.rename_view {flags : UInt32} {e : Errno}
    (h : t.RefusesRename L.key p name q newName flags e) (hdots : ¬ name.IsDots)
    (hdots' : ¬ newName.IsDots) {ps qs : Entries} (hps : t.liveDir p = some ps)
    (hqs : t.liveDir q = some qs) (hmov : (t.view L.key).Movable p name q newName) (now : Now) :
    (t.view L.key).rename p name q newName flags now = (.error (.err e), t.view L.key) := by
  cases h with
  | exchange hexch => rw [NameFs.rename, if_neg hexch]
  | source hexch hgone =>
      rw [NameFs.rename, if_pos hexch, Tree.resolve_view_none hps hgone]
  | taken hexch hflag hi hj =>
      simp only [NameFs.rename, if_pos hexch, Tree.resolve_view_some hps hdots hi,
        Tree.resolve_view_some hqs hdots' hj, if_neg hflag]
  | @target i j hexch hflag hi hj hgone =>
      have hi' := Tree.resolve_view_some hps hdots hi
      have hj' := Tree.resolve_view_some hqs hdots' hj
      have hgone' : (t.view L.key).inodes j = none := hgone
      obtain ⟨m, -, -, hover⟩ := hmov i hi'
      simp only [NameFs.rename, if_pos hexch, hi', hj', if_pos hflag, if_neg (hover j hj').1,
        hgone']
  | place hbad =>
      obtain hbad | hbad := hbad
      · exact absurd hbad hdots'
      · rw [Tree.dirs_of_liveDir hqs] at hbad
        cases hbad

/-- A rename that is carried out, of an inode that is still there when it is touched. -/
theorem Tree.Renames.rename_view (h : L.Shows s t) {flags : UInt32} {t' : Tree}
    (hr : t.Renames L.key p name q newName flags i t') (hdots : ¬ name.IsDots)
    (hp : (t.liveDir p).isSome) (hq : (t.liveDir q).isSome)
    (hmov : (t.view L.key).Movable p name q newName) (now : Now) :
    (∃ m, t'.inodes[i]? = some m) ∧
      (t.view L.key).rename p name q newName flags now =
        (.ok none, (t'.renamed L.key p name q newName now i).view L.key) := by
  obtain ⟨hexch, hreplace, hname, hcleared, hfree⟩ := hr
  obtain ⟨ps, hps⟩ := Option.isSome_iff_exists.mp hp
  obtain ⟨qs, hqs⟩ := Option.isSome_iff_exists.mp hq
  have hi := Tree.resolve_view_some hps hdots hname
  obtain ⟨m, hm, -, hover⟩ := hmov i hi
  have hm' : t.inodes[i]? = some m := hm
  cases hcleared with
  | none hnone =>
      refine ⟨⟨m, hm'⟩, ?_⟩
      rw [Tree.view_renamed hp hq hname hfree]
      simp only [NameFs.rename, if_pos hexch, hi, Tree.resolve_view_none hqs hnone]
  | @some j n hj hn =>
      have hj' := Tree.resolve_view_some hqs hfree.proper hj
      obtain ⟨hij, hfile⟩ := hover j hj'
      have hn' : (t.view L.key).inodes j = some n := hn
      have hino := (h.ino hn).1
      have hdir := hfile n hn'
      have hflag : flags &&& 1 = 0 := hreplace.resolve_right fun hnone => by
        obtain ⟨e, he, -, -⟩ := hj
        rw [hnone] at he
        cases he
      refine ⟨⟨m, (Tree.inode_replaced hino hij).trans hm'⟩, ?_⟩
      rw [Tree.view_renamed (Tree.liveDir_replaced hj hn hino hdir hqs hp)
        (Tree.liveDir_replaced hj hn hino hdir hqs hq) (Tree.names_replaced hj hname hij) hfree,
        Tree.view_replaced hj hn hino hdir hqs]
      simp only [NameFs.rename, if_pos hexch, hi, hj', if_pos hflag, if_neg hij, hn']

/-- A name that cannot be made in a live directory is taken. -/
theorem Tree.Unplaced.refusal_view {e : Errno} (h : t.Unplaced L.key p name e)
    (hdots : ¬ name.IsDots) (hlive : t.liveDir p = some es) :
    (t.view L.key).refusal p name = some e := by
  obtain hbad | hnone | ⟨rfl, i, hname⟩ := h
  · exact absurd hbad hdots
  · rw [Tree.dirs_of_liveDir hlive] at hnone
    cases hnone
  · exact Tree.refusal_view_taken hlive hdots hname

theorem Tree.Absent.target_view {e : Errno} (h : t.Absent L.key p name e) (hdots : ¬ name.IsDots)
    (hlive : t.liveDir p = some es) : e = .enoent ∧ (t.view L.key).target p name = none := by
  obtain hnone | ⟨rfl, hfree | ⟨i, hname, hm⟩⟩ := h
  · rw [Tree.dirs_of_liveDir hlive] at hnone
    cases hnone
  · refine ⟨rfl, ?_⟩
    rw [NameFs.target, Tree.resolve_view_none hlive hfree]
    rfl
  · refine ⟨rfl, ?_⟩
    rw [Tree.target_view hlive hdots hname, hm]
    rfl

theorem FsOp.mem_of_makes {op : FsOp} (h : op.makes = some (p, name)) :
    p ∈ op.parents ∧ name ∈ op.names := by
  cases op <;> cases h <;> exact ⟨List.mem_cons_self, List.mem_cons_self⟩

theorem FsOp.mem_of_removes {op : FsOp} (h : op.removes = some (p, name)) :
    p ∈ op.parents ∧ name ∈ op.names := by
  cases op <;> cases h <;> exact ⟨List.mem_cons_self, List.mem_cons_self⟩

theorem NameFs.step_of_removes {f : NameFs} {op : FsOp} (h : op.removes = some (p, name))
    (hnone : f.target p name = none) : f.step op = (.error (.err .enoent), f) := by
  cases op <;> cases h <;> simp only [NameFs.step, NameFs.unlink, NameFs.rmdir, hnone]

/-- What the requests that make a node do. -/
theorem NameFs.step_of_node (f : NameFs) {op : FsOp} {m : InodeMeta}
    (h : op.node = some (p, name, m)) : f.step op = f.make p name m := by
  cases op with
  | create => cases h; rfl
  | mknod p name mode uid gid umask =>
      simp only [FsOp.node, Option.ite_none_right_eq_some] at h
      obtain ⟨hmode, h⟩ := h
      cases h
      exact if_pos hmode
  | symlink => cases h; rfl
  | _ => cases h

theorem Tree.link_view {m : InodeMeta} {now : Now} (hm : t.inodes[i]? = some m) (hino : m.ino = i)
    (hfile : ¬ m.isDir) (hlive : t.liveDir p = some es) (hfree : t.Free L.key p name) :
    (t.view L.key).link i p name now = (.ok (some i),
      ((t.link (L.key name) p name i).putInode
        (({ m with nlinks := m.nlinks + 1 } : InodeMeta).setCtime now)).view L.key) := by
  have hm' : (t.view L.key).inodes i = some m := hm
  have hold : (t.link (L.key name) p name i).inodes[m.ino]? = some m := by rwa [hino]
  have hput : ((t.link (L.key name) p name i).putInode
      (({ m with nlinks := m.nlinks + 1 } : InodeMeta).setCtime now)).view L.key =
      ((t.link (L.key name) p name i).view L.key).setInode m.ino
        (some (({ m with nlinks := m.nlinks + 1 } : InodeMeta).setCtime now)) :=
    Tree.view_insertInode (by simp [hold, InodeMeta.isDir, InodeMeta.setCtime])
  simp only [NameFs.link, hm', if_neg hfile, Tree.refusal_view_free hlive hfree.entry]
  rw [hput, Tree.view_link hlive hfree, hino]

/-- The name of an empty directory is removed. -/
theorem Tree.rmdir_view {m : InodeMeta} {sub : Entries} (hdots : ¬ name.IsDots)
    (hlive : t.liveDir p = some es) (hname : t.Names L.key p name i) (hm : t.inodes[i]? = some m)
    (hdir : m.isDir) (hes : t.dirs[i]? = some sub)
    (hempty : ∀ (k : Digest224) (e : EntryRecord), sub[k]? = some e → e.name.IsDots) :
    ((t.unlink (L.key name) p).removeInode i).inodes[p]? ≠ none ∧
      (t.view L.key).rmdir p name = (.ok none,
        (((t.unlink (L.key name) p).removeInode i).dropBacklink p).view L.key) := by
  have htarget : (t.view L.key).target p name = some (i, m) := by
    rw [Tree.target_view hlive hdots hname, hm]
    rfl
  have hlive' : t.liveDir i = some sub := by rw [Tree.liveDir_of_inode hm hdir, hes]
  have hview : (t.view L.key).dirs i = some (Entries.names L.key sub) := Tree.dirs_view hlive'
  have hnone : ¬ ∃ n, Entries.names L.key sub n ≠ none := by
    rintro ⟨n, hn⟩
    obtain ⟨k, e, he, hdots⟩ := Entries.exists_of_names hn
    exact hdots (hempty k e he)
  -- a directory that names itself is not empty
  have hne : p ≠ i := by
    rintro rfl
    refine hnone ⟨name, ?_⟩
    have hres := Tree.resolve_view_some hlive hdots hname
    rw [NameFs.resolve, hview] at hres
    have hres' : Entries.names L.key sub name = some p := hres
    simp [hres']
  obtain ⟨pm, hpm, -⟩ := Tree.exists_inode_of_liveDir hlive
  have hdrop : ∀ m : InodeMeta, m.dropLink.isDir ↔ m.isDir := by
    intro m
    unfold InodeMeta.dropLink
    split_ifs <;> rfl
  constructor
  · simp [Tree.removeInode, Tree.unlink, getElem?_erase_ite, hne, hpm]
  · simp only [NameFs.rmdir, htarget, if_pos hdir, hview, if_neg hnone]
    rw [Tree.dropBacklink, Tree.view_modifyInode hdrop, Tree.view_removeInode,
      Tree.view_unlink hlive hname]

/-- The answers of a tree to regular requests are those of a file system with its names. -/
theorem Tree.Answer.view {op : FsOp} {r : Reply} {t' : Tree} (hanswer : t.Answer L.key op r t')
    (h : L.Shows s t) (hproper : op.Proper) (hreg : (t.view L.key).Regular op) :
    (t.view L.key).step op = (r, t'.view L.key) := by
  have hlive : ∀ p ∈ op.parents, ∃ es, t.liveDir p = some es := fun p hp =>
    Tree.exists_liveDir (hreg.1 p hp)
  have hnode : ∀ {p : UInt64} {name : Str} {m : InodeMeta}, op.node = some (p, name, m) →
      ¬ name.IsDots ∧ ∃ es, t.liveDir p = some es := by
    intro p name m hnode
    have hmakes := (FsOp.of_node hnode).1
    exact ⟨(hproper name (FsOp.mem_of_makes hmakes).2).1, hlive p (FsOp.mem_of_makes hmakes).1⟩
  have hremoves : ∀ {p : UInt64} {name : Str}, op.removes = some (p, name) →
      ¬ name.IsDots ∧ ∃ es, t.liveDir p = some es := by
    intro p name h
    exact ⟨(hproper name (FsOp.mem_of_removes h).2).1, hlive p (FsOp.mem_of_removes h).1⟩
  cases hanswer with
  | node hop hmax hfree =>
      obtain ⟨-, es, hes⟩ := hnode hop
      rw [NameFs.step_of_node _ hop]
      exact Tree.make_view h.fresh (FsOp.of_node hop).2.2 hes hfree
  | nodeUnplaced hop hmax hwhy =>
      obtain ⟨hdots, es, hes⟩ := hnode hop
      rw [NameFs.step_of_node _ hop, NameFs.make, hwhy.refusal_view hdots hes]
      rfl
  | nodeSpecial hmode => exact if_neg hmode
  | @mkdir p name _ _ _ _ pm hmax hp hpdir hn hfree =>
      obtain ⟨es, hes⟩ := hlive p List.mem_cons_self
      have hne : p ≠ t.nextIno := fun he => UInt64.lt_irrefl _ (he ▸ (h.ino hp).2)
      exact Tree.mkdir_view hes hne (isDir_directoryMode _ _ _) hfree
  | @mkdirUnplaced p name _ _ _ _ _ hmax hwhy =>
      obtain ⟨es, hes⟩ := hlive p List.mem_cons_self
      rw [NameFs.step, NameFs.mkdir,
        hwhy.refusal_view (hproper name List.mem_cons_self).1 hes]
      rfl
  | @mkdirNowhere p _ _ _ _ _ _ hnot =>
      obtain ⟨es, hes⟩ := hlive p List.mem_cons_self
      obtain ⟨pm, hp, hpdir⟩ := Tree.exists_inode_of_liveDir hes
      exact absurd ⟨pm, hp, hpdir, by simp [Tree.dirs_of_liveDir hes]⟩ hnot
  | @link i p _ _ m hm hfile hn hfree =>
      obtain ⟨es, hes⟩ := hlive p List.mem_cons_self
      exact Tree.link_view hm (h.ino hm).1 hfile hes hfree
  | @linkUnplaced i p name _ m _ hm hfile hwhy =>
      obtain ⟨es, hes⟩ := hlive p List.mem_cons_self
      have hm' : (t.view L.key).inodes i = some m := hm
      simp only [NameFs.step, NameFs.link, hm', if_neg hfile,
        hwhy.refusal_view (hproper name List.mem_cons_self).1 hes]
  | @linkGone i _ _ _ hm =>
      have hm' : (t.view L.key).inodes i = none := hm
      simp only [NameFs.step, NameFs.link, hm']
  | @linkDir i _ _ _ m hm hdir =>
      have hm' : (t.view L.key).inodes i = some m := hm
      simp only [NameFs.step, NameFs.link, hm', if_pos hdir]
  | absent hop hwhy =>
      obtain ⟨hdots, es, hes⟩ := hremoves hop
      obtain ⟨rfl, hnone⟩ := hwhy.target_view hdots hes
      exact NameFs.step_of_removes hop hnone
  | reserved hop hbad => exact absurd hbad (hremoves hop).1
  | unlink hdots hname hm hfile =>
      obtain ⟨es, hes⟩ := hlive _ List.mem_cons_self
      have htarget := Tree.target_view hes hdots hname
      rw [hm, Option.map_some] at htarget
      simp only [NameFs.step, NameFs.unlink, htarget, if_neg hfile]
      rw [Tree.view_displace (t := t.unlink _ _) hm (h.ino hm).1 hfile, Tree.view_unlink hes hname]
  | @unlinkDir _ _ name _ hname hm hdir =>
      obtain ⟨es, hes⟩ := hlive _ List.mem_cons_self
      have htarget := Tree.target_view hes (hproper name List.mem_cons_self).1 hname
      rw [hm, Option.map_some] at htarget
      simp only [NameFs.step, NameFs.unlink, htarget, if_pos hdir]
  | rmdir hdots hname hm hdir hsub hempty hr =>
      obtain ⟨es, hes⟩ := hlive _ List.mem_cons_self
      obtain ⟨hp, hview⟩ := Tree.rmdir_view hdots hes hname hm hdir hsub hempty
      rw [hr hp]
      exact hview
  | @rmdirFull _ _ name _ sub k e hname hm hdir hsub he hdots =>
      obtain ⟨es, hes⟩ := hlive _ List.mem_cons_self
      have htarget := Tree.target_view hes (hproper name List.mem_cons_self).1 hname
      rw [hm, Option.map_some] at htarget
      have hview : (t.view L.key).dirs _ = some (Entries.names L.key sub) :=
        Tree.dirs_view ((Tree.liveDir_of_inode hm hdir).trans hsub)
      have hfull : ∃ n, Entries.names L.key sub n ≠ none :=
        ⟨e.name, (h.listing.listed _ sub hsub).names_ne_none he hdots⟩
      simp only [NameFs.step, NameFs.rmdir, htarget, if_pos hdir, hview, if_pos hfull]
  | @rmdirFile _ i name m hname hm hwhy =>
      obtain ⟨es, hes⟩ := hlive _ List.mem_cons_self
      have htarget := Tree.target_view hes (hproper name List.mem_cons_self).1 hname
      rw [hm, Option.map_some] at htarget
      by_cases hdir : m.isDir
      · have hgone : (t.view L.key).dirs i = none := by
          simp [Tree.view, Tree.liveDir_of_inode hm hdir, hwhy.resolve_left (not_not.mpr hdir)]
        simp only [NameFs.step, NameFs.rmdir, htarget, if_pos hdir, hgone]
      · simp only [NameFs.step, NameFs.rmdir, htarget, if_neg hdir]
  | @rename p q _ _ _ _ _ _ hdots hr =>
      have hp := Option.isSome_iff_exists.mpr (hlive p List.mem_cons_self)
      have hq := Option.isSome_iff_exists.mpr (hlive q (List.mem_cons_of_mem _ List.mem_cons_self))
      obtain ⟨⟨m, hm⟩, hview⟩ := hr.rename_view h hdots hp hq hreg.2 _
      rw [hm]
      exact hview
  | @renameRefused p q name newName _ _ _ hwhy =>
      obtain ⟨ps, hps⟩ := hlive p List.mem_cons_self
      obtain ⟨qs, hqs⟩ := hlive q (List.mem_cons_of_mem _ List.mem_cons_self)
      exact hwhy.rename_view (hproper name List.mem_cons_self).1
        (hproper newName (List.mem_cons_of_mem _ List.mem_cons_self)).1 hps hqs hreg.2 _

/-- Every regular request on names is answered as it should be. -/
theorem FsOp.answers (hB : L.Reliable) (h : L.Shows s t) (hsmall : t.Small) {op : FsOp}
    (hon : op.OnNames) (hproper : op.Proper) (hreg : (t.view L.key).Regular op)
    (hrun : op.run s = some s') (hc : L.NoCollision s'.store.io) :
    ∃ t', L.Shows s' t' ∧ (t.view L.key).step op = (op.reply s, t'.view L.key) := by
  obtain ⟨t', hanswer, h'⟩ := FsOp.answer hB h hsmall hon hproper hrun hc
  exact ⟨t', h', hanswer.view h hproper hreg⟩

end

end SliceFs
