import SliceFs.TreeView

/-!
# Requests on names as steps of a tree

Every request on names gives an answer of the tree that the file system shows and leaves
the tree that goes with it, also when it fails halfway.
-/
namespace SliceFs
open TreeMaps ProgramLogic

/-- The names a request gives to entries or looks up. -/
def FsOp.names : FsOp → List Str
  | .create _ name _ _ _ _ => [name]
  | .mknod _ name _ _ _ _ => [name]
  | .mkdir _ name _ _ _ _ => [name]
  | .symlink _ name _ _ _ => [name]
  | .link _ _ name _ => [name]
  | .unlink _ name => [name]
  | .rmdir _ name => [name]
  | .rename _ name _ newName _ _ => [name, newName]
  | _ => []

/-- The requests on names. -/
def FsOp.OnNames : FsOp → Prop
  | .create .. => True
  | .mknod .. => True
  | .mkdir .. => True
  | .symlink .. => True
  | .link .. => True
  | .unlink .. => True
  | .rmdir .. => True
  | .rename .. => True
  | _ => False

section
variable {B : Blockset} {α : Type} {L : B.Laws} {s : Fs B} {t : Tree}

variable (L) in
/-- The tree of a file system. -/
structure Blockset.Laws.Shows (s : Fs B) (t : Tree) : Prop where
  files : ∃ f, L.Views s f ∧ f.core.inodes = t.inodes ∧ f.core.nextIno = t.nextIno
  listing : L.Listing s.store t.dirs

/-- No directory is so full that its list could not take one more entry. -/
def Tree.Small (t : Tree) : Prop :=
  ∀ (p : UInt64) (es : Entries), t.dirs[p]? = some es → es.size + 1 < 2 ^ 32

/-- The answer of a request and the tree after it, unless a panic ended it. -/
def Blockset.Laws.Answers (L : B.Laws) (op : FsOp) (t : Tree) (inode : α → Option UInt64)
    (r : Except (Fault Errno) α) (s' : Fs B) : Prop :=
  r ≠ .error .panic → ∃ t', t.Answer L.key op (r.map inode) t' ∧ L.Shows s' t'

theorem Blockset.Laws.Shows.grow (h : L.Shows s t) {io : B.Io} (hle : L.le s.store.io io) :
    L.Shows { s with store := { s.store with io := io } } t := by
  obtain ⟨f, hv, hin, hnext⟩ := h.files
  exact ⟨⟨f, hv.grow hle, hin, hnext⟩, h.listing.frame hle rfl⟩

theorem Blockset.Laws.Shows.ino (h : L.Shows s t) {i : UInt64} {m : InodeMeta}
    (hm : t.inodes[i]? = some m) : m.ino = i ∧ i < t.nextIno := by
  obtain ⟨f, hv, hin, hnext⟩ := h.files
  rw [← hin] at hm
  rw [← hnext]
  exact (hv.core.inode i m hm).2

/-- A call of the store that changes inodes but no entry list. -/
theorem Blockset.Laws.Shows.store (h : L.Shows s t) {f : Files} (hv : L.Views s f) {m : StoreM B α}
    [hm : Growing L.fixedDirs m] {r : Except (Fault MetaError) α} {st : Store B}
    (hrun : m s.store = (r, st)) {c : Contents} (hc : L.Holds st c)
    (hle : f.core.nextIno ≤ c.nextIno) :
    L.Shows { s with store := st } ⟨c.inodes, t.dirs, c.nextIno⟩ := by
  obtain ⟨⟨hio, -⟩, hdirs⟩ := hm.le_run s.store
  rw [hrun] at hio hdirs
  exact ⟨⟨_, hv.store hio hc hle, rfl, rfl⟩, h.listing.frame hio hdirs⟩

theorem Blockset.Laws.Shows.getInode_eq (h : L.Shows s t) (hc : L.NoCollision s.store.io)
    (errno : MetaError → Errno) (i : UInt64) :
    callStore errno (getInode i) s =
      ((t.inodes[i]?).elim (.error (.err (errno (.notFound i)))) .ok, s) := by
  obtain ⟨f, hv, hin, -⟩ := h.files
  have hget := SliceFs.getInode_eq hv.core hc i
  rw [Contents.getInode, hin] at hget
  cases hm : t.inodes[i]? with
  | none =>
      rw [hm] at hget
      exact callStore_error hget
  | some m =>
      rw [hm] at hget
      exact callStore_ok hget

theorem Blockset.Laws.Shows.updateInode (hB : L.Reliable) (h : L.Shows s t) {m n : InodeMeta}
    (hm : t.inodes[n.ino]? = some m) :
    ∃ st, SliceFs.updateInode n s.store = (.ok (), st) ∧
      L.Shows { s with store := st } (t.putInode n) := by
  obtain ⟨f, hv, hin, hnext⟩ := h.files
  obtain ⟨st, hupd, hcore⟩ := updateInode_eq hB hv.core (m := n) (n := m) (by rw [hin, hm])
  have hs := h.store hv hupd hcore (UInt64.le_refl _)
  refine ⟨st, hupd, ?_⟩
  simp only [Contents.putInode, hin, hnext] at hs
  exact hs

theorem Blockset.Laws.Shows.deleteInode (h : L.Shows s t) {i : UInt64} {m : InodeMeta}
    (hm : t.inodes[i]? = some m) :
    ∃ st, SliceFs.deleteInode i s.store = (.ok (), st) ∧
      L.Shows { s with store := st } (t.removeInode i) := by
  obtain ⟨f, hv, hin, hnext⟩ := h.files
  obtain ⟨st, hdel, hcore⟩ := deleteInode_eq hv.core (i := i) (m := m) (by rw [hin, hm])
  have hs := h.store hv hdel hcore (UInt64.le_refl _)
  refine ⟨st, hdel, ?_⟩
  simp only [Contents.removeInode, hin, hnext] at hs
  exact hs

theorem Blockset.Laws.Shows.createInode (hB : L.Reliable) (h : L.Shows s t) (m : InodeMeta) :
    (t.nextIno ≠ u64Max ∧ ∃ st, SliceFs.createInode m s.store = (.ok t.nextIno, st) ∧
      L.Shows { s with store := st } (t.addInode m)) ∨
    SliceFs.createInode m s.store = (.error .panic, s.store) := by
  obtain ⟨f, hv, hin, hnext⟩ := h.files
  by_cases hmax : f.core.nextIno = u64Max
  · exact .inr (createInode_panic hv.core m hmax)
  · obtain ⟨st, hcreate, hcore⟩ := createInode_eq hB hv.core m hmax
    have hs := h.store hv hcreate hcore (UInt64.le_of_lt (lt_add_one_of_ne_u64Max hmax))
    rw [hnext] at hcreate hmax
    refine .inl ⟨hmax, st, hcreate, ?_⟩
    simp only [Contents.addInode, hin, hnext] at hs
    exact hs

/-- What `lookup` finds in a tree. -/
theorem Blockset.Laws.Shows.lookup (hB : L.Reliable) (h : L.Shows s t)
    (hc : L.NoCollision s.store.io) (p : UInt64) (name : Str) :
    ∃ io, L.Shows { s with store := { s.store with io := io } } t ∧
      ((∃ i, (L.NoCollision io → t.Names L.key p name i) ∧
          SliceFs.lookup p name s.store = (.ok i, { s.store with io := io })) ∨
        (t.entry p (L.key name) = none ∧ ∃ err, (t.dirs[p]? ≠ none → err = .notFound 0) ∧
          SliceFs.lookup p name s.store = (.error (.err err), { s.store with io := io }))) := by
  obtain ⟨io, hle, ⟨es, e, hes, he, hname, hrun⟩ | ⟨hnone, err, herr, hrun⟩⟩ :=
    lookup_eq hB h.listing hc p name
  · refine ⟨io, h.grow hle, .inl ⟨e.ino, fun hio => ⟨e, ?_, ?_, rfl⟩, hrun⟩⟩
    · rw [Tree.entry, hes]
      exact he
    · exact ((h.listing.listed p es hes).mono hle).name_eq hio hname he
  · exact ⟨io, h.grow hle, .inr ⟨hnone, err, herr, hrun⟩⟩

/-- What `link` makes of a tree. -/
theorem Blockset.Laws.Shows.link (hB : L.Reliable) (h : L.Shows s t)
    (hc : L.NoCollision s.store.io) {name : Str} (hlen : name.bytes.length < 2 ^ 32)
    (hsmall : t.Small) (p i : UInt64) :
    (t.Free L.key p name ∧ ∃ st, SliceFs.link p name i s.store = (.ok (), st) ∧
      L.Shows { s with store := st } (t.link (L.key name) p name i)) ∨
    ∃ err st, SliceFs.link p name i s.store = (.error (.err err), st) ∧
      L.Shows { s with store := st } t ∧ ¬ t.Free L.key p name ∧
      (L.NoCollision st.io → t.Unplaced L.key p name (metaErrorToErrno err)) := by
  obtain ⟨f, hv, hin, hnext⟩ := h.files
  have hv' := hv.link hB p name i
  rcases link_eq hB h.listing hc hlen (hsmall p) i with
    ⟨es, st, hes, hdots, hnone, hrun, hlist⟩ | ⟨err, st, hwhy, hrun, hlist⟩
  · rw [hrun] at hv'
    refine .inl ⟨⟨hdots, by simp [hes], ?_⟩, st, hrun, ⟨f, hv', hin, hnext⟩, ?_⟩
    · rw [Tree.entry, hes]
      exact hnone
    · rw [Tree.link, hes]
      exact hlist
  · rw [hrun] at hv'
    refine .inr ⟨err, st, hrun, ⟨⟨f, hv', hin, hnext⟩, hlist⟩, fun hfree => ?_, fun hc' => ?_⟩
    · obtain hdots | hnone | ⟨-, es, e, hes, he, -⟩ := hwhy
      · exact hfree.proper hdots
      · exact hfree.dir hnone
      · have hentry := hfree.entry
        rw [Tree.entry, hes, Option.bind_some, he] at hentry
        cases hentry
    · refine hwhy.imp_right (Or.imp_right ?_)
      rintro ⟨rfl, es, e, hes, he, hname⟩
      refine ⟨rfl, e.ino, e, ?_, hname hc', rfl⟩
      rw [Tree.entry, hes]
      exact he

/-- What `unlink` makes of a tree. -/
theorem Blockset.Laws.Shows.unlink (hB : L.Reliable) (h : L.Shows s t)
    (hc : L.NoCollision s.store.io) (p : UInt64) (name : Str) :
    (¬ name.IsDots ∧ ∃ st, SliceFs.unlink p name s.store = (.ok (), st) ∧
      L.Shows { s with store := st } (t.unlink (L.key name) p)) ∨
    ((name.IsDots ∨ t.entry p (L.key name) = none) ∧ ∃ err st,
      SliceFs.unlink p name s.store = (.error (.err err), st) ∧
      L.Shows { s with store := st } t) := by
  obtain ⟨f, hv, hin, hnext⟩ := h.files
  have hv' := hv.unlink hB p name
  rcases unlink_eq hB h.listing hc p name with
    ⟨es, st, hes, hdots, hsome, hrun, hlist⟩ | ⟨err, st, hwhy, hrun, hlist⟩
  · rw [hrun] at hv'
    refine .inl ⟨hdots, st, hrun, ⟨f, hv', hin, hnext⟩, ?_⟩
    rw [Tree.unlink, hes]
    exact hlist
  · rw [hrun] at hv'
    exact .inr ⟨hwhy, err, st, hrun, ⟨f, hv', hin, hnext⟩, hlist⟩

theorem wp_deleteFile_shows (h : L.Shows s t) {i : UInt64} {m : InodeMeta}
    (hm : t.inodes[i]? = some m) :
    wp L.growthFs (deleteFile i) (fun r s' => r = .ok () ∧ L.Shows s' (t.removeInode i)) s := by
  obtain ⟨f, hv, hin, hnext⟩ := h.files
  intro hc
  obtain ⟨hr, hv'⟩ := wp_deleteFile hv (i := i) (m := m) (by rw [hin, hm]) hc
  obtain ⟨⟨hle, -⟩, hdirs⟩ := (growing_deleteFile (g := L.fixedDirs) i).le_run s
  refine ⟨hr, ⟨⟨_, hv', ?_, hnext⟩, h.listing.frame hle hdirs⟩⟩
  show f.core.inodes.erase i = t.inodes.erase i
  rw [hin]

theorem Tree.modifyInode_eq {t : Tree} {f : Files} (hin : f.core.inodes = t.inodes)
    (hnext : f.core.nextIno = t.nextIno) (i : UInt64) (change : InodeMeta → InodeMeta) :
    (f.core.modifyInode i change).inodes = (t.modifyInode i change).inodes ∧
      (f.core.modifyInode i change).nextIno = (t.modifyInode i change).nextIno ∧
      (t.modifyInode i change).dirs = t.dirs := by
  unfold Contents.modifyInode Tree.modifyInode
  rw [hin]
  cases t.inodes[i]? with
  | none => exact ⟨hin, hnext, rfl⟩
  | some m => exact ⟨rfl, hnext, rfl⟩

theorem wp_editInode_shows (hB : L.Reliable) (h : L.Shows s t) (errno : MetaError → Errno)
    (i : UInt64) (change : InodeMeta → InodeMeta) (hchange : ∀ m, (change m).ino = m.ino) :
    wp L.growthFs (editInode errno i change)
      (fun r s' => r = (t.inodes[i]?).elim (.error (.err (errno (.notFound i)))) (fun _ => .ok ()) ∧
        L.Shows s' (t.modifyInode i change)) s := by
  obtain ⟨f, hv, hin, hnext⟩ := h.files
  intro hc
  obtain ⟨hr, hv'⟩ := wp_editInode hB hv errno i change hchange hc
  obtain ⟨⟨hle, -⟩, hdirs⟩ := (growing_editInode (g := L.fixedDirs) errno i change).le_run s
  obtain ⟨hin', hnext', hdirs'⟩ := Tree.modifyInode_eq hin hnext i change
  rw [hin] at hr
  refine ⟨hr, ⟨_, hv', hin', hnext'⟩, ?_⟩
  rw [hdirs']
  exact h.listing.frame hle hdirs

theorem Tree.removeInode_addInode (hnone : t.inodes[t.nextIno]? = none) (m : InodeMeta) :
    (t.addInode m).removeInode t.nextIno = t.burnIno := by
  simp only [Tree.addInode, Tree.removeInode, Tree.burnIno, erase_insert_self,
    erase_of_getElem?_eq_none _ hnone]

theorem Blockset.Laws.Shows.fresh (h : L.Shows s t) : t.inodes[t.nextIno]? = none := by
  cases hm : t.inodes[t.nextIno]? with
  | none => rfl
  | some m => exact absurd (h.ino hm).2 (UInt64.lt_irrefl _)

/-- A node with its name, or a number that is used up. -/
theorem wp_createNode_cases (hB : L.Reliable) (h : L.Shows s t) {name : Str}
    (hlen : name.bytes.length < 2 ^ 32) (hsmall : t.Small) (p : UInt64) (m : InodeMeta) :
    wp L.growthFs (createNode p name m)
      (fun r s' => r ≠ .error .panic → t.nextIno ≠ u64Max ∧
        (r = .ok t.nextIno ∧ t.Free L.key p name ∧
            L.Shows s' ((t.addInode m).link (L.key name) p name t.nextIno) ∨
          ∃ e, r = .error (.err e) ∧ t.Unplaced L.key p name e ∧ L.Shows s' t.burnIno)) s := by
  unfold createNode
  rcases h.createInode hB m with ⟨hmax, st, hcreate, h₁⟩ | hpanic
  · refine wp_bind_of_eq (callStore_ok hcreate) (wp_of_good fun hc => ?_)
    have hsmall' : (t.addInode m).Small := hsmall
    rcases h₁.link hB hc hlen hsmall' p t.nextIno with
      ⟨hfree, st₂, hlink, h₂⟩ | ⟨err, st₂, hlink, h₂, -, hwhy⟩
    · have hatt := attempt_onStore_eq (s := { s with store := st }) (r := .ok ()) hlink
      refine wp_bind_of_eq hatt (wp_bind_of_eq rfl (wp_pure fun _ _ => ?_))
      exact ⟨hmax, .inl ⟨rfl, ⟨hfree.proper, hfree.dir, hfree.entry⟩, h₂⟩⟩
    · have hatt := attempt_onStore_eq (s := { s with store := st }) (r := .error err) hlink
      refine wp_bind_of_eq hatt (wp_of_good fun hc₂ => ?_)
      have hnew : (t.addInode m).inodes[t.nextIno]? = some { m with ino := t.nextIno } := by
        simp [Tree.addInode]
      obtain ⟨st₃, hdel, h₃⟩ := h₂.deleteInode hnew
      rw [Tree.removeInode_addInode h.fresh] at h₃
      have hundo : undoCreate t.nextIno (.error err) { s with store := st₂ } =
          (.error (.err (metaErrorToErrno err)), { s with store := st₃ }) := by
        have hatt := attempt_onStore_eq (s := { s with store := st₂ }) (r := .ok ()) hdel
        rw [undoCreate, Prog.bind_ok hatt]
        rfl
      exact wp_of_eq (Prog.bind_error hundo) fun _ _ => ⟨hmax, .inr ⟨_, rfl, hwhy hc₂, h₃⟩⟩
  · have hrun : callStore metaErrorToErrno (createInode m) s = _ := callStore_error hpanic
    exact wp_of_eq (Prog.bind_error hrun) fun _ hne => absurd rfl hne

theorem isDir_fileMode (uid gid mode umask : UInt32) :
    ¬ (InodeMeta.newFile 0 uid gid (fileMode mode umask)).isDir := by
  have htype := type_or_permissions S_IFREG (mode &&& ~~~umask)
  unfold InodeMeta.isDir InodeMeta.newFile fileMode
  have hdir : S_IFDIR = S_IFMT &&& S_IFDIR := by decide
  rw [hdir, ← UInt32.and_assoc, htype]
  decide

theorem wp_testCreate_answers (hB : L.Reliable) (h : L.Shows s t) {name : Str}
    (hlen : name.bytes.length < 2 ^ 32) (hsmall : t.Small) (p : UInt64)
    (mode umask uid gid : UInt32) :
    wp L.growthFs (testCreate p name mode umask uid gid)
      (L.Answers (.create p name mode umask uid gid) t fun r => some r.1) s := by
  unfold testCreate
  refine wp_bind ((wp_createNode_cases hB h hlen hsmall p _).mono ?_)
  rintro r s₁ - hpost
  cases r with
  | error e =>
      intro hne
      obtain ⟨hmax, ⟨hr, -, -⟩ | ⟨e', hr, hwhy, h₁⟩⟩ :=
        hpost (fun he => hne (by rw [Except.error.inj he]))
      · cases hr
      · obtain rfl := Except.error.inj hr
        exact ⟨_, .nodeUnplaced rfl hmax hwhy, h₁⟩
  | ok i =>
      obtain ⟨hmax, ⟨hr, hfree, h₁⟩ | ⟨e, hr, -⟩⟩ := hpost nofun
      · obtain rfl := Except.ok.inj hr
        obtain ⟨f, hv, hin, hnext⟩ := h₁.files
        by_cases hfh : f.nextFh = u64Max
        · have hrun := insertHandle_panic (hv.nextFh.trans hfh) t.nextIno
          exact wp_of_eq (Prog.bind_error hrun) fun _ hne => absurd rfl hne
        · have hlt : t.nextIno < f.core.nextIno := by
            rw [hnext]
            exact lt_add_one_of_ne_u64Max hmax
          obtain ⟨s₂, hins, hv₂⟩ := insertHandle_eq hv hfh hlt
          obtain ⟨⟨hle, -⟩, hdirs⟩ := (growing_insertHandle (g := L.fixedDirs) t.nextIno).le_run s₁
          rw [hins] at hle hdirs
          refine wp_bind_of_eq hins (wp_pure fun _ _ =>
            ⟨_, .node rfl hmax hfree, ⟨_, hv₂, hin, hnext⟩, ?_⟩)
          exact h₁.listing.frame hle hdirs
      · cases hr

theorem wp_testMknod_answers (hB : L.Reliable) (h : L.Shows s t) {name : Str}
    (hlen : name.bytes.length < 2 ^ 32) (hsmall : t.Small) (p : UInt64)
    (mode uid gid umask : UInt32) :
    wp L.growthFs (testMknod p name mode uid gid umask)
      (L.Answers (.mknod p name mode uid gid umask) t some) s := by
  unfold testMknod
  by_cases hmode : mode &&& S_IFMT = S_IFREG ∨ mode &&& S_IFMT = 0
  · refine wp_congr (Prog.ensure_bind_of hmode _ _ _) ?_
    refine (wp_createNode_cases hB h hlen hsmall p _).mono ?_
    rintro r s₁ - hpost hne
    obtain ⟨hmax, ⟨rfl, hfree, h₁⟩ | ⟨e, rfl, hwhy, h₁⟩⟩ := hpost hne
    · exact ⟨_, .node (if_pos hmode) hmax hfree, h₁⟩
    · exact ⟨_, .nodeUnplaced (if_pos hmode) hmax hwhy, h₁⟩
  · exact wp_of_eq (Prog.ensure_bind_of_not hmode _ _ _) fun _ _ => ⟨t, .nodeSpecial hmode, h⟩

theorem Tree.modifyInode_self {i : UInt64} {m : InodeMeta} (hm : t.inodes[i]? = some m)
    {change : InodeMeta → InodeMeta} (hchange : change m = m) : t.modifyInode i change = t := by
  have hinsert : t.inodes.insert i m = t.inodes := by
    apply Std.ExtTreeMap.ext_getElem?
    intro j
    rw [getElem?_insert_ite]
    split_ifs with hj
    · rw [hj, hm]
    · rfl
  simp only [Tree.modifyInode, hm, hchange, hinsert]

theorem Tree.modifyInode_put {i : UInt64} {m : InodeMeta} (hm : t.inodes[i]? = some m)
    {change : InodeMeta → InodeMeta} (hino : (change m).ino = i) :
    t.modifyInode i change = t.putInode (change m) := by
  simp only [Tree.modifyInode, hm, Tree.putInode, hino]

/-- A manifest with one digest leaves the tree alone. -/
theorem Blockset.Laws.Shows.setManifest (hB : L.Reliable) (h : L.Shows s t) {i : UInt64}
    (hi : i < t.nextIno) {b : Bytes} (hb : b ∈ L.stored s.store.io) (hlen : b.length ≤ isizeMax) :
    ∃ st, SliceFs.setManifest i [L.digest b] s.store = (.ok (), st) ∧
      L.Shows { s with store := st } t := by
  obtain ⟨f, hv, hin, hnext⟩ := h.files
  obtain ⟨st, hset, hcore⟩ := setManifest_eq hB hv.core (i := i) (b := some b) (by rwa [hnext])
    (fun x hx => by
      obtain rfl := Option.some.inj hx
      exact ⟨hb, hlen⟩)
  have hs := h.store hv hset hcore (UInt64.le_refl _)
  refine ⟨st, hset, ?_⟩
  simp only [Contents.setContent, hin, hnext] at hs
  exact hs

theorem Blockset.Laws.Shows.incrementRefcount (h : L.Shows s t) (d : Digest224) :
    ∃ st, SliceFs.incrementRefcount d s.store = ((.ok (), st) : Except (Fault Errno) _ × _) ∧
      L.Shows { s with store := st } t := by
  obtain ⟨f, hv, hin, hnext⟩ := h.files
  obtain ⟨st, hinc, hcore, -⟩ := incrementRefcount_eq (ε := Errno) hv.core d
  obtain ⟨⟨hle, -⟩, hdirs⟩ :=
    (growing_incrementRefcount (g := L.fixedDirs) (ε := Errno) d).le_run s.store
  rw [hinc] at hle hdirs
  exact ⟨st, hinc, ⟨⟨_, hv.store hle hcore (UInt64.le_refl _), hin, hnext⟩,
    h.listing.frame hle hdirs⟩⟩

theorem wp_simulateSymlink_answers (hB : L.Reliable) (h : L.Shows s t) {name : Str}
    (hlen : name.bytes.length < 2 ^ 32) (hsmall : t.Small) (p : UInt64) (target : Str)
    (uid gid : UInt32) :
    wp L.growthFs (simulateSymlink p name target uid gid)
      (L.Answers (.symlink p name target uid gid) t some) s := by
  unfold simulateSymlink
  have hnode : (FsOp.symlink p name target uid gid).node =
      some (p, name, symlinkInode uid gid (UInt64.ofNat target.bytes.length)) := rfl
  generalize UInt64.ofNat target.bytes.length = size at hnode ⊢
  refine wp_bind ((wp_createNode_cases hB h hlen hsmall p _).mono ?_)
  rintro r s₁ - hpost
  cases r with
  | error e =>
      intro hne
      obtain ⟨hmax, ⟨hr, -, -⟩ | ⟨e', hr, hwhy, h₁⟩⟩ :=
        hpost (fun he => hne (by rw [Except.error.inj he]))
      · cases hr
      · obtain rfl := Except.error.inj hr
        exact ⟨_, .nodeUnplaced hnode hmax hwhy, h₁⟩
  | ok i =>
      obtain ⟨hmax, ⟨hr, hfree, h₁⟩ | ⟨e, hr, -⟩⟩ := hpost nofun
      · obtain rfl := Except.ok.inj hr
        obtain ⟨io, hpush, hle, hstored⟩ :=
          onIo_pushAll_eq (L := L) (ε := Errno) hB target.bytes s₁.store
        refine wp_bind_of_eq (onStore_eq hpush) ?_
        obtain ⟨st₂, hset, h₂⟩ := (h₁.grow hle).setManifest hB (i := t.nextIno)
          (lt_add_one_of_ne_u64Max hmax) hstored target.length_le
        refine wp_bind_of_eq (callStore_ok hset) ?_
        obtain ⟨st₃, hinc, h₃⟩ := h₂.incrementRefcount (L.digest target.bytes)
        refine wp_bind_of_eq (onStore_eq hinc) (wp_bind ?_)
        refine (wp_editInode_shows hB h₃ eio t.nextIno (fun m => { m with size := size })
          (fun _ => rfl)).mono ?_
        rintro r s₄ - ⟨hr, h₄⟩
        have hnew : ((t.addInode (symlinkInode uid gid size)).link (L.key name) p name
            t.nextIno).inodes[t.nextIno]? = some { symlinkInode uid gid size with ino :=
            t.nextIno } := by
          simp [Tree.addInode, Tree.link]
        -- the size was recorded when the inode was made
        rw [Tree.modifyInode_self hnew rfl] at h₄
        rw [hnew] at hr
        subst hr
        exact wp_pure fun _ _ => ⟨_, .node hnode hmax hfree, h₄⟩
      · cases hr

theorem wp_displace_shows (hB : L.Reliable) (h : L.Shows s t) {i : UInt64} {m : InodeMeta}
    (hm : t.inodes[i]? = some m) :
    wp L.growthFs (displace i m) (fun r s' => r = .ok () ∧ L.Shows s' (t.displace i m)) s := by
  unfold displace Tree.displace
  by_cases hn : m.nlinks ≤ 1
  · rw [if_pos hn, if_pos hn]
    by_cases hdir : m.isDir
    · rw [if_pos hdir, if_pos hdir]
      exact wp_pure fun _ => ⟨rfl, h⟩
    · rw [if_neg hdir, if_neg hdir]
      exact wp_deleteFile_shows h hm
  · rw [if_neg hn, if_neg hn]
    obtain ⟨st, hupd, h₁⟩ := h.updateInode hB (m := m) (n := { m with nlinks := m.nlinks - 1 })
      (by rw [← hm, ← (h.ino hm).1])
    have hatt := attempt_onStore_eq (s := s) (r := .ok ()) hupd
    exact wp_bind_of_eq hatt (wp_pure fun _ => ⟨rfl, h₁⟩)

/-- The requests that remove a name look up its inode first. -/
theorem wp_target (hB : L.Reliable) (h : L.Shows s t) (p : UInt64) (name : Str)
    {rest : UInt64 → InodeMeta → FsM B α} [∀ i m, Growing L.growthFs (rest i m)]
    {Q : Except (Fault Errno) α → Fs B → Prop}
    (hnone : ∀ s₁ e, L.Shows s₁ t → t.Absent L.key p name e → Q (.error (.err e)) s₁)
    (hsome : ∀ s₁ i m, L.Shows s₁ t → L.NoCollision s₁.store.io → t.Names L.key p name i →
      t.inodes[i]? = some m → wp L.growthFs (rest i m) Q s₁) :
    wp L.growthFs (do
      let ino ← callStore metaErrorToErrno (lookup p name)
      let inode ← callStore metaErrorToErrno (getInode ino)
      rest ino inode) Q s := by
  refine wp_of_good fun hc => ?_
  obtain ⟨io, h₁, ⟨i, hname, hlook⟩ | ⟨hfree, err, herr, hlook⟩⟩ := h.lookup hB hc p name
  · refine wp_bind_of_eq (callStore_ok hlook) (wp_of_good fun hc₁ => ?_)
    have hget := h₁.getInode_eq hc₁ metaErrorToErrno i
    cases hm : t.inodes[i]? with
    | none =>
        rw [hm] at hget
        exact wp_of_eq (Prog.bind_error hget) fun _ =>
          hnone _ _ h₁ (.inr ⟨rfl, .inr ⟨i, hname hc₁, hm⟩⟩)
    | some m =>
        rw [hm] at hget
        exact wp_bind_of_eq hget (hsome _ i m h₁ hc₁ (hname hc₁) hm)
  · refine wp_of_eq (Prog.bind_error (callStore_error hlook)) fun _ => hnone _ _ h₁ ?_
    by_cases hdir : t.dirs[p]? = none
    · exact .inl hdir
    · obtain rfl := herr hdir
      exact .inr ⟨rfl, .inl hfree⟩

/-- A name that is in use is removed, unless it is reserved. -/
theorem Blockset.Laws.Shows.unlink_named (hB : L.Reliable) (h : L.Shows s t)
    (hc : L.NoCollision s.store.io) {p i : UInt64} {name : Str} (hname : t.Names L.key p name i) :
    (¬ name.IsDots ∧ ∃ st, SliceFs.unlink p name s.store = (.ok (), st) ∧
      L.Shows { s with store := st } (t.unlink (L.key name) p)) ∨
    name.IsDots ∧ ∃ err st, SliceFs.unlink p name s.store = (.error (.err err), st) ∧
      L.Shows { s with store := st } t := by
  rcases h.unlink hB hc p name with hok | ⟨hbad, hfail⟩
  · exact .inl hok
  · refine .inr ⟨hbad.resolve_right fun hgone => ?_, hfail⟩
    obtain ⟨e, he, -, -⟩ := hname
    rw [he] at hgone
    cases hgone

theorem wp_simulateUnlink_answers (hB : L.Reliable) (h : L.Shows s t) (p : UInt64) (name : Str) :
    wp L.growthFs (simulateUnlink p name) (L.Answers (.unlink p name) t fun _ => none) s := by
  unfold simulateUnlink
  refine wp_target hB h p name (fun s₁ e h₁ hnone _ => ⟨t, .absent rfl hnone, h₁⟩) ?_
  intro s₁ i m h₁ hc₁ hname hm
  by_cases hdir : m.isDir
  · exact wp_of_eq (Prog.ensure_bind_of_not (not_not.mpr hdir) _ _ _) fun _ _ =>
      ⟨t, .unlinkDir hname hm hdir, h₁⟩
  refine wp_congr (Prog.ensure_bind_of hdir _ _ _) ?_
  rcases h₁.unlink_named hB hc₁ hname with ⟨hdots, st, hun, h₂⟩ | ⟨hdots, err, st, hun, h₂⟩
  swap
  · exact wp_of_eq (Prog.bind_error (callStore_error hun)) fun _ _ => ⟨t, .reserved rfl hdots, h₂⟩
  refine wp_bind_of_eq (callStore_ok hun) ?_
  have hanswer := Tree.Answer.unlink hdots hname hm hdir
  unfold Tree.displace at hanswer
  by_cases hn : m.nlinks ≤ 1
  · rw [if_pos hn, if_neg hdir] at hanswer
    rw [if_pos hn]
    refine (wp_deleteFile_shows h₂ hm).mono ?_
    rintro r s₃ - ⟨rfl, h₃⟩ -
    exact ⟨_, hanswer, h₃⟩
  · rw [if_neg hn] at hanswer
    rw [if_neg hn]
    obtain ⟨st₃, hupd, h₃⟩ := h₂.updateInode hB (m := m)
      (n := { m with nlinks := m.nlinks - 1 }) (by rw [← (h.ino hm).1] at hm; exact hm)
    exact wp_of_eq (callStore_ok hupd) fun _ _ => ⟨_, hanswer, h₃⟩

theorem wp_simulateLink_answers (hB : L.Reliable) (h : L.Shows s t) {name : Str}
    (hlen : name.bytes.length < 2 ^ 32) (hsmall : t.Small) (i p : UInt64) (now : Now) :
    wp L.growthFs (simulateLink i p name now) (L.Answers (.link i p name now) t some) s := by
  refine wp_of_good fun hc => ?_
  unfold simulateLink
  have hget := h.getInode_eq hc metaErrorToErrno i
  cases hm : t.inodes[i]? with
  | none =>
      rw [hm] at hget
      exact wp_of_eq (Prog.bind_error hget) fun _ _ => ⟨t, .linkGone hm, h⟩
  | some m =>
      rw [hm] at hget
      refine wp_bind_of_eq hget ?_
      by_cases hdir : m.isDir
      · exact wp_of_eq (Prog.ensure_bind_of_not (not_not.mpr hdir) _ _ _) fun _ _ =>
          ⟨t, .linkDir hm hdir, h⟩
      refine wp_congr (Prog.ensure_bind_of hdir _ _ _) ?_
      rcases h.link hB hc hlen hsmall p i with
        ⟨hfree, st, hlink, h₁⟩ | ⟨err, st, hlink, h₁, -, hwhy⟩
      · refine wp_bind_of_eq (callStore_ok hlink) ?_
        by_cases hn : m.nlinks.toNat + 1 < 2 ^ 32
        · refine wp_congr (Prog.assert_bind_of hn _ _) ?_
          obtain ⟨st₂, hupd, h₂⟩ := h₁.updateInode hB (m := m)
            (n := ({ m with nlinks := m.nlinks + 1 } : InodeMeta).setCtime now)
            (by rw [← (h.ino hm).1] at hm; exact hm)
          exact wp_bind_of_eq (callStore_ok hupd)
            (wp_pure fun _ _ => ⟨_, .link hm hdir hn hfree, h₂⟩)
        · exact wp_of_eq (Prog.assert_bind_of_not hn _ _) fun _ hne => absurd rfl hne
      · exact wp_of_eq (Prog.bind_error (callStore_error hlink)) fun hc₁ _ =>
          ⟨t, .linkUnplaced hm hdir (hwhy hc₁), h₁⟩

theorem wp_dropBacklink_shows (hB : L.Reliable) (h : L.Shows s t) (p : UInt64) :
    wp L.growthFs (dropBacklink p)
      (fun r s' => (t.inodes[p]? ≠ none → r = .ok ()) ∧ L.Shows s' (t.dropBacklink p)) s := by
  refine wp_of_good fun hc => ?_
  unfold dropBacklink Tree.dropBacklink
  have hget := h.getInode_eq hc metaErrorToErrno p
  cases hm : t.inodes[p]? with
  | none =>
      rw [hm] at hget
      refine wp_of_eq (Prog.bind_error hget) fun _ => ⟨fun hne => absurd rfl hne, ?_⟩
      rw [Tree.modifyInode, hm]
      exact h
  | some m =>
      rw [hm] at hget
      refine wp_bind_of_eq hget ?_
      by_cases hn : 0 < m.nlinks
      · rw [if_pos hn]
        have hdrop : m.dropLink = { m with nlinks := m.nlinks - 1 } := if_pos hn
        have hino := (h.ino hm).1
        obtain ⟨st, hupd, h₁⟩ := h.updateInode hB (m := m) (n := { m with nlinks := m.nlinks - 1 })
          (by rw [← hino] at hm; exact hm)
        refine wp_of_eq (callStore_ok hupd) fun _ => ⟨fun _ => rfl, ?_⟩
        rw [Tree.modifyInode_put hm (by rw [hdrop]; exact hino), hdrop]
        exact h₁
      · have hdrop : m.dropLink = m := if_neg hn
        rw [if_neg hn, Tree.modifyInode_self hm hdrop]
        exact wp_pure fun _ => ⟨fun _ => rfl, h⟩

theorem wp_simulateRmdir_answers (hB : L.Reliable) (h : L.Shows s t) (p : UInt64) (name : Str) :
    wp L.growthFs (simulateRmdir p name) (L.Answers (.rmdir p name) t fun _ => none) s := by
  unfold simulateRmdir
  refine wp_target hB h p name (fun s₁ e h₁ hnone _ => ⟨t, .absent rfl hnone, h₁⟩) ?_
  intro s₁ i m h₁ hc₁ hname hm
  by_cases hdir : m.isDir
  swap
  · exact wp_of_eq (Prog.ensure_bind_of_not hdir _ _ _) fun _ _ =>
      ⟨t, .rmdirFile hname hm (.inl hdir), h₁⟩
  refine wp_congr (Prog.ensure_bind_of hdir _ _ _) ?_
  have hlist := listDirectory_eq h₁.listing hc₁ i
  cases hes : t.dirs[i]? with
  | none =>
      rw [hes] at hlist
      exact wp_of_eq (Prog.bind_error (callStore_error hlist)) fun _ _ =>
        ⟨t, .rmdirFile hname hm (.inr hes), h₁⟩
  | some es =>
      rw [hes] at hlist
      refine wp_bind_of_eq (callStore_ok hlist) ?_
      by_cases hempty : ∀ e ∈ es.toList.map (fun e => (⟨e.2.name, e.2.ino⟩ : DirEntry)),
          e.name = Str.dot ∨ e.name = Str.dotDot
      swap
      · obtain ⟨⟨k, e⟩, hmem, hdots⟩ : ∃ e ∈ es.toList, ¬ e.2.name.IsDots := by
          simpa [Str.IsDots] using hempty
        exact wp_of_eq (Prog.ensure_bind_of_not hempty _ _ _) fun _ _ => ⟨t, .rmdirFull hname hm
          hdir hes (Std.ExtTreeMap.mem_toList_iff_getElem?_eq_some.mp hmem) hdots, h₁⟩
      refine wp_congr (Prog.ensure_bind_of hempty _ _ _) ?_
      rcases h₁.unlink_named hB hc₁ hname with ⟨hdots, st, hun, h₂⟩ | ⟨hdots, err, st, hun, h₂⟩
      swap
      · exact wp_of_eq (Prog.bind_error (callStore_error hun)) fun _ _ =>
          ⟨t, .reserved rfl hdots, h₂⟩
      refine wp_bind_of_eq (callStore_ok hun) ?_
      obtain ⟨st₃, hdel, h₃⟩ := h₂.deleteInode hm
      refine wp_bind_of_eq (callStore_ok hdel) ((wp_dropBacklink_shows hB h₃ p).mono ?_)
      rintro r s₄ - ⟨hr, h₄⟩ -
      refine ⟨_, .rmdir hdots hname hm hdir hes (fun k e he => ?_) (fun hp => ?_), h₄⟩
      · exact hempty _ (List.mem_map.mpr
          ⟨(k, e), Std.ExtTreeMap.mem_toList_iff_getElem?_eq_some.mpr he, rfl⟩)
      · rw [hr hp]
        rfl

theorem Tree.dirs_displace (t : Tree) (i : UInt64) (m : InodeMeta) :
    (t.displace i m).dirs = t.dirs := by
  unfold Tree.displace
  split_ifs <;> rfl

theorem Tree.entry_displace (t : Tree) (i : UInt64) (m : InodeMeta) :
    (t.displace i m).entry = t.entry := by
  unfold Tree.entry
  rw [Tree.dirs_displace]

theorem Tree.Small.unlink (h : t.Small) (k : Digest224) (p : UInt64) : (t.unlink k p).Small := by
  intro q es hes
  rw [Tree.unlink, getElem?_insert_ite] at hes
  split_ifs at hes with hq
  · obtain rfl := Option.some.inj hes
    refine Nat.lt_of_le_of_lt (Nat.succ_le_succ Std.ExtTreeMap.size_erase_le) ?_
    cases hd : t.dirs[p]? with
    | none => decide
    | some es => exact h p es hd
  · exact h q es hes

theorem Tree.Cleared.small {q : UInt64} {name : Str} {t' : Tree} (h : t.Cleared L.key q name t')
    (hsmall : t.Small) : t'.Small := by
  cases h with
  | none => exact hsmall
  | some =>
      unfold Tree.Small
      rw [Tree.dirs_displace]
      exact hsmall.unlink _ _

/-- Only the cleared name loses its entry. -/
theorem Tree.Cleared.entry_of_ne {q p : UInt64} {name : Str} {k : Digest224} {t' : Tree}
    (h : t.Cleared L.key q name t') (hne : ¬ (p = q ∧ k = L.key name)) :
    t'.entry p k = t.entry p k := by
  cases h with
  | none => rfl
  | some => rw [Tree.entry_displace, Tree.entry_unlink, if_neg hne]

/-- What a rename replaces is removed, unless its inode is gone. -/
theorem wp_removeTarget_shows (hB : L.Reliable) (h : L.Shows s t) {q : UInt64} {name : Str}
    {target : Option UInt64} (hnone : target = none → t.entry q (L.key name) = none)
    (hsome : ∀ i ∈ target, t.Names L.key q name i) :
    wp L.growthFs (removeTarget q name target)
      (fun r s' => (r = .ok () ∧ ∃ t', t.Cleared L.key q name t' ∧ L.Shows s' t' ∧
          (target ≠ none → t'.Free L.key q name)) ∨
        ∃ e, r = .error (.err e) ∧ L.Shows s' t ∧
          (name.IsDots ∨ e = .enoent ∧ ∃ i ∈ target, t.inodes[i]? = none)) s := by
  cases target with
  | none => exact wp_pure fun _ => .inl ⟨rfl, t, .none (hnone rfl), h, fun h => absurd rfl h⟩
  | some i =>
      refine wp_of_good fun hc => ?_
      have hname := hsome i rfl
      have hget := h.getInode_eq hc metaErrorToErrno i
      unfold removeTarget
      cases hm : t.inodes[i]? with
      | none =>
          rw [hm] at hget
          exact wp_of_eq (Prog.bind_error hget) fun _ =>
            .inr ⟨.enoent, rfl, h, .inr ⟨rfl, i, rfl, hm⟩⟩
      | some m =>
          rw [hm] at hget
          refine wp_bind_of_eq hget ?_
          rcases h.unlink hB hc q name with ⟨hdots, st, hun, h₁⟩ | ⟨hbad, err, st, hun, h₁⟩
          · refine wp_bind_of_eq (callStore_ok hun) ((wp_displace_shows hB h₁ hm).mono ?_)
            rintro r s₂ - ⟨rfl, h₂⟩
            refine .inl ⟨rfl, _, .some hname hm, h₂, fun _ => ⟨hdots, ?_, ?_⟩⟩
            · rw [Tree.dirs_displace]
              simp [Tree.unlink]
            · rw [Tree.entry_displace, Tree.entry_unlink, if_pos ⟨rfl, rfl⟩]
          · refine wp_of_eq (Prog.bind_error (callStore_error hun)) fun _ =>
              .inr ⟨_, rfl, h₁, .inl (hbad.resolve_right fun hgone => ?_)⟩
            obtain ⟨e, he, -, -⟩ := hname
            rw [he] at hgone
            cases hgone

set_option synthInstance.maxSize 400 in
/-- A rename is refused, or makes all of its changes; then it fails only when the inode it
moved is gone. -/
theorem wp_simulateRename_answers (hB : L.Reliable) (h : L.Shows s t) {name newName : Str}
    (hdots : ¬ name.IsDots) (hlen : newName.bytes.length < 2 ^ 32) (hsmall : t.Small)
    (p q : UInt64) (flags : UInt32) (now : Now) :
    wp L.growthFs (simulateRename p name q newName flags now)
      (L.Answers (.rename p name q newName flags now) t fun _ => none) s := by
  unfold simulateRename
  by_cases hexch : flags &&& 2 = 0
  swap
  · exact wp_of_eq (Prog.ensure_bind_of_not hexch _ _ _) fun _ _ =>
      ⟨t, .renameRefused (.exchange hexch), h⟩
  refine wp_congr (Prog.ensure_bind_of hexch _ _ _) (wp_of_good fun hc => ?_)
  obtain ⟨io, h₁, ⟨i, hname, hlook⟩ | ⟨hgone, err, -, hlook⟩⟩ := h.lookup hB hc p name
  swap
  · exact wp_of_eq (Prog.bind_error (callStore_error hlook)) fun _ _ =>
      ⟨t, .renameRefused (.source hexch hgone), h₁⟩
  refine wp_bind_of_eq (callStore_ok hlook) (wp_of_good fun hc₁ => ?_)
  -- the target as the rest of the call sees it
  obtain ⟨io₂, h₂, target, hatt, hnone, hsome⟩ : ∃ io₂,
      L.Shows { s with store := { s.store with io := io₂ } } t ∧ ∃ target : Except MetaError UInt64,
      Prog.attempt (onStore (lookup q newName)) { s with store := { s.store with io := io } } =
        ((.ok target, { s with store := { s.store with io := io₂ } }) :
          Except (Fault Errno) _ × _) ∧
      (target.toOption = none → t.entry q (L.key newName) = none) ∧
      ∀ j ∈ target.toOption, L.NoCollision io₂ → t.Names L.key q newName j := by
    obtain ⟨io₂, h₂, ⟨j, hj, hlook₂⟩ | ⟨hnone, err, -, hlook₂⟩⟩ := h₁.lookup hB hc₁ q newName
    · refine ⟨io₂, h₂, .ok j, attempt_onStore_eq (r := .ok j) hlook₂, nofun, ?_⟩
      rintro _ hk hio
      obtain rfl := Option.some.inj hk
      exact hj hio
    · exact ⟨io₂, h₂, .error err, attempt_onStore_eq (r := .error err) hlook₂, fun _ => hnone,
        nofun⟩
  refine wp_bind_of_eq hatt (wp_of_good fun hc₂ => ?_)
  by_cases hex : flags &&& 1 = 0 ∨ target.toOption = none
  swap
  · obtain ⟨hflag, htarget⟩ := not_or.mp hex
    obtain ⟨j, hj⟩ := Option.ne_none_iff_exists'.mp htarget
    exact wp_of_eq (Prog.ensure_bind_of_not hex _ _ _) fun _ _ =>
      ⟨t, .renameRefused (.taken hexch hflag (hname hc₁) (hsome j hj hc₂)), h₂⟩
  refine wp_congr (Prog.ensure_bind_of hex _ _ _) (wp_bind ?_)
  refine (wp_removeTarget_shows hB h₂ hnone fun j hj => hsome j hj hc₂).mono ?_
  rintro r s₃ - (⟨rfl, t', hclear, h₃, hfree⟩ | ⟨e, rfl, h₃, hbad | ⟨rfl, j, hj, hgone⟩⟩)
  · refine wp_of_good fun hc₃ => ?_
    rcases h₃.link hB hc₃ hlen (hclear.small hsmall) q i with
      ⟨hfree', st₄, hlink, h₄⟩ | ⟨err, st₄, hlink, h₄, hnot, -⟩
    · refine wp_bind_of_eq (callStore_ok hlink) (wp_of_good fun hc₄ => ?_)
      have hentry : (t'.link (L.key newName) q newName i).entry p (L.key name) ≠ none := by
        rw [Tree.entry_link]
        split_ifs with hsame
        · exact Option.some_ne_none _
        · obtain ⟨e, he, -, -⟩ := hname hc₁
          rw [hclear.entry_of_ne hsame, he]
          exact Option.some_ne_none _
      rcases h₄.unlink hB hc₄ p name with ⟨-, st₅, hun, h₅⟩ | ⟨hbad | hgone, -⟩
      · refine wp_bind_of_eq (callStore_ok hun) ?_
        refine (wp_editInode_shows hB h₅ metaErrorToErrno i (fun m => m.setCtime now)
          (fun _ => rfl)).mono ?_
        rintro r s₆ - ⟨hr, h₆⟩ -
        have hr' : r = (t'.inodes[i]?).elim (.error (.err .enoent)) fun _ => .ok () := hr
        have hreply : r.map (fun _ => none) =
            (t'.inodes[i]?).elim (.error (.err .enoent)) fun _ => (.ok none : Reply) := by
          rw [hr']
          cases t'.inodes[i]? <;> rfl
        refine ⟨_, ?_, h₆⟩
        rw [hreply]
        exact .rename hdots ⟨hexch, hex.imp_right hnone, hname hc₁, hclear, hfree'⟩
      · exact absurd hbad hdots
      · exact absurd hgone hentry
    · -- nothing was displaced: a displaced entry leaves its name free
      have htarget : target.toOption = none := by
        by_contra hne
        exact hnot (hfree hne)
      cases hclear with
      | none hentry =>
          refine wp_of_eq (Prog.bind_error (callStore_error hlink)) fun _ _ =>
            ⟨t, .renameRefused (.place ?_), h₄⟩
          by_contra hplace
          obtain ⟨hproper, hdir⟩ := not_or.mp hplace
          exact hnot ⟨hproper, hdir, hentry⟩
      | some hj hm =>
          obtain ⟨e, he, -, -⟩ := hj
          rw [hnone htarget] at he
          cases he
  · exact fun _ => ⟨t, .renameRefused (.place (.inl hbad)), h₃⟩
  · have hflag : flags &&& 1 = 0 := hex.resolve_right fun hnone => by
      rw [hnone] at hj
      cases hj
    exact fun _ =>
      ⟨t, .renameRefused (.target hexch hflag (hname hc₁) (hsome j hj hc₂) hgone), h₃⟩

/-- A call of the store, with what it does to the store. -/
theorem wp_callStore_of {errno : MetaError → Errno} {m : StoreM B α}
    {Q : Except (Fault Errno) α → Fs B → Prop}
    (h : wp L.growthQuiet m (fun r st => Q (r.mapError (Fault.map errno)) { s with store := st })
      s.store) : wp L.growthFs (callStore errno m) Q s :=
  wp_mapErr (wp_zoom (part_onStore L.growthQuiet) h)

theorem isDir_directoryMode (uid gid mode : UInt32) :
    (InodeMeta.newDirectory 0 uid gid (S_IFDIR ||| (mode &&& 0o7777))).isDir := by
  have htype := type_or_permissions S_IFDIR mode
  have hmask : S_IFDIR = S_IFMT &&& S_IFDIR := by decide
  unfold InodeMeta.isDir InodeMeta.newDirectory
  nth_rewrite 2 [hmask]
  rw [← UInt32.and_assoc, htype]
  decide

theorem wp_simulateMkdir_answers (hB : L.Reliable) (h : L.Shows s t) {name : Str}
    (hlen : name.bytes.length < 2 ^ 32) (hsmall : t.Small) (p : UInt64)
    (mode umask uid gid : UInt32) :
    wp L.growthFs (simulateMkdir p name mode umask uid gid)
      (L.Answers (.mkdir p name mode umask uid gid) t some) s := by
  obtain ⟨f, hv, hin, hnext⟩ := h.files
  have hdir := isDir_directoryMode uid gid (mode &&& ~~~umask)
  refine wp_callStore_of fun hc hpanic => ?_
  generalize hm : InodeMeta.newDirectory 0 uid gid (S_IFDIR ||| (mode &&& ~~~umask &&& 0o7777)) = m
    at hc hpanic hdir ⊢
  have hgrow : Growing L.growthQuiet (createDirectory p name m : StoreM B UInt64) := inferInstance
  have hle := (hgrow.le_run s.store).1
  have hspec := wp_createDirectory_listing hB hv.core h.listing hlen (hsmall p) m hc
  generalize (createDirectory p name m s.store).1 = r at hspec hpanic ⊢
  generalize (createDirectory p name m s.store).2 = st at hspec hle ⊢
  have hburn : f.core.nextIno ≠ u64Max → f.core.nextIno ≤ f.core.burnIno.nextIno :=
    fun hmax => UInt64.le_of_lt (lt_add_one_of_ne_u64Max hmax)
  have hnext' : f.core.burnIno.nextIno = t.burnIno.nextIno := congrArg (· + 1) hnext
  cases hspec with
  | refused hnot hcore hlist =>
      rw [hin] at hnot
      exact ⟨t, .mkdirNowhere hnot, ⟨_, hv.store hle hcore (UInt64.le_refl _), hin, hnext⟩, hlist⟩
  | overflow => exact absurd rfl hpanic
  | reserved hmax hdots hcore hlist =>
      exact ⟨_, .mkdirUnplaced (hnext ▸ hmax) (.inl hdots),
        ⟨_, hv.store hle hcore (hburn hmax), hin, hnext'⟩, hlist⟩
  | taken hmax hes hx hname hcore hlist =>
      refine ⟨_, .mkdirUnplaced (hnext ▸ hmax) (.inr (.inr ⟨rfl, _, _, ?_, hname, rfl⟩)),
        ⟨_, hv.store hle hcore (hburn hmax), hin, hnext'⟩, hlist⟩
      rw [Tree.entry, hes]
      exact hx
  | @made pm es _ hmax hp hpdir hn hes hdots hfree hcore hlist =>
      have hne : p ≠ f.core.nextIno :=
        fun he => UInt64.lt_irrefl _ (he ▸ (hv.core.inode p pm hp).2.2)
      have hfree' : t.Free L.key p name := by
        refine ⟨hdots, by simp [hes], ?_⟩
        rw [Tree.entry, hes]
        exact hfree
      rw [InodeMeta.asDirectory, if_neg hdir] at hcore
      rw [hin] at hp
      have hanswer : t.Answer L.key (.mkdir p name mode umask uid gid) (.ok (some t.nextIno))
          (t.addDirectory (Tree.newDir L.key t.nextIno p) (L.key name) p name m) :=
        hm ▸ .mkdir (hnext ▸ hmax) hp hpdir hn hfree'
      obtain ⟨hin', hnext'', hdirs⟩ := Tree.modifyInode_eq
        (f := { f with core := f.core.addInode m })
        (t := (t.insertDir (Tree.newDir L.key t.nextIno p) m).link (L.key name) p name t.nextIno)
        (by simp only [Contents.addInode, Tree.insertDir, Tree.addInode, Tree.link, hin, hnext])
        hnext' p fun pm => { pm with nlinks := pm.nlinks + 1 }
      refine ⟨_, ?_, ⟨_, hv.store hle hcore ?_, hin', hnext''⟩, ?_⟩
      · rw [hnext]
        exact hanswer
      · rw [Contents.nextIno_modifyInode]
        exact hburn hmax
      · rw [hnext] at hne hlist
        rw [hdirs]
        simp only [Tree.link, Tree.insertDir, getElem?_insert_ite, if_neg hne, hes,
          Option.getD_some]
        exact hlist

/-- What a request answers. -/
def FsOp.reply (s : Fs B) : FsOp → Reply
  | .create parent name mode umask uid gid =>
      (testCreate parent name mode umask uid gid s).1.map fun r => some r.1
  | .mknod parent name mode uid gid umask => (testMknod parent name mode uid gid umask s).1.map some
  | .mkdir parent name mode umask uid gid =>
      (simulateMkdir parent name mode umask uid gid s).1.map some
  | .symlink parent name target uid gid => (simulateSymlink parent name target uid gid s).1.map some
  | .link ino newParent newName now => (simulateLink ino newParent newName now s).1.map some
  | .unlink parent name => (simulateUnlink parent name s).1.map fun _ => none
  | .rmdir parent name => (simulateRmdir parent name s).1.map fun _ => none
  | .rename parent name newParent newName flags now =>
      (simulateRename parent name newParent newName flags now s).1.map fun _ => none
  | _ => .ok none

/-- The answer to a request on names is one of its tree. -/
theorem FsOp.answer (hB : L.Reliable) (h : L.Shows s t) (hsmall : t.Small) {op : FsOp}
    (hon : op.OnNames) (hnames : ∀ n ∈ op.names, ¬ n.IsDots ∧ n.bytes.length < 2 ^ 32) {s' : Fs B}
    (hrun : op.run s = some s') (hc : L.NoCollision s'.store.io) :
    ∃ t', t.Answer L.key op (op.reply s) t' ∧ L.Shows s' t' := by
  have key : ∀ {α : Type} {m : FsM B α} {inode : α → Option UInt64},
      wp L.growthFs m (L.Answers op t inode) s → Prog.exec m s = some s' →
      ∃ t', t.Answer L.key op ((m s).1.map inode) t' ∧ L.Shows s' t' := by
    intro α m inode hwp hexec
    have hs := Prog.snd_of_exec hexec
    unfold wp at hwp
    rw [hs] at hwp
    refine hwp hc fun hpanic => ?_
    rw [Prog.exec_of_panic (Prod.ext hpanic rfl)] at hexec
    cases hexec
  cases op with
  | create p name mode umask uid gid =>
      have hlen := (hnames name List.mem_cons_self).2
      exact key (wp_testCreate_answers hB h hlen hsmall p mode umask uid gid) hrun
  | mknod p name mode uid gid umask =>
      have hlen := (hnames name List.mem_cons_self).2
      exact key (wp_testMknod_answers hB h hlen hsmall p mode uid gid umask) hrun
  | mkdir p name mode umask uid gid =>
      have hlen := (hnames name List.mem_cons_self).2
      exact key (wp_simulateMkdir_answers hB h hlen hsmall p mode umask uid gid) hrun
  | symlink p name target uid gid =>
      have hlen := (hnames name List.mem_cons_self).2
      exact key (wp_simulateSymlink_answers hB h hlen hsmall p target uid gid) hrun
  | link i p name now =>
      have hlen := (hnames name List.mem_cons_self).2
      exact key (wp_simulateLink_answers hB h hlen hsmall i p now) hrun
  | unlink p name => exact key (wp_simulateUnlink_answers hB h p name) hrun
  | rmdir p name => exact key (wp_simulateRmdir_answers hB h p name) hrun
  | rename p name q newName flags now =>
      have hdots := (hnames name List.mem_cons_self).1
      have hlen := (hnames newName (List.mem_cons_of_mem _ List.mem_cons_self)).2
      exact key (wp_simulateRename_answers hB h hdots hlen hsmall p q flags now) hrun
  | _ => exact hon.elim

theorem isDir_symlinkInode (uid gid : UInt32) (size : UInt64) :
    ¬ (symlinkInode uid gid size).isDir := by
  show ¬ (S_IFLNK ||| 0o777) &&& S_IFDIR ≠ 0
  decide

/-- A node that a request makes is a file with one name. -/
theorem FsOp.of_node {op : FsOp} {p : UInt64} {name : Str} {m : InodeMeta}
    (h : op.node = some (p, name, m)) : op.makes = some (p, name) ∧ m.nlinks = 1 ∧ ¬ m.isDir := by
  cases op with
  | create _ _ mode umask uid gid =>
      cases h
      exact ⟨rfl, rfl, isDir_fileMode uid gid mode umask⟩
  | mknod _ _ mode uid gid umask =>
      simp only [FsOp.node, Option.ite_none_right_eq_some] at h
      obtain ⟨-, h⟩ := h
      cases h
      exact ⟨rfl, rfl, isDir_fileMode uid gid mode umask⟩
  | symlink _ _ target uid gid =>
      cases h
      exact ⟨rfl, rfl, isDir_symlinkInode uid gid _⟩
  | _ => cases h

/-- The tree that an answer leaves is a step away. -/
theorem Tree.Answer.step {key : Str → Digest224} {op : FsOp} {r : Reply} {t' : Tree}
    (h : t.Answer key op r t') : t.Step key op t' := by
  cases h with
  | node hnode hmax hfree =>
      obtain ⟨hmakes, hlinks, hfile⟩ := FsOp.of_node hnode
      exact .create hmakes hmax hlinks hfile hfree
  | nodeUnplaced _ hmax => exact .burn hmax
  | mkdir hmax hp hpdir hn hfree =>
      exact .mkdir hmax hp hpdir hn hfree rfl (isDir_directoryMode _ _ _)
  | mkdirUnplaced hmax => exact .burn hmax
  | link hm hfile hn hfree => exact .link hm hfile hn hfree
  | unlink hdots hname hm hfile => exact .unlink hdots hname hm hfile
  | rmdir hdots hname hm hdir hes hempty => exact .rmdir hdots hname hm hdir hes hempty
  | rename hdots hr =>
      exact .rename hr.exchange hr.replace hdots hr.source hr.cleared hr.free
  | nodeSpecial => exact .skip
  | mkdirNowhere => exact .skip
  | linkUnplaced => exact .skip
  | linkGone => exact .skip
  | linkDir => exact .skip
  | absent => exact .skip
  | reserved => exact .skip
  | unlinkDir => exact .skip
  | rmdirFull => exact .skip
  | rmdirFile => exact .skip
  | renameRefused => exact .skip

/-- Every request on names is a step of the tree. -/
theorem FsOp.treeStep (hB : L.Reliable) (h : L.Shows s t) (hsmall : t.Small) {op : FsOp}
    (hon : op.OnNames) (hnames : ∀ n ∈ op.names, ¬ n.IsDots ∧ n.bytes.length < 2 ^ 32) {s' : Fs B}
    (hrun : op.run s = some s') (hc : L.NoCollision s'.store.io) :
    ∃ t', t.Step L.key op t' ∧ L.Shows s' t' := by
  obtain ⟨t', hanswer, h'⟩ := FsOp.answer hB h hsmall hon hnames hrun hc
  exact ⟨t', hanswer.step, h'⟩

/-- The entries of a directory. -/
def Fs.entries (s : Fs B) (p : UInt64) : List DirEntry :=
  ((listDirectory p s.store).1.toOption).getD []

/-- Every directory can take one more entry. -/
def Fs.Roomy (s : Fs B) : Prop := ∀ p, (s.entries p).length + 1 < 2 ^ 32

theorem Fs.entries_eq_nil {p : UInt64} (h : s.store.maps.dirData[p]? = none) :
    s.entries p = [] := by
  have hrun := dirDigestOf_apply p s.store
  rw [h] at hrun
  have hlist : listDirectory p s.store = (.error (.err (.notADirectory p)), s.store) :=
    Prog.bind_error hrun
  rw [Fs.entries, hlist]
  rfl

instance (s : Fs B) : Decidable s.Roomy :=
  decidable_of_iff
    (s.store.maps.dirData.keys.all fun p => (s.entries p).length + 1 < 2 ^ 32) <| by
    rw [List.all_eq_true]
    refine ⟨fun h p => ?_, fun h p _ => decide_eq_true (h p)⟩
    by_cases hp : p ∈ s.store.maps.dirData.keys
    · exact of_decide_eq_true (h p hp)
    · rw [Std.ExtTreeMap.mem_keys] at hp
      rw [Fs.entries_eq_nil (Std.ExtTreeMap.getElem?_eq_none hp)]
      decide

/-- The names of a request are no `.` or `..` and fit the format. -/
def FsOp.Proper (op : FsOp) : Prop := ∀ n ∈ op.names, ¬ n.IsDots ∧ n.bytes.length < 2 ^ 32

instance (op : FsOp) : Decidable op.Proper :=
  inferInstanceAs (Decidable (∀ n ∈ op.names, ¬ n.IsDots ∧ n.bytes.length < 2 ^ 32))

theorem Blockset.Laws.Shows.entries (h : L.Shows s t) (hc : L.NoCollision s.store.io) (p : UInt64) :
    s.entries p = ((t.dirs[p]?).getD ∅).toList.map fun e => ⟨e.2.name, e.2.ino⟩ := by
  rw [Fs.entries, listDirectory_eq h.listing hc]
  cases t.dirs[p]? <;> simp [Except.toOption]

theorem Blockset.Laws.Shows.mem_entries (h : L.Shows s t) (hc : L.NoCollision s.store.io)
    {p : UInt64} {e : DirEntry} :
    e ∈ s.entries p ↔ ∃ k r, t.entry p k = some r ∧ e = ⟨r.name, r.ino⟩ := by
  have hget : ∀ k : Digest224, ((t.dirs[p]?).getD ∅)[k]? = t.entry p k := by
    intro k
    unfold Tree.entry
    cases t.dirs[p]? <;> simp
  rw [h.entries hc, List.mem_map]
  constructor
  · rintro ⟨⟨k, r⟩, hr, rfl⟩
    exact ⟨k, r, by rw [← hget, Std.ExtTreeMap.mem_toList_iff_getElem?_eq_some.mp hr], rfl⟩
  · rintro ⟨k, r, hr, rfl⟩
    exact ⟨(k, r), Std.ExtTreeMap.mem_toList_iff_getElem?_eq_some.mpr (by rw [hget, hr]), rfl⟩

/-- What a name stands for in a file system. -/
theorem Blockset.Laws.Shows.resolve_eq (hB : L.Reliable) (h : L.Shows s t)
    (hc : L.NoCollision s.store.io) (p : UInt64) (name : Str) :
    s.resolve p name = (t.entry p (L.key name)).map EntryRecord.ino := by
  obtain ⟨io, -, ⟨es, e, hes, he, -, hrun⟩ | ⟨hnone, err, -, hrun⟩⟩ :=
    lookup_eq hB h.listing hc p name
  · rw [Fs.resolve, hrun, Tree.entry, hes, Option.bind_some, he]
    rfl
  · rw [Fs.resolve, hrun, Tree.entry, hnone]
    rfl

theorem Blockset.Laws.Shows.resolve (hB : L.Reliable) (h : L.Shows s t)
    (hc : L.NoCollision s.store.io) {p : UInt64} {name : Str} {e : EntryRecord}
    (he : t.entry p (L.key name) = some e) : s.resolve p name = some e.ino := by
  rw [h.resolve_eq hB hc, he]
  rfl

theorem Blockset.Laws.Shows.small (h : L.Shows s t) (hc : L.NoCollision s.store.io)
    (hroom : s.Roomy) : t.Small := by
  intro p es hes
  have hp := hroom p
  rw [h.entries hc, hes, List.length_map, Option.getD_some, Std.ExtTreeMap.length_toList] at hp
  exact hp

theorem Blockset.Laws.Shows.inode (h : L.Shows s t) (hc : L.NoCollision s.store.io) (i : UInt64) :
    s.inode i = t.inodes[i]? := by
  obtain ⟨f, hv, hin, -⟩ := h.files
  rw [hv.inode hc, hin]

/-- The tree of a new store. -/
def Tree.initial (key : Str → Digest224) (m : InodeMeta) : Tree where
  inodes := Std.ExtTreeMap.insert ∅ 1 m
  dirs := Std.ExtTreeMap.insert ∅ 1 (newDir key 1 1)
  nextIno := 2

theorem shows_new (hB : L.Reliable) {uid gid : UInt32} {io io' : B.Io} {st : Store B}
    (h : Store.new B uid gid io = (.ok st, io')) (auto : Bool) :
    L.Shows (Fs.mount st auto) (.initial L.key (rootInode uid gid)) := by
  have hholds := (holds_new (L := L) hB h).1
  obtain ⟨io₁, rfl, -, -, hstored, hdot, hdotDot⟩ := new_eq (L := L) hB h
  refine ⟨⟨_, views_mount hholds auto, rfl, rfl⟩, ?_, ?_⟩
  · intro p
    show (Std.ExtTreeMap.insert ∅ 1 _ : Map UInt64 Digest224)[p]? =
      ((Std.ExtTreeMap.insert ∅ 1 (Tree.newDir L.key 1 1) : Map UInt64 Entries)[p]?).map _
    rw [getElem?_insert_ite, getElem?_insert_ite]
    split_ifs
    · rfl
    · simp
  · intro p es hes
    have hes' : (Std.ExtTreeMap.insert ∅ 1 (Tree.newDir L.key 1 1) : Map UInt64 Entries)[p]? =
        some es := hes
    rw [getElem?_insert_ite] at hes'
    split_ifs at hes'
    · obtain rfl := Option.some.inj hes'
      exact listed_newDir hstored hdot hdotDot
    · simp at hes'

/-- An invariant of trees that every step keeps holds after every run of requests on
names. -/
theorem Runs.tree (hB : L.Reliable) {P : Fs B → FsOp → Prop}
    (hP : ∀ s op, P s op → op.OnNames ∧ op.Proper ∧ s.Roomy) {I : Tree → Prop} {s₀ s : Fs B}
    {t₀ : Tree} (h₀ : L.Shows s₀ t₀) (hI : I t₀)
    (hstep : ∀ s t op t', P s op → L.NoCollision s.store.io → L.Shows s t → I t →
      t.Step L.key op t' → I t')
    (hrun : Runs P s₀ s) (hc : L.NoCollision s.store.io) : ∃ t, L.Shows s t ∧ I t := by
  induction hrun with
  | refl => exact ⟨t₀, h₀, hI⟩
  | @step s₁ s₂ op _ hop hrun ih =>
      have hc₁ := hc.of_le (FsOp.le_run L hrun).1
      obtain ⟨t, ht, hIt⟩ := ih hc₁
      obtain ⟨hon, hproper, hroom⟩ := hP s₁ op hop
      obtain ⟨t', hs, ht'⟩ := FsOp.treeStep hB ht (ht.small hc₁ hroom) hon hproper hrun hc
      exact ⟨t', ht', hstep s₁ t op t' hop hc₁ ht hIt hs⟩

end

end SliceFs
