import SliceFs.NameReplies

/-!
# Runs of requests and the names they leave

Requests of all kinds, in any order: those on names are answered as `NameFs` says, and the
others leave every name and every number as it was.
-/
namespace SliceFs
open TreeMaps ProgramLogic

/-- What no request on content or attributes changes of an inode. -/
def InodeMeta.kind (m : InodeMeta) : UInt64 × UInt32 × UInt32 :=
  (m.ino, m.mode &&& S_IFMT, m.nlinks)

theorem InodeMeta.isDir_iff_kind (m : InodeMeta) : m.isDir ↔ m.kind.2.1 &&& S_IFDIR ≠ 0 := by
  have hmask : S_IFMT &&& S_IFDIR = S_IFDIR := by decide
  rw [InodeMeta.kind, UInt32.and_assoc, hmask]
  rfl

/-- The same inodes, apart from their sizes, times, owners and permissions. -/
def SameKinds (inodes inodes' : UInt64 → Option InodeMeta) : Prop :=
  ∀ i, (inodes' i).map InodeMeta.kind = (inodes i).map InodeMeta.kind

theorem SameKinds.refl (inodes : UInt64 → Option InodeMeta) : SameKinds inodes inodes :=
  fun _ => rfl

namespace NameFs

/-- Names and numbers are the same. -/
structure SameNames (f f' : NameFs) : Prop where
  dirs : f'.dirs = f.dirs
  next : f'.next = f.next
  inodes : SameKinds f.inodes f'.inodes

/-- A run from `f`, with what its requests on names were answered. Between them the sizes,
times, owners and permissions of inodes may change. -/
inductive Runs (f : NameFs) : List (FsOp × Reply) → NameFs → Prop where
  | start : Runs f [] f
  | step {trace : List (FsOp × Reply)} {g g' : NameFs} {op : FsOp} {r : Reply} :
      Runs f trace g → op.OnNames → g.step op = (r, g') → Runs f (trace ++ [(op, r)]) g'
  | other {trace : List (FsOp × Reply)} {g g' : NameFs} :
      Runs f trace g → g.SameNames g' → Runs f trace g'

/-- A new file system. -/
def initial (uid gid : UInt32) : NameFs where
  inodes := Function.update (fun _ => none) 1 (some (rootInode uid gid))
  dirs := Function.update (fun _ => none) 1 (some fun _ => none)
  next := 2

def lookup (f : NameFs) (p : UInt64) (name : Str) : Except (Fault Errno) (UInt64 × InodeMeta) :=
  (f.target p name).elim (.error (.err .enoent)) .ok

end NameFs

section Kinds
variable {digest : Bytes → Digest224} {removed : Option UInt64} {op : FsOp} {f f' : Files}
  {c c' : Contents}

structure Contents.SameInodes (c c' : Contents) : Prop where
  inodes : SameKinds (fun i => c.inodes[i]?) (fun i => c'.inodes[i]?)
  nextIno : c'.nextIno = c.nextIno

theorem Contents.SameInodes.refl (c : Contents) : c.SameInodes c := ⟨.refl _, rfl⟩

theorem Contents.SameInodes.modifyInode (h : c.SameInodes c') (i : UInt64)
    {change : InodeMeta → InodeMeta} (hchange : ∀ m, (change m).kind = m.kind) :
    c.SameInodes (c'.modifyInode i change) := by
  unfold Contents.modifyInode
  cases hm : c'.inodes[i]? with
  | none => exact h
  | some m =>
      refine ⟨fun j => ?_, h.nextIno⟩
      rw [← h.inodes j]
      simp only [getElem?_insert_ite]
      split_ifs with hj
      · simp [hj, hm, hchange]
      · rfl

theorem Contents.SameInodes.setSize (h : c.SameInodes c') (i n : UInt64) (now : Now) :
    c.SameInodes (c'.setSize i n now) :=
  h.modifyInode i fun _ => rfl

theorem Contents.sameInodes_resizeContent (c : Contents) (i n : UInt64) :
    c.SameInodes (c.resizeContent digest i n) := by
  unfold Contents.resizeContent
  dsimp only
  split_ifs
  · exact ⟨.refl _, rfl⟩
  · exact ⟨.refl _, rfl⟩

theorem Files.sameInodes_truncate (f : Files) (fh n : UInt64) (h : Handle) (now : Now) :
    f.core.SameInodes (f.truncate fh h n now).core := by
  have hcore : f.core.SameInodes (if h.Releases n then f.core.drop h.last else f.core) := by
    split_ifs
    · exact ⟨.refl _, rfl⟩
    · exact .refl _
  exact hcore.setSize h.ino n now

theorem Files.sameInodes_opened (f : Files) (i : UInt64) (flags : UInt32) (now : Now) :
    f.core.SameInodes (f.opened i flags now).core := by
  unfold Files.opened
  split_ifs
  · exact .refl _
  · exact .refl _
  · exact (f.insertHandle i).sameInodes_truncate _ _ _ _
  · exact .refl _

/-- The content of an inode is recorded with its size. -/
theorem Contents.sameInodes_record (c : Contents) (i : UInt64) (old : Option Digest224) (b : Bytes)
    (now : Now) : c.SameInodes ((c.record digest i old b).modifyInode i fun m =>
      m.setWritten (UInt64.ofNat b.length) now) := by
  have hrecord : c.SameInodes (c.record digest i old b) := ⟨.refl _, rfl⟩
  exact hrecord.modifyInode i fun _ => rfl

theorem Files.sameInodes_flush (f : Files) (fh : UInt64) (h : Handle) (now : Now) :
    f.core.SameInodes (f.flush digest fh h now).core := by
  unfold Files.flush
  split_ifs
  · exact .refl _
  · exact f.core.sameInodes_record _ _ _ _

theorem Files.sameInodes_release (f : Files) (fh : UInt64) (h : Handle) (now : Now) :
    f.core.SameInodes (f.release digest fh h now).core := by
  unfold Files.release Files.releasedCore
  dsimp only
  split_ifs
  · exact .refl _
  · exact ⟨.refl _, rfl⟩
  · exact .refl _
  · exact f.core.sameInodes_record _ _ _ _

/-- Requests on content change no names. -/
theorem FsOp.Effect.sameInodes (h : FsOp.Effect digest removed op f f') (hop : op.OnContent) :
    f.core.SameInodes f'.core := by
  cases h with
  | edit hnot => exact absurd hop hnot
  | create => cases hop
  | symlink => cases hop
  | rmdir => cases hop
  | closed => exact .refl _
  | openFile => exact f.sameInodes_opened _ _ _
  | write =>
      unfold Files.write
      dsimp only
      split_ifs
      · exact ⟨.refl _, rfl⟩
      · exact .refl _
  | truncate => exact f.sameInodes_truncate _ _ _ _
  | truncateCommitted => exact (f.core.sameInodes_resizeContent _ _).setSize _ _ _
  | flush => exact f.sameInodes_flush _ _ _
  | fsync => exact f.sameInodes_flush _ _ _
  | release => exact f.sameInodes_release _ _ _

end Kinds

section
variable {B : Blockset} {L : B.Laws} {s s' : Fs B} {f : Files} {t : Tree} {op : FsOp}

instance fixedDirs_xattr : XattrGrowth L L.fixedDirs where
  xattr _ _ := growingMaps_modify fun _ => rfl

/-- Only requests on names change entry lists. -/
theorem FsOp.fixedDirs_le (hon : ¬ op.OnNames) (hrun : op.run s = some s') :
    L.fixedDirs.le s.store s'.store := by
  have key : ∀ {α : Type} {m : FsM B α}, Growing (L.fixedDirs.comap Fs.store) m →
      Prog.exec m s = some s' → L.fixedDirs.le s.store s'.store := by
    intro α m hm hx
    rw [← Prog.snd_of_exec hx]
    exact hm.le_run s
  cases op with
  | create => exact absurd trivial hon
  | mknod => exact absurd trivial hon
  | mkdir => exact absurd trivial hon
  | symlink => exact absurd trivial hon
  | link => exact absurd trivial hon
  | unlink => exact absurd trivial hon
  | rmdir => exact absurd trivial hon
  | rename => exact absurd trivial hon
  | _ => exact key inferInstance hrun

theorem wp_editInode_sameInodes (hB : L.Reliable) (h : L.Views s f) (errno : MetaError → Errno)
    (i : UInt64) {change : InodeMeta → InodeMeta} (hchange : ∀ m, (change m).kind = m.kind) :
    wp L.growthFs (editInode errno i change)
      (fun _ s' => ∃ f', L.Views s' f' ∧ f.core.SameInodes f'.core) s := by
  have hino : ∀ m, (change m).ino = m.ino := fun m => congrArg Prod.fst (hchange m)
  refine (wp_editInode hB h errno i change hino).mono ?_
  rintro r s' - ⟨-, h'⟩
  exact ⟨_, h', (Contents.SameInodes.refl _).modifyInode i hchange⟩

/-- Requests that are not on names leave the inodes there, with their types and counts. -/
theorem FsOp.sameInodes (hB : L.Reliable) (h : L.Views s f) (hon : ¬ op.OnNames) (hv : op.Valid s)
    (hrun : op.run s = some s') (hc : L.NoCollision s'.store.io) :
    ∃ f', L.Views s' f' ∧ f.core.SameInodes f'.core := by
  have content : op.OnContent → ∃ f', L.Views s' f' ∧ f.core.SameInodes f'.core := by
    intro hop
    obtain ⟨f', heffect, h'⟩ := FsOp.effect hB h hv hrun hc
    exact ⟨f', h', heffect.sameInodes hop⟩
  cases op with
  | create => exact absurd trivial hon
  | mknod => exact absurd trivial hon
  | mkdir => exact absurd trivial hon
  | symlink => exact absurd trivial hon
  | link => exact absurd trivial hon
  | unlink => exact absurd trivial hon
  | rmdir => exact absurd trivial hon
  | rename => exact absurd trivial hon
  | openFile => exact content trivial
  | truncate => exact content trivial
  | write => exact content rfl
  | flush => exact content rfl
  | fsync => exact content rfl
  | release => exact content rfl
  | read order ino offset size =>
      obtain ⟨r, -, -, h'⟩ := (wp_testRead hB h order ino offset size).exec hrun hc
      exact ⟨f, h', .refl _⟩
  | chmod ino mode now =>
      have hkind : ∀ m : InodeMeta, ((m.setMode mode).setCtime now).kind = m.kind := fun m => by
        simp only [InodeMeta.kind, InodeMeta.setCtime, setMode_type]
        rfl
      obtain ⟨r, -, h'⟩ := (wp_editInode_sameInodes hB h eio ino hkind).exec hrun hc
      exact h'
  | chown ino uid gid now =>
      have hkind : ∀ m : InodeMeta, ((m.setOwner uid gid).setCtime now).kind = m.kind :=
        fun _ => rfl
      obtain ⟨r, -, h'⟩ := (wp_editInode_sameInodes hB h eio ino hkind).exec hrun hc
      exact h'
  | utimes ino sec nsec now =>
      have hkind : ∀ m : InodeMeta,
          (({ m with mtimeSec := sec, mtimeNsec := nsec } : InodeMeta).setCtime now).kind =
            m.kind :=
        fun _ => rfl
      obtain ⟨r, -, h'⟩ := (wp_editInode_sameInodes hB h eio ino hkind).exec hrun hc
      exact h'
  | setxattr ino name value =>
      have hset : wp L.growthFs (testSetxattr ino name value) (fun _ s' => L.Views s' f) s :=
        wp_callStore (P := fun s' => L.Views s' f) fun hg => h.store
          ((growing_setXattr (g := L.growthQuiet) ino name value).le_run s.store).1
          (wp_setXattr h.core ino name value hg) (UInt64.le_refl _)
      obtain ⟨r, -, h'⟩ := hset.exec hrun hc
      exact ⟨f, h', .refl _⟩
  | removexattr ino name =>
      have hremove : wp L.growthFs (testRemovexattr ino name) (fun _ s' => L.Views s' f) s :=
        wp_callStore (P := fun s' => L.Views s' f) fun hg => h.store
          ((growing_removeXattr (g := L.growthQuiet) ino name).le_run s.store).1
          (wp_removeXattr h.core ino name hg) (UInt64.le_refl _)
      obtain ⟨r, -, h'⟩ := hremove.exec hrun hc
      exact ⟨f, h', .refl _⟩

/-- The trees before and after a request that is not on names. -/
structure Tree.SameNames (t t' : Tree) : Prop where
  dirs : t'.dirs = t.dirs
  nextIno : t'.nextIno = t.nextIno
  inodes : SameKinds (fun i => t.inodes[i]?) (fun i => t'.inodes[i]?)

theorem Tree.SameNames.exists_inode {t' : Tree} (h : t.SameNames t') {i : UInt64} {m : InodeMeta}
    (hm : t.inodes[i]? = some m) : ∃ m', t'.inodes[i]? = some m' ∧ m'.kind = m.kind := by
  have hi := h.inodes i
  simpa only [hm, Option.map_some, Option.map_eq_some_iff] using hi

theorem Tree.SameNames.view {t' : Tree} (h : t.SameNames t') (key : Str → Digest224) :
    (t.view key).SameNames (t'.view key) := by
  refine ⟨funext fun p => ?_, h.nextIno, h.inodes⟩
  simp only [Tree.view, Tree.liveDir, h.dirs]
  cases hm : t.inodes[p]? with
  | none =>
      have hm' : t'.inodes[p]? = none := by simpa [hm] using h.inodes p
      rw [hm']
  | some m =>
      obtain ⟨m', hm', hkind⟩ := h.exists_inode hm
      simp only [hm', Option.bind_some, InodeMeta.isDir_iff_kind, hkind]

/-- Requests that are not on names leave all names alone. -/
theorem FsOp.sameNames (hB : L.Reliable) (h : L.Shows s t) (hon : ¬ op.OnNames) (hv : op.Valid s)
    (hrun : op.run s = some s') (hc : L.NoCollision s'.store.io) :
    ∃ t', L.Shows s' t' ∧ t.SameNames t' := by
  obtain ⟨f, hf, hin, hnext⟩ := h.files
  obtain ⟨f', hf', hsame⟩ := FsOp.sameInodes hB hf hon hv hrun hc
  obtain ⟨⟨hle, -⟩, hdirs⟩ := FsOp.fixedDirs_le (L := L) hon hrun
  refine ⟨⟨f'.core.inodes, t.dirs, f'.core.nextIno⟩, ⟨⟨f', hf', rfl, rfl⟩, ?_⟩,
    rfl, hsame.nextIno.trans hnext, ?_⟩
  · exact h.listing.frame hle hdirs
  · rw [← hin]
    exact hsame.inodes

/-- Requests on names need names that fit and room in the directories; the others keep the
promises of the kernel. -/
def FsOp.Tame (s : Fs B) (op : FsOp) : Prop :=
  (op.OnNames → op.Proper ∧ s.Roomy) ∧ (¬ op.OnNames → op.Valid s)

theorem FsOp.tame_of_onNames (h : op.OnNames ∧ op.Proper ∧ s.Roomy) : op.Tame s :=
  ⟨fun _ => h.2, fun hon => absurd h.1 hon⟩

/-- An invariant of trees that requests of both kinds keep holds after every run. -/
theorem Runs.tameTree (hB : L.Reliable) {I : Tree → Prop}
    (hstep : ∀ {s : Fs B} {t : Tree} {op : FsOp} {t' : Tree}, L.Shows s t → I t →
      t.Step L.key op t' → I t')
    (hsame : ∀ {t t' : Tree}, I t → t.SameNames t' → I t') {s₀ : Fs B} (h₀ : L.Shows s₀ t)
    (hI : I t) (hrun : Runs (fun s op => op.Tame s) s₀ s) (hc : L.NoCollision s.store.io) :
    ∃ t', L.Shows s t' ∧ I t' := by
  induction hrun with
  | refl => exact ⟨t, h₀, hI⟩
  | @step s₁ s₂ op _ hop hrun ih =>
      have hc₁ := hc.of_le (FsOp.le_run L hrun).1
      obtain ⟨t₁, ht₁, hI₁⟩ := ih hc₁
      by_cases hon : op.OnNames
      · obtain ⟨hproper, hroom⟩ := hop.1 hon
        obtain ⟨t', htree, ht'⟩ := FsOp.treeStep hB ht₁ (ht₁.small hc₁ hroom) hon hproper hrun hc
        exact ⟨t', ht', hstep ht₁ hI₁ htree⟩
      · obtain ⟨t', ht', hnames⟩ := FsOp.sameNames hB ht₁ hon (hop.2 hon) hrun hc
        exact ⟨t', ht', hsame hI₁ hnames⟩

/-- The names that a listing of a directory shows. -/
def listedNames (entries : List DirEntry) (name : Str) : Option UInt64 :=
  if name.IsDots then none else (entries.find? fun e => e.name = name).map DirEntry.ino

/-- What a client can find out about a file system with `getattr` and `readdir`. -/
def Fs.view (s : Fs B) : NameFs where
  inodes := s.inode
  dirs p := (s.inode p).bind fun m =>
    if m.isDir then ((listDirectory p s.store).1.toOption).map listedNames else none
  next := s.store.maps.inodeMap.nextIno

theorem Blockset.Laws.Listed.listedNames_eq {io : B.Io} {es : Entries} (h : L.Listed io es) :
    listedNames (es.toList.map fun e => ⟨e.2.name, e.2.ino⟩) = Entries.names L.key es := by
  funext name
  unfold listedNames Entries.names
  split_ifs
  · rfl
  cases hfind : (es.toList.map fun e => (⟨e.2.name, e.2.ino⟩ : DirEntry)).find? fun e =>
      e.name = name with
  | none =>
      have hnone := List.find?_eq_none.mp hfind
      cases he : es[L.key name]? with
      | none => rfl
      | some e =>
          have hmem := Std.ExtTreeMap.mem_toList_iff_getElem?_eq_some.mpr he
          have hne : e.name ≠ name := by
            simpa using hnone _ (List.mem_map.mpr ⟨_, hmem, rfl⟩)
          simp [hne]
  | some x =>
      obtain ⟨⟨k, e⟩, hmem, rfl⟩ := List.mem_map.mp (List.mem_of_find?_eq_some hfind)
      have hname : e.name = name := by simpa using List.find?_some hfind
      have he := Std.ExtTreeMap.mem_toList_iff_getElem?_eq_some.mp hmem
      -- an entry stands under the key of its name
      obtain ⟨-, rfl, -⟩ := h.entry k e he
      rw [hname] at he
      simp [he, hname]

theorem Blockset.Laws.Shows.view_eq (h : L.Shows s t) (hc : L.NoCollision s.store.io) :
    s.view = t.view L.key := by
  obtain ⟨f, hf, hin, hnext⟩ := h.files
  refine NameFs.ext (funext fun i => h.inode hc i) (funext fun p => ?_)
    (hf.core.nextIno.trans hnext)
  simp only [Fs.view, Tree.view, Tree.liveDir, h.inode hc, listDirectory_eq h.listing hc]
  cases t.inodes[p]? with
  | none => rfl
  | some m =>
      simp only [Option.bind_some]
      split_ifs
      · cases hes : t.dirs[p]? with
        | none => rfl
        | some es => exact congrArg some (h.listing.listed p es hes).listedNames_eq
      · rfl

instance (op : FsOp) : Decidable op.OnNames := by
  apply FsOp.casesOn (motive := fun op => Decidable op.OnNames) op <;> intros <;>
    unfold FsOp.OnNames <;> infer_instance

/-- The requests on names of a run, with their answers. -/
def FsOp.record (s : Fs B) (trace : List (FsOp × Reply)) (op : FsOp) : List (FsOp × Reply) :=
  if op.OnNames then trace ++ [(op, op.reply s)] else trace

/-- The requests of a kernel: those on names name directories that are there. -/
def FsOp.Regular (s : Fs B) (op : FsOp) : Prop :=
  op.Valid s ∧ (op.OnNames → op.Proper ∧ s.Roomy ∧ s.view.Regular op)

theorem Traces.answered {s₀ : Fs B} {trace : List (FsOp × Reply)}
    (h : Traces FsOp.record (fun s _ op => op.Regular s) s₀ [] s trace) (hop : op.Regular s)
    (hon : op.OnNames) (hrun : op.run s = some s') :
    Traces FsOp.record (fun s _ op => op.Regular s) s₀ [] s' (trace ++ [(op, op.reply s)]) := by
  have h' := h.step hop hrun
  rwa [FsOp.record, if_pos hon] at h'

theorem view_initial (key : Str → Digest224) (uid gid : UInt32) :
    (Tree.initial key (rootInode uid gid)).view key = NameFs.initial uid gid := by
  have hroot : (rootInode uid gid).isDir := by
    show (S_IFDIR ||| 0o755) &&& S_IFDIR ≠ 0
    decide
  refine NameFs.ext (funext fun i => ?_) (funext fun p => ?_) rfl
  · simp only [Tree.view, Tree.initial, NameFs.initial, getElem?_insert_ite, Function.update_apply]
    split_ifs <;> simp
  · simp only [Tree.view, Tree.initial, NameFs.initial, Tree.liveDir, getElem?_insert_ite,
      Function.update_apply]
    split_ifs
    · simp [hroot, Entries.names_newDir]
    · simp

/-- A run can be recorded. -/
theorem Runs.traces {G : Type} {P : Fs B → FsOp → Prop} {s₀ : Fs B} (h : Runs P s₀ s)
    (next : Fs B → G → FsOp → G) (g₀ : G) : ∃ g, Traces next (fun s _ op => P s op) s₀ g₀ s g := by
  induction h with
  | refl => exact ⟨g₀, .refl s₀ g₀⟩
  | step _ hop hrun ih =>
      obtain ⟨g, hg⟩ := ih
      exact ⟨_, hg.step hop hrun⟩

/-- What is shown and what was answered are those of a run of `NameFs`. -/
theorem Traces.names (hB : L.Reliable) {s₀ : Fs B} {t₀ : Tree} (h₀ : L.Shows s₀ t₀)
    {trace : List (FsOp × Reply)}
    (hrun : Traces FsOp.record (fun s _ op => op.Regular s) s₀ [] s trace)
    (hc : L.NoCollision s.store.io) :
    ∃ t, L.Shows s t ∧ (t₀.view L.key).Runs trace (t.view L.key) := by
  generalize hnil : ([] : List (FsOp × Reply)) = start at hrun
  induction hrun with
  | refl s => exact ⟨t₀, h₀, hnil ▸ .start⟩
  | @step s₁ s₂ _ trace op _ hop hrun ih =>
      have hc₁ := hc.of_le (FsOp.le_run L hrun).1
      obtain ⟨t, ht, hruns⟩ := ih hc₁ hnil
      unfold FsOp.record
      split_ifs with hon
      · obtain ⟨hproper, hroom, hreg⟩ := hop.2 hon
        rw [ht.view_eq hc₁] at hreg
        obtain ⟨t', ht', hstep⟩ := FsOp.answers hB ht (ht.small hc₁ hroom) hon hproper hreg hrun hc
        exact ⟨t', ht', hruns.step hon hstep⟩
      · obtain ⟨t', ht', hsame⟩ := FsOp.sameNames hB ht hon hop.1 hrun hc
        exact ⟨t', ht', hruns.other (hsame.view _)⟩

theorem wp_testLookup_view (hB : L.Reliable) (h : L.Shows s t) {p : UInt64} {name : Str}
    {es : Entries} (hdots : ¬ name.IsDots) (hlive : t.liveDir p = some es) :
    wp L.growthFs (testLookup p name) (fun r _ => r = (t.view L.key).lookup p name) s := by
  refine wp_target hB h p name (fun _ _ _ habsent => ?_) fun s₁ i m _ _ hname hm =>
    wp_pure fun _ => ?_
  · obtain ⟨rfl, hnone⟩ := habsent.target_view hdots hlive
    rw [NameFs.lookup, hnone]
    rfl
  · rw [NameFs.lookup, Tree.target_view hlive hdots hname, hm]
    rfl

/-- Over every run of requests that a kernel makes of a new file system, the requests on
names are answered as those of a file system that only keeps names, and the run leaves its
names, inodes and numbers; lookups find what it has. -/
theorem names_refine (L : B.Laws) (hB : B.NoIoErrors) {uid gid : UInt32} {io io' : B.Io}
    {st : Store B} (hnew : Store.new B uid gid io = (.ok st, io')) (auto : Bool)
    {trace : List (FsOp × Reply)}
    (hrun : Traces FsOp.record (fun s _ op => op.Regular s) (Fs.mount st auto) [] s trace)
    (hc : L.NoCollision s.store.io) :
    (NameFs.initial uid gid).Runs trace s.view ∧
      ∀ (p : UInt64) (name : Str), (s.view.dirs p).isSome → ¬ name.IsDots →
        L.NoCollision (testLookup p name s).2.store.io →
        (testLookup p name s).1 = s.view.lookup p name := by
  have hB := hB.reliable L
  obtain ⟨t, ht, hruns⟩ := Traces.names hB (shows_new hB hnew auto) hrun hc
  rw [view_initial] at hruns
  rw [ht.view_eq hc]
  refine ⟨hruns, fun p name hp hdots hc' => ?_⟩
  obtain ⟨es, hlive⟩ := Tree.exists_liveDir hp
  exact wp_testLookup_view hB ht hdots hlive hc'

/-- A request on names that fails leaves every name and every inode as it was; at most a
number is used up. -/
theorem failed_request_spares (L : B.Laws) (hB : B.NoIoErrors) {uid gid : UInt32} {io io' : B.Io}
    {st : Store B} (hnew : Store.new B uid gid io = (.ok st, io')) (auto : Bool)
    (hrun : Runs (fun s op => op.Regular s) (Fs.mount st auto) s) (hon : op.OnNames)
    (hop : op.Regular s) (hs : op.run s = some s') (hc : L.NoCollision s'.store.io)
    {e : Fault Errno} (hfail : op.reply s = .error e) : s.view.Spares s'.view := by
  have hB := hB.reliable L
  have hc₀ := hc.of_le (FsOp.le_run L hs).1
  obtain ⟨trace, htrace⟩ := hrun.traces FsOp.record []
  obtain ⟨t, ht, -⟩ := Traces.names hB (shows_new hB hnew auto) htrace hc₀
  obtain ⟨hproper, hroom, hreg⟩ := hop.2 hon
  rw [ht.view_eq hc₀] at hreg ⊢
  obtain ⟨t', ht', hstep⟩ := FsOp.answers hB ht (ht.small hc₀ hroom) hon hproper hreg hs hc
  rw [ht'.view_eq hc]
  have herror : ((t.view L.key).step op).1 = .error e := by rw [hstep, hfail]
  have hspares := NameFs.step_error herror
  rwa [hstep] at hspares

end

/-- The directory cannot be made again. -/
def refusedFs : Fs memoryBlockset :=
  ((FsOp.mkdir 1 nameA 0o755 0 0 0).run dirFs).get (by decide +kernel)

theorem view_nestedFs : (freshFs.view.dirs 1).isSome ∧ (dirFs.view.dirs 2).isSome ∧
    (nestedFs.view.dirs 2).isSome ∧ (nestedFs.view.dirs 1).isSome ∧
    nestedFs.view.resolve 2 nameA = some 3 ∧ nestedFs.view.resolve 1 nameB = none ∧
    (nestedFs.view.inodes 3).any (fun m => ¬ m.isDir) = true ∧ (dirFs.view.dirs 1).isSome := by
  decide +kernel

theorem roomy_nestedFs : dirFs.Roomy ∧ nestedFs.Roomy := by decide +kernel

theorem regular_dirFs : (FsOp.mkdir 1 nameA 0o755 0 0 0).Regular freshFs :=
  ⟨trivial, fun _ => ⟨onNames_dirFs.2.1, onNames_dirFs.2.2,
    by simpa [FsOp.parents] using view_nestedFs.1, trivial⟩⟩

theorem failed_request_spares_refusedFs : dirFs.view.Spares refusedFs.view := by
  have hnew : Store.new memoryBlockset 0 0 MemoryIo.empty = (.ok freshStore, _) :=
    Prog.eq_ok_of_isSome (by decide +kernel)
  have hop : (FsOp.mkdir 1 nameA 0o755 0 0 0).Regular dirFs :=
    ⟨trivial, fun _ => ⟨by decide, roomy_nestedFs.1,
      by simpa [FsOp.parents] using view_nestedFs.2.2.2.2.2.2.2, trivial⟩⟩
  have hfail : (FsOp.mkdir 1 nameA 0o755 0 0 0).reply dirFs = .error (.err .eexist) := by
    decide +kernel
  have hon : (FsOp.mkdir 1 nameA 0o755 0 0 0).OnNames := trivial
  have hrun : (FsOp.mkdir 1 nameA 0o755 0 0 0).run dirFs = some refusedFs :=
    (Option.some_get _).symm
  exact failed_request_spares memoryLaws memoryBlockset_noIoErrors hnew false
    (.step (.refl _) regular_dirFs run_dirFs) hon hop hrun
    (memoryLaws_noCollision (by decide +kernel)) hfail

/-- A directory, a file in it, and the file moved out. -/
theorem traces_movedFs :
    Traces FsOp.record (fun s _ op => op.Regular s) freshFs [] movedFs
      [(.mkdir 1 nameA 0o755 0 0 0, (FsOp.mkdir 1 nameA 0o755 0 0 0).reply freshFs),
        (.create 2 nameA 0o644 0 0 0, (FsOp.create 2 nameA 0o644 0 0 0).reply dirFs),
        (.rename 2 nameA 1 nameB 0 midnight,
          (FsOp.rename 2 nameA 1 nameB 0 midnight).reply nestedFs)] := by
  obtain ⟨-, hdir, hfrom, hto, hsource, htarget, hfile, -⟩ := view_nestedFs
  have hcreate : (FsOp.create 2 nameA 0o644 0 0 0).Regular dirFs :=
    ⟨trivial, fun _ => ⟨by decide, roomy_nestedFs.1, by simpa [FsOp.parents] using hdir, trivial⟩⟩
  have hmovable : nestedFs.view.Movable 2 nameA 1 nameB := by
    intro i hi
    rw [hsource] at hi
    obtain rfl := Option.some.inj hi
    cases hm : nestedFs.view.inodes 3 with
    | none => simp [hm] at hfile
    | some m =>
        have hnot : ¬ m.isDir := by simpa [hm] using hfile
        refine ⟨m, rfl, fun hdir => absurd hdir hnot, fun j hj => ?_⟩
        rw [htarget] at hj
        cases hj
  have hrename : (FsOp.rename 2 nameA 1 nameB 0 midnight).Regular nestedFs :=
    ⟨trivial, fun _ => ⟨by decide, roomy_nestedFs.2, by simp [FsOp.parents, hfrom, hto], hmovable⟩⟩
  exact (((Traces.refl _ _).answered regular_dirFs trivial run_dirFs).answered hcreate trivial
    run_nestedFs).answered hrename trivial run_movedFs

theorem names_refine_movedFs :
    (NameFs.initial 0 0).Runs
      [(.mkdir 1 nameA 0o755 0 0 0, (FsOp.mkdir 1 nameA 0o755 0 0 0).reply freshFs),
        (.create 2 nameA 0o644 0 0 0, (FsOp.create 2 nameA 0o644 0 0 0).reply dirFs),
        (.rename 2 nameA 1 nameB 0 midnight,
          (FsOp.rename 2 nameA 1 nameB 0 midnight).reply nestedFs)] movedFs.view := by
  have hnew : Store.new memoryBlockset 0 0 MemoryIo.empty = (.ok freshStore, _) :=
    Prog.eq_ok_of_isSome (by decide +kernel)
  exact (names_refine memoryLaws memoryBlockset_noIoErrors hnew false traces_movedFs
    (memoryLaws_noCollision (by decide +kernel))).1

end SliceFs
