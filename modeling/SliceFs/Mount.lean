import SliceFs.NamespaceView
import SliceFs.Seed
import SliceFs.StoreHistory

/-!
# Mounted file systems

`FsOp` lists the requests a mounted file system serves, with the promises of the kernel
that sends them. `FsOp.effect` says what each request does to the files; every file
system that was ever mounted has files.
-/
namespace SliceFs
open TreeMaps ProgramLogic ByteFile

inductive FsOp where
  | create (parent : UInt64) (name : Str) (mode umask uid gid : UInt32)
  | mknod (parent : UInt64) (name : Str) (mode uid gid umask : UInt32)
  | mkdir (parent : UInt64) (name : Str) (mode umask uid gid : UInt32)
  | symlink (parent : UInt64) (name target : Str) (uid gid : UInt32)
  | link (ino newParent : UInt64) (newName : Str) (now : Now)
  | unlink (parent : UInt64) (name : Str)
  | rmdir (parent : UInt64) (name : Str)
  | rename (parent : UInt64) (name : Str) (newParent : UInt64) (newName : Str) (flags : UInt32)
      (now : Now)
  | openFile (ino : UInt64) (flags : UInt32) (now : Now)
  | read (order : List UInt64) (ino offset : UInt64) (size : UInt32)
  | write (fh offset : UInt64) (data : Bytes)
  | truncate (ino : UInt64) (fh : Option UInt64) (size : UInt64) (now : Now)
  | flush (ino fh : UInt64) (now : Now)
  | fsync (ino fh : UInt64) (now : Now)
  | release (ino fh : UInt64) (now : Now)
  | chmod (ino : UInt64) (mode : UInt32) (now : Now)
  | chown (ino : UInt64) (uid gid : Option UInt32) (now : Now)
  | utimes (ino : UInt64) (sec : Int64) (nsec : UInt32) (now : Now)
  | setxattr (ino : UInt64) (name : Str) (value : Bytes)
  | removexattr (ino : UInt64) (name : Str)

section
variable {B : Blockset}

/-- The state after a request, unless it panics. -/
def FsOp.run : FsOp → Fs B → Option (Fs B)
  | create parent name mode umask uid gid => Prog.exec (testCreate parent name mode umask uid gid)
  | mknod parent name mode uid gid umask => Prog.exec (testMknod parent name mode uid gid umask)
  | mkdir parent name mode umask uid gid =>
      Prog.exec (simulateMkdir parent name mode umask uid gid)
  | symlink parent name target uid gid => Prog.exec (simulateSymlink parent name target uid gid)
  | link ino newParent newName now => Prog.exec (simulateLink ino newParent newName now)
  | unlink parent name => Prog.exec (simulateUnlink parent name)
  | rmdir parent name => Prog.exec (simulateRmdir parent name)
  | rename parent name newParent newName flags now =>
      Prog.exec (simulateRename parent name newParent newName flags now)
  | openFile ino flags now => Prog.exec (testOpen ino flags now)
  | read order ino offset size => Prog.exec (testRead order ino offset size)
  | write fh offset data => Prog.exec (testWrite fh offset data)
  | truncate ino fh size now => Prog.exec (testSetattrSize ino fh size now)
  | flush ino fh now => Prog.exec (testFlush ino fh now)
  | fsync ino fh now => Prog.exec (testFsync ino fh now)
  | release ino fh now => Prog.exec (testRelease ino fh now)
  | chmod ino mode now => Prog.exec (testSetattrMode ino mode now)
  | chown ino uid gid now => Prog.exec (testSetattrUidGid ino uid gid now)
  | utimes ino sec nsec now => Prog.exec (testSetattrMtime ino sec nsec now)
  | setxattr ino name value => Prog.exec (testSetxattr ino name value)
  | removexattr ino name => Prog.exec (testRemovexattr ino name)

/-- An inode number that was handed out. -/
def Fs.Knows (s : Fs B) (ino : UInt64) : Prop := ino < s.store.maps.inodeMap.nextIno

/-- A handle, if it is open for writing, is one of the inode. -/
def Fs.HandleOf (s : Fs B) (ino fh : UInt64) : Prop :=
  ∀ o ∈ s.openFiles[fh]?, o.ino = ino

/-- What the kernel promises of a request: it names inodes it was told of and handles of
the inode, and no file grows past the largest file. -/
def FsOp.Valid (s : Fs B) : FsOp → Prop
  | openFile ino _ _ => s.Knows ino
  | write _ offset data => offset.toNat + data.length ≤ isizeMax
  | truncate ino fh size _ => s.Knows ino ∧ (∀ j ∈ fh, s.HandleOf ino j) ∧ size.toNat ≤ isizeMax
  | flush ino fh _ => s.HandleOf ino fh
  | fsync ino fh _ => s.HandleOf ino fh
  | release ino fh _ => s.HandleOf ino fh
  | _ => True

instance (s : Fs B) (ino : UInt64) : Decidable (s.Knows ino) := inferInstanceAs (Decidable (_ < _))

instance (s : Fs B) (ino fh : UInt64) : Decidable (s.HandleOf ino fh) :=
  inferInstanceAs (Decidable (∀ o ∈ s.openFiles[fh]?, o.ino = ino))

instance (s : Fs B) (op : FsOp) : Decidable (op.Valid s) := by
  -- over the handle, not over all numbers
  have hhandle : ∀ (ino : UInt64) (fh : Option UInt64), Decidable (∀ j ∈ fh, s.HandleOf ino j) :=
    fun _ fh => Option.decidableForallMem fh
  apply FsOp.casesOn (motive := fun op => Decidable (op.Valid s)) op <;> intros <;>
    unfold FsOp.Valid <;> infer_instance

/-- A run of requests, as long as the kernel keeps its promises and nothing panics. -/
def runFsOps : List FsOp → Fs B → Option (Fs B)
  | [], s => some s
  | op :: ops, s => if op.Valid s then (op.run s).bind (runFsOps ops) else none

/-- The states reached by requests that all meet a condition. -/
inductive Runs (P : Fs B → FsOp → Prop) : Fs B → Fs B → Prop where
  | refl (s : Fs B) : Runs P s s
  | step {s s₁ s₂ : Fs B} {op : FsOp} : Runs P s s₁ → P s₁ op → op.run s₁ = some s₂ →
      Runs P s s₂

/-- The states reached by requests that all meet a condition, with a record `g` that every
request carries on. -/
inductive Traces {G : Type} (next : Fs B → G → FsOp → G) (P : Fs B → G → FsOp → Prop) :
    Fs B → G → Fs B → G → Prop where
  | refl (s : Fs B) (g : G) : Traces next P s g s g
  | step {s s₁ s₂ : Fs B} {g g₁ : G} {op : FsOp} : Traces next P s g s₁ g₁ → P s₁ g₁ op →
      op.run s₁ = some s₂ → Traces next P s g s₂ (next s₁ g₁ op)

/-- A run of requests with its record, as long as each meets a condition and nothing
panics. -/
def runTraced {G : Type} (next : Fs B → G → FsOp → G) (P : Fs B → G → FsOp → Prop)
    [∀ s g op, Decidable (P s g op)] : List FsOp → Fs B → G → Option (Fs B × G)
  | [], s, g => some (s, g)
  | op :: ops, s, g =>
      if P s g op then (op.run s).bind fun s' => runTraced next P ops s' (next s g op) else none

theorem Traces.runTraced {G : Type} {next : Fs B → G → FsOp → G} {P : Fs B → G → FsOp → Prop}
    [∀ s g op, Decidable (P s g op)] {ops : List FsOp} {s₀ s : Fs B} {g₀ g : G} {r : Fs B × G}
    (h : Traces next P s₀ g₀ s g) (hrun : runTraced next P ops s g = some r) :
    Traces next P s₀ g₀ r.1 r.2 := by
  induction ops generalizing s g with
  | nil =>
      obtain rfl := Option.some.inj hrun
      exact h
  | cons op ops ih =>
      unfold SliceFs.runTraced at hrun
      split_ifs at hrun with hop
      obtain ⟨s₁, h₁, h₂⟩ := Option.bind_eq_some_iff.mp hrun
      exact ih (h.step hop h₁) h₂

/-- A run of requests, as long as each meets a condition and nothing panics. -/
def runMeeting (P : Fs B → FsOp → Prop) [∀ s op, Decidable (P s op)] :
    List FsOp → Fs B → Option (Fs B)
  | [], s => some s
  | op :: ops, s => if P s op then (op.run s).bind (runMeeting P ops) else none

theorem Runs.runMeeting {P : Fs B → FsOp → Prop} [∀ s op, Decidable (P s op)] {ops : List FsOp}
    {s₀ s s' : Fs B} (h : Runs P s₀ s) (hrun : runMeeting P ops s = some s') : Runs P s₀ s' := by
  induction ops generalizing s with
  | nil =>
      obtain rfl := Option.some.inj hrun
      exact h
  | cons op ops ih =>
      unfold SliceFs.runMeeting at hrun
      split_ifs at hrun with hop
      obtain ⟨s₁, h₁, h₂⟩ := Option.bind_eq_some_iff.mp hrun
      exact ih (h.step hop h₁) h₂

/-- The inode whose extended attributes a request sets. -/
def FsOp.xattrIno : FsOp → Option UInt64
  | setxattr ino _ _ => some ino
  | removexattr ino _ => some ino
  | _ => none

/-- The inode whose last name a request removes. -/
def Fs.removedBy (s : Fs B) : FsOp → Option UInt64
  | .unlink parent name => (s.resolve parent name).filter s.isLastLink
  | .rename parent name newParent newName flags _ =>
      s.displaced parent name newParent newName flags
  | _ => none

/-- The handle that a request works through. -/
def FsOp.handle? : FsOp → Option UInt64
  | write fh _ _ => some fh
  | flush _ fh _ => some fh
  | fsync _ fh _ => some fh
  | release _ fh _ => some fh
  | _ => none

/-- The requests on the content of a file. -/
def FsOp.OnContent : FsOp → Prop
  | openFile _ _ _ => True
  | truncate _ _ _ _ => True
  | op => op.handle?.isSome

end

/-- What a request does to the files. -/
inductive FsOp.Effect (digest : Bytes → Digest224) (removed : Option UInt64) :
    FsOp → Files → Files → Prop where
  | edit {op : FsOp} {f : Files} {c : Contents} : ¬ op.OnContent → f.core.Edit digest removed c →
      Effect digest removed op f { f with core := c }
  | closed {op : FsOp} {f : Files} {fh : UInt64} : op.handle? = some fh → f.handles[fh]? = none →
      Effect digest removed op f f
  | create {parent : UInt64} {name : Str} {mode umask uid gid : UInt32} {f : Files}
      {m : InodeMeta} : f.core.nextIno ≠ u64Max → f.nextFh ≠ u64Max → m.size = 0 →
      Effect digest removed (.create parent name mode umask uid gid) f
        (({ f with core := f.core.addInode m } : Files).insertHandle f.core.nextIno)
  | symlink {parent : UInt64} {name target : Str} {uid gid : UInt32} {f : Files} {m : InodeMeta}
      {b : Bytes} {c : Contents} :
      f.core.nextIno ≠ u64Max → m.mode &&& S_IFMT = S_IFLNK →
      (f.core.addSymlink digest m b).Tweak c →
      Effect digest removed (.symlink parent name target uid gid) f { f with core := c }
  | rmdir {parent : UInt64} {name : Str} {f : Files} {c : Contents} {i : UInt64} {m : InodeMeta} :
      f.core.inodes[i]? = some m → m.isDir → (f.core.removeInode i).Tweak c →
      Effect digest removed (.rmdir parent name) f { f with core := c }
  | openFile {i : UInt64} {flags : UInt32} {now : Now} {f : Files} : f.nextFh ≠ u64Max →
      i < f.core.nextIno → Effect digest removed (.openFile i flags now) f (f.opened i flags now)
  | write {fh offset : UInt64} {data : Bytes} {f : Files} {h : Handle} :
      f.handles[fh]? = some h →
      Effect digest removed (.write fh offset data) f (f.write fh h offset.toNat data)
  | truncate {fh n : UInt64} {now : Now} {f : Files} {h : Handle} : f.handles[fh]? = some h →
      Effect digest removed (.truncate h.ino (some fh) n now) f (f.truncate fh h n now)
  | truncateCommitted {i n : UInt64} {fh : Option UInt64} {now : Now} {f : Files} :
      i < f.core.nextIno → fh.bind (fun j => f.handles[j]?) = none →
      Effect digest removed (.truncate i fh n now) f (f.truncateCommitted digest i n now)
  | flush {fh : UInt64} {now : Now} {f : Files} {h : Handle} : f.handles[fh]? = some h →
      Effect digest removed (.flush h.ino fh now) f (f.flush digest fh h now)
  | fsync {fh : UInt64} {now : Now} {f : Files} {h : Handle} : f.handles[fh]? = some h →
      Effect digest removed (.fsync h.ino fh now) f (f.flush digest fh h now)
  | release {fh : UInt64} {now : Now} {f : Files} {h : Handle} : f.handles[fh]? = some h →
      Effect digest removed (.release h.ino fh now) f (f.release digest fh h now)

section
variable {B : Blockset} {L : B.Laws} {s s' : Fs B} {f : Files}

theorem Blockset.Laws.Edits.effect {removed : Option UInt64} (h : L.Edits removed f s) {op : FsOp}
    (hop : ¬ op.OnContent) : ∃ f', FsOp.Effect L.digest removed op f f' ∧ L.Views s f' := by
  obtain ⟨c, hc, hv⟩ := h
  exact ⟨_, .edit hop hc, hv⟩

theorem Blockset.Laws.Views.knows (h : L.Views s f) {i : UInt64} (hi : s.Knows i) :
    i < f.core.nextIno := by
  unfold Fs.Knows at hi
  rwa [h.core.nextIno] at hi

theorem Blockset.Laws.Views.handleOf (h : L.Views s f) {i fh : UInt64} (hfh : s.HandleOf i fh)
    {hd : Handle} (hhd : f.handles[fh]? = some hd) : hd.ino = i := by
  obtain ⟨o, ho, hv⟩ := h.getFile_some hhd
  rw [← hv.ino]
  exact hfh o ho

theorem effect_write (hB : L.Reliable) (h : L.Views s f) {fh offset : UInt64} {data : Bytes}
    (hle : offset.toNat + data.length ≤ isizeMax)
    (hrun : Prog.exec (testWrite fh offset data) s = some s') (hc : L.NoCollision s'.store.io)
    (removed : Option UInt64) :
    ∃ f', FsOp.Effect L.digest removed (.write fh offset data) f f' ∧ L.Views s' f' := by
  cases hfh : f.handles[fh]? with
  | none =>
      have hclosed : testWrite fh offset data s = (.error (.err .ebadf), s) := by
        rw [testWrite, Prog.bind_ok (getFile_eq (h.getFile_none hfh))]
        rfl
      have hs := Prog.snd_of_exec hrun
      rw [hclosed] at hs
      exact ⟨f, .closed rfl hfh, hs ▸ h⟩
  | some hd =>
      obtain ⟨r, -, -, hv⟩ := (wp_testWrite hB h hfh hle).exec hrun hc
      exact ⟨_, .write hfh, hv⟩

theorem effect_truncate (hB : L.Reliable) (h : L.Views s f) {i n : UInt64} {fh : Option UInt64}
    {now : Now} (hi : s.Knows i) (hfh : ∀ j ∈ fh, s.HandleOf i j) (hn : n.toNat ≤ isizeMax)
    (hrun : Prog.exec (testSetattrSize i fh n now) s = some s') (hc : L.NoCollision s'.store.io)
    (removed : Option UInt64) :
    ∃ f', FsOp.Effect L.digest removed (.truncate i fh n now) f f' ∧ L.Views s' f' := by
  cases hopen : fh.bind (fun j => f.handles[j]?) with
  | none =>
      obtain ⟨r, -, -, hv⟩ :=
        (wp_testSetattrSize_closed hB h hopen (h.knows hi) hn now).exec hrun hc
      exact ⟨_, .truncateCommitted (h.knows hi) hopen, hv⟩
  | some hd =>
      obtain ⟨j, rfl, hj⟩ := Option.bind_eq_some_iff.mp hopen
      obtain rfl := h.handleOf (hfh j rfl) hj
      obtain ⟨r, -, -, hv⟩ := (wp_testSetattrSize_open hB h hj hn now).exec hrun hc
      exact ⟨_, .truncate hj, hv⟩

theorem effect_flush (hB : L.Reliable) (h : L.Views s f) {i fh : UInt64} {now : Now}
    (hfh : s.HandleOf i fh) (hrun : Prog.exec (testFlush i fh now) s = some s')
    (hc : L.NoCollision s'.store.io) (removed : Option UInt64) :
    ∃ f', FsOp.Effect L.digest removed (.flush i fh now) f f' ∧ L.Views s' f' := by
  cases hopen : f.handles[fh]? with
  | none =>
      have hs := Prog.snd_of_exec hrun
      rw [testFlush, flush_closed h hopen] at hs
      exact ⟨f, .closed rfl hopen, hs ▸ h⟩
  | some hd =>
      obtain rfl := h.handleOf hfh hopen
      obtain ⟨r, -, -, hv⟩ := (wp_flushBufferForFsync hB h hopen now).exec hrun hc
      exact ⟨_, .flush hopen, hv⟩

theorem effect_fsync (hB : L.Reliable) (h : L.Views s f) {i fh : UInt64} {now : Now}
    (hfh : s.HandleOf i fh) (hrun : Prog.exec (testFsync i fh now) s = some s')
    (hc : L.NoCollision s'.store.io) (removed : Option UInt64) :
    ∃ f', FsOp.Effect L.digest removed (.fsync i fh now) f f' ∧ L.Views s' f' := by
  cases hopen : f.handles[fh]? with
  | none =>
      have hs := Prog.snd_of_exec hrun
      rw [testFsync, Prog.bind_ok (flush_closed h hopen i now)] at hs
      exact ⟨f, .closed rfl hopen, hs ▸ h.mapErr_flushWal _⟩
  | some hd =>
      obtain rfl := h.handleOf hfh hopen
      obtain ⟨r, -, -, hv⟩ := (wp_testFsync hB h hopen now).exec hrun hc
      exact ⟨_, .fsync hopen, hv⟩

theorem effect_release (hB : L.Reliable) (h : L.Views s f) {i fh : UInt64} {now : Now}
    (hfh : s.HandleOf i fh) (hrun : Prog.exec (testRelease i fh now) s = some s')
    (hc : L.NoCollision s'.store.io) (removed : Option UInt64) :
    ∃ f', FsOp.Effect L.digest removed (.release i fh now) f f' ∧ L.Views s' f' := by
  cases hopen : f.handles[fh]? with
  | none =>
      have hs := Prog.snd_of_exec hrun
      rw [release_closed h hopen] at hs
      exact ⟨f, .closed rfl hopen, hs ▸ h⟩
  | some hd =>
      obtain rfl := h.handleOf hfh hopen
      obtain ⟨r, -, -, hv⟩ := (wp_testRelease hB h hopen now).exec hrun hc
      exact ⟨_, .release hopen, hv⟩

theorem effect_openFile (hB : L.Reliable) (h : L.Views s f) {i : UInt64} {flags : UInt32}
    {now : Now} (hi : s.Knows i) (hrun : Prog.exec (testOpen i flags now) s = some s')
    (hc : L.NoCollision s'.store.io) (removed : Option UInt64) :
    ∃ f', FsOp.Effect L.digest removed (.openFile i flags now) f f' ∧ L.Views s' f' := by
  by_cases hmax : f.nextFh = u64Max
  · have hpanic : testOpen i flags now s = (.error .panic, _) :=
      Prog.bind_error (allocateFh_panic (h.nextFh.trans hmax))
    rw [Prog.exec_of_panic hpanic] at hrun
    cases hrun
  · obtain ⟨r, -, -, hv⟩ := (wp_testOpen hB h hmax (h.knows hi) flags now).exec hrun hc
    exact ⟨_, .openFile hmax (h.knows hi), hv⟩

/-- Every request does what its effect says. -/
theorem FsOp.effect (hB : L.Reliable) (h : L.Views s f) {op : FsOp} (hv : op.Valid s)
    (hrun : op.run s = some s') (hc : L.NoCollision s'.store.io) :
    ∃ f', FsOp.Effect L.digest (s.removedBy op) op f f' ∧ L.Views s' f' := by
  cases op with
  | create parent name mode umask uid gid =>
      obtain ⟨r, hr, hpost⟩ := (wp_testCreate hB h parent name mode umask uid gid).exec hrun hc
      rcases hpost hr with ⟨-, hi, hfh, hv'⟩ | ⟨-, hedit⟩
      · exact ⟨_, .create hi hfh rfl, hv'⟩
      · exact hedit.effect Bool.false_ne_true
  | mknod parent name mode uid gid umask =>
      obtain ⟨r, hr, hpost⟩ := (wp_testMknod hB h parent name mode uid gid umask).exec hrun hc
      exact (hpost hr).effect Bool.false_ne_true
  | mkdir parent name mode umask uid gid =>
      obtain ⟨r, -, hpost⟩ := (wp_simulateMkdir hB h parent name mode umask uid gid).exec hrun hc
      exact hpost.effect Bool.false_ne_true
  | symlink parent name target uid gid =>
      obtain ⟨r, hr, hpost⟩ := (wp_simulateSymlink hB h parent name target uid gid).exec hrun hc
      rcases hpost hr with ⟨-, hedit⟩ | ⟨-, c, ht, hmax, hv'⟩
      · exact hedit.effect Bool.false_ne_true
      · exact ⟨_, .symlink hmax (by decide : (S_IFLNK ||| 0o777) &&& S_IFMT = S_IFLNK) ht, hv'⟩
  | link ino newParent newName now =>
      obtain ⟨r, -, hpost⟩ := (wp_simulateLink hB h ino newParent newName now).exec hrun hc
      exact hpost.effect Bool.false_ne_true
  | unlink parent name =>
      obtain ⟨r, hr, hpost⟩ := (wp_simulateUnlink hB h parent name).exec hrun hc
      exact (hpost hr).effect Bool.false_ne_true
  | rmdir parent name =>
      obtain ⟨r, -, hpost⟩ := (wp_simulateRmdir hB h parent name).exec hrun hc
      rcases hpost with hedit | ⟨i, m, c, hm, hdir, ht, hv'⟩
      · exact hedit.effect Bool.false_ne_true
      · exact ⟨_, .rmdir hm hdir ht, hv'⟩
  | rename parent name newParent newName flags now =>
      obtain ⟨r, -, hpost⟩ :=
        (wp_simulateRename hB h parent name newParent newName flags now).exec hrun hc
      exact hpost.effect Bool.false_ne_true
  | openFile ino flags now => exact effect_openFile hB h hv hrun hc _
  | read order ino offset size =>
      obtain ⟨r, -, -, hv'⟩ := (wp_testRead hB h order ino offset size).exec hrun hc
      exact (hv'.edits _).effect Bool.false_ne_true
  | write fh offset data => exact effect_write hB h hv hrun hc _
  | truncate ino fh size now => exact effect_truncate hB h hv.1 hv.2.1 hv.2.2 hrun hc _
  | flush ino fh now => exact effect_flush hB h hv hrun hc _
  | fsync ino fh now => exact effect_fsync hB h hv hrun hc _
  | release ino fh now => exact effect_release hB h hv hrun hc _
  | chmod ino mode now =>
      obtain ⟨r, -, hpost⟩ := (wp_testSetattrMode hB h ino mode now).exec hrun hc
      exact hpost.effect Bool.false_ne_true
  | chown ino uid gid now =>
      obtain ⟨r, -, hpost⟩ := (wp_testSetattrUidGid hB h ino uid gid now).exec hrun hc
      exact hpost.effect Bool.false_ne_true
  | utimes ino sec nsec now =>
      obtain ⟨r, -, hpost⟩ := (wp_testSetattrMtime hB h ino sec nsec now).exec hrun hc
      exact hpost.effect Bool.false_ne_true
  | setxattr ino name value =>
      obtain ⟨r, -, hpost⟩ := (wp_testSetxattr h ino name value).exec hrun hc
      exact hpost.effect Bool.false_ne_true
  | removexattr ino name =>
      obtain ⟨r, -, hpost⟩ := (wp_testRemovexattr h ino name).exec hrun hc
      exact hpost.effect Bool.false_ne_true

/-- What every part of a request keeps to, the request keeps to. -/
theorem FsOp.grows {g : Growth (Store B)} [TreeGrowth L g] {op : FsOp}
    (hx : ∀ ino ∈ op.xattrIno, ∀ xs, Growing g (setXattrs ino xs : StoreM B Unit))
    (h : op.run s = some s') : g.le s.store s'.store := by
  have key : ∀ {α : Type} {m : FsM B α}, Growing (g.comap Fs.store) m →
      Prog.exec m s = some s' → g.le s.store s'.store := by
    intro α m hm hx
    rw [← Prog.snd_of_exec hx]
    exact hm.le_run s
  cases op with
  | setxattr ino name value =>
      have hset := hx ino rfl
      refine key ?_ h
      unfold testSetxattr setXattr
      infer_instance
  | removexattr ino name =>
      have hset := hx ino rfl
      refine key ?_ h
      unfold testRemovexattr removeXattr
      infer_instance
  | _ => exact key inferInstance h

/-- A request only adds to the backend, and does at most flush the log. -/
theorem FsOp.le_run (L : B.Laws) {op : FsOp} (h : op.run s = some s') : L.growthFs.le s s' :=
  FsOp.grows (g := L.growthQuiet) (fun _ _ _ => inferInstance) h

theorem Runs.le (L : B.Laws) {P : Fs B → FsOp → Prop} (h : Runs P s s') : L.growthFs.le s s' := by
  induction h with
  | refl => exact L.growthFs.le_refl _
  | step _ _ hrun ih => exact L.growthFs.le_trans ih (FsOp.le_run L hrun)

/-- Numbers that were not handed out stand for nothing, and no content is too long. -/
structure Files.Wf (f : Files) : Prop where
  known : ∀ (fh : UInt64) (h : Handle), f.handles[fh]? = some h →
    fh ≤ f.nextFh ∧ h.ino < f.core.nextIno
  length_le : ∀ (fh : UInt64) (h : Handle), f.handles[fh]? = some h → h.content.length ≤ isizeMax
  content_fresh : ∀ i : UInt64, f.core.nextIno ≤ i → f.core.content i = none
  inode_fresh : ∀ i : UInt64, f.core.nextIno ≤ i → f.core.inodes[i]? = none

theorem Blockset.Laws.Views.wf (hv : L.Views s f) : f.Wf where
  known := hv.known
  length_le fh h hfh := by
    obtain ⟨o, -, hview⟩ := hv.getFile_some hfh
    exact hview.length_le
  content_fresh i hi := by
    cases hb : f.core.content i with
    | none => rfl
    | some b =>
        have hlt := (hv.core.manifest i (some b) (Option.join_eq_some_iff.mp hb)).2
        exact absurd hlt (UInt64.not_lt.mpr hi)
  inode_fresh i hi := by
    cases hm : f.core.inodes[i]? with
    | none => rfl
    | some m => exact absurd (hv.core.inode i m hm).2.2 (UInt64.not_lt.mpr hi)

theorem Files.Wf.nextFh_closed (hw : f.Wf) (hmax : f.nextFh ≠ u64Max) :
    f.handles[f.nextFh + 1]? = none := by
  cases hfh : f.handles[f.nextFh + 1]? with
  | none => rfl
  | some hd =>
      exact absurd (hw.known _ hd hfh).1 (UInt64.not_le.mpr (lt_add_one_of_ne_u64Max hmax))

theorem Traces.le (L : B.Laws) {G : Type} {next : Fs B → G → FsOp → G}
    {P : Fs B → G → FsOp → Prop} {g g' : G} (h : Traces next P s g s' g') : L.growthFs.le s s' := by
  induction h with
  | refl => exact L.growthFs.le_refl _
  | step _ _ hrun ih => exact L.growthFs.le_trans ih (FsOp.le_run L hrun)

/-- An invariant of files and records that the effect of every request keeps holds after
every run. -/
theorem Traces.files (hB : L.Reliable) {G : Type} {next : Fs B → G → FsOp → G}
    {P : Fs B → G → FsOp → Prop} (hP : ∀ s g op, P s g op → op.Valid s) {I : G → Files → Prop}
    {s₀ : Fs B} {f₀ : Files} {g₀ g : G} (h₀ : L.Views s₀ f₀) (hI : I g₀ f₀)
    (hstep : ∀ s f g op f', P s g op → L.NoCollision s.store.io → L.Views s f → I g f →
      FsOp.Effect L.digest (s.removedBy op) op f f' → I (next s g op) f')
    (hrun : Traces next P s₀ g₀ s g) (hc : L.NoCollision s.store.io) :
    ∃ f, L.Views s f ∧ I g f := by
  induction hrun with
  | refl => exact ⟨f₀, h₀, hI⟩
  | @step s₁ s₂ _ g op _ hop hrun ih =>
      have hc₁ := hc.of_le (FsOp.le_run L hrun).1
      obtain ⟨f, hv, hIf⟩ := ih hI hc₁
      obtain ⟨f', heffect, hv'⟩ := FsOp.effect hB hv (hP s₁ g op hop) hrun hc
      exact ⟨f', hv', hstep s₁ f g op f' hop hc₁ hv hIf heffect⟩

/-- An invariant of files that the effect of every request keeps holds after every run. -/
theorem Runs.files (hB : L.Reliable) {P : Fs B → FsOp → Prop} (hP : ∀ s op, P s op → op.Valid s)
    {I : Files → Prop} {s₀ : Fs B} {f₀ : Files} (h₀ : L.Views s₀ f₀) (hI : I f₀)
    (hstep : ∀ s f op f', P s op → L.NoCollision s.store.io → L.Views s f → I f →
      FsOp.Effect L.digest (s.removedBy op) op f f' → I f')
    (hrun : Runs P s₀ s) (hc : L.NoCollision s.store.io) : ∃ f, L.Views s f ∧ I f := by
  induction hrun with
  | refl => exact ⟨f₀, h₀, hI⟩
  | @step s₁ s₂ op _ hop hrun ih =>
      have hc₁ := hc.of_le (FsOp.le_run L hrun).1
      obtain ⟨f, hv, hIf⟩ := ih hc₁
      obtain ⟨f', heffect, hv'⟩ := FsOp.effect hB hv (hP s₁ op hop) hrun hc
      exact ⟨f', hv', hstep s₁ f op f' hop hc₁ hv hIf heffect⟩

variable (L) in
/-- The stores that are found at a mount before anything was changed: new ones, seeded
ones, with regular files if `files` is set, and those loaded from their root. -/
inductive Prepared (overflowChecks files : Bool) : Store B → Prop where
  | new {uid gid : UInt32} {io io' : B.Io} {st : Store B} :
      Store.new B uid gid io = (.ok st, io') → Prepared overflowChecks files st
  | seeded {uid gid : UInt32} {io io' : B.Io} {st st' : Store B} {source : SourceMeta}
      {tree : SeedTree} : Store.new B uid gid io = (.ok st, io') →
      seed source tree st = (.ok (), st') → (tree.hasFiles = true → files = true) →
      Prepared overflowChecks files st'
  | loaded {st st' u : Store B} {root : Digest224} {io io' : B.Io} :
      Prepared overflowChecks files st →
      commit st = ((.ok root, st') : Except (Fault MetaError) _ × _) → L.le st'.io io →
      L.NoCollision io → loadFromRoot B overflowChecks root io = (.ok u, io') →
      Prepared overflowChecks files u
  | logged {st : Store B} (log : StoreLog) : Prepared overflowChecks files st →
      Prepared overflowChecks files { st with log := log }

theorem Blockset.Laws.Holds.logged {st : Store B} {c : Contents} (h : L.Holds st c)
    (log : StoreLog) : L.Holds { st with log := log } c :=
  ⟨h.inodes, h.inode, h.manifests, h.manifest, h.content, h.dirs, h.refcounts, h.nextIno⟩

/-- A store loaded from the root of a commit stands for what was committed. -/
theorem Blockset.Laws.Holds.loaded {st : Store B} {c : Contents} (h : L.Holds st c) {io : B.Io}
    (hle : L.le st.io io) (root : Digest224) : L.Holds (loadedStore io root st.maps) c :=
  let hg := h.grow hle
  ⟨hg.inodes, hg.inode, hg.manifests, hg.manifest, hg.content, hg.dirs, hg.refcounts, hg.nextIno⟩

theorem Prepared.holds (hB : L.Reliable) {overflowChecks files : Bool} {st : Store B}
    (h : Prepared L overflowChecks files st) (hc : L.NoCollision st.io) :
    ∃ uid gid c, (Contents.initial (rootInode uid gid)).Seeding files c ∧ L.Holds st c := by
  induction h with
  | new h => exact ⟨_, _, _, .refl _, (holds_new hB h).1⟩
  | @seeded uid gid _ _ st st' source tree hnew hseed hfiles =>
      have hwp := wp_seed hB (holds_new (L := L) hB hnew).1 source tree hfiles
      have hrun : (seed source tree st).2 = st' := congrArg Prod.snd hseed
      obtain ⟨c, hs, hc⟩ := hwp (by rw [hrun]; exact hc) (congrArg Prod.fst hseed)
      rw [hrun] at hc
      exact ⟨uid, gid, c, hs, hc⟩
  | loaded _ hcommit hle hio hload ih =>
      obtain rfl := eq_loadedStore_of_commit L hB hcommit hle hio hload
      obtain ⟨-, -, -, hle', -, -⟩ := commit_spec L hB hcommit
      have hle'' := L.le_trans hle' hle
      obtain ⟨uid, gid, c, hs, hh⟩ := ih (hc.of_le hle'')
      exact ⟨uid, gid, c, hs, hh.loaded hle'' _⟩
  | logged log _ ih =>
      obtain ⟨uid, gid, c, hs, hh⟩ := ih hc
      exact ⟨uid, gid, c, hs, hh.logged log⟩

/-- The file system on a store without open handles. -/
def Fs.mount (st : Store B) (autoSnapshot : Bool) : Fs B :=
  { Fs.new st with autoSnapshot := autoSnapshot }

theorem views_mount {st : Store B} {c : Contents} (h : L.Holds st c) (autoSnapshot : Bool) :
    L.Views (Fs.mount st autoSnapshot) ⟨c, ∅, 0⟩ where
  core := h
  handles fh := by
    show Option.Rel _ (∅ : Map UInt64 (OpenFileState B))[fh]? (∅ : Map UInt64 Handle)[fh]?
    simp
  known fh hd hfh := by simp at hfh
  nextFh := rfl

variable (L) in
/-- The states of mounted file systems, over any number of sessions. -/
inductive Mounted (overflowChecks : Bool) : Fs B → Prop where
  | start {st : Store B} (autoSnapshot : Bool) : Prepared L overflowChecks true st →
      Mounted overflowChecks (Fs.mount st autoSnapshot)
  | step {s s' : Fs B} {op : FsOp} : Mounted overflowChecks s → op.Valid s → op.run s = some s' →
      Mounted overflowChecks s'
  | remount {s : Fs B} {st u : Store B} {root : Digest224} {io io' : B.Io} (log : StoreLog)
      (autoSnapshot : Bool) : Mounted overflowChecks s →
      commit s.store = ((.ok root, st) : Except (Fault MetaError) _ × _) → L.le st.io io →
      L.NoCollision io → loadFromRoot B overflowChecks root io = (.ok u, io') →
      Mounted overflowChecks (Fs.mount { u with log := log } autoSnapshot)

theorem Mounted.runFsOps {overflowChecks : Bool} {ops : List FsOp}
    (h : Mounted L overflowChecks s) (hrun : runFsOps ops s = some s') :
    Mounted L overflowChecks s' := by
  induction ops generalizing s with
  | nil =>
      obtain rfl := Option.some.inj hrun
      exact h
  | cons op ops ih =>
      unfold SliceFs.runFsOps at hrun
      split_ifs at hrun with hv
      obtain ⟨s₁, h₁, h₂⟩ := Option.bind_eq_some_iff.mp hrun
      exact ih (h.step hv h₁) h₂

/-- Every mounted file system stands for some files. -/
theorem Mounted.views (hB : L.Reliable) {overflowChecks : Bool}
    (h : Mounted L overflowChecks s) (hc : L.NoCollision s.store.io) : ∃ f, L.Views s f := by
  induction h with
  | start auto hst =>
      obtain ⟨_, _, c, -, hh⟩ := hst.holds hB hc
      exact ⟨_, views_mount hh auto⟩
  | step _ hvalid hrun ih =>
      obtain ⟨f, hf⟩ := ih (hc.of_le (FsOp.le_run L hrun).1)
      obtain ⟨f', -, hf'⟩ := FsOp.effect hB hf hvalid hrun hc
      exact ⟨f', hf'⟩
  | remount log auto _ hcommit hle hio hload ih =>
      obtain rfl := eq_loadedStore_of_commit L hB hcommit hle hio hload
      obtain ⟨-, -, -, hle', -, -⟩ := commit_spec L hB hcommit
      have hle'' := L.le_trans hle' hle
      obtain ⟨f, hf⟩ := ih (hc.of_le hle'')
      exact ⟨_, views_mount ((hf.core.loaded hle'' _).logged log) auto⟩

end

/-- A mounted file system without files, in memory. -/
def freshFs : Fs memoryBlockset := Fs.mount freshStore false

theorem prepared_freshStore (overflowChecks files : Bool) :
    Prepared memoryLaws overflowChecks files freshStore :=
  .new (Prog.eq_ok_of_isSome (by decide +kernel))

theorem mounted_freshFs (overflowChecks : Bool) : Mounted memoryLaws overflowChecks freshFs :=
  .start false (prepared_freshStore overflowChecks true)

def nameA : Str := .a

/-- The name `b`. -/
def nameB : Str := ⟨[0x62], by decide, by decide⟩

def midnight : Now := ⟨0, 0⟩

/-- A file `a`, with inode 2. -/
def fileFs : Fs memoryBlockset :=
  ((FsOp.create 1 nameA 0o644 0 0 0).run freshFs).get (by decide +kernel)

end SliceFs
