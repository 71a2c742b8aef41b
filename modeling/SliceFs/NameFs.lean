import SliceFs.Orphans

/-!
# Names, as a client sees them

`NameFs` says what requests on names are for, without entry lists, keys or blobs: a
directory is a map from names to inode numbers. It is the account that POSIX gives of them:
a rename replaces what its new name stood for, and one between two names of the same inode
does nothing. `NameFs.Regular` leaves out the renames on which the code differs.
-/
namespace SliceFs
open TreeMaps ProgramLogic

/-- A file system as its clients see it. The names of a directory are those it was given,
without `.` and `..`. -/
@[ext] structure NameFs where
  inodes : UInt64 → Option InodeMeta
  dirs : UInt64 → Option (Str → Option UInt64)
  next : UInt64

namespace NameFs
variable (f : NameFs)

def resolve (p : UInt64) (name : Str) : Option UInt64 := (f.dirs p).bind fun d => d name

/-- A number is handed out; it is not given back when the request fails later. -/
def burn : NameFs := { f with next := f.next + 1 }

def setInode (i : UInt64) (m : Option InodeMeta) : NameFs :=
  { f with inodes := Function.update f.inodes i m }

def modifyInode (i : UInt64) (change : InodeMeta → InodeMeta) : NameFs :=
  f.setInode i ((f.inodes i).map change)

def setDir (i : UInt64) (d : Option (Str → Option UInt64)) : NameFs :=
  { f with dirs := Function.update f.dirs i d }

def enter (p : UInt64) (name : Str) (i : Option UInt64) : NameFs :=
  f.setDir p ((f.dirs p).map fun d => Function.update d name i)

/-- An inode without names goes. -/
def dropLink (i : UInt64) (m : InodeMeta) : NameFs :=
  f.setInode i (if m.nlinks ≤ 1 then none else some { m with nlinks := m.nlinks - 1 })

/-- Why a name cannot be made. -/
def refusal (p : UInt64) (name : Str) : Option Errno :=
  match f.dirs p with
  | none => some .enotdir
  | some d => if (d name).isSome then some .eexist else none

def make (p : UInt64) (name : Str) (m : InodeMeta) : Reply × NameFs :=
  match f.refusal p name with
  | some e => (.error (.err e), f.burn)
  | none => (.ok (some f.next),
      (f.burn.setInode f.next (some { m with ino := f.next })).enter p name (some f.next))

def mkdir (p : UInt64) (name : Str) (m : InodeMeta) : Reply × NameFs :=
  match f.refusal p name with
  | some e => (.error (.err e), f.burn)
  | none => (.ok (some f.next),
      (((f.burn.setInode f.next (some { m with ino := f.next })).setDir f.next
        (some fun _ => none)).enter p name (some f.next)).modifyInode p fun pm =>
          { pm with nlinks := pm.nlinks + 1 })

def link (i p : UInt64) (name : Str) (now : Now) : Reply × NameFs :=
  match f.inodes i with
  | none => (.error (.err .enoent), f)
  | some m =>
    if m.isDir then (.error (.err .eperm), f)
    else match f.refusal p name with
      | some e => (.error (.err e), f)
      | none => (.ok (some i), (f.enter p name (some i)).setInode i
          (some (({ m with nlinks := m.nlinks + 1 } : InodeMeta).setCtime now)))

/-- The inode that a name stands for. -/
def target (p : UInt64) (name : Str) : Option (UInt64 × InodeMeta) :=
  (f.resolve p name).bind fun i => (f.inodes i).map fun m => (i, m)

def unlink (p : UInt64) (name : Str) : Reply × NameFs :=
  match f.target p name with
  | none => (.error (.err .enoent), f)
  | some (i, m) =>
    if m.isDir then (.error (.err .eisdir), f)
    else (.ok none, (f.enter p name none).dropLink i m)

open Classical in
noncomputable def rmdir (p : UInt64) (name : Str) : Reply × NameFs :=
  match f.target p name with
  | none => (.error (.err .enoent), f)
  | some (i, m) =>
    if m.isDir then
      match f.dirs i with
      | none => (.error (.err .enotdir), f)
      | some d =>
        if ∃ n, d n ≠ none then (.error (.err .enotempty), f)
        else (.ok none,
          (((f.enter p name none).setInode i none).setDir i none).modifyInode p InodeMeta.dropLink)
    else (.error (.err .enotdir), f)

/-- An inode gets a name and loses another. -/
def move (p : UInt64) (name : Str) (q : UInt64) (newName : Str) (i : UInt64) (now : Now) : NameFs :=
  ((f.enter q newName (some i)).enter p name none).modifyInode i fun m => m.setCtime now

def rename (p : UInt64) (name : Str) (q : UInt64) (newName : Str) (flags : UInt32) (now : Now) :
    Reply × NameFs :=
  if flags &&& 2 = 0 then
    match f.resolve p name with
    | none => (.error (.err .enoent), f)
    | some i =>
      match f.resolve q newName with
      | none => (.ok none, f.move p name q newName i now)
      | some j =>
        if flags &&& 1 = 0 then
          if j = i then (.ok none, f)
          else match f.inodes j with
            | none => (.error (.err .enoent), f)
            | some n =>
              (.ok none, ((f.enter q newName none).dropLink j n).move p name q newName i now)
        else (.error (.err .eexist), f)
  else (.error (.err .enosys), f)

noncomputable def step : FsOp → Reply × NameFs
  | .create p name mode umask uid gid => f.make p name (.newFile 0 uid gid (fileMode mode umask))
  | .mknod p name mode uid gid umask =>
      if mode &&& S_IFMT = S_IFREG ∨ mode &&& S_IFMT = 0 then
        f.make p name (.newFile 0 uid gid (fileMode mode umask))
      else (.error (.err .enosys), f)
  | .mkdir p name mode umask uid gid =>
      f.mkdir p name (.newDirectory 0 uid gid (S_IFDIR ||| (mode &&& ~~~umask &&& 0o7777)))
  | .symlink p name target uid gid =>
      f.make p name (symlinkInode uid gid (UInt64.ofNat target.bytes.length))
  | .link i p name now => f.link i p name now
  | .unlink p name => f.unlink p name
  | .rmdir p name => f.rmdir p name
  | .rename p name q newName flags now => f.rename p name q newName flags now
  | _ => (.ok none, f)

/-- A rename on which the code does what POSIX asks: of a live inode, and over nothing or over
another inode; neither of the two is a directory, except that a directory may get a new name
in its parent. -/
def Movable (p : UInt64) (name : Str) (q : UInt64) (newName : Str) : Prop :=
  ∀ i ∈ f.resolve p name, ∃ m, f.inodes i = some m ∧
    (m.isDir → p = q ∧ f.resolve q newName = none) ∧
    ∀ j ∈ f.resolve q newName, j ≠ i ∧ ∀ n ∈ f.inodes j, ¬ n.isDir

/-- The requests that the kernel makes of directories it has looked up, without the renames
that are not `Movable`. -/
def Regular (op : FsOp) : Prop :=
  (∀ p ∈ op.parents, (f.dirs p).isSome) ∧
    match op with
    | .rename p name q newName _ _ => f.Movable p name q newName
    | _ => True

/-- Nothing has changed, though a number may be used up. -/
def Spares (f' : NameFs) : Prop := f' = f ∨ f' = f.burn

section Errors
variable {f} {e : Fault Errno} {p q i : UInt64} {name newName : Str} {m : InodeMeta} {now : Now}
  {flags : UInt32}

theorem make_error (h : (f.make p name m).1 = .error e) : f.Spares (f.make p name m).2 := by
  unfold make at h ⊢
  split at h <;> simp_all [Spares]

theorem mkdir_error (h : (f.mkdir p name m).1 = .error e) : f.Spares (f.mkdir p name m).2 := by
  unfold mkdir at h ⊢
  split at h <;> simp_all [Spares]

theorem link_error (h : (f.link i p name now).1 = .error e) : f.Spares (f.link i p name now).2 := by
  unfold link at h ⊢
  repeat' split at h
  all_goals simp_all [Spares]

theorem unlink_error (h : (f.unlink p name).1 = .error e) : f.Spares (f.unlink p name).2 := by
  unfold unlink at h ⊢
  repeat' split at h
  all_goals simp_all [Spares]

theorem rmdir_error (h : (f.rmdir p name).1 = .error e) : f.Spares (f.rmdir p name).2 := by
  unfold rmdir at h ⊢
  repeat' split at h
  all_goals simp_all [Spares]

theorem rename_error (h : (f.rename p name q newName flags now).1 = .error e) :
    f.Spares (f.rename p name q newName flags now).2 := by
  unfold rename at h ⊢
  repeat' split at h
  all_goals simp_all [Spares]

/-- A request that fails changes nothing. -/
theorem step_error {op : FsOp} (h : (f.step op).1 = .error e) : f.Spares (f.step op).2 := by
  cases op with
  | create p name mode umask uid gid => exact make_error h
  | mknod p name mode uid gid umask =>
      simp only [step] at h ⊢
      split at h
      · rw [if_pos ‹_›]
        exact make_error h
      · rw [if_neg ‹_›]
        exact .inl rfl
  | symlink p name target uid gid => exact make_error h
  | mkdir p name mode umask uid gid => exact mkdir_error h
  | link i p name now => exact link_error h
  | unlink p name => exact unlink_error h
  | rmdir p name => exact rmdir_error h
  | rename p name q newName flags now => exact rename_error h
  | _ => exact .inl rfl

end Errors

end NameFs

section View
variable (key : Str → Digest224)

/-- The names of an entry list, without the two that every directory has. -/
def Entries.names (es : Entries) (name : Str) : Option UInt64 :=
  if name.IsDots then none
  else (es[key name]?).bind fun e => if e.name = name then some e.ino else none

namespace Tree

/-- The entry list of a live directory. A directory that was removed leaves its list
behind. -/
def liveDir (t : Tree) (p : UInt64) : Option Entries :=
  (t.inodes[p]?).bind fun m => if m.isDir then t.dirs[p]? else none

/-- What a tree looks like to a client. -/
def view (t : Tree) : NameFs where
  inodes i := t.inodes[i]?
  dirs p := (t.liveDir p).map (Entries.names key)
  next := t.nextIno

end Tree

section Lemmas
variable {key} {t : Tree} {es : Entries} {p q i : UInt64} {name : Str} {m n : InodeMeta}

theorem Entries.names_insert (hdots : ¬ name.IsDots) (hfree : es[key name]? = none) (i : UInt64) :
    Entries.names key (es.insert (key name) ⟨key name, i, name⟩) =
      Function.update (Entries.names key es) name (some i) := by
  funext other
  by_cases hother : other = name
  · subst hother
    simp [Entries.names, hdots]
  · rw [Function.update_of_ne hother]
    simp only [Entries.names, getElem?_insert_ite]
    by_cases hkey : key other = key name
    · simp [hkey, hfree, Ne.symm hother]
    · simp [hkey]

theorem Entries.names_erase {e : EntryRecord} (he : es[key name]? = some e)
    (hname : e.name = name) :
    Entries.names key (es.erase (key name)) = Function.update (Entries.names key es) name none := by
  funext other
  by_cases hother : other = name
  · subst hother
    simp [Entries.names]
  · rw [Function.update_of_ne hother]
    simp only [Entries.names, getElem?_erase_ite]
    by_cases hkey : key other = key name
    · simp [hkey, he, hname, Ne.symm hother]
    · simp [hkey]

theorem Entries.names_newDir (i p : UInt64) :
    Entries.names key (Tree.newDir key i p) = fun _ => none := by
  funext name
  by_cases hdots : name.IsDots
  · simp [Entries.names, hdots]
  · have hdot : Str.dot ≠ name := fun h => hdots (.inl h.symm)
    have hdotDot : Str.dotDot ≠ name := fun h => hdots (.inr h.symm)
    simp only [Entries.names, hdots, if_false, Tree.newDir, getElem?_insert_ite]
    split_ifs <;> simp [hdot, hdotDot]

namespace Tree

theorem liveDir_of_inode (hm : t.inodes[p]? = some m) (hdir : m.isDir) :
    t.liveDir p = t.dirs[p]? := by
  simp [liveDir, hm, hdir]

theorem dirs_of_liveDir (h : t.liveDir p = some es) : t.dirs[p]? = some es := by
  unfold liveDir at h
  obtain ⟨m, -, h⟩ := Option.bind_eq_some_iff.mp h
  split_ifs at h with hdir
  exact h

theorem liveDir_setDirs (h : t.liveDir p = some es) (es' : Entries) :
    ({ t with dirs := t.dirs.insert p es' } : Tree).liveDir =
      Function.update t.liveDir p (some es') := by
  funext q
  by_cases hq : q = p
  · subst hq
    unfold liveDir at h ⊢
    obtain ⟨m, hm, h⟩ := Option.bind_eq_some_iff.mp h
    split_ifs at h with hdir
    simp [hm, hdir]
  · simp [liveDir, getElem?_insert_ite, hq]

theorem view_link (hlive : t.liveDir p = some es) (hfree : t.Free key p name) (i : UInt64) :
    (t.link (key name) p name i).view key = (t.view key).enter p name (some i) := by
  have hes := dirs_of_liveDir hlive
  have hnone : es[key name]? = none := by
    have := hfree.entry
    rwa [entry, hes] at this
  refine NameFs.ext rfl ?_ rfl
  funext q
  simp only [view, link, hes, Option.getD_some, liveDir_setDirs hlive, NameFs.enter, NameFs.setDir]
  by_cases hq : q = p
  · subst hq
    simp [hlive, Entries.names_insert hfree.proper hnone]
  · simp [Function.update_of_ne hq]

theorem view_unlink (hlive : t.liveDir p = some es) (hname : t.Names key p name i) :
    (t.unlink (key name) p).view key = (t.view key).enter p name none := by
  have hes := dirs_of_liveDir hlive
  obtain ⟨e, he, hename, -⟩ := hname
  rw [entry, hes] at he
  refine NameFs.ext rfl ?_ rfl
  funext q
  simp only [view, unlink, hes, Option.getD_some, liveDir_setDirs hlive, NameFs.enter,
    NameFs.setDir]
  by_cases hq : q = p
  · subst hq
    simp [hlive, Entries.names_erase he hename]
  · simp [Function.update_of_ne hq]

theorem view_insertInode (hdir : m.isDir ↔ ∃ n, t.inodes[i]? = some n ∧ n.isDir) :
    ({ t with inodes := t.inodes.insert i m } : Tree).view key =
      (t.view key).setInode i (some m) := by
  refine NameFs.ext ?_ ?_ rfl <;> funext q
  · simp only [view, NameFs.setInode, getElem?_insert_ite, Function.update_apply]
  · simp only [view, NameFs.setInode, liveDir, getElem?_insert_ite]
    by_cases hq : q = i
    · subst hq
      by_cases hm : m.isDir
      · obtain ⟨n, hn, hndir⟩ := hdir.mp hm
        simp [hm, hn, hndir]
      · have hold : ∀ n, t.inodes[q]? = some n → ¬ n.isDir := fun n hn h => hm (hdir.mpr ⟨n, hn, h⟩)
        cases hn : t.inodes[q]? with
        | none => simp [hm]
        | some n => simp [hm, hold n hn]
    · simp [hq]

theorem view_removeInode (t : Tree) (i : UInt64) :
    (t.removeInode i).view key = ((t.view key).setInode i none).setDir i none := by
  refine NameFs.ext ?_ ?_ rfl <;> funext q
  · simp only [view, removeInode, NameFs.setInode, NameFs.setDir, getElem?_erase_ite,
      Function.update_apply]
  · simp only [view, removeInode, NameFs.setInode, NameFs.setDir, liveDir, getElem?_erase_ite]
    by_cases hq : q = i <;> simp [hq]

theorem setDir_view_of_file (hm : t.inodes[i]? = some m) (hdir : ¬ m.isDir) (x : Option InodeMeta) :
    ((t.view key).setInode i x).setDir i none = (t.view key).setInode i x := by
  refine NameFs.ext rfl ?_ rfl
  have hnone : t.liveDir i = none := by simp [liveDir, hm, hdir]
  simp only [NameFs.setDir, NameFs.setInode, Function.update_eq_self_iff, view, hnone,
    Option.map_none]

theorem view_modifyInode {change : InodeMeta → InodeMeta}
    (hchange : ∀ m, (change m).isDir ↔ m.isDir) :
    (t.modifyInode i change).view key = (t.view key).modifyInode i change := by
  unfold modifyInode NameFs.modifyInode
  cases hm : t.inodes[i]? with
  | none =>
      have hself : (t.view key).inodes i = none := hm
      refine NameFs.ext ?_ rfl rfl
      simp only [NameFs.setInode, hself, Option.map_none]
      exact (Function.update_eq_self_iff.mpr hself.symm).symm
  | some m =>
      have hself : (t.view key).inodes i = some m := hm
      rw [hself]
      exact view_insertInode (by simp [hm, hchange])

theorem view_displace (hm : t.inodes[i]? = some m) (hino : m.ino = i) (hdir : ¬ m.isDir) :
    (t.displace i m).view key = (t.view key).dropLink i m := by
  unfold displace NameFs.dropLink
  split_ifs
  · rw [view_removeInode, setDir_view_of_file hm hdir]
  · simp only [putInode, hino]
    exact view_insertInode (by simp [hm, InodeMeta.isDir])

theorem view_addInode (hfresh : t.inodes[t.nextIno]? = none) (hdir : ¬ m.isDir) :
    (t.addInode m).view key =
      (t.view key).burn.setInode t.nextIno (some { m with ino := t.nextIno }) :=
  view_insertInode (t := t.burnIno) ⟨fun h => absurd h hdir, by simp [hfresh, burnIno]⟩

theorem view_insertDir (hdir : m.isDir) (p : UInt64) :
    (t.insertDir (newDir key t.nextIno p) m).view key =
      ((t.view key).burn.setInode t.nextIno (some { m with ino := t.nextIno })).setDir t.nextIno
        (some fun _ => none) := by
  refine NameFs.ext ?_ ?_ rfl <;> funext q
  · simp only [view, insertDir, addInode, NameFs.setInode, NameFs.setDir, NameFs.burn,
      getElem?_insert_ite, Function.update_apply]
  · have hdir' : ({ m with ino := t.nextIno } : InodeMeta).isDir := hdir
    simp only [view, insertDir, addInode, NameFs.setInode, NameFs.setDir, NameFs.burn, liveDir,
      getElem?_insert_ite]
    by_cases hq : q = t.nextIno
    · simp [hq, hdir', Entries.names_newDir]
    · simp [hq]

end Tree

end Lemmas

end View

end SliceFs
