import SliceFs.Mount

/-!
# Directory trees

What the operations on names do to the entry lists and the inodes together. A tree has
the contents of a store and, for every directory that was ever made, its entries by the
key of the name. `Tree.Step` says what each request makes of a tree.
-/
namespace SliceFs
open TreeMaps ProgramLogic

abbrev Entries := Map Digest224 EntryRecord

def Str.IsDots (name : Str) : Prop := name = .dot ∨ name = .dotDot

instance (name : Str) : Decidable name.IsDots := inferInstanceAs (Decidable (_ ∨ _))

/-- The number of entries of one directory with a property. -/
def entryCount (P : EntryRecord → Prop) [DecidablePred P] (es : Entries) : ℕ :=
  total (fun _ e => if P e then 1 else 0) es

theorem entryCount_eq (P : EntryRecord → Prop) [DecidablePred P] (es : Entries) :
    entryCount P es = es.toList.countP fun e => P e.2 := by
  unfold entryCount total
  induction es.toList with
  | nil => rfl
  | cons e l ih =>
      rw [List.map_cons, List.sum_cons, List.countP_cons, ih, Nat.add_comm]
      simp only [decide_eq_true_eq]

theorem entryCount_insert (P : EntryRecord → Prop) [DecidablePred P] {es : Entries} {k : Digest224}
    (h : es[k]? = none) (e : EntryRecord) :
    entryCount P (es.insert k e) = (if P e then 1 else 0) + entryCount P es :=
  total_insert_new _ h e

theorem entryCount_erase (P : EntryRecord → Prop) [DecidablePred P] {es : Entries} {k : Digest224}
    {e : EntryRecord} (h : es[k]? = some e) :
    (if P e then 1 else 0) + entryCount P (es.erase k) = entryCount P es :=
  total_erase (fun _ e => if P e then 1 else 0) h

theorem entryCount_eq_zero {P : EntryRecord → Prop} [DecidablePred P] {es : Entries}
    (h : ∀ (k : Digest224) (e : EntryRecord), es[k]? = some e → ¬ P e) : entryCount P es = 0 :=
  (total_eq_zero_iff _ _).mpr fun k e he => if_neg (h k e he)

/-- The same entries are counted in two directories. -/
theorem entryCount_congr {P Q : EntryRecord → Prop} [DecidablePred P] [DecidablePred Q]
    {es fs : Entries}
    (h : ∀ (k : Digest224) (e : EntryRecord), es[k]? = some e ∧ P e ↔ fs[k]? = some e ∧ Q e) :
    entryCount P es = entryCount Q fs := by
  rw [entryCount_eq, entryCount_eq, List.countP_eq_length_filter, List.countP_eq_length_filter]
  refine ((List.perm_ext_iff_of_nodup ((nodup_toList es).filter _)
    ((nodup_toList fs).filter _)).mpr ?_).length_eq
  rintro ⟨k, e⟩
  rw [List.mem_filter, List.mem_filter, Std.ExtTreeMap.mem_toList_iff_getElem?_eq_some,
    Std.ExtTreeMap.mem_toList_iff_getElem?_eq_some, decide_eq_true_eq, decide_eq_true_eq]
  exact h k e

/-- The directory and the name of the file that a request makes. -/
def FsOp.makes : FsOp → Option (UInt64 × Str)
  | .create parent name _ _ _ _ => some (parent, name)
  | .mknod parent name _ _ _ _ => some (parent, name)
  | .symlink parent name _ _ _ => some (parent, name)
  | _ => none

/-- The inode that a request makes, with its directory and its name. -/
def FsOp.node : FsOp → Option (UInt64 × Str × InodeMeta)
  | .create parent name mode umask uid gid =>
      some (parent, name, .newFile 0 uid gid (fileMode mode umask))
  | .mknod parent name mode uid gid umask =>
      if mode &&& S_IFMT = S_IFREG ∨ mode &&& S_IFMT = 0 then
        some (parent, name, .newFile 0 uid gid (fileMode mode umask))
      else none
  | .symlink parent name target uid gid =>
      some (parent, name, symlinkInode uid gid (UInt64.ofNat target.bytes.length))
  | _ => none

/-- The directory and the name that a request removes. -/
def FsOp.removes : FsOp → Option (UInt64 × Str)
  | .unlink parent name => some (parent, name)
  | .rmdir parent name => some (parent, name)
  | _ => none

/-- The answer to a request, with the number of the inode that was made or linked. -/
abbrev Reply := Except (Fault Errno) (Option UInt64)

def InodeMeta.dropLink (m : InodeMeta) : InodeMeta :=
  if 0 < m.nlinks then { m with nlinks := m.nlinks - 1 } else m

structure Tree where
  inodes : Map UInt64 InodeMeta
  dirs : Map UInt64 Entries
  nextIno : UInt64

namespace Tree

section
variable (t : Tree)

/-- The entry under a key in a directory. -/
def entry (p : UInt64) (k : Digest224) : Option EntryRecord := (t.dirs[p]?).bind fun es => es[k]?

def burnIno : Tree := { t with nextIno := t.nextIno + 1 }

def putInode (m : InodeMeta) : Tree := { t with inodes := t.inodes.insert m.ino m }

def addInode (m : InodeMeta) : Tree :=
  { t with
    inodes := t.inodes.insert t.nextIno { m with ino := t.nextIno }
    nextIno := t.nextIno + 1 }

def removeInode (i : UInt64) : Tree := { t with inodes := t.inodes.erase i }

/-- A change of the attributes of an inode, if it exists. -/
def modifyInode (i : UInt64) (change : InodeMeta → InodeMeta) : Tree :=
  match t.inodes[i]? with
  | none => t
  | some m => { t with inodes := t.inodes.insert i (change m) }

def link (k : Digest224) (p : UInt64) (name : Str) (i : UInt64) : Tree :=
  { t with dirs := t.dirs.insert p (((t.dirs[p]?).getD ∅).insert k ⟨k, i, name⟩) }

def unlink (k : Digest224) (p : UInt64) : Tree :=
  { t with dirs := t.dirs.insert p (((t.dirs[p]?).getD ∅).erase k) }

/-- An inode loses a link; a directory without links is left behind. -/
def displace (i : UInt64) (m : InodeMeta) : Tree :=
  if m.nlinks ≤ 1 then if m.isDir then t else t.removeInode i
  else t.putInode { m with nlinks := m.nlinks - 1 }

def dropBacklink (p : UInt64) : Tree := t.modifyInode p InodeMeta.dropLink

def touch (i : UInt64) (now : Now) : Tree := t.modifyInode i fun m => m.setCtime now

/-- A new directory that nothing names yet. -/
def insertDir (newDir : Entries) (m : InodeMeta) : Tree :=
  { t.addInode m with dirs := t.dirs.insert t.nextIno newDir }

/-- A new directory with its entry in the parent, whose count goes up. -/
def addDirectory (newDir : Entries) (k : Digest224) (p : UInt64) (name : Str) (m : InodeMeta) :
    Tree :=
  ((t.insertDir newDir m).link k p name t.nextIno).modifyInode p fun pm =>
    { pm with nlinks := pm.nlinks + 1 }

/-- The number of entries with a property, in all directories. -/
def count (P : EntryRecord → Prop) [DecidablePred P] : ℕ :=
  total (fun _ es => entryCount P es) t.dirs

end

variable {t : Tree} {p q i : UInt64} {k j : Digest224} {name : Str} {e : EntryRecord}

theorem entry_link :
    (t.link k p name i).entry q j = if q = p ∧ j = k then some ⟨k, i, name⟩ else t.entry q j := by
  unfold entry link
  rw [getElem?_insert_ite]
  by_cases hq : q = p
  · rw [if_pos hq, Option.bind_some, getElem?_insert_ite]
    by_cases hj : j = k
    · rw [if_pos hj, if_pos ⟨hq, hj⟩]
    · rw [if_neg hj, if_neg (fun h => hj h.2), hq]
      cases t.dirs[p]? <;> simp
  · rw [if_neg hq, if_neg (fun h => hq h.1)]

theorem entry_unlink :
    (t.unlink k p).entry q j = if q = p ∧ j = k then none else t.entry q j := by
  unfold entry unlink
  rw [getElem?_insert_ite]
  by_cases hq : q = p
  · rw [if_pos hq, Option.bind_some, getElem?_erase_ite]
    by_cases hj : j = k
    · rw [if_pos hj, if_pos ⟨hq, hj⟩]
    · rw [if_neg hj, if_neg (fun h => hj h.2), hq]
      cases t.dirs[p]? <;> simp
  · rw [if_neg hq, if_neg (fun h => hq h.1)]

section Count
variable (P : EntryRecord → Prop) [DecidablePred P]

theorem count_link (hdir : t.dirs[p]? ≠ none) (hfree : t.entry p k = none) :
    (t.link k p name i).count P = t.count P + if P ⟨k, i, name⟩ then 1 else 0 := by
  obtain ⟨es, hes⟩ := Option.ne_none_iff_exists'.mp hdir
  have hk : es[k]? = none := by
    rw [entry, hes] at hfree
    exact hfree
  unfold count link
  simp only [hes, Option.getD_some]
  have hsum : total (fun _ es => entryCount P es) (t.dirs.insert p (es.insert k ⟨k, i, name⟩)) +
      entryCount P es = _ + entryCount P (es.insert k ⟨k, i, name⟩) :=
    total_insert_of_some (fun _ es => entryCount P es) hes _
  have hinsert := entryCount_insert P hk ⟨k, i, name⟩
  omega

theorem count_unlink (he : t.entry p k = some e) :
    (t.unlink k p).count P + (if P e then 1 else 0) = t.count P := by
  obtain ⟨es, hes, hk⟩ := Option.bind_eq_some_iff.mp he
  unfold count unlink
  simp only [hes, Option.getD_some]
  have hsum : total (fun _ es => entryCount P es) (t.dirs.insert p (es.erase k)) +
      entryCount P es = _ + entryCount P (es.erase k) :=
    total_insert_of_some (fun _ es => entryCount P es) hes _
  have herase := entryCount_erase P hk
  omega

variable {P}

theorem count_pos (he : t.entry p k = some e) (hP : P e) : 0 < t.count P := by
  have hsum := count_unlink P he
  rw [if_pos hP] at hsum
  omega

theorem count_eq_zero (h : ∀ p k e, t.entry p k = some e → ¬ P e) : t.count P = 0 := by
  refine (total_eq_zero_iff _ _).mpr fun p es hes => entryCount_eq_zero fun k e he => h p k e ?_
  rw [entry, hes]
  exact he

/-- When one entry is counted, there is no other. -/
theorem eq_of_count_le_one (hle : t.count P ≤ 1) {e₁ e₂ : EntryRecord}
    (h₁ : t.entry p k = some e₁) (h₂ : t.entry q j = some e₂) (hP₁ : P e₁) (hP₂ : P e₂) :
    p = q ∧ k = j := by
  by_contra hne
  have hrest : (t.unlink k p).entry q j = some e₂ := by
    rw [entry_unlink, if_neg (fun h => hne ⟨h.1.symm, h.2.symm⟩), h₂]
  have hsum := count_unlink P h₁
  have hpos := count_pos hrest hP₂
  rw [if_pos hP₁] at hsum
  omega

end Count

section Steps
variable (key : Str → Digest224)

/-- A name that an entry can be made for. -/
structure Free (t : Tree) (p : UInt64) (name : Str) : Prop where
  proper : ¬ name.IsDots
  dir : t.dirs[p]? ≠ none
  entry : t.entry p (key name) = none

/-- A name stands for an inode. -/
def Names (t : Tree) (p : UInt64) (name : Str) (i : UInt64) : Prop :=
  ∃ e, t.entry p (key name) = some e ∧ e.name = name ∧ e.ino = i

def newDir (i p : UInt64) : Entries :=
  (Std.ExtTreeMap.insert ∅ (key .dot) ⟨key .dot, i, .dot⟩).insert (key .dotDot)
    ⟨key .dotDot, p, .dotDot⟩

variable {key} in
theorem getElem?_newDir {i p : UInt64} {k : Digest224} {e : EntryRecord}
    (he : (newDir key i p)[k]? = some e) : e.name.IsDots ∧ (e.ino = i ∨ e.ino = p) := by
  rw [newDir, getElem?_insert_ite, getElem?_insert_ite] at he
  split_ifs at he
  · obtain rfl := Option.some.inj he
    exact ⟨.inr rfl, .inr rfl⟩
  · obtain rfl := Option.some.inj he
    exact ⟨.inl rfl, .inl rfl⟩
  · simp at he

/-- The name a rename goes to is made free. -/
inductive Cleared (t : Tree) (p : UInt64) (name : Str) : Tree → Prop where
  | none : t.entry p (key name) = none → Cleared t p name t
  | some {i : UInt64} {m : InodeMeta} : t.Names key p name i → t.inodes[i]? = some m →
      Cleared t p name ((t.unlink (key name) p).displace i m)

/-- What a request on names makes of a tree. -/
inductive Step : FsOp → Tree → Tree → Prop where
  | skip {op : FsOp} {t : Tree} : Step op t t
  | burn {op : FsOp} {t : Tree} : t.nextIno ≠ u64Max → Step op t t.burnIno
  | create {op : FsOp} {t : Tree} {p : UInt64} {name : Str} {m : InodeMeta} :
      op.makes = some (p, name) → t.nextIno ≠ u64Max → m.nlinks = 1 → ¬ m.isDir →
      t.Free key p name → Step op t ((t.addInode m).link (key name) p name t.nextIno)
  | mkdir {t : Tree} {p : UInt64} {name : Str} {mode umask uid gid : UInt32} {m pm : InodeMeta} :
      t.nextIno ≠ u64Max → t.inodes[p]? = some pm → pm.isDir → pm.nlinks.toNat + 1 < 2 ^ 32 →
      t.Free key p name → m.nlinks = 2 → m.isDir →
      Step (.mkdir p name mode umask uid gid) t
        (t.addDirectory (newDir key t.nextIno p) (key name) p name m)
  | link {t : Tree} {i p : UInt64} {name : Str} {now : Now} {m : InodeMeta} :
      t.inodes[i]? = some m → ¬ m.isDir → m.nlinks.toNat + 1 < 2 ^ 32 → t.Free key p name →
      Step (.link i p name now) t ((t.link (key name) p name i).putInode
        (({ m with nlinks := m.nlinks + 1 } : InodeMeta).setCtime now))
  | unlink {t : Tree} {p i : UInt64} {name : Str} {m : InodeMeta} : ¬ name.IsDots →
      t.Names key p name i → t.inodes[i]? = some m → ¬ m.isDir →
      Step (.unlink p name) t ((t.unlink (key name) p).displace i m)
  | rmdir {t : Tree} {p i : UInt64} {name : Str} {m : InodeMeta} {es : Entries} :
      ¬ name.IsDots → t.Names key p name i → t.inodes[i]? = some m → m.isDir →
      t.dirs[i]? = some es → (∀ (k : Digest224) (e : EntryRecord), es[k]? = some e →
        e.name.IsDots) →
      Step (.rmdir p name) t (((t.unlink (key name) p).removeInode i).dropBacklink p)
  | rename {t t' : Tree} {p q i : UInt64} {name newName : Str} {flags : UInt32} {now : Now} :
      flags &&& 2 = 0 → flags &&& 1 = 0 ∨ t.entry q (key newName) = none →
      ¬ name.IsDots → t.Names key p name i → t.Cleared key q newName t' →
      t'.Free key q newName →
      Step (.rename p name q newName flags now) t
        (((t'.link (key newName) q newName i).unlink (key name) p).touch i now)

/-- A name cannot be made: it is reserved, its directory has no list, or it is taken. -/
def Unplaced (t : Tree) (p : UInt64) (name : Str) (e : Errno) : Prop :=
  name.IsDots ∨ t.dirs[p]? = none ∨ e = .eexist ∧ ∃ i, t.Names key p name i

/-- The inode of a name is not found. -/
def Absent (t : Tree) (p : UInt64) (name : Str) (e : Errno) : Prop :=
  t.dirs[p]? = none ∨ e = .enoent ∧
    (t.entry p (key name) = none ∨ ∃ i, t.Names key p name i ∧ t.inodes[i]? = none)

/-- A rename that is carried out, of the inode `i`; `t'` is the tree once its new name is
free. -/
structure Renames (t : Tree) (p : UInt64) (name : Str) (q : UInt64) (newName : Str)
    (flags : UInt32) (i : UInt64) (t' : Tree) : Prop where
  exchange : flags &&& 2 = 0
  replace : flags &&& 1 = 0 ∨ t.entry q (key newName) = none
  source : t.Names key p name i
  cleared : t.Cleared key q newName t'
  free : t'.Free key q newName

/-- The tree after a rename that is carried out. -/
def renamed (t' : Tree) (p : UInt64) (name : Str) (q : UInt64) (newName : Str) (now : Now)
    (i : UInt64) : Tree :=
  ((t'.link (key newName) q newName i).unlink (key name) p).touch i now

/-- Why a rename is refused, with the error of the reply. -/
inductive RefusesRename (t : Tree) (p : UInt64) (name : Str) (q : UInt64) (newName : Str)
    (flags : UInt32) : Errno → Prop where
  | exchange : flags &&& 2 ≠ 0 → RefusesRename t p name q newName flags .enosys
  | source : flags &&& 2 = 0 → t.entry p (key name) = none →
      RefusesRename t p name q newName flags .enoent
  | taken {i j : UInt64} : flags &&& 2 = 0 → flags &&& 1 ≠ 0 → t.Names key p name i →
      t.Names key q newName j → RefusesRename t p name q newName flags .eexist
  | target {i j : UInt64} : flags &&& 2 = 0 → flags &&& 1 = 0 → t.Names key p name i →
      t.Names key q newName j → t.inodes[j]? = none →
      RefusesRename t p name q newName flags .enoent
  | place {e : Errno} : newName.IsDots ∨ t.dirs[q]? = none →
      RefusesRename t p name q newName flags e

/-- What a request on names answers, and the tree that it leaves. Errors are known where the
directory is there and the name is not reserved. -/
inductive Answer (t : Tree) : FsOp → Reply → Tree → Prop where
  | node {op : FsOp} {p : UInt64} {name : Str} {m : InodeMeta} : op.node = some (p, name, m) →
      t.nextIno ≠ u64Max → t.Free key p name →
      Answer t op (.ok (some t.nextIno)) ((t.addInode m).link (key name) p name t.nextIno)
  | nodeUnplaced {op : FsOp} {p : UInt64} {name : Str} {m : InodeMeta} {e : Errno} :
      op.node = some (p, name, m) → t.nextIno ≠ u64Max → t.Unplaced key p name e →
      Answer t op (.error (.err e)) t.burnIno
  | nodeSpecial {p : UInt64} {name : Str} {mode uid gid umask : UInt32} :
      ¬ (mode &&& S_IFMT = S_IFREG ∨ mode &&& S_IFMT = 0) →
      Answer t (.mknod p name mode uid gid umask) (.error (.err .enosys)) t
  | mkdir {p : UInt64} {name : Str} {mode umask uid gid : UInt32} {pm : InodeMeta} :
      t.nextIno ≠ u64Max → t.inodes[p]? = some pm → pm.isDir → pm.nlinks.toNat + 1 < 2 ^ 32 →
      t.Free key p name → Answer t (.mkdir p name mode umask uid gid) (.ok (some t.nextIno))
        (t.addDirectory (newDir key t.nextIno p) (key name) p name
          (.newDirectory 0 uid gid (S_IFDIR ||| (mode &&& ~~~umask &&& 0o7777))))
  | mkdirUnplaced {p : UInt64} {name : Str} {mode umask uid gid : UInt32} {e : Errno} :
      t.nextIno ≠ u64Max → t.Unplaced key p name e →
      Answer t (.mkdir p name mode umask uid gid) (.error (.err e)) t.burnIno
  | mkdirNowhere {p : UInt64} {name : Str} {mode umask uid gid : UInt32} {e : Errno} :
      (¬ ∃ pm, t.inodes[p]? = some pm ∧ pm.isDir ∧ t.dirs[p]? ≠ none) →
      Answer t (.mkdir p name mode umask uid gid) (.error (.err e)) t
  | link {i p : UInt64} {name : Str} {now : Now} {m : InodeMeta} : t.inodes[i]? = some m →
      ¬ m.isDir → m.nlinks.toNat + 1 < 2 ^ 32 → t.Free key p name →
      Answer t (.link i p name now) (.ok (some i)) ((t.link (key name) p name i).putInode
        (({ m with nlinks := m.nlinks + 1 } : InodeMeta).setCtime now))
  | linkUnplaced {i p : UInt64} {name : Str} {now : Now} {m : InodeMeta} {e : Errno} :
      t.inodes[i]? = some m → ¬ m.isDir → t.Unplaced key p name e →
      Answer t (.link i p name now) (.error (.err e)) t
  | linkGone {i p : UInt64} {name : Str} {now : Now} : t.inodes[i]? = none →
      Answer t (.link i p name now) (.error (.err .enoent)) t
  | linkDir {i p : UInt64} {name : Str} {now : Now} {m : InodeMeta} : t.inodes[i]? = some m →
      m.isDir → Answer t (.link i p name now) (.error (.err .eperm)) t
  | absent {op : FsOp} {p : UInt64} {name : Str} {e : Errno} : op.removes = some (p, name) →
      t.Absent key p name e → Answer t op (.error (.err e)) t
  | reserved {op : FsOp} {p : UInt64} {name : Str} {e : Errno} : op.removes = some (p, name) →
      name.IsDots → Answer t op (.error (.err e)) t
  | unlink {p i : UInt64} {name : Str} {m : InodeMeta} : ¬ name.IsDots → t.Names key p name i →
      t.inodes[i]? = some m → ¬ m.isDir →
      Answer t (.unlink p name) (.ok none) ((t.unlink (key name) p).displace i m)
  | unlinkDir {p i : UInt64} {name : Str} {m : InodeMeta} : t.Names key p name i →
      t.inodes[i]? = some m → m.isDir → Answer t (.unlink p name) (.error (.err .eisdir)) t
  | rmdir {p i : UInt64} {name : Str} {m : InodeMeta} {es : Entries} {r : Reply} :
      ¬ name.IsDots → t.Names key p name i → t.inodes[i]? = some m → m.isDir →
      t.dirs[i]? = some es →
      (∀ (k : Digest224) (e : EntryRecord), es[k]? = some e → e.name.IsDots) →
      (((t.unlink (key name) p).removeInode i).inodes[p]? ≠ none → r = .ok none) →
      Answer t (.rmdir p name) r (((t.unlink (key name) p).removeInode i).dropBacklink p)
  | rmdirFull {p i : UInt64} {name : Str} {m : InodeMeta} {es : Entries} {k : Digest224}
      {e : EntryRecord} : t.Names key p name i → t.inodes[i]? = some m → m.isDir →
      t.dirs[i]? = some es → es[k]? = some e → ¬ e.name.IsDots →
      Answer t (.rmdir p name) (.error (.err .enotempty)) t
  | rmdirFile {p i : UInt64} {name : Str} {m : InodeMeta} : t.Names key p name i →
      t.inodes[i]? = some m → ¬ m.isDir ∨ t.dirs[i]? = none →
      Answer t (.rmdir p name) (.error (.err .enotdir)) t
  | rename {p q i : UInt64} {name newName : Str} {flags : UInt32} {now : Now} {t' : Tree} :
      ¬ name.IsDots → t.Renames key p name q newName flags i t' →
      Answer t (.rename p name q newName flags now)
        ((t'.inodes[i]?).elim (.error (.err .enoent)) fun _ => .ok none)
        (t'.renamed key p name q newName now i)
  | renameRefused {p q : UInt64} {name newName : Str} {flags : UInt32} {now : Now} {e : Errno} :
      t.RefusesRename key p name q newName flags e →
      Answer t (.rename p name q newName flags now) (.error (.err e)) t

end Steps

end Tree

end SliceFs
