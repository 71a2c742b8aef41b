import SliceFs.OpenFiles

/-!
# Files by their contents

What the store and the open handles stand for: inodes with their attributes, the
content each manifest denotes, the reference counts, and for every handle the bytes
written through it. The operations below are those of the file system on this level,
where a stream and a buffer differ only in what a write at another offset does.
-/
namespace SliceFs
open TreeMaps ByteFile

/-- What a store holds. A manifest is empty or denotes one content. -/
structure Contents where
  inodes : Map UInt64 InodeMeta
  manifests : Map UInt64 (Option Bytes)
  refcounts : Map Digest224 UInt64
  nextIno : UInt64

/-- What a write handle stands for; `last` is the digest it committed and still counts. -/
structure Handle where
  ino : UInt64
  buffered : Bool
  content : Bytes
  committed : Bool
  last : Option Digest224

structure Files where
  core : Contents
  handles : Map UInt64 Handle
  nextFh : UInt64

def dropIfSome (refcounts : Map Digest224 UInt64) : Option Digest224 → Map Digest224 UInt64
  | none => refcounts
  | some d => dropRefcount refcounts d

/-- One count moves from `old` to `new`. -/
def recount (refcounts : Map Digest224 UInt64) (old : Option Digest224) (new : Digest224) :
    Map Digest224 UInt64 :=
  if old = some new then refcounts else bumpRefcount (dropIfSome refcounts old) new

namespace Contents
variable (digest : Bytes → Digest224) (c : Contents)

/-- The committed content of an inode, if its manifest is not empty. -/
def content (i : UInt64) : Option Bytes := (c.manifests[i]?).join

def putInode (m : InodeMeta) : Contents := { c with inodes := c.inodes.insert m.ino m }

/-- A change of the attributes of an inode, if it exists. -/
def modifyInode (i : UInt64) (change : InodeMeta → InodeMeta) : Contents :=
  match c.inodes[i]? with
  | none => c
  | some m => { c with inodes := c.inodes.insert i (change m) }

def burnIno : Contents := { c with nextIno := c.nextIno + 1 }

def addInode (m : InodeMeta) : Contents :=
  { c with
    inodes := c.inodes.insert c.nextIno { m with ino := c.nextIno }
    nextIno := c.nextIno + 1 }

def removeInode (i : UInt64) : Contents := { c with inodes := c.inodes.erase i }

def setContent (i : UInt64) (content : Option Bytes) : Contents :=
  { c with manifests := c.manifests.insert i content }

def increment (d : Digest224) : Contents := { c with refcounts := bumpRefcount c.refcounts d }

def drop (d : Option Digest224) : Contents := { c with refcounts := dropIfSome c.refcounts d }

/-- The content of inode `i` becomes `b`, counted in place of `old`. -/
def record (i : UInt64) (old : Option Digest224) (b : Bytes) : Contents :=
  { c with
    manifests := c.manifests.insert i (some b)
    refcounts := recount c.refcounts old (digest b) }

def deleteFile (i : UInt64) : Contents := (c.drop ((c.content i).map digest)).removeInode i

def setSize (i n : UInt64) (now : Now) : Contents :=
  c.modifyInode i fun m => ({ m with size := n } : InodeMeta).setCtime now

/-- The committed content of inode `i` is resized and counted anew. -/
def resizeContent (i n : UInt64) : Contents :=
  let released := c.drop ((c.content i).map digest)
  let b := resize 0 n.toNat ((c.content i).getD [])
  if b = [] then released.setContent i none
  else (released.setContent i (some b)).increment (digest b)

/-- A symbolic link keeps its target as content. -/
def addSymlink (m : InodeMeta) (target : Bytes) : Contents :=
  ((c.addInode m).setContent c.nextIno (some target)).increment (digest target)

variable {i j : UInt64} {m : InodeMeta}

theorem modifyInode_self {c : Contents} (hm : c.inodes[i]? = some m)
    (change : InodeMeta → InodeMeta) : (c.modifyInode i change).inodes[i]? = some (change m) := by
  simp [modifyInode, hm]

theorem inodes_modifyInode_of_ne (hj : j ≠ i) (change : InodeMeta → InodeMeta) :
    (c.modifyInode i change).inodes[j]? = c.inodes[j]? := by
  unfold modifyInode
  cases c.inodes[i]? with
  | none => rfl
  | some m =>
      show (c.inodes.insert i (change m))[j]? = _
      rw [getElem?_insert_ite, if_neg hj]

theorem manifests_modifyInode (i : UInt64) (change : InodeMeta → InodeMeta) :
    (c.modifyInode i change).manifests = c.manifests := by
  unfold modifyInode
  cases c.inodes[i]? <;> rfl

theorem refcounts_modifyInode (i : UInt64) (change : InodeMeta → InodeMeta) :
    (c.modifyInode i change).refcounts = c.refcounts := by
  unfold modifyInode
  cases c.inodes[i]? <;> rfl

theorem nextIno_modifyInode (i : UInt64) (change : InodeMeta → InodeMeta) :
    (c.modifyInode i change).nextIno = c.nextIno := by
  unfold modifyInode
  cases c.inodes[i]? <;> rfl

theorem content_modifyInode (i j : UInt64) (change : InodeMeta → InodeMeta) :
    (c.modifyInode i change).content j = c.content j := by
  rw [content, content, manifests_modifyInode]

end Contents

/-- The changes that leave contents and counts alone: attributes other than type and
size, numbers that are used up, and new empty inodes. -/
inductive Contents.Tweak : Contents → Contents → Prop where
  | refl (c : Contents) : Tweak c c
  | burn {c c' : Contents} : Tweak c c' → c'.nextIno ≠ u64Max → Tweak c c'.burnIno
  | add {c c' : Contents} (m : InodeMeta) : Tweak c c' → c'.nextIno ≠ u64Max → m.size = 0 →
      Tweak c (c'.addInode m)
  | attr {c c' : Contents} {m n : InodeMeta} : Tweak c c' → c'.inodes[n.ino]? = some m →
      n.size = m.size → n.mode &&& S_IFMT = m.mode &&& S_IFMT → Tweak c (c'.putInode n)

theorem Contents.Tweak.trans {a b c : Contents} (h₁ : Tweak a b) (h₂ : Tweak b c) : Tweak a c := by
  induction h₂ with
  | refl => exact h₁
  | burn _ hmax ih => exact ih.burn hmax
  | add m _ hmax hsize ih => exact ih.add m hmax hsize
  | attr _ hm hsize hmode ih => exact ih.attr hm hsize hmode

theorem Contents.Tweak.modifyInode {c c' : Contents} (h : c.Tweak c') {i : UInt64} {m : InodeMeta}
    {change : InodeMeta → InodeMeta} (hm : c'.inodes[i]? = some m) (hino : (change m).ino = i)
    (hsize : (change m).size = m.size)
    (hmode : (change m).mode &&& S_IFMT = m.mode &&& S_IFMT) :
    c.Tweak (c'.modifyInode i change) := by
  have htweak := h.attr (n := change m) (by rw [hino, hm]) hsize hmode
  rw [Contents.putInode, hino] at htweak
  rw [Contents.modifyInode, hm]
  exact htweak

theorem Contents.Tweak.nextIno_le {c c' : Contents} (h : c.Tweak c') : c.nextIno ≤ c'.nextIno := by
  induction h with
  | refl => exact UInt64.le_refl _
  | burn _ hmax ih => exact UInt64.le_trans ih (UInt64.le_of_lt (lt_add_one_of_ne_u64Max hmax))
  | add _ _ hmax _ ih => exact UInt64.le_trans ih (UInt64.le_of_lt (lt_add_one_of_ne_u64Max hmax))
  | attr _ _ _ _ ih => exact ih

theorem Contents.Tweak.manifests {c c' : Contents} (h : c.Tweak c') :
    c'.manifests = c.manifests := by
  induction h with
  | refl => rfl
  | burn _ _ ih => exact ih
  | add _ _ _ _ ih => exact ih
  | attr _ _ _ _ ih => exact ih

theorem Contents.Tweak.content {c c' : Contents} (h : c.Tweak c') (i : UInt64) :
    c'.content i = c.content i := by
  rw [Contents.content, h.manifests, Contents.content]

theorem Contents.Tweak.refcounts {c c' : Contents} (h : c.Tweak c') :
    c'.refcounts = c.refcounts := by
  induction h with
  | refl => rfl
  | burn _ _ ih => exact ih
  | add _ _ _ _ ih => exact ih
  | attr _ _ _ _ ih => exact ih

/-- An inode was there before, with this size and type, or is a new empty one. -/
theorem Contents.Tweak.inode {c c' : Contents} (h : c.Tweak c') {i : UInt64} {m : InodeMeta}
    (hm : c'.inodes[i]? = some m) :
    (∃ n, c.inodes[i]? = some n ∧ m.size = n.size ∧ m.mode &&& S_IFMT = n.mode &&& S_IFMT) ∨
      c.nextIno ≤ i ∧ m.size = 0 := by
  induction h generalizing i m with
  | refl => exact .inl ⟨m, hm, rfl, rfl⟩
  | burn _ _ ih => exact ih hm
  | add n htweak _ hsize ih =>
      rw [Contents.addInode, getElem?_insert_ite] at hm
      split_ifs at hm with hi
      · obtain rfl := Option.some.inj hm
        exact .inr ⟨hi ▸ htweak.nextIno_le, hsize⟩
      · exact ih hm
  | @attr _ n m' _ hn hsize hmode ih =>
      rw [Contents.putInode, getElem?_insert_ite] at hm
      split_ifs at hm with hi
      · obtain rfl := Option.some.inj hm
        rcases ih (hi ▸ hn) with ⟨k, hk, hks, hkm⟩ | ⟨hle, hz⟩
        · exact .inl ⟨k, hk, hsize.trans hks, hmode.trans hkm⟩
        · exact .inr ⟨hle, hsize.trans hz⟩
      · exact ih hm

/-- What an operation on names makes of the contents; `removed` is the inode that loses
its last name. -/
inductive Contents.Edit (digest : Bytes → Digest224) (removed : Option UInt64) :
    Contents → Contents → Prop where
  | tweak {c c' : Contents} : c.Tweak c' → Edit digest removed c c'
  | delete {c c' : Contents} {i : UInt64} {m : InodeMeta} : removed = some i →
      c.inodes[i]? = some m → (c.deleteFile digest i).Tweak c' → Edit digest removed c c'

theorem Contents.Edit.trans_tweak {digest : Bytes → Digest224} {removed : Option UInt64}
    {a b c : Contents} (h₁ : Edit digest removed a b) (h₂ : b.Tweak c) :
    Edit digest removed a c := by
  cases h₁ with
  | tweak h => exact .tweak (h.trans h₂)
  | delete hi hm h => exact .delete hi hm (h.trans h₂)

theorem Contents.Edit.nextIno_le {digest : Bytes → Digest224} {removed : Option UInt64}
    {c c' : Contents} (h : Edit digest removed c c') : c.nextIno ≤ c'.nextIno := by
  cases h with
  | tweak h => exact h.nextIno_le
  | delete _ _ h => exact h.nextIno_le

namespace Handle

def new (i : UInt64) : Handle := ⟨i, false, [], false, none⟩

/-- A write that does not continue the stream turns it into a buffer. -/
def FallsBack (h : Handle) (offset : ℕ) : Prop := h.buffered = false ∧ offset ≠ h.content.length

instance (h : Handle) (offset : ℕ) : Decidable (h.FallsBack offset) :=
  inferInstanceAs (Decidable (_ ∧ _))

/-- What a write that falls back starts from. -/
def base (h : Handle) (committed : Option Bytes) : Bytes :=
  if h.content = [] then committed.getD [] else h.content

def write (h : Handle) (committed : Option Bytes) (offset : ℕ) (data : Bytes) : Handle :=
  if h.FallsBack offset then
    { h with
      buffered := true
      content := pwrite 0 (h.base committed) offset data
      committed := false
      last := none }
  else { h with content := pwrite 0 h.content offset data, committed := false }

/-- A truncation gives up the count, except when a buffer keeps some size. -/
def Releases (h : Handle) (n : UInt64) : Prop := n = 0 ∨ h.buffered = false

instance (h : Handle) (n : UInt64) : Decidable (h.Releases n) :=
  inferInstanceAs (Decidable (_ ∨ _))

def truncate (h : Handle) (n : UInt64) : Handle :=
  { h with
    content := resize 0 n.toNat h.content
    committed := false
    last := if h.Releases n then none else h.last }

end Handle

namespace Files
variable (digest : Bytes → Digest224) (f : Files)

def put (fh : UInt64) (h : Handle) : Files := { f with handles := f.handles.insert fh h }

def write (fh : UInt64) (h : Handle) (offset : ℕ) (data : Bytes) : Files where
  core := if h.FallsBack offset then f.core.drop h.last else f.core
  handles := f.handles.insert fh (h.write (f.core.content h.ino) offset data)
  nextFh := f.nextFh

def flush (fh : UInt64) (h : Handle) (now : Now) : Files :=
  if h.content = [] then f
  else
    { f with
      core := (f.core.record digest h.ino h.last h.content).modifyInode h.ino fun m =>
        m.setWritten (UInt64.ofNat h.content.length) now
      handles := f.handles.insert fh
        { h with committed := true, last := some (digest h.content) } }

/-- What a commit of content returns: the inode must exist to get its size. -/
def commitResult (i : UInt64) : Except (ProgramLogic.Fault Errno) Unit :=
  (f.core.inodes[i]?).elim (.error (.err .eio)) fun _ => .ok ()

def flushResult (h : Handle) : Except (ProgramLogic.Fault Errno) Unit :=
  if h.content = [] then .ok () else f.commitResult h.ino

/-- The core after a release: nothing written leaves existing content alone, content that
was just committed needs no second commit. -/
def releasedCore (h : Handle) (now : Now) : Contents :=
  if h.content = [] then
    if h.committed = true ∨ f.core.content h.ino ≠ none then f.core
    else f.core.setContent h.ino none
  else if h.last = some (digest h.content) ∧ h.committed = true then f.core
  else (f.core.record digest h.ino h.last h.content).modifyInode h.ino fun m =>
    m.setWritten (UInt64.ofNat h.content.length) now

def releaseResult (h : Handle) : Except (ProgramLogic.Fault Errno) Unit :=
  if h.content = [] ∨ h.last = some (digest h.content) ∧ h.committed = true then .ok ()
  else f.commitResult h.ino

def release (fh : UInt64) (h : Handle) (now : Now) : Files :=
  { f with core := f.releasedCore digest h now, handles := f.handles.erase fh }

def truncate (fh : UInt64) (h : Handle) (n : UInt64) (now : Now) : Files :=
  { f with
    core := (if h.Releases n then f.core.drop h.last else f.core).setSize h.ino n now
    handles := f.handles.insert fh (h.truncate n) }

def truncateCommitted (i n : UInt64) (now : Now) : Files :=
  { f with core := (f.core.resizeContent digest i n).setSize i n now }

def insertHandle (i : UInt64) : Files :=
  { f with handles := f.handles.insert (f.nextFh + 1) (.new i), nextFh := f.nextFh + 1 }

/-- What an `open` of inode `i` leaves: a handle number is used up, and a write handle
exists unless its truncation finds no inode. -/
def opened (i : UInt64) (flags : UInt32) (now : Now) : Files :=
  if ¬ isWriteOpen flags then { f with nextFh := f.nextFh + 1 }
  else if flags &&& O_TRUNC = 0 then f.insertHandle i
  else if f.core.inodes[i]? = none then { f with nextFh := f.nextFh + 1 }
  else (f.insertHandle i).truncate (f.nextFh + 1) (.new i) 0 now

def openResult (i : UInt64) (flags : UInt32) :
    Except (ProgramLogic.Fault Errno) (UInt64 × Bool) :=
  if isWriteOpen flags ∧ flags &&& O_TRUNC ≠ 0 ∧ f.core.inodes[i]? = none then .error (.err .eio)
  else .ok (f.nextFh + 1, decide (isWriteOpen flags))

/-- The write handle whose bytes a read of inode `i` returns. -/
def findWriter (order : List UInt64) (i : UInt64) : Option Handle :=
  (order.filterMap fun fh => f.handles[fh]?).find? fun hd => hd.ino = i ∧ hd.content ≠ []

/-- The whole content a read of inode `i` works on. -/
def readContent (order : List UInt64) (i : UInt64) :
    Except (ProgramLogic.Fault Errno) Bytes :=
  match f.findWriter order i with
  | some hd => .ok hd.content
  | none => (f.core.manifests[i]?).elim (.error (.err .eio)) fun b => .ok (b.getD [])

end Files

end SliceFs
