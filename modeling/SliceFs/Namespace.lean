import SliceFs.OpenFiles

/-!
# Names, links and attributes

The operations of the file system on directories and inode attributes. Creating a node
makes the inode first and takes it back when the name cannot be linked. Removing the
last name of a file releases the counts of its manifest and deletes the inode, also
while handles are open on it.
-/
namespace SliceFs
open TreeMaps ProgramLogic

section
variable {B : Blockset}

def fileMode (mode umask : UInt32) : UInt32 := S_IFREG ||| (mode &&& ~~~umask &&& 0o7777)

/-- The new inode is deleted again when its name could not be linked. -/
def undoCreate (ino : UInt64) : Except MetaError Unit → FsM B Unit
  | .ok _ => pure ()
  | .error e => do
    let _ ← Prog.attempt (onStore (deleteInode ino))
    Prog.fail (metaErrorToErrno e)

def createNode (parentIno : UInt64) (name : Str) (inode : InodeMeta) : FsM B UInt64 := do
  let ino ← callStore metaErrorToErrno (createInode inode)
  let linked ← Prog.attempt (onStore (link parentIno name ino))
  undoCreate ino linked
  pure ino

def testCreate (parentIno : UInt64) (name : Str) (mode umask uid gid : UInt32) :
    FsM B (UInt64 × UInt64) := do
  let ino ← createNode parentIno name (.newFile 0 uid gid (fileMode mode umask))
  let fh ← insertHandle ino
  pure (ino, fh)

def testMknod (parentIno : UInt64) (name : Str) (mode uid gid umask : UInt32) : FsM B UInt64 := do
  Prog.ensure (mode &&& S_IFMT = S_IFREG ∨ mode &&& S_IFMT = 0) .enosys
  createNode parentIno name (.newFile 0 uid gid (fileMode mode umask))

def simulateMkdir (parentIno : UInt64) (name : Str) (mode umask uid gid : UInt32) :
    FsM B UInt64 :=
  callStore metaErrorToErrno (createDirectory parentIno name
    (.newDirectory 0 uid gid (S_IFDIR ||| (mode &&& ~~~umask &&& 0o7777))))

/-- The `..` entry of a removed subdirectory no longer counts. -/
def dropBacklink (parentIno : UInt64) : FsM B Unit := do
  let inode ← callStore metaErrorToErrno (getInode parentIno)
  if 0 < inode.nlinks then
    callStore metaErrorToErrno (updateInode { inode with nlinks := inode.nlinks - 1 })
  else pure ()

def simulateRmdir (parentIno : UInt64) (name : Str) : FsM B Unit := do
  let ino ← callStore metaErrorToErrno (lookup parentIno name)
  let inode ← callStore metaErrorToErrno (getInode ino)
  Prog.ensure inode.isDir .enotdir
  let entries ← callStore metaErrorToErrno (listDirectory ino)
  Prog.ensure (∀ e ∈ entries, e.name = Str.dot ∨ e.name = Str.dotDot) .enotempty
  callStore metaErrorToErrno (unlink parentIno name)
  callStore metaErrorToErrno (deleteInode ino)
  dropBacklink parentIno

def decrementEach : List Digest224 → FsM B Unit
  | [] => pure ()
  | d :: ds => do
    onStore (decrementRefcount d)
    decrementEach ds

/-- The counts of a file's manifest are released and its inode is deleted. -/
def deleteFile (ino : UInt64) : FsM B Unit := do
  let manifest ← Prog.attempt (onStore (getManifest ino))
  decrementEach (manifest.toOption.getD [])
  let _ ← Prog.attempt (onStore (deleteInode ino))
  pure ()

def simulateUnlink (parentIno : UInt64) (name : Str) : FsM B Unit := do
  let ino ← callStore metaErrorToErrno (lookup parentIno name)
  let inode ← callStore metaErrorToErrno (getInode ino)
  Prog.ensure (¬ inode.isDir) .eisdir
  callStore metaErrorToErrno (unlink parentIno name)
  if inode.nlinks ≤ 1 then deleteFile ino
  else callStore metaErrorToErrno (updateInode { inode with nlinks := inode.nlinks - 1 })

def simulateLink (ino newParentIno : UInt64) (newName : Str) (now : Now) : FsM B UInt64 := do
  let inode ← callStore metaErrorToErrno (getInode ino)
  Prog.ensure (¬ inode.isDir) .eperm
  callStore metaErrorToErrno (link newParentIno newName ino)
  Prog.assert (inode.nlinks.toNat + 1 < 2 ^ 32)
  callStore metaErrorToErrno
    (updateInode (({ inode with nlinks := inode.nlinks + 1 } : InodeMeta).setCtime now))
  pure ino

/-- The inode that a rename displaces loses a link; a directory without links is left
behind. -/
def displace (ino : UInt64) (inode : InodeMeta) : FsM B Unit :=
  if inode.nlinks ≤ 1 then
    if inode.isDir then pure () else deleteFile ino
  else do
    let _ ← Prog.attempt (onStore (updateInode { inode with nlinks := inode.nlinks - 1 }))
    pure ()

def removeTarget (newParentIno : UInt64) (newName : Str) : Option UInt64 → FsM B Unit
  | none => pure ()
  | some ino => do
    let inode ← callStore metaErrorToErrno (getInode ino)
    callStore metaErrorToErrno (unlink newParentIno newName)
    displace ino inode

def touchCtime (ino : UInt64) (now : Now) : FsM B Unit :=
  editInode metaErrorToErrno ino fun m => m.setCtime now

def simulateRename (parentIno : UInt64) (name : Str) (newParentIno : UInt64) (newName : Str)
    (flags : UInt32) (now : Now) : FsM B Unit := do
  Prog.ensure (flags &&& 2 = 0) .enosys
  let srcIno ← callStore (fun _ => .enoent) (lookup parentIno name)
  let target ← Prog.attempt (onStore (lookup newParentIno newName))
  Prog.ensure (flags &&& 1 = 0 ∨ target.toOption = none) .eexist
  removeTarget newParentIno newName target.toOption
  callStore metaErrorToErrno (link newParentIno newName srcIno)
  callStore metaErrorToErrno (unlink parentIno name)
  touchCtime srcIno now

def symlinkInode (uid gid : UInt32) (size : UInt64) : InodeMeta :=
  ⟨0, S_IFLNK ||| 0o777, uid, gid, 1, size, 0, 0, 0, 0⟩

def simulateSymlink (parentIno : UInt64) (linkName target : Str) (uid gid : UInt32) :
    FsM B UInt64 := do
  let ino ← createNode parentIno linkName
    (symlinkInode uid gid (UInt64.ofNat target.bytes.length))
  let digest ← onStore (onIo (B.withFsa (B.step (B.pushAll target.bytes))))
  callStore eio (setManifest ino [digest])
  onStore (incrementRefcount digest)
  editInode eio ino fun m => { m with size := UInt64.ofNat target.bytes.length }
  pure ino

def simulateReadlink (ino : UInt64) : FsM B Str := do
  let manifest ← callStore (fun _ => .einval) (getManifest ino)
  let bytes ← Prog.mapErr (fun _ => Errno.einval) (requireContent manifest.head?)
  Prog.ofOption (Str.fromUtf8 bytes) .einval

/-- A change of an inode's attributes, with the change time. -/
def setattr (ino : UInt64) (change : InodeMeta → InodeMeta) (now : Now) : FsM B Unit :=
  editInode eio ino fun m => (change m).setCtime now

def InodeMeta.setMode (m : InodeMeta) (mode : UInt32) : InodeMeta :=
  { m with mode := (m.mode &&& S_IFMT) ||| (mode &&& 0o7777) }

def InodeMeta.setOwner (m : InodeMeta) (uid gid : Option UInt32) : InodeMeta :=
  { m with uid := uid.getD m.uid, gid := gid.getD m.gid }

def testSetattrMode (ino : UInt64) (mode : UInt32) (now : Now) : FsM B Unit :=
  setattr ino (fun m => m.setMode mode) now

def testSetattrUidGid (ino : UInt64) (uid gid : Option UInt32) (now : Now) : FsM B Unit :=
  setattr ino (fun m => m.setOwner uid gid) now

def testSetattrMtime (ino : UInt64) (sec : Int64) (nsec : UInt32) (now : Now) : FsM B Unit :=
  setattr ino (fun m => { m with mtimeSec := sec, mtimeNsec := nsec }) now

def testSetxattr (ino : UInt64) (name : Str) (value : Bytes) : FsM B Unit :=
  callStore metaErrorToErrno (setXattr ino name value)

def testRemovexattr (ino : UInt64) (name : Str) : FsM B Unit :=
  callStore metaErrorToErrno (removeXattr ino name)

def testLookup (parentIno : UInt64) (name : Str) : FsM B (UInt64 × InodeMeta) := do
  let ino ← callStore metaErrorToErrno (lookup parentIno name)
  let inode ← callStore metaErrorToErrno (getInode ino)
  pure (ino, inode)

/-- The name `auto-unmount`. -/
def autoUnmount : Str :=
  ⟨[0x61, 0x75, 0x74, 0x6F, 0x2D, 0x75, 0x6E, 0x6D, 0x6F, 0x75, 0x6E, 0x74], by decide, by decide⟩

/-- The snapshot at the end of a session, if the mount asked for one; it may fail. -/
def unmountSnapshot (now : Now) : FsM B Unit := do
  let auto ← Prog.read Fs.autoSnapshot
  if auto then do
    let _ ← Prog.attempt (onStore
      (createSnapshot (some autoUnmount) now : Prog (Store B) MetaError _))
    pure ()
  else pure ()

/-- The end of a session. Only the commit decides what is returned. -/
def testDestroy (now : Now) : FsM B Bool := do
  let committed ← Prog.attempt (onStore (commit : Prog (Store B) MetaError Digest224))
  match committed with
  | .error _ => pure false
  | .ok _ => do
    unmountSnapshot now
    let _ ← Prog.attempt (onStore shutdownWal)
    pure true

variable {L : B.Laws} {g : Growth (Store B)}

instance growing_undoCreate [InodeGrowth L g] (ino : UInt64) (r : Except MetaError Unit) :
    Growing (g.comap Fs.store) (undoCreate ino r : FsM B Unit) := by
  unfold undoCreate
  split <;> infer_instance

instance growing_createNode [TreeGrowth L g] (parent : UInt64) (name : Str) (inode : InodeMeta) :
    Growing (g.comap Fs.store) (createNode parent name inode : FsM B UInt64) := by
  unfold createNode
  infer_instance

instance growing_testCreate [TreeGrowth L g] (parent : UInt64) (name : Str)
    (mode umask uid gid : UInt32) :
    Growing (g.comap Fs.store) (testCreate parent name mode umask uid gid :
      FsM B (UInt64 × UInt64)) := by
  unfold testCreate
  infer_instance

instance growing_testMknod [TreeGrowth L g] (parent : UInt64) (name : Str)
    (mode uid gid umask : UInt32) :
    Growing (g.comap Fs.store) (testMknod parent name mode uid gid umask : FsM B UInt64) := by
  unfold testMknod
  infer_instance

instance growing_simulateMkdir [TreeGrowth L g] (parent : UInt64) (name : Str)
    (mode umask uid gid : UInt32) :
    Growing (g.comap Fs.store) (simulateMkdir parent name mode umask uid gid : FsM B UInt64) := by
  unfold simulateMkdir
  infer_instance

instance growing_dropBacklink [InodeGrowth L g] (parent : UInt64) :
    Growing (g.comap Fs.store) (dropBacklink parent : FsM B Unit) := by
  unfold dropBacklink
  infer_instance

set_option synthInstance.maxSize 400 in
instance growing_simulateRmdir [TreeGrowth L g] (parent : UInt64) (name : Str) :
    Growing (g.comap Fs.store) (simulateRmdir parent name : FsM B Unit) := by
  unfold simulateRmdir
  infer_instance

instance growing_decrementEach [StoreGrowth L g] (ds : List Digest224) :
    Growing (g.comap Fs.store) (decrementEach ds : FsM B Unit) := by
  induction ds with
  | nil => exact growing_pure ()
  | cons d ds ih =>
      unfold decrementEach
      infer_instance

instance growing_deleteFile [InodeGrowth L g] (ino : UInt64) :
    Growing (g.comap Fs.store) (deleteFile ino : FsM B Unit) := by
  unfold deleteFile
  infer_instance

instance growing_simulateUnlink [TreeGrowth L g] (parent : UInt64) (name : Str) :
    Growing (g.comap Fs.store) (simulateUnlink parent name : FsM B Unit) := by
  unfold simulateUnlink
  infer_instance

instance growing_simulateLink [TreeGrowth L g] (ino newParent : UInt64) (newName : Str)
    (now : Now) :
    Growing (g.comap Fs.store) (simulateLink ino newParent newName now : FsM B UInt64) := by
  unfold simulateLink
  infer_instance

instance growing_displace [InodeGrowth L g] (ino : UInt64) (inode : InodeMeta) :
    Growing (g.comap Fs.store) (displace ino inode : FsM B Unit) := by
  unfold displace
  infer_instance

instance growing_removeTarget [TreeGrowth L g] (newParent : UInt64) (newName : Str)
    (target : Option UInt64) :
    Growing (g.comap Fs.store) (removeTarget newParent newName target : FsM B Unit) := by
  unfold removeTarget
  split <;> infer_instance

instance growing_touchCtime [InodeGrowth L g] (ino : UInt64) (now : Now) :
    Growing (g.comap Fs.store) (touchCtime ino now : FsM B Unit) := by
  unfold touchCtime
  infer_instance

set_option synthInstance.maxSize 400 in
instance growing_simulateRename [TreeGrowth L g] (parent : UInt64) (name : Str) (newParent : UInt64)
    (newName : Str) (flags : UInt32) (now : Now) :
    Growing (g.comap Fs.store) (simulateRename parent name newParent newName flags now :
      FsM B Unit) := by
  unfold simulateRename
  infer_instance

instance growing_simulateSymlink [TreeGrowth L g] (parent : UInt64) (linkName target : Str)
    (uid gid : UInt32) :
    Growing (g.comap Fs.store) (simulateSymlink parent linkName target uid gid : FsM B UInt64) := by
  unfold simulateSymlink
  infer_instance

instance growing_setattr [InodeGrowth L g] (ino : UInt64) (change : InodeMeta → InodeMeta)
    (now : Now) : Growing (g.comap Fs.store) (setattr ino change now : FsM B Unit) := by
  unfold setattr
  infer_instance

instance growing_testSetattrMode [InodeGrowth L g] (ino : UInt64) (mode : UInt32) (now : Now) :
    Growing (g.comap Fs.store) (testSetattrMode ino mode now : FsM B Unit) :=
  growing_setattr ino _ now

instance growing_testSetattrUidGid [InodeGrowth L g] (ino : UInt64) (uid gid : Option UInt32)
    (now : Now) : Growing (g.comap Fs.store) (testSetattrUidGid ino uid gid now : FsM B Unit) :=
  growing_setattr ino _ now

instance growing_testSetattrMtime [InodeGrowth L g] (ino : UInt64) (sec : Int64) (nsec : UInt32)
    (now : Now) : Growing (g.comap Fs.store) (testSetattrMtime ino sec nsec now : FsM B Unit) :=
  growing_setattr ino _ now

instance growing_testSetxattr [XattrGrowth L g] (ino : UInt64) (name : Str) (value : Bytes) :
    Growing (g.comap Fs.store) (testSetxattr ino name value : FsM B Unit) := by
  unfold testSetxattr
  infer_instance

instance growing_testRemovexattr [XattrGrowth L g] (ino : UInt64) (name : Str) :
    Growing (g.comap Fs.store) (testRemovexattr ino name : FsM B Unit) := by
  unfold testRemovexattr
  infer_instance

end

end SliceFs
