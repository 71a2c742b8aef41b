import SliceFs.StoreContents

/-!
# Seeding a store

`seed` imports a directory tree: every directory becomes a directory, every regular file
an inode whose manifest is the digest of the file's bytes. The tree is given as the
entries of a directory in the order of their names; other kinds of files are skipped and
do not occur in it. No reference is counted.
-/
namespace SliceFs
open TreeMaps ProgramLogic ByteFile

/-- What seeding reads of a file's metadata. -/
structure SourceMeta where
  mode : UInt32
  uid : UInt32
  gid : UInt32
  mtimeSec : Int64
  mtimeNsec : UInt32

/-- The entries of a source directory, from the first on. -/
inductive SeedTree where
  | done
  | dir (name : Str) (source : SourceMeta) (children rest : SeedTree)
  | file (name : Str) (source : SourceMeta) (bytes : Bytes) (length_le : bytes.length ≤ isizeMax)
      (rest : SeedTree)

/-- Whether a tree has a regular file. -/
def SeedTree.hasFiles : SeedTree → Bool
  | done => false
  | dir _ _ children rest => children.hasFiles || rest.hasFiles
  | file _ _ _ _ _ => true

def fileInodeMeta (source : SourceMeta) (size : UInt64) : InodeMeta :=
  { InodeMeta.newFile 0 source.uid source.gid (S_IFREG ||| (source.mode &&& 0o7777)) with
    size := size
    mtimeSec := source.mtimeSec
    mtimeNsec := source.mtimeNsec }

def dirInodeMeta (source : SourceMeta) : InodeMeta :=
  .newDirectory 0 source.uid source.gid (S_IFDIR ||| (source.mode &&& 0o7777))

section
variable {B : Blockset}

def seedFile (source : SourceMeta) (bytes : Bytes) : StoreM B (UInt64 × Digest224) := do
  let digest ← onIo (B.withFsa (B.step (B.pushAll bytes)))
  let ino ← createInode (fileInodeMeta source (UInt64.ofNat bytes.length))
  pure (ino, digest)

def walkDir : SeedTree → UInt64 → StoreM B Unit
  | .done, _ => pure ()
  | .dir name source children rest, parentIno => do
    let ino ← createDirectory parentIno name (dirInodeMeta source)
    walkDir children ino
    walkDir rest parentIno
  | .file name source bytes _ rest, parentIno => do
    let file ← seedFile source bytes
    link parentIno name file.1
    setManifest file.1 [file.2]
    walkDir rest parentIno

/-- The store that is committed at the end of seeding: the root directory takes the
permissions of the source directory. -/
def seed (source : SourceMeta) (tree : SeedTree) : StoreM B Unit := do
  let root ← getInode 1
  updateInode { root with
    mode := (dirInodeMeta source).mode
    uid := source.uid
    gid := source.gid }
  walkDir tree 1

end

/-- What seeding makes of the contents; files occur only if `files` is set. -/
inductive Contents.Seeding (files : Bool) : Contents → Contents → Prop where
  | refl (c : Contents) : Seeding files c c
  | tweak {a b c : Contents} : Seeding files a b → b.Tweak c → Seeding files a c
  | file {a c : Contents} {m : InodeMeta} {b : Bytes} : files = true → Seeding files a c →
      c.nextIno ≠ u64Max → b.length ≤ isizeMax → m.size = UInt64.ofNat b.length →
      Seeding files a ((c.addInode m).setContent c.nextIno (some b))

theorem Contents.Seeding.trans {files : Bool} {a b c : Contents} (h₁ : Seeding files a b)
    (h₂ : Seeding files b c) : Seeding files a c := by
  induction h₂ with
  | refl => exact h₁
  | tweak _ ht ih => exact ih.tweak ht
  | file hf _ hmax hlen hsize ih => exact ih.file hf hmax hlen hsize

section
variable {B : Blockset} {L : B.Laws} {g : Growth (Store B)}

instance growing_seedFile [InodeGrowth L g] (source : SourceMeta) (bytes : Bytes) :
    Growing g (seedFile source bytes : StoreM B (UInt64 × Digest224)) := by
  unfold seedFile
  infer_instance

instance growing_walkDir [TreeGrowth L g] (tree : SeedTree) (parent : UInt64) :
    Growing g (walkDir tree parent : StoreM B Unit) := by
  induction tree generalizing parent with
  | done =>
      unfold walkDir
      infer_instance
  | dir name source children rest ihc ihr =>
      unfold walkDir
      infer_instance
  | file name source bytes hlen rest ih =>
      unfold walkDir
      infer_instance

instance growing_seed [TreeGrowth L g] (source : SourceMeta) (tree : SeedTree) :
    Growing g (seed source tree : StoreM B Unit) := by
  unfold seed
  infer_instance

variable {st : Store B} {c : Contents}

theorem wp_walkDir (hB : L.Reliable) {files : Bool} (tree : SeedTree)
    (hfiles : tree.hasFiles = true → files = true) (h : L.Holds st c) (p : UInt64) :
    wp L.growthQuiet (walkDir tree p)
      (fun r st' => r = .ok () → ∃ c', c.Seeding files c' ∧ L.Holds st' c') st := by
  induction tree generalizing st c p with
  | done => exact wp_pure fun _ _ => ⟨c, .refl c, h⟩
  | dir name source children rest ihc ihr =>
      simp only [SeedTree.hasFiles, Bool.or_eq_true] at hfiles
      unfold walkDir
      refine wp_bind ((wp_createDirectory hB h p name (dirInodeMeta source) rfl).mono ?_)
      rintro r st₁ - ⟨c₁, h₁, ht⟩
      cases r with
      | error e => exact nofun
      | ok i =>
          refine wp_bind ((ihc (fun hc => hfiles (.inl hc)) h₁ i).mono ?_)
          rintro r st₂ - h₂
          cases r with
          | error e => exact nofun
          | ok _ =>
              obtain ⟨c₂, hs₂, h₂⟩ := h₂ rfl
              refine (ihr (fun hr => hfiles (.inr hr)) h₂ p).mono ?_
              rintro r st₃ - h₃ rfl
              obtain ⟨c₃, hs₃, h₃⟩ := h₃ rfl
              exact ⟨c₃, (((Contents.Seeding.refl c).tweak ht).trans hs₂).trans hs₃, h₃⟩
  | file name source bytes hlen rest ih =>
      unfold walkDir
      have hf : files = true := hfiles rfl
      obtain ⟨io, hpush, hio, hstored⟩ := onIo_pushAll_eq (L := L) (ε := MetaError) hB bytes st
      have h₁ := h.grow hio
      by_cases hmax : c.nextIno = u64Max
      · have hpanic : seedFile source bytes st = (.error .panic, { st with io := io }) := by
          rw [seedFile, Prog.bind_ok hpush, Prog.bind_error (createInode_panic h₁ _ hmax)]
        exact wp_of_eq (Prog.bind_error hpanic) fun _ => nofun
      obtain ⟨st₂, hcreate, h₂⟩ := createInode_eq hB h₁
        (fileInodeMeta source (UInt64.ofNat bytes.length)) hmax
      have hseed : seedFile source bytes st = (.ok (c.nextIno, L.digest bytes), st₂) := by
        rw [seedFile, Prog.bind_ok hpush, Prog.bind_ok hcreate]
        rfl
      refine wp_bind_of_eq hseed (wp_bind fun _ => ?_)
      have h₃ := h₂.link hB p name c.nextIno
      have hle₃ := ((growing_link (g := L.growthQuiet) p name c.nextIno).le_run st₂).1
      cases (link p name c.nextIno st₂).1 with
      | error e => exact nofun
      | ok _ =>
          have hb : bytes ∈ L.stored (link p name c.nextIno st₂).2.io :=
            L.stored_mono (L.le_trans (le_of_run hcreate) hle₃) hstored
          obtain ⟨st₄, hset, h₄⟩ := setManifest_eq (b := some bytes) hB h₃ (i := c.nextIno)
            (lt_add_one_of_ne_u64Max hmax) (by
              rintro x ⟨rfl⟩
              exact ⟨hb, hlen⟩)
          refine wp_bind_of_eq hset ((ih (fun hr => hf) h₄ p).mono ?_)
          rintro r st₅ - h₅ rfl
          obtain ⟨c₅, hs₅, h₅⟩ := h₅ rfl
          exact ⟨c₅, (Contents.Seeding.file hf (.refl c) hmax hlen rfl).trans hs₅, h₅⟩

/-- The contents of a store whose only inode is the root directory. -/
def Contents.initial (m : InodeMeta) : Contents where
  inodes := Std.ExtTreeMap.insert ∅ 1 m
  manifests := ∅
  refcounts := ∅
  nextIno := 2

/-- What `Store.new` leaves in the backend and in the maps. -/
theorem new_eq (hB : L.Reliable) {uid gid : UInt32} {io io' : B.Io}
    (h : Store.new B uid gid io = (.ok st, io')) :
    ∃ io₁, st = ⟨io₁, .initial (L.digest (serializeInode (rootInode uid gid)))
        (L.digest (serializeEntryList (L.newDir 1 1))), .empty⟩ ∧
      L.le io io₁ ∧ serializeInode (rootInode uid gid) ∈ L.stored io₁ ∧
      serializeEntryList (L.newDir 1 1) ∈ L.stored io₁ ∧
      Str.dot.bytes ∈ L.stored io₁ ∧ Str.dotDot.bytes ∈ L.stored io₁ := by
  obtain ⟨f, hf, hle, hstored⟩ := internDirectory_eq (L := L) (ε := MetaError) hB
    (rootInode uid gid) 1 1 (B.new io)
  have hrun : B.withFsa (internDirectory (rootInode uid gid) 1 1) io =
      ((.ok (L.digest (serializeInode (rootInode uid gid)),
        L.digest (serializeEntryList (L.newDir 1 1))), B.drop f) :
        Except (Fault MetaError) _ × _) := by
    simp only [Blockset.withFsa, Prog.zoom, hf]
  rw [Store.new, Prog.bind_ok hrun] at h
  obtain ⟨h₁, rfl⟩ := Prod.mk.inj h
  exact ⟨_, (Except.ok.inj h₁).symm, L.le_trans (L.le_new io) hle, hstored⟩

theorem holds_new (hB : L.Reliable) {uid gid : UInt32} {io io' : B.Io}
    (h : Store.new B uid gid io = (.ok st, io')) :
    L.Holds st (.initial (rootInode uid gid)) ∧ L.le io st.io := by
  obtain ⟨io₁, rfl, hle, hm, hd, -, -⟩ := new_eq (L := L) hB h
  refine ⟨?_, hle⟩
  constructor
  · intro i
    simp only [StoreMaps.initial, Contents.initial, getElem?_insert_ite]
    split_ifs <;> simp
  · intro i m hi
    simp only [Contents.initial, getElem?_insert_ite] at hi
    split_ifs at hi with hi1
    · obtain rfl := Option.some.inj hi
      exact ⟨hm, hi1.symm, by rw [hi1]; exact (by decide : (1 : UInt64) < 2)⟩
    · simp at hi
  · intro i
    simp [StoreMaps.initial, Contents.initial]
  · intro i b hb
    simp [Contents.initial] at hb
  · intro i b hb
    simp [Contents.initial, Contents.content] at hb
  · intro p d hp
    simp only [StoreMaps.initial, getElem?_insert_ite] at hp
    split_ifs at hp
    · exact ⟨_, hd, (Option.some.inj hp).symm⟩
    · simp at hp
  · rfl
  · rfl

theorem wp_seed (hB : L.Reliable) {files : Bool} {uid gid : UInt32}
    (h : L.Holds st (.initial (rootInode uid gid))) (source : SourceMeta) (tree : SeedTree)
    (hfiles : tree.hasFiles = true → files = true) :
    wp L.growthQuiet (seed source tree)
      (fun r st' => r = .ok () →
        ∃ c, (Contents.initial (rootInode uid gid)).Seeding files c ∧ L.Holds st' c) st := by
  refine wp_of_good fun hc => ?_
  have hroot : (Contents.initial (rootInode uid gid)).inodes[(1 : UInt64)]? =
      some (rootInode uid gid) := by simp [Contents.initial]
  have hget := getInode_eq h hc 1
  rw [Contents.getInode, hroot] at hget
  refine wp_bind_of_eq hget ?_
  have htype : (dirInodeMeta source).mode &&& S_IFMT = (rootInode uid gid).mode &&& S_IFMT := by
    show (S_IFDIR ||| (source.mode &&& 0o7777)) &&& S_IFMT = _
    rw [type_or_permissions]
    show _ = (S_IFDIR ||| 0o755) &&& S_IFMT
    decide
  obtain ⟨st₁, hupd, h₁⟩ := updateInode_eq (m := { rootInode uid gid with
    mode := (dirInodeMeta source).mode, uid := source.uid, gid := source.gid }) hB h hroot
  refine wp_bind_of_eq hupd ((wp_walkDir hB tree hfiles h₁ 1).mono ?_)
  rintro r st₂ - h₂ rfl
  obtain ⟨c, hs, hc⟩ := h₂ rfl
  have ht := Contents.Tweak.attr (.refl (Contents.initial (rootInode uid gid)))
    (n := { rootInode uid gid with
      mode := (dirInodeMeta source).mode, uid := source.uid, gid := source.gid }) hroot rfl htype
  exact ⟨c, ((Contents.Seeding.refl _).tweak ht).trans hs, hc⟩

end

end SliceFs
