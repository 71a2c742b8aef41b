import SliceFs.TreeSteps

/-!
# What seeding plants

An image is what a store stands for: its contents together with its entry lists. Seeding
a directory extends the image of the store: the parent gets an entry for each name, new
inodes follow the ones in use, and the rest stays as it is.
-/
namespace SliceFs
open TreeMaps ProgramLogic

namespace SeedTree

/-- The names in a source directory. -/
def names : SeedTree → List Str
  | done => []
  | dir name _ _ rest => name :: rest.names
  | file name _ _ _ rest => name :: rest.names

/-- The number of subdirectories. -/
def dirCount : SeedTree → ℕ
  | done => 0
  | dir _ _ _ rest => rest.dirCount + 1
  | file _ _ _ _ rest => rest.dirCount

/-- The number of files and directories at all levels. -/
def nodes : SeedTree → ℕ
  | done => 0
  | dir _ _ children rest => 1 + children.nodes + rest.nodes
  | file _ _ _ _ rest => 1 + rest.nodes

/-- The names in a directory are distinct, and none is `.` or `..`. -/
def Proper : SeedTree → Prop
  | done => True
  | dir name _ children rest => ¬ name.IsDots ∧ name ∉ rest.names ∧ children.Proper ∧ rest.Proper
  | file name _ _ _ rest => ¬ name.IsDots ∧ name ∉ rest.names ∧ rest.Proper

/-- The names and the directories fit the format of entry lists. -/
def Fits : SeedTree → Prop
  | done => True
  | dir name _ children rest => name.bytes.length < 2 ^ 32 ∧
      children.names.length + 3 < 2 ^ 32 ∧ children.Fits ∧ rest.Fits
  | file name _ _ _ rest => name.bytes.length < 2 ^ 32 ∧ rest.Fits

theorem dirCount_le (tree : SeedTree) : tree.dirCount ≤ tree.names.length := by
  induction tree with
  | done => exact Nat.le_refl 0
  | dir _ _ _ _ _ ih => exact Nat.succ_le_succ ih
  | file _ _ _ _ _ ih => exact Nat.le_succ_of_le ih

theorem Proper.not_isDots {tree : SeedTree} (h : tree.Proper) {name : Str}
    (hname : name ∈ tree.names) : ¬ name.IsDots := by
  induction tree with
  | done => cases hname
  | dir n source children rest _ ih =>
      rcases List.mem_cons.mp hname with rfl | hmem
      · exact h.1
      · exact ih h.2.2.2 hmem
  | file n source bytes hlen rest ih =>
      rcases List.mem_cons.mp hname with rfl | hmem
      · exact h.1
      · exact ih h.2.2 hmem

end SeedTree

/-- No name but `.` and `..` leads from these entries to the inode. -/
def Entries.Spare (es : Entries) (i : UInt64) : Prop :=
  ∀ (k : Digest224) (e : EntryRecord), es[k]? = some e → ¬ e.name.IsDots → e.ino ≠ i

/-- No name but `.` and `..` leads to the inode. -/
def Unnamed (dirs : Map UInt64 Entries) (i : UInt64) : Prop :=
  ∀ (p : UInt64) (es : Entries), dirs[p]? = some es → es.Spare i

theorem Entries.Spare.insert {es : Entries} {i j : UInt64} {k : Digest224} {name : Str}
    (h : es.Spare j) (hi : i ≠ j) : Entries.Spare (es.insert k ⟨k, i, name⟩) j := by
  intro l e he hdots
  rw [getElem?_insert_ite] at he
  split_ifs at he
  · obtain rfl := Option.some.inj he
    exact hi
  · exact h l e he hdots

theorem Unnamed.insert {dirs : Map UInt64 Entries} {j p : UInt64} {es : Entries}
    (h : Unnamed dirs j) (hes : es.Spare j) : Unnamed (dirs.insert p es) j := by
  intro q es' hes'
  rw [getElem?_insert_ite] at hes'
  split_ifs at hes'
  · obtain rfl := Option.some.inj hes'
    exact hes
  · exact h q es' hes'

theorem Unnamed.entries {dirs : Map UInt64 Entries} {j : UInt64} (h : Unnamed dirs j) (p : UInt64) :
    ((dirs[p]?).getD ∅).Spare j := by
  cases hp : dirs[p]? with
  | none => exact fun k e he => by simp at he
  | some es => exact h p es hp

/-- What a store stands for. -/
structure Image where
  core : Contents
  dirs : Map UInt64 Entries

theorem isDir_dirInodeMeta (source : SourceMeta) : (dirInodeMeta source).isDir := by
  show (S_IFDIR ||| (source.mode &&& 0o7777)) &&& S_IFDIR ≠ 0
  intro h
  have htype := congrArg (· &&& S_IFDIR) (type_or_permissions S_IFDIR source.mode)
  simp only [UInt32.and_assoc] at htype
  have hmask : S_IFMT &&& S_IFDIR = S_IFDIR := by decide
  rw [hmask, h] at htype
  exact absurd htype (by decide)

namespace Image

def entry (v : Image) (p : UInt64) (k : Digest224) : Option EntryRecord :=
  (v.dirs[p]?).bind fun es => es[k]?

def link (v : Image) (k : Digest224) (p : UInt64) (name : Str) (i : UInt64) : Image :=
  { v with dirs := v.dirs.insert p (((v.dirs[p]?).getD ∅).insert k ⟨k, i, name⟩) }

/-- A new directory, its entry in the parent, and the parent's count. -/
def addDirectory (v : Image) (newDir : Entries) (k : Digest224) (p : UInt64) (name : Str)
    (m : InodeMeta) : Image where
  core := (v.core.addInode m).modifyInode p fun pm => { pm with nlinks := pm.nlinks + 1 }
  dirs := (v.dirs.insert v.core.nextIno newDir).insert p
    (((v.dirs[p]?).getD ∅).insert k ⟨k, v.core.nextIno, name⟩)

/-- A new file with its content and its entry. -/
def addFile (v : Image) (k : Digest224) (p : UInt64) (name : Str) (m : InodeMeta) (b : Bytes) :
    Image :=
  { v.link k p name v.core.nextIno with
    core := (v.core.addInode m).setContent v.core.nextIno (some b) }

section
variable (key : Str → Digest224)

/-- Directory `p` has an entry for each name of the tree, which stands for a node of its
kind. -/
def Shown (v : Image) : SeedTree → UInt64 → Prop
  | .done, _ => True
  | .dir name source children rest, p =>
      (∃ i, p < i ∧ i < v.core.nextIno ∧ v.entry p (key name) = some ⟨key name, i, name⟩ ∧
        v.core.inodes[i]? = some { dirInodeMeta source with
          ino := i, nlinks := 2 + UInt32.ofNat children.dirCount } ∧
        (∀ (k : Digest224) (e : EntryRecord), (Tree.newDir key i p)[k]? = some e →
          v.entry i k = some e) ∧
        (∀ (k : Digest224) (e : EntryRecord), v.entry i k = some e →
          (Tree.newDir key i p)[k]? = some e ∨ e.name ∈ children.names) ∧
        v.Shown children i) ∧
      v.Shown rest p
  | .file name source bytes _ rest, p =>
      (∃ i, p < i ∧ i < v.core.nextIno ∧ v.entry p (key name) = some ⟨key name, i, name⟩ ∧
        v.core.inodes[i]? = some { fileInodeMeta source (UInt64.ofNat bytes.length) with
        ino := i } ∧ v.core.content i = some bytes) ∧
      v.Shown rest p

/-- What seeding the tree into directory `p` makes of an image. -/
structure Grown (tree : SeedTree) (p : UInt64) (v v' : Image) : Prop where
  nextIno : v'.core.nextIno.toNat = v.core.nextIno.toNat + tree.nodes
  inodes : ∀ j, j < v.core.nextIno → j ≠ p → v'.core.inodes[j]? = v.core.inodes[j]?
  contents : ∀ j, j < v.core.nextIno → v'.core.content j = v.core.content j
  dirs : ∀ j, j < v.core.nextIno → j ≠ p → v'.dirs[j]? = v.dirs[j]?
  parent : ∀ pm, v.core.inodes[p]? = some pm → v'.core.inodes[p]? =
    some { pm with nlinks := pm.nlinks + UInt32.ofNat tree.dirCount }
  entries : ∀ es, v.dirs[p]? = some es →
    ∃ es', v'.dirs[p]? = some es' ∧ es'.size ≤ es.size + tree.names.length
  kept : ∀ (k : Digest224) (e : EntryRecord), v.entry p k = some e → v'.entry p k = some e
  new : ∀ (k : Digest224) (e : EntryRecord), v'.entry p k = some e →
    v.entry p k = some e ∨ e.name ∈ tree.names
  shown : v'.Shown key tree p
  unnamed : ∀ j, j < v.core.nextIno → Unnamed v.dirs j → Unnamed v'.dirs j

variable {key} {v v' v₁ v₂ : Image} {p q : UInt64} {k : Digest224} {name : Str} {links : ℕ}
  {tree : SeedTree}

theorem Grown.nextIno_le (h : Grown key tree p v v') : v.core.nextIno ≤ v'.core.nextIno := by
  rw [UInt64.le_iff_toNat_le, h.nextIno]
  exact Nat.le_add_right _ _

theorem Grown.entry_of_ne (h : Grown key tree p v v') {j : UInt64} (hj : j < v.core.nextIno)
    (hne : j ≠ p) (k : Digest224) : v'.entry j k = v.entry j k := by
  rw [entry, entry, h.dirs j hj hne]

/-- What is shown below `q` stays so while the tree grows at `q`. -/
theorem Shown.grown {seeded : SeedTree} (h : v.Shown key tree p) (hg : Grown key seeded q v v')
    (hq : q ≤ p) : v'.Shown key tree p := by
  have hentry : ∀ {r : UInt64}, r < v.core.nextIno → ∀ {k : Digest224} {e : EntryRecord},
      v.entry r k = some e → v'.entry r k = some e := by
    intro r hr k e he
    by_cases hrq : r = q
    · subst hrq
      exact hg.kept k e he
    · rwa [hg.entry_of_ne hr hrq]
  induction tree generalizing p with
  | done => trivial
  | dir name source children rest ihc ihr =>
      obtain ⟨⟨i, hpi, hi, he, hm, hnew, hclosed, hchildren⟩, hrest⟩ := h
      have hiq : i ≠ q := fun heq => UInt64.lt_irrefl _ (UInt64.lt_of_lt_of_le (heq ▸ hpi) hq)
      refine ⟨⟨i, hpi, UInt64.lt_of_lt_of_le hi hg.nextIno_le, hentry (UInt64.lt_trans hpi hi) he,
        (hg.inodes i hi hiq).trans hm, fun k e hk => hentry hi (hnew k e hk), fun k e hk => ?_,
        ihc hchildren (UInt64.le_trans hq (UInt64.le_of_lt hpi))⟩, ihr hrest hq⟩
      rw [hg.entry_of_ne hi hiq] at hk
      exact hclosed k e hk
  | file name source bytes hlen rest ih =>
      obtain ⟨⟨i, hpi, hi, he, hm, hcontent⟩, hrest⟩ := h
      have hiq : i ≠ q := fun heq => UInt64.lt_irrefl _ (UInt64.lt_of_lt_of_le (heq ▸ hpi) hq)
      exact ⟨⟨i, hpi, UInt64.lt_of_lt_of_le hi hg.nextIno_le, hentry (UInt64.lt_trans hpi hi) he,
        (hg.inodes i hi hiq).trans hm, (hg.contents i hi).trans hcontent⟩, ih hrest hq⟩

theorem Grown.done (key : Str → Digest224) (p : UInt64) (v : Image) : Grown key .done p v v where
  nextIno := rfl
  inodes _ _ _ := rfl
  contents _ _ := rfl
  dirs _ _ _ := rfl
  parent pm hp := by simpa [SeedTree.dirCount] using hp
  entries es hes := ⟨es, hes, Nat.le_refl _⟩
  kept _ _ he := he
  new _ _ he := .inl he
  shown := trivial
  unnamed _ _ h := h

/-- One step of seeding: directory `p` has one more entry, the parent `links` more links, and
nothing else changed below the next number. -/
structure Adds (k : Digest224) (p : UInt64) (name : Str) (links : ℕ) (v v' : Image) : Prop where
  nextIno : v'.core.nextIno.toNat = v.core.nextIno.toNat + 1
  inodes : ∀ j, j < v.core.nextIno → j ≠ p → v'.core.inodes[j]? = v.core.inodes[j]?
  contents : ∀ j, j < v.core.nextIno → v'.core.content j = v.core.content j
  dirs : ∀ j, j < v.core.nextIno → j ≠ p → v'.dirs[j]? = v.dirs[j]?
  parent : ∀ pm, v.core.inodes[p]? = some pm →
    v'.core.inodes[p]? = some { pm with nlinks := pm.nlinks + UInt32.ofNat links }
  entries : ∀ es, v.dirs[p]? = some es →
    v'.dirs[p]? = some (es.insert k ⟨k, v.core.nextIno, name⟩)
  unnamed : ∀ j, j < v.core.nextIno → Unnamed v.dirs j → Unnamed v'.dirs j

theorem Adds.lt (h : Adds k p name links v v') : v.core.nextIno < v'.core.nextIno := by
  rw [UInt64.lt_iff_toNat_lt, h.nextIno]
  exact Nat.lt_succ_self _

theorem Adds.entry (h : Adds k p name links v v') {es : Entries} (hes : v.dirs[p]? = some es)
    (j : Digest224) :
    v'.entry p j = if j = k then some ⟨k, v.core.nextIno, name⟩ else v.entry p j := by
  rw [Image.entry, Image.entry, h.entries es hes, hes, Option.bind_some, Option.bind_some,
    getElem?_insert_ite]

/-- An entry, what is planted below it, and the entries after it. -/
theorem Adds.grown {children rest : SeedTree} (h : Adds (key name) p name links v v₁)
    {es : Entries} (hes : v.dirs[p]? = some es) (hfree : es[key name]? = none)
    (hp : p < v.core.nextIno) (h₁ : Grown key children v.core.nextIno v₁ v₂)
    (h₂ : Grown key rest p v₂ v') (hnodes : tree.nodes = 1 + children.nodes + rest.nodes)
    (hnames : tree.names = name :: rest.names) (hlinks : tree.dirCount = links + rest.dirCount)
    (hshown : v'.Shown key tree p) : Grown key tree p v v' := by
  have hlt₁ : ∀ {j}, j < v.core.nextIno → j < v₁.core.nextIno := fun hj => UInt64.lt_trans hj h.lt
  have hlt₂ : ∀ {j}, j < v.core.nextIno → j < v₂.core.nextIno := fun hj =>
    UInt64.lt_of_lt_of_le (hlt₁ hj) h₁.nextIno_le
  have hpi : p ≠ v.core.nextIno := UInt64.ne_of_lt hp
  have hentry₂ : ∀ j, v₂.entry p j = v₁.entry p j := h₁.entry_of_ne (hlt₁ hp) hpi
  exact
    { nextIno := by rw [h₂.nextIno, h₁.nextIno, h.nextIno, hnodes]; omega
      inodes := fun j hj hne => by
        rw [h₂.inodes j (hlt₂ hj) hne, h₁.inodes j (hlt₁ hj) (UInt64.ne_of_lt hj),
          h.inodes j hj hne]
      contents := fun j hj => by
        rw [h₂.contents j (hlt₂ hj), h₁.contents j (hlt₁ hj), h.contents j hj]
      dirs := fun j hj hne => by
        rw [h₂.dirs j (hlt₂ hj) hne, h₁.dirs j (hlt₁ hj) (UInt64.ne_of_lt hj), h.dirs j hj hne]
      parent := fun pm hpm => by
        have hpm₂ := (h₁.inodes p (hlt₁ hp) hpi).trans (h.parent pm hpm)
        rw [h₂.parent _ hpm₂, hlinks, UInt32.ofNat_add, UInt32.add_assoc]
      entries := fun es₀ hes₀ => by
        obtain ⟨es', hes', hsize⟩ := h₂.entries _
          ((h₁.dirs p (hlt₁ hp) hpi).trans (h.entries es₀ hes₀))
        refine ⟨es', hes', ?_⟩
        have hinsert := Std.ExtTreeMap.size_insert_le (t := es₀) (k := key name)
          (v := ⟨key name, v.core.nextIno, name⟩)
        rw [hnames, List.length_cons]
        omega
      kept := fun j e he => by
        refine h₂.kept j e ?_
        rw [hentry₂, h.entry hes, if_neg ?_]
        · exact he
        · rintro rfl
          rw [Image.entry, hes, Option.bind_some, hfree] at he
          cases he
      new := fun j e he => by
        rw [hnames, List.mem_cons]
        rcases h₂.new j e he with he | he
        · rw [hentry₂, h.entry hes] at he
          split_ifs at he
          · exact .inr (.inl (congrArg EntryRecord.name (Option.some.inj he)).symm)
          · exact .inl he
        · exact .inr (.inr he)
      shown := hshown
      unnamed := fun j hj hun =>
        h₂.unnamed j (hlt₂ hj) (h₁.unnamed j (hlt₁ hj) (h.unnamed j hj hun)) }

theorem adds_addDirectory (key : Str → Digest224) (k : Digest224) (hp : p < v.core.nextIno)
    (hmax : v.core.nextIno ≠ u64Max) (name : Str) (m : InodeMeta) :
    Adds k p name 1 v (v.addDirectory (Tree.newDir key v.core.nextIno p) k p name m) := by
  have hne : p ≠ v.core.nextIno := UInt64.ne_of_lt hp
  refine ⟨?_, fun j hj hjp => ?_, fun j _ => ?_, fun j hj hjp => ?_, fun pm hpm => ?_,
    fun es hes => ?_, fun j hj hun => ?_⟩
  · rw [addDirectory, Contents.nextIno_modifyInode]
    exact toNat_add_one_of_ne_u64Max hmax
  · rw [addDirectory, Contents.inodes_modifyInode_of_ne _ hjp, Contents.addInode,
      getElem?_insert_ite, if_neg (UInt64.ne_of_lt hj)]
  · rw [addDirectory, Contents.content_modifyInode]
    rfl
  · rw [addDirectory, getElem?_insert_ite, if_neg hjp, getElem?_insert_ite,
      if_neg (UInt64.ne_of_lt hj)]
  · refine Contents.modifyInode_self ?_ _
    rw [Contents.addInode, getElem?_insert_ite, if_neg hne, hpm]
  · rw [addDirectory, getElem?_insert_ite, if_pos rfl, hes, Option.getD_some]
  · refine (hun.insert fun k e he hdots => ?_).insert (hun.entries p |>.insert ?_)
    · exact absurd (Tree.getElem?_newDir he).1 hdots
    · exact (UInt64.ne_of_lt hj).symm

theorem adds_addFile (k : Digest224) (hp : p < v.core.nextIno) (hmax : v.core.nextIno ≠ u64Max)
    (name : Str) (m : InodeMeta) (b : Bytes) : Adds k p name 0 v (v.addFile k p name m b) := by
  refine ⟨toNat_add_one_of_ne_u64Max hmax, fun j hj _ => ?_, fun j hj => ?_, fun j _ hjp => ?_,
    fun pm hpm => ?_, fun es hes => ?_, fun j hj hun => ?_⟩
  · show (v.core.inodes.insert _ _)[j]? = _
    rw [getElem?_insert_ite, if_neg (UInt64.ne_of_lt hj)]
  · show ((v.core.manifests.insert _ _)[j]?).join = _
    rw [getElem?_insert_ite, if_neg (UInt64.ne_of_lt hj)]
    rfl
  · show (v.dirs.insert _ _)[j]? = _
    rw [getElem?_insert_ite, if_neg hjp]
  · show (v.core.inodes.insert _ _)[p]? = _
    rw [getElem?_insert_ite, if_neg (UInt64.ne_of_lt hp), hpm]
    simp
  · show (v.dirs.insert _ _)[p]? = _
    rw [getElem?_insert_ite, if_pos rfl, hes, Option.getD_some]
  · exact hun.insert ((hun.entries p).insert (UInt64.ne_of_lt hj).symm)

theorem inodes_addDirectory (newDir : Entries) (k : Digest224) (hp : p < v.core.nextIno)
    (name : Str) (m : InodeMeta) : (v.addDirectory newDir k p name m).core.inodes[v.core.nextIno]? =
      some { m with ino := v.core.nextIno } := by
  rw [addDirectory, Contents.inodes_modifyInode_of_ne _ (UInt64.ne_of_lt hp).symm,
    Contents.addInode, getElem?_insert_ite, if_pos rfl]

theorem dirs_addDirectory (newDir : Entries) (k : Digest224) (hp : p < v.core.nextIno) (name : Str)
    (m : InodeMeta) :
    (v.addDirectory newDir k p name m).dirs[v.core.nextIno]? = some newDir := by
  rw [addDirectory, getElem?_insert_ite, if_neg (UInt64.ne_of_lt hp).symm, getElem?_insert_ite,
    if_pos rfl]

/-- A directory is planted with what is in it. -/
theorem grown_dir {children rest : SeedTree} {source : SourceMeta}
    (hp : p < v.core.nextIno) (hmax : v.core.nextIno ≠ u64Max)
    {es : Entries} (hes : v.dirs[p]? = some es) (hfree : es[key name]? = none)
    (h₁ : Grown key children v.core.nextIno (v.addDirectory (Tree.newDir key v.core.nextIno p)
      (key name) p name (dirInodeMeta source)) v₁)
    (h₂ : Grown key rest p v₁ v') : Grown key (.dir name source children rest) p v v' := by
  have ha := adds_addDirectory key (key name) hp hmax name (dirInodeMeta source)
  have hi := ha.lt
  have hi₁ := UInt64.lt_of_lt_of_le hi h₁.nextIno_le
  have hip : v.core.nextIno ≠ p := (UInt64.ne_of_lt hp).symm
  have hdir : ∀ k : Digest224, (v.addDirectory (Tree.newDir key v.core.nextIno p) (key name) p name
      (dirInodeMeta source)).entry v.core.nextIno k = (Tree.newDir key v.core.nextIno p)[k]? := by
    intro k
    rw [Image.entry, dirs_addDirectory _ _ hp, Option.bind_some]
  refine ha.grown hes hfree hp h₁ h₂ rfl rfl (Nat.add_comm _ _) ⟨⟨v.core.nextIno, hp, ?_, ?_, ?_,
    fun k e hk => ?_, fun k e hk => ?_, ?_⟩, h₂.shown⟩
  · exact UInt64.lt_of_lt_of_le hi₁ h₂.nextIno_le
  · refine h₂.kept _ _ ?_
    rw [h₁.entry_of_ne (UInt64.lt_trans hp hi) hip.symm, ha.entry hes, if_pos rfl]
  · rw [h₂.inodes _ hi₁ hip, h₁.parent _ (inodes_addDirectory _ _ hp _ _)]
    rfl
  · rw [h₂.entry_of_ne hi₁ hip]
    exact h₁.kept k e ((hdir k).trans hk)
  · rw [h₂.entry_of_ne hi₁ hip] at hk
    rw [← hdir k]
    exact h₁.new k e hk
  · exact h₁.shown.grown h₂ (UInt64.le_of_lt hp)

/-- A file is planted. -/
theorem grown_file {rest : SeedTree} {source : SourceMeta} {bytes : Bytes}
    {hlen : bytes.length ≤ isizeMax} (hp : p < v.core.nextIno) (hmax : v.core.nextIno ≠ u64Max)
    {es : Entries} (hes : v.dirs[p]? = some es) (hfree : es[key name]? = none)
    (h : Grown key rest p (v.addFile (key name) p name
      (fileInodeMeta source (UInt64.ofNat bytes.length)) bytes) v') :
    Grown key (.file name source bytes hlen rest) p v v' := by
  have ha := adds_addFile (key name) hp hmax name
    (fileInodeMeta source (UInt64.ofNat bytes.length)) bytes
  have hip : v.core.nextIno ≠ p := (UInt64.ne_of_lt hp).symm
  refine ha.grown hes hfree hp (.done key v.core.nextIno _) h ?_ rfl (Nat.zero_add _).symm
    ⟨⟨v.core.nextIno, hp, UInt64.lt_of_lt_of_le ha.lt h.nextIno_le, ?_, ?_, ?_⟩, h.shown⟩
  · show 1 + rest.nodes = 1 + 0 + rest.nodes
    rw [Nat.add_zero]
  · refine h.kept _ _ ?_
    rw [ha.entry hes, if_pos rfl]
  · rw [h.inodes _ ha.lt hip]
    show (v.core.inodes.insert _ _)[v.core.nextIno]? = _
    rw [getElem?_insert_ite, if_pos rfl]
  · rw [h.contents _ ha.lt]
    show ((v.core.manifests.insert _ _)[v.core.nextIno]?).join = _
    rw [getElem?_insert_ite, if_pos rfl]
    rfl

/-- The tree can be planted in directory `p`. -/
structure Ready (v : Image) (tree : SeedTree) (p : UInt64) (pm : InodeMeta) (es : Entries) :
    Prop where
  inode : v.core.inodes[p]? = some pm
  dir : pm.isDir
  links : pm.nlinks.toNat + tree.dirCount < 2 ^ 32
  entries : v.dirs[p]? = some es
  room : es.size + tree.names.length < 2 ^ 32
  free : ∀ (k : Digest224) (e : EntryRecord), es[k]? = some e → e.name ∉ tree.names
  numbers : v.core.nextIno.toNat + tree.nodes < 2 ^ 64

/-- What is left of the tree can be planted after its first node. -/
theorem Ready.rest {children rest : SeedTree} {pm : InodeMeta} {es : Entries}
    (hr : v.Ready tree p pm es) (hp : p < v.core.nextIno) (ha : Adds k p name links v v₁)
    (h₁ : Grown key children v.core.nextIno v₁ v₂)
    (hnodes : tree.nodes = 1 + children.nodes + rest.nodes)
    (hnames : tree.names = name :: rest.names) (hlinks : tree.dirCount = links + rest.dirCount)
    (hdistinct : name ∉ rest.names) :
    v₂.Ready rest p { pm with nlinks := pm.nlinks + UInt32.ofNat links }
      (es.insert k ⟨k, v.core.nextIno, name⟩) := by
  have hp₁ := UInt64.lt_trans hp ha.lt
  have hpi : p ≠ v.core.nextIno := UInt64.ne_of_lt hp
  have hl := hr.links
  have hn := hr.numbers
  have hroom := hr.room
  refine ⟨?_, hr.dir, ?_, ?_, ?_, fun j e he => ?_, ?_⟩
  · rw [h₁.inodes p hp₁ hpi, ha.parent pm hr.inode]
  · rw [UInt32.toNat_add, UInt32.toNat_ofNat']
    omega
  · rw [h₁.dirs p hp₁ hpi, ha.entries es hr.entries]
  · have hinsert := Std.ExtTreeMap.size_insert_le (t := es) (k := k)
      (v := (⟨k, v.core.nextIno, name⟩ : EntryRecord))
    rw [hnames, List.length_cons] at hroom
    omega
  · rw [getElem?_insert_ite] at he
    split_ifs at he
    · obtain rfl := Option.some.inj he
      exact hdistinct
    · have hfree := hr.free j e he
      rw [hnames, List.mem_cons, not_or] at hfree
      exact hfree.2
  · rw [h₁.nextIno, ha.nextIno]
    omega

end

end Image

section
variable {B : Blockset} {L : B.Laws} {st : Store B} {v : Image}

variable (L) in
/-- The store stands for the image. -/
structure Blockset.Laws.Pictures (st : Store B) (v : Image) : Prop where
  core : L.Holds st v.core
  listing : L.Listing st v.dirs

/-- `link` of a name that is new in its directory. -/
theorem wp_link_new (hB : L.Reliable) (h : L.Pictures st v) {p : UInt64} {es : Entries}
    (hes : v.dirs[p]? = some es) {name : Str} (hdots : ¬ name.IsDots)
    (hlen : name.bytes.length < 2 ^ 32) (hroom : es.size + 1 < 2 ^ 32)
    (hnew : ∀ (k : Digest224) (e : EntryRecord), es[k]? = some e → e.name ≠ name) (i : UInt64) :
    wp L.growthQuiet (link p name i)
      (fun r st' => r = .ok () ∧ es[L.key name]? = none ∧ L.le st.io st'.io ∧
        L.Pictures st' (v.link (L.key name) p name i)) st := by
  refine wp_of_good fun hc => ?_
  have hcore := h.core.link hB p name i
  have hle := ((growing_link (g := L.growthQuiet) p name i).le_run st).1
  have hroom' : ∀ es', v.dirs[p]? = some es' → es'.size + 1 < 2 ^ 32 := by
    intro es' hes'
    rw [hes] at hes'
    exact Option.some.inj hes' ▸ hroom
  obtain ⟨es', st', hes', -, hfree, hrun, hlist⟩ | ⟨err, st', hwhy, hrun, -⟩ :=
    link_eq hB h.listing hc hlen hroom' i
  · obtain rfl := Option.some.inj (hes.symm.trans hes')
    rw [hrun] at hcore hle
    refine wp_of_eq hrun fun _ => ⟨rfl, hfree, hle, hcore, ?_⟩
    rw [Image.link, hes]
    exact hlist
  · refine wp_of_eq hrun fun hgood => ?_
    obtain hbad | hnone | ⟨-, es', e, hes', he, hname⟩ := hwhy
    · exact absurd hbad hdots
    · rw [hes] at hnone
      cases hnone
    · obtain rfl := Option.some.inj (hes.symm.trans hes')
      exact absurd (hname hgood) (hnew _ e he)

/-- `create_directory` of a name that is new in its parent. -/
theorem wp_createDirectory_new (hB : L.Reliable) (h : L.Pictures st v) {p : UInt64}
    {pm : InodeMeta} (hp : v.core.inodes[p]? = some pm) (hdir : pm.isDir)
    (hn : pm.nlinks.toNat + 1 < 2 ^ 32) {es : Entries} (hes : v.dirs[p]? = some es) {name : Str}
    (hdots : ¬ name.IsDots) (hlen : name.bytes.length < 2 ^ 32) (hroom : es.size + 1 < 2 ^ 32)
    (hnew : ∀ (k : Digest224) (e : EntryRecord), es[k]? = some e → e.name ≠ name)
    (hmax : v.core.nextIno ≠ u64Max) {m : InodeMeta} (hm : m.isDir) :
    wp L.growthQuiet (createDirectory p name m)
      (fun r st' => r = .ok v.core.nextIno ∧ es[L.key name]? = none ∧
        L.Pictures st' (v.addDirectory (Tree.newDir L.key v.core.nextIno p) (L.key name) p name m))
          st := by
  have hroom' : ∀ es', v.dirs[p]? = some es' → es'.size + 1 < 2 ^ 32 := by
    intro es' hes'
    rw [hes] at hes'
    exact Option.some.inj hes' ▸ hroom
  refine (wp_createDirectory_listing hB h.core h.listing hlen hroom' m).mono ?_
  intro r st' _ hspec
  cases hspec with
  | refused hnot => exact absurd ⟨pm, hp, hdir, by simp [hes]⟩ hnot
  | overflow hfull =>
      obtain hfull | ⟨pm', hp', hfull⟩ := hfull
      · exact absurd hfull hmax
      · obtain rfl := Option.some.inj (hp.symm.trans hp')
        omega
  | reserved _ hbad => exact absurd hbad hdots
  | taken _ hes' hx hname =>
      obtain rfl := Option.some.inj (hes.symm.trans hes')
      exact absurd hname (hnew _ _ hx)
  | made _ _ _ _ hes' _ hfree hcore hlist =>
      obtain rfl := Option.some.inj (hes.symm.trans hes')
      refine ⟨rfl, hfree, ?_, ?_⟩
      · rw [InodeMeta.asDirectory, if_neg hm] at hcore
        exact hcore
      · rw [Image.addDirectory, hes]
        exact hlist

namespace Image

theorem Ready.ne_u64Max {tree : SeedTree} {p : UInt64} {pm : InodeMeta} {es : Entries}
    (hr : v.Ready tree p pm es) (hpos : 0 < tree.nodes) : v.core.nextIno ≠ u64Max := by
  intro he
  have hn := hr.numbers
  rw [he] at hn
  have hmax : u64Max.toNat = 2 ^ 64 - 1 := by decide
  omega

theorem size_newDir_le (key : Str → Digest224) (i p : UInt64) : (Tree.newDir key i p).size ≤ 2 :=
  Std.ExtTreeMap.size_insert_le.trans (Nat.succ_le_succ Std.ExtTreeMap.size_insert_le)

/-- What is in a directory can be planted once the directory is there. -/
theorem Ready.children {key : Str → Digest224} {p : UInt64} {pm : InodeMeta} {es : Entries}
    {name : Str} {source : SourceMeta} {children rest : SeedTree} (k : Digest224)
    (hr : v.Ready (.dir name source children rest) p pm es) (hp : p < v.core.nextIno)
    (hfits : children.names.length + 3 < 2 ^ 32) (hproper : children.Proper) :
    (v.addDirectory (Tree.newDir key v.core.nextIno p) k p name (dirInodeMeta source)).Ready
      children
      v.core.nextIno { dirInodeMeta source with ino := v.core.nextIno }
      (Tree.newDir key v.core.nextIno p) := by
  have hmax := hr.ne_u64Max (by rw [SeedTree.nodes]; omega)
  have hsize := size_newDir_le key v.core.nextIno p
  refine ⟨inodes_addDirectory _ _ hp _ _, ?_, ?_, dirs_addDirectory _ _ hp _ _, by omega,
    fun j e he hmem => ?_, ?_⟩
  · exact isDir_dirInodeMeta source
  · have hcount := children.dirCount_le
    show 2 + children.dirCount < 2 ^ 32
    omega
  · exact hproper.not_isDots hmem (Tree.getElem?_newDir he).1
  · have hn := hr.numbers
    rw [SeedTree.nodes] at hn
    rw [(adds_addDirectory _ _ hp hmax _ _).nextIno]
    omega

end Image

/-- Seeding a directory succeeds and plants the tree. -/
theorem wp_walkDir_grown (hB : L.Reliable) (tree : SeedTree) {p : UInt64} {pm : InodeMeta}
    {es : Entries} (h : L.Pictures st v) (hr : v.Ready tree p pm es) (hproper : tree.Proper)
    (hfits : tree.Fits) :
    wp L.growthQuiet (walkDir tree p)
      (fun r st' => r = .ok () ∧ ∃ v', L.Pictures st' v' ∧ Image.Grown L.key tree p v v') st := by
  induction tree generalizing st v p pm es with
  | done => exact wp_pure fun _ => ⟨rfl, v, h, .done L.key p v⟩
  | dir name source children rest ihc ihr =>
      obtain ⟨hdots, hdistinct, hproperC, hproperR⟩ := hproper
      obtain ⟨hlen, hwidth, hfitsC, hfitsR⟩ := hfits
      have hp := (h.core.inode p pm hr.inode).2.2
      have hmax := hr.ne_u64Max (by rw [SeedTree.nodes]; omega)
      have hlinks := hr.links
      have hroom := hr.room
      rw [SeedTree.dirCount] at hlinks
      rw [SeedTree.names, List.length_cons] at hroom
      unfold walkDir
      refine wp_bind ((wp_createDirectory_new hB h hr.inode hr.dir (by omega) hr.entries hdots hlen
        (by omega) (fun k e he hname => hr.free k e he (hname ▸ List.mem_cons_self)) hmax
        (isDir_dirInodeMeta source)).mono ?_)
      rintro _ st₁ - ⟨rfl, hfree, h₁⟩
      refine wp_bind ((ihc h₁ (hr.children _ hp hwidth hproperC) hproperC hfitsC).mono ?_)
      rintro _ st₂ - ⟨rfl, v₂, h₂, hg₂⟩
      have ha := Image.adds_addDirectory L.key (L.key name) hp hmax name (dirInodeMeta source)
      refine (ihr h₂ (hr.rest hp ha hg₂ rfl rfl (Nat.add_comm _ _) hdistinct) hproperR hfitsR).mono
        ?_
      rintro _ st₃ - ⟨rfl, v₃, h₃, hg₃⟩
      exact ⟨rfl, v₃, h₃, Image.grown_dir hp hmax hr.entries hfree hg₂ hg₃⟩
  | file name source bytes hlenB rest ih =>
      obtain ⟨hdots, hdistinct, hproperR⟩ := hproper
      obtain ⟨hlen, hfitsR⟩ := hfits
      have hp := (h.core.inode p pm hr.inode).2.2
      have hmax := hr.ne_u64Max (by rw [SeedTree.nodes]; omega)
      have hroom := hr.room
      rw [SeedTree.names, List.length_cons] at hroom
      unfold walkDir
      obtain ⟨io, hpush, hio, hstored⟩ := onIo_pushAll_eq (L := L) (ε := MetaError) hB bytes st
      obtain ⟨st₂, hcreate, h₂⟩ := createInode_eq hB (h.core.grow hio)
        (fileInodeMeta source (UInt64.ofNat bytes.length)) hmax
      have hgrow := (InodeGrowth.createInode (g := L.fixedDirs)
        (fileInodeMeta source (UInt64.ofNat bytes.length))).le_run { st with io := io }
      rw [hcreate] at hgrow
      have hseed : seedFile source bytes st = (.ok (v.core.nextIno, L.digest bytes), st₂) := by
        rw [seedFile, Prog.bind_ok hpush, Prog.bind_ok hcreate]
        rfl
      have hpic : L.Pictures st₂
          ⟨v.core.addInode (fileInodeMeta source (UInt64.ofNat bytes.length)), v.dirs⟩ :=
        ⟨h₂, h.listing.frame (L.le_trans hio hgrow.1.1) hgrow.2⟩
      refine wp_bind_of_eq hseed (wp_bind ((wp_link_new hB hpic hr.entries hdots hlen (by omega)
        (fun k e he hname => hr.free k e he (hname ▸ List.mem_cons_self)) v.core.nextIno).mono ?_))
      rintro _ st₃ - ⟨rfl, hfree, hle₃, h₃⟩
      have hb : bytes ∈ L.stored st₃.io :=
        L.stored_mono (L.le_trans (le_of_run hcreate) hle₃) hstored
      obtain ⟨st₄, hset, h₄⟩ := setManifest_eq (b := some bytes) hB h₃.core (i := v.core.nextIno)
        (lt_add_one_of_ne_u64Max hmax) (by
          rintro x ⟨rfl⟩
          exact ⟨hb, hlenB⟩)
      have hgrow₄ := (growing_setManifest (g := L.fixedDirs) v.core.nextIno
        ((some bytes).toList.map L.digest)).le_run st₃
      rw [hset] at hgrow₄
      have hpic₄ : L.Pictures st₄ (v.addFile (L.key name) p name
          (fileInodeMeta source (UInt64.ofNat bytes.length)) bytes) :=
        ⟨h₄, h₃.listing.frame hgrow₄.1.1 hgrow₄.2⟩
      have ha := Image.adds_addFile (L.key name) hp hmax name
        (fileInodeMeta source (UInt64.ofNat bytes.length)) bytes
      have hrest := hr.rest hp ha (.done L.key v.core.nextIno _)
        (by rw [SeedTree.nodes, SeedTree.nodes, Nat.add_zero]) rfl
        (Nat.zero_add _).symm hdistinct
      refine wp_bind_of_eq hset ((ih hpic₄ hrest hproperR hfitsR).mono ?_)
      rintro _ st₅ - ⟨rfl, v₅, h₅, hg₅⟩
      exact ⟨rfl, v₅, h₅, Image.grown_file hp hmax hr.entries hfree hg₅⟩

end

end SliceFs
