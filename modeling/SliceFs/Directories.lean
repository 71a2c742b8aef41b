import SliceFs.Orphans

/-!
# The tree of directories

Every directory but the root has one name, in a directory that its `..` leads back to, and
counts the directories in it. This stays so as long as a rename moves a directory only
within its parent: `simulateRename` writes neither `..` nor the counts of the parents.
-/
namespace SliceFs
open TreeMaps ProgramLogic Relation

namespace Tree
variable {t t' : Tree} {key : Str → Digest224} {p q i : UInt64} {k : Digest224} {name : Str}
  {e : EntryRecord} {m : InodeMeta}

def isDir (t : Tree) (i : UInt64) : Bool := (t.inodes[i]?).any fun m => m.isDir

theorem isDir_eq (hm : t.inodes[i]? = some m) : t.isDir i = decide m.isDir := by
  rw [isDir, hm, Option.any_some]

theorem exists_of_isDir (h : t.isDir i) : ∃ m, t.inodes[i]? = some m ∧ m.isDir := by
  unfold isDir at h
  cases hm : t.inodes[i]? with
  | none =>
      rw [hm] at h
      cases h
  | some m =>
      rw [hm, Option.any_some] at h
      exact ⟨m, rfl, of_decide_eq_true h⟩

/-- The entries of a directory, by key. -/
def listOf (t : Tree) (p : UInt64) : Entries := (t.dirs[p]?).getD ∅

theorem getElem?_listOf (t : Tree) (p : UInt64) (k : Digest224) :
    (t.listOf p)[k]? = t.entry p k := by
  unfold listOf entry
  cases t.dirs[p]? <;> simp

theorem listOf_link (q : UInt64) :
    (t.link k p name i).listOf q = if q = p then (t.listOf p).insert k ⟨k, i, name⟩
      else t.listOf q := by
  unfold listOf link
  rw [getElem?_insert_ite]
  split_ifs <;> rfl

theorem listOf_unlink (q : UInt64) :
    (t.unlink k p).listOf q = if q = p then (t.listOf p).erase k else t.listOf q := by
  unfold listOf unlink
  rw [getElem?_insert_ite]
  split_ifs <;> rfl

/-- The number of directories named in a directory. -/
def subdirs (t : Tree) (p : UInt64) : ℕ :=
  entryCount (fun e => ¬ e.name.IsDots ∧ t.isDir e.ino) (t.listOf p)

/-- Every directory but the root has a name in a directory that its `..` leads to, and
counts the directories in it. -/
structure Nested (key : Str → Digest224) (t : Tree) : Prop where
  rootDir : t.isDir 1
  root : ∀ (p : UInt64) (k : Digest224) (e : EntryRecord), t.entry p k = some e →
    ¬ e.name.IsDots → e.ino ≠ 1
  parent : ∀ i : UInt64, t.isDir i → i ≠ 1 → ∃ p, t.isDir p ∧ t.Edge p i ∧
    t.entry i (key .dot) = some ⟨key .dot, i, .dot⟩ ∧
    t.entry i (key .dotDot) = some ⟨key .dotDot, p, .dotDot⟩
  nlinks : ∀ (i : UInt64) (m : InodeMeta), t.inodes[i]? = some m → m.isDir →
    m.nlinks.toNat = 2 + t.subdirs i

/-- What happens to files only. -/
theorem Nested.of_files (h : t.Nested key) (hdir : ∀ i, t'.isDir i = t.isDir i)
    (hlinks : ∀ (i : UInt64) (m' : InodeMeta), t'.inodes[i]? = some m' → m'.isDir →
      ∃ m, t.inodes[i]? = some m ∧ m'.nlinks = m.nlinks)
    (hkeep : ∀ (p : UInt64) (k : Digest224) (e : EntryRecord), t.entry p k = some e →
      e.name.IsDots ∨ t.isDir e.ino → t'.entry p k = some e)
    (hnew : ∀ (p : UInt64) (k : Digest224) (e : EntryRecord), t'.entry p k = some e →
      ¬ e.name.IsDots → t.isDir e.ino → t.entry p k = some e) : t'.Nested key where
  rootDir := by rw [hdir]; exact h.rootDir
  root p k e he hdots h1 := by
    have hold := hnew p k e he hdots (by rw [h1]; exact h.rootDir)
    exact h.root p k e hold hdots h1
  parent i hi hne := by
    rw [hdir] at hi
    obtain ⟨p, hp, ⟨k, e, he, rfl, hdots⟩, hdot, hdotDot⟩ := h.parent i hi hne
    exact ⟨p, by rw [hdir]; exact hp, ⟨k, e, hkeep p k e he (.inr hi), rfl, hdots⟩,
      hkeep _ _ _ hdot (.inl (.inl rfl)), hkeep _ _ _ hdotDot (.inl (.inr rfl))⟩
  nlinks i m' hm' hd := by
    obtain ⟨m, hm, hsame⟩ := hlinks i m' hm' hd
    have hdm : m.isDir := by
      have heq := hdir i
      rw [isDir_eq hm', isDir_eq hm, decide_eq_true hd] at heq
      exact of_decide_eq_true heq.symm
    rw [hsame, h.nlinks i m hm hdm]
    refine congrArg (2 + ·) (entryCount_congr fun k e => ?_)
    rw [getElem?_listOf, getElem?_listOf, hdir]
    constructor
    · rintro ⟨he, hP⟩
      exact ⟨hkeep i k e he (.inr hP.2), hP⟩
    · rintro ⟨he, hP⟩
      exact ⟨hnew i k e he hP.1 hP.2, hP⟩

/-- Attributes other than the type and, for directories, the count. -/
theorem Nested.setInode (h : t.Nested key) {n : InodeMeta} (hm : t.inodes[i]? = some m)
    (hdir : n.isDir ↔ m.isDir) (hlinks : m.isDir → n.nlinks = m.nlinks) :
    ({ t with inodes := t.inodes.insert i n } : Tree).Nested key := by
  have hget : ∀ j : UInt64, (t.inodes.insert i n)[j]? = if j = i then some n else t.inodes[j]? :=
    fun j => getElem?_insert_ite _ _ _ _
  refine h.of_files (fun j => ?_) (fun j m' hm' hd => ?_) (fun _ _ _ he _ => he)
    fun _ _ _ he _ _ => he
  · unfold isDir
    rw [hget]
    split_ifs with hj
    · rw [hj, hm]
      exact decide_eq_decide.mpr hdir
    · rfl
  · rw [hget] at hm'
    split_ifs at hm' with hj
    · obtain rfl := Option.some.inj hm'
      exact ⟨m, by rw [hj, hm], hlinks (hdir.mp hd)⟩
    · exact ⟨m', hm', rfl⟩

theorem Nested.touch (h : t.Nested key) (i : UInt64) (now : Now) : (t.touch i now).Nested key := by
  unfold Tree.touch modifyInode
  cases hm : t.inodes[i]? with
  | none => exact h
  | some m => exact h.setInode hm Iff.rfl fun _ => rfl

/-- A file that loses a name is no directory, before and after. -/
theorem isDir_displace (hm : t.inodes[i]? = some m) (hino : m.ino = i) (hfile : ¬ m.isDir)
    (j : UInt64) : (t.displace i m).isDir j = t.isDir j := by
  unfold Tree.displace isDir
  split_ifs
  · rw [removeInode, getElem?_erase_ite]
    split_ifs with hj
    · rw [hj, hm]
      exact (decide_eq_false hfile).symm
    · rfl
  · rw [putInode, getElem?_insert_ite, hino]
    split_ifs with hj
    · rw [hj, hm]
      rfl
    · rfl

/-- A name of a file goes, and the file with it or not. -/
theorem Nested.displace (h : t.Nested key) (hl : t.Linked) (he : t.entry p k = some e)
    (hdots : ¬ e.name.IsDots) (hm : t.inodes[e.ino]? = some m) (hfile : ¬ m.isDir) :
    ((t.unlink k p).displace e.ino m).Nested key := by
  have hino := (hl.ino e.ino m hm).1
  have hfile' : t.isDir e.ino = false := by rw [isDir_eq hm, decide_eq_false hfile]
  have hisDir := isDir_displace (t := t.unlink k p) hm hino hfile
  refine h.of_files hisDir (fun i m' hm' hd => ?_) (fun q j e' he' hP => ?_)
    fun q j e' he' _ _ => ?_
  · have hi : i ≠ e.ino := by
      rintro rfl
      have hd' := hisDir e.ino
      rw [isDir_eq hm', decide_eq_true hd] at hd'
      exact Bool.noConfusion (hd'.trans hfile')
    refine ⟨m', ?_, rfl⟩
    unfold Tree.displace at hm'
    split_ifs at hm'
    · rwa [removeInode, getElem?_erase_ite, if_neg hi] at hm'
    · rwa [putInode, getElem?_insert_ite, if_neg (by rw [hino]; exact hi)] at hm'
  · rw [entry_displace, entry_unlink, if_neg, he']
    rintro ⟨rfl, rfl⟩
    rw [he] at he'
    obtain rfl := Option.some.inj he'
    rw [hfile'] at hP
    exact hP.elim hdots Bool.false_ne_true
  · rw [entry_displace] at he'
    exact entry_of_unlink he'

/-- A file gets a name. -/
theorem Nested.linkFile (h : t.Nested key) (hfree : t.Free key p name) (hfile : t.isDir i = false) :
    (t.link (key name) p name i).Nested key := by
  refine h.of_files (fun _ => rfl) (fun _ m' hm' _ => ⟨m', hm', rfl⟩) (fun q j e' he' _ => ?_)
    fun q j e' he' _ hd => ?_
  · rw [entry_link, if_neg, he']
    rintro ⟨rfl, rfl⟩
    rw [hfree.entry] at he'
    cases he'
  · rw [entry_link] at he'
    split_ifs at he'
    · obtain rfl := Option.some.inj he'
      rw [hfile] at hd
      cases hd
    · exact he'

/-- A file loses a name. -/
theorem Nested.unlinkFile (h : t.Nested key) (he : t.entry p k = some e) (hdots : ¬ e.name.IsDots)
    (hfile : t.isDir e.ino = false) : (t.unlink k p).Nested key := by
  refine h.of_files (fun _ => rfl) (fun _ m' hm' _ => ⟨m', hm', rfl⟩) (fun q j e' he' hP => ?_)
    fun q j e' he' _ _ => entry_of_unlink he'
  rw [entry_unlink, if_neg, he']
  rintro ⟨rfl, rfl⟩
  rw [he] at he'
  obtain rfl := Option.some.inj he'
  rw [hfile] at hP
  exact hP.elim hdots Bool.false_ne_true

/-- A new file, still without a name. -/
theorem Nested.addFile (h : t.Nested key) (hl : t.Linked) (hfile : ¬ m.isDir) :
    (t.addInode m).Nested key := by
  have hnone : t.inodes[t.nextIno]? = none := by
    cases hm : t.inodes[t.nextIno]? with
    | none => rfl
    | some m' => exact absurd (hl.ino _ m' hm).2 (UInt64.lt_irrefl _)
  have hget : ∀ i : UInt64, (t.addInode m).inodes[i]? =
      if i = t.nextIno then some { m with ino := t.nextIno } else t.inodes[i]? :=
    fun i => getElem?_insert_ite _ _ _ _
  refine h.of_files (fun i => ?_) (fun i m' hm' hd => ?_) (fun _ _ _ he _ => he)
    fun _ _ _ he _ _ => he
  · by_cases hi : i = t.nextIno
    · rw [isDir_eq (m := { m with ino := t.nextIno }) (by rw [hget, if_pos hi]), isDir, hi, hnone]
      exact decide_eq_false hfile
    · rw [isDir, isDir, hget, if_neg hi]
  · rw [hget] at hm'
    split_ifs at hm' with hi
    · obtain rfl := Option.some.inj hm'
      exact absurd hd hfile
    · exact ⟨m', hm', rfl⟩

theorem dirs_modifyInode (t : Tree) (i : UInt64) (change : InodeMeta → InodeMeta) :
    (t.modifyInode i change).dirs = t.dirs := by
  unfold modifyInode
  cases t.inodes[i]? <;> rfl

/-- The inodes after a new directory was made. -/
theorem getElem?_addDirectory {es : Entries} {pm : InodeMeta} (hp : t.inodes[p]? = some pm)
    (hne : p ≠ t.nextIno) (j : UInt64) :
    (t.addDirectory es k p name m).inodes[j]? =
      if j = p then some { pm with nlinks := pm.nlinks + 1 }
      else if j = t.nextIno then some { m with ino := t.nextIno } else t.inodes[j]? := by
  have hget : ((t.insertDir es m).link k p name t.nextIno).inodes =
      t.inodes.insert t.nextIno { m with ino := t.nextIno } := rfl
  unfold addDirectory modifyInode
  rw [hget, getElem?_insert_ite, if_neg hne, hp]
  show ((t.inodes.insert t.nextIno _).insert p _)[j]? = _
  rw [getElem?_insert_ite, getElem?_insert_ite]

/-- The entries after a new directory was made. -/
theorem entry_addDirectory {es : Entries} (q : UInt64) (j : Digest224) :
    (t.addDirectory es k p name m).entry q j =
      if q = p ∧ j = k then some ⟨k, t.nextIno, name⟩
      else if q = t.nextIno then es[j]? else t.entry q j := by
  have hent : (t.addDirectory es k p name m).entry q j =
      ((t.insertDir es m).link k p name t.nextIno).entry q j := by
    unfold addDirectory entry
    rw [dirs_modifyInode]
  rw [hent, entry_link]
  split_ifs with h₁ h₂
  · rfl
  · rw [entry, Tree.insertDir, getElem?_insert_ite, if_pos h₂, Option.bind_some]
  · rw [entry, Tree.insertDir, getElem?_insert_ite, if_neg h₂]
    rfl

theorem Linked.ne_nextIno (h : t.Linked) (hm : t.inodes[i]? = some m) : i ≠ t.nextIno :=
  fun heq => UInt64.lt_irrefl _ (heq ▸ (h.ino i m hm).2)

/-- No entry is in a list that was not made, or leads to a number that was not given. -/
theorem Linked.entry_ne_nextIno (h : t.Linked) (he : t.entry p k = some e) :
    p ≠ t.nextIno ∧ e.ino ≠ t.nextIno := by
  refine ⟨fun hp => ?_, fun heq => UInt64.lt_irrefl _ (heq ▸ h.known p k e he)⟩
  have hlist : t.dirs[p]? ≠ none := by
    intro hnone
    rw [entry, hnone] at he
    cases he
  exact UInt64.lt_irrefl _ (hp ▸ (h.list p hlist).1)

section AddDirectory
variable {pm : InodeMeta} {es : Entries} {j : UInt64}

theorem isDir_addDirectory (hl : t.Linked) (hp : t.inodes[p]? = some pm) (hdir : m.isDir)
    (j : UInt64) :
    (t.addDirectory es k p name m).isDir j = if j = t.nextIno then true else t.isDir j := by
  unfold isDir
  rw [getElem?_addDirectory hp (hl.ne_nextIno hp)]
  split_ifs with h₁ h₂ h₂
  · exact absurd (h₁.symm.trans h₂) (hl.ne_nextIno hp)
  · rw [h₁, hp]
    rfl
  · exact decide_eq_true hdir
  · rfl

theorem entry_addDirectory_of_some (hl : t.Linked) (hfree : t.Free key p name)
    (he : t.entry q k = some e) :
    (t.addDirectory es (key name) p name m).entry q k = some e := by
  rw [entry_addDirectory, if_neg, if_neg (hl.entry_ne_nextIno he).1, he]
  rintro ⟨rfl, rfl⟩
  rw [hfree.entry] at he
  cases he

/-- The parent names one more directory. -/
theorem subdirs_addDirectory_parent (hl : t.Linked) (hp : t.inodes[p]? = some pm)
    (hfree : t.Free key p name) (hdir : m.isDir) :
    (t.addDirectory es (key name) p name m).subdirs p = t.subdirs p + 1 := by
  have hlist : (t.addDirectory es (key name) p name m).listOf p =
      (t.listOf p).insert (key name) ⟨key name, t.nextIno, name⟩ := by
    apply Std.ExtTreeMap.ext_getElem?
    intro k'
    rw [getElem?_listOf, entry_addDirectory, getElem?_insert_ite, getElem?_listOf,
      if_neg (hl.ne_nextIno hp)]
    simp only [true_and]
  have hfree' : (t.listOf p)[key name]? = none := by rw [getElem?_listOf, hfree.entry]
  have hcount : entryCount (fun e => ¬ e.name.IsDots ∧
      (t.addDirectory es (key name) p name m).isDir e.ino) (t.listOf p) = t.subdirs p := by
    refine entryCount_congr fun k' e => ?_
    rw [getElem?_listOf, isDir_addDirectory hl hp hdir]
    refine and_congr_right fun he => ?_
    rw [if_neg (hl.entry_ne_nextIno he).2]
  rw [subdirs, hlist, entryCount_insert _ hfree', hcount, if_pos, Nat.add_comm]
  exact ⟨hfree.proper, by rw [isDir_addDirectory hl hp hdir, if_pos rfl]⟩

theorem subdirs_addDirectory_new (hne : p ≠ t.nextIno) :
    (t.addDirectory (newDir key t.nextIno p) k p name m).subdirs t.nextIno = 0 := by
  refine entryCount_eq_zero fun k' e he hP => ?_
  rw [getElem?_listOf, entry_addDirectory, if_neg (fun h => hne h.1.symm), if_pos rfl] at he
  exact hP.1 (getElem?_newDir he).1

theorem subdirs_addDirectory_of_ne (hl : t.Linked) (hp : t.inodes[p]? = some pm) (hdir : m.isDir)
    (hj : j ≠ p) (hnew : j ≠ t.nextIno) :
    (t.addDirectory es k p name m).subdirs j = t.subdirs j := by
  refine entryCount_congr fun k' e => ?_
  rw [getElem?_listOf, getElem?_listOf, entry_addDirectory, if_neg (fun h => hj h.1), if_neg hnew,
    isDir_addDirectory hl hp hdir]
  refine and_congr_right fun he => ?_
  rw [if_neg (hl.entry_ne_nextIno he).2]

end AddDirectory

/-- A new directory with its name. -/
theorem Nested.mkdir (h : t.Nested key) (hl : t.Linked) (hkeys : key .dot ≠ key .dotDot)
    {pm : InodeMeta} (hp : t.inodes[p]? = some pm) (hpdir : pm.isDir)
    (hn : pm.nlinks.toNat + 1 < 2 ^ 32) (hfree : t.Free key p name) (hlinks : m.nlinks = 2)
    (hdir : m.isDir) :
    (t.addDirectory (newDir key t.nextIno p) (key name) p name m).Nested key := by
  have hne := hl.ne_nextIno hp
  have hisDir : ∀ j, (t.addDirectory (newDir key t.nextIno p) (key name) p name m).isDir j =
      if j = t.nextIno then true else t.isDir j := isDir_addDirectory hl hp hdir
  have hpIs : t.isDir p := by rw [isDir_eq hp, decide_eq_true hpdir]
  have hroot : (1 : UInt64) ≠ t.nextIno := by
    obtain ⟨m₁, hm₁, -⟩ := exists_of_isDir h.rootDir
    exact hl.ne_nextIno hm₁
  constructor
  · rw [hisDir, if_neg hroot]
    exact h.rootDir
  · intro q j e he hdots
    rw [entry_addDirectory] at he
    split_ifs at he
    · obtain rfl := Option.some.inj he
      exact hroot.symm
    · exact absurd (getElem?_newDir he).1 hdots
    · exact h.root q j e he hdots
  · intro j hj hj1
    rw [hisDir] at hj
    by_cases hjn : j = t.nextIno
    · refine ⟨p, by rw [hisDir, if_neg hne]; exact hpIs, ⟨key name, ⟨key name, t.nextIno, name⟩,
        by rw [entry_addDirectory, if_pos ⟨rfl, rfl⟩], hjn.symm, hfree.proper⟩, ?_, ?_⟩
      · rw [entry_addDirectory, if_neg (fun hjp => hne (hjp.1.symm.trans hjn)), if_pos hjn, newDir,
          getElem?_insert_ite, if_neg hkeys, getElem?_insert_ite, if_pos rfl, hjn]
      · rw [entry_addDirectory, if_neg (fun hjp => hne (hjp.1.symm.trans hjn)), if_pos hjn, newDir,
          getElem?_insert_ite, if_pos rfl]
    · rw [if_neg hjn] at hj
      obtain ⟨q, hq, ⟨k', e, he, rfl, hdots⟩, hdot, hdotDot⟩ := h.parent j hj hj1
      refine ⟨q, ?_, ⟨k', e, entry_addDirectory_of_some hl hfree he, rfl, hdots⟩,
        entry_addDirectory_of_some hl hfree hdot, entry_addDirectory_of_some hl hfree hdotDot⟩
      rw [hisDir, if_neg (hl.entry_ne_nextIno he).1]
      exact hq
  · intro j m' hm' hd
    rw [getElem?_addDirectory hp hne] at hm'
    split_ifs at hm' with hjp hjn
    · obtain rfl := Option.some.inj hm'
      rw [hjp, subdirs_addDirectory_parent hl hp hfree hdir, ← Nat.add_assoc,
        ← h.nlinks p pm hp hpdir]
      show (pm.nlinks + 1).toNat = _
      rw [UInt32.toNat_add]
      exact Nat.mod_eq_of_lt hn
    · obtain rfl := Option.some.inj hm'
      rw [hjn, subdirs_addDirectory_new hne]
      show m.nlinks.toNat = 2
      rw [hlinks]
      rfl
    · rw [subdirs_addDirectory_of_ne hl hp hdir hjp hjn]
      exact h.nlinks j m' hm' hd

/-- A directory has no second name. -/
theorem Linked.eq_of_names_dir (h : t.Linked) (hm : t.inodes[e.ino]? = some m) (hdir : m.isDir)
    (he : t.entry p k = some e) (hdots : ¬ e.name.IsDots) {j : Digest224} {x : EntryRecord}
    (hx : t.entry q j = some x) (hxd : ¬ x.name.IsDots) (hino : x.ino = e.ino) : q = p ∧ j = k :=
  eq_of_count_le_one (P := fun x => x.ino = e.ino ∧ ¬ x.name.IsDots) (h.dir e.ino m hm hdir) hx he
    ⟨hino, hxd⟩ ⟨rfl, hdots⟩

section DropDirectory
variable {pm : InodeMeta} {j : UInt64}

/-- The inodes after a directory was removed. -/
theorem getElem?_dropDirectory (hp : t.inodes[p]? = some pm) (hne : p ≠ i) (j : UInt64) :
    (((t.unlink k p).removeInode i).dropBacklink p).inodes[j]? =
      if j = p then some pm.dropLink else if j = i then none else t.inodes[j]? := by
  have hrem : ((t.unlink k p).removeInode i).inodes = t.inodes.erase i := rfl
  unfold dropBacklink modifyInode
  rw [hrem, getElem?_erase_ite, if_neg hne, hp]
  show ((t.inodes.erase i).insert p _)[j]? = _
  rw [getElem?_insert_ite, getElem?_erase_ite]

/-- The entries after a directory was removed. -/
theorem entry_dropDirectory (t : Tree) (k : Digest224) (p i : UInt64) :
    (((t.unlink k p).removeInode i).dropBacklink p).entry = (t.unlink k p).entry := by
  unfold entry dropBacklink
  rw [dirs_modifyInode]
  rfl

theorem isDir_dropDirectory (hp : t.inodes[p]? = some pm) (hne : p ≠ i) (j : UInt64) :
    (((t.unlink k p).removeInode i).dropBacklink p).isDir j = if j =
      i then false else t.isDir j := by
  have hdrop : pm.dropLink.isDir ↔ pm.isDir := by
    unfold InodeMeta.dropLink
    split_ifs <;> exact Iff.rfl
  unfold isDir
  rw [getElem?_dropDirectory hp hne]
  split_ifs with h₁ h₂ h₂
  · exact absurd (h₁.symm.trans h₂) hne
  · rw [h₁, hp]
    exact decide_eq_decide.mpr hdrop
  · rfl
  · rfl

theorem entry_dropDirectory_of_some (he : t.entry p k = some e) (hdots : ¬ e.name.IsDots)
    {x : EntryRecord} {k' : Digest224} (hx : t.entry q k' = some x)
    (hkeep : x.name.IsDots ∨ x.ino ≠ e.ino) :
    (((t.unlink k p).removeInode e.ino).dropBacklink p).entry q k' = some x := by
  rw [entry_dropDirectory, entry_unlink, if_neg, hx]
  rintro ⟨rfl, rfl⟩
  rw [he] at hx
  obtain rfl := Option.some.inj hx
  exact hkeep.elim hdots fun hne => hne rfl

theorem subdirs_dropDirectory_of_ne (hl : t.Linked) (he : t.entry p k = some e)
    (hdots : ¬ e.name.IsDots) (hm : t.inodes[e.ino]? = some m) (hdir : m.isDir)
    (hp : t.inodes[p]? = some pm) (hne : p ≠ e.ino) (hj : j ≠ p) :
    (((t.unlink k p).removeInode e.ino).dropBacklink p).subdirs j = t.subdirs j := by
  refine entryCount_congr fun k' x => ?_
  rw [getElem?_listOf, getElem?_listOf, entry_dropDirectory, entry_unlink,
    if_neg (fun hjp => hj hjp.1), isDir_dropDirectory hp hne]
  refine and_congr_right fun hx => and_congr_right fun hxd => ?_
  rw [if_neg fun heq => hj (hl.eq_of_names_dir hm hdir he hdots hx hxd heq).1]

/-- The parent names one directory less. -/
theorem subdirs_dropDirectory_parent (hl : t.Linked) (he : t.entry p k = some e)
    (hdots : ¬ e.name.IsDots) (hm : t.inodes[e.ino]? = some m) (hdir : m.isDir)
    (hp : t.inodes[p]? = some pm) (hne : p ≠ e.ino) :
    (((t.unlink k p).removeInode e.ino).dropBacklink p).subdirs p + 1 = t.subdirs p := by
  have hisDir : t.isDir e.ino := by rw [isDir_eq hm, decide_eq_true hdir]
  have hlist : (((t.unlink k p).removeInode e.ino).dropBacklink p).listOf p =
      (t.listOf p).erase k := by
    apply Std.ExtTreeMap.ext_getElem?
    intro j
    rw [getElem?_listOf, entry_dropDirectory, entry_unlink, getElem?_erase_ite, getElem?_listOf]
    simp only [true_and]
  have herase := entryCount_erase (fun x => ¬ x.name.IsDots ∧ t.isDir x.ino)
    (show (t.listOf p)[k]? = some e by rw [getElem?_listOf, he])
  rw [if_pos ⟨hdots, hisDir⟩] at herase
  rw [subdirs, hlist, subdirs, ← herase, Nat.add_comm]
  refine congrArg (1 + ·) (entryCount_congr fun j x => ?_)
  rw [getElem?_erase_ite, getElem?_listOf, isDir_dropDirectory hp hne]
  by_cases hj : j = k
  · simp [hj]
  · rw [if_neg hj]
    refine and_congr_right fun hx => and_congr_right fun hxd => ?_
    rw [if_neg fun heq => hj (hl.eq_of_names_dir hm hdir he hdots hx hxd heq).2]

end DropDirectory

theorem toNat_dropLink {n : ℕ} (h : m.nlinks.toNat = n + 1) : m.dropLink.nlinks.toNat = n := by
  have hpos : 0 < m.nlinks := UInt32.lt_iff_toNat_lt.mpr (by rw [h]; exact Nat.succ_pos n)
  rw [InodeMeta.dropLink, if_pos hpos]
  show (m.nlinks - 1).toNat = n
  rw [UInt32.toNat_sub_of_le _ _
    (UInt32.le_iff_toNat_le.mpr (by rw [h]; exact Nat.succ_le_succ (Nat.zero_le n))),
    h]
  rfl

/-- An empty directory goes with its name. -/
theorem Nested.rmdir (h : t.Nested key) (hl : t.Linked) (he : t.entry p k = some e)
    (hdots : ¬ e.name.IsDots) (hm : t.inodes[e.ino]? = some m) (hdir : m.isDir) {es : Entries}
    (hes : t.dirs[e.ino]? = some es)
    (hempty : ∀ (k : Digest224) (e : EntryRecord), es[k]? = some e → e.name.IsDots) :
    (((t.unlink k p).removeInode e.ino).dropBacklink p).Nested key := by
  have hisDir : t.isDir e.ino := by rw [isDir_eq hm, decide_eq_true hdir]
  -- the parent of the directory is where its only name is
  obtain ⟨p', hp', ⟨k', e', he', heq', hdots'⟩, -, -⟩ :=
    h.parent e.ino hisDir (h.root p k e he hdots)
  obtain ⟨rfl, -⟩ := hl.eq_of_names_dir hm hdir he hdots he' hdots' heq'
  obtain ⟨pm, hp, hpdir⟩ := exists_of_isDir hp'
  have hstays : ∀ q j x, t.entry q j = some x → ¬ x.name.IsDots → q ≠ e.ino := by
    rintro q j x hx hxd rfl
    rw [entry, hes] at hx
    exact hxd (hempty j x hx)
  have hne : p' ≠ e.ino := hstays p' k e he hdots
  constructor
  · rw [isDir_dropDirectory hp hne, if_neg (Ne.symm (h.root p' k e he hdots))]
    exact h.rootDir
  · intro q j x hx hxd
    rw [entry_dropDirectory] at hx
    exact h.root q j x (entry_of_unlink hx) hxd
  · intro j hj hj1
    rw [isDir_dropDirectory hp hne] at hj
    split_ifs at hj with hje
    obtain ⟨q, hq, ⟨k', x, hx, rfl, hxd⟩, hdot, hdotDot⟩ := h.parent j hj hj1
    refine ⟨q, ?_, ⟨k', x, entry_dropDirectory_of_some he hdots hx (.inr hje), rfl, hxd⟩,
      entry_dropDirectory_of_some he hdots hdot (.inl (.inl rfl)),
      entry_dropDirectory_of_some he hdots hdotDot (.inl (.inr rfl))⟩
    rw [isDir_dropDirectory hp hne, if_neg (hstays q k' x hx hxd)]
    exact hq
  · intro j m' hm' hd
    rw [getElem?_dropDirectory hp hne] at hm'
    split_ifs at hm' with hjp
    · obtain rfl := Option.some.inj hm'
      rw [hjp]
      apply toNat_dropLink
      rw [h.nlinks p' pm hp hpdir, ← subdirs_dropDirectory_parent hl he hdots hm hdir hp hne]
      rfl
    · rw [subdirs_dropDirectory_of_ne hl he hdots hm hdir hp hne hjp]
      exact h.nlinks j m' hm' hd

/-- A directory gets another name in its parent. -/
theorem Nested.moveDir (h : t.Nested key) (he : t.entry p k = some e) (hdots : ¬ e.name.IsDots)
    (hdir : t.isDir e.ino) (hfree : t.Free key p name) (hne : k ≠ key name) :
    ((t.link (key name) p name e.ino).unlink k p).Nested key := by
  have hentry : ∀ q j, ((t.link (key name) p name e.ino).unlink k p).entry q j =
      if q = p ∧ j = k then none else if q = p ∧ j = key name then some ⟨key name, e.ino, name⟩
      else t.entry q j := by
    intro q j
    rw [entry_unlink, entry_link]
  have hedge : ∀ {q j}, t.Edge q j →
      ((t.link (key name) p name e.ino).unlink k p).Edge q j := by
    rintro q j ⟨k', x, hx, rfl, hxd⟩
    by_cases hsame : q = p ∧ k' = k
    · obtain ⟨rfl, rfl⟩ := hsame
      rw [he] at hx
      obtain rfl := Option.some.inj hx
      refine ⟨key name, ⟨key name, e.ino, name⟩, ?_, rfl, hfree.proper⟩
      rw [hentry, if_neg (fun hk => hne hk.2.symm), if_pos ⟨rfl, rfl⟩]
    · refine ⟨k', x, ?_, rfl, hxd⟩
      rw [hentry, if_neg hsame, if_neg, hx]
      rintro ⟨rfl, rfl⟩
      rw [hfree.entry] at hx
      cases hx
  have hkeep : ∀ q j x, t.entry q j = some x → x.name.IsDots →
      ((t.link (key name) p name e.ino).unlink k p).entry q j = some x := by
    intro q j x hx hxd
    rw [hentry, if_neg, if_neg, hx]
    · rintro ⟨rfl, rfl⟩
      rw [hfree.entry] at hx
      cases hx
    · rintro ⟨rfl, rfl⟩
      rw [he] at hx
      obtain rfl := Option.some.inj hx
      exact hdots hxd
  have hsub : ∀ j, ((t.link (key name) p name e.ino).unlink k p).subdirs j = t.subdirs j := by
    intro j
    by_cases hj : j = p
    · have hfree' : (t.listOf p)[key name]? = none := by rw [getElem?_listOf, hfree.entry]
      have hk : ((t.listOf p).insert (key name) ⟨key name, e.ino, name⟩)[k]? = some e := by
        rw [getElem?_insert_ite, if_neg hne, getElem?_listOf, he]
      have hinsert := entryCount_insert (fun x => ¬ x.name.IsDots ∧ t.isDir x.ino) hfree'
        ⟨key name, e.ino, name⟩
      have herase := entryCount_erase (fun x => ¬ x.name.IsDots ∧ t.isDir x.ino) hk
      rw [if_pos ⟨hfree.proper, hdir⟩] at hinsert
      rw [if_pos ⟨hdots, hdir⟩, hinsert] at herase
      rw [subdirs, hj, listOf_unlink, if_pos rfl, listOf_link, if_pos rfl]
      exact Nat.add_left_cancel herase
    · rw [subdirs, listOf_unlink, if_neg hj, listOf_link, if_neg hj]
      rfl
  refine ⟨h.rootDir, fun q j x hx hxd => ?_, fun j hj hj1 => ?_, fun j m hm hd => ?_⟩
  · rw [hentry] at hx
    split_ifs at hx
    · obtain rfl := Option.some.inj hx
      exact h.root p k e he hdots
    · exact h.root q j x hx hxd
  · obtain ⟨q, hq, hqj, hdot, hdotDot⟩ := h.parent j hj hj1
    exact ⟨q, hq, hedge hqj, hkeep _ _ _ hdot (.inl rfl), hkeep _ _ _ hdotDot (.inr rfl)⟩
  · rw [hsub]
    exact h.nlinks j m hm hd

/-- A rename that leaves directories in their parent and takes the name of none. -/
theorem Nested.rename (h : t.Nested key) (hl : t.Linked) {newName : Str} {now : Now}
    (hstays : t.isDir i → p = q)
    (hspares : ∀ j m, t.Names key q newName j → t.inodes[j]? = some m → ¬ m.isDir)
    (hdots : ¬ name.IsDots) (hname : t.Names key p name i)
    (hclear : t.Cleared key q newName t') (hfree : t'.Free key q newName) :
    (((t'.link (key newName) q newName i).unlink (key name) p).touch i now).Nested key := by
  refine Nested.touch ?_ _ _
  obtain ⟨e, he, rfl, rfl⟩ := hname
  obtain ⟨h', hisDir⟩ : t'.Nested key ∧ ∀ j, t'.isDir j → t.isDir j := by
    cases hclear with
    | none => exact ⟨h, fun _ => id⟩
    | some hname' hm' =>
        have hfile := hspares _ _ hname' hm'
        obtain ⟨e', he', rfl, rfl⟩ := hname'
        refine ⟨h.displace hl he' hfree.proper hm' hfile, fun j hj => ?_⟩
        rwa [isDir_displace (t := t.unlink _ q) hm' (hl.ino _ _ hm').1 hfile] at hj
  by_cases hsame : p = q ∧ key e.name = key newName
  · rw [hsame.1, hsame.2, unlink_link_self hfree.dir hfree.entry]
    exact h'
  · have he' : t'.entry p (key e.name) = some e := by
      cases hclear with
      | none => exact he
      | some => rw [entry_displace, entry_unlink, if_neg hsame, he]
    cases hd : t'.isDir e.ino with
    | true =>
        obtain rfl := hstays (hisDir _ hd)
        exact h'.moveDir he' hdots hd hfree fun hk => hsame ⟨rfl, hk⟩
    | false =>
        refine (h'.linkFile hfree hd).unlinkFile ?_ hdots hd
        rw [entry_link, if_neg hsame, he']

theorem nested_initial (key : Str → Digest224) (hlinks : m.nlinks = 2) (hdir : m.isDir) :
    (Tree.initial key m).Nested key := by
  have hget : ∀ j : UInt64, (Tree.initial key m).inodes[j]? = if j = 1 then some m else none := by
    intro j
    rw [Tree.initial, getElem?_insert_ite]
    simp
  have hdots : ∀ (p : UInt64) (k : Digest224) (e : EntryRecord),
      (Tree.initial key m).entry p k = some e → e.name.IsDots := by
    intro p k e he
    obtain ⟨es, hes, hk⟩ := Option.bind_eq_some_iff.mp he
    rw [Tree.initial, getElem?_insert_ite] at hes
    split_ifs at hes
    · obtain rfl := Option.some.inj hes
      exact (getElem?_newDir hk).1
    · simp at hes
  constructor
  · rw [isDir, hget, if_pos rfl]
    exact decide_eq_true hdir
  · exact fun p k e he hnot => absurd (hdots p k e he) hnot
  · intro i hi hne
    rw [isDir, hget, if_neg hne] at hi
    cases hi
  · intro i m' hm' _
    rw [hget] at hm'
    split_ifs at hm'
    obtain rfl := Option.some.inj hm'
    rw [subdirs, entryCount_eq_zero fun k e he hP => hP.1 (hdots i k e (by
      rw [← getElem?_listOf, he])), hlinks]
    rfl

end Tree

section
variable {B : Blockset} {L : B.Laws} {s : Fs B} {t : Tree}

/-- The inode that a rename gives another name. -/
def Fs.renamed (s : Fs B) : FsOp → Option UInt64
  | .rename p name q newName flags _ =>
      if flags &&& 2 = 0 ∧ (flags &&& 1 = 0 ∨ s.resolve q newName = none) then s.resolve p name
      else none
  | _ => none

/-- Directories are renamed only within their parent. -/
def FsOp.StaysInParent (s : Fs B) (op : FsOp) : Prop :=
  ∀ i ∈ s.renamed op, s.isDir i → ∀ p ∈ op.parents, ∀ q ∈ op.parents, p = q

/-- The entries of a directory that name an inode, without `.` and `..`. -/
def Fs.names (s : Fs B) (p i : UInt64) : ℕ :=
  (s.entries p).countP fun e => e.ino = i ∧ ¬ e.name.IsDots

/-- The entries of a directory that name directories, without `.` and `..`. -/
def Fs.subdirs (s : Fs B) (p : UInt64) : ℕ :=
  (s.entries p).countP fun e => ¬ e.name.IsDots ∧ s.isDir e.ino

/-- A directory has one name, in a directory that its `..` leads to, and counts the
directories in it. -/
def Fs.WellPlaced (s : Fs B) (d : UInt64) : Prop :=
  ∃ p m, s.isDir p ∧ (∀ q, s.names q d = if q = p then 1 else 0) ∧
    s.resolve d .dot = some d ∧ s.resolve d .dotDot = some p ∧
    s.inode d = some m ∧ m.nlinks.toNat = 2 + s.subdirs d

theorem Blockset.Laws.Shows.isDir_eq (h : L.Shows s t) (hc : L.NoCollision s.store.io)
    (i : UInt64) : s.isDir i = t.isDir i := by
  rw [Fs.isDir, h.inode hc]
  rfl

theorem Blockset.Laws.Shows.countP (h : L.Shows s t) (hc : L.NoCollision s.store.io) (p : UInt64)
    (P : DirEntry → Prop) [DecidablePred P] :
    (s.entries p).countP (fun e => P e) = entryCount (fun e => P ⟨e.name, e.ino⟩) (t.listOf p) := by
  rw [h.entries hc, List.countP_map, entryCount_eq]
  rfl

/-- A request that leaves directories in their parents keeps the tree of directories. -/
theorem Blockset.Laws.Shows.nested_step (hB : L.Reliable) (h : L.Shows s t)
    (hc : L.NoCollision s.store.io) (hkeys : L.key .dot ≠ L.key .dotDot) {op : FsOp} {t' : Tree}
    (hstays : op.StaysInParent s) (hspares : op.SparesDirs s) (hn : t.Nested L.key)
    (hl : t.Linked) (hstep : t.Step L.key op t') : t'.Nested L.key := by
  cases hstep with
  | skip => exact hn
  | burn _ => exact ⟨hn.rootDir, hn.root, hn.parent, hn.nlinks⟩
  | create _ _ _ hfile hfree =>
      refine (hn.addFile hl hfile).linkFile ⟨hfree.1, hfree.2, hfree.3⟩ ?_
      rw [Tree.isDir, Tree.addInode, getElem?_insert_ite, if_pos rfl]
      exact decide_eq_false hfile
  | mkdir _ hp hpdir hlt hfree hlinks hdir => exact hn.mkdir hl hkeys hp hpdir hlt hfree hlinks hdir
  | @link _ i p name now m hm hfile _ hfree =>
      have hlinked := hn.linkFile (i := i) hfree (by rw [Tree.isDir_eq hm, decide_eq_false hfile])
      have hino : (({ m with nlinks := m.nlinks + 1 } : InodeMeta).setCtime now).ino = i :=
        (hl.ino i m hm).1
      rw [Tree.putInode, hino]
      exact hlinked.setInode hm Iff.rfl fun hd => absurd hd hfile
  | unlink hdots hname hm hfile =>
      obtain ⟨e, he, rfl, rfl⟩ := hname
      exact hn.displace hl he hdots hm hfile
  | rmdir hdots hname hm hdir hes hempty =>
      obtain ⟨e, he, rfl, rfl⟩ := hname
      exact hn.rmdir hl he hdots hm hdir hes hempty
  | @rename _ _ p q i name newName flags now hexch hflags hdots hname hclear hfree =>
      refine hn.rename hl (fun hd => ?_) (fun j m hj hm hd => ?_) hdots hname hclear hfree
      · obtain ⟨e, he, -, rfl⟩ := hname
        have hflags' : flags &&& 1 = 0 ∨ s.resolve q newName = none :=
          hflags.imp_right fun hnone => by
            rw [h.resolve_eq hB hc, hnone]
            rfl
        have hrenamed : s.renamed (.rename p name q newName flags now) = some e.ino := by
          rw [Fs.renamed, if_pos ⟨hexch, hflags'⟩, h.resolve hB hc he]
        exact hstays e.ino hrenamed (by rw [h.isDir_eq hc, hd]) p List.mem_cons_self q
          (List.mem_cons_of_mem _ List.mem_cons_self)
      · exact hspares j (h.replaced hB hc hexch hflags hname hj) ((h.isDir hc hm).mpr hd)

/-- In every tree of directories each directory is well placed. -/
theorem Blockset.Laws.Shows.wellPlaced (hB : L.Reliable) (h : L.Shows s t)
    (hc : L.NoCollision s.store.io) (hn : t.Nested L.key) (hl : t.Linked) {d : UInt64}
    (hd : s.isDir d) (hne : d ≠ 1) : s.WellPlaced d := by
  rw [h.isDir_eq hc] at hd
  obtain ⟨m, hm, hdir⟩ := Tree.exists_of_isDir hd
  obtain ⟨p, hp, ⟨k, e, he, hed, hdots⟩, hdot, hdotDot⟩ := hn.parent d hd hne
  have hnames : ∀ q, s.names q d =
      entryCount (fun x => x.ino = d ∧ ¬ x.name.IsDots) (t.listOf q) := fun q => h.countP hc q _
  refine ⟨p, m, by rw [h.isDir_eq hc]; exact hp, fun q => ?_, h.resolve hB hc hdot,
    h.resolve hB hc hdotDot, by rw [h.inode hc, hm], ?_⟩
  · rw [hnames]
    split_ifs with hq
    · -- one entry is counted, and all directories together have no more
      have hle : entryCount (fun x => x.ino = d ∧ ¬ x.name.IsDots) (t.listOf q) ≤ t.names d := by
        obtain ⟨es, hes, -⟩ := Option.bind_eq_some_iff.mp he
        rw [hq, Tree.listOf, hes]
        exact le_total (fun _ es => entryCount (fun x => x.ino = d ∧ ¬ x.name.IsDots) es) hes
      have hpos := entryCount_erase (fun x => x.ino = d ∧ ¬ x.name.IsDots)
        (show (t.listOf q)[k]? = some e by rw [hq, Tree.getElem?_listOf, he])
      rw [if_pos ⟨hed, hdots⟩] at hpos
      have hone := hl.dir d m hm hdir
      omega
    · refine entryCount_eq_zero fun j x hx hP => hq ?_
      rw [Tree.getElem?_listOf] at hx
      exact (Tree.eq_of_count_le_one (hl.dir d m hm hdir) hx he hP ⟨hed, hdots⟩).1
  · rw [hn.nlinks d m hm hdir, Fs.subdirs, h.countP hc d fun e => ¬ e.name.IsDots ∧ s.isDir e.ino]
    simp only [h.isDir_eq hc]
    rfl

/-- After any requests on names that rename directories only within their parent and take
the name of none, every directory but the root is well placed. -/
theorem directories_wellPlaced (L : B.Laws) (hB : B.NoIoErrors) {uid gid : UInt32} {io io' : B.Io}
    {st : Store B} (hnew : Store.new B uid gid io = (.ok st, io')) {auto : Bool}
    (hrun : Runs (fun s op => (op.OnNames ∧ op.Proper ∧ s.Roomy) ∧ op.StaysInParent s ∧
      op.SparesDirs s) (Fs.mount st auto) s) (hc : L.NoCollision s.store.io) (d : UInt64)
    (hd : s.isDir d) (hne : d ≠ 1) : s.WellPlaced d := by
  have hB := hB.reliable L
  have hkeys : L.key .dot ≠ L.key .dotDot := by
    obtain ⟨_, rfl, -, -, -, hdot, hdotDot⟩ := new_eq (L := L) hB hnew
    have hle := hrun.le L
    exact fun heq => absurd (hc (L.stored_mono hle.1 hdot) (L.stored_mono hle.1 hdotDot) heq)
      (by decide)
  obtain ⟨t, ht, hl, hn⟩ := Runs.tree hB (fun _ _ h => h.1) (shows_new (L := L) hB hnew auto)
    (I := fun t => t.Linked ∧ t.Nested L.key)
    ⟨Tree.linked_initial L.key rfl (isDir_rootInode uid gid),
      Tree.nested_initial L.key rfl (isDir_rootInode uid gid)⟩
    (fun s t op t' hop hcs hs hI hstep => ⟨hI.1.step hstep,
      hs.nested_step hB hcs hkeys hop.2.1 hop.2.2 hI.2 hI.1 hstep⟩) hrun hc
  exact ht.wellPlaced hB hc hn hl hd hne

end

/-- The directory `a` was renamed to `b`. -/
def renamedFs : Fs memoryBlockset :=
  ((FsOp.rename 1 nameA 1 nameB 0 midnight).run dirFs).get (by decide +kernel)

theorem directories_wellPlaced_renamed : renamedFs.isDir 2 ∧ renamedFs.WellPlaced 2 := by
  have hdir : renamedFs.isDir 2 := by decide +kernel
  have hnew : Store.new memoryBlockset 0 0 MemoryIo.empty = (.ok freshStore, _) :=
    Prog.eq_ok_of_isSome (by decide +kernel)
  have hspares : (FsOp.rename 1 nameA 1 nameB 0 midnight).SparesDirs dirFs := by
    have hnone : dirFs.replaced (.rename 1 nameA 1 nameB 0 midnight) = none := by decide +kernel
    unfold FsOp.SparesDirs
    rw [hnone]
    intro i hi
    cases hi
  have hstays : (FsOp.rename 1 nameA 1 nameB 0 midnight).StaysInParent dirFs := by
    intro i _ _ p hp q hq
    simp only [FsOp.parents, List.mem_cons, List.not_mem_nil, or_false, or_self] at hp hq
    rw [hp, hq]
  have hop : (FsOp.rename 1 nameA 1 nameB 0 midnight).OnNames ∧
      (FsOp.rename 1 nameA 1 nameB 0 midnight).Proper ∧ dirFs.Roomy :=
    ⟨trivial, by decide, onNames_twoDirsFs.2.2⟩
  have hmkdir : (FsOp.mkdir 1 nameA 0o755 0 0 0).StaysInParent freshFs ∧
      (FsOp.mkdir 1 nameA 0o755 0 0 0).SparesDirs freshFs :=
    ⟨fun i hi => absurd hi (by simp [Fs.renamed]), fun i hi => absurd hi (by simp [Fs.replaced])⟩
  have hrun : Runs (fun s op => (op.OnNames ∧ op.Proper ∧ s.Roomy) ∧ op.StaysInParent s ∧
      op.SparesDirs s) (Fs.mount freshStore false) renamedFs :=
    .step (.step (.refl _) ⟨onNames_dirFs, hmkdir⟩ run_dirFs) ⟨hop, hstays, hspares⟩
      (Option.some_get _).symm
  exact ⟨hdir, directories_wellPlaced memoryLaws memoryBlockset_noIoErrors hnew hrun
    (memoryLaws_noCollision (by decide +kernel)) 2 hdir (by decide)⟩

/-- The directory `a` was moved into the directory `b`. -/
def strayFs : Fs memoryBlockset :=
  ((FsOp.rename 1 nameA 3 nameA 0 midnight).run twoDirsFs).get (by decide +kernel)

theorem rename_leaves_dotDot :
    Runs (fun s op => (op.OnNames ∧ op.Proper ∧ s.Roomy) ∧ op.AvoidsCycle s ∧ s.replaced op = none)
      freshFs strayFs ∧
    memoryLaws.NoCollision strayFs.store.io ∧
    strayFs.isDir 2 ∧ strayFs.resolve 3 nameA = some 2 ∧ ¬ strayFs.WellPlaced 2 := by
  have hcycle : (FsOp.rename 1 nameA 3 nameA 0 midnight).AvoidsCycle twoDirsFs := by
    have hsrc : twoDirsFs.resolve 1 nameA = some 2 := by decide +kernel
    intro i hi _
    rw [hsrc] at hi
    obtain rfl := Option.some.inj hi
    exact Fs.not_reaches [2] (by decide +kernel) (by decide) (by decide)
  have hop : (FsOp.rename 1 nameA 3 nameA 0 midnight).OnNames ∧
      (FsOp.rename 1 nameA 3 nameA 0 midnight).Proper ∧ twoDirsFs.Roomy :=
    ⟨trivial, by decide, by decide +kernel⟩
  have hnew : twoDirsFs.replaced (.rename 1 nameA 3 nameA 0 midnight) = none := by decide +kernel
  have hrun : (FsOp.rename 1 nameA 3 nameA 0 midnight).run twoDirsFs = some strayFs :=
    (Option.some_get _).symm
  refine ⟨.step (.step (.step (.refl _) ⟨onNames_dirFs, trivial, rfl⟩ run_dirFs)
    ⟨onNames_twoDirsFs, trivial, rfl⟩ run_twoDirsFs) ⟨hop, hcycle, hnew⟩ hrun,
    memoryLaws_noCollision (by decide +kernel), by decide +kernel, by decide +kernel, ?_⟩
  rintro ⟨p, m, -, hnames, -, hdotDot, -, -⟩
  have hroot : strayFs.resolve 2 .dotDot = some 1 := by decide +kernel
  have hnone : strayFs.names 1 2 = 0 := by decide +kernel
  rw [hroot] at hdotDot
  obtain rfl := Option.some.inj hdotDot
  have hone := hnames 1
  rw [hnone, if_pos rfl] at hone
  cases hone

end SliceFs
