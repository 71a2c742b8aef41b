import SliceFs.Links
import SliceFs.Paths

/-!
# No orphans

Every live inode is found below the root directory, as long as no rename takes the name
of a directory: a directory that is replaced by a rename stays behind with all that is in
it.
-/
namespace SliceFs
open TreeMaps ProgramLogic Relation Paths

/-- The directories a request is issued on. -/
def FsOp.parents : FsOp → List UInt64
  | .create p _ _ _ _ _ => [p]
  | .mknod p _ _ _ _ _ => [p]
  | .mkdir p _ _ _ _ _ => [p]
  | .symlink p _ _ _ _ => [p]
  | .link _ p _ _ => [p]
  | .unlink p _ => [p]
  | .rmdir p _ => [p]
  | .rename p _ q _ _ _ => [p, q]
  | _ => []

namespace Tree
variable {t t' : Tree} {key : Str → Digest224} {p q i : UInt64} {k : Digest224} {name : Str}
  {e : EntryRecord} {m : InodeMeta}

/-- An entry other than `.` and `..` leads from a directory to an inode. -/
def Edge (t : Tree) (p i : UInt64) : Prop :=
  ∃ k e, t.entry p k = some e ∧ e.ino = i ∧ ¬ e.name.IsDots

/-- Every live inode and every directory with a file in it is found from the root. -/
def Rooted (t : Tree) : Prop := Spanned t.Edge 1 fun i => t.inodes[i]? ≠ none

theorem edge_congr (hdirs : t'.dirs = t.dirs) : t'.Edge = t.Edge := by
  unfold Edge entry
  rw [hdirs]

/-- A change of attributes. -/
theorem Rooted.of_dirs (h : t.Rooted) (hdirs : t'.dirs = t.dirs)
    (hlive : ∀ i : UInt64, t'.inodes[i]? ≠ none → t.inodes[i]? ≠ none) : t'.Rooted := by
  unfold Rooted
  rw [edge_congr hdirs]
  exact Spanned.mono h hlive

theorem Rooted.modifyInode (h : t.Rooted) (i : UInt64) (change : InodeMeta → InodeMeta) :
    (t.modifyInode i change).Rooted := by
  unfold Tree.modifyInode
  cases hm : t.inodes[i]? with
  | none => exact h
  | some m =>
      refine h.of_dirs rfl fun j hj => ?_
      rw [getElem?_insert_ite] at hj
      split_ifs at hj with hji
      · rw [hji, hm]
        exact Option.some_ne_none _
      · exact hj

theorem edge_link (hfree : t.Free key p name) {a b : UInt64} :
    (t.link (key name) p name i).Edge a b ↔ t.Edge a b ∨ (a = p ∧ b = i) := by
  constructor
  · rintro ⟨k, e, he, rfl, hdots⟩
    rw [entry_link] at he
    split_ifs at he with hk
    · obtain rfl := Option.some.inj he
      exact .inr ⟨hk.1, rfl⟩
    · exact .inl ⟨k, e, he, rfl, hdots⟩
  · rintro (⟨k, e, he, rfl, hdots⟩ | ⟨rfl, rfl⟩)
    · refine ⟨k, e, ?_, rfl, hdots⟩
      rw [entry_link, if_neg, he]
      rintro ⟨rfl, rfl⟩
      rw [hfree.entry] at he
      cases he
    · exact ⟨key name, _, by rw [entry_link, if_pos ⟨rfl, rfl⟩], rfl, hfree.proper⟩

theorem edge_of_unlink {a b : UInt64} (h : (t.unlink k p).Edge a b) : t.Edge a b := by
  obtain ⟨j, e, he, rfl, hdots⟩ := h
  rw [entry_unlink] at he
  split_ifs at he
  exact ⟨j, e, he, rfl, hdots⟩

theorem edge_unlink (he : t.entry p k = some e) {a b : UInt64} (h : t.Edge a b)
    (hne : b ≠ e.ino) : (t.unlink k p).Edge a b := by
  obtain ⟨j, e', he', rfl, hdots⟩ := h
  refine ⟨j, e', ?_, rfl, hdots⟩
  rw [entry_unlink, if_neg, he']
  rintro ⟨rfl, rfl⟩
  rw [he] at he'
  exact hne (congrArg EntryRecord.ino (Option.some.inj he')).symm

/-- A file leads nowhere. -/
theorem Linked.leaf (h : t.Linked) (hm : t.inodes[i]? = some m) (hfile : ¬ m.isDir) (b : UInt64) :
    ¬ t.Edge i b := by
  rintro ⟨k, e, he, -, -⟩
  exact hfile ((h.list i (dirs_ne_none_of_entry he)).2 m hm)

/-- A file that still has links has an entry. -/
theorem Linked.edge_of_links (h : t.Linked) (hm : t.inodes[i]? = some m) (hfile : ¬ m.isDir)
    (hlinks : t.links i ≠ 0) : ∃ a, t.Edge a i := by
  by_contra hnone
  refine hlinks (count_eq_zero fun p k e he hi => hnone ⟨p, k, e, he, hi, fun hdots => ?_⟩)
  exact hfile (h.dots p k e m he hdots (hi ▸ hm))

/-- A file loses a name, and goes with the last one. -/
theorem Rooted.displace (h : t.Rooted) (hl : t.Linked) (he : t.entry p k = some e)
    (hdots : ¬ e.name.IsDots) (hm : t.inodes[e.ino]? = some m) (hfile : ¬ m.isDir) :
    ((t.unlink k p).displace e.ino m).Rooted := by
  have hl' := hl.displace he hdots hm
  have hdirs := dirs_displace (t.unlink k p) e.ino m
  unfold Rooted
  rw [edge_congr hdirs]
  refine Spanned.prune h (hl.leaf hm hfile) (fun _ _ => edge_unlink he) (fun _ _ => edge_of_unlink)
    (fun j hj => ?_) fun hlive => ?_
  · by_cases hje : j = e.ino
    · rw [hje, hm]
      exact Option.some_ne_none _
    · unfold Tree.displace at hj
      split_ifs at hj
      · rwa [removeInode, getElem?_erase_ite, if_neg hje] at hj
      · have hino := (hl.ino e.ino m hm).1
        rwa [putInode, getElem?_insert_ite, if_neg (by rw [hino]; exact hje)] at hj
  · obtain ⟨m', hm'⟩ := Option.ne_none_iff_exists'.mp hlive
    have hfile' : ¬ m'.isDir ∧ m'.nlinks ≠ 0 := by
      unfold Tree.displace at hm'
      split_ifs at hm' with hlast
      · rw [removeInode, getElem?_erase_ite, if_pos rfl] at hm'
        cases hm'
      · have hino := (hl.ino e.ino m hm).1
        rw [putInode, getElem?_insert_ite, if_pos hino.symm] at hm'
        obtain rfl := Option.some.inj hm'
        refine ⟨hfile, fun hzero => ?_⟩
        have hzero' : m.nlinks - 1 = 0 := hzero
        have hsub := toNat_sub_one hlast
        rw [hzero'] at hsub
        exact hlast (UInt32.le_iff_toNat_le.mpr (Nat.le_of_eq hsub.symm))
    have hlinks := hl'.file e.ino m' hm' hfile'.1
    obtain ⟨a, ha⟩ := hl'.edge_of_links hm' hfile'.1 fun hzero => hfile'.2
      (UInt32.toNat_inj.mp (hlinks.trans hzero))
    rw [edge_congr hdirs] at ha
    exact ⟨a, ha⟩

/-- A directory that holds no files goes with its name. -/
theorem Rooted.rmdir (h : t.Rooted) (he : t.entry p k = some e) {es : Entries}
    (hes : t.dirs[e.ino]? = some es)
    (hempty : ∀ (k : Digest224) (e : EntryRecord), es[k]? = some e → e.name.IsDots) :
    (((t.unlink k p).removeInode e.ino).dropBacklink p).Rooted := by
  refine Rooted.modifyInode ?_ _ _
  show Spanned (t.unlink k p).Edge 1 _
  refine Spanned.prune (i := e.ino) h ?_ (fun _ _ => edge_unlink he) (fun _ _ => edge_of_unlink)
    (fun j hj => ?_) fun hlive => ?_
  · rintro b ⟨j, e', he', -, hdots⟩
    rw [entry, hes] at he'
    exact hdots (hempty j e' he')
  · rw [removeInode, getElem?_erase_ite] at hj
    split_ifs at hj with hje
    · exact absurd rfl hj
    · exact hj
  · rw [removeInode, getElem?_erase_ite, if_pos rfl] at hlive
    exact absurd rfl hlive

theorem Rooted.create (h : t.Rooted) (hp : ReflTransGen t.Edge 1 p) (hfree : t.Free key p name) :
    ((t.addInode m).link (key name) p name t.nextIno).Rooted := by
  refine Spanned.grow (i := t.nextIno) h hp ?_ ?_ ?_ ?_
  · exact fun a b hab => (edge_link (t := t.addInode m) ⟨hfree.1, hfree.2, hfree.3⟩).mpr (.inl hab)
  · exact (edge_link (t := t.addInode m) ⟨hfree.1, hfree.2, hfree.3⟩).mpr (.inr ⟨rfl, rfl⟩)
  · intro a b hab
    exact ((edge_link (t := t.addInode m) ⟨hfree.1, hfree.2, hfree.3⟩).mp hab).imp_right And.left
  · intro a ha
    have ha' : (t.inodes.insert t.nextIno { m with ino := t.nextIno })[a]? ≠ none := ha
    rw [getElem?_insert_ite] at ha'
    split_ifs at ha' with hai
    · exact .inr hai
    · exact .inl ha'

/-- A new directory has no entries but `.` and `..`. -/
theorem edge_insertDir (hl : t.Linked) {a b : UInt64} :
    (t.insertDir (newDir key t.nextIno p) m).Edge a b ↔ t.Edge a b := by
  have hnone : t.dirs[t.nextIno]? = none := by
    by_contra hne
    exact UInt64.lt_irrefl _ (hl.list _ hne).1
  have hentry : ∀ k, (t.insertDir (newDir key t.nextIno p) m).entry a k =
      if a = t.nextIno then (newDir key t.nextIno p)[k]? else t.entry a k := by
    intro k
    unfold entry Tree.insertDir
    rw [getElem?_insert_ite]
    split_ifs <;> rfl
  unfold Edge
  simp only [hentry]
  by_cases ha : a = t.nextIno
  · simp only [if_pos ha]
    constructor
    · rintro ⟨k, e, he, -, hdots⟩
      exact absurd (getElem?_newDir he).1 hdots
    · rintro ⟨k, e, he, -, -⟩
      rw [entry, ha, hnone] at he
      cases he
  · simp only [if_neg ha]

theorem Rooted.mkdir (h : t.Rooted) (hl : t.Linked) (hp : ReflTransGen t.Edge 1 p)
    (hne : p ≠ t.nextIno) (hfree : t.Free key p name) :
    (t.addDirectory (newDir key t.nextIno p) (key name) p name m).Rooted := by
  have hdirs : (t.insertDir (newDir key t.nextIno p) m).dirs[p]? = t.dirs[p]? := by
    unfold Tree.insertDir
    rw [getElem?_insert_ite, if_neg hne]
  have hfree' : (t.insertDir (newDir key t.nextIno p) m).Free key p name := by
    refine ⟨hfree.proper, by rw [hdirs]; exact hfree.dir, ?_⟩
    rw [entry, hdirs]
    exact hfree.entry
  refine Rooted.modifyInode ?_ _ _
  refine Spanned.grow (i := t.nextIno) h hp ?_ ?_ ?_ ?_
  · exact fun a b hab => (edge_link hfree').mpr (.inl ((edge_insertDir hl).mpr hab))
  · exact (edge_link hfree').mpr (.inr ⟨rfl, rfl⟩)
  · intro a b hab
    exact ((edge_link hfree').mp hab).imp (edge_insertDir hl).mp And.left
  · intro a ha
    have ha' : (t.inodes.insert t.nextIno { m with ino := t.nextIno })[a]? ≠ none := ha
    rw [getElem?_insert_ite] at ha'
    split_ifs at ha' with hai
    · exact .inr hai
    · exact .inl ha'

theorem Rooted.link (h : t.Rooted) (hp : ReflTransGen t.Edge 1 p) (hfree : t.Free key p name) :
    (t.link (key name) p name i).Rooted := by
  refine Spanned.grow (i := i) h hp (fun a b hab => (edge_link hfree).mpr (.inl hab))
    ((edge_link hfree).mpr (.inr ⟨rfl, rfl⟩)) (fun a b hab => ?_) fun a ha => .inl ha
  exact ((edge_link hfree).mp hab).imp_right And.left

/-- A name moves to a directory that is not below what it names. -/
theorem Rooted.move (h : t.Rooted) (hfree : t.Free key q name) (he : t.entry p k = some e)
    (hq : ReflTransGen t.Edge 1 q) (hbelow : ¬ ReflTransGen t.Edge e.ino q)
    (hne : ¬ (p = q ∧ k = key name)) :
    ((t.link (key name) q name e.ino).unlink k p).Rooted := by
  have he' : (t.link (key name) q name e.ino).entry p k = some e := by
    rw [entry_link, if_neg hne, he]
  refine Spanned.move h hq hbelow ?_ ?_ ?_
  · exact fun a b hab hb => edge_unlink he' ((edge_link hfree).mpr (.inl hab)) hb
  · refine ⟨key name, ⟨key name, e.ino, name⟩, ?_, rfl, hfree.proper⟩
    rw [entry_unlink, if_neg (fun hk => hne ⟨hk.1.symm, hk.2.symm⟩), entry_link, if_pos ⟨rfl, rfl⟩]
  · intro a b hab
    exact ((edge_link hfree).mp (edge_of_unlink hab)).imp_right And.left

/-- Making a name free for a rename loses no inode, if the name is not that of a directory. -/
theorem Rooted.cleared (h : t.Rooted) (hl : t.Linked) (hq : ReflTransGen t.Edge 1 q)
    (hspares : ∀ j m, t.Names key q name j → t.inodes[j]? = some m → ¬ m.isDir)
    (hclear : t.Cleared key q name t') (hfree : t'.Free key q name) :
    t'.Rooted ∧ ReflTransGen t'.Edge 1 q ∧ t.dirs[q]? ≠ none ∧ ∀ a b, t'.Edge a b → t.Edge a b := by
  cases hclear with
  | none => exact ⟨h, hq, hfree.dir, fun _ _ => id⟩
  | some hname hm =>
      have hfile := hspares _ _ hname hm
      obtain ⟨e, he, rfl, rfl⟩ := hname
      have hdir := dirs_ne_none_of_entry he
      have hne : q ≠ e.ino := fun heq => hfile ((hl.list q hdir).2 _ (heq ▸ hm))
      refine ⟨h.displace hl he hfree.proper hm hfile, ?_, hdir, ?_⟩
      · rw [edge_congr (dirs_displace _ _ _)]
        exact reach_of_leaf (hl.leaf hm hfile) (fun _ _ => edge_unlink he) hq hne
      · rw [edge_congr (dirs_displace _ _ _)]
        exact fun _ _ => edge_of_unlink

/-- A rename that moves no directory below itself and takes the name of none. -/
theorem Rooted.rename (h : t.Rooted) (hl : t.Linked) {newName : Str} {now : Now}
    (hq : ReflTransGen t.Edge 1 q)
    (hbelow : ∀ m, t.inodes[i]? = some m → m.isDir → ¬ ReflTransGen t.Edge i q)
    (hspares : ∀ j m, t.Names key q newName j → t.inodes[j]? = some m → ¬ m.isDir)
    (hdots : ¬ name.IsDots) (hname : t.Names key p name i)
    (hclear : t.Cleared key q newName t') (hfree : t'.Free key q newName) :
    (((t'.link (key newName) q newName i).unlink (key name) p).touch i now).Rooted := by
  obtain ⟨h', hq', hdir, hsub⟩ := h.cleared hl hq hspares hclear hfree
  obtain ⟨e, he, rfl, rfl⟩ := hname
  refine Rooted.modifyInode ?_ _ _
  by_cases hsame : p = q ∧ key e.name = key newName
  · rw [hsame.1, hsame.2, unlink_link_self hfree.dir hfree.entry]
    exact h'
  · have he' : t'.entry p (key e.name) = some e := by
      cases hclear with
      | none => exact he
      | some => rw [entry_displace, entry_unlink, if_neg hsame, he]
    refine h'.move hfree he' hq' (fun hreach => ?_) hsame
    have hreach' : ReflTransGen t.Edge e.ino q := ReflTransGen.mono hsub _ _ hreach
    obtain ⟨m, hm⟩ := Option.ne_none_iff_exists'.mp (hl.live p _ e he hdots)
    by_cases hd : m.isDir
    · exact hbelow m hm hd hreach'
    · -- nothing is below a file, and the new parent is none
      rcases hreach'.cases_head with heq | ⟨b, hb, -⟩
      · rw [← heq] at hdir
        exact hd ((hl.list _ hdir).2 m hm)
      · exact hl.leaf hm hd b hb

end Tree

theorem Tree.rooted_initial (key : Str → Digest224) (m : InodeMeta) :
    (Tree.initial key m).Rooted := by
  constructor
  · intro i hi
    rw [Tree.initial, getElem?_insert_ite] at hi
    split_ifs at hi with h1
    · rw [h1]
    · simp at hi
  · rintro a b ⟨k, e, he, -, hdots⟩
    obtain ⟨es, hes, hk⟩ := Option.bind_eq_some_iff.mp he
    rw [Tree.initial, getElem?_insert_ite] at hes
    split_ifs at hes
    · obtain rfl := Option.some.inj hes
      exact absurd (Tree.getElem?_newDir hk).1 hdots
    · simp at hes

section
variable {B : Blockset} {L : B.Laws} {s : Fs B} {t : Tree}

/-- An entry other than `.` and `..` leads from a directory to an inode. -/
def Fs.Edge (s : Fs B) (p i : UInt64) : Prop := ∃ e ∈ s.entries p, e.ino = i ∧ ¬ e.name.IsDots

instance (s : Fs B) (p i : UInt64) : Decidable (s.Edge p i) :=
  inferInstanceAs (Decidable (∃ e ∈ s.entries p, e.ino = i ∧ ¬ e.name.IsDots))

/-- An inode is found from another by the entries of directories. -/
abbrev Fs.Reaches (s : Fs B) : UInt64 → UInt64 → Prop := ReflTransGen s.Edge

def Fs.isDir (s : Fs B) (i : UInt64) : Bool := (s.inode i).any fun m => m.isDir

/-- The inode whose name a rename takes for another. -/
def Fs.replaced (s : Fs B) : FsOp → Option UInt64
  | .rename p name q newName flags _ =>
      if flags &&& 2 = 0 ∧ flags &&& 1 = 0 ∧ s.resolve p name ≠ none then s.resolve q newName
      else none
  | _ => none

/-- No directory is renamed to a place below itself. -/
def FsOp.AvoidsCycle (s : Fs B) : FsOp → Prop
  | .rename p name q _ _ _ => ∀ i ∈ s.resolve p name, s.isDir i → ¬ s.Reaches i q
  | _ => True

/-- No rename takes the name of a directory. -/
def FsOp.SparesDirs (s : Fs B) (op : FsOp) : Prop := ∀ i ∈ s.replaced op, ¬ s.isDir i

/-- A request on names in directories that are found from the root. -/
def FsOp.Grounded (s : Fs B) (op : FsOp) : Prop :=
  (op.OnNames ∧ op.Proper ∧ s.Roomy) ∧ (∀ p ∈ op.parents, s.Reaches 1 p) ∧ op.AvoidsCycle s

theorem Blockset.Laws.Shows.edge (h : L.Shows s t) (hc : L.NoCollision s.store.io) :
    s.Edge = t.Edge := by
  funext p i
  refine propext ⟨?_, ?_⟩
  · rintro ⟨e, he, rfl, hdots⟩
    obtain ⟨k, r, hr, rfl⟩ := (h.mem_entries hc).mp he
    exact ⟨k, r, hr, rfl, hdots⟩
  · rintro ⟨k, r, hr, rfl, hdots⟩
    exact ⟨_, (h.mem_entries hc).mpr ⟨k, r, hr, rfl⟩, rfl, hdots⟩

theorem Blockset.Laws.Shows.isDir (h : L.Shows s t) (hc : L.NoCollision s.store.io) {i : UInt64}
    {m : InodeMeta} (hm : t.inodes[i]? = some m) : s.isDir i ↔ m.isDir := by
  rw [Fs.isDir, h.inode hc, hm, Option.any_some, decide_eq_true_eq]

theorem Blockset.Laws.Shows.replaced (hB : L.Reliable) (h : L.Shows s t)
    (hc : L.NoCollision s.store.io) {p q i j : UInt64} {name newName : Str} {flags : UInt32}
    {now : Now} (hexch : flags &&& 2 = 0)
    (hflags : flags &&& 1 = 0 ∨ t.entry q (L.key newName) = none) (hi : t.Names L.key p name i)
    (hj : t.Names L.key q newName j) :
    s.replaced (.rename p name q newName flags now) = some j := by
  obtain ⟨e, he, -, -⟩ := hi
  obtain ⟨e', he', -, rfl⟩ := hj
  have hone : flags &&& 1 = 0 := hflags.resolve_right (by rw [he']; exact Option.some_ne_none _)
  rw [Fs.replaced, if_pos ⟨hexch, hone, by rw [h.resolve hB hc he]; exact Option.some_ne_none _⟩,
    h.resolve hB hc he']

/-- A request on directories that are found from the root loses no inode. -/
theorem Blockset.Laws.Shows.rooted_step (hB : L.Reliable) (h : L.Shows s t)
    (hc : L.NoCollision s.store.io) {op : FsOp} {t' : Tree}
    (hparents : ∀ p ∈ op.parents, s.Reaches 1 p) (hcycle : op.AvoidsCycle s)
    (hspares : op.SparesDirs s) (hr : t.Rooted) (hl : t.Linked) (hstep : t.Step L.key op t') :
    t'.Rooted := by
  unfold Fs.Reaches at hparents
  rw [h.edge hc] at hparents
  cases hstep with
  | skip => exact hr
  | burn _ => exact hr.of_dirs rfl fun _ hi => hi
  | @create op _ p name m hmakes _ _ _ hfree =>
      have hp : p ∈ op.parents := by
        cases op with
        | create | mknod | symlink =>
            obtain ⟨rfl, rfl⟩ := Prod.mk.inj (Option.some.inj hmakes)
            exact List.mem_cons_self
        | _ => cases hmakes
      exact hr.create (hparents p hp) hfree
  | @mkdir _ p name _ _ _ _ _ pm _ hp _ _ hfree _ _ =>
      have hne : p ≠ t.nextIno := fun heq => UInt64.lt_irrefl _ (heq ▸ (hl.ino p pm hp).2)
      exact hr.mkdir hl (hparents p List.mem_cons_self) hne hfree
  | @link _ i p name now m hm _ _ hfree =>
      refine Tree.Rooted.of_dirs (hr.link (i := i) (hparents p List.mem_cons_self) hfree) rfl
        fun j hj => ?_
      have hino : (({ m with nlinks := m.nlinks + 1 } : InodeMeta).setCtime now).ino = i :=
        (hl.ino i m hm).1
      rw [Tree.putInode, getElem?_insert_ite, hino] at hj
      split_ifs at hj with hji
      · show t.inodes[j]? ≠ none
        rw [hji, hm]
        exact Option.some_ne_none _
      · exact hj
  | unlink hdots hname hm hfile =>
      obtain ⟨e, he, rfl, rfl⟩ := hname
      exact hr.displace hl he hdots hm hfile
  | rmdir _ hname _ _ hes hempty =>
      obtain ⟨e, he, rfl, rfl⟩ := hname
      exact hr.rmdir he hes hempty
  | @rename _ _ p q i name newName flags now hexch hflags hdots hname hclear hfree =>
      refine hr.rename hl (hparents q (List.mem_cons_of_mem _ List.mem_cons_self)) ?_ ?_ hdots hname
        hclear hfree
      · intro m hm hdir
        obtain ⟨e, he, -, rfl⟩ := hname
        have hbelow := hcycle e.ino (h.resolve hB hc he) ((h.isDir hc hm).mpr hdir)
        unfold Fs.Reaches at hbelow
        rwa [h.edge hc] at hbelow
      · intro j m hj hm hdir
        exact hspares j (h.replaced hB hc hexch hflags hname hj) ((h.isDir hc hm).mpr hdir)

/-- After any requests on directories that are found from the root, which move no
directory below itself and take the name of none, every live inode is found from the
root. -/
theorem no_orphans (L : B.Laws) (hB : B.NoIoErrors) {uid gid : UInt32} {io io' : B.Io}
    {st : Store B} (hnew : Store.new B uid gid io = (.ok st, io')) {auto : Bool}
    (hrun : Runs (fun s op => op.Grounded s ∧ op.SparesDirs s) (Fs.mount st auto) s)
    (hc : L.NoCollision s.store.io) (i : UInt64) (hi : s.inode i ≠ none) : s.Reaches 1 i := by
  have hB := hB.reliable L
  obtain ⟨t, ht, -, hr⟩ := Runs.tree hB (fun _ _ h => h.1.1) (shows_new (L := L) hB hnew auto)
    (I := fun t => t.Linked ∧ t.Rooted)
    ⟨Tree.linked_initial L.key rfl (isDir_rootInode uid gid), Tree.rooted_initial L.key _⟩
    (fun s t op t' hop hcs hs hI hstep => ⟨hI.1.step hstep,
      hs.rooted_step hB hcs hop.1.2.1 hop.1.2.2 hop.2 hI.2 hI.1 hstep⟩) hrun hc
  unfold Fs.Reaches
  rw [ht.edge hc]
  rw [ht.inode hc] at hi
  exact hr.live i hi

end

/-- Paths do not leave a list of directories whose entries stay in it. -/
theorem Fs.not_reaches {B : Blockset} {s : Fs B} (S : List UInt64)
    (hS : S.all fun p => (s.entries p).all fun e => e.name.IsDots ∨ e.ino ∈ S) {i j : UInt64}
    (hi : i ∈ S) (hj : j ∉ S) : ¬ s.Reaches i j := by
  refine fun hreach => hj (mem_of_closed (S := fun a => a ∈ S) ?_ hi hreach)
  rintro a b ha ⟨e, he, rfl, hdots⟩
  have hmem := List.all_eq_true.mp (List.all_eq_true.mp hS a ha) e he
  exact (of_decide_eq_true hmem).resolve_left hdots

section
variable {s : Fs memoryBlockset}

/-- A directory `a`, with inode 2. -/
def dirFs : Fs memoryBlockset :=
  ((FsOp.mkdir 1 nameA 0o755 0 0 0).run freshFs).get (by decide +kernel)

/-- A file `a` in it, with inode 3. -/
def nestedFs : Fs memoryBlockset :=
  ((FsOp.create 2 nameA 0o644 0 0 0).run dirFs).get (by decide +kernel)

/-- The file was moved to `b` in the root. -/
def movedFs : Fs memoryBlockset :=
  ((FsOp.rename 2 nameA 1 nameB 0 midnight).run nestedFs).get (by decide +kernel)

theorem run_dirFs : (FsOp.mkdir 1 nameA 0o755 0 0 0).run freshFs = some dirFs :=
  (Option.some_get _).symm

theorem run_nestedFs : (FsOp.create 2 nameA 0o644 0 0 0).run dirFs = some nestedFs :=
  (Option.some_get _).symm

/-- The first directory can be made. -/
theorem onNames_dirFs : (FsOp.mkdir 1 nameA 0o755 0 0 0).OnNames ∧
    (FsOp.mkdir 1 nameA 0o755 0 0 0).Proper ∧ freshFs.Roomy :=
  ⟨trivial, by decide, by decide +kernel⟩

theorem run_movedFs :
    (FsOp.rename 2 nameA 1 nameB 0 midnight).run nestedFs = some movedFs :=
  (Option.some_get _).symm

theorem no_orphans_moved : movedFs.inode 3 ≠ none ∧ movedFs.Reaches 1 3 := by
  have hedge : dirFs.Edge 1 2 := by decide +kernel
  have hedge' : nestedFs.Edge 1 2 := by decide +kernel
  have hlive : movedFs.inode 3 ≠ none := by decide +kernel
  have hnew : Store.new memoryBlockset 0 0 MemoryIo.empty = (.ok freshStore, _) :=
    Prog.eq_ok_of_isSome (by decide +kernel)
  have h₀ : (FsOp.mkdir 1 nameA 0o755 0 0 0).Grounded freshFs :=
    ⟨onNames_dirFs, by simp [FsOp.parents, ReflTransGen.refl], trivial⟩
  have h₁ : (FsOp.create 2 nameA 0o644 0 0 0).Grounded dirFs :=
    ⟨⟨trivial, by decide, by decide +kernel⟩, by simpa [FsOp.parents] using .single hedge, trivial⟩
  have h₂ : (FsOp.rename 2 nameA 1 nameB 0 midnight).Grounded nestedFs := by
    have hfile : nestedFs.resolve 2 nameA = some 3 ∧ nestedFs.isDir 3 = false := by decide +kernel
    refine ⟨⟨trivial, by decide, by decide +kernel⟩, ?_, ?_⟩
    · simpa [FsOp.parents, ReflTransGen.refl] using .single hedge'
    · intro i hi hdir
      rw [hfile.1] at hi
      obtain rfl := Option.some.inj hi
      rw [hfile.2] at hdir
      cases hdir
  have hfree : (FsOp.rename 2 nameA 1 nameB 0 midnight).SparesDirs nestedFs := by
    have hnone : nestedFs.replaced (.rename 2 nameA 1 nameB 0 midnight) = none := by decide +kernel
    unfold FsOp.SparesDirs
    rw [hnone]
    nofun
  have hrun : Runs (fun s op => op.Grounded s ∧ op.SparesDirs s) (Fs.mount freshStore false)
      movedFs :=
    .step (.step (.step (.refl _) ⟨h₀, nofun⟩ run_dirFs) ⟨h₁, nofun⟩ run_nestedFs) ⟨h₂, hfree⟩
      run_movedFs
  exact ⟨hlive, no_orphans memoryLaws memoryBlockset_noIoErrors hnew hrun
    (memoryLaws_noCollision (by decide +kernel)) 3 hlive⟩

/-- A second directory `b`, with inode 3. -/
def twoDirsFs : Fs memoryBlockset :=
  ((FsOp.mkdir 1 nameB 0o755 0 0 0).run dirFs).get (by decide +kernel)

theorem run_twoDirsFs : (FsOp.mkdir 1 nameB 0o755 0 0 0).run dirFs = some twoDirsFs :=
  (Option.some_get _).symm

theorem onNames_twoDirsFs : (FsOp.mkdir 1 nameB 0o755 0 0 0).OnNames ∧
    (FsOp.mkdir 1 nameB 0o755 0 0 0).Proper ∧ dirFs.Roomy :=
  ⟨trivial, by decide, by decide +kernel⟩

/-- A file in the second directory, with inode 4. -/
def filledFs : Fs memoryBlockset :=
  ((FsOp.create 3 nameA 0o644 0 0 0).run twoDirsFs).get (by decide +kernel)

/-- The first directory was renamed to the second. -/
def orphanFs : Fs memoryBlockset :=
  ((FsOp.rename 1 nameA 1 nameB 0 midnight).run filledFs).get (by decide +kernel)

theorem rename_leaves_orphan :
    Runs (fun s op => op.Grounded s) freshFs orphanFs ∧
    memoryLaws.NoCollision orphanFs.store.io ∧
    orphanFs.inode 4 ≠ none ∧ ¬ orphanFs.Reaches 1 4 := by
  have hedge : twoDirsFs.Edge 1 3 := by decide +kernel
  have h₀ : (FsOp.mkdir 1 nameA 0o755 0 0 0).Grounded freshFs :=
    ⟨onNames_dirFs, by simp [FsOp.parents, ReflTransGen.refl], trivial⟩
  have h₁ : (FsOp.mkdir 1 nameB 0o755 0 0 0).Grounded dirFs :=
    ⟨onNames_twoDirsFs, by simp [FsOp.parents, ReflTransGen.refl], trivial⟩
  have h₂ : (FsOp.create 3 nameA 0o644 0 0 0).Grounded twoDirsFs :=
    ⟨⟨trivial, by decide, by decide +kernel⟩, by simpa [FsOp.parents] using .single hedge, trivial⟩
  have h₃ : (FsOp.rename 1 nameA 1 nameB 0 midnight).Grounded filledFs := by
    have hsrc : filledFs.resolve 1 nameA = some 2 := by decide +kernel
    refine ⟨⟨trivial, by decide, by decide +kernel⟩, by simp [FsOp.parents, ReflTransGen.refl], ?_⟩
    intro i hi _
    rw [hsrc] at hi
    obtain rfl := Option.some.inj hi
    exact Fs.not_reaches [2] (by decide +kernel) (by decide) (by decide)
  exact ⟨.step (.step (.step (.step (.refl _) h₀ run_dirFs) h₁ run_twoDirsFs) h₂
      (Option.some_get _).symm) h₃ (Option.some_get _).symm,
    memoryLaws_noCollision (by decide +kernel), by decide +kernel,
    Fs.not_reaches [1, 2] (by decide +kernel) (by decide) (by decide)⟩

end

end SliceFs
