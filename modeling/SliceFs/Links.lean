import SliceFs.TreeSteps

/-!
# Link counts

The links of a file are counted in its inode and made by entries in any directory. Every
step of a tree keeps both in agreement, in all the cases in which a rename meets its own
inode again. A directory has at most one entry that is not `.` or `..`.
-/
namespace SliceFs
open TreeMaps ProgramLogic

namespace Tree
variable {t t' : Tree} {key : Str → Digest224} {p q i j : UInt64} {k : Digest224} {name : Str}
  {e : EntryRecord} {m n : InodeMeta}

/-- The entries that name an inode. -/
def links (t : Tree) (i : UInt64) : ℕ := t.count fun e => e.ino = i

/-- The entries other than `.` and `..` that name an inode. -/
def names (t : Tree) (i : UInt64) : ℕ := t.count fun e => e.ino = i ∧ ¬ e.name.IsDots

theorem links_link (hdir : t.dirs[p]? ≠ none) (hfree : t.entry p k = none) (j : UInt64) :
    (t.link k p name i).links j = t.links j + if i = j then 1 else 0 :=
  count_link _ hdir hfree

theorem names_link (hdir : t.dirs[p]? ≠ none) (hfree : t.entry p k = none)
    (hdots : ¬ name.IsDots) (j : UInt64) :
    (t.link k p name i).names j = t.names j + if i = j then 1 else 0 := by
  rw [names, count_link _ hdir hfree]
  simp only [hdots, not_false_eq_true, and_true]
  rfl

theorem links_unlink (he : t.entry p k = some e) (j : UInt64) :
    (t.unlink k p).links j + (if e.ino = j then 1 else 0) = t.links j :=
  count_unlink _ he

theorem names_unlink (he : t.entry p k = some e) (hdots : ¬ e.name.IsDots) (j : UInt64) :
    (t.unlink k p).names j + (if e.ino = j then 1 else 0) = t.names j := by
  have hsum := count_unlink (fun e => e.ino = j ∧ ¬ e.name.IsDots) he
  simp only [hdots, not_false_eq_true, and_true] at hsum
  exact hsum

/-- Every file has as many links as entries, and every entry names a live inode. -/
structure Linked (t : Tree) : Prop where
  ino : ∀ (i : UInt64) (m : InodeMeta), t.inodes[i]? = some m → m.ino = i ∧ i < t.nextIno
  known : ∀ (p : UInt64) (k : Digest224) (e : EntryRecord), t.entry p k = some e →
    e.ino < t.nextIno
  live : ∀ (p : UInt64) (k : Digest224) (e : EntryRecord), t.entry p k = some e →
    ¬ e.name.IsDots → t.inodes[e.ino]? ≠ none
  dots : ∀ (p : UInt64) (k : Digest224) (e : EntryRecord) (m : InodeMeta),
    t.entry p k = some e → e.name.IsDots → t.inodes[e.ino]? = some m → m.isDir
  file : ∀ (i : UInt64) (m : InodeMeta), t.inodes[i]? = some m → ¬ m.isDir →
    m.nlinks.toNat = t.links i
  dir : ∀ (i : UInt64) (m : InodeMeta), t.inodes[i]? = some m → m.isDir → t.names i ≤ 1
  list : ∀ p : UInt64, t.dirs[p]? ≠ none → p < t.nextIno ∧
    ∀ m, t.inodes[p]? = some m → m.isDir

/-- A number that was not handed out has no entries. -/
theorem Linked.fresh (h : t.Linked) (P : EntryRecord → Prop) [DecidablePred P]
    (hP : ∀ e, P e → e.ino = t.nextIno) : t.count P = 0 := by
  refine count_eq_zero fun p k e he hp => ?_
  have hlt := h.known p k e he
  rw [hP e hp] at hlt
  exact UInt64.lt_irrefl _ hlt

theorem Linked.burn (h : t.Linked) (hmax : t.nextIno ≠ u64Max) : t.burnIno.Linked where
  ino i m hm := ⟨(h.ino i m hm).1, UInt64.lt_trans (h.ino i m hm).2 (lt_add_one_of_ne_u64Max hmax)⟩
  known p k e he := UInt64.lt_trans (h.known p k e he) (lt_add_one_of_ne_u64Max hmax)
  live := h.live
  dots := h.dots
  file := h.file
  dir := h.dir
  list p hp := ⟨UInt64.lt_trans (h.list p hp).1 (lt_add_one_of_ne_u64Max hmax), (h.list p hp).2⟩

/-- Attributes other than the type, and for files the count of links. -/
theorem Linked.put (h : t.Linked) (hm : t.inodes[n.ino]? = some m)
    (hlinks : ¬ m.isDir → n.nlinks = m.nlinks) (hdir : n.isDir ↔ m.isDir) :
    (t.putInode n).Linked := by
  have hget : ∀ i : UInt64, (t.putInode n).inodes[i]? =
      if i = n.ino then some n else t.inodes[i]? := fun i => getElem?_insert_ite _ _ _ _
  constructor
  · intro i m' hi
    rw [hget] at hi
    split_ifs at hi with hij
    · obtain rfl := Option.some.inj hi
      exact ⟨hij.symm, hij ▸ (h.ino n.ino m hm).2⟩
    · exact h.ino i m' hi
  · exact h.known
  · intro p k e he hdots
    rw [hget]
    split_ifs
    · exact Option.some_ne_none _
    · exact h.live p k e he hdots
  · intro p k e m' he hdots hm'
    rw [hget] at hm'
    split_ifs at hm' with hij
    · obtain rfl := Option.some.inj hm'
      exact hdir.mpr (h.dots p k e m he hdots (hij ▸ hm))
    · exact h.dots p k e m' he hdots hm'
  · intro i m' hi hfile
    rw [hget] at hi
    split_ifs at hi with hij
    · obtain rfl := Option.some.inj hi
      have hfile' : ¬ m.isDir := fun hd => hfile (hdir.mpr hd)
      rw [hlinks hfile', hij]
      exact h.file n.ino m hm hfile'
    · exact h.file i m' hi hfile
  · intro i m' hi hd
    rw [hget] at hi
    split_ifs at hi with hij
    · obtain rfl := Option.some.inj hi
      rw [hij]
      exact h.dir n.ino m hm (hdir.mp hd)
    · exact h.dir i m' hi hd
  · intro p hp
    refine ⟨(h.list p hp).1, fun m' hm' => ?_⟩
    rw [hget] at hm'
    split_ifs at hm' with hij
    · obtain rfl := Option.some.inj hm'
      exact hdir.mpr ((h.list p hp).2 m (hij ▸ hm))
    · exact (h.list p hp).2 m' hm'

theorem Linked.touch (h : t.Linked) (i : UInt64) (now : Now) : (t.touch i now).Linked := by
  unfold Tree.touch
  cases hm : t.inodes[i]? with
  | none =>
      rw [modifyInode, hm]
      exact h
  | some m =>
      have hino := (h.ino i m hm).1
      rw [modifyInode_put hm hino]
      exact h.put (m := m) (by rw [← hino] at hm; exact hm) (fun _ => rfl) Iff.rfl

theorem entry_of_unlink {q : UInt64} {j : Digest224} {e : EntryRecord}
    (h : (t.unlink k p).entry q j = some e) : t.entry q j = some e := by
  rw [entry_unlink] at h
  split_ifs at h
  exact h

/-- An edit of the entries of a directory that exists. -/
theorem dirs_ne_none_of_insert {dirs : Map UInt64 Entries} {es : Entries} (hp : dirs[p]? ≠ none)
    (hq : (dirs.insert p es)[q]? ≠ none) : dirs[q]? ≠ none := by
  rw [getElem?_insert_ite] at hq
  split_ifs at hq with hpq
  · rw [hpq]
    exact hp
  · exact hq

theorem dirs_ne_none_of_entry (he : t.entry p k = some e) : t.dirs[p]? ≠ none := by
  obtain ⟨es, hes, -⟩ := Option.bind_eq_some_iff.mp he
  rw [hes]
  exact Option.some_ne_none _

/-- A removed entry leaves a directory alone. -/
theorem Linked.unlinkDir (h : t.Linked) (he : t.entry p k = some e) (hdots : ¬ e.name.IsDots)
    (hm : t.inodes[e.ino]? = some m) (hdir : m.isDir) : (t.unlink k p).Linked where
  ino := h.ino
  known p k e he := h.known p k e (entry_of_unlink he)
  live p k e he := h.live p k e (entry_of_unlink he)
  dots p k e m he := h.dots p k e m (entry_of_unlink he)
  file i m' hi hfile := by
    have hsum := links_unlink he i
    rw [if_neg (fun hei => hfile ?_), Nat.add_zero] at hsum
    · rw [hsum]
      exact h.file i m' hi hfile
    · have hi' : t.inodes[i]? = some m' := hi
      rw [← hei, hm] at hi'
      obtain rfl := Option.some.inj hi'
      exact hdir
  dir i m' hi hd := by
    have hsum := names_unlink he hdots i
    have hle := h.dir i m' hi hd
    omega
  list q hq := h.list q (dirs_ne_none_of_insert (dirs_ne_none_of_entry he) hq)

/-- The last name of a file is removed and the file with it. -/
theorem Linked.unlinkLast (h : t.Linked) (he : t.entry p k = some e)
    (hm : t.inodes[e.ino]? = some m) (hfile : ¬ m.isDir) (hlast : m.nlinks ≤ 1) :
    ((t.unlink k p).removeInode e.ino).Linked := by
  have hzero : (t.unlink k p).links e.ino = 0 := by
    have hsum := links_unlink he e.ino
    have hcount := h.file e.ino m hm hfile
    have hle := UInt32.le_iff_toNat_le.mp hlast
    have hone : (1 : UInt32).toNat = 1 := rfl
    rw [if_pos rfl] at hsum
    omega
  have hother : ∀ q j e', (t.unlink k p).entry q j = some e' → e'.ino ≠ e.ino := by
    intro q j e' he' heq
    have hpos := count_pos (P := fun x => x.ino = e.ino) he' heq
    exact absurd hzero (Nat.pos_iff_ne_zero.mp hpos)
  constructor
  · intro i m' hi
    rw [removeInode, getElem?_erase_ite] at hi
    split_ifs at hi
    exact h.ino i m' hi
  · intro p k e he
    exact h.known p k e (entry_of_unlink he)
  · intro q j e' he' hdots
    rw [removeInode, getElem?_erase_ite, if_neg (hother q j e' he')]
    exact h.live q j e' (entry_of_unlink he') hdots
  · intro q j e' m' he' hdots hm'
    rw [removeInode, getElem?_erase_ite, if_neg (hother q j e' he')] at hm'
    exact h.dots q j e' m' (entry_of_unlink he') hdots hm'
  · intro i m' hi hfile'
    rw [removeInode, getElem?_erase_ite] at hi
    split_ifs at hi with hie
    have hsum := links_unlink he i
    rw [if_neg (Ne.symm hie)] at hsum
    rw [h.file i m' hi hfile']
    exact hsum.symm
  · intro i m' hi hd
    rw [removeInode, getElem?_erase_ite] at hi
    split_ifs at hi with hie
    have hle := h.dir i m' hi hd
    have hsum := count_unlink (fun x => x.ino = i ∧ ¬ x.name.IsDots) he
    exact Nat.le_trans (Nat.le_trans (Nat.le_add_right _ _) hsum.le) hle
  · intro q hq
    have hlist := h.list q (dirs_ne_none_of_insert (dirs_ne_none_of_entry he) hq)
    refine ⟨hlist.1, fun m' hm' => ?_⟩
    rw [removeInode, getElem?_erase_ite] at hm'
    split_ifs at hm'
    exact hlist.2 m' hm'

theorem toNat_sub_one {n : UInt32} (h : ¬ n ≤ 1) : (n - 1).toNat + 1 = n.toNat := by
  rw [UInt32.le_iff_toNat_le] at h
  have hone : (1 : UInt32).toNat = 1 := rfl
  rw [UInt32.toNat_sub_of_le _ _ (UInt32.le_iff_toNat_le.mpr (by omega))]
  omega

/-- A name of a file is removed while others remain. -/
theorem Linked.unlinkMore (h : t.Linked) (he : t.entry p k = some e)
    (hm : t.inodes[e.ino]? = some m) (hfile : ¬ m.isDir) (hmore : ¬ m.nlinks ≤ 1) :
    ((t.unlink k p).putInode { m with nlinks := m.nlinks - 1 }).Linked := by
  have hino := (h.ino e.ino m hm).1
  have hget : ∀ i : UInt64, ((t.unlink k p).putInode { m with nlinks := m.nlinks - 1 }).inodes[i]? =
      if i = e.ino then some { m with nlinks := m.nlinks - 1 } else t.inodes[i]? := by
    intro i
    show (t.inodes.insert m.ino _)[i]? = _
    rw [hino, getElem?_insert_ite]
  constructor
  · intro i m' hi
    rw [hget] at hi
    split_ifs at hi with hie
    · obtain rfl := Option.some.inj hi
      exact ⟨hino.trans hie.symm, hie ▸ (h.ino e.ino m hm).2⟩
    · exact h.ino i m' hi
  · intro q j e' he'
    exact h.known q j e' (entry_of_unlink he')
  · intro q j e' he' hdots
    rw [hget]
    split_ifs
    · exact Option.some_ne_none _
    · exact h.live q j e' (entry_of_unlink he') hdots
  · intro q j e' m' he' hdots hm'
    rw [hget] at hm'
    split_ifs at hm' with hie
    · exact absurd (h.dots q j e' m (entry_of_unlink he') hdots (hie ▸ hm)) hfile
    · exact h.dots q j e' m' (entry_of_unlink he') hdots hm'
  · intro i m' hi hfile'
    have hsum : (t.unlink k p).links i + _ = t.links i := links_unlink he i
    show m'.nlinks.toNat = (t.unlink k p).links i
    rw [hget] at hi
    split_ifs at hi with hie
    · obtain rfl := Option.some.inj hi
      have hcount := h.file e.ino m hm hfile
      have hsub := toNat_sub_one hmore
      rw [if_pos hie.symm] at hsum
      rw [hie] at hsum ⊢
      show (m.nlinks - 1).toNat = _
      omega
    · rw [if_neg (Ne.symm hie)] at hsum
      rw [h.file i m' hi hfile']
      exact hsum.symm
  · intro i m' hi hd
    rw [hget] at hi
    split_ifs at hi with hie
    · obtain rfl := Option.some.inj hi
      exact absurd hd hfile
    · have hle := h.dir i m' hi hd
      have hsum := count_unlink (fun x => x.ino = i ∧ ¬ x.name.IsDots) he
      exact Nat.le_trans (Nat.le_trans (Nat.le_add_right _ _) hsum.le) hle
  · intro q hq
    have hlist := h.list q (dirs_ne_none_of_insert (dirs_ne_none_of_entry he) hq)
    refine ⟨hlist.1, fun m' hm' => ?_⟩
    rw [hget] at hm'
    split_ifs at hm' with hie
    · exact absurd (hlist.2 m (hie ▸ hm)) hfile
    · exact hlist.2 m' hm'

/-- An inode loses a name. -/
theorem Linked.displace (h : t.Linked) (he : t.entry p k = some e) (hdots : ¬ e.name.IsDots)
    (hm : t.inodes[e.ino]? = some m) : ((t.unlink k p).displace e.ino m).Linked := by
  unfold Tree.displace
  by_cases hlast : m.nlinks ≤ 1
  · rw [if_pos hlast]
    by_cases hdir : m.isDir
    · rw [if_pos hdir]
      exact h.unlinkDir he hdots hm hdir
    · rw [if_neg hdir]
      exact h.unlinkLast he hm hdir hlast
  · rw [if_neg hlast]
    by_cases hdir : m.isDir
    · have hino := (h.ino e.ino m hm).1
      exact (h.unlinkDir he hdots hm hdir).put (m := m) (by rw [← hino] at hm; exact hm)
        (fun hfile => absurd hdir hfile) Iff.rfl
    · exact h.unlinkMore he hm hdir hlast

/-- A file gets one more name. -/
theorem Linked.addLink (h : t.Linked) (hfree : t.Free key p name) (hm : t.inodes[n.ino]? = some m)
    (hfile : ¬ m.isDir) (hmode : n.mode = m.mode) (hlinks : n.nlinks.toNat = m.nlinks.toNat + 1) :
    ((t.link (key name) p name n.ino).putInode n).Linked := by
  have hfile' : ¬ n.isDir := by
    unfold InodeMeta.isDir
    rw [hmode]
    exact hfile
  have hget : ∀ i : UInt64, ((t.link (key name) p name n.ino).putInode n).inodes[i]? =
      if i = n.ino then some n else t.inodes[i]? := fun i => getElem?_insert_ite _ _ _ _
  have hent : ∀ q j, ((t.link (key name) p name n.ino).putInode n).entry q j =
      if q = p ∧ j = key name then some ⟨key name, n.ino, name⟩ else t.entry q j :=
    fun q j => entry_link
  constructor
  · intro i m' hi
    rw [hget] at hi
    split_ifs at hi with hie
    · obtain rfl := Option.some.inj hi
      exact ⟨hie.symm, hie ▸ (h.ino n.ino m hm).2⟩
    · exact h.ino i m' hi
  · intro q j e' he'
    rw [hent] at he'
    split_ifs at he'
    · obtain rfl := Option.some.inj he'
      exact (h.ino n.ino m hm).2
    · exact h.known q j e' he'
  · intro q j e' he' hdots
    rw [hget]
    split_ifs with hie
    · exact Option.some_ne_none _
    · rw [hent] at he'
      split_ifs at he'
      · obtain rfl := Option.some.inj he'
        exact absurd rfl hie
      · exact h.live q j e' he' hdots
  · intro q j e' m' he' hdots hm'
    rw [hent] at he'
    split_ifs at he'
    · obtain rfl := Option.some.inj he'
      exact absurd hdots hfree.proper
    · rw [hget] at hm'
      split_ifs at hm' with hie
      · exact absurd (h.dots q j e' m he' hdots (hie ▸ hm)) hfile
      · exact h.dots q j e' m' he' hdots hm'
  · intro i m' hi hfile'
    have hsum : (t.link (key name) p name n.ino).links i = _ :=
      links_link hfree.dir hfree.entry i
    show m'.nlinks.toNat = (t.link (key name) p name n.ino).links i
    rw [hget] at hi
    split_ifs at hi with hie
    · obtain rfl := Option.some.inj hi
      rw [hsum, if_pos hie.symm, hlinks, hie, h.file n.ino m hm hfile]
    · rw [hsum, if_neg (Ne.symm hie)]
      exact h.file i m' hi hfile'
  · intro i m' hi hd
    rw [hget] at hi
    split_ifs at hi with hie
    · obtain rfl := Option.some.inj hi
      exact absurd hd hfile'
    · have hsum : (t.link (key name) p name n.ino).names i = _ :=
        names_link hfree.dir hfree.entry hfree.proper i
      show (t.link (key name) p name n.ino).names i ≤ 1
      rw [hsum, if_neg (Ne.symm hie)]
      exact h.dir i m' hi hd
  · intro q hq
    have hlist := h.list q (dirs_ne_none_of_insert hfree.dir hq)
    refine ⟨hlist.1, fun m' hm' => ?_⟩
    rw [hget] at hm'
    split_ifs at hm' with hie
    · exact absurd (hlist.2 m (hie ▸ hm)) hfile
    · exact hlist.2 m' hm'

/-- A new file with its name. -/
theorem Linked.create (h : t.Linked) (hmax : t.nextIno ≠ u64Max) (hfree : t.Free key p name)
    (hlinks : m.nlinks = 1) (hfile : ¬ m.isDir) :
    ((t.addInode m).link (key name) p name t.nextIno).Linked := by
  have hlt := lt_add_one_of_ne_u64Max hmax
  have hget : ∀ i : UInt64, ((t.addInode m).link (key name) p name t.nextIno).inodes[i]? =
      if i = t.nextIno then some { m with ino := t.nextIno } else t.inodes[i]? :=
    fun i => getElem?_insert_ite _ _ _ _
  have hent : ∀ q j, ((t.addInode m).link (key name) p name t.nextIno).entry q j =
      if q = p ∧ j = key name then some ⟨key name, t.nextIno, name⟩ else t.entry q j :=
    fun q j => entry_link
  constructor
  · intro i m' hi
    rw [hget] at hi
    split_ifs at hi with hie
    · obtain rfl := Option.some.inj hi
      refine ⟨hie.symm, ?_⟩
      rw [hie]
      exact hlt
    · exact ⟨(h.ino i m' hi).1, UInt64.lt_trans (h.ino i m' hi).2 hlt⟩
  · intro q j e' he'
    rw [hent] at he'
    split_ifs at he'
    · obtain rfl := Option.some.inj he'
      exact hlt
    · exact UInt64.lt_trans (h.known q j e' he') hlt
  · intro q j e' he' hdots
    rw [hget]
    split_ifs with hie
    · exact Option.some_ne_none _
    · rw [hent] at he'
      split_ifs at he'
      · obtain rfl := Option.some.inj he'
        exact absurd rfl hie
      · exact h.live q j e' he' hdots
  · intro q j e' m' he' hdots hm'
    rw [hent] at he'
    split_ifs at he'
    · obtain rfl := Option.some.inj he'
      exact absurd hdots hfree.proper
    · have hne : e'.ino ≠ t.nextIno := fun he => UInt64.lt_irrefl _ (he ▸ h.known q j e' he')
      rw [hget, if_neg hne] at hm'
      exact h.dots q j e' m' he' hdots hm'
  · intro i m' hi hfile'
    have hsum : ((t.addInode m).link (key name) p name t.nextIno).links i = _ :=
      links_link (t := t.addInode m) hfree.dir hfree.entry i
    rw [hget] at hi
    split_ifs at hi with hie
    · obtain rfl := Option.some.inj hi
      have hzero : (t.addInode m).links i = 0 := h.fresh _ fun e he => he.trans hie
      rw [hsum, if_pos hie.symm, hzero]
      show m.nlinks.toNat = 1
      rw [hlinks]
      rfl
    · rw [hsum, if_neg (Ne.symm hie)]
      exact h.file i m' hi hfile'
  · intro i m' hi hd
    rw [hget] at hi
    split_ifs at hi with hie
    · obtain rfl := Option.some.inj hi
      exact absurd hd hfile
    · have hsum : ((t.addInode m).link (key name) p name t.nextIno).names i = _ :=
        names_link (t := t.addInode m) hfree.dir hfree.entry hfree.proper i
      rw [hsum, if_neg (Ne.symm hie)]
      exact h.dir i m' hi hd
  · intro q hq
    have hlist := h.list q (dirs_ne_none_of_insert hfree.dir hq)
    refine ⟨UInt64.lt_trans hlist.1 hlt, fun m' hm' => ?_⟩
    have hne : q ≠ t.nextIno := fun he => UInt64.lt_irrefl _ (he ▸ hlist.1)
    rw [hget, if_neg hne] at hm'
    exact hlist.2 m' hm'

/-- A name is moved to a free one. -/
theorem Linked.move (h : t.Linked) (hfree : t.Free key q name) (he : t.entry p k = some e)
    (hdots : ¬ e.name.IsDots) (hne : ¬ (p = q ∧ k = key name)) :
    ((t.link (key name) q name e.ino).unlink k p).Linked := by
  have he' : (t.link (key name) q name e.ino).entry p k = some e := by
    rw [entry_link, if_neg hne, he]
  have hlinks : ∀ i, ((t.link (key name) q name e.ino).unlink k p).links i = t.links i := by
    intro i
    have hadd : (t.link (key name) q name e.ino).links i = _ :=
      links_link hfree.dir hfree.entry i
    have hsub := links_unlink he' i
    omega
  have hnames : ∀ i, ((t.link (key name) q name e.ino).unlink k p).names i = t.names i := by
    intro i
    have hadd := names_link (i := e.ino) hfree.dir hfree.entry hfree.proper i
    have hsub := names_unlink he' hdots i
    omega
  have hent : ∀ a b e₁, ((t.link (key name) q name e.ino).unlink k p).entry a b = some e₁ →
      t.entry a b = some e₁ ∨ e₁ = ⟨key name, e.ino, name⟩ := by
    intro a b e₁ h₁
    have h₂ := entry_of_unlink h₁
    rw [entry_link] at h₂
    split_ifs at h₂
    · exact .inr (Option.some.inj h₂).symm
    · exact .inl h₂
  constructor
  · exact h.ino
  · intro a b e₁ h₁
    rcases hent a b e₁ h₁ with h₂ | rfl
    · exact h.known a b e₁ h₂
    · exact h.known p k e he
  · intro a b e₁ h₁ hd
    rcases hent a b e₁ h₁ with h₂ | rfl
    · exact h.live a b e₁ h₂ hd
    · exact h.live p k e he hdots
  · intro a b e₁ m' h₁ hd hm'
    rcases hent a b e₁ h₁ with h₂ | rfl
    · exact h.dots a b e₁ m' h₂ hd hm'
    · exact absurd hd hfree.proper
  · intro i m' hi hfile
    rw [hlinks]
    exact h.file i m' hi hfile
  · intro i m' hi hd
    rw [hnames]
    exact h.dir i m' hi hd
  · intro a ha
    have ha' := dirs_ne_none_of_insert (dirs_ne_none_of_entry he') ha
    exact h.list a (dirs_ne_none_of_insert hfree.dir ha')

/-- A name that is made and removed again. -/
theorem unlink_link_self (hdir : t.dirs[p]? ≠ none) (hfree : t.entry p k = none) :
    (t.link k p name i).unlink k p = t := by
  obtain ⟨es, hes⟩ := Option.ne_none_iff_exists'.mp hdir
  have hk : es[k]? = none := by
    rw [entry, hes] at hfree
    exact hfree
  have hdirs : t.dirs.insert p es = t.dirs := by
    apply Std.ExtTreeMap.ext_getElem?
    intro q
    rw [getElem?_insert_ite]
    split_ifs with hq
    · rw [hq, hes]
    · rfl
  simp only [link, unlink, hes, Option.getD_some, getElem?_insert_ite, if_true, insert_insert,
    erase_insert_self, erase_of_getElem?_eq_none _ hk, hdirs]

theorem count_insertDir (h : t.Linked) (es : Entries) (m : InodeMeta) (P : EntryRecord → Prop)
    [DecidablePred P] : (t.insertDir es m).count P = entryCount P es + t.count P := by
  have hnone : t.dirs[t.nextIno]? = none := by
    by_contra hne
    exact UInt64.lt_irrefl _ (h.list t.nextIno hne).1
  exact total_insert_new _ hnone es

theorem Linked.insertDir (h : t.Linked) (hmax : t.nextIno ≠ u64Max) {pm : InodeMeta}
    (hp : t.inodes[p]? = some pm) (hpdir : pm.isDir) (hdir : m.isDir) :
    (t.insertDir (newDir key t.nextIno p) m).Linked := by
  have hlt := lt_add_one_of_ne_u64Max hmax
  have hget : ∀ i : UInt64, (t.insertDir (newDir key t.nextIno p) m).inodes[i]? =
      if i = t.nextIno then some { m with ino := t.nextIno } else t.inodes[i]? :=
    fun i => getElem?_insert_ite _ _ _ _
  have hent : ∀ q j e', (t.insertDir (newDir key t.nextIno p) m).entry q j = some e' →
      t.entry q j = some e' ∨ e'.name.IsDots ∧ (e'.ino = t.nextIno ∨ e'.ino = p) := by
    intro q j e' he'
    unfold entry Tree.insertDir at he'
    rw [getElem?_insert_ite] at he'
    split_ifs at he'
    · exact .inr (getElem?_newDir he')
    · exact .inl he'
  constructor
  · intro i m' hi
    rw [hget] at hi
    split_ifs at hi with hie
    · obtain rfl := Option.some.inj hi
      refine ⟨hie.symm, ?_⟩
      rw [hie]
      exact hlt
    · exact ⟨(h.ino i m' hi).1, UInt64.lt_trans (h.ino i m' hi).2 hlt⟩
  · intro q j e' he'
    rcases hent q j e' he' with he | ⟨-, hi | hi⟩
    · exact UInt64.lt_trans (h.known q j e' he) hlt
    · rw [hi]
      exact hlt
    · rw [hi]
      exact UInt64.lt_trans (h.ino p pm hp).2 hlt
  · intro q j e' he' hdots
    rw [hget]
    split_ifs
    · exact Option.some_ne_none _
    · rcases hent q j e' he' with he | ⟨hd, -⟩
      · exact h.live q j e' he hdots
      · exact absurd hd hdots
  · intro q j e' m' he' hdots hm'
    rw [hget] at hm'
    split_ifs at hm' with hie
    · obtain rfl := Option.some.inj hm'
      exact hdir
    · rcases hent q j e' he' with he | ⟨-, hi | hi⟩
      · exact h.dots q j e' m' he hdots hm'
      · exact absurd hi hie
      · rw [hi, hp] at hm'
        obtain rfl := Option.some.inj hm'
        exact hpdir
  · intro i m' hi hfile
    rw [hget] at hi
    split_ifs at hi with hie
    · obtain rfl := Option.some.inj hi
      exact absurd hdir hfile
    · have hzero : entryCount (fun e => e.ino = i) (newDir key t.nextIno p) = 0 := by
        refine entryCount_eq_zero fun j e' he' hei => ?_
        rcases (getElem?_newDir he').2 with hn | hn
        · exact hie (hei.symm.trans hn)
        · rw [← hei, hn, hp] at hi
          obtain rfl := Option.some.inj hi
          exact hfile hpdir
      rw [links, count_insertDir h, hzero, Nat.zero_add]
      exact h.file i m' hi hfile
  · intro i m' hi hd
    have hzero : entryCount (fun e => e.ino = i ∧ ¬ e.name.IsDots) (newDir key t.nextIno p) = 0 :=
      entryCount_eq_zero fun j e' he' hei => hei.2 (getElem?_newDir he').1
    rw [names, count_insertDir h, hzero, Nat.zero_add]
    rw [hget] at hi
    split_ifs at hi with hie
    · rw [h.fresh _ fun e he => he.1.trans hie]
      exact Nat.zero_le _
    · exact h.dir i m' hi hd
  · intro q hq
    unfold Tree.insertDir at hq
    rw [getElem?_insert_ite] at hq
    split_ifs at hq with hqi
    · refine ⟨by rw [hqi]; exact hlt, fun m' hm' => ?_⟩
      rw [hget, if_pos hqi] at hm'
      obtain rfl := Option.some.inj hm'
      exact hdir
    · refine ⟨UInt64.lt_trans (h.list q hq).1 hlt, fun m' hm' => ?_⟩
      rw [hget, if_neg hqi] at hm'
      exact (h.list q hq).2 m' hm'

/-- A directory without a name gets one. -/
theorem Linked.linkDir (h : t.Linked) (hfree : t.Free key p name) (hm : t.inodes[i]? = some m)
    (hdir : m.isDir) (hnone : t.names i = 0) : (t.link (key name) p name i).Linked := by
  have hent : ∀ q j e', (t.link (key name) p name i).entry q j = some e' →
      t.entry q j = some e' ∨ e' = ⟨key name, i, name⟩ := by
    intro q j e' he'
    rw [entry_link] at he'
    split_ifs at he'
    · exact .inr (Option.some.inj he').symm
    · exact .inl he'
  constructor
  · exact h.ino
  · intro q j e' he'
    rcases hent q j e' he' with he | rfl
    · exact h.known q j e' he
    · exact (h.ino i m hm).2
  · intro q j e' he' hdots
    rcases hent q j e' he' with he | rfl
    · exact h.live q j e' he hdots
    · show t.inodes[i]? ≠ none
      rw [hm]
      exact Option.some_ne_none _
  · intro q j e' m' he' hdots hm'
    rcases hent q j e' he' with he | rfl
    · exact h.dots q j e' m' he hdots hm'
    · exact absurd hdots hfree.proper
  · intro i' m' hi' hfile
    rw [links_link hfree.dir hfree.entry, if_neg, Nat.add_zero]
    · exact h.file i' m' hi' hfile
    · rintro rfl
      have hi' : t.inodes[i]? = some m' := hi'
      rw [hm] at hi'
      obtain rfl := Option.some.inj hi'
      exact hfile hdir
  · intro i' m' hi' hd
    rw [names_link hfree.dir hfree.entry hfree.proper]
    split_ifs with heq
    · rw [← heq, hnone]
    · exact h.dir i' m' hi' hd
  · intro q hq
    exact h.list q (dirs_ne_none_of_insert hfree.dir hq)

theorem Linked.mkdir (h : t.Linked) (hmax : t.nextIno ≠ u64Max) {pm : InodeMeta}
    (hp : t.inodes[p]? = some pm) (hpdir : pm.isDir) (hfree : t.Free key p name) (hdir : m.isDir) :
    (t.addDirectory (newDir key t.nextIno p) (key name) p name m).Linked := by
  have hne : p ≠ t.nextIno := fun he => UInt64.lt_irrefl _ (he ▸ (h.ino p pm hp).2)
  have h₁ : (t.insertDir (newDir key t.nextIno p) m).Linked := h.insertDir hmax hp hpdir hdir
  have hdirs : (t.insertDir (newDir key t.nextIno p) m).dirs[p]? = t.dirs[p]? := by
    unfold Tree.insertDir
    rw [getElem?_insert_ite, if_neg hne]
  have hfree₁ : (t.insertDir (newDir key t.nextIno p) m).Free key p name := by
    refine ⟨hfree.proper, by rw [hdirs]; exact hfree.dir, ?_⟩
    rw [entry, hdirs]
    exact hfree.entry
  have hnew : (t.insertDir (newDir key t.nextIno p) m).inodes[t.nextIno]? =
      some { m with ino := t.nextIno } := by simp [Tree.insertDir, addInode]
  have hnone : (t.insertDir (newDir key t.nextIno p) m).names t.nextIno = 0 := by
    have hzero : entryCount (fun e => e.ino = t.nextIno ∧ ¬ e.name.IsDots)
        (newDir key t.nextIno p) = 0 :=
      entryCount_eq_zero fun j e' he' hei => hei.2 (getElem?_newDir he').1
    rw [names, count_insertDir h, hzero, h.fresh _ fun e he => he.1]
  have h₂ := h₁.linkDir hfree₁ hnew hdir hnone
  have hp₂ : ((t.insertDir (newDir key t.nextIno p) m).link (key name) p name
      t.nextIno).inodes[p]? = some pm := by
    show (t.inodes.insert t.nextIno _)[p]? = _
    rw [getElem?_insert_ite, if_neg hne, hp]
  have hino := (h.ino p pm hp).1
  unfold Tree.addDirectory
  rw [modifyInode_put hp₂ hino]
  exact h₂.put (m := pm) (by rw [← hino] at hp₂; exact hp₂)
    (fun hfile => absurd hpdir hfile) Iff.rfl

/-- A directory that holds no files is removed with its name. -/
theorem Linked.rmdir (h : t.Linked) (he : t.entry p k = some e) (hdots : ¬ e.name.IsDots)
    (hm : t.inodes[e.ino]? = some m) (hdir : m.isDir) :
    (((t.unlink k p).removeInode e.ino).dropBacklink p).Linked := by
  have h₁ := h.unlinkDir he hdots hm hdir
  have hzero : (t.unlink k p).names e.ino = 0 := by
    have hsum := names_unlink he hdots e.ino
    have hle := h.dir e.ino m hm hdir
    rw [if_pos rfl] at hsum
    omega
  have hget : ∀ i : UInt64, ((t.unlink k p).removeInode e.ino).inodes[i]? =
      if i = e.ino then none else t.inodes[i]? := fun i => getElem?_erase_ite _ _ _
  have h₂ : ((t.unlink k p).removeInode e.ino).Linked := by
    constructor
    · intro i m' hi
      rw [hget] at hi
      split_ifs at hi
      exact h₁.ino i m' hi
    · exact h₁.known
    · intro q j e' he' hd
      have hother : e'.ino ≠ e.ino := by
        intro heq
        have hpos : 0 < (t.unlink k p).names e.ino := count_pos (t := t.unlink k p) he' ⟨heq, hd⟩
        omega
      rw [hget, if_neg hother]
      exact h₁.live q j e' he' hd
    · intro q j e' m' he' hd hm'
      rw [hget] at hm'
      split_ifs at hm'
      exact h₁.dots q j e' m' he' hd hm'
    · intro i m' hi hfile
      rw [hget] at hi
      split_ifs at hi
      exact h₁.file i m' hi hfile
    · intro i m' hi hd
      rw [hget] at hi
      split_ifs at hi
      exact h₁.dir i m' hi hd
    · intro q hq
      refine ⟨(h₁.list q hq).1, fun m' hm' => ?_⟩
      rw [hget] at hm'
      split_ifs at hm'
      exact (h₁.list q hq).2 m' hm'
  unfold Tree.dropBacklink
  cases hp : ((t.unlink k p).removeInode e.ino).inodes[p]? with
  | none =>
      rw [modifyInode, hp]
      exact h₂
  | some pm =>
      have hpdir := (h₂.list p (by simp [removeInode, unlink])).2 pm hp
      have hdrop : pm.dropLink.ino = pm.ino ∧ (pm.dropLink.isDir ↔ pm.isDir) := by
        unfold InodeMeta.dropLink
        split_ifs
        · exact ⟨rfl, Iff.rfl⟩
        · exact ⟨rfl, Iff.rfl⟩
      have hino := (h₂.ino p pm hp).1
      rw [modifyInode_put hp (hdrop.1.trans hino)]
      exact h₂.put (m := pm) (by rw [hdrop.1, hino, hp]) (fun hfile => absurd hpdir hfile) hdrop.2

/-- Every step keeps the counts of links right. -/
theorem Linked.step (h : t.Linked) {op : FsOp} (hstep : t.Step key op t') : t'.Linked := by
  cases hstep with
  | skip => exact h
  | burn hmax => exact h.burn hmax
  | create _ hmax hlinks hfile hfree => exact h.create hmax hfree hlinks hfile
  | mkdir hmax hp hpdir _ hfree _ hdir => exact h.mkdir hmax hp hpdir hfree hdir
  | @link _ i p name now m hm hfile hn hfree =>
      have hino := (h.ino i m hm).1
      have hlinks : (m.nlinks + 1).toNat = m.nlinks.toNat + 1 := by
        rw [UInt32.toNat_add]
        exact Nat.mod_eq_of_lt hn
      have hlinked := h.addLink (n := ({ m with nlinks := m.nlinks + 1 } : InodeMeta).setCtime now)
        hfree (m := m) (by rw [← hino] at hm; exact hm) hfile rfl hlinks
      have hsame : (({ m with nlinks := m.nlinks + 1 } : InodeMeta).setCtime now).ino = i := hino
      rw [hsame] at hlinked
      exact hlinked
  | unlink hdots hname hm _ =>
      obtain ⟨e, he, rfl, rfl⟩ := hname
      exact h.displace he hdots hm
  | rmdir hdots hname hm hdir _ _ =>
      obtain ⟨e, he, rfl, rfl⟩ := hname
      exact h.rmdir he hdots hm hdir
  | @rename _ t₁ p q i name newName flags now _ _ hdots hname hclear hfree =>
      obtain ⟨e, he, rfl, rfl⟩ := hname
      have h₁ : t₁.Linked := by
        cases hclear with
        | none => exact h
        | some hname' hm' =>
            obtain ⟨e', he', rfl, rfl⟩ := hname'
            exact h.displace he' hfree.proper hm'
      refine Linked.touch ?_ _ _
      by_cases hsame : p = q ∧ key e.name = key newName
      · rw [hsame.1, hsame.2, unlink_link_self hfree.dir hfree.entry]
        exact h₁
      · have he₁ : t₁.entry p (key e.name) = some e := by
          cases hclear with
          | none => exact he
          | some => rw [entry_displace, entry_unlink, if_neg hsame, he]
        exact h₁.move hfree he₁ hdots hsame

end Tree

theorem Tree.linked_initial (key : Str → Digest224) {m : InodeMeta} (hino : m.ino = 1)
    (hdir : m.isDir) : (Tree.initial key m).Linked := by
  have hget : ∀ (i : UInt64) (m' : InodeMeta), (Tree.initial key m).inodes[i]? = some m' →
      i = 1 ∧ m' = m := by
    intro i m' hi
    rw [Tree.initial, getElem?_insert_ite] at hi
    split_ifs at hi with h1
    · exact ⟨h1, (Option.some.inj hi).symm⟩
    · simp at hi
  have hent : ∀ (p : UInt64) (k : Digest224) (e : EntryRecord),
      (Tree.initial key m).entry p k = some e → e.name.IsDots ∧ e.ino = 1 := by
    intro p k e he
    obtain ⟨es, hes, hk⟩ := Option.bind_eq_some_iff.mp he
    rw [Tree.initial, getElem?_insert_ite] at hes
    split_ifs at hes
    · obtain rfl := Option.some.inj hes
      obtain ⟨hdots, h1 | h1⟩ := Tree.getElem?_newDir hk
      · exact ⟨hdots, h1⟩
      · exact ⟨hdots, h1⟩
    · simp at hes
  constructor
  · intro i m' hi
    obtain ⟨rfl, rfl⟩ := hget i m' hi
    exact ⟨hino, (by decide : (1 : UInt64) < 2)⟩
  · intro p k e he
    rw [(hent p k e he).2]
    exact (by decide : (1 : UInt64) < 2)
  · intro p k e he hdots
    exact absurd (hent p k e he).1 hdots
  · intro p k e m' he _ hm'
    obtain ⟨-, rfl⟩ := hget _ m' hm'
    exact hdir
  · intro i m' hi hfile
    obtain ⟨-, rfl⟩ := hget i m' hi
    exact absurd hdir hfile
  · intro i m' hi hd
    rw [Tree.names, Tree.count_eq_zero fun p k e he hP => hP.2 (hent p k e he).1]
    exact Nat.zero_le _
  · intro p hp
    rw [Tree.initial, getElem?_insert_ite] at hp
    split_ifs at hp with h1
    · refine ⟨by rw [h1]; exact (by decide : (1 : UInt64) < 2), fun m' hm' => ?_⟩
      obtain ⟨-, rfl⟩ := hget _ m' hm'
      exact hdir
    · simp at hp

theorem isDir_rootInode (uid gid : UInt32) : (rootInode uid gid).isDir := by
  show (S_IFDIR ||| 0o755) &&& S_IFDIR ≠ 0
  decide

section
variable {B : Blockset} {L : B.Laws} {s : Fs B} {t : Tree}

/-- The entries that name an inode, over all stored entry lists. -/
def Fs.links (s : Fs B) (i : UInt64) : ℕ :=
  (s.store.maps.dirData.keys.map fun p => (s.entries p).countP fun e => e.ino = i).sum

theorem Blockset.Laws.Shows.links (h : L.Shows s t) (hc : L.NoCollision s.store.io) (i : UInt64) :
    s.links i = t.links i := by
  unfold Fs.links Tree.links Tree.count
  rw [sum_keys (fun p => (s.entries p).countP fun e => e.ino = i) _ h.listing.digests]
  refine total_congr fun p es hes => ?_
  rw [h.entries hc, hes, Option.getD_some, List.countP_map, entryCount_eq]
  rfl

/-- After any requests on names, from a new store, the links that a file counts are the
entries that name it, and every entry names a live inode. -/
theorem links_agree (L : B.Laws) (hB : B.NoIoErrors) {uid gid : UInt32} {io io' : B.Io}
    {st : Store B} (hnew : Store.new B uid gid io = (.ok st, io')) {auto : Bool}
    (hrun : Runs (fun s op => op.OnNames ∧ op.Proper ∧ s.Roomy) (Fs.mount st auto) s)
    (hc : L.NoCollision s.store.io) :
    (∀ (i : UInt64) (m : InodeMeta), s.inode i = some m → ¬ m.isDir →
      m.nlinks.toNat = s.links i) ∧
    ∀ (p : UInt64) (e : DirEntry), e ∈ s.entries p → ¬ e.name.IsDots →
      (s.inode e.ino).isSome = true := by
  have hB := hB.reliable L
  obtain ⟨t, ht, hl⟩ := Runs.tree hB (fun _ _ h => h) (shows_new (L := L) hB hnew auto)
    (I := Tree.Linked) (Tree.linked_initial L.key rfl (isDir_rootInode uid gid))
    (fun _ _ _ _ _ _ _ hI hstep => hI.step hstep) hrun hc
  constructor
  · intro i m hm hfile
    rw [ht.inode hc] at hm
    rw [ht.links hc]
    exact hl.file i m hm hfile
  · intro p e he hdots
    obtain ⟨k, r, hentry, rfl⟩ := (ht.mem_entries hc).mp he
    rw [ht.inode hc]
    exact Option.isSome_iff_ne_none.mpr (hl.live p k r hentry hdots)

end

/-- The file has a second name `b`. -/
def twoNamesFs : Fs memoryBlockset :=
  ((FsOp.link 2 1 nameB midnight).run fileFs).get (by decide +kernel)

theorem runs_twoNamesFs : Runs (fun s op => op.OnNames ∧ op.Proper ∧ s.Roomy)
    (Fs.mount freshStore false) twoNamesFs := by
  have h₁ : (FsOp.create 1 nameA 0o644 0 0 0).OnNames ∧
      (FsOp.create 1 nameA 0o644 0 0 0).Proper ∧ freshFs.Roomy :=
    ⟨trivial, by decide, by decide +kernel⟩
  have h₂ : (FsOp.link 2 1 nameB midnight).OnNames ∧ (FsOp.link 2 1 nameB midnight).Proper ∧
      fileFs.Roomy := ⟨trivial, by decide, by decide +kernel⟩
  exact .step (.step (.refl _) h₁ (Option.some_get _).symm) h₂ (Option.some_get _).symm

theorem links_agree_twoNames :
    ∃ m, twoNamesFs.inode 2 = some m ∧ m.nlinks.toNat = twoNamesFs.links 2 := by
  have hnew : Store.new memoryBlockset 0 0 MemoryIo.empty = (.ok freshStore, _) :=
    Prog.eq_ok_of_isSome (by decide +kernel)
  have hfile : ∃ m, twoNamesFs.inode 2 = some m ∧ ¬ m.isDir :=
    ⟨(twoNamesFs.inode 2).get (by decide +kernel), (Option.some_get _).symm, by decide +kernel⟩
  obtain ⟨m, hm, hnot⟩ := hfile
  exact ⟨m, hm, (links_agree memoryLaws memoryBlockset_noIoErrors hnew runs_twoNamesFs
    (memoryLaws_noCollision (by decide +kernel))).1 2 m hm hnot⟩

end SliceFs
