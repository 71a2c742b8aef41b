import SliceFs.Mount

/-!
# The write path

One handle on a file, through any sequence of writes, truncations, flushes and reads:
what it holds is the content that the same writes and truncations make of a plain byte
array, whichever mix of stream and buffer they lead to.
-/
namespace SliceFs
open TreeMaps ProgramLogic ByteFile

/-- The calls on one open file. -/
inductive HandleOp where
  | write (offset : UInt64) (data : Bytes)
  | truncate (size : UInt64) (now : Now)
  | flush (now : Now)
  | fsync (now : Now)
  | read (order : List UInt64) (offset : UInt64) (size : UInt32)

namespace HandleOp

/-- The content a call makes of a content. -/
def apply : HandleOp → Bytes → Bytes
  | write offset data, b => pwrite 0 b offset.toNat data
  | truncate size _, b => resize 0 size.toNat b
  | _, b => b

/-- Writes of something, within the largest file. -/
def InRange : HandleOp → Prop
  | write offset data => data ≠ [] ∧ offset.toNat + data.length ≤ isizeMax
  | truncate size _ => size.toNat ≤ isizeMax
  | _ => True

instance (op : HandleOp) : Decidable op.InRange :=
  match op with
  | write _ _ => inferInstanceAs (Decidable (_ ∧ _))
  | truncate _ _ => inferInstanceAs (Decidable (_ ≤ _))
  | flush _ => .isTrue trivial
  | fsync _ => .isTrue trivial
  | read _ _ _ => .isTrue trivial

/-- A truncation to nothing. -/
def Erases : HandleOp → Prop
  | truncate size _ => size = 0
  | _ => False

instance (op : HandleOp) : Decidable op.Erases :=
  match op with
  | truncate _ _ => inferInstanceAs (Decidable (_ = _))
  | write _ _ => .isFalse id
  | flush _ => .isFalse id
  | fsync _ => .isFalse id
  | read _ _ _ => .isFalse id

/-- The calls that record the size. -/
def Sizes : HandleOp → Prop
  | truncate _ _ => True
  | flush _ => True
  | fsync _ => True
  | _ => False

variable {B : Blockset}

/-- The state after a call on handle `fh` of inode `i`. -/
def next (i fh : UInt64) : HandleOp → Fs B → Fs B
  | write offset data, s => (testWrite fh offset data s).2
  | truncate size now, s => (testSetattrSize i (some fh) size now s).2
  | flush now, s => (testFlush i fh now s).2
  | fsync now, s => (testFsync i fh now s).2
  | read order offset size, s => (testRead order i offset size s).2

end HandleOp

def runHandle {B : Blockset} (i fh : UInt64) (ops : List HandleOp) (s : Fs B) : Fs B :=
  ops.foldl (fun s op => op.next i fh s) s

/-- The content that calls make of a content. -/
def reference (ops : List HandleOp) (b : Bytes) : Bytes := ops.foldl (fun b op => op.apply b) b

section
variable {digest : Bytes → Digest224} {f : Files} {fh i : UInt64} {h : Handle} {m : InodeMeta}

theorem Contents.content_record (c : Contents) (i : UInt64) (old : Option Digest224) (b : Bytes) :
    (c.record digest i old b).content i = some b := by
  simp [Contents.record, Contents.content]

/-- `h` is the only handle on an inode; what is committed of it agrees with the handle as
far as the handle says. -/
structure Files.Writing (digest : Bytes → Digest224) (f : Files) (fh : UInt64) (h : Handle)
    (m : InodeMeta) : Prop where
  handle : f.handles[fh]? = some h
  only : ∀ (j : UInt64) (h' : Handle), f.handles[j]? = some h' → h'.ino = h.ino → j = fh
  inode : f.core.inodes[h.ino]? = some m
  fresh : h.content = [] → f.core.content h.ino = none ∧ m.size = 0
  committed : h.committed = true → h.last = some (digest h.content) ∧
    f.core.content h.ino = some h.content ∧ m.size = UInt64.ofNat h.content.length

/-- The handle of an inode is replaced, its inode stays the same. -/
theorem Files.Writing.only_put (hw : f.Writing digest fh h m) {h' : Handle}
    (hino : h'.ino = h.ino) :
    ∀ (j : UInt64) (k : Handle), (f.handles.insert fh h')[j]? = some k → k.ino = h'.ino →
      j = fh := by
  intro j k hj hk
  rw [getElem?_insert_ite] at hj
  split_ifs at hj with hjf
  · exact hjf
  · exact hw.only j k hj (hk.trans hino)

theorem pwrite_ne_nil {b data : Bytes} {offset : ℕ} (h : data ≠ []) :
    pwrite 0 b offset data ≠ [] := by
  intro hnil
  have hlen := congrArg List.length hnil
  rw [length_pwrite, List.length_nil] at hlen
  exact h (List.eq_nil_of_length_eq_zero (by omega))

theorem Files.Writing.content_write (hw : f.Writing digest fh h m) (offset : ℕ) (data : Bytes) :
    (h.write (f.core.content h.ino) offset data).content = pwrite 0 h.content offset data := by
  unfold Handle.write
  split_ifs with hfall
  · show pwrite 0 (h.base (f.core.content h.ino)) offset data = _
    unfold Handle.base
    split_ifs with hnil
    · rw [(hw.fresh hnil).1, hnil]
      rfl
    · rfl
  · rfl

theorem Handle.ino_write (h : Handle) (c : Option Bytes) (offset : ℕ) (data : Bytes) :
    (h.write c offset data).ino = h.ino := by
  unfold Handle.write
  split_ifs <;> rfl

theorem Handle.committed_write (h : Handle) (c : Option Bytes) (offset : ℕ) (data : Bytes) :
    (h.write c offset data).committed = false := by
  unfold Handle.write
  split_ifs <;> rfl

theorem Files.Writing.write (hw : f.Writing digest fh h m) (offset : ℕ) {data : Bytes}
    (hdata : data ≠ []) :
    (f.write fh h offset data).Writing digest fh
      (h.write (f.core.content h.ino) offset data) m where
  handle := by simp [Files.write]
  only := hw.only_put (h.ino_write _ _ _)
  inode := by
    rw [h.ino_write, ← hw.inode]
    unfold Files.write
    split_ifs <;> rfl
  fresh hnil := by
    rw [hw.content_write] at hnil
    exact absurd hnil (pwrite_ne_nil hdata)
  committed hc := by
    rw [h.committed_write] at hc
    cases hc

theorem resize_ne_nil {b : Bytes} {n : UInt64} (hn : n ≠ 0) : resize 0 n.toNat b ≠ [] := by
  intro hnil
  have hlen := congrArg List.length hnil
  rw [length_resize, List.length_nil] at hlen
  exact hn (UInt64.toNat_inj.mp hlen)

theorem Files.Writing.truncate (hw : f.Writing digest fh h m) {n : UInt64} (hn : n ≠ 0)
    (now : Now) :
    (f.truncate fh h n now).Writing digest fh (h.truncate n)
      (({ m with size := n } : InodeMeta).setCtime now) where
  handle := by simp [Files.truncate]
  only := hw.only_put rfl
  inode := by
    refine Contents.modifyInode_self (m := m) ?_ _
    rw [← hw.inode]
    split_ifs <;> rfl
  fresh hnil := absurd hnil (resize_ne_nil hn)
  committed hc := by cases hc

/-- The handle after a flush of its content. -/
def Handle.flushed (digest : Bytes → Digest224) (h : Handle) : Handle :=
  if h.content = [] then h else { h with committed := true, last := some (digest h.content) }

def InodeMeta.flushed (m : InodeMeta) (b : Bytes) (now : Now) : InodeMeta :=
  if b = [] then m else m.setWritten (UInt64.ofNat b.length) now

theorem Files.Writing.flush (hw : f.Writing digest fh h m) (now : Now) :
    (f.flush digest fh h now).Writing digest fh (h.flushed digest) (m.flushed h.content now) := by
  unfold Files.flush Handle.flushed InodeMeta.flushed
  split_ifs with hnil
  · exact hw
  · exact
      { only := hw.only_put rfl
        handle := by simp
        inode := Contents.modifyInode_self (c := f.core.record digest h.ino h.last h.content)
          (m := m) hw.inode _
        fresh := fun h => absurd h hnil
        committed := fun _ => ⟨rfl, by
          rw [Contents.content_modifyInode]
          exact Contents.content_record _ _ _ _, rfl⟩ }

/-- A read finds the only handle on an inode, if it holds something. -/
theorem Files.Writing.findWriter (hw : f.Writing digest fh h m) (hne : h.content ≠ [])
    {order : List UInt64} (hmem : fh ∈ order) : f.findWriter order h.ino = some h := by
  have hsome : (f.findWriter order h.ino).isSome = true :=
    List.find?_isSome.mpr ⟨h, List.mem_filterMap.mpr ⟨fh, hmem, hw.handle⟩, by simpa using hne⟩
  obtain ⟨k, hk⟩ := Option.isSome_iff_exists.mp hsome
  obtain ⟨j, -, hj⟩ := List.mem_filterMap.mp (List.mem_of_find?_eq_some hk)
  have hp : k.ino = h.ino ∧ k.content ≠ [] := by simpa using List.find?_some hk
  obtain rfl := hw.only j k hj hp.1
  rw [hk, ← hj, hw.handle]

/-- What a release leaves behind. -/
theorem Files.Writing.release (hw : f.Writing digest fh h m) (now : Now) :
    f.releaseResult digest h = .ok () ∧
    (∃ m', (f.release digest fh h now).core.inodes[h.ino]? = some m' ∧
      m'.size = UInt64.ofNat h.content.length) ∧
    ((f.release digest fh h now).core.manifests[h.ino]?).map (fun b => b.getD []) =
      some h.content := by
  unfold Files.releaseResult Files.release Files.releasedCore
  by_cases hnil : h.content = []
  · obtain ⟨hcontent, hsize⟩ := hw.fresh hnil
    have hcom : ¬ (h.committed = true ∨ f.core.content h.ino ≠ none) := by
      rintro (hc | hc)
      · rw [(hw.committed hc).2.1] at hcontent
        cases hcontent
      · exact hc hcontent
    rw [if_pos (.inl hnil), if_pos hnil, if_neg hcom, hnil]
    refine ⟨rfl, ⟨m, hw.inode, hsize⟩, ?_⟩
    simp [Contents.setContent]
  · by_cases hsame : h.last = some (digest h.content) ∧ h.committed = true
    · rw [if_pos (.inr hsame), if_neg hnil, if_pos hsame]
      obtain ⟨-, hcontent, hsize⟩ := hw.committed hsame.2
      refine ⟨rfl, ⟨m, hw.inode, hsize⟩, ?_⟩
      rw [Option.join_eq_some_iff.mp hcontent]
      rfl
    · rw [if_neg (by simp only [hnil, hsame, or_self, not_false_eq_true]), if_neg hnil,
        if_neg hsame]
      refine ⟨by simp [Files.commitResult, hw.inode], ⟨_, Contents.modifyInode_self
        (c := f.core.record digest h.ino h.last h.content) (m := m) hw.inode _, rfl⟩, ?_⟩
      rw [Contents.manifests_modifyInode]
      simp [Contents.record]

end

section
variable {B : Blockset} {L : B.Laws} {s : Fs B} {f : Files} {fh : UInt64} {h : Handle}
  {m : InodeMeta}

/-- The committed content of an inode; an empty manifest is an empty content. -/
def Fs.committed (s : Fs B) (i : UInt64) : Option Bytes := (readManifest i s).1.toOption

theorem Blockset.Laws.Views.committed (hv : L.Views s f) (hc : L.NoCollision s.store.io)
    (i : UInt64) : s.committed i = (f.core.manifests[i]?).map fun b => b.getD [] := by
  rw [Fs.committed, readManifest_eq hv hc]
  cases f.core.manifests[i]? <;> rfl

theorem HandleOp.le_next (L : B.Laws) (i fh : UInt64) (op : HandleOp) (s : Fs B) :
    L.le s.store.io (op.next i fh s).store.io := by
  cases op with
  | write offset data => exact ((growing_testWrite (g := L.growthQuiet) fh offset data).le_run s).1
  | truncate size now =>
      exact ((growing_testSetattrSize (g := L.growthQuiet) i (some fh) size now).le_run s).1
  | flush now => exact ((growing_testFlush (g := L.growthQuiet) i fh now).le_run s).1
  | fsync now => exact ((growing_testFsync (g := L.growthQuiet) i fh now).le_run s).1
  | read order offset size =>
      exact ((growing_testRead (g := L.growthQuiet) order i offset size).le_run s).1

theorem le_runHandle (L : B.Laws) (i fh : UInt64) (ops : List HandleOp) (s : Fs B) :
    L.le s.store.io (runHandle i fh ops s).store.io := by
  induction ops generalizing s with
  | nil => exact L.le_refl _
  | cons op ops ih => exact L.le_trans (op.le_next L i fh s) (ih _)

theorem Blockset.Laws.Views.length_le (hv : L.Views s f) (hfh : f.handles[fh]? = some h) :
    h.content.length ≤ isizeMax := by
  obtain ⟨o, -, ho⟩ := hv.getFile_some hfh
  exact ho.length_le

/-- `s` has one handle on the inode of `h`, and the inode's attributes are `m`. -/
def Blockset.Laws.Writing (L : B.Laws) (s : Fs B) (fh : UInt64) (h : Handle) (m : InodeMeta) :
    Prop :=
  ∃ f, L.Views s f ∧ f.Writing L.digest fh h m

theorem toNat_size_flushed (hv : L.Views s f) (hw : f.Writing L.digest fh h m) (now : Now) :
    (m.flushed h.content now).size.toNat = h.content.length := by
  unfold InodeMeta.flushed
  split_ifs with hnil
  · rw [(hw.fresh hnil).2, hnil]
    rfl
  · exact toNat_ofNat_length (hv.length_le hw.handle)

/-- One call through the only handle of an inode. -/
theorem HandleOp.writing_next (hB : L.Reliable) {op : HandleOp} (hop : op.InRange)
    (hne : ¬ op.Erases) (hw : L.Writing s fh h m)
    (hc : L.NoCollision (op.next h.ino fh s).store.io) :
    ∃ h' m', L.Writing (op.next h.ino fh s) fh h' m' ∧ h'.ino = h.ino ∧
      h'.content = op.apply h.content ∧ (op.Sizes → m'.size.toNat = h'.content.length) := by
  obtain ⟨f, hv, hw⟩ := hw
  cases op with
  | write offset data =>
      obtain ⟨-, hv'⟩ := wp_testWrite hB hv hw.handle hop.2 hc
      exact ⟨_, m, ⟨_, hv', hw.write offset.toNat hop.1⟩, h.ino_write _ _ _,
        hw.content_write offset.toNat data, False.elim⟩
  | truncate size now =>
      obtain ⟨-, hv'⟩ := wp_testSetattrSize_open hB hv hw.handle hop now hc
      refine ⟨_, _, ⟨_, hv', hw.truncate hne now⟩, rfl, rfl, fun _ => ?_⟩
      exact (length_resize 0 size.toNat h.content).symm
  | flush now =>
      obtain ⟨-, hv'⟩ := wp_flushBufferForFsync hB hv hw.handle now hc
      refine ⟨_, _, ⟨_, hv', hw.flush now⟩, ?_, ?_, fun _ => ?_⟩
      · unfold Handle.flushed
        split_ifs <;> rfl
      · unfold Handle.flushed
        split_ifs <;> rfl
      · rw [toNat_size_flushed hv hw]
        unfold Handle.flushed
        split_ifs <;> rfl
  | fsync now =>
      obtain ⟨-, hv'⟩ := wp_testFsync hB hv hw.handle now hc
      refine ⟨_, _, ⟨_, hv', hw.flush now⟩, ?_, ?_, fun _ => ?_⟩
      · unfold Handle.flushed
        split_ifs <;> rfl
      · unfold Handle.flushed
        split_ifs <;> rfl
      · rw [toNat_size_flushed hv hw]
        unfold Handle.flushed
        split_ifs <;> rfl
  | read order offset size =>
      obtain ⟨-, hv'⟩ := wp_testRead hB hv order h.ino offset size hc
      exact ⟨h, m, ⟨f, hv', hw⟩, rfl, rfl, False.elim⟩

/-- Any number of calls through the only handle of an inode. -/
theorem writing_runHandle (hB : L.Reliable) {ops : List HandleOp}
    (hops : ∀ op ∈ ops, op.InRange ∧ ¬ op.Erases) (hw : L.Writing s fh h m)
    (hc : L.NoCollision (runHandle h.ino fh ops s).store.io) :
    ∃ h' m', L.Writing (runHandle h.ino fh ops s) fh h' m' ∧ h'.ino = h.ino ∧
      h'.content = reference ops h.content ∧
      ∀ op, ops.getLast? = some op → op.Sizes → m'.size.toNat = h'.content.length := by
  -- the claim about the last call asks for an induction from the end
  induction ops using List.reverseRecOn with
  | nil => exact ⟨h, m, hw, rfl, rfl, nofun⟩
  | append_singleton ops op ih =>
      have hrun : runHandle h.ino fh (ops ++ [op]) s =
          op.next h.ino fh (runHandle h.ino fh ops s) :=
        List.foldl_concat ..
      rw [hrun] at hc ⊢
      obtain ⟨h₁, m₁, hw₁, hino, hcontent, -⟩ :=
        ih (fun o ho => hops o (List.mem_append_left _ ho)) (hc.of_le (op.le_next L h.ino fh _))
      obtain ⟨hop, hne⟩ := hops op (List.mem_append_right _ List.mem_cons_self)
      obtain ⟨h₂, m₂, hw₂, hino₂, hcontent₂, hsize⟩ :=
        HandleOp.writing_next hB hop hne hw₁ (by rw [hino]; exact hc)
      rw [hino] at hw₂
      refine ⟨h₂, m₂, hw₂, hino₂.trans hino, ?_, ?_⟩
      · rw [hcontent₂, hcontent, reference, reference, List.foldl_concat]
      · intro o ho hs
        obtain rfl : op = o := by simpa using ho
        exact hsize hs

/-- The bytes a read returns while the only handle holds some. -/
theorem testRead_writing (hB : L.Reliable) (hw : L.Writing s fh h m) (hne : h.content ≠ [])
    {order : List UInt64} (horder : order.Perm s.openFiles.keys) (offset : UInt64) (size : UInt32)
    (hc : L.NoCollision (testRead order h.ino offset size s).2.store.io) :
    (testRead order h.ino offset size s).1 =
      .ok ((h.content.drop offset.toNat).take size.toNat) := by
  obtain ⟨f, hv, hw⟩ := hw
  obtain ⟨hr, -⟩ := wp_testRead hB hv order h.ino offset size hc
  obtain ⟨o, hopen, -⟩ := hv.getFile_some hw.handle
  have hmem : fh ∈ order := by
    rw [horder.mem_iff, Std.ExtTreeMap.mem_keys]
    exact Std.ExtTreeMap.mem_iff_isSome_getElem?.mpr (by rw [hopen]; rfl)
  rw [hr, Files.readContent, hw.findWriter hne hmem]
  rfl

/-- A release commits what the only handle holds. -/
theorem testRelease_writing (hB : L.Reliable) (hw : L.Writing s fh h m) (now : Now)
    (hc : L.NoCollision (testRelease h.ino fh now s).2.store.io) :
    (testRelease h.ino fh now s).1 = .ok () ∧
    (∃ m', (testRelease h.ino fh now s).2.inode h.ino = some m' ∧
      m'.size.toNat = h.content.length) ∧
    (testRelease h.ino fh now s).2.committed h.ino = some h.content := by
  obtain ⟨f, hv, hw⟩ := hw
  obtain ⟨hr, hv'⟩ := wp_testRelease hB hv hw.handle now hc
  obtain ⟨hok, ⟨m', hm', hsize⟩, hcontent⟩ := hw.release now
  refine ⟨hr.trans hok, ⟨m', ?_, ?_⟩, ?_⟩
  · rw [hv'.inode hc, hm']
  · rw [hsize, toNat_ofNat_length (hv.length_le hw.handle)]
  · rw [hv'.committed hc, hcontent]

/-- A number that was not handed out has no content. -/
theorem Blockset.Laws.Holds.content_nextIno {st : Store B} {c : Contents} (hh : L.Holds st c) :
    c.content c.nextIno = none := by
  unfold Contents.content
  cases hb : c.manifests[c.nextIno]? with
  | none => rfl
  | some b => exact absurd (hh.manifest _ b hb).2 (UInt64.lt_irrefl _)

/-- The handle of a file that was just created is its only handle. -/
theorem writing_testCreate (hB : L.Reliable) (hv : L.Views s f) {p : UInt64} {name : Str}
    {mode umask uid gid : UInt32} {i : UInt64} {s' : Fs B}
    (hcreate : testCreate p name mode umask uid gid s = (.ok (i, fh), s'))
    (hc : L.NoCollision s'.store.io) : ∃ m, L.Writing s' fh (.new i) m := by
  have hwp := wp_testCreate hB hv p name mode umask uid gid
  unfold wp at hwp
  rw [hcreate] at hwp
  rcases hwp hc nofun with ⟨hok, hmax, -, hv'⟩ | ⟨⟨e, he⟩, -⟩
  · obtain ⟨rfl, rfl⟩ := Prod.mk.inj (Except.ok.inj hok)
    refine ⟨{ InodeMeta.newFile 0 uid gid (fileMode mode umask) with ino := f.core.nextIno }, _,
      hv', ?_⟩
    exact
      { handle := by simp [Files.insertHandle]
        inode := by simp [Files.insertHandle, Contents.addInode, Handle.new]
        fresh := fun _ => ⟨hv.core.content_nextIno, rfl⟩
        committed := nofun
        only := fun j h' hj hino => by
          simp only [Files.insertHandle, getElem?_insert_ite] at hj
          split_ifs at hj with hjf
          · exact hjf
          · exact absurd (hino ▸ (hv.known j h' hj).2) (UInt64.lt_irrefl _) }
  · cases he

theorem slice_min_add (b : Bytes) (offset size : ℕ) :
    slice b (min offset b.length) (min (offset + size) b.length) = (b.drop offset).take size := by
  rw [← slice_clamp]
  congr 1
  omega

/-- Through the handle of a new file, any writes, truncations to some size and flushes
act as on a plain byte array: while it holds something a read returns its bytes, after
each truncation and flush the inode has its length, and the release commits it. -/
theorem created_handle_refines (L : B.Laws) (hB : B.NoIoErrors) {overflowChecks : Bool}
    {s s₁ : Fs B} (hm : Mounted L overflowChecks s) {parent : UInt64} {name : Str}
    {mode umask uid gid : UInt32} {i fh : UInt64}
    (hcreate : testCreate parent name mode umask uid gid s = (.ok (i, fh), s₁))
    {ops : List HandleOp} (hops : ∀ op ∈ ops, op.InRange ∧ ¬ op.Erases)
    (hc : L.NoCollision (runHandle i fh ops s₁).store.io) :
    (reference ops [] ≠ [] →
      ∀ (order : List UInt64) (offset : UInt64) (size : UInt32),
        order.Perm (runHandle i fh ops s₁).openFiles.keys →
        L.NoCollision (testRead order i offset size (runHandle i fh ops s₁)).2.store.io →
        (testRead order i offset size (runHandle i fh ops s₁)).1 =
          .ok (slice (reference ops []) (min offset.toNat (reference ops []).length)
            (min (offset.toNat + size.toNat) (reference ops []).length))) ∧
    (∀ op, ops.getLast? = some op → op.Sizes →
      ∃ m, (runHandle i fh ops s₁).inode i = some m ∧
        m.size.toNat = (reference ops []).length) ∧
    ∀ now, L.NoCollision (testRelease i fh now (runHandle i fh ops s₁)).2.store.io →
      (testRelease i fh now (runHandle i fh ops s₁)).1 = .ok () ∧
      (∃ m, (testRelease i fh now (runHandle i fh ops s₁)).2.inode i = some m ∧
        m.size.toNat = (reference ops []).length) ∧
      (testRelease i fh now (runHandle i fh ops s₁)).2.committed i = some (reference ops []) := by
  have hB := hB.reliable L
  have hle := le_runHandle L i fh ops s₁
  have hle₀ := ((growing_testCreate (g := L.growthQuiet) parent name mode umask uid gid).le_run s).1
  rw [hcreate] at hle₀
  obtain ⟨f, hv⟩ := hm.views hB ((hc.of_le hle).of_le hle₀)
  obtain ⟨m, hw⟩ := writing_testCreate hB hv hcreate (hc.of_le hle)
  obtain ⟨h, m', hw', rfl, hcontent, hsize⟩ := writing_runHandle hB hops hw hc
  have hcontent' : h.content = reference ops [] := hcontent
  have hw' : L.Writing (runHandle h.ino fh ops s₁) fh h m' := hw'
  rw [← hcontent']
  refine ⟨fun hne order offset size horder hread => ?_, fun op hlast hs => ?_, fun now hrel => ?_⟩
  · rw [testRead_writing hB hw' hne horder offset size hread, slice_min_add]
  · obtain ⟨f', hv', hfw⟩ := hw'
    exact ⟨m', by rw [hv'.inode hc, hfw.inode], hsize op hlast hs⟩
  · exact testRelease_writing hB hw' now hrel

/-- However a content came to be recorded, its manifest is its digest. -/
theorem getManifest_of_committed (hB : L.Reliable) {overflowChecks : Bool}
    (hs : Mounted L overflowChecks s) (hc : L.NoCollision s.store.io) {i : UInt64} {b : Bytes}
    (hi : s.committed i = some b) (hb : b ≠ []) :
    (getManifest i s.store).1 = .ok [L.digest b] ∧ b ∈ L.stored s.store.io := by
  obtain ⟨f, hv⟩ := hs.views hB hc
  rw [hv.committed hc] at hi
  obtain ⟨o, ho, hcontent⟩ := Option.map_eq_some_iff.mp hi
  obtain rfl : o = some b := by
    cases o with
    | none => exact absurd hcontent.symm hb
    | some c => exact congrArg some hcontent
  have hcommitted : f.core.content i = some b := by rw [Contents.content, ho]; rfl
  refine ⟨?_, (hv.core.content i b hcommitted).1⟩
  rw [getManifest_eq hv.core hc, Contents.getManifest, ho]
  rfl

/-- Two files that are not empty, of one store or of two, have the same manifest exactly if
they have the same content. -/
theorem manifests_canonical (hB : B.NoIoErrors) {s' : Fs B} {checks checks' : Bool}
    (hs : Mounted L checks s) (hs' : Mounted L checks' s')
    (hinj : Set.InjOn L.digest (L.stored s.store.io ∪ L.stored s'.store.io)) {i j : UInt64}
    {b b' : Bytes} (hi : s.committed i = some b) (hj : s'.committed j = some b') (hb : b ≠ [])
    (hb' : b' ≠ []) :
    (getManifest i s.store).1 = (getManifest j s'.store).1 ↔ b = b' := by
  obtain ⟨hmanifest, hmem⟩ := getManifest_of_committed (hB.reliable L) hs
    (hinj.mono Set.subset_union_left) hi hb
  obtain ⟨hmanifest', hmem'⟩ := getManifest_of_committed (hB.reliable L) hs'
    (hinj.mono Set.subset_union_right) hj hb'
  rw [hmanifest, hmanifest']
  constructor
  · intro h
    have hdigest : L.digest b = L.digest b' := by simpa using h
    exact hinj (.inl hmem) (.inr hmem') hdigest
  · rintro rfl
    rfl

end

/-- A new file and its handle. -/
def createdFs : Fs memoryBlockset := (testCreate 1 nameA 0o644 0 0 0 freshFs).2

theorem testCreate_freshFs :
    testCreate 1 nameA 0o644 0 0 0 freshFs = (.ok (2, 1), createdFs) :=
  Prog.eq_ok_of_toOption (by decide +kernel)

/-- Writes in a stream, a write that falls back to a buffer, a flush and a truncation. -/
def createdOps : List HandleOp :=
  [.write 0 [1, 2, 3], .write 1 [9], .flush midnight, .truncate 5 midnight]

theorem created_handle_refines_fresh :
    (testRead [1] 2 1 2 (runHandle 2 1 createdOps createdFs)).1 = .ok [9, 3] ∧
    (testRelease 2 1 midnight (runHandle 2 1 createdOps createdFs)).2.committed 2 =
      some [1, 9, 3, 0, 0] := by
  obtain ⟨hread, -, hrelease⟩ := created_handle_refines memoryLaws memoryBlockset_noIoErrors
    (mounted_freshFs true) testCreate_freshFs
    (show ∀ op ∈ createdOps, op.InRange ∧ ¬ op.Erases by decide)
    (memoryLaws_noCollision (by decide +kernel))
  exact ⟨hread (by decide) [1] 1 2 (by decide +kernel) (memoryLaws_noCollision (by decide +kernel)),
    (hrelease midnight (memoryLaws_noCollision (by decide +kernel))).2.2⟩

/-- Two files with one content, written in one piece and in two pieces from the end. -/
def twinFs : Fs memoryBlockset :=
  (runFsOps [.create 1 nameA 0o644 0 0 0, .write 1 0 [1, 2, 3], .release 2 1 midnight,
    .create 1 nameB 0o644 0 0 0, .write 2 1 [2, 3], .write 2 0 [1], .release 3 2 midnight]
    freshFs).get (by decide +kernel)

theorem manifests_canonical_twin :
    (getManifest 2 twinFs.store).1 = (getManifest 3 twinFs.store).1 := by
  have hmounted : Mounted memoryLaws true twinFs :=
    (mounted_freshFs true).runFsOps (Option.some_get _).symm
  have hinj : Set.InjOn memoryLaws.digest
      (memoryLaws.stored twinFs.store.io ∪ memoryLaws.stored twinFs.store.io) := by
    rw [Set.union_self]
    exact memoryLaws_noCollision (by decide +kernel)
  exact (manifests_canonical memoryBlockset_noIoErrors hmounted hmounted hinj
    (show twinFs.committed 2 = some [1, 2, 3] by decide +kernel)
    (show twinFs.committed 3 = some [1, 2, 3] by decide +kernel) (by decide) (by decide)).mpr rfl

end SliceFs
