import SliceFs.WritePath

/-!
# Writing into an existing file

A handle that was just opened holds nothing, whatever the file holds. Its first write
decides what becomes of the committed content: at another offset than zero it is loaded,
at offset zero the stream starts from the empty file.
-/
namespace SliceFs
open TreeMaps ProgramLogic ByteFile

/-- A request to write, as a write to a byte array. -/
def asWrite (w : UInt64 × Bytes) : Write UInt8 := ⟨w.1.toNat, w.2⟩

/-- What the writes of a new handle start from. -/
def startOf (c : Bytes) : List (UInt64 × Bytes) → Bytes
  | [] => []
  | w :: _ => if w.1 = 0 then [] else c

section
variable {f : Files} {fh : UInt64} {h : Handle}

/-- A handle that has not committed anything. -/
structure Files.Pending (f : Files) (fh : UInt64) (h : Handle) : Prop where
  handle : f.handles[fh]? = some h
  committed : h.committed = false
  last : h.last = none

theorem Files.Pending.write (hp : f.Pending fh h) (offset : ℕ) (data : Bytes) :
    (f.write fh h offset data).Pending fh (h.write (f.core.content h.ino) offset data) ∧
      (f.write fh h offset data).core = f.core ∧
      (f.write fh h offset data).handles.erase fh = f.handles.erase fh := by
  refine ⟨⟨by simp [Files.write], h.committed_write _ _ _, ?_⟩, ?_, erase_insert_self _ _ _⟩
  · unfold Handle.write
    split_ifs
    · rfl
    · exact hp.last
  · unfold Files.write
    rw [hp.last]
    exact ite_self f.core

@[simp] theorem Handle.ino_new (i : UInt64) : (Handle.new i).ino = i := rfl

/-- The first write of a handle. -/
theorem Handle.content_write_new (i : UInt64) (c : Option Bytes) (offset : ℕ) (data : Bytes) :
    ((Handle.new i).write c offset data).content =
      pwrite 0 (if offset = 0 then [] else c.getD []) offset data := by
  unfold Handle.write Handle.FallsBack Handle.base Handle.new
  by_cases h : offset = 0 <;> simp [h]

/-- The later writes of a handle. -/
theorem Handle.content_write_of_ne (h : Handle) (c : Option Bytes) (offset : ℕ) (data : Bytes)
    (hne : h.content ≠ []) : (h.write c offset data).content = pwrite 0 h.content offset data := by
  unfold Handle.write Handle.base
  split_ifs <;> rfl

/-- What a release makes of the inode's committed content. -/
theorem Files.Pending.release (digest : Bytes → Digest224) (hp : f.Pending fh h) (now : Now) :
    ((f.release digest fh h now).core.manifests[h.ino]?).map (fun b => b.getD []) =
        some (if h.content = [] then (f.core.content h.ino).getD [] else h.content) ∧
    (f.release digest fh h now).core.inodes[h.ino]? = (f.core.inodes[h.ino]?).map fun m =>
      if h.content = [] then m else m.setWritten (UInt64.ofNat h.content.length) now := by
  unfold Files.release Files.releasedCore
  by_cases hnil : h.content = []
  · simp only [hnil, if_true, hp.committed, Bool.false_eq_true, false_or, ne_eq, ite_not,
      Option.map_id']
    cases hb : f.core.content h.ino with
    | none => simp [Contents.setContent]
    | some b => simp [Option.join_eq_some_iff.mp hb]
  · simp only [hnil, if_false, hp.last, reduceCtorEq, false_and]
    constructor
    · rw [Contents.manifests_modifyInode]
      simp [Contents.record]
    · unfold Contents.modifyInode Contents.record
      cases hm : f.core.inodes[h.ino]? with
      | none => simp [hm]
      | some m => simp

end

section
variable {B : Blockset} {L : B.Laws} {s : Fs B} {f : Files} {fh : UInt64} {h : Handle}

/-- Writes through one handle. -/
def writeOps (ws : List (UInt64 × Bytes)) : List HandleOp := ws.map fun w => .write w.1 w.2

/-- A write of something, within the largest file. -/
def WriteInRange (w : UInt64 × Bytes) : Prop := w.2 ≠ [] ∧ w.1.toNat + w.2.length ≤ isizeMax

instance (w : UInt64 × Bytes) : Decidable (WriteInRange w) := inferInstanceAs (Decidable (_ ∧ _))

theorem pending_writes (hB : L.Reliable) {ws : List (UInt64 × Bytes)}
    (hws : ∀ w ∈ ws, WriteInRange w) (hv : L.Views s f) (hp : f.Pending fh h)
    (hne : h.content ≠ []) (hc : L.NoCollision (runHandle h.ino fh (writeOps ws) s).store.io) :
    ∃ f' h', L.Views (runHandle h.ino fh (writeOps ws) s) f' ∧ f'.Pending fh h' ∧
      f'.core = f.core ∧ f'.handles.erase fh = f.handles.erase fh ∧ h'.ino = h.ino ∧
      h'.content = applyWrites 0 h.content (ws.map asWrite) := by
  induction ws generalizing s f h with
  | nil => exact ⟨f, h, hv, hp, rfl, rfl, rfl, rfl⟩
  | cons w ws ih =>
      obtain ⟨hdata, hrange⟩ := hws w List.mem_cons_self
      have hle := le_runHandle L h.ino fh (writeOps ws) (testWrite fh w.1 w.2 s).2
      obtain ⟨-, hv₁⟩ := wp_testWrite hB hv hp.handle hrange (hc.of_le hle)
      obtain ⟨hp₁, hcore, hothers⟩ := hp.write w.1.toNat w.2
      have hino := h.ino_write (f.core.content h.ino) w.1.toNat w.2
      have hcontent := h.content_write_of_ne (f.core.content h.ino) w.1.toNat w.2 hne
      obtain ⟨f₂, h₂, hv₂, hp₂, hcore₂, hothers₂, hino₂, hcontent₂⟩ :=
        ih (fun v hv => hws v (List.mem_cons_of_mem _ hv)) hv₁ hp₁
          (by rw [hcontent]; exact pwrite_ne_nil hdata) (by rw [hino]; exact hc)
      rw [hino] at hv₂
      refine ⟨f₂, h₂, hv₂, hp₂, hcore₂.trans hcore, hothers₂.trans hothers, hino₂.trans hino, ?_⟩
      rw [hcontent₂, hcontent]
      rfl

/-- Writes through a handle that was just opened. -/
theorem pending_writes_new (hB : L.Reliable) {ws : List (UInt64 × Bytes)}
    (hws : ∀ w ∈ ws, WriteInRange w) (hv : L.Views s f) {i : UInt64} (hp : f.Pending fh (.new i))
    (hc : L.NoCollision (runHandle i fh (writeOps ws) s).store.io) :
    ∃ f' h', L.Views (runHandle i fh (writeOps ws) s) f' ∧ f'.Pending fh h' ∧
      f'.core = f.core ∧ f'.handles.erase fh = f.handles.erase fh ∧ h'.ino = i ∧
      h'.content = applyWrites 0 (startOf ((f.core.content i).getD []) ws) (ws.map asWrite) := by
  cases ws with
  | nil => exact ⟨f, _, hv, hp, rfl, rfl, rfl, rfl⟩
  | cons w ws =>
      obtain ⟨hdata, hrange⟩ := hws w List.mem_cons_self
      have hle := le_runHandle L i fh (writeOps ws) (testWrite fh w.1 w.2 s).2
      obtain ⟨-, hv₁⟩ := wp_testWrite hB hv hp.handle hrange (hc.of_le hle)
      obtain ⟨hp₁, hcore, hothers⟩ := hp.write w.1.toNat w.2
      rw [Handle.ino_new] at hp₁
      have hino := (Handle.new i).ino_write (f.core.content i) w.1.toNat w.2
      have hcontent := Handle.content_write_new i (f.core.content i) w.1.toNat w.2
      obtain ⟨f₂, h₂, hv₂, hp₂, hcore₂, hothers₂, hino₂, hcontent₂⟩ :=
        pending_writes hB (fun v hv => hws v (List.mem_cons_of_mem _ hv)) hv₁ hp₁
          (by rw [hcontent]; exact pwrite_ne_nil hdata)
          (by rw [hino]; exact hc)
      rw [hino] at hv₂
      refine ⟨f₂, h₂, hv₂, hp₂, hcore₂.trans hcore, hothers₂.trans hothers, hino₂.trans hino, ?_⟩
      rw [hcontent₂, hcontent]
      have hzero : w.1.toNat = 0 ↔ w.1 = 0 := UInt64.toNat_inj (b := 0)
      simp only [startOf, hzero]
      rfl

/-- Reads of every range tell contents apart. -/
theorem eq_of_reads {b b' : Bytes} (hb : b.length < 2 ^ 64) (hb' : b'.length < 2 ^ 64)
    (h : ∀ (offset : UInt64) (size : UInt32), (b.drop offset.toNat).take size.toNat =
      (b'.drop offset.toNat).take size.toNat) : b = b' := by
  apply List.ext_getElem?
  intro k
  by_cases hk : k < 2 ^ 64
  · have hread := h (UInt64.ofNat k) 1
    rw [UInt64.toNat_ofNat_of_lt' hk] at hread
    have hhead := congrArg (fun l => l[0]?) hread
    simpa [List.getElem?_take, List.getElem?_drop] using hhead
  · rw [List.getElem?_eq_none (by omega), List.getElem?_eq_none (by omega)]

/-- No write handle is open on an inode. -/
def Fs.Closed (s : Fs B) (i : UInt64) : Prop :=
  ∀ (fh : UInt64) (o : OpenFileState B), s.openFiles[fh]? = some o → o.ino ≠ i

theorem Fs.closed_of_isEmpty (h : s.openFiles.isEmpty = true) (i : UInt64) : s.Closed i := by
  intro fh o ho
  rw [Std.ExtTreeMap.isEmpty_iff.mp h] at ho
  simp at ho

theorem Blockset.Laws.Views.closed_iff (hv : L.Views s f) (i : UInt64) :
    s.Closed i ↔ ∀ (j : UInt64) (hd : Handle), f.handles[j]? = some hd → hd.ino ≠ i := by
  constructor
  · intro hs j hd hj
    obtain ⟨o, ho, hview⟩ := hv.getFile_some hj
    rw [← hview.ino]
    exact hs j o ho
  · intro hno j o ho
    have hrel := hv.handles j
    rw [ho] at hrel
    cases hj : f.handles[j]? with
    | none =>
        rw [hj] at hrel
        cases hrel
    | some hd =>
        rw [hj] at hrel
        cases hrel with
        | some hview =>
            rw [hview.ino]
            exact hno j hd hj

/-- A read of an inode without write handles returns bytes of the committed content. -/
theorem testRead_closed (hv : L.Views s f) (hc : L.NoCollision s.store.io) {i : UInt64}
    (hs : s.Closed i) {b : Bytes} (hb : s.committed i = some b) (order : List UInt64)
    (offset : UInt64) (size : UInt32) :
    testRead order i offset size s = (.ok ((b.drop offset.toNat).take size.toNat), s) := by
  have hfind : findWriter order i s.openFiles = none := by
    refine List.find?_eq_none.mpr fun o ho => ?_
    obtain ⟨j, -, hj⟩ := List.mem_filterMap.mp ho
    simp [hs j o hj]
  have hread := readManifest_eq hv hc i
  rw [hv.committed hc] at hb
  obtain ⟨x, hx, rfl⟩ := Option.map_eq_some_iff.mp hb
  rw [hx] at hread
  unfold testRead
  refine (Prog.bind_ok (Prog.read_apply _ _)).trans ?_
  rw [hfind]
  refine (Prog.bind_ok hread).trans ?_
  exact congrArg (fun b => (Except.ok b, s)) (slice_clamp _ _ _)

theorem Blockset.Laws.Views.committed_length_le (hv : L.Views s f) (hc : L.NoCollision s.store.io)
    (i : UInt64) : ((s.committed i).getD []).length ≤ isizeMax := by
  rw [hv.committed hc]
  cases hm : f.core.manifests[i]? with
  | none => exact Nat.zero_le _
  | some b =>
      cases b with
      | none => exact Nat.zero_le _
      | some b => exact (hv.core.content i b (by rw [Contents.content, hm]; rfl)).2

/-- The handle that an `open` for writing returns. -/
theorem testOpen_views (hB : L.Reliable) (hv : L.Views s f) {i : UInt64}
    (hi : i < f.core.nextIno) {flags : UInt32} {now : Now} (hflags : isWriteOpen flags)
    (htr : flags &&& O_TRUNC = 0) {w : Bool} {s₁ : Fs B}
    (hopen : testOpen i flags now s = (.ok (fh, w), s₁)) (hc : L.NoCollision s₁.store.io) :
    f.nextFh ≠ u64Max ∧ fh = f.nextFh + 1 ∧ L.Views s₁ (f.insertHandle i) := by
  have hmax : f.nextFh ≠ u64Max := by
    intro hmax
    have hpanic : testOpen i flags now s = (.error .panic, _) :=
      Prog.bind_error (allocateFh_panic (hv.nextFh.trans hmax))
    rw [hopen] at hpanic
    cases hpanic
  have hwp := wp_testOpen hB hv hmax hi flags now
  unfold wp at hwp
  rw [hopen] at hwp
  obtain ⟨hr, hv₁⟩ := hwp hc
  rw [Files.openResult, if_neg (by simp [htr])] at hr
  rw [Files.opened, if_neg (not_not.mpr hflags), if_pos htr] at hv₁
  exact ⟨hmax, (Prod.mk.inj (Except.ok.inj hr)).1, hv₁⟩

/-- What writes through a new handle and its release make of an inode. -/
theorem rewrite_spec (hB : L.Reliable) (hv : L.Views s f) {i : UInt64}
    (hi : i < f.core.nextIno) (hclosed : s.Closed i) {flags : UInt32} {now now' : Now}
    (hflags : isWriteOpen flags) (htr : flags &&& O_TRUNC = 0) {w : Bool} {s₁ s₂ : Fs B}
    (hopen : testOpen i flags now s = (.ok (fh, w), s₁)) {ws : List (UInt64 × Bytes)}
    (hws : ∀ w ∈ ws, WriteInRange w)
    (hs₂ : (testRelease i fh now' (runHandle i fh (writeOps ws) s₁)).2 = s₂)
    (hc : L.NoCollision s₂.store.io) {b : Bytes}
    (hb : applyWrites 0 (startOf ((f.core.content i).getD []) ws) (ws.map asWrite) = b) :
    (∃ f₂, L.Views s₂ f₂) ∧ s₂.Closed i ∧
    s₂.committed i = some (if b = [] then (f.core.content i).getD [] else b) ∧
    s₂.inode i = (f.core.inodes[i]?).map fun m =>
      if b = [] then m else m.setWritten (UInt64.ofNat b.length) now' := by
  have hle := ((growing_testRelease (g := L.growthQuiet) i fh now').le_run
    (runHandle i fh (writeOps ws) s₁)).1
  rw [hs₂] at hle
  have hrun := hc.of_le hle
  obtain ⟨hmax, rfl, hv₁⟩ := testOpen_views hB hv hi hflags htr hopen
    (hrun.of_le (le_runHandle L i fh (writeOps ws) s₁))
  have hp : (f.insertHandle i).Pending (f.nextFh + 1) (.new i) :=
    ⟨by simp [Files.insertHandle], rfl, rfl⟩
  obtain ⟨f', h', hv', hp', hcore, hothers, rfl, hcontent⟩ := pending_writes_new hB hws hv₁ hp hrun
  have hcontent' : h'.content = b := hcontent.trans hb
  have hwp := wp_testRelease hB hv' hp'.handle now'
  unfold wp at hwp
  rw [hs₂] at hwp
  obtain ⟨-, hv₂⟩ := hwp hc
  obtain ⟨hman, hino⟩ := hp'.release L.digest now'
  rw [hcontent', hcore] at hman hino
  refine ⟨⟨_, hv₂⟩, ?_, ?_, ?_⟩
  · have hnone := hv.nextFh_closed hmax
    have hrest : (f'.release L.digest (f.nextFh + 1) h' now').handles = f.handles := by
      refine hothers.trans ((erase_insert_self _ _ _).trans ?_)
      exact erase_of_getElem?_eq_none _ hnone
    rw [hv₂.closed_iff, hrest]
    exact (hv.closed_iff _).mp hclosed
  · rw [hv₂.committed hc, hman]
    rfl
  · rw [hv₂.inode hc, hino]
    rfl

theorem stop_asWrite_le {ws : List (UInt64 × Bytes)} (hws : ∀ w ∈ ws, WriteInRange w) :
    writesEnd (ws.map asWrite) ≤ isizeMax := by
  refine writesEnd_le fun v hv => ?_
  obtain ⟨w, hw, rfl⟩ := List.mem_map.mp hv
  exact (hws w hw).2

/-- The writes keep what they should of a content `c` of an inode whose size is `size`:
the first is at another offset than zero, or else they cover every byte of `c` that is
not zero and reach to its end. -/
def KeepsContent (c : Bytes) (size : UInt64) : List (UInt64 × Bytes) → Prop
  | [] => size.toNat = c.length
  | w :: ws => w.1 ≠ 0 ∨ c.length ≤ writesEnd ((w :: ws).map asWrite) ∧
      ∀ k < c.length, (¬ ∃ v ∈ (w :: ws).map asWrite, v.Covers k) → c.getD k 0 = 0

theorem applyWrites_ne_nil (c : Bytes) {w : UInt64 × Bytes} (hw : w.2 ≠ [])
    (ws : List (UInt64 × Bytes)) : applyWrites 0 c ((w :: ws).map asWrite) ≠ [] := by
  intro hnil
  have hlen := congrArg List.length hnil
  have hend : writesEnd ((w :: ws).map asWrite) =
      max (asWrite w).stop (writesEnd (ws.map asWrite)) := by
    rw [List.map_cons, writesEnd, List.foldl_cons, foldl_max_stop, Nat.zero_max]
  have hpos := List.length_pos_iff.mpr hw
  rw [length_applyWrites, hend, List.length_nil] at hlen
  simp only [Write.stop, asWrite] at hlen
  omega

/-- Reads agree with a content exactly when it is what is committed. -/
theorem reads_iff (hv : L.Views s f) (hc : L.NoCollision s.store.io) {i : UInt64}
    (hclosed : s.Closed i) {b c : Bytes} (hb : s.committed i = some b)
    (hlen : c.length ≤ isizeMax) :
    (∀ (order : List UInt64) (offset : UInt64) (size : UInt32),
      (testRead order i offset size s).1 = .ok (slice c (min offset.toNat c.length)
        (min (offset.toNat + size.toNat) c.length))) ↔ b = c := by
  have hblen := hv.committed_length_le hc i
  rw [hb] at hblen
  constructor
  · intro h
    refine eq_of_reads (lt_of_le_of_lt hblen (by decide)) (lt_of_le_of_lt hlen (by decide))
      fun offset size => ?_
    have hread := h [] offset size
    rw [testRead_closed hv hc hclosed hb, slice_min_add] at hread
    exact Except.ok.inj hread
  · rintro rfl order offset size
    rw [testRead_closed hv hc hclosed hb, slice_min_add]

/-- Writes through a handle opened without truncation, and its release, leave the old
content with the writes applied, and its length as the size, exactly when they keep
the content they should. -/
theorem rewrite_reads_iff (L : B.Laws) (hB : B.NoIoErrors) {overflowChecks : Bool}
    {s s₁ s₂ : Fs B} (hm : Mounted L overflowChecks s) {i : UInt64} {m : InodeMeta}
    (hi : s.inode i = some m) (hclosed : s.Closed i) {c : Bytes}
    (hcontent : (s.committed i).getD [] = c) {flags : UInt32} {now now' : Now}
    (hflags : isWriteOpen flags) (htr : flags &&& O_TRUNC = 0) {fh : UInt64} {w : Bool}
    (hopen : testOpen i flags now s = (.ok (fh, w), s₁)) {ws : List (UInt64 × Bytes)}
    (hws : ∀ w ∈ ws, WriteInRange w)
    (hs₂ : (testRelease i fh now' (runHandle i fh (writeOps ws) s₁)).2 = s₂)
    (hc : L.NoCollision s₂.store.io) :
    ((∀ (order : List UInt64) (offset : UInt64) (size : UInt32),
        (testRead order i offset size s₂).1 =
          .ok (slice (applyWrites 0 c (ws.map asWrite))
            (min offset.toNat (applyWrites 0 c (ws.map asWrite)).length)
            (min (offset.toNat + size.toNat) (applyWrites 0 c (ws.map asWrite)).length))) ∧
      ∃ m', s₂.inode i = some m' ∧
        m'.size.toNat = (applyWrites 0 c (ws.map asWrite)).length) ↔
    KeepsContent c m.size ws := by
  have hB := hB.reliable L
  have hle₁ := ((growing_testOpen (g := L.growthQuiet) i flags now).le_run s).1
  rw [hopen] at hle₁
  have hle₂ := ((growing_testRelease (g := L.growthQuiet) i fh now').le_run
    (runHandle i fh (writeOps ws) s₁)).1
  rw [hs₂] at hle₂
  have hcs : L.NoCollision s.store.io :=
    ((hc.of_le hle₂).of_le (le_runHandle L i fh (writeOps ws) s₁)).of_le hle₁
  obtain ⟨f, hv⟩ := hm.views hB hcs
  rw [hv.inode hcs] at hi
  have hclen := hv.committed_length_le hcs i
  rw [hcontent] at hclen
  have hfc : (f.core.content i).getD [] = c := by
    rw [← hcontent, hv.committed hcs, Contents.content]
    cases f.core.manifests[i]? <;> rfl
  obtain ⟨⟨f₂, hv₂⟩, hclosed₂, hcommitted, hinode⟩ := rewrite_spec hB hv
    (hv.core.inode i m hi).2.2 hclosed hflags htr hopen hws hs₂ hc rfl
  rw [hfc] at hcommitted hinode
  have hlen : (applyWrites 0 c (ws.map asWrite)).length ≤ isizeMax := by
    rw [length_applyWrites]
    exact max_le hclen (stop_asWrite_le hws)
  rw [reads_iff hv₂ hc hclosed₂ hcommitted hlen, hinode, hi]
  cases ws with
  | nil => simp [startOf, applyWrites, KeepsContent]
  | cons w ws =>
      have hne := fun c => applyWrites_ne_nil c (hws w List.mem_cons_self).1 ws
      have hsize : (applyWrites 0 (if w.1 = 0 then [] else c) ((w :: ws).map asWrite)).length ≤
          isizeMax := by
        rw [length_applyWrites]
        refine max_le ?_ (stop_asWrite_le hws)
        split_ifs
        · exact Nat.zero_le _
        · exact hclen
      simp only [startOf, hne, if_false, Option.map_some, Option.some.injEq, exists_eq_left',
        InodeMeta.setWritten, toNat_ofNat_length hsize, KeepsContent]
      by_cases hz : w.1 = 0
      · simp only [hz, if_true, ne_eq, not_true_eq_false, false_or]
        rw [← applyWrites_nil_eq_iff]
        exact ⟨fun h => h.1, fun h => ⟨h, congrArg List.length h⟩⟩
      · simp [hz]

end

/-- A file that holds three bytes. -/
def savedOps : List FsOp :=
  [.create 1 nameA 0o644 0 0 0, .write 1 0 [1, 2, 3], .release 2 1 midnight]

def savedFs : Fs memoryBlockset := (runFsOps savedOps freshFs).get (by decide +kernel)

theorem mounted_savedFs (overflowChecks : Bool) : Mounted memoryLaws overflowChecks savedFs :=
  (mounted_freshFs overflowChecks).runFsOps (Option.some_get _).symm

/-- The file opened again for writing. -/
def reopenedFs : Fs memoryBlockset := (testOpen 2 O_WRONLY midnight savedFs).2

/-- The file after one byte was written at an offset and the handle released. -/
def rewrittenFs (offset : UInt64) : Fs memoryBlockset :=
  (testRelease 2 2 midnight (runHandle 2 2 (writeOps [(offset, [9])]) reopenedFs)).2

theorem rewrite_reads_iff_saved : (testRead [] 2 0 3 (rewrittenFs 1)).1 = .ok [1, 9, 3] := by
  have hopen : testOpen 2 O_WRONLY midnight savedFs = (.ok (2, true), reopenedFs) :=
    Prog.eq_ok_of_toOption (by decide +kernel)
  have hws : ∀ w ∈ [((1 : UInt64), ([9] : Bytes))], WriteInRange w := by decide
  have hrelease : (testRelease 2 2 midnight (runHandle 2 2 (writeOps [(1, [9])]) reopenedFs)).2 =
      rewrittenFs 1 := rfl
  have hcontent : (savedFs.committed 2).getD [] = [1, 2, 3] := by decide +kernel
  have h := rewrite_reads_iff memoryLaws memoryBlockset_noIoErrors (mounted_savedFs true)
    (Option.some_get (by decide +kernel)).symm (Fs.closed_of_isEmpty (by decide +kernel) 2)
    hcontent (by decide) (by decide) hopen hws hrelease
    (memoryLaws_noCollision (by decide +kernel))
  exact (h.mpr (.inl (by decide))).1 [] 0 3

theorem rewrite_at_zero_loses_content :
    Mounted memoryLaws true savedFs ∧ (savedFs.inode 2).isSome = true ∧ savedFs.Closed 2 ∧
    savedFs.committed 2 = some [1, 2, 3] ∧
    testOpen 2 O_WRONLY midnight savedFs = (.ok (2, true), reopenedFs) ∧
    memoryLaws.NoCollision (rewrittenFs 0).store.io ∧
    applyWrites 0 [1, 2, 3] ([(0, [9])].map asWrite) = [9, 2, 3] ∧
    (testRead [] 2 0 3 (rewrittenFs 0)).1 = .ok [9] :=
  ⟨mounted_savedFs true, by decide +kernel, Fs.closed_of_isEmpty (by decide +kernel) 2,
    by decide +kernel, Prog.eq_ok_of_toOption (by decide +kernel),
    memoryLaws_noCollision (by decide +kernel), by decide, by decide +kernel⟩

end SliceFs
