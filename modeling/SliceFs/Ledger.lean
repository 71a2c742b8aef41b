import SliceFs.WritePath

/-!
# The reference counts of one handle

A handle counts at most one digest: the one it committed last. Every call moves that
count or gives it up, so that over the life of the handle of a new file the counts
change by what the handle leaves behind and by nothing else.
-/
namespace SliceFs
open TreeMaps ProgramLogic ByteFile

section
variable (refcounts : Map Digest224 UInt64) (d e : Digest224)

/-- The count of a digest; a digest without an entry has none. -/
def refcountOf : UInt64 := refcounts[d]?.getD 0

theorem refcountOf_bump : refcountOf (bumpRefcount refcounts d) e =
    if e = d ∧ refcountOf refcounts d ≠ u64Max then refcountOf refcounts d + 1
    else refcountOf refcounts e := by
  show refcountOf (if refcountOf refcounts d = u64Max then refcounts
    else refcounts.insert d (refcountOf refcounts d + 1)) e = _
  by_cases hmax : refcountOf refcounts d = u64Max
  · rw [if_pos hmax, if_neg fun h => h.2 hmax]
  · rw [if_neg hmax]
    by_cases he : e = d
    · rw [if_pos ⟨he, hmax⟩, refcountOf, getElem?_insert_ite, if_pos he]
      rfl
    · rw [if_neg fun h => he h.1, refcountOf, getElem?_insert_ite, if_neg he]
      rfl

theorem refcountOf_drop : refcountOf (dropRefcount refcounts d) e =
    if e = d ∧ refcountOf refcounts d ≠ u64Max ∧ refcountOf refcounts d ≠ 0 then
      refcountOf refcounts d - 1
    else refcountOf refcounts e := by
  unfold dropRefcount
  cases hd : refcounts[d]? with
  | none =>
      have hzero : refcountOf refcounts d = 0 := by rw [refcountOf, hd]; rfl
      rw [if_neg fun h => h.2.2 hzero]
  | some count =>
      have hcount : refcountOf refcounts d = count := by rw [refcountOf, hd]; rfl
      rw [hcount]
      dsimp only
      by_cases hmax : count = u64Max
      · rw [if_pos hmax, if_neg fun h => h.2.1 hmax]
      rw [if_neg hmax]
      by_cases he : e = d
      · subst he
        by_cases hle : count ≤ 1
        · rw [if_pos hle, refcountOf, getElem?_erase_ite, if_pos rfl, hcount]
          split_ifs with hne
          · have hone : count = 1 := by
              have hlt := UInt64.le_iff_toNat_le.mp hle
              have hpos : count.toNat ≠ 0 := fun h => hne.2.2 (UInt64.toNat_inj.mp h)
              rw [UInt64.toNat_one] at hlt
              apply UInt64.toNat_inj.mp
              rw [UInt64.toNat_one]
              omega
            rw [hone]
            rfl
          · exact (not_not.mp fun h => hne ⟨rfl, hmax, h⟩).symm
        · have hne : count ≠ 0 := by
            rintro rfl
            exact hle (by decide)
          rw [if_neg hle, if_pos ⟨rfl, hmax, hne⟩, refcountOf, getElem?_insert_ite, if_pos rfl]
          rfl
      · have hskip : ¬ (e = d ∧ count ≠ u64Max ∧ count ≠ 0) := fun h => he h.1
        rw [if_neg hskip]
        by_cases hle : count ≤ 1
        · rw [if_pos hle, refcountOf, getElem?_erase_ite, if_neg he]
          rfl
        · rw [if_neg hle, refcountOf, getElem?_insert_ite, if_neg he]
          rfl

end

/-- The counts are those of `before` and one more for `last`. -/
def Counts (before refcounts : Map Digest224 UInt64) (last : Option Digest224) : Prop :=
  ∀ d, (refcountOf refcounts d).toNat =
    (refcountOf before d).toNat + if last = some d then 1 else 0

/-- No count has reached the largest number. -/
def Unsaturated (refcounts : Map Digest224 UInt64) : Prop := ∀ d, refcountOf refcounts d ≠ u64Max

section
variable {before refcounts : Map Digest224 UInt64} {last : Option Digest224}

theorem unsaturated_of_toList (h : ∀ e ∈ refcounts.toList, e.2 ≠ u64Max) :
    Unsaturated refcounts := by
  intro d
  unfold refcountOf
  cases hd : refcounts[d]? with
  | none => decide
  | some n => exact h (d, n) (Std.ExtTreeMap.mem_toList_iff_getElem?_eq_some.mpr hd)

theorem Counts.drop (h : Counts before refcounts last) (hsat : Unsaturated refcounts) :
    Counts before (dropIfSome refcounts last) none := by
  cases last with
  | none => exact h
  | some d =>
      intro e
      have he := h e
      have hone : (refcountOf refcounts d).toNat = (refcountOf before d).toNat + 1 := by
        rw [h d, if_pos rfl]
      have hne : refcountOf refcounts d ≠ 0 := by
        intro hz
        rw [hz] at hone
        exact absurd hone (Nat.succ_ne_zero _).symm
      rw [dropIfSome, refcountOf_drop]
      by_cases hed : e = d
      · have hle : (1 : UInt64) ≤ refcountOf refcounts d := by
          rw [UInt64.le_iff_toNat_le, hone, UInt64.toNat_one]
          omega
        rw [if_pos ⟨hed, hsat d, hne⟩, UInt64.toNat_sub_of_le _ _ hle, hone, hed]
        rfl
      · rw [if_neg fun h => hed h.1, he, if_neg fun h => hed (Option.some.inj h).symm]
        rfl

theorem Counts.bump (h : Counts before refcounts none) (hsat : Unsaturated refcounts)
    (d : Digest224) : Counts before (bumpRefcount refcounts d) (some d) := by
  intro e
  rw [refcountOf_bump]
  by_cases hed : e = d
  · have hd := h d
    rw [if_pos ⟨hed, hsat d⟩, toNat_add_one_of_ne_u64Max (hsat d), hd,
      if_pos (congrArg some hed.symm), hed]
    rfl
  · rw [if_neg fun h => hed h.1, h e, if_neg fun h => hed (Option.some.inj h).symm]
    rfl

theorem Unsaturated.drop (hsat : Unsaturated refcounts) (last : Option Digest224) :
    Unsaturated (dropIfSome refcounts last) := by
  cases last with
  | none => exact hsat
  | some d =>
      intro e
      rw [dropIfSome, refcountOf_drop]
      split_ifs with hd
      · intro hmax
        have hle : (1 : UInt64) ≤ refcountOf refcounts d := by
          have hpos : (refcountOf refcounts d).toNat ≠ 0 := fun h => hd.2.2 (UInt64.toNat_inj.mp h)
          rw [UInt64.le_iff_toNat_le, UInt64.toNat_one]
          omega
        have hlt := UInt64.toNat_lt (refcountOf refcounts d)
        have hnat := congrArg UInt64.toNat hmax
        have hu : u64Max.toNat = 2 ^ 64 - 1 := by decide
        rw [UInt64.toNat_sub_of_le _ _ hle, UInt64.toNat_one, hu] at hnat
        have hpos : 1 ≤ (refcountOf refcounts d).toNat := UInt64.le_iff_toNat_le.mp hle
        omega
      · exact hsat e

/-- One count moves. -/
theorem Counts.recount (h : Counts before refcounts last) (hsat : Unsaturated refcounts)
    (new : Digest224) : Counts before (recount refcounts last new) (some new) := by
  unfold SliceFs.recount
  split_ifs with heq
  · rwa [heq] at h
  · exact (h.drop hsat).bump (hsat.drop last) new

end

section
variable {digest : Bytes → Digest224} {before : Map Digest224 UInt64} {f : Files} {fh : UInt64}
  {h : Handle}

/-- The counts are those of `before` and what handle `fh` counts. -/
structure Files.Ledger (before : Map Digest224 UInt64) (f : Files) (fh : UInt64) (h : Handle) :
    Prop where
  handle : f.handles[fh]? = some h
  counts : Counts before f.core.refcounts h.last
  empty : h.content = [] → h.last = none

theorem Files.Ledger.write (hl : f.Ledger before fh h) (hsat : Unsaturated f.core.refcounts)
    (offset : ℕ) {data : Bytes} (hdata : data ≠ []) :
    (f.write fh h offset data).Ledger before fh (h.write (f.core.content h.ino) offset data) where
  handle := by simp [Files.write]
  counts := by
    unfold Files.write Handle.write
    split_ifs
    · exact hl.counts.drop hsat
    · exact hl.counts
  empty hnil := by
    unfold Handle.write at hnil
    split_ifs at hnil
    · exact absurd hnil (pwrite_ne_nil hdata)
    · exact absurd hnil (pwrite_ne_nil hdata)

theorem Files.Ledger.truncate (hl : f.Ledger before fh h) (hsat : Unsaturated f.core.refcounts)
    (n : UInt64) (now : Now) : (f.truncate fh h n now).Ledger before fh (h.truncate n) where
  handle := by simp [Files.truncate]
  counts := by
    show Counts before (Contents.modifyInode _ _ _).refcounts
        (if h.Releases n then none else h.last)
    rw [Contents.refcounts_modifyInode]
    split_ifs
    · exact hl.counts.drop hsat
    · exact hl.counts
  empty hnil := by
    have hn : n = 0 := by
      by_contra hn
      exact resize_ne_nil hn hnil
    exact if_pos (.inl hn)

theorem Files.Ledger.flush (hl : f.Ledger before fh h) (hsat : Unsaturated f.core.refcounts)
    (now : Now) : (f.flush digest fh h now).Ledger before fh (h.flushed digest) := by
  unfold Files.flush Handle.flushed
  split_ifs with hnil
  · exact hl
  · refine ⟨by simp, ?_, fun h => absurd h hnil⟩
    show Counts before (Contents.modifyInode _ _ _).refcounts _
    rw [Contents.refcounts_modifyInode]
    exact hl.counts.recount hsat _

/-- After the release the content is counted, if there is any. -/
theorem Files.Ledger.release (digest : Bytes → Digest224) (hl : f.Ledger before fh h)
    (hsat : Unsaturated f.core.refcounts) (now : Now) :
    Counts before (f.release digest fh h now).core.refcounts
      (if h.content = [] then none else some (digest h.content)) := by
  unfold Files.release Files.releasedCore
  by_cases hnil : h.content = []
  · have hcounts := hl.counts
    rw [hl.empty hnil] at hcounts
    rw [if_pos hnil, if_pos hnil]
    split_ifs <;> exact hcounts
  · rw [if_neg hnil, if_neg hnil]
    split_ifs with hsame
    · exact hsame.1 ▸ hl.counts
    · show Counts before (Contents.modifyInode _ _ _).refcounts _
      rw [Contents.refcounts_modifyInode]
      exact hl.counts.recount hsat _

end

section
variable {B : Blockset} {L : B.Laws} {s : Fs B} {fh : UInt64} {h : Handle}
  {before : Map Digest224 UInt64}

/-- What `get_refcount` returns. -/
def Fs.refcount (s : Fs B) (d : Digest224) : UInt64 := refcountOf s.store.maps.refcounts d

def Fs.Unsaturated (s : Fs B) : Prop := ∀ d, s.refcount d ≠ u64Max

/-- What was written through a handle so far. -/
def Blockset.Laws.contentOf (L : B.Laws) (o : OpenFileState B) : Bytes :=
  match o.writeMode with
  | .streaming state _ => L.content state
  | .buffered buf => buf

theorem Blockset.Laws.HandleView.contentOf {io : B.Io} {o : OpenFileState B}
    (ho : L.HandleView io o h) : L.contentOf o = h.content := by
  have hmode := ho.mode
  unfold Blockset.Laws.contentOf
  generalize o.writeMode = mode at hmode ⊢
  generalize h.buffered = b at hmode
  generalize h.content = c at hmode ⊢
  cases hmode <;> rfl

/-- The counts of `s` are those of `before` and what handle `fh` counts. -/
def Blockset.Laws.Ledger (L : B.Laws) (before : Map Digest224 UInt64) (s : Fs B) (fh : UInt64)
    (h : Handle) : Prop :=
  ∃ f, L.Views s f ∧ f.Ledger before fh h

theorem Blockset.Laws.Views.unsaturated {f : Files} (hv : L.Views s f) (hs : s.Unsaturated) :
    SliceFs.Unsaturated f.core.refcounts := by
  rw [← hv.core.refcounts]
  exact hs

/-- One call moves the count of the handle along. -/
theorem HandleOp.ledger_next (hB : L.Reliable) {op : HandleOp} (hop : op.InRange)
    (hl : L.Ledger before s fh h) (hs : s.Unsaturated)
    (hc : L.NoCollision (op.next h.ino fh s).store.io) :
    ∃ h', L.Ledger before (op.next h.ino fh s) fh h' ∧ h'.ino = h.ino := by
  obtain ⟨f, hv, hl⟩ := hl
  have hsat := hv.unsaturated hs
  have hflushed : (h.flushed L.digest).ino = h.ino := by
    unfold Handle.flushed
    split_ifs <;> rfl
  cases op with
  | write offset data =>
      obtain ⟨-, hv'⟩ := wp_testWrite hB hv hl.handle hop.2 hc
      exact ⟨_, ⟨_, hv', hl.write hsat offset.toNat hop.1⟩, h.ino_write _ _ _⟩
  | truncate size now =>
      obtain ⟨-, hv'⟩ := wp_testSetattrSize_open hB hv hl.handle hop now hc
      exact ⟨_, ⟨_, hv', hl.truncate hsat size now⟩, rfl⟩
  | flush now =>
      obtain ⟨-, hv'⟩ := wp_flushBufferForFsync hB hv hl.handle now hc
      exact ⟨_, ⟨_, hv', hl.flush hsat now⟩, hflushed⟩
  | fsync now =>
      obtain ⟨-, hv'⟩ := wp_testFsync hB hv hl.handle now hc
      exact ⟨_, ⟨_, hv', hl.flush hsat now⟩, hflushed⟩
  | read order offset size =>
      obtain ⟨-, hv'⟩ := wp_testRead hB hv order h.ino offset size hc
      exact ⟨h, ⟨f, hv', hl⟩, rfl⟩

theorem ledger_runHandle (hB : L.Reliable) {ops : List HandleOp} (hops : ∀ op ∈ ops, op.InRange)
    (hl : L.Ledger before s fh h)
    (hs : ∀ ops', ops' <+: ops → (runHandle h.ino fh ops' s).Unsaturated)
    (hc : L.NoCollision (runHandle h.ino fh ops s).store.io) :
    ∃ h', L.Ledger before (runHandle h.ino fh ops s) fh h' ∧ h'.ino = h.ino := by
  induction ops using List.reverseRecOn with
  | nil => exact ⟨h, hl, rfl⟩
  | append_singleton ops op ih =>
      have hrun : runHandle h.ino fh (ops ++ [op]) s =
          op.next h.ino fh (runHandle h.ino fh ops s) :=
        List.foldl_concat ..
      rw [hrun] at hc ⊢
      obtain ⟨h₁, hl₁, hino⟩ := ih (fun o ho => hops o (List.mem_append_left _ ho))
        (fun ops' hp => hs ops' (hp.trans (List.prefix_append _ _)))
        (hc.of_le (op.le_next L h.ino fh _))
      obtain ⟨h₂, hl₂, hino₂⟩ := HandleOp.ledger_next hB
        (hops op (List.mem_append_right _ List.mem_cons_self)) hl₁
        (hs ops (List.prefix_append _ _)) (by rw [hino]; exact hc)
      rw [hino] at hl₂
      exact ⟨h₂, hl₂, hino₂.trans hino⟩

theorem ledger_testCreate (hB : L.Reliable) {f : Files} (hv : L.Views s f) {p : UInt64} {name : Str}
    {mode umask uid gid : UInt32} {i : UInt64} {s' : Fs B}
    (hcreate : testCreate p name mode umask uid gid s = (.ok (i, fh), s'))
    (hc : L.NoCollision s'.store.io) : L.Ledger s.store.maps.refcounts s' fh (.new i) := by
  have hwp := wp_testCreate hB hv p name mode umask uid gid
  unfold wp at hwp
  rw [hcreate] at hwp
  rcases hwp hc nofun with ⟨hok, -, -, hv'⟩ | ⟨⟨e, he⟩, -⟩
  · obtain ⟨rfl, rfl⟩ := Prod.mk.inj (Except.ok.inj hok)
    refine ⟨_, hv', by simp [Files.insertHandle], ?_, fun _ => rfl⟩
    show Counts _ f.core.refcounts none
    rw [hv.core.refcounts]
    exact fun _ => rfl
  · cases he

/-- Through the handle of a new file the counts change by the digest it committed last, and
after the release by the digest of its content, if there is any. -/
theorem handle_ledger (hB : B.NoIoErrors) {overflowChecks : Bool} {s₁ : Fs B}
    (hm : Mounted L overflowChecks s) {parent : UInt64} {name : Str} {mode umask uid gid : UInt32}
    {i : UInt64} (hcreate : testCreate parent name mode umask uid gid s = (.ok (i, fh), s₁))
    {ops : List HandleOp} (hops : ∀ op ∈ ops, op.InRange)
    (hs : ∀ ops', ops' <+: ops → (runHandle i fh ops' s₁).Unsaturated)
    (hc : L.NoCollision (runHandle i fh ops s₁).store.io) :
    ∃ o, (runHandle i fh ops s₁).openFiles[fh]? = some o ∧
      (∀ d, ((runHandle i fh ops s₁).refcount d).toNat =
        (s.refcount d).toNat + if o.lastCommittedRoot = some d then 1 else 0) ∧
      ∀ now, L.NoCollision (testRelease i fh now (runHandle i fh ops s₁)).2.store.io →
        ∀ d, ((testRelease i fh now (runHandle i fh ops s₁)).2.refcount d).toNat =
          (s.refcount d).toNat +
            if L.contentOf o ≠ [] ∧ d = L.digest (L.contentOf o) then 1 else 0 := by
  have hB := hB.reliable L
  have hle := le_runHandle L i fh ops s₁
  have hle₀ := ((growing_testCreate (g := L.growthQuiet) parent name mode umask uid gid).le_run s).1
  rw [hcreate] at hle₀
  obtain ⟨f, hv⟩ := hm.views hB ((hc.of_le hle).of_le hle₀)
  have hl := ledger_testCreate hB hv hcreate (hc.of_le hle)
  obtain ⟨h, ⟨f', hv', hl'⟩, hino⟩ := ledger_runHandle hB hops hl hs hc
  obtain ⟨o, ho, hview⟩ := hv'.getFile_some hl'.handle
  refine ⟨o, ho, fun d => ?_, fun now hrel d => ?_⟩
  · have hcounts := hl'.counts d
    rw [← hv'.core.refcounts, ← hview.last] at hcounts
    exact hcounts
  · obtain rfl : h.ino = i := hino
    have hsat := hv'.unsaturated (hs ops (List.prefix_refl _))
    obtain ⟨-, hv''⟩ := wp_testRelease hB hv' hl'.handle now hrel
    have hcounts := hl'.release L.digest hsat now d
    rw [← hv''.core.refcounts, ← hview.contentOf] at hcounts
    refine hcounts.trans (congrArg _ (if_congr ?_ rfl rfl))
    by_cases hnil : L.contentOf o = []
    · simp [hnil]
    · rw [if_neg hnil, Option.some.injEq, eq_comm]
      exact ⟨fun h => ⟨hnil, h⟩, And.right⟩

end

/-- Two commits, a truncation to nothing and more writes. -/
def ledgerOps : List HandleOp :=
  [.write 0 [1, 2, 3], .fsync midnight, .write 1 [9], .flush midnight, .truncate 0 midnight,
    .write 0 [1, 2, 3], .flush midnight]

theorem handle_ledger_created :
    ((testRelease 2 1 midnight (runHandle 2 1 ledgerOps createdFs)).2.refcount
      (memoryDigest [1, 2, 3])).toNat = 1 ∧
    ((testRelease 2 1 midnight (runHandle 2 1 ledgerOps createdFs)).2.refcount
      (memoryDigest [1, 9, 3])).toNat = 0 := by
  have hs : ∀ ops', ops' <+: ledgerOps → (runHandle 2 1 ops' createdFs).Unsaturated := by
    intro ops' hp
    have hall : ∀ ops' ∈ ledgerOps.inits,
        ∀ e ∈ (runHandle 2 1 ops' createdFs).store.maps.refcounts.toList, e.2 ≠ u64Max := by
      decide +kernel
    exact unsaturated_of_toList (hall ops' ((List.mem_inits _ _).mpr hp))
  obtain ⟨o, ho, -, hrelease⟩ := handle_ledger memoryBlockset_noIoErrors (mounted_freshFs true)
    testCreate_freshFs (show ∀ op ∈ ledgerOps, op.InRange by decide) hs
    (memoryLaws_noCollision (by decide +kernel))
  have hcontent : memoryLaws.contentOf o = [1, 2, 3] := by
    have hopen : ((runHandle 2 1 ledgerOps createdFs).openFiles[(1 : UInt64)]?).map
        memoryLaws.contentOf = some [1, 2, 3] := by
      decide +kernel
    rw [ho] at hopen
    exact Option.some.inj hopen
  have hbefore : ∀ d, freshFs.refcount d = 0 := by
    intro d
    have hempty : freshFs.store.maps.refcounts = ∅ :=
      Std.ExtTreeMap.isEmpty_iff.mp (by decide +kernel)
    rw [Fs.refcount, refcountOf, hempty]
    simp
  have h := hrelease midnight (memoryLaws_noCollision (by decide +kernel))
  simp only [hcontent, hbefore, UInt64.toNat_zero, Nat.zero_add] at h
  exact ⟨(h _).trans (if_pos ⟨by decide, rfl⟩), (h _).trans (if_neg (by decide +kernel))⟩

end SliceFs
