import SliceFs.Ledger
import SliceFs.Rewrite

/-!
# The two ways to change a size

A truncation without a handle reads the committed content, resizes it and counts the
result in place of what it read. A truncation through a handle works on what was
written through the handle, which is nothing when the handle was just opened.
-/
namespace SliceFs
open TreeMaps ProgramLogic ByteFile

section
variable {refcounts : Map Digest224 UInt64} {k : Option Digest224}

/-- A count that a decrement leaves alone. -/
def Unmoved (refcounts : Map Digest224 UInt64) (d : Digest224) : Prop :=
  refcountOf refcounts d = 0 ∨ refcountOf refcounts d = u64Max

theorem sub_one_ne {n : UInt64} : n - 1 ≠ n := by
  intro h
  have h1 : n - 1 + 1 = n + 1 := congrArg (· + 1) h
  rw [UInt64.sub_add_cancel] at h1
  have h2 : n + 0 = n + 1 := by rw [UInt64.add_zero]; exact h1
  exact absurd ((UInt64.add_right_inj n).mp h2) (by decide)

theorem refcountOf_dropIfSome_eq (h : ∀ d, k = some d → Unmoved refcounts d) (e : Digest224) :
    refcountOf (dropIfSome refcounts k) e = refcountOf refcounts e := by
  cases k with
  | none => rfl
  | some d =>
      rw [dropIfSome, refcountOf_drop]
      split_ifs with hd
      · rcases h d rfl with hz | hm
        · exact absurd hz hd.2.2
        · exact absurd hm hd.2.1
      · rfl

theorem refcountOf_dropIfSome_iff :
    (∀ e, refcountOf (dropIfSome refcounts k) e = refcountOf refcounts e) ↔
      ∀ d, k = some d → Unmoved refcounts d := by
  refine ⟨fun h d hk => ?_, refcountOf_dropIfSome_eq⟩
  by_contra hmoved
  obtain ⟨hz, hm⟩ := not_or.mp hmoved
  have hd := h d
  rw [hk, dropIfSome, refcountOf_drop, if_pos ⟨rfl, hm, hz⟩] at hd
  exact sub_one_ne hd

/-- The same after one count more on both sides. -/
theorem refcountOf_bump_dropIfSome_iff (z : Digest224) :
    (∀ e, refcountOf (bumpRefcount refcounts z) e =
        refcountOf (bumpRefcount (dropIfSome refcounts k) z) e) ↔
      ∀ d, k = some d → Unmoved refcounts d := by
  constructor
  · intro h d hk
    by_contra hmoved
    obtain ⟨hz, hm⟩ := not_or.mp hmoved
    have hdrop : refcountOf (dropIfSome refcounts k) d = refcountOf refcounts d - 1 := by
      rw [hk, dropIfSome, refcountOf_drop, if_pos ⟨rfl, hm, hz⟩]
    have hd := h d
    rw [refcountOf_bump, refcountOf_bump] at hd
    by_cases hdz : d = z
    · subst hdz
      have hne : refcountOf refcounts d - 1 ≠ u64Max := by
        intro he
        apply hz
        rw [← UInt64.sub_add_cancel (refcountOf refcounts d) 1, he]
        decide
      rw [hdrop, if_pos ⟨rfl, hm⟩, if_pos ⟨rfl, hne⟩] at hd
      exact sub_one_ne ((UInt64.add_left_inj 1).mp hd).symm
    · rw [if_neg fun h => hdz h.1, if_neg fun h => hdz h.1, hdrop] at hd
      exact sub_one_ne hd.symm
  · intro h e
    rw [refcountOf_bump, refcountOf_bump, refcountOf_dropIfSome_eq h, refcountOf_dropIfSome_eq h]

end

section
variable {f : Files} {i : UInt64} {m : InodeMeta}

theorem resize_nil (n : ℕ) : resize (0 : UInt8) n [] = List.replicate n 0 := by
  rw [resize, List.take_nil, List.nil_append, List.length_nil, Nat.sub_zero]

/-- What is left of a file that was opened, truncated through the handle and closed. -/
structure Files.Resized (f' : Files) (i n : UInt64) (b : Bytes) (refcounts : Map Digest224 UInt64) :
    Prop where
  content : (f'.core.manifests[i]?).map (fun b => b.getD []) = some b
  size : (f'.core.inodes[i]?).map InodeMeta.size = some n
  refcounts : f'.core.refcounts = refcounts

theorem Files.resized_closed (digest : Bytes → Digest224) (hm : f.core.inodes[i]? = some m)
    (n : UInt64) (now : Now) :
    (f.truncateCommitted digest i n now).Resized i n
      (resize 0 n.toNat ((f.core.content i).getD []))
      (if n = 0 then dropIfSome f.core.refcounts ((f.core.content i).map digest)
        else bumpRefcount (dropIfSome f.core.refcounts ((f.core.content i).map digest))
          (digest (resize 0 n.toNat ((f.core.content i).getD [])))) := by
  have hinode : (f.core.resizeContent digest i n).inodes[i]? = some m := by
    rw [← hm, Contents.resizeContent]
    split_ifs <;> rfl
  have hsize : ((f.truncateCommitted digest i n now).core.inodes[i]?).map InodeMeta.size =
      some n := by
    rw [Files.truncateCommitted, Contents.setSize, Contents.modifyInode_self hinode]
    rfl
  refine ⟨?_, hsize, ?_⟩
  · rw [Files.truncateCommitted, Contents.setSize, Contents.manifests_modifyInode,
      Contents.resizeContent]
    by_cases hnil : resize 0 n.toNat ((f.core.content i).getD []) = []
    · rw [if_pos hnil, hnil, Contents.setContent, getElem?_insert_ite, if_pos rfl]
      rfl
    · rw [if_neg hnil, Contents.increment, Contents.setContent, getElem?_insert_ite, if_pos rfl]
      rfl
  · rw [Files.truncateCommitted, Contents.setSize, Contents.refcounts_modifyInode,
      Contents.resizeContent]
    by_cases hn : n = 0
    · rw [if_pos hn, hn, UInt64.toNat_zero, if_pos (resize_zero 0 _)]
      rfl
    · rw [if_neg hn, if_neg (resize_ne_nil hn)]
      rfl

theorem Files.resized_open (digest : Bytes → Digest224) (fh : UInt64)
    (hm : f.core.inodes[i]? = some m) (n : UInt64) (now now' : Now) :
    (((f.insertHandle i).truncate fh (.new i) n now).release digest fh
        ((Handle.new i).truncate n) now').Resized i n
      (if n = 0 then (f.core.content i).getD [] else List.replicate n.toNat 0)
      (if n = 0 then f.core.refcounts
        else bumpRefcount f.core.refcounts (digest (List.replicate n.toNat 0))) := by
  have hcontent : ((Handle.new i).truncate n).content = List.replicate n.toNat 0 := resize_nil _
  have hinode : (f.core.setSize i n now).inodes[i]? =
      some (({ m with size := n } : InodeMeta).setCtime now) :=
    Contents.modifyInode_self hm _
  have hcore : ((f.insertHandle i).truncate fh (.new i) n now).core = f.core.setSize i n now := by
    have hreleases : (Handle.new i).Releases n := .inr rfl
    rw [Files.truncate, if_pos hreleases]
    rfl
  have hino : ((Handle.new i).truncate n).ino = i := rfl
  have hblock : (f.core.setSize i n now).content i = f.core.content i :=
    Contents.content_modifyInode ..
  by_cases hn0 : n = 0
  · have hnil : ((Handle.new i).truncate n).content = [] := by rw [hcontent, hn0]; rfl
    have hcommitted : ((Handle.new i).truncate n).committed ≠ true := Bool.false_ne_true
    rw [if_pos hn0, if_pos hn0]
    unfold Files.release Files.releasedCore
    rw [if_pos hnil, hcore, hino, hblock]
    by_cases hb : f.core.content i = none
    · rw [if_neg (by simp [hb, hcommitted]), hb]
      exact ⟨by simp [Contents.setContent], by rw [Contents.setContent, hinode]; rfl,
        Contents.refcounts_modifyInode ..⟩
    · rw [if_pos (.inr hb)]
      obtain ⟨b, hb⟩ := Option.ne_none_iff_exists'.mp hb
      refine ⟨?_, by rw [hinode]; rfl, Contents.refcounts_modifyInode ..⟩
      rw [hb, Contents.setSize, Contents.manifests_modifyInode, Option.join_eq_some_iff.mp hb]
      rfl
  · have hne : ((Handle.new i).truncate n).content ≠ [] := resize_ne_nil hn0
    have hlast : ¬ (((Handle.new i).truncate n).last = some (digest
        ((Handle.new i).truncate n).content) ∧ ((Handle.new i).truncate n).committed = true) :=
      fun h => Bool.false_ne_true h.2
    have hlen : (UInt64.ofNat (List.replicate n.toNat (0 : UInt8)).length) = n := by
      rw [List.length_replicate, UInt64.ofNat_toNat]
    have hnone : ((Handle.new i).truncate n).last = none := if_pos (.inr rfl)
    rw [if_neg hn0, if_neg hn0]
    unfold Files.release Files.releasedCore
    rw [if_neg hne, if_neg hlast, hcore, hcontent, hnone, hlen, hino]
    refine ⟨?_, ?_, ?_⟩
    · rw [Contents.manifests_modifyInode, Contents.record]
      show ((_ : Map UInt64 (Option Bytes)).insert i _)[i]?.map _ = _
      rw [getElem?_insert_ite, if_pos rfl]
      rfl
    · rw [Contents.modifyInode_self (c := (f.core.setSize i n now).record digest i none _) hinode]
      rfl
    · rw [Contents.refcounts_modifyInode]
      show recount (f.core.setSize i n now).refcounts none _ = _
      rw [Contents.setSize, Contents.refcounts_modifyInode]
      rfl

/-- The two outcomes are the same. -/
theorem resized_agree_iff (digest : Bytes → Digest224) (refcounts : Map Digest224 UInt64)
    (c : Option Bytes) (n : UInt64) :
    ((if n = 0 then c.getD [] else List.replicate n.toNat 0) = resize 0 n.toNat (c.getD []) ∧
      ∀ d, refcountOf (if n = 0 then refcounts
          else bumpRefcount refcounts (digest (List.replicate n.toNat 0))) d =
        refcountOf (if n = 0 then dropIfSome refcounts (c.map digest)
          else bumpRefcount (dropIfSome refcounts (c.map digest))
            (digest (resize 0 n.toNat (c.getD [])))) d) ↔
      ∀ d, c.map digest = some d → Unmoved refcounts d ∧
        if n = 0 then c.getD [] = []
        else resize 0 n.toNat (c.getD []) = List.replicate n.toNat 0 := by
  have hkept : ∀ {P : Prop}, (c = none → P) →
      ((∀ d, c.map digest = some d → Unmoved refcounts d ∧ P) ↔
      (∀ d, c.map digest = some d → Unmoved refcounts d) ∧ P) := by
    intro P hnone
    refine ⟨fun h => ⟨fun d hd => (h d hd).1, ?_⟩, fun h d hd => ⟨h.1 d hd, h.2⟩⟩
    cases c with
    | none => exact hnone rfl
    | some b => exact (h _ rfl).2
  by_cases hn : n = 0
  · simp only [hn, if_true, UInt64.toNat_zero, resize_zero]
    rw [hkept (by rintro rfl; rfl), ← refcountOf_dropIfSome_iff, and_comm]
    exact and_congr_left' ⟨fun h e => (h e).symm, fun h e => (h e).symm⟩
  · simp only [hn, if_false]
    rw [hkept (by rintro rfl; exact resize_nil _),
      ← refcountOf_bump_dropIfSome_iff (digest (List.replicate n.toNat 0)), and_comm, eq_comm]
    refine and_congr_left fun h => ?_
    rw [h]

end

section
variable {B : Blockset} {L : B.Laws} {s : Fs B} {f : Files} {i n : UInt64} {m : InodeMeta}

/-- The digest of the content of a file, if its manifest has one. -/
def Fs.block (s : Fs B) (i : UInt64) : Option Digest224 :=
  ((getManifest i s.store).1.toOption.getD []).head?

theorem Blockset.Laws.Views.block (hv : L.Views s f) (hc : L.NoCollision s.store.io) (i : UInt64) :
    s.block i = (f.core.content i).map L.digest := by
  rw [Fs.block, getManifest_eq hv.core hc, Contents.getManifest, Contents.content]
  rcases f.core.manifests[i]? with _ | _ | b <;> rfl

theorem Blockset.Laws.Views.committed_getD (hv : L.Views s f) (hc : L.NoCollision s.store.io)
    (i : UInt64) : (s.committed i).getD [] = (f.core.content i).getD [] := by
  rw [hv.committed hc, Contents.content]
  rcases f.core.manifests[i]? with _ | _ | b <;> rfl

/-- Two states have the same content, size and counts after a change of the size of a file. -/
def Fs.AgreeOn (s s' : Fs B) (i : UInt64) (b : Bytes) : Prop :=
  s.committed i = some b ∧ s'.committed i = some b ∧
    (s.inode i).map InodeMeta.size = (s'.inode i).map InodeMeta.size ∧
    ∀ d, s.refcount d = s'.refcount d

theorem Blockset.Laws.Views.agreeOn_iff {s' : Fs B} {f' : Files} (hv : L.Views s f)
    (hv' : L.Views s' f') (hc : L.NoCollision s.store.io) (hc' : L.NoCollision s'.store.io)
    {b b' : Bytes} {r r' : Map Digest224 UInt64} (h : f.Resized i n b r)
    (h' : f'.Resized i n b' r') :
    s.AgreeOn s' i b' ↔ b = b' ∧ ∀ d, refcountOf r d = refcountOf r' d := by
  unfold Fs.AgreeOn Fs.refcount
  rw [hv.committed hc, hv'.committed hc', h.content, h'.content, hv.inode hc, hv'.inode hc', h.size,
    h'.size, hv.core.refcounts, hv'.core.refcounts, h.refcounts, h'.refcounts]
  simp

/-- Truncation of a file through a handle that was just opened does what truncation without
a handle does exactly when the file has no content that is counted or kept. -/
theorem truncate_paths_agree_iff (hB : B.NoIoErrors) {overflowChecks : Bool}
    (hs : Mounted L overflowChecks s) (hm : s.inode i = some m) {flags : UInt32}
    (hwrite : isWriteOpen flags) (htrunc : flags &&& O_TRUNC = 0) {now now₁ now₂ now₃ : Now}
    {fh : UInt64} {s₁ s₂ s₃ s' : Fs B} (hopen : testOpen i flags now s = (.ok (fh, true), s₁))
    (hsize : (testSetattrSize i (some fh) n now₁ s₁).2 = s₂)
    (hrelease : (testRelease i fh now₂ s₂).2 = s₃)
    (hdirect : testSetattrSize i none n now₃ s = (.ok (), s'))
    (hc : L.NoCollision s₃.store.io) (hc' : L.NoCollision s'.store.io) :
    (testSetattrSize i (some fh) n now₁ s₁).1 = .ok () ∧ (testRelease i fh now₂ s₂).1 = .ok () ∧
    (s₃.AgreeOn s' i (resize 0 n.toNat ((s.committed i).getD [])) ↔
      ∀ d, s.block i = some d → (s.refcount d = 0 ∨ s.refcount d = u64Max) ∧
        if n = 0 then (s.committed i).getD [] = []
        else resize 0 n.toNat ((s.committed i).getD []) = List.replicate n.toNat 0) := by
  have hB := hB.reliable L
  have hle₃ := ((growing_testRelease (g := L.growthQuiet) i fh now₂).le_run s₂).1
  have hle₂ := ((growing_testSetattrSize (g := L.growthQuiet) i (some fh) n now₁).le_run s₁).1
  have hle₁ := ((growing_testOpen (g := L.growthQuiet) i flags now).le_run s).1
  rw [hrelease] at hle₃
  rw [hsize] at hle₂
  rw [hopen] at hle₁
  have hc₂ := hc.of_le hle₃
  have hc₁ := hc₂.of_le hle₂
  have hc₀ := hc₁.of_le hle₁
  obtain ⟨f, hv⟩ := hs.views hB hc₀
  rw [hv.inode hc₀] at hm
  have hi := (hv.core.inode i m hm).2.2
  have hn : n.toNat ≤ isizeMax := by
    by_contra hn
    have hpanic := wp_testSetattrSize_panic hB hv i none (not_le.mp hn) now₃
    unfold wp at hpanic
    rw [hdirect] at hpanic
    cases hpanic hc'
  -- the size is changed without a handle
  obtain ⟨-, hv'⟩ : _ ∧ L.Views s' (f.truncateCommitted L.digest i n now₃) := by
    have hnone : (none : Option UInt64).bind (fun j => f.handles[j]?) = none := rfl
    have hwp := wp_testSetattrSize_closed hB hv hnone hi hn now₃
    unfold wp at hwp
    rw [hdirect] at hwp
    exact hwp hc'
  -- the size is changed through the handle
  obtain ⟨-, rfl, hv₁⟩ := testOpen_views hB hv hi hwrite htrunc hopen hc₁
  have hfh : (f.insertHandle i).handles[f.nextFh + 1]? = some (.new i) := by
    simp [Files.insertHandle]
  have hwp₁ := wp_testSetattrSize_open hB hv₁ hfh hn now₁
  unfold wp at hwp₁
  rw [show (Handle.new i).ino = i from rfl, hsize] at hwp₁
  obtain ⟨hr₁, hv₂⟩ := hwp₁ hc₂
  have hinode : ((f.insertHandle i).truncate (f.nextFh + 1) (.new i) n now₁).core.inodes[i]? =
      some (({ m with size := n } : InodeMeta).setCtime now₁) :=
    Contents.modifyInode_self (by split_ifs <;> exact hm) _
  have hfh₂ : ((f.insertHandle i).truncate (f.nextFh + 1) (.new i) n now₁).handles[f.nextFh + 1]? =
      some ((Handle.new i).truncate n) := by
    simp [Files.truncate]
  have hwp₂ := wp_testRelease hB hv₂ hfh₂ now₂
  unfold wp at hwp₂
  rw [show ((Handle.new i).truncate n).ino = i from rfl, hrelease] at hwp₂
  obtain ⟨hr₂, hv₃⟩ := hwp₂ hc
  refine ⟨hr₁.trans ?_, hr₂.trans ?_, ?_⟩
  · have hlive : (f.insertHandle i).core.inodes[i]? = some m := hm
    rw [Files.commitResult, hlive]
    rfl
  · unfold Files.releaseResult Files.commitResult
    rw [show ((Handle.new i).truncate n).ino = i from rfl, hinode]
    split_ifs <;> rfl
  · have hopened := Files.resized_open L.digest (f.nextFh + 1) hm n now₁ now₂
    have hclosed := Files.resized_closed L.digest hm n now₃
    rw [hv.committed_getD hc₀, hv₃.agreeOn_iff hv' hc hc' hopened hclosed, hv.block hc₀]
    unfold Fs.refcount
    rw [hv.core.refcounts]
    exact resized_agree_iff L.digest f.core.refcounts (f.core.content i) n

end

/-- A file without content. -/
def emptyFileFs : Fs memoryBlockset :=
  (runFsOps [.create 1 nameA 0o644 0 0 0, .release 2 1 midnight] freshFs).get (by decide +kernel)

/-- A file opened, resized through the handle and closed. -/
def resizedThrough (s : Fs memoryBlockset) (n : UInt64) : Fs memoryBlockset :=
  (testRelease 2 2 midnight (testSetattrSize 2 (some 2) n midnight
    (testOpen 2 O_WRONLY midnight s).2).2).2

/-- A file resized without a handle. -/
def resizedDirect (s : Fs memoryBlockset) (n : UInt64) : Fs memoryBlockset :=
  (testSetattrSize 2 none n midnight s).2

theorem truncate_paths_agree_iff_empty :
    (resizedThrough emptyFileFs 2).AgreeOn (resizedDirect emptyFileFs 2) 2 [0, 0] := by
  have hs : Mounted memoryLaws true emptyFileFs :=
    (mounted_freshFs true).runFsOps (Option.some_get _).symm
  have hopen : testOpen 2 O_WRONLY midnight emptyFileFs =
      (.ok (2, true), (testOpen 2 O_WRONLY midnight emptyFileFs).2) :=
    Prog.eq_ok_of_toOption (by decide +kernel)
  have hdirect : testSetattrSize 2 none 2 midnight emptyFileFs =
      (.ok (), resizedDirect emptyFileFs 2) :=
    Prog.eq_ok_of_toOption (by decide +kernel)
  have hcontent : emptyFileFs.committed 2 = some [] := by decide +kernel
  have hblock : emptyFileFs.block 2 = none := by decide +kernel
  have hrelease : (testRelease 2 2 midnight (testSetattrSize 2 (some 2) 2 midnight
      (testOpen 2 O_WRONLY midnight emptyFileFs).2).2).2 = resizedThrough emptyFileFs 2 := rfl
  obtain ⟨-, -, hagree⟩ := truncate_paths_agree_iff memoryBlockset_noIoErrors hs
    (Option.some_get (by decide +kernel)).symm (.inl (by decide)) (by decide) hopen rfl hrelease
    hdirect (memoryLaws_noCollision (by decide +kernel))
    (memoryLaws_noCollision (by decide +kernel))
  rw [hcontent, hblock] at hagree
  exact hagree.mpr nofun

theorem truncate_through_handle_loses_content :
    Mounted memoryLaws true savedFs ∧ savedFs.Closed 2 ∧ savedFs.committed 2 = some [1, 2, 3] ∧
    (testOpen 2 O_WRONLY midnight savedFs).1.toOption = some (2, true) ∧
    (testSetattrSize 2 none 2 midnight savedFs).1.toOption = some () ∧
    (resizedDirect savedFs 2).committed 2 = some [1, 2] ∧
    (resizedThrough savedFs 2).committed 2 = some [0, 0] :=
  ⟨mounted_savedFs true, Fs.closed_of_isEmpty (by decide +kernel) 2, by decide +kernel,
    by decide +kernel, by decide +kernel, by decide +kernel, by decide +kernel⟩

end SliceFs
