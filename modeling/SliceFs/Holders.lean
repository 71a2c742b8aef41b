import SliceFs.Counting
import SliceFs.Setters

/-!
# Reference counts and the files that are counted

The count of a digest should be the number of live files whose manifest holds it. An
open handle that set a manifest holds the count in place of the file. The claimants of a
digest are the files that no open handle stands in for, and the handles.
-/
namespace SliceFs
open TreeMaps ProgramLogic ByteFile Counting

section
variable (refcounts : Map Digest224 UInt64) (d : Digest224)

def counts : ℕ := (refcountOf refcounts d).toNat

/-- The count that never changes again. -/
def fullCount : ℕ := u64Max.toNat

theorem counts_eq_fullCount : counts refcounts d = fullCount ↔ refcountOf refcounts d = u64Max :=
  UInt64.toNat_inj

theorem counts_bump : counts (bumpRefcount refcounts d) = bump fullCount (counts refcounts) d := by
  funext e
  unfold counts
  rw [refcountOf_bump]
  by_cases hcap : refcountOf refcounts d = u64Max
  · rw [if_neg fun h => h.2 hcap, bump, if_neg fun h => h.2 ((counts_eq_fullCount _ _).mpr hcap)]
  · have hcap' : counts refcounts d ≠ fullCount := fun h => hcap ((counts_eq_fullCount _ _).mp h)
    by_cases he : e = d
    · rw [if_pos ⟨he, hcap⟩, bump, if_pos ⟨he, hcap'⟩, toNat_add_one_of_ne_u64Max hcap]
    · rw [if_neg fun h => he h.1, bump, if_neg fun h => he h.1]

theorem counts_drop : counts (dropRefcount refcounts d) = drop fullCount (counts refcounts) d := by
  funext e
  unfold counts
  rw [refcountOf_drop]
  have hcap : counts refcounts d ≠ fullCount ↔ refcountOf refcounts d ≠ u64Max :=
    not_congr (counts_eq_fullCount _ _)
  have hzero : counts refcounts d ≠ 0 ↔ refcountOf refcounts d ≠ 0 :=
    not_congr (UInt64.toNat_inj (b := 0))
  unfold drop
  by_cases hd : e = d ∧ refcountOf refcounts d ≠ u64Max ∧ refcountOf refcounts d ≠ 0
  · rw [if_pos hd, if_pos ⟨hd.1, hcap.mpr hd.2.1, hzero.mpr hd.2.2⟩]
    have hpos : (refcountOf refcounts d).toNat ≠ 0 := hzero.mpr hd.2.2
    have hle : (1 : UInt64) ≤ refcountOf refcounts d := by
      rw [UInt64.le_iff_toNat_le, UInt64.toNat_one]
      omega
    rw [UInt64.toNat_sub_of_le _ _ hle]
    rfl
  · rw [if_neg hd, if_neg fun h => hd ⟨h.1, hcap.mp h.2.1, hzero.mp h.2.2⟩]

end

section
variable (digest : Bytes → Digest224) (own : Setters) (f : Files)

/-- The live files with a digest that no open handle set, and the handles that count it. -/
def Files.claims (d : Digest224) : Set (UInt64 ⊕ UInt64) :=
  {x | x.elim
    (fun i => f.core.inodes[i]? ≠ none ∧ (f.core.content i).map digest = some d ∧
      held f.status own i = false)
    fun fh => (f.handles[fh]?).bind Handle.last = some d}

def Files.Covered : Prop := Covers fullCount (counts f.core.refcounts) (f.claims digest own)

variable {digest own f} {f' : Files} {own' : Setters} {d : Digest224} {i fh : UInt64} {h : Handle}

theorem Files.inl_mem_claims : Sum.inl i ∈ f.claims digest own d ↔ f.core.inodes[i]? ≠ none ∧
    (f.core.content i).map digest = some d ∧ held f.status own i = false := .rfl

theorem Files.inr_mem_claims : Sum.inr fh ∈ f.claims digest own d ↔
    (f.handles[fh]?).bind Handle.last = some d := .rfl

/-- Fewer claims: no new files or contents, no new counts of handles. -/
theorem Files.claims_subset
    (hfile : ∀ i : UInt64, f'.core.inodes[i]? ≠ none → held f'.status own' i = false →
      f'.core.content i ≠ none → f.core.inodes[i]? ≠ none ∧ held f.status own i = false ∧
        f'.core.content i = f.core.content i)
    (hhandle : ∀ (k : UInt64) (e : Digest224), (f'.handles[k]?).bind Handle.last = some e →
      (f.handles[k]?).bind Handle.last = some e) (d : Digest224) :
    f'.claims digest own' d ⊆ f.claims digest own d := by
  rintro (i | k) hx
  · obtain ⟨hlive, hd, hheld⟩ := inl_mem_claims.mp hx
    have hsome : f'.core.content i ≠ none := by
      intro hnone
      rw [hnone] at hd
      cases hd
    obtain ⟨hlive', hheld', hcontent⟩ := hfile i hlive hheld hsome
    exact inl_mem_claims.mpr ⟨hlive', by rw [← hcontent]; exact hd, hheld'⟩
  · exact hhandle k d hx

theorem held_congr {status status' : UInt64 → Option HandleStatus}
    (h : ∀ fh, own i = some fh → (status' fh).isSome = (status fh).isSome) :
    held status' own i = held status own i := by
  unfold held
  cases hown : own i with
  | none => rfl
  | some fh => exact h fh hown

theorem Files.isSome_status (f : Files) (fh : UInt64) :
    (f.status fh).isSome = (f.handles[fh]?).isSome := Option.isSome_map

/-- The same handles are open after one was replaced. -/
theorem Files.isSome_status_insert (hfh : f.handles[fh]? = some h) {c : Contents} {h' : Handle}
    {n : UInt64} (k : UInt64) :
    ((⟨c, f.handles.insert fh h', n⟩ : Files).status k).isSome = (f.status k).isSome := by
  rw [isSome_status, isSome_status, getElem?_insert_ite]
  split_ifs with hk
  · rw [hk, hfh]
    rfl
  · rfl

theorem Files.bind_last_insert {c : Contents} {h' : Handle} {n : UInt64} (k : UInt64) :
    ((⟨c, f.handles.insert fh h', n⟩ : Files).handles[k]?).bind Handle.last =
      if k = fh then h'.last else (f.handles[k]?).bind Handle.last := by
  show ((f.handles.insert fh h')[k]?).bind Handle.last = _
  rw [getElem?_insert_ite]
  split_ifs <;> rfl

/-- The counts without the one that a handle gives up. -/
theorem Covers.dropIfSome {refcounts : Map Digest224 UInt64} {X : Type} [Finite X]
    {claims claims' : Digest224 → Set X} {x : X} (h : Covers fullCount (counts refcounts) claims)
    {old : Option Digest224} (hsub : ∀ e, claims' e ⊆ claims e)
    (hx : ∀ l, old = some l → x ∈ claims l ∧ x ∉ claims' l) :
    Covers fullCount (counts (SliceFs.dropIfSome refcounts old)) claims' := by
  cases old with
  | none => exact h.mono hsub
  | some l =>
      rw [SliceFs.dropIfSome, counts_drop]
      exact h.drop hsub (hx l rfl).1 (hx l rfl).2

/-- One count passes from the digest a claimant had to another. -/
theorem Covers.recount {refcounts : Map Digest224 UInt64} {X : Type} [Finite X]
    {claims claims' : Digest224 → Set X} {x : X} (h : Covers fullCount (counts refcounts) claims)
    {old : Option Digest224} {new : Digest224} (hold : ∀ l, old = some l → x ∈ claims l)
    (hsub : ∀ e, claims' e \ {x} ⊆ claims e) (hnew : ∀ e, x ∈ claims' e → e = new) :
    Covers fullCount (counts (SliceFs.recount refcounts old new)) claims' := by
  have hmem : ∀ e y, y ∈ claims' e → y = x ∨ y ∈ claims e \ {x} := by
    intro e y hy
    by_cases hyx : y = x
    · exact .inl hyx
    · exact .inr ⟨hsub e ⟨hy, hyx⟩, hyx⟩
  unfold SliceFs.recount
  split_ifs with hsame
  · refine h.mono fun e y hy => ?_
    rcases hmem e y hy with rfl | hy'
    · rw [hnew e hy]
      exact hold new hsame
    · exact hy'.1
  · have hdrop : Covers fullCount (counts (SliceFs.dropIfSome refcounts old))
        fun e => claims e \ {x} :=
      Covers.dropIfSome (x := x) h (fun e => Set.sdiff_subset) fun l hl =>
        ⟨hold l hl, fun hx => hx.2 rfl⟩
    rw [counts_bump]
    refine hdrop.bump (x := x) (fun e he y hy => ?_) fun y hy => ?_
    · rcases hmem e y hy with rfl | hy'
      · exact absurd (hnew e hy) he
      · exact hy'
    · exact (hmem new y hy).imp_right id

/-- A handle keeps its count or gives it up; files stay as they are. -/
theorem Files.Covered.replace (hcov : f.Covered digest own) (hfh : f.handles[fh]? = some h)
    {c : Contents} {h' : Handle} {n : UInt64}
    (hlive : ∀ j : UInt64, c.inodes[j]? ≠ none → f.core.inodes[j]? ≠ none)
    (hcontent : ∀ j, c.content j = f.core.content j)
    (hcount : h'.last = h.last ∧ c.refcounts = f.core.refcounts ∨
      h'.last = none ∧ c.refcounts = dropIfSome f.core.refcounts h.last) :
    (⟨c, f.handles.insert fh h', n⟩ : Files).Covered digest own := by
  have hlast : (f.handles[fh]?).bind Handle.last = h.last := by rw [hfh]; rfl
  have hsub : ∀ e, (⟨c, f.handles.insert fh h', n⟩ : Files).claims digest own e ⊆
      f.claims digest own e := by
    refine claims_subset (fun j hj hheld _ => ⟨hlive j hj, ?_, hcontent j⟩) fun k e hk => ?_
    · rw [← hheld]
      exact held_congr fun k _ => (isSome_status_insert hfh k).symm
    · rw [bind_last_insert] at hk
      split_ifs at hk with hkf
      · rcases hcount with ⟨hsame, -⟩ | ⟨hnone, -⟩
        · rw [hkf, hlast, ← hsame]
          exact hk
        · rw [hnone] at hk
          cases hk
      · exact hk
  show Covers fullCount (counts c.refcounts) _
  rcases hcount with ⟨-, hrefs⟩ | ⟨hnone, hrefs⟩
  · rw [hrefs]
    exact hcov.mono hsub
  · rw [hrefs]
    refine Covers.dropIfSome (x := Sum.inr fh) hcov hsub fun l hl => ⟨?_, ?_⟩
    · rw [inr_mem_claims, hlast, hl]
    · rw [inr_mem_claims, bind_last_insert, if_pos rfl, hnone]
      nofun

theorem Files.Covered.write (hcov : f.Covered digest own) (hfh : f.handles[fh]? = some h)
    (offset : ℕ) (data : Bytes) : (f.write fh h offset data).Covered digest own := by
  refine hcov.replace hfh (fun j hj => ?_) (fun j => ?_) ?_
  · split_ifs at hj <;> exact hj
  · split_ifs <;> rfl
  · rw [h.last_write]
    split_ifs
    · exact .inr ⟨rfl, rfl⟩
    · exact .inl ⟨rfl, rfl⟩

theorem Contents.inodes_modifyInode_ne_none (c : Contents) (i j : UInt64)
    (change : InodeMeta → InodeMeta) :
    (c.modifyInode i change).inodes[j]? ≠ none ↔ c.inodes[j]? ≠ none := by
  by_cases hj : j = i
  · subst hj
    cases hm : c.inodes[j]? with
    | none => rw [Contents.modifyInode, hm, hm]
    | some m => simp [Contents.modifyInode_self hm]
  · rw [Contents.inodes_modifyInode_of_ne c hj]

theorem Files.Covered.truncate (hcov : f.Covered digest own) (hfh : f.handles[fh]? = some h)
    (n : UInt64) (now : Now) : (f.truncate fh h n now).Covered digest own := by
  refine hcov.replace hfh (fun j hj => ?_) (fun j => ?_) ?_
  · rw [Contents.setSize, Contents.inodes_modifyInode_ne_none] at hj
    split_ifs at hj <;> exact hj
  · rw [Contents.setSize, Contents.content_modifyInode]
    split_ifs <;> rfl
  · rw [Contents.setSize, Contents.refcounts_modifyInode, Handle.truncate]
    split_ifs
    · exact .inr ⟨rfl, rfl⟩
    · exact .inl ⟨rfl, rfl⟩

/-- A commit passes the count of the handle on, and the handle stands in for the file. -/
theorem Files.Covered.flush (hcov : f.Covered digest own) (hfh : f.handles[fh]? = some h)
    (hne : h.content ≠ []) (now : Now) :
    (f.flush digest fh h now).Covered digest (Function.update own h.ino (some fh)) := by
  rw [Files.flush, if_neg hne]
  show Covers fullCount (counts _) _
  rw [Contents.refcounts_modifyInode]
  refine Covers.recount (x := Sum.inr fh) hcov (fun l hl => ?_) (fun e => ?_) fun e he => ?_
  · rw [inr_mem_claims, hfh]
    exact hl
  · rintro (j | k) ⟨hx, hxf⟩
    · obtain ⟨hlive, hd, hheld⟩ := inl_mem_claims.mp hx
      have hj : j ≠ h.ino := by
        rintro rfl
        rw [held, Function.update_self] at hheld
        have hopen := isSome_status f fh
        rw [hfh] at hopen
        exact Bool.false_ne_true (hheld.symm.trans ((isSome_status_insert hfh fh).trans hopen))
      rw [Contents.inodes_modifyInode_ne_none] at hlive
      rw [Contents.content_modifyInode, Contents.content, Contents.manifests_record_of_ne _ hj]
        at hd
      refine inl_mem_claims.mpr ⟨hlive, hd, ?_⟩
      rw [held, Function.update_of_ne hj] at hheld
      rw [← hheld]
      exact held_congr fun k _ => (isSome_status_insert hfh k).symm
    · rw [inr_mem_claims, bind_last_insert, if_neg fun hk => hxf (congrArg Sum.inr hk)] at hx
      exact hx
  · rw [inr_mem_claims, bind_last_insert, if_pos rfl] at he
    exact (Option.some.inj he).symm

theorem Files.Covered.flushed (hcov : f.Covered digest own) (hfh : f.handles[fh]? = some h)
    (now : Now) : (f.flush digest fh h now).Covered digest
      ((FsOp.flush h.ino fh now).setters f.status own) := by
  rcases Files.flush_cases digest hfh own now with ⟨-, hf, hown⟩ | ⟨hne, hown⟩
  · rw [hf, hown]
    exact hcov
  · rw [hown]
    exact hcov.flush hfh hne now

/-- An inode that is no longer held after a handle was closed was set through it. -/
theorem held_erase {c : Contents} {n : UInt64}
    (hheld : held (⟨c, f.handles.erase fh, n⟩ : Files).status own i = false) :
    held f.status own i = false ∨ own i = some fh := by
  unfold held at hheld ⊢
  cases hown : own i with
  | none => exact .inl rfl
  | some k =>
      by_cases hk : k = fh
      · exact .inr (congrArg some hk)
      · refine .inl ?_
        rw [hown] at hheld
        rw [← hheld]
        show (f.status k).isSome = (Files.status _ k).isSome
        rw [Files.isSome_status, Files.isSome_status, getElem?_erase_ite, if_neg hk]

theorem Files.bind_last_erase {c : Contents} {n : UInt64} (k : UInt64) :
    ((⟨c, f.handles.erase fh, n⟩ : Files).handles[k]?).bind Handle.last =
      if k = fh then none else (f.handles[k]?).bind Handle.last := by
  show ((f.handles.erase fh)[k]?).bind Handle.last = _
  rw [getElem?_erase_ite]
  split_ifs <;> rfl

/-- The release of a handle that committed its bytes passes its count to the file. -/
theorem Files.Covered.releaseCommitted (hcov : f.Covered digest own) (hs : f.Signed digest own)
    (hfh : f.handles[fh]? = some h) (hne : h.content ≠ []) (hcommitted : h.committed = true)
    (now : Now) : (f.release digest fh h now).Covered digest own := by
  have hlast := (hs.regular fh h hfh).committed hcommitted
  rw [Files.release, Files.releasedCore, if_neg hne, if_pos ⟨hlast, hcommitted⟩]
  have hclaim : Sum.inr fh ∈ f.claims digest own (digest h.content) := by
    rw [inr_mem_claims, hfh]
    exact hlast
  -- what the file claims now is the digest that the handle counted
  have hfile : ∀ e j, Sum.inl j ∈
      (⟨f.core, f.handles.erase fh, f.nextFh⟩ : Files).claims digest own e →
      Sum.inl j ∈ f.claims digest own e ∨ j = h.ino ∧ e = digest h.content := by
    intro e j hx
    obtain ⟨hlive, hd, hheld⟩ := inl_mem_claims.mp hx
    rcases held_erase hheld with hheld | hown
    · exact .inl (inl_mem_claims.mpr ⟨hlive, hd, hheld⟩)
    · obtain ⟨hj, b, hb, hcount⟩ := hs.setter j fh h hown hfh
      have hdb : digest b = digest h.content := by
        rcases hcount with hcount | hcount
        · exact Option.some.inj (hcount.symm.trans hlast)
        · rw [hlast] at hcount
          cases hcount
      have hd' : (f.core.content j).map digest = some e := hd
      rw [hb] at hd'
      exact .inr ⟨hj.symm, (Option.some.inj hd').symm.trans hdb⟩
  have hhandle : ∀ e k, Sum.inr k ∈
      (⟨f.core, f.handles.erase fh, f.nextFh⟩ : Files).claims digest own e →
      k ≠ fh ∧ Sum.inr k ∈ f.claims digest own e := by
    intro e k hx
    rw [inr_mem_claims, bind_last_erase] at hx
    split_ifs at hx with hk
    exact ⟨hk, hx⟩
  refine hcov.move (y := Sum.inl h.ino) (fun e he => ?_) hclaim ?_
  · rintro (j | k) hx
    · exact (hfile e j hx).resolve_right fun h => he h.2
    · exact (hhandle e k hx).2
  · rintro (j | k) hx
    · rcases hfile _ j hx with hj | ⟨rfl, -⟩
      · exact .inr ⟨hj, Sum.inl_ne_inr⟩
      · exact .inl rfl
    · obtain ⟨hk, hmem⟩ := hhandle _ k hx
      exact .inr ⟨hmem, fun h => hk (Sum.inr.inj h)⟩

/-- A handle without bytes may be closed unless its file still has what it committed. -/
theorem Files.Covered.releaseEmpty (hcov : f.Covered digest own) (hs : f.Signed digest own)
    (hfh : f.handles[fh]? = some h) (hnil : h.content = [])
    (hown : f.core.inodes[h.ino]? ≠ none → own h.ino ≠ some fh) (now : Now) :
    (f.release digest fh h now).Covered digest own := by
  obtain ⟨hinodes, hrefs, hcontent⟩ := hs.releasedCore hfh (.inl hnil) now
  show Covers fullCount (counts (f.releasedCore digest h now).refcounts) _
  rw [hrefs]
  refine hcov.mono (claims_subset (fun j hlive hheld _ => ?_) fun k e hk => ?_)
  · have hlive' : f.core.inodes[j]? ≠ none := by
      rw [← hinodes]
      exact hlive
    refine ⟨hlive', (held_erase hheld).resolve_right fun hset => ?_, hcontent j⟩
    obtain ⟨rfl, -⟩ := hs.setter j fh h hset hfh
    exact hown hlive' hset
  · have hk' : (if k = fh then none else (f.handles[k]?).bind Handle.last) = some e :=
      (bind_last_erase (c := f.core) (n := f.nextFh) k).symm.trans hk
    split_ifs at hk'
    exact hk'

/-- What a truncation without a handle leaves of the contents and the counts. -/
theorem Contents.resizeContent_cases (digest : Bytes → Digest224) (c : Contents) (i n : UInt64) :
    ((c.resizeContent digest i n).content i = none ∧ (c.resizeContent digest i n).refcounts =
        dropIfSome c.refcounts ((c.content i).map digest)) ∨
    ∃ b, (c.resizeContent digest i n).content i = some b ∧ n ≠ 0 ∧
      (c.resizeContent digest i n).refcounts =
        bumpRefcount (dropIfSome c.refcounts ((c.content i).map digest)) (digest b) := by
  rw [Contents.resizeContent]
  split_ifs with hnil
  · refine .inl ⟨?_, rfl⟩
    rw [Contents.content, Contents.setContent, getElem?_insert_ite, if_pos rfl]
    rfl
  · refine .inr ⟨_, ?_, ?_, rfl⟩
    · rw [Contents.content, Contents.increment, Contents.setContent, getElem?_insert_ite,
        if_pos rfl]
      rfl
    · rintro rfl
      exact hnil (resize_zero 0 _)

/-- The files other than the one that is truncated. -/
theorem Files.inl_mem_claims_truncateCommitted {n : UInt64} {now : Now} {j : UInt64} (hj : j ≠ i) :
    Sum.inl j ∈ (f.truncateCommitted digest i n now).claims digest (Function.update own i none) d ↔
      Sum.inl j ∈ f.claims digest own d := by
  have hsame := f.sameOff_truncateCommitted digest i n now
  rw [inl_mem_claims, inl_mem_claims, hsame.inodes j hj, Contents.content, hsame.manifests j hj,
    held, Function.update_of_ne hj]
  rfl

theorem Files.Covered.truncateCommitted (hcov : f.Covered digest own) (i n : UInt64) (now : Now)
    (hcond : f.core.content i ≠ none → f.core.inodes[i]? ≠ none ∧ held f.status own i = false) :
    (f.truncateCommitted digest i n now).Covered digest (Function.update own i none) := by
  have hdrop : Covers fullCount
      (counts (dropIfSome f.core.refcounts ((f.core.content i).map digest)))
      fun e => f.claims digest own e \ {Sum.inl i} := by
    refine Covers.dropIfSome (x := Sum.inl i) hcov (fun e => Set.sdiff_subset) fun l hl =>
      ⟨?_, fun hx => hx.2 rfl⟩
    have hsome : f.core.content i ≠ none := by
      intro hnone
      rw [hnone] at hl
      cases hl
    exact inl_mem_claims.mpr ⟨(hcond hsome).1, hl, (hcond hsome).2⟩
  have hcontent : (f.truncateCommitted digest i n now).core.content i =
      (f.core.resizeContent digest i n).content i := by
    rw [Files.truncateCommitted, Contents.setSize, Contents.content_modifyInode]
  -- what is claimed by others was claimed before
  have hothers : ∀ e x, x ∈ (f.truncateCommitted digest i n now).claims digest
      (Function.update own i none) e → x ≠ Sum.inl i → x ∈ f.claims digest own e \ {Sum.inl i} := by
    rintro e (j | k) hx hne
    · have hj : j ≠ i := fun hj => hne (congrArg Sum.inl hj)
      exact ⟨(inl_mem_claims_truncateCommitted hj).mp hx, hne⟩
    · exact ⟨hx, hne⟩
  have hcounts : (f.truncateCommitted digest i n now).core.refcounts =
      (f.core.resizeContent digest i n).refcounts := Contents.refcounts_modifyInode ..
  unfold Files.Covered
  rw [hcounts]
  rcases f.core.resizeContent_cases digest i n with ⟨hnone, hrefs⟩ | ⟨b, hb, -, hrefs⟩
  · rw [hrefs]
    refine hdrop.mono fun e x hx => hothers e x hx ?_
    rintro rfl
    have hd := (inl_mem_claims.mp hx).2.1
    rw [hcontent, hnone] at hd
    cases hd
  · rw [hrefs, counts_bump]
    refine hdrop.bump (x := Sum.inl i) (fun e he x hx => hothers e x hx ?_) fun x hx => ?_
    · rintro rfl
      have hd := (inl_mem_claims.mp hx).2.1
      rw [hcontent, hb] at hd
      exact he (Option.some.inj hd).symm
    · by_cases hxi : x = Sum.inl i
      · exact .inl hxi
      · exact .inr (hothers _ x hx hxi)

/-- Files lose attributes and inodes, or gain empty ones. -/
theorem Files.Covered.tweak (hcov : f.Covered digest own) (hw : f.Wf) {c c' : Contents}
    (htweak : c.Tweak c') (hrefs : c.refcounts = f.core.refcounts)
    (hsub : ∀ j : UInt64, c.inodes[j]? ≠ none → f.core.inodes[j]? ≠ none)
    (hnext : c.nextIno = f.core.nextIno) (hcontent : ∀ j, c.content j = f.core.content j) :
    ({ f with core := c' } : Files).Covered digest own := by
  show Covers fullCount (counts c'.refcounts) _
  rw [htweak.refcounts, hrefs]
  refine hcov.mono (claims_subset (fun j hlive hheld hsome => ⟨?_, hheld, ?_⟩) fun _ _ hk => hk)
  · obtain ⟨m, hm⟩ := Option.ne_none_iff_exists'.mp hlive
    rcases htweak.inode hm with ⟨n, hn, -, -⟩ | ⟨hle, -⟩
    · exact hsub j (by rw [hn]; nofun)
    · refine absurd ?_ hsome
      show c'.content j = none
      rw [htweak.content, hcontent, hw.content_fresh j (hnext ▸ hle)]
  · exact (htweak.content j).trans (hcontent j)

/-- The file that is removed may not be held. -/
theorem Files.Covered.edit (hcov : f.Covered digest own) (hw : f.Wf) {removed : Option UInt64}
    {c : Contents} (hedit : f.core.Edit digest removed c)
    (hcond : ∀ i, removed = some i → held f.status own i = false) :
    ({ f with core := c } : Files).Covered digest own := by
  cases hedit with
  | tweak htweak => exact hcov.tweak hw htweak rfl (fun _ h => h) rfl fun _ => rfl
  | @delete i m hi hm htweak =>
      have hdead : ∀ j : UInt64, (f.core.deleteFile digest i).inodes[j]? ≠ none →
          j ≠ i ∧ f.core.inodes[j]? ≠ none := by
        intro j hj
        rw [Contents.deleteFile, Contents.removeInode, getElem?_erase_ite] at hj
        split_ifs at hj with hji
        · exact absurd rfl hj
        · exact ⟨hji, hj⟩
      have hlive : f.core.inodes[i]? ≠ none := by
        rw [hm]
        exact Option.some_ne_none m
      have hdeleted : ({ f with core := f.core.deleteFile digest i } : Files).Covered digest
        own := by
        refine Covers.dropIfSome (x := Sum.inl i) hcov
          (claims_subset (fun j hj hheld _ => ⟨(hdead j hj).2, hheld, rfl⟩) fun _ _ hk => hk)
          fun l hl => ⟨inl_mem_claims.mpr ⟨hlive, hl, hcond i hi⟩, fun hx => ?_⟩
        exact (hdead i (inl_mem_claims.mp hx).1).1 rfl
      have hw' : ({ f with core := f.core.deleteFile digest i } : Files).Wf :=
        ⟨hw.known, hw.length_le, hw.content_fresh, fun j hj => by
          by_contra hlive'
          exact (hdead j hlive').2 (hw.inode_fresh j hj)⟩
      exact hdeleted.tweak hw' htweak rfl (fun _ h => h) rfl fun _ => rfl

theorem Files.Covered.insertHandle (hcov : f.Covered digest own) (hs : f.Signed digest own)
    (hmax : f.nextFh ≠ u64Max) (i : UInt64) : (f.insertHandle i).Covered digest own := by
  refine hcov.mono (claims_subset (fun j hlive hheld _ => ⟨hlive, ?_, rfl⟩) fun k e hk => ?_)
  · rw [← hheld]
    refine held_congr fun k hown => ?_
    have hk : k ≠ f.nextFh + 1 := by
      rintro rfl
      exact absurd (hs.known j _ hown) (UInt64.not_le.mpr (lt_add_one_of_ne_u64Max hmax))
    rw [isSome_status, isSome_status, Files.insertHandle, getElem?_insert_ite, if_neg hk]
  · have hk' : (if k = f.nextFh + 1 then (Handle.new i).last
        else (f.handles[k]?).bind Handle.last) = some e := by
      rw [← hk]
      exact (bind_last_insert (c := f.core) (n := f.nextFh + 1) k).symm
    split_ifs at hk'
    · have hnone : (none : Option Digest224) = some e := hk'
      cases hnone
    · exact hk'

theorem Files.Covered.opened (hcov : f.Covered digest own) (hs : f.Signed digest own)
    (hmax : f.nextFh ≠ u64Max) (i : UInt64) (flags : UInt32) (now : Now) :
    (f.opened i flags now).Covered digest own := by
  have hinserted := hcov.insertHandle hs hmax i
  unfold Files.opened
  split_ifs
  · exact hinserted
  · exact hcov
  · refine hinserted.truncate ?_ 0 now
    rw [Files.insertHandle, getElem?_insert_ite, if_pos rfl]
  · exact hcov

theorem Files.Covered.addSymlink (hcov : f.Covered digest own) (hw : f.Wf)
    (hmax : f.core.nextIno ≠ u64Max) {m : InodeMeta} {b : Bytes} {c : Contents}
    (htweak : (f.core.addSymlink digest m b).Tweak c) :
    ({ f with core := c } : Files).Covered digest own := by
  have hlt := lt_add_one_of_ne_u64Max hmax
  have hcontent : ∀ j, (f.core.addSymlink digest m b).content j =
      if j = f.core.nextIno then some b else f.core.content j := by
    intro j
    rw [Contents.content, Contents.addSymlink, Contents.increment, Contents.setContent,
      getElem?_insert_ite]
    split_ifs <;> rfl
  have hinodes : ∀ j : UInt64, j ≠ f.core.nextIno →
      (f.core.addSymlink digest m b).inodes[j]? = f.core.inodes[j]? := by
    intro j hj
    rw [Contents.addSymlink, Contents.increment, Contents.setContent, Contents.addInode,
      getElem?_insert_ite, if_neg hj]
  have hlinked : ({ f with core := f.core.addSymlink digest m b } : Files).Covered digest own := by
    show Covers fullCount (counts (bumpRefcount f.core.refcounts (digest b))) _
    rw [counts_bump]
    have hfile : ∀ e x, x ∈ ({ f with core := f.core.addSymlink digest m b } : Files).claims digest
        own e → x ∈ f.claims digest own e ∨ x = Sum.inl f.core.nextIno ∧ e = digest b := by
      rintro e (j | k) hx
      · obtain ⟨hlive, hd, hheld⟩ := inl_mem_claims.mp hx
        rw [hcontent] at hd
        split_ifs at hd with hj
        · exact .inr ⟨congrArg Sum.inl hj, (Option.some.inj hd).symm⟩
        · rw [hinodes j hj] at hlive
          exact .inl (inl_mem_claims.mpr ⟨hlive, hd, hheld⟩)
      · exact .inl hx
    exact hcov.bump (fun e he x hx => (hfile e x hx).resolve_right fun h => he h.2)
      fun x hx => (hfile _ x hx).elim .inr fun h => .inl h.1
  have hw' : ({ f with core := f.core.addSymlink digest m b } : Files).Wf := by
    refine ⟨fun k hd hk => ⟨(hw.known k hd hk).1, UInt64.lt_trans (hw.known k hd hk).2 hlt⟩,
      hw.length_le, fun j hj => ?_, fun j hj => ?_⟩
    · have hj' := UInt64.lt_of_lt_of_le hlt hj
      rw [hcontent, if_neg (UInt64.ne_of_lt hj').symm]
      exact hw.content_fresh j (UInt64.le_of_lt hj')
    · have hj' := UInt64.lt_of_lt_of_le hlt hj
      rw [hinodes j (UInt64.ne_of_lt hj').symm]
      exact hw.inode_fresh j (UInt64.le_of_lt hj')
  exact hlinked.tweak hw' htweak rfl (fun _ h => h) rfl fun _ => rfl

/-- Every request keeps the counts covered, unless it gives up a count that an open handle
holds for a file, or one that nothing holds. -/
theorem FsOp.Effect.covered {removed : Option UInt64} {op : FsOp}
    (he : FsOp.Effect digest removed op f f') (hw : f.Wf) (hs : f.Signed digest own)
    (hcov : f.Covered digest own)
    (hrelease : ∀ (k : UInt64) (now : Now) (hd : Handle), op = .release hd.ino k now →
      f.handles[k]? = some hd → hd.content = [] → f.core.inodes[hd.ino]? ≠ none →
      own hd.ino ≠ some k)
    (htruncate : ∀ (i : UInt64) (k : Option UInt64) (n : UInt64) (now : Now),
      op = .truncate i k n now → k.bind (fun j => f.handles[j]?) = none →
      f.core.content i ≠ none → f.core.inodes[i]? ≠ none ∧ held f.status own i = false)
    (hremoved : ∀ i, removed = some i → held f.status own i = false) :
    f'.Covered digest (op.setters f.status own) := by
  cases he with
  | edit hop h =>
      rw [FsOp.setters_of_not_onContent hop]
      exact hcov.edit hw h hremoved
  | closed hop hfh =>
      rw [FsOp.setters_of_closed hop (Files.status_eq_none hfh)]
      exact hcov
  | create hi hmax hsize =>
      have hadded := hcov.tweak hw (.add _ (.refl f.core) hi hsize) rfl (fun _ h => h) rfl
        fun _ => rfl
      exact hadded.insertHandle (hs.core fun _ _ _ _ _ => rfl) hmax _
  | symlink hmax _ h => exact hcov.addSymlink hw hmax h
  | rmdir _ _ h =>
      refine hcov.tweak hw h rfl (fun j hj => ?_) rfl fun _ => rfl
      rw [Contents.removeInode, getElem?_erase_ite] at hj
      split_ifs at hj
      · exact absurd rfl hj
      · exact hj
  | openFile hmax _ => exact hcov.opened hs hmax _ _ _
  | write hfh => exact hcov.write hfh _ _
  | truncate hfh =>
      rw [FsOp.setters, Option.bind_some, Files.status_eq_some hfh]
      exact hcov.truncate hfh _ _
  | truncateCommitted _ hnone =>
      rw [FsOp.setters_truncate_none hnone]
      exact hcov.truncateCommitted _ _ _ (htruncate _ _ _ _ rfl hnone)
  | flush hfh => exact hcov.flushed hfh _
  | fsync hfh => exact hcov.flushed hfh _
  | @release _ now _ h hfh =>
      rcases Files.release_cases hfh own now with ⟨hdone, hown⟩ | ⟨hne, hopen, hown⟩
      · rw [hown]
        by_cases hnil : h.content = []
        · exact hcov.releaseEmpty hs hfh hnil (hrelease _ now h rfl hfh hnil) now
        · exact hcov.releaseCommitted hs hfh hnil (hdone.resolve_left hnil) now
      · rw [hown, Files.release_eq_flush hne hopen]
        exact (hcov.flush hfh hne now).releaseCommitted (hs.flush hw hfh hne now)
          (Files.getElem?_flush hne now) hne rfl now

end

section
variable {B : Blockset} {L : B.Laws} {s : Fs B} {f : Files} {d : Digest224} {own : Setters}

/-- The live files whose manifest holds a digest. -/
def Fs.holders (s : Fs B) (d : Digest224) : List UInt64 :=
  s.store.maps.inodeData.keys.filter fun i => d ∈ (getManifest i s.store).1.toOption.getD []

theorem Blockset.Laws.Views.mem_holders (hv : L.Views s f) (hc : L.NoCollision s.store.io)
    {i : UInt64} : i ∈ s.holders d ↔
      f.core.inodes[i]? ≠ none ∧ (f.core.content i).map L.digest = some d := by
  have hlive : i ∈ s.store.maps.inodeData.keys ↔ f.core.inodes[i]? ≠ none := by
    rw [Std.ExtTreeMap.mem_keys, Std.ExtTreeMap.mem_iff_isSome_getElem?, hv.core.inodes,
      Option.isSome_map, Option.isSome_iff_ne_none]
  have hmem : d ∈ (getManifest i s.store).1.toOption.getD [] ↔
      (f.core.content i).map L.digest = some d := by
    rw [getManifest_eq hv.core hc, Contents.getManifest, Contents.content]
    rcases f.core.manifests[i]? with _ | _ | b
    · simp [Except.toOption]
    · simp [Except.toOption]
    · simp [Except.toOption, eq_comm]
  rw [Fs.holders, List.mem_filter, hlive, decide_eq_true_iff, hmem]

theorem Fs.nodup_holders (s : Fs B) (d : Digest224) : (s.holders d).Nodup :=
  (Std.ExtTreeMap.nodup_keys).filter _

/-- A list of different numbers below a bound is no longer than the bound. -/
theorem length_le_of_nodup_lt {l : List UInt64} (hl : l.Nodup) {n : UInt64} (hlt : ∀ i ∈ l, i < n) :
    l.length ≤ n.toNat := by
  have hnodup : (l.map UInt64.toNat).Nodup := hl.map fun _ _ h => UInt64.toNat_inj.mp h
  have hsub : (l.map UInt64.toNat) ⊆ List.range n.toNat := by
    intro k hk
    obtain ⟨i, hi, rfl⟩ := List.mem_map.mp hk
    exact List.mem_range.mpr (UInt64.lt_iff_toNat_lt.mp (hlt i hi))
  have hle := (hnodup.subperm hsub).length_le
  rwa [List.length_map, List.length_range] at hle

theorem Blockset.Laws.Views.length_holders_le (hv : L.Views s f) (hc : L.NoCollision s.store.io)
    (d : Digest224) : (s.holders d).length ≤ fullCount := by
  have hlt : ∀ i ∈ s.holders d, i < f.core.nextIno := by
    intro i hi
    obtain ⟨m, hm⟩ := Option.ne_none_iff_exists'.mp ((hv.mem_holders hc).mp hi).1
    exact (hv.core.inode i m hm).2.2
  have hmax : f.core.nextIno.toNat ≤ fullCount := Nat.le_of_lt_succ f.core.nextIno.toNat_lt
  exact (length_le_of_nodup_lt (s.nodup_holders d) hlt).trans hmax

/-- What makes counts too small: a release of a handle without bytes that set the manifest
of a live file; the removal of a file whose manifest an open handle set; and a truncation
without a handle of a file with such a manifest, or of a removed one. -/
def FsOp.SparesCounts (s : Fs B) (own : Setters) : FsOp → Prop
  | release ino fh _ => ((s.status fh).any fun h => !h.written) = true →
      (s.inode ino).isSome = true → own ino ≠ some fh
  | truncate ino fh _ _ => (fh.bind s.status).isNone = true → (s.block ino).isSome = true →
      (s.inode ino).isSome = true ∧ held s.status own ino = false
  | op => ∀ i ∈ s.removedBy op, held s.status own i = false

instance (s : Fs B) (own : Setters) (op : FsOp) : Decidable (op.SparesCounts s own) := by
  have hremoved : ∀ op : FsOp, Decidable (∀ i ∈ s.removedBy op, held s.status own i = false) :=
    fun _ => Option.decidableForallMem _
  apply FsOp.casesOn (motive := fun op => Decidable (op.SparesCounts s own)) op <;> intros <;>
    unfold FsOp.SparesCounts <;> infer_instance

theorem Contents.Seeding.content_none {c c' : Contents} (h : c.Seeding false c')
    (hc : ∀ i, c.content i = none) (i : UInt64) : c'.content i = none := by
  induction h with
  | refl => exact hc i
  | tweak _ htweak ih => exact (htweak.content i).trans ih
  | file hfiles => cases hfiles

/-- Without contents and handles there is nothing to count. -/
theorem Files.covered_of_empty {digest : Bytes → Digest224} {c : Contents}
    (hc : ∀ i, c.content i = none) (own : Setters) :
    Files.Covered digest own ⟨c, ∅, 0⟩ := by
  intro d
  refine .inr ?_
  have hempty : Files.claims digest own ⟨c, ∅, 0⟩ d = ∅ := by
    refine Set.eq_empty_of_forall_notMem ?_
    rintro (i | k) hx
    · have hd := (inl_mem_claims.mp hx).2.1
      rw [hc i] at hd
      cases hd
    · have hk := inr_mem_claims.mp hx
      simp at hk
  rw [hempty, Set.ncard_empty]
  exact Nat.zero_le _

theorem Blockset.Laws.Views.covered {f' : Files} (hv : L.Views s f) (hc : L.NoCollision s.store.io)
    {op : FsOp} (hvalid : op.Valid s) (hspares : op.SparesCounts s own)
    (hs : f.Signed L.digest own) (hcov : f.Covered L.digest own)
    (he : FsOp.Effect L.digest (s.removedBy op) op f f') :
    f'.Covered L.digest (op.setters f.status own) := by
  have hlive : ∀ i : UInt64, (s.inode i).isSome = true ↔ f.core.inodes[i]? ≠ none := by
    intro i
    rw [hv.inode hc, Option.isSome_iff_ne_none]
  refine he.covered hv.wf hs hcov (fun k now hd hop hk hnil hlive' => ?_)
    (fun i k n now hop hk hsome => ?_) fun i hi => ?_
  · subst hop
    refine hspares ?_ ((hlive _).mpr hlive')
    rw [hv.status, Files.status_eq_some hk]
    simp [hnil]
  · subst hop
    have hopen : (k.bind s.status).isNone = true := by
      rw [hv.status]
      cases k with
      | none => rfl
      | some k =>
          rw [Option.bind_some, Files.status_eq_none hk]
          rfl
    have hblock : (s.block i).isSome = true := by
      rw [hv.block hc, Option.isSome_map]
      exact Option.isSome_iff_ne_none.mpr hsome
    obtain ⟨hi, hheld⟩ := hspares hopen hblock
    rw [hv.status] at hheld
    exact ⟨(hlive i).mp hi, hheld⟩
  · rw [← hv.status]
    cases op with
    | unlink => exact hspares i hi
    | rename => exact hspares i hi
    | _ => cases hi

/-- After every run of requests that spare the counts, from a store without seeded files,
and when all write handles are closed, the count of a digest is at least the number of
live files whose manifest holds it. -/
theorem refcounts_cover (hB : B.NoIoErrors) {overflowChecks : Bool} {st : Store B}
    (hst : Prepared L overflowChecks false st) {auto : Bool}
    (hrun : SetterRuns (fun s own op => op.Valid s ∧ op.SparesCounts s own)
      (Fs.mount st auto) s own)
    (hc : L.NoCollision s.store.io) (hclosed : s.openFiles = ∅) (d : Digest224) :
    (s.holders d).length ≤ (s.refcount d).toNat := by
  have hB := hB.reliable L
  obtain ⟨uid, gid, c, hseed, hholds⟩ := hst.holds hB (hc.of_le (hrun.le L).1)
  have hempty : ∀ i, c.content i = none := hseed.content_none fun _ => rfl
  obtain ⟨f, hv, hs, hcov⟩ := SetterRuns.files hB (fun _ _ _ h => h.1) (views_mount hholds auto) rfl
    (Files.covered_of_empty hempty _)
    (fun _ _ _ _ _ hop hc hv hs hcov he => hv.covered hc hop.1 hop.2 hs hcov he) hrun hc
  have hopen : ∀ fh, f.status fh = none := by
    intro fh
    rw [← hv.status, Fs.status, hclosed]
    simp
  have hclaims : f.claims L.digest own d = Sum.inl '' {i | i ∈ s.holders d} := by
    ext x
    rcases x with i | k
    · simp only [Files.inl_mem_claims, Set.mem_image, Set.mem_ofPred_eq, Sum.inl.injEq,
        exists_eq_right, hv.mem_holders hc, held, hopen]
      simp [Option.any_false]
    · have hk : (f.handles[k]?) = none := by
        have hstatus := hopen k
        rwa [Files.status, Option.map_eq_none_iff] at hstatus
      simp [Files.inr_mem_claims, hk]
  have hcard : (f.claims L.digest own d).ncard = (s.holders d).length := by
    rw [hclaims, Set.ncard_image_of_injective _ Sum.inl_injective,
      ← List.toFinset_card_of_nodup (s.nodup_holders d), ← Set.ncard_coe_finset]
    congr 1
    ext i
    simp
  rw [Fs.refcount, hv.core.refcounts]
  rcases hcov d with hfull | hle
  · have hle := hv.length_holders_le hc d
    rw [← hfull] at hle
    exact hle
  · rw [hcard] at hle
    exact hle

end

/-- A file is written, committed and closed. -/
def committedOps : List FsOp :=
  [.create 1 nameA 0o644 0 0 0, .write 1 0 [1, 2, 3], .fsync 2 1 midnight, .release 2 1 midnight]

def committedRun : Fs memoryBlockset × Setters :=
  (runTraced (fun s own op => op.setters s.status own)
    (fun s own op => op.Valid s ∧ op.SparesCounts s own) committedOps freshFs
    fun _ => none).get (by decide +kernel)

theorem refcounts_cover_committed :
    (committedRun.1.holders (memoryDigest [1, 2, 3])).length ≤
      (committedRun.1.refcount (memoryDigest [1, 2, 3])).toNat := by
  have hrun : SetterRuns (fun s own op => op.Valid s ∧ op.SparesCounts s own)
      (Fs.mount freshStore false) committedRun.1 committedRun.2 :=
    (Traces.refl _ _).runTraced (Option.some_get _).symm
  exact refcounts_cover memoryBlockset_noIoErrors (prepared_freshStore true false) hrun
    (memoryLaws_noCollision (by decide +kernel))
    (Std.ExtTreeMap.isEmpty_iff.mp (by decide +kernel)) _

/-- A file is written and committed, truncated to nothing through the handle and closed. -/
def uncountedOps : List FsOp :=
  [.create 1 nameA 0o644 0 0 0, .write 1 0 [1, 2, 3], .fsync 2 1 midnight,
    .truncate 2 (some 1) 0 midnight, .release 2 1 midnight]

def uncountedFs : Fs memoryBlockset := (runFsOps uncountedOps freshFs).get (by decide +kernel)

theorem refcount_below_holders :
    runFsOps uncountedOps freshFs = some uncountedFs ∧ uncountedFs.openFiles.isEmpty = true ∧
    uncountedFs.holders (memoryDigest [1, 2, 3]) = [2] ∧
    uncountedFs.refcount (memoryDigest [1, 2, 3]) = 0 :=
  ⟨(Option.some_get _).symm, by decide +kernel, by decide +kernel, by decide +kernel⟩

end SliceFs
