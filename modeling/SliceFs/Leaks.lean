import SliceFs.Holders

/-!
# Reference counts that stay behind

A count is given up when the handle that holds it commits something else, or when the file
that holds it is truncated or removed. A handle that commits over a content it did not set
itself leaves the count of that content behind, and so does one whose file is gone. Here
a file backs the count of its content unless the open handle that set it gave it up.
-/
namespace SliceFs
open TreeMaps ProgramLogic ByteFile Counting

section
variable {refcounts : Map Digest224 UInt64} {X : Type} [Finite X]
  {claims claims' : Digest224 → Set X} {x : X} {old : Option Digest224}

/-- What backs the old digest alone may go when its count is given up. -/
theorem Backed.dropIfSome (h : Backed fullCount (counts refcounts) claims)
    (hold : ∀ e, x ∈ claims e → old = some e)
    (hsub : ∀ e y, y ≠ x → y ∈ claims e → y ∈ claims' e) :
    Backed fullCount (counts (SliceFs.dropIfSome refcounts old)) claims' := by
  have hne : ∀ e, old ≠ some e → claims e ⊆ claims' e := by
    intro e he y hy
    refine hsub e y ?_ hy
    rintro rfl
    exact he (hold e hy)
  cases old with
  | none => exact h.mono fun e => hne e nofun
  | some l =>
      rw [SliceFs.dropIfSome, counts_drop]
      refine h.drop (x := x) (fun e he => hne e fun hl => he (Option.some.inj hl).symm) fun y hy =>
        ?_
      by_cases hyx : y = x
      · exact .inl hyx
      · exact .inr (hsub l y hyx hy)

theorem Backed.recount (h : Backed fullCount (counts refcounts) claims) {new : Digest224}
    (hold : ∀ e, x ∈ claims e → old = some e)
    (hsub : ∀ e y, y ≠ x → y ∈ claims e → y ∈ claims' e) (hnew : x ∈ claims' new) :
    Backed fullCount (counts (SliceFs.recount refcounts old new)) claims' := by
  unfold SliceFs.recount
  split_ifs with hsame
  · refine h.mono fun e y hy => ?_
    by_cases hyx : y = x
    · subst hyx
      obtain rfl := Option.some.inj (hsame.symm.trans (hold e hy))
      exact hnew
    · exact hsub e y hyx hy
  · have hdrop : Backed fullCount (counts (SliceFs.dropIfSome refcounts old))
        fun e => claims e \ {x} :=
      Backed.dropIfSome h hold fun e y hyx hy => ⟨hy, hyx⟩
    rw [counts_bump]
    exact hdrop.bump (fun e y hy => hsub e y hy.2 hy.1) hnew fun hx => hx.2 rfl

end

theorem Contents.Tweak.live {c c' : Contents} (h : c.Tweak c') {i : UInt64}
    (hi : c.inodes[i]? ≠ none) : c'.inodes[i]? ≠ none := by
  induction h with
  | refl => exact hi
  | burn _ _ ih => exact ih
  | add _ _ _ _ ih =>
      rw [Contents.addInode, getElem?_insert_ite]
      split_ifs
      · exact Option.some_ne_none _
      · exact ih
  | attr _ _ _ _ ih =>
      rw [Contents.putInode, getElem?_insert_ite]
      split_ifs
      · exact Option.some_ne_none _
      · exact ih

section
variable (digest : Bytes → Digest224) (own : Setters) (f : Files)

/-- The live files with a digest, except those whose setter is open and gave it up. -/
def Files.backers (d : Digest224) : Set UInt64 :=
  {i | f.core.inodes[i]? ≠ none ∧ (f.core.content i).map digest = some d ∧
    ∀ (fh : UInt64) (h : Handle), own i = some fh → f.handles[fh]? = some h → h.last = some d}

def Files.Backing : Prop := Backed fullCount (counts f.core.refcounts) (f.backers digest own)

variable {digest own f} {f' : Files} {d : Digest224} {i fh : UInt64} {h : Handle}

/-- A handle keeps its count or gives it up; files stay as they are. -/
theorem Files.Backing.replace (hb : f.Backing digest own) (hs : f.Signed digest own)
    (hfh : f.handles[fh]? = some h) {c : Contents} {h' : Handle} {n : UInt64}
    (hlive : ∀ j : UInt64, f.core.inodes[j]? ≠ none → c.inodes[j]? ≠ none)
    (hcontent : ∀ j, c.content j = f.core.content j)
    (hcount : h'.last = h.last ∧ c.refcounts = f.core.refcounts ∨
      h'.last = none ∧ c.refcounts = dropIfSome f.core.refcounts h.last) :
    (⟨c, f.handles.insert fh h', n⟩ : Files).Backing digest own := by
  -- only the file that the handle set can lose
  have hkept : ∀ e j, (own j = some fh → h'.last = h.last) → j ∈ f.backers digest own e →
      j ∈ (⟨c, f.handles.insert fh h', n⟩ : Files).backers digest own e := by
    rintro e j hj ⟨hlive', hd, hlast⟩
    refine ⟨hlive j hlive', by rw [hcontent]; exact hd, fun k hd' hown hk => ?_⟩
    rw [getElem?_insert_ite] at hk
    split_ifs at hk with hkf
    · obtain rfl := Option.some.inj hk
      rw [hj (hkf ▸ hown)]
      exact hlast k h hown (hkf ▸ hfh)
    · exact hlast k hd' hown hk
  show Backed fullCount (counts c.refcounts) _
  rcases hcount with ⟨hsame, hrefs⟩ | ⟨-, hrefs⟩
  · rw [hrefs]
    exact hb.mono fun e j hj => hkept e j (fun _ => hsame) hj
  · rw [hrefs]
    by_cases hset : own h.ino = some fh
    · refine Backed.dropIfSome (x := h.ino) hb (fun e he => he.2.2 fh h hset hfh)
        fun e j hj hmem => hkept e j (fun hown => ?_) hmem
      exact absurd (hs.setter j fh h hown hfh).1.symm hj
    · have hnone : ∀ j, own j ≠ some fh := by
        intro j hown
        obtain ⟨rfl, -⟩ := hs.setter j fh h hown hfh
        exact hset hown
      have hmore : ∀ e, f.backers digest own e ⊆ Files.backers digest own _ e :=
        fun e j hj => hkept e j (fun hown => absurd hown (hnone j)) hj
      cases h.last with
      | none => exact hb.mono hmore
      | some l =>
          rw [dropIfSome, counts_drop]
          exact hb.drop (x := h.ino) (fun e _ => hmore e) fun j hj => .inr (hmore l hj)

theorem Files.Backing.write (hb : f.Backing digest own) (hs : f.Signed digest own)
    (hfh : f.handles[fh]? = some h) (offset : ℕ) (data : Bytes) :
    (f.write fh h offset data).Backing digest own := by
  refine hb.replace hs hfh (fun j hj => ?_) (fun j => ?_) ?_
  · split_ifs <;> exact hj
  · split_ifs <;> rfl
  · rw [h.last_write]
    split_ifs
    · exact .inr ⟨rfl, rfl⟩
    · exact .inl ⟨rfl, rfl⟩

theorem Files.Backing.truncate (hb : f.Backing digest own) (hs : f.Signed digest own)
    (hfh : f.handles[fh]? = some h) (n : UInt64) (now : Now) :
    (f.truncate fh h n now).Backing digest own := by
  refine hb.replace hs hfh (fun j hj => ?_) (fun j => ?_) ?_
  · rw [Contents.setSize, Contents.inodes_modifyInode_ne_none]
    split_ifs <;> exact hj
  · rw [Contents.setSize, Contents.content_modifyInode]
    split_ifs <;> rfl
  · rw [Contents.setSize, Contents.refcounts_modifyInode, Handle.truncate]
    split_ifs
    · exact .inr ⟨rfl, rfl⟩
    · exact .inl ⟨rfl, rfl⟩

/-- A commit to a live file that is empty or was set through the same handle. -/
theorem Files.Backing.flush (hb : f.Backing digest own) (hs : f.Signed digest own)
    (hfh : f.handles[fh]? = some h) (hne : h.content ≠ []) (hlive : f.core.inodes[h.ino]? ≠ none)
    (hset : f.core.content h.ino = none ∨ own h.ino = some fh) (now : Now) :
    (f.flush digest fh h now).Backing digest (Function.update own h.ino (some fh)) := by
  rw [Files.flush, if_neg hne]
  show Backed fullCount (counts _) _
  rw [Contents.refcounts_modifyInode]
  refine Backed.recount (x := h.ino) hb (fun e he => ?_) (fun e j hj hmem => ?_) ?_
  · rcases hset with hnone | hown
    · have hd := he.2.1
      rw [hnone] at hd
      cases hd
    · exact he.2.2 fh h hown hfh
  · obtain ⟨hlive', hd, hlast⟩ := hmem
    refine ⟨?_, ?_, fun k hd' hown hk => ?_⟩
    · rw [Contents.inodes_modifyInode_ne_none]
      exact hlive'
    · rw [Contents.content_modifyInode, Contents.content, Contents.manifests_record_of_ne _ hj]
      exact hd
    · rw [Function.update_of_ne hj] at hown
      rw [getElem?_insert_ite] at hk
      split_ifs at hk with hkf
      · exact absurd (hs.setter j k h hown (hkf ▸ hfh)).1.symm hj
      · exact hlast k hd' hown hk
  · refine ⟨?_, ?_, fun k hd' hown hk => ?_⟩
    · rw [Contents.inodes_modifyInode_ne_none]
      exact hlive
    · rw [Contents.content_modifyInode, Contents.content, Contents.record, getElem?_insert_ite,
        if_pos rfl]
      rfl
    · rw [Function.update_self] at hown
      obtain rfl := Option.some.inj hown
      rw [getElem?_insert_ite, if_pos rfl] at hk
      obtain rfl := Option.some.inj hk
      rfl

/-- Closing a handle takes no backing away. -/
theorem Files.Backing.release (hb : f.Backing digest own) (hs : f.Signed digest own)
    (hfh : f.handles[fh]? = some h) (hdone : h.content = [] ∨ h.committed = true) (now : Now) :
    (f.release digest fh h now).Backing digest own := by
  obtain ⟨hinodes, hrefs, hcontent⟩ := hs.releasedCore hfh hdone now
  show Backed fullCount (counts (f.releasedCore digest h now).refcounts) _
  rw [hrefs]
  refine hb.mono fun e j hj => ⟨?_, ?_, fun k hd hown hk => ?_⟩
  · show (f.releasedCore digest h now).inodes[j]? ≠ none
    rw [hinodes]
    exact hj.1
  · show ((f.releasedCore digest h now).content j).map digest = _
    rw [hcontent]
    exact hj.2.1
  · rw [Files.release, getElem?_erase_ite] at hk
    split_ifs at hk
    exact hj.2.2 k hd hown hk

theorem Files.Backing.truncateCommitted (hb : f.Backing digest own) (i n : UInt64) (now : Now)
    (hcond : n ≠ 0 → f.core.inodes[i]? ≠ none) :
    (f.truncateCommitted digest i n now).Backing digest (Function.update own i none) := by
  have hsame := f.sameOff_truncateCommitted digest i n now
  have hdrop : Backed fullCount
      (counts (dropIfSome f.core.refcounts ((f.core.content i).map digest)))
      fun e => f.backers digest own e \ {i} :=
    Backed.dropIfSome (x := i) hb (fun e he => he.2.1) fun e j hj hmem => ⟨hmem, hj⟩
  have hothers : ∀ e, f.backers digest own e \ {i} ⊆
      (f.truncateCommitted digest i n now).backers digest (Function.update own i none) e := by
    rintro e j ⟨⟨hlive, hd, hlast⟩, hj⟩
    have hj : j ≠ i := hj
    refine ⟨?_, ?_, fun k hd' hown hk => ?_⟩
    · rw [hsame.inodes j hj]
      exact hlive
    · rw [Contents.content, hsame.manifests j hj]
      exact hd
    · rw [Function.update_of_ne hj] at hown
      exact hlast k hd' hown hk
  have hcounts : (f.truncateCommitted digest i n now).core.refcounts =
      (f.core.resizeContent digest i n).refcounts := Contents.refcounts_modifyInode ..
  unfold Files.Backing
  rw [hcounts]
  rcases f.core.resizeContent_cases digest i n with ⟨-, hrefs⟩ | ⟨b, hb', hn, hrefs⟩
  · rw [hrefs]
    exact hdrop.mono hothers
  · rw [hrefs, counts_bump]
    refine hdrop.bump hothers (x := i) ⟨?_, ?_, fun k _ hown _ => ?_⟩ fun hi => hi.2 rfl
    · rw [Files.truncateCommitted, Contents.setSize, Contents.inodes_modifyInode_ne_none,
        Contents.inodes_resizeContent]
      exact hcond hn
    · rw [Files.truncateCommitted, Contents.setSize, Contents.content_modifyInode, hb']
      rfl
    · rw [Function.update_self] at hown
      cases hown

theorem Files.Backing.tweak (hb : f.Backing digest own) {c : Contents} (htweak : f.core.Tweak c) :
    ({ f with core := c } : Files).Backing digest own := by
  show Backed fullCount (counts c.refcounts) _
  rw [htweak.refcounts]
  refine hb.mono fun e j hj => ⟨htweak.live hj.1, ?_, hj.2.2⟩
  show (c.content j).map digest = some e
  rw [htweak.content]
  exact hj.2.1

theorem Files.Backing.edit (hb : f.Backing digest own) {removed : Option UInt64} {c : Contents}
    (hedit : f.core.Edit digest removed c) : ({ f with core := c } : Files).Backing digest own := by
  cases hedit with
  | tweak htweak => exact hb.tweak htweak
  | @delete i m _ hm htweak =>
      have hdeleted : ({ f with core := f.core.deleteFile digest i } : Files).Backing digest
        own := by
        refine Backed.dropIfSome (x := i) hb (fun e he => he.2.1) fun e j hj hmem =>
          ⟨?_, hmem.2.1, hmem.2.2⟩
        show (f.core.inodes.erase i)[j]? ≠ none
        rw [getElem?_erase_ite, if_neg hj]
        exact hmem.1
      exact hdeleted.tweak htweak

theorem Files.Backing.insertHandle (hb : f.Backing digest own) (hs : f.Signed digest own)
    (hmax : f.nextFh ≠ u64Max) (i : UInt64) : (f.insertHandle i).Backing digest own := by
  refine hb.mono fun e j hj => ⟨hj.1, hj.2.1, fun k hd hown hk => ?_⟩
  rw [Files.insertHandle, getElem?_insert_ite, if_neg] at hk
  · exact hj.2.2 k hd hown hk
  · rintro rfl
    exact absurd (hs.known j _ hown) (UInt64.not_le.mpr (lt_add_one_of_ne_u64Max hmax))

theorem Files.Backing.opened (hb : f.Backing digest own) (hs : f.Signed digest own)
    (hmax : f.nextFh ≠ u64Max) (i : UInt64) (flags : UInt32) (now : Now) :
    (f.opened i flags now).Backing digest own := by
  have hinserted := hb.insertHandle hs hmax i
  unfold Files.opened
  split_ifs
  · exact hinserted
  · exact hb
  · refine hinserted.truncate (hs.insertHandle hmax i) ?_ 0 now
    rw [Files.insertHandle, getElem?_insert_ite, if_pos rfl]
  · exact hb

theorem Files.Backing.addSymlink (hb : f.Backing digest own) (hw : f.Wf) (hs : f.Signed digest own)
    {m : InodeMeta} {b : Bytes} {c : Contents} (htweak : (f.core.addSymlink digest m b).Tweak c) :
    ({ f with core := c } : Files).Backing digest own := by
  have hfresh := hw.content_fresh f.core.nextIno (UInt64.le_refl _)
  have hlinked : ({ f with core := f.core.addSymlink digest m b } : Files).Backing digest own := by
    show Backed fullCount (counts (bumpRefcount f.core.refcounts (digest b))) _
    rw [counts_bump]
    refine hb.bump (x := f.core.nextIno) (fun e j hj => ⟨?_, ?_, hj.2.2⟩)
      ⟨?_, ?_, fun k hd hown hk => ?_⟩ fun hi => ?_
    · rw [Contents.addSymlink, Contents.increment, Contents.setContent, Contents.addInode,
        getElem?_insert_ite]
      split_ifs
      · exact Option.some_ne_none _
      · exact hj.1
    · rw [Contents.content, Contents.addSymlink, Contents.increment, Contents.setContent,
        getElem?_insert_ite, if_neg]
      · exact hj.2.1
      · rintro rfl
        have hd := hj.2.1
        rw [hfresh] at hd
        cases hd
    · rw [Contents.addSymlink, Contents.increment, Contents.setContent, Contents.addInode,
        getElem?_insert_ite, if_pos rfl]
      exact Option.some_ne_none _
    · rw [Contents.content, Contents.addSymlink, Contents.increment, Contents.setContent,
        getElem?_insert_ite, if_pos rfl]
      rfl
    · obtain ⟨hino, -⟩ := hs.setter _ k hd hown hk
      exact absurd (hw.known k hd hk).2 (hino ▸ UInt64.lt_irrefl _)
    · have hd := hi.2.1
      rw [hfresh] at hd
      cases hd
  exact hlinked.tweak htweak

theorem Files.Backing.flushed (hb : f.Backing digest own) (hs : f.Signed digest own)
    (hfh : f.handles[fh]? = some h) (now : Now)
    (hcond : h.content ≠ [] → f.core.inodes[h.ino]? ≠ none ∧
      (f.core.content h.ino = none ∨ own h.ino = some fh)) :
    (f.flush digest fh h now).Backing digest ((FsOp.flush h.ino fh now).setters f.status own) := by
  rcases Files.flush_cases digest hfh own now with ⟨-, hf, hown⟩ | ⟨hne, hown⟩
  · rw [hf, hown]
    exact hb
  · rw [hown]
    exact hb.flush hs hfh hne (hcond hne).1 (hcond hne).2 now

/-- The handle through which a request commits bytes. -/
def FsOp.commits (status : UInt64 → Option HandleStatus) : FsOp → Option (UInt64 × UInt64)
  | flush ino fh _ => if (status fh).any HandleStatus.written then some (ino, fh) else none
  | fsync ino fh _ => if (status fh).any HandleStatus.written then some (ino, fh) else none
  | release ino fh _ =>
      if (status fh).any fun h => h.written ∧ h.committed = false then some (ino, fh) else none
  | _ => none

/-- Every request keeps the counts backed, unless it commits to a file that is gone or whose
content it did not set, or gives a size to one that is gone. -/
theorem FsOp.Effect.backing {removed : Option UInt64} {op : FsOp}
    (he : FsOp.Effect digest removed op f f') (hw : f.Wf) (hs : f.Signed digest own)
    (hb : f.Backing digest own) (hrmdir : ∀ parent name, op ≠ .rmdir parent name)
    (hcommit : ∀ i k, op.commits f.status = some (i, k) → f.core.inodes[i]? ≠ none ∧
      (f.core.content i = none ∨ own i = some k))
    (htruncate : ∀ (i : UInt64) (k : Option UInt64) (n : UInt64) (now : Now),
      op = .truncate i k n now → k.bind (fun j => f.handles[j]?) = none → n ≠ 0 →
      f.core.inodes[i]? ≠ none) :
    f'.Backing digest (op.setters f.status own) := by
  cases he with
  | edit hop h =>
      rw [FsOp.setters_of_not_onContent hop]
      exact hb.edit h
  | closed hop hfh =>
      rw [FsOp.setters_of_closed hop (Files.status_eq_none hfh)]
      exact hb
  | create hi hmax hsize =>
      have hadded := hb.tweak (.add _ (.refl f.core) hi hsize)
      exact hadded.insertHandle (hs.core fun _ _ _ _ _ => rfl) hmax _
  | symlink hmax _ h => exact hb.addSymlink hw hs h
  | rmdir => exact absurd rfl (hrmdir _ _)
  | openFile hmax _ => exact hb.opened hs hmax _ _ _
  | write hfh => exact hb.write hs hfh _ _
  | truncate hfh =>
      rw [FsOp.setters, Option.bind_some, Files.status_eq_some hfh]
      exact hb.truncate hs hfh _ _
  | truncateCommitted _ hnone =>
      rw [FsOp.setters_truncate_none hnone]
      exact hb.truncateCommitted _ _ _ (htruncate _ _ _ _ rfl hnone)
  | flush hfh =>
      refine hb.flushed hs hfh _ fun hne => hcommit _ _ ?_
      simp [FsOp.commits, Files.status_eq_some hfh, hne]
  | fsync hfh =>
      refine hb.flushed hs hfh _ fun hne => hcommit _ _ ?_
      simp [FsOp.commits, Files.status_eq_some hfh, hne]
  | @release k now _ h hfh =>
      rcases Files.release_cases hfh own now with ⟨hdone, hown⟩ | ⟨hne, hopen, hown⟩
      · rw [hown]
        exact hb.release hs hfh hdone now
      · have hcond := hcommit h.ino k (by simp [FsOp.commits, Files.status_eq_some hfh, hne, hopen])
        rw [hown, Files.release_eq_flush hne hopen]
        exact (hb.flush hs hfh hne hcond.1 hcond.2 now).release (hs.flush hw hfh hne now)
          (Files.getElem?_flush hne now) (.inr rfl) now

end

section
variable {B : Blockset} {L : B.Laws} {s : Fs B} {f : Files} {d : Digest224} {own : Setters}

/-- What leaves counts behind: a commit to a removed file, or to one whose content was not
set through the same handle; and a size given to a removed file without a handle. -/
def FsOp.ReturnsCounts (s : Fs B) (own : Setters) (op : FsOp) : Prop :=
  (∀ c ∈ op.commits s.status, (s.inode c.1).isSome = true ∧
    (s.block c.1 = none ∨ own c.1 = some c.2)) ∧
  match op with
  | truncate ino fh size _ => (fh.bind s.status).isNone = true → size ≠ 0 →
      (s.inode ino).isSome = true
  | rmdir _ _ => False
  | _ => True

instance (s : Fs B) (own : Setters) (op : FsOp) : Decidable (op.ReturnsCounts s own) := by
  have hcommits : ∀ op : FsOp, Decidable (∀ c ∈ op.commits s.status,
      (s.inode c.1).isSome = true ∧ (s.block c.1 = none ∨ own c.1 = some c.2)) :=
    fun _ => Option.decidableForallMem _
  apply FsOp.casesOn (motive := fun op => Decidable (op.ReturnsCounts s own)) op <;> intros <;>
    unfold FsOp.ReturnsCounts <;> infer_instance

/-- Without contents and counts there is nothing to back. -/
theorem Files.backing_of_empty {digest : Bytes → Digest224} {c : Contents}
    (hc : c.refcounts = ∅) (own : Setters) (handles : Map UInt64 Handle) (nextFh : UInt64) :
    Files.Backing digest own ⟨c, handles, nextFh⟩ := by
  intro d
  refine .inr ?_
  show counts c.refcounts d ≤ _
  have hzero : counts c.refcounts d = 0 := by
    rw [hc, counts, refcountOf]
    simp
  rw [hzero]
  exact Nat.zero_le _

theorem Blockset.Laws.Views.backing {f' : Files} (hv : L.Views s f) (hc : L.NoCollision s.store.io)
    {op : FsOp} (hreturns : op.ReturnsCounts s own) (hs : f.Signed L.digest own)
    (hb : f.Backing L.digest own) {removed : Option UInt64}
    (he : FsOp.Effect L.digest removed op f f') :
    f'.Backing L.digest (op.setters f.status own) := by
  have hlive : ∀ i : UInt64, (s.inode i).isSome = true ↔ f.core.inodes[i]? ≠ none := by
    intro i
    rw [hv.inode hc, Option.isSome_iff_ne_none]
  refine he.backing hv.wf hs hb (fun parent name hop => ?_) (fun i k hk => ?_)
    fun i k n now hop hk hn => ?_
  · subst hop
    exact hreturns.2
  · rw [← hv.status] at hk
    obtain ⟨hi, hset⟩ := hreturns.1 _ hk
    rw [hv.block hc, Option.map_eq_none_iff] at hset
    exact ⟨(hlive i).mp hi, hset⟩
  · subst hop
    refine (hlive i).mp (hreturns.2 ?_ hn)
    rw [hv.status]
    cases k with
    | none => rfl
    | some k =>
        rw [Option.bind_some, Files.status_eq_none hk]
        rfl

/-- After every run of requests that return the counts, from a new store, a count below the
largest number is at most the number of live files whose manifest holds the digest, also
while handles are open. -/
theorem refcounts_backed (hB : B.NoIoErrors) {uid gid : UInt32} {io io' : B.Io} {st : Store B}
    (hnew : Store.new B uid gid io = (.ok st, io')) {auto : Bool}
    (hrun : SetterRuns (fun s own op => op.Valid s ∧ op.ReturnsCounts s own)
      (Fs.mount st auto) s own)
    (hc : L.NoCollision s.store.io) (hd : s.refcount d ≠ u64Max) :
    (s.refcount d).toNat ≤ (s.holders d).length := by
  have hB := hB.reliable L
  obtain ⟨f, hv, hs, hb⟩ := SetterRuns.files hB (fun _ _ _ h => h.1)
    (views_mount (holds_new (L := L) hB hnew).1 auto) rfl (Files.backing_of_empty rfl _ _ _)
    (fun _ _ _ _ _ hop hc hv hs hb he => hv.backing hc hop.2 hs hb he) hrun hc
  have hcard : (f.backers L.digest own d).ncard ≤ (s.holders d).length := by
    have hsub : f.backers L.digest own d ⊆ ((s.holders d).toFinset : Set UInt64) := by
      intro i hi
      rw [List.coe_toFinset]
      exact (hv.mem_holders hc).mpr ⟨hi.1, hi.2.1⟩
    refine (Set.ncard_le_ncard hsub (Set.toFinite _)).trans ?_
    rw [Set.ncard_coe_finset]
    exact List.toFinset_card_le _
  rw [Fs.refcount, hv.core.refcounts] at hd ⊢
  have hle := (hb d).resolve_left fun hfull => hd ((counts_eq_fullCount _ _).mp hfull)
  exact hle.trans hcard

end

def returnedRun : Fs memoryBlockset × Setters :=
  (runTraced (fun s own op => op.setters s.status own)
    (fun s own op => op.Valid s ∧ op.ReturnsCounts s own) committedOps freshFs
    fun _ => none).get (by decide +kernel)

theorem refcounts_backed_committed :
    (returnedRun.1.refcount (memoryDigest [1, 2, 3])).toNat ≤
      (returnedRun.1.holders (memoryDigest [1, 2, 3])).length := by
  have hnew : Store.new memoryBlockset 0 0 MemoryIo.empty = (.ok freshStore, _) :=
    Prog.eq_ok_of_isSome (by decide +kernel)
  have hrun : SetterRuns (fun s own op => op.Valid s ∧ op.ReturnsCounts s own)
      (Fs.mount freshStore false) returnedRun.1 returnedRun.2 :=
    (Traces.refl _ _).runTraced (Option.some_get _).symm
  exact refcounts_backed memoryBlockset_noIoErrors hnew hrun
    (memoryLaws_noCollision (by decide +kernel)) (by decide +kernel)

/-- A saved file is opened again, written over and closed. -/
def overwrittenOps : List FsOp :=
  savedOps ++ [.openFile 2 O_WRONLY midnight, .write 2 0 [9], .release 2 2 midnight]

def overwrittenFs : Fs memoryBlockset := (runFsOps overwrittenOps freshFs).get (by decide +kernel)

theorem refcount_above_holders :
    runFsOps overwrittenOps freshFs = some overwrittenFs ∧ overwrittenFs.openFiles.isEmpty = true ∧
    overwrittenFs.holders (memoryDigest [1, 2, 3]) = [] ∧
    overwrittenFs.refcount (memoryDigest [1, 2, 3]) = 1 :=
  ⟨(Option.some_get _).symm, by decide +kernel, by decide +kernel, by decide +kernel⟩

end SliceFs
