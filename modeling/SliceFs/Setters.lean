import SliceFs.Sizes

/-!
# Which handle set a manifest

A handle that commits its content sets the manifest of its inode and counts the digest.
The counts depend on which handle set a manifest last and whether it is still open: as
long as it is, it is the handle that gives the count up, not the inode.
-/
namespace SliceFs
open TreeMaps ProgramLogic ByteFile

/-- Whether a handle has bytes, and whether it committed them. -/
structure HandleStatus where
  written : Bool
  committed : Bool

/-- The handle through which the manifest of an inode was set last. -/
abbrev Setters := UInt64 → Option UInt64

def Files.status (f : Files) (fh : UInt64) : Option HandleStatus :=
  (f.handles[fh]?).map fun h => ⟨decide (h.content ≠ []), h.committed⟩

section
variable (status : UInt64 → Option HandleStatus) (own : Setters)

/-- The handle that set the manifest of an inode is open. -/
def held (i : UInt64) : Bool := (own i).any fun fh => (status fh).isSome

/-- The setters after a request. -/
def FsOp.setters : FsOp → Setters
  | flush ino fh _ =>
      if (status fh).any HandleStatus.written then Function.update own ino (some fh) else own
  | fsync ino fh _ =>
      if (status fh).any HandleStatus.written then Function.update own ino (some fh) else own
  | release ino fh _ =>
      if (status fh).any fun h => h.written ∧ h.committed = false then
        Function.update own ino (some fh)
      else own
  | truncate ino fh _ _ =>
      if (fh.bind status).isNone then Function.update own ino none else own
  | _ => own

end

/-- A handle without bytes counts nothing, one that committed its bytes counts them. -/
structure Handle.Regular (digest : Bytes → Digest224) (h : Handle) : Prop where
  empty : h.content = [] → h.last = none
  committed : h.committed = true → h.last = some (digest h.content)

section
variable {digest : Bytes → Digest224} {h : Handle}

theorem Handle.regular_new (digest : Bytes → Digest224) (i : UInt64) :
    (Handle.new i).Regular digest :=
  ⟨fun _ => rfl, nofun⟩

theorem Handle.Regular.write (hr : h.Regular digest) (committed : Option Bytes) (offset : ℕ)
    (data : Bytes) : (h.write committed offset data).Regular digest := by
  unfold Handle.write
  split_ifs
  · exact ⟨fun _ => rfl, nofun⟩
  · refine ⟨fun hnil => hr.empty ?_, nofun⟩
    have hlen := congrArg List.length hnil
    rw [length_pwrite, List.length_nil] at hlen
    exact List.eq_nil_of_length_eq_zero (by omega)

theorem Handle.regular_truncate (digest : Bytes → Digest224) (h : Handle) (n : UInt64) :
    (h.truncate n).Regular digest := by
  refine ⟨fun hnil => ?_, nofun⟩
  by_cases hn : n = 0
  · exact if_pos (.inl hn)
  · exact absurd hnil (resize_ne_nil hn)

theorem Handle.regular_flushed (digest : Bytes → Digest224) (hne : h.content ≠ []) :
    ({ h with committed := true, last := some (digest h.content) } : Handle).Regular digest :=
  ⟨fun hnil => absurd hnil hne, fun _ => rfl⟩

theorem Handle.last_write (h : Handle) (committed : Option Bytes) (offset : ℕ) (data : Bytes) :
    (h.write committed offset data).last = if h.FallsBack offset then none else h.last := by
  unfold Handle.write
  split_ifs <;> rfl

end

/-- An open handle that set a manifest last counts it, or gave the count up since. -/
structure Files.Signed (digest : Bytes → Digest224) (own : Setters) (f : Files) : Prop where
  regular : ∀ (fh : UInt64) (h : Handle), f.handles[fh]? = some h → h.Regular digest
  known : ∀ (i fh : UInt64), own i = some fh → fh ≤ f.nextFh
  setter : ∀ (i fh : UInt64) (h : Handle), own i = some fh → f.handles[fh]? = some h →
    h.ino = i ∧ ∃ b, f.core.content i = some b ∧ (h.last = some (digest b) ∨ h.last = none)

namespace Files.Signed
variable {digest : Bytes → Digest224} {own : Setters} {f : Files} {fh : UInt64} {h : Handle}

/-- The contents of set manifests are the same. -/
theorem core (hs : f.Signed digest own) {c : Contents}
    (hcontent : ∀ i fh h, own i = some fh → f.handles[fh]? = some h →
      c.content i = f.core.content i) : ({ f with core := c } : Files).Signed digest own where
  regular := hs.regular
  known := hs.known
  setter i k hd hown hk := by
    show hd.ino = i ∧ ∃ b, c.content i = some b ∧ _
    rw [hcontent i k hd hown hk]
    exact hs.setter i k hd hown hk

/-- A handle is replaced by one of the same inode that counts the same, or nothing. -/
theorem insert (hs : f.Signed digest own) (hfh : f.handles[fh]? = some h) {h' : Handle}
    (hreg : h'.Regular digest) (hino : h'.ino = h.ino)
    (hlast : h'.last = h.last ∨ h'.last = none) :
    ({ f with handles := f.handles.insert fh h' } : Files).Signed digest own where
  regular k hd hk := by
    rw [getElem?_insert_ite] at hk
    split_ifs at hk
    · obtain rfl := Option.some.inj hk
      exact hreg
    · exact hs.regular k hd hk
  known := hs.known
  setter i k hd hown hk := by
    rw [getElem?_insert_ite] at hk
    split_ifs at hk with hkf
    · obtain rfl := Option.some.inj hk
      obtain ⟨hi, b, hb, hcount⟩ := hs.setter i k h hown (hkf ▸ hfh)
      refine ⟨hino.trans hi, b, hb, ?_⟩
      rcases hlast with hlast | hlast
      · rw [hlast]
        exact hcount
      · exact .inr hlast
    · exact hs.setter i k hd hown hk

theorem insertHandle (hs : f.Signed digest own) (hmax : f.nextFh ≠ u64Max) (i : UInt64) :
    (f.insertHandle i).Signed digest own := by
  have hlt := lt_add_one_of_ne_u64Max hmax
  refine ⟨fun k hd hk => ?_, fun j k hown => ?_, fun j k hd hown hk => ?_⟩
  · rw [Files.insertHandle, getElem?_insert_ite] at hk
    split_ifs at hk
    · obtain rfl := Option.some.inj hk
      exact Handle.regular_new digest i
    · exact hs.regular k hd hk
  · exact UInt64.le_trans (hs.known j k hown) (UInt64.le_of_lt hlt)
  · rw [Files.insertHandle, getElem?_insert_ite, if_neg] at hk
    · exact hs.setter j k hd hown hk
    · rintro rfl
      exact absurd (hs.known j _ hown) (UInt64.not_le.mpr hlt)

theorem write (hs : f.Signed digest own) (hfh : f.handles[fh]? = some h) (offset : ℕ)
    (data : Bytes) : (f.write fh h offset data).Signed digest own := by
  have hcore : ∀ i, (f.write fh h offset data).core.content i = f.core.content i := by
    intro i
    unfold Files.write
    split_ifs <;> rfl
  refine (hs.insert hfh ((hs.regular fh h hfh).write (f.core.content h.ino) offset data)
    (h.ino_write _ _ _) ?_).core fun i _ _ _ _ => hcore i
  rw [h.last_write]
  split_ifs
  · exact .inr rfl
  · exact .inl rfl

theorem truncate (hs : f.Signed digest own) (hfh : f.handles[fh]? = some h) (n : UInt64)
    (now : Now) : (f.truncate fh h n now).Signed digest own := by
  have hcore : ∀ i, (f.truncate fh h n now).core.content i = f.core.content i := by
    intro i
    rw [Files.truncate, Contents.setSize, Contents.content_modifyInode]
    split_ifs <;> rfl
  refine (hs.insert hfh (h.regular_truncate digest n) rfl ?_).core fun i _ _ _ _ => hcore i
  unfold Handle.truncate
  split_ifs
  · exact .inr rfl
  · exact .inl rfl

theorem flush (hs : f.Signed digest own) (hw : f.Wf) (hfh : f.handles[fh]? = some h)
    (hne : h.content ≠ []) (now : Now) :
    (f.flush digest fh h now).Signed digest (Function.update own h.ino (some fh)) := by
  rw [Files.flush, if_neg hne]
  refine ⟨fun k hd hk => ?_, fun j k hown => ?_, fun j k hd hown hk => ?_⟩
  · rw [getElem?_insert_ite] at hk
    split_ifs at hk
    · obtain rfl := Option.some.inj hk
      exact Handle.regular_flushed digest hne
    · exact hs.regular k hd hk
  · rw [Function.update_apply] at hown
    split_ifs at hown
    · obtain rfl := Option.some.inj hown
      exact (hw.known _ h hfh).1
    · exact hs.known j k hown
  · show hd.ino = j ∧ ∃ b, Contents.content _ j = some b ∧ _
    rw [Contents.content_modifyInode, Contents.content, Contents.record, getElem?_insert_ite]
    rw [Function.update_apply] at hown
    rw [getElem?_insert_ite] at hk
    split_ifs at hown hk ⊢ with hj hkf
    · obtain rfl := Option.some.inj hk
      exact ⟨hj.symm, h.content, rfl, .inl rfl⟩
    · exact absurd (Option.some.inj hown).symm hkf
    · -- another inode was set by the handle before
      rename_i hkf
      exact absurd (hs.setter j k h hown (hkf ▸ hfh)).1.symm hj
    · exact hs.setter j k hd hown hk

/-- A handle that is closed leaves the contents of set manifests alone. -/
theorem erase (hs : f.Signed digest own) (fh : UInt64) {c : Contents}
    (hcontent : ∀ i, c.content i = f.core.content i) :
    ({ f with core := c, handles := f.handles.erase fh } : Files).Signed digest own where
  regular k hd hk := by
    rw [getElem?_erase_ite] at hk
    split_ifs at hk
    exact hs.regular k hd hk
  known := hs.known
  setter i k hd hown hk := by
    show hd.ino = i ∧ ∃ b, c.content i = some b ∧ _
    rw [getElem?_erase_ite] at hk
    split_ifs at hk
    rw [hcontent i]
    exact hs.setter i k hd hown hk

theorem truncateCommitted (hs : f.Signed digest own) (i n : UInt64) (now : Now) :
    (f.truncateCommitted digest i n now).Signed digest (Function.update own i none) := by
  have hsame := f.sameOff_truncateCommitted digest i n now
  refine ⟨hs.regular, fun j k hown => ?_, fun j k hd hown hk => ?_⟩
  · rw [Function.update_apply] at hown
    split_ifs at hown
    exact hs.known j k hown
  · rw [Function.update_apply] at hown
    split_ifs at hown with hj
    have hset := hs.setter j k hd hown hk
    rw [Contents.content, ← hsame.manifests j hj] at hset
    exact hset

theorem opened (hs : f.Signed digest own) (hmax : f.nextFh ≠ u64Max) (i : UInt64) (flags : UInt32)
    (now : Now) : (f.opened i flags now).Signed digest own := by
  have hinserted := hs.insertHandle hmax i
  have hburnt : ({ f with nextFh := f.nextFh + 1 } : Files).Signed digest own :=
    ⟨hs.regular, hinserted.known, hs.setter⟩
  unfold Files.opened
  split_ifs
  · exact hinserted
  · exact hburnt
  · refine hinserted.truncate ?_ 0 now
    rw [Files.insertHandle, getElem?_insert_ite, if_pos rfl]
  · exact hburnt

/-- A release that commits nothing. -/
theorem releasedCore (hs : f.Signed digest own) (hfh : f.handles[fh]? = some h)
    (hdone : h.content = [] ∨ h.committed = true) (now : Now) :
    (f.releasedCore digest h now).inodes = f.core.inodes ∧
      (f.releasedCore digest h now).refcounts = f.core.refcounts ∧
      ∀ i, (f.releasedCore digest h now).content i = f.core.content i := by
  unfold Files.releasedCore
  split_ifs with hnil hkeep hsame
  · exact ⟨rfl, rfl, fun _ => rfl⟩
  · refine ⟨rfl, rfl, fun i => ?_⟩
    rw [Contents.content, Contents.setContent, getElem?_insert_ite]
    split_ifs with hi
    · rw [not_or, not_not] at hkeep
      rw [hi, hkeep.2]
      rfl
    · rfl
  · exact ⟨rfl, rfl, fun _ => rfl⟩
  · have hcommitted := hdone.resolve_left hnil
    exact absurd ⟨(hs.regular fh h hfh).committed hcommitted, hcommitted⟩ hsame

theorem release (hs : f.Signed digest own) (hfh : f.handles[fh]? = some h)
    (hdone : h.content = [] ∨ h.committed = true) (now : Now) :
    (f.release digest fh h now).Signed digest own :=
  hs.erase fh (hs.releasedCore hfh hdone now).2.2

end Files.Signed

section
variable {digest : Bytes → Digest224} {own : Setters} {f f' : Files} {fh : UInt64} {h : Handle}

/-- A release that commits is a flush and a release that does not. -/
theorem Files.release_eq_flush (hne : h.content ≠ []) (hopen : h.committed = false) (now : Now) :
    f.release digest fh h now = (f.flush digest fh h now).release digest fh
      { h with committed := true, last := some (digest h.content) } now := by
  have hsame : ¬ (h.last = some (digest h.content) ∧ h.committed = true) := by
    rw [hopen]
    exact fun h => Bool.false_ne_true h.2
  simp only [Files.release, Files.releasedCore, Files.flush, hne, hsame, if_false, and_self,
    if_true, erase_insert_self]

theorem FsOp.setters_of_not_onContent {op : FsOp} (hop : ¬ op.OnContent)
    (status : UInt64 → Option HandleStatus) (own : Setters) : op.setters status own = own := by
  cases op with
  | openFile => exact absurd trivial hop
  | truncate => exact absurd trivial hop
  | write => exact absurd rfl hop
  | flush => exact absurd rfl hop
  | fsync => exact absurd rfl hop
  | release => exact absurd rfl hop
  | _ => rfl

theorem FsOp.setters_of_closed {op : FsOp} (hop : op.handle? = some fh)
    {status : UInt64 → Option HandleStatus} (hfh : status fh = none) (own : Setters) :
    op.setters status own = own := by
  cases op with
  | write => rfl
  | flush i k now =>
      obtain rfl := Option.some.inj hop
      rw [FsOp.setters, hfh]
      rfl
  | fsync i k now =>
      obtain rfl := Option.some.inj hop
      rw [FsOp.setters, hfh]
      rfl
  | release i k now =>
      obtain rfl := Option.some.inj hop
      rw [FsOp.setters, hfh]
      rfl
  | _ => cases hop

theorem Files.status_eq_none (hfh : f.handles[fh]? = none) : f.status fh = none := by
  rw [Files.status, hfh]
  rfl

theorem Files.status_eq_some (hfh : f.handles[fh]? = some h) :
    f.status fh = some ⟨decide (h.content ≠ []), h.committed⟩ := by
  rw [Files.status, hfh]
  rfl

theorem FsOp.setters_truncate_none {k : Option UInt64} (hk : k.bind (fun j => f.handles[j]?) = none)
    {i n : UInt64} {now : Now} :
    (FsOp.truncate i k n now).setters f.status own = Function.update own i none := by
  refine if_pos ?_
  cases k with
  | none => rfl
  | some k =>
      rw [Option.bind_some, Files.status_eq_none hk]
      rfl

/-- What a flush of an open handle makes of the files and the setters. -/
theorem Files.flush_cases (digest : Bytes → Digest224) (hfh : f.handles[fh]? = some h)
    (own : Setters) (now : Now) :
    (h.content = [] ∧ f.flush digest fh h now = f ∧
      (FsOp.flush h.ino fh now).setters f.status own = own) ∨
    (h.content ≠ [] ∧
      (FsOp.flush h.ino fh now).setters f.status own = Function.update own h.ino (some fh)) := by
  simp only [FsOp.setters, status_eq_some hfh]
  by_cases hnil : h.content = []
  · exact .inl ⟨hnil, if_pos hnil, by simp [hnil]⟩
  · exact .inr ⟨hnil, by simp [hnil]⟩

/-- What a release of an open handle makes of the setters. -/
theorem Files.release_cases (hfh : f.handles[fh]? = some h) (own : Setters) (now : Now) :
    ((h.content = [] ∨ h.committed = true) ∧
      (FsOp.release h.ino fh now).setters f.status own = own) ∨
    (h.content ≠ [] ∧ h.committed = false ∧
      (FsOp.release h.ino fh now).setters f.status own = Function.update own h.ino (some fh)) := by
  simp only [FsOp.setters, status_eq_some hfh]
  by_cases hnil : h.content = []
  · exact .inl ⟨.inl hnil, by simp [hnil]⟩
  · cases hcommitted : h.committed with
    | true => exact .inl ⟨.inr rfl, by simp⟩
    | false => exact .inr ⟨hnil, rfl, by simp [hnil]⟩

theorem Files.getElem?_flush (hne : h.content ≠ []) (now : Now) :
    (f.flush digest fh h now).handles[fh]? =
      some { h with committed := true, last := some (digest h.content) } := by
  rw [Files.flush, if_neg hne, getElem?_insert_ite, if_pos rfl]

theorem Files.Signed.flushed (hs : f.Signed digest own) (hw : f.Wf) (hfh : f.handles[fh]? = some h)
    (now : Now) : (f.flush digest fh h now).Signed digest
      ((FsOp.flush h.ino fh now).setters f.status own) := by
  rcases Files.flush_cases digest hfh own now with ⟨-, hf, hown⟩ | ⟨hne, hown⟩
  · rw [hf, hown]
    exact hs
  · rw [hown]
    exact hs.flush hw hfh hne now

/-- Every request keeps the setters. -/
theorem FsOp.Effect.signed {removed : Option UInt64} {op : FsOp}
    (he : FsOp.Effect digest removed op f f') (hw : f.Wf) (hs : f.Signed digest own) :
    f'.Signed digest (op.setters f.status own) := by
  cases he with
  | edit hop h =>
      rw [FsOp.setters_of_not_onContent hop]
      cases h with
      | tweak h => exact hs.core fun i _ _ _ _ => h.content i
      | delete _ _ h => exact hs.core fun i _ _ _ _ => h.content i
  | closed hop hfh =>
      rw [FsOp.setters_of_closed hop (Files.status_eq_none hfh)]
      exact hs
  | create _ hmax _ =>
      exact (hs.core (c := f.core.addInode _) fun _ _ _ _ _ => rfl).insertHandle hmax _
  | symlink _ _ h =>
      refine hs.core fun i k hd hown hk => (h.content i).trans ?_
      obtain ⟨rfl, -⟩ := hs.setter i k hd hown hk
      rw [Contents.content, Contents.addSymlink, Contents.increment, Contents.setContent,
        getElem?_insert_ite, if_neg (UInt64.ne_of_lt (hw.known k hd hk).2)]
      rfl
  | rmdir _ _ h => exact hs.core fun i _ _ _ _ => h.content i
  | openFile hmax _ => exact hs.opened hmax _ _ _
  | write hfh => exact hs.write hfh _ _
  | truncate hfh =>
      rw [FsOp.setters, Option.bind_some, Files.status_eq_some hfh]
      exact hs.truncate hfh _ _
  | truncateCommitted _ hnone =>
      rw [FsOp.setters_truncate_none hnone]
      exact hs.truncateCommitted _ _ _
  | flush hfh => exact hs.flushed hw hfh _
  | fsync hfh => exact hs.flushed hw hfh _
  | @release _ now _ h hfh =>
      rcases Files.release_cases hfh own now with ⟨hdone, hown⟩ | ⟨hne, hopen, hown⟩
      · rw [hown]
        exact hs.release hfh hdone now
      · rw [hown, Files.release_eq_flush hne hopen]
        exact (hs.flush hw hfh hne now).release (Files.getElem?_flush hne now) (.inr rfl) now

end

section
variable {B : Blockset} {L : B.Laws} {s s₀ : Fs B} {f f₀ : Files} {own : Setters}

def Fs.status (s : Fs B) (fh : UInt64) : Option HandleStatus :=
  (s.openFiles[fh]?).map fun o => ⟨decide (o.byteCount ≠ 0), o.casCommitted⟩

theorem Blockset.Laws.HandleView.byteCount_eq_zero_iff {io : B.Io} {o : OpenFileState B}
    {h : Handle} (hview : L.HandleView io o h) : o.byteCount = 0 ↔ h.content = [] := by
  rw [hview.byteCount, ← UInt64.toNat_inj, toNat_ofNat_length hview.length_le]
  exact List.length_eq_zero_iff

theorem Blockset.Laws.Views.status (hv : L.Views s f) : s.status = f.status := by
  funext fh
  unfold Fs.status Files.status
  cases hfh : f.handles[fh]? with
  | none =>
      rw [hv.getFile_none hfh]
      rfl
  | some h =>
      obtain ⟨o, ho, hview⟩ := hv.getFile_some hfh
      rw [ho, Option.map_some, Option.map_some, hview.committed]
      simp only [ne_eq, hview.byteCount_eq_zero_iff]

/-- The states reached by requests that all meet a condition, with the setters. -/
abbrev SetterRuns (P : Fs B → Setters → FsOp → Prop) (s₀ : Fs B) : Fs B → Setters → Prop :=
  Traces (fun s own op => op.setters s.status own) P s₀ fun _ => none

/-- An invariant of files and setters that the effect of every request keeps holds after
every run from a state without handles. -/
theorem SetterRuns.files (hB : L.Reliable) {P : Fs B → Setters → FsOp → Prop}
    (hP : ∀ s own op, P s own op → op.Valid s) {I : Setters → Files → Prop}
    (h₀ : L.Views s₀ f₀) (hclosed : f₀.handles = ∅) (hI : I (fun _ => none) f₀)
    (hstep : ∀ s f own op f', P s own op → L.NoCollision s.store.io → L.Views s f →
      f.Signed L.digest own → I own f → FsOp.Effect L.digest (s.removedBy op) op f f' →
      I (op.setters f.status own) f')
    (hrun : SetterRuns P s₀ s own) (hc : L.NoCollision s.store.io) :
    ∃ f, L.Views s f ∧ f.Signed L.digest own ∧ I own f := by
  have hstart : f₀.Signed L.digest fun _ => none := by
    refine ⟨fun fh h hfh => ?_, nofun, nofun⟩
    rw [hclosed] at hfh
    simp at hfh
  refine Traces.files hB hP (I := fun own f => f.Signed L.digest own ∧ I own f) h₀ ⟨hstart, hI⟩
    (fun s f own op f' hop hc hv hIf he => ?_) hrun hc
  rw [hv.status]
  exact ⟨he.signed hv.wf hIf.1, hstep s f own op f' hop hc hv hIf.1 hIf.2 he⟩

end

end SliceFs
