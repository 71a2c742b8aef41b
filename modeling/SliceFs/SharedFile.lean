import SliceFs.Sizes

/-!
# One file through several handles

Every write handle works on bytes of its own, and a release makes the bytes of its handle
the content of the file. The writes and truncations of several handles add up as long as
one handle at a time has bytes and each starts from what the file is at that moment.
-/
namespace SliceFs
open TreeMaps ProgramLogic ByteFile

/-- What the file is while none of its handles has bytes: a size of zero stands for a
truncation that no manifest shows yet. -/
def Contents.recorded (c : Contents) (i : UInt64) : Bytes :=
  if (c.inodes[i]?).any (fun m => m.size = 0) then [] else (c.content i).getD []

/-- What a write through a handle without bytes starts from. -/
def Handle.start (h : Handle) (committed : Bytes) (offset : ℕ) : Bytes :=
  if h.FallsBack offset then committed else []

/-- The bytes `b` are what the file `i` should read as. -/
structure Files.Current (f : Files) (i : UInt64) (b : Bytes) : Prop where
  inode : f.core.inodes[i]? ≠ none
  uncommitted : ∀ (fh : UInt64) (h : Handle), f.handles[fh]? = some h → h.ino = i →
    h.committed = false
  written : ∀ (fh : UInt64) (h : Handle), f.handles[fh]? = some h → h.ino = i →
    h.content ≠ [] → h.content = b
  unwritten : (∀ (fh : UInt64) (h : Handle), f.handles[fh]? = some h → h.ino = i →
    h.content = []) → f.core.recorded i = b
  closed : (∀ (fh : UInt64) (h : Handle), f.handles[fh]? = some h → h.ino ≠ i) →
    (f.core.content i).getD [] = b

/-- No handle of the file has bytes, `fh` apart. -/
def Files.Alone (f : Files) (i : UInt64) (fh : Option UInt64) : Prop :=
  ∀ (k : UInt64) (h : Handle), f.handles[k]? = some h → h.ino = i → some k ≠ fh → h.content = []

section
variable {digest : Bytes → Digest224} {f : Files} {i fh n : UInt64} {h : Handle} {b : Bytes}

/-- What the file is when a handle is used that alone may have bytes. -/
theorem Files.Current.of_alone (hcur : f.Current i b) (hfh : f.handles[fh]? = some h)
    (hi : h.ino = i) (halone : f.Alone i (some fh)) :
    b = if h.content = [] then f.core.recorded i else h.content := by
  split_ifs with hnil
  · refine (hcur.unwritten fun k hd hk hki => ?_).symm
    by_cases hkf : k = fh
    · rw [hkf, hfh] at hk
      obtain rfl := Option.some.inj hk
      exact hnil
    · exact halone k hd hk hki fun he => hkf (Option.some.inj he)
  · exact (hcur.written fh h hfh hi hnil).symm

/-- The handle of a file is replaced by one that holds what the file is now. -/
theorem Files.Current.put (hcur : f.Current i b) (halone : f.Alone i (some fh)) {c : Contents}
    {h' : Handle} {b' : Bytes} (hi : h'.ino = i) (hc : c.inodes[i]? ≠ none)
    (huncommitted : h'.committed = false) (hcontent : h'.content = b')
    (hrecorded : b' = [] → c.recorded i = []) :
    Files.Current ⟨c, f.handles.insert fh h', f.nextFh⟩ i b' where
  inode := hc
  uncommitted k hd hk hki := by
    rw [getElem?_insert_ite] at hk
    split_ifs at hk
    · obtain rfl := Option.some.inj hk
      exact huncommitted
    · exact hcur.uncommitted k hd hk hki
  written k hd hk hki hne := by
    rw [getElem?_insert_ite] at hk
    split_ifs at hk with hkf
    · obtain rfl := Option.some.inj hk
      exact hcontent
    · exact absurd (halone k hd hk hki fun he => hkf (Option.some.inj he)) hne
  unwritten hnone := by
    have hnil := hnone fh h' (by rw [getElem?_insert_ite, if_pos rfl]) hi
    rw [hcontent] at hnil
    rw [hnil]
    exact hrecorded hnil
  closed hnone := absurd hi (hnone fh h' (by rw [getElem?_insert_ite, if_pos rfl]))

theorem Files.Current.write (hcur : f.Current i b) (hfh : f.handles[fh]? = some h)
    (hi : h.ino = i) (halone : f.Alone i (some fh)) {offset : ℕ} {data : Bytes} (hdata : data ≠ [])
    (hstart : h.content = [] →
      pwrite 0 (h.start ((f.core.content i).getD []) offset) offset data =
        pwrite 0 (f.core.recorded i) offset data) :
    (f.write fh h offset data).Current i (pwrite 0 b offset data) := by
  have hcontent : (h.write (f.core.content h.ino) offset data).content =
      pwrite 0 b offset data := by
    rw [hcur.of_alone hfh hi halone]
    by_cases hnil : h.content = []
    · rw [if_pos hnil, ← hstart hnil, ← hi]
      unfold Handle.write Handle.start Handle.base
      split_ifs
      · rfl
      · rw [hnil]
    · rw [if_neg hnil, h.content_write_of_ne _ _ _ hnil]
  refine hcur.put halone ((h.ino_write _ _ _).trans hi) ?_ (h.committed_write _ _ _) hcontent
    fun hnil => absurd hnil (pwrite_ne_nil hdata)
  split_ifs
  · exact hcur.inode
  · exact hcur.inode

theorem Contents.setSize_ne_none {c : Contents} (hc : c.inodes[i]? ≠ none) (n : UInt64)
    (now : Now) :
    (c.setSize i n now).inodes[i]? ≠ none := by
  obtain ⟨m, hm⟩ := Option.ne_none_iff_exists'.mp hc
  rw [Contents.setSize, Contents.modifyInode_self hm]
  exact Option.some_ne_none _

theorem Contents.recorded_setSize {c : Contents} (hc : c.inodes[i]? ≠ none) (n : UInt64)
    (now : Now) :
    (c.setSize i n now).recorded i = if n = 0 then [] else (c.content i).getD [] := by
  obtain ⟨m, hm⟩ := Option.ne_none_iff_exists'.mp hc
  rw [Contents.recorded, Contents.setSize, Contents.modifyInode_self hm,
    Contents.content_modifyInode, Option.any_some]
  simp only [decide_eq_true_eq]
  rfl

theorem Files.Current.truncate (hcur : f.Current i b) (hfh : f.handles[fh]? = some h)
    (hi : h.ino = i) (halone : f.Alone i (some fh))
    (hstart : h.content = [] →
      resize 0 n.toNat ([] : Bytes) = resize 0 n.toNat (f.core.recorded i)) (now : Now) :
    (f.truncate fh h n now).Current i (resize 0 n.toNat b) := by
  have hcontent : (h.truncate n).content = resize 0 n.toNat b := by
    show resize 0 n.toNat h.content = _
    rw [hcur.of_alone hfh hi halone]
    by_cases hnil : h.content = []
    · rw [if_pos hnil, hnil, hstart hnil]
    · rw [if_neg hnil]
  have hdropped : ∀ c : Contents, c = (if h.Releases n then f.core.drop h.last else f.core) →
      c.inodes[i]? ≠ none := by
    rintro _ rfl
    split_ifs
    · exact hcur.inode
    · exact hcur.inode
  subst hi
  refine hcur.put halone rfl (Contents.setSize_ne_none (hdropped _ rfl) n now) rfl hcontent
    fun hnil => ?_
  have hn : n = 0 := by
    by_contra hne
    exact resize_ne_nil hne hnil
  rw [Contents.recorded_setSize (hdropped _ rfl), if_pos hn]

theorem Files.Current.truncateCommitted (hcur : f.Current i b) (halone : f.Alone i none)
    (hstart : resize 0 n.toNat ((f.core.content i).getD []) =
      resize 0 n.toNat (f.core.recorded i)) (now : Now) :
    (f.truncateCommitted digest i n now).Current i (resize 0 n.toNat b) := by
  have hempty : ∀ (k : UInt64) (hd : Handle), f.handles[k]? = some hd → hd.ino = i →
      hd.content = [] := fun k hd hk hki => halone k hd hk hki nofun
  have hlive : (f.core.resizeContent digest i n).inodes[i]? ≠ none := by
    rw [Contents.inodes_resizeContent]
    exact hcur.inode
  have hcontent : ((f.core.resizeContent digest i n).content i).getD [] = resize 0 n.toNat b := by
    rw [Contents.content_resizeContent, hstart, hcur.unwritten hempty]
  refine ⟨Contents.setSize_ne_none hlive n now, hcur.uncommitted,
    fun k hd hk hki hne => absurd (hempty k hd hk hki) hne, fun _ => ?_, fun _ => ?_⟩
  · rw [Files.truncateCommitted, Contents.recorded_setSize hlive]
    split_ifs with hn
    · rw [hn]
      exact (resize_zero 0 b).symm
    · exact hcontent
  · rw [Files.truncateCommitted, Contents.setSize, Contents.content_modifyInode]
    exact hcontent

/-- A release with bytes makes them the content. -/
theorem Files.Current.release_written (hcur : f.Current i b) (hfh : f.handles[fh]? = some h)
    (hi : h.ino = i) (hlen : h.content.length ≤ isizeMax) (hne : h.content ≠ []) (now : Now) :
    (f.release digest fh h now).Current i b := by
  subst hi
  have hb : h.content = b := hcur.written fh h hfh rfl hne
  obtain ⟨m, hm⟩ := Option.ne_none_iff_exists'.mp hcur.inode
  have hm' : (f.core.record digest h.ino h.last h.content).inodes[h.ino]? = some m := hm
  have hcore : f.releasedCore digest h now =
      (f.core.record digest h.ino h.last h.content).modifyInode
      h.ino fun m => m.setWritten (UInt64.ofNat h.content.length) now := by
    have hnew : ¬ (h.last = some (digest h.content) ∧ h.committed = true) := by
      rw [hcur.uncommitted fh h hfh rfl]
      exact fun he => Bool.false_ne_true he.2
    rw [Files.releasedCore, if_neg hne, if_neg hnew]
  have hinode : (f.releasedCore digest h now).inodes[h.ino]? =
      some (m.setWritten (UInt64.ofNat h.content.length) now) := by
    rw [hcore, Contents.modifyInode_self hm']
  have hcontent : (f.releasedCore digest h now).content h.ino = some b := by
    rw [hcore, Contents.content_modifyInode, Contents.content_record, hb]
  have hothers : ∀ (k : UInt64) (hd : Handle), (f.handles.erase fh)[k]? = some hd →
      f.handles[k]? = some hd := by
    intro k hd hk
    rw [getElem?_erase_ite] at hk
    split_ifs at hk
    exact hk
  refine ⟨?_, fun k hd hk hki => hcur.uncommitted k hd (hothers k hd hk) hki,
    fun k hd hk hki hne => hcur.written k hd (hothers k hd hk) hki hne, fun _ => ?_, fun _ => ?_⟩
  · rw [Files.release, hinode]
    exact Option.some_ne_none _
  · have hsize : UInt64.ofNat h.content.length ≠ 0 := by
      intro hz
      have hlen' := toNat_ofNat_length hlen
      rw [hz] at hlen'
      exact hne (List.eq_nil_of_length_eq_zero hlen'.symm)
    rw [Contents.recorded, Files.release, hinode, hcontent, Option.any_some, if_neg]
    · rfl
    · rw [decide_eq_true_eq]
      exact hsize
  · rw [Files.release, hcontent]
    rfl

/-- A release without bytes leaves the file alone, which must be complete if no handle is
left. -/
theorem Files.Current.release_unwritten (hcur : f.Current i b) (hfh : f.handles[fh]? = some h)
    (hi : h.ino = i) (hnil : h.content = [])
    (hlast : (∃ (k : UInt64) (hd : Handle), f.handles[k]? = some hd ∧ hd.ino = i ∧ k ≠ fh) ∨
      (f.core.content i).getD [] = f.core.recorded i) (now : Now) :
    (f.release digest fh h now).Current i b := by
  subst hi
  have hothers : ∀ (k : UInt64) (hd : Handle), (f.release digest fh h now).handles[k]? = some hd ↔
      k ≠ fh ∧ f.handles[k]? = some hd := by
    intro k hd
    rw [Files.release, getElem?_erase_ite]
    split_ifs with hk <;> simp [hk]
  -- the handle itself has no bytes either
  have hall : (∀ (k : UInt64) (hd : Handle), (f.release digest fh h now).handles[k]? = some hd →
      hd.ino = h.ino → hd.content = []) → f.core.recorded h.ino = b := by
    intro hnone
    refine hcur.unwritten fun k hd hk hki => ?_
    by_cases hkf : k = fh
    · rw [hkf, hfh] at hk
      obtain rfl := Option.some.inj hk
      exact hnil
    · exact hnone k hd ((hothers k hd).mpr ⟨hkf, hk⟩) hki
  refine ⟨by rw [Files.inodes_release_of_nil hnil]; exact hcur.inode,
    fun k hd hk hki => hcur.uncommitted k hd ((hothers k hd).mp hk).2 hki,
    fun k hd hk hki hne => hcur.written k hd ((hothers k hd).mp hk).2 hki hne,
    fun hnone => ?_, fun hnone => ?_⟩
  · rw [Contents.recorded, Files.inodes_release_of_nil hnil, Files.content_release_of_nil hnil]
    exact hall hnone
  · rw [Files.content_release_of_nil hnil]
    rcases hlast with ⟨k, hd, hk, hki, hne⟩ | hrecorded
    · exact absurd hki (hnone k hd ((hothers k hd).mpr ⟨hne, hk⟩))
    · rw [hrecorded]
      exact hall fun k hd hk hki => absurd hki (hnone k hd hk)

theorem Files.Current.insertHandle (hcur : f.Current i b)
    (hnew : f.handles[f.nextFh + 1]? = none) : (f.insertHandle i).Current i b := by
  have hhandles : ∀ (k : UInt64) (hd : Handle), (f.insertHandle i).handles[k]? = some hd →
      hd = .new i ∨ f.handles[k]? = some hd := by
    intro k hd hk
    rw [Files.insertHandle, getElem?_insert_ite] at hk
    split_ifs at hk
    · exact .inl (Option.some.inj hk).symm
    · exact .inr hk
  refine ⟨hcur.inode, fun k hd hk hki => ?_, fun k hd hk hki hne => ?_, fun hnone => ?_,
    fun hnone => ?_⟩
  · rcases hhandles k hd hk with rfl | hold
    · rfl
    · exact hcur.uncommitted k hd hold hki
  · rcases hhandles k hd hk with rfl | hold
    · exact absurd rfl hne
    · exact hcur.written k hd hold hki hne
  · refine hcur.unwritten fun k hd hk hki => hnone k hd ?_ hki
    rw [Files.insertHandle, getElem?_insert_ite, if_neg]
    · exact hk
    · rintro rfl
      rw [hnew] at hk
      cases hk
  · refine absurd rfl (hnone (f.nextFh + 1) (.new i) ?_)
    rw [Files.insertHandle, getElem?_insert_ite, if_pos rfl]

theorem Files.Current.opened (hcur : f.Current i b) (hnew : f.handles[f.nextFh + 1]? = none)
    {flags : UInt32} (hflags : flags &&& O_TRUNC = 0) (now : Now) :
    (f.opened i flags now).Current i b := by
  unfold Files.opened
  split_ifs
  · exact hcur.insertHandle hnew
  · exact ⟨hcur.inode, hcur.uncommitted, hcur.written, hcur.unwritten, hcur.closed⟩

end

/-- What a request makes of the content of the file it is about. -/
def FsOp.content (b : Bytes) : FsOp → Bytes
  | write _ offset data => pwrite 0 b offset.toNat data
  | truncate _ _ n _ => resize 0 n.toNat b
  | _ => b

section
variable {B : Blockset} {L : B.Laws} {s : Fs B} {f f' : Files} {i : UInt64} {b : Bytes}

/-- The requests of the write handles of file `i`, and its truncation without a handle. -/
def FsOp.OnFile (i : UInt64) (s : Fs B) : FsOp → Prop
  | openFile ino flags _ => ino = i ∧ flags &&& O_TRUNC = 0
  | write fh _ data => (s.openFiles[fh]?).any (fun o => o.ino = i) ∧ data ≠ []
  | truncate ino _ _ _ => ino = i
  | release ino _ _ => ino = i
  | _ => False

/-- What the file is while none of its handles has bytes. -/
def Fs.recorded (s : Fs B) (i : UInt64) : Bytes :=
  if (s.inode i).any (fun m => m.size = 0) then [] else (s.committed i).getD []

/-- No handle of the file has bytes, `fh` apart. -/
def Fs.Alone (s : Fs B) (i : UInt64) (fh : Option UInt64) : Prop :=
  ∀ p ∈ s.openFiles.toList, p.2.ino = i → some p.1 ≠ fh → p.2.byteCount = 0

/-- Another handle of the file is open. -/
def Fs.Shared (s : Fs B) (i fh : UInt64) : Prop :=
  ∃ p ∈ s.openFiles.toList, p.2.ino = i ∧ p.1 ≠ fh

/-- What a write through a handle without bytes starts from. -/
def OpenFileState.start (o : OpenFileState B) (committed : Bytes) (offset : UInt64) : Bytes :=
  match o.writeMode with
  | .streaming _ nextExpectedOffset => if offset = nextExpectedOffset then [] else committed
  | .buffered _ => []

/-- What a truncation starts from, through a handle without bytes or past the handles. -/
def Fs.truncateStart (s : Fs B) (i : UInt64) (fh : Option UInt64) : Bytes :=
  if (fh.bind fun j => s.openFiles[j]?).isSome then [] else (s.committed i).getD []

/-- No other handle of the file has bytes, what the request starts from gives the same as
what the file is, and the last handle is not released while a truncation is pending. -/
def FsOp.KeepsUpdates (i : UInt64) (s : Fs B) : FsOp → Prop
  | write fh offset data => s.Alone i (some fh) ∧ ∀ o ∈ s.openFiles[fh]?, o.byteCount = 0 →
      pwrite 0 (o.start ((s.committed i).getD []) offset) offset.toNat data =
        pwrite 0 (s.recorded i) offset.toNat data
  | truncate _ fh n _ => s.Alone i fh ∧
      ((∀ o ∈ fh.bind (fun j => s.openFiles[j]?), o.byteCount = 0) →
        resize 0 n.toNat (s.truncateStart i fh) = resize 0 n.toNat (s.recorded i))
  | release _ fh _ => ∀ o ∈ s.openFiles[fh]?, o.byteCount = 0 →
      s.Shared i fh ∨ (s.committed i).getD [] = s.recorded i
  | _ => True

instance (s : Fs B) (i : UInt64) (op : FsOp) : Decidable (op.OnFile i s) := by
  apply FsOp.casesOn (motive := fun op => Decidable (op.OnFile i s)) op <;> intros <;>
    unfold FsOp.OnFile <;> infer_instance

instance (s : Fs B) (i : UInt64) (fh : Option UInt64) : Decidable (s.Alone i fh) :=
  inferInstanceAs (Decidable (∀ p ∈ _, _))

instance (s : Fs B) (i fh : UInt64) : Decidable (s.Shared i fh) :=
  inferInstanceAs (Decidable (∃ p ∈ _, _))

instance (s : Fs B) (i : UInt64) (op : FsOp) : Decidable (op.KeepsUpdates i s) := by
  -- over the handle, not over all states of one
  have hwrite : ∀ (fh offset : UInt64) (data : Bytes),
      Decidable (∀ o ∈ s.openFiles[fh]?, o.byteCount = 0 →
        pwrite 0 (o.start ((s.committed i).getD []) offset) offset.toNat data =
          pwrite 0 (s.recorded i) offset.toNat data) := fun _ _ _ => Option.decidableForallMem _
  have htruncate : ∀ fh : Option UInt64,
      Decidable (∀ o ∈ fh.bind (fun j => s.openFiles[j]?), o.byteCount = 0) :=
    fun _ => Option.decidableForallMem _
  have hrelease : ∀ fh : UInt64, Decidable (∀ o ∈ s.openFiles[fh]?, o.byteCount = 0 →
      s.Shared i fh ∨ (s.committed i).getD [] = s.recorded i) :=
    fun _ => Option.decidableForallMem _
  apply FsOp.casesOn (motive := fun op => Decidable (op.KeepsUpdates i s)) op <;> intros <;>
    unfold FsOp.KeepsUpdates <;> infer_instance

namespace Blockset.Laws.Views

theorem recorded (hv : L.Views s f) (hc : L.NoCollision s.store.io) (i : UInt64) :
    s.recorded i = f.core.recorded i := by
  rw [Fs.recorded, Contents.recorded, hv.inode hc, hv.committed_getD hc]

theorem alone (hv : L.Views s f) {fh : Option UInt64} (h : s.Alone i fh) : f.Alone i fh := by
  intro k hd hk hi hne
  obtain ⟨o, ho, hview⟩ := hv.getFile_some hk
  have hmem : (k, o) ∈ s.openFiles.toList := Std.ExtTreeMap.mem_toList_iff_getElem?_eq_some.mpr ho
  exact (byteCount_eq_zero_iff hview).mp (h (k, o) hmem (hview.ino.trans hi) hne)

theorem shared (hv : L.Views s f) {fh : UInt64} (h : s.Shared i fh) :
    ∃ (k : UInt64) (hd : Handle), f.handles[k]? = some hd ∧ hd.ino = i ∧ k ≠ fh := by
  obtain ⟨⟨k, o⟩, hmem, hi, hne⟩ := h
  have ho : s.openFiles[k]? = some o := Std.ExtTreeMap.mem_toList_iff_getElem?_eq_some.mp hmem
  cases hk : f.handles[k]? with
  | none =>
      rw [hv.getFile_none hk] at ho
      cases ho
  | some hd =>
      obtain ⟨o', ho', hview⟩ := hv.getFile_some hk
      rw [ho] at ho'
      obtain rfl := Option.some.inj ho'
      exact ⟨k, hd, hk, hview.ino.symm.trans hi, hne⟩

end Blockset.Laws.Views

theorem Blockset.Laws.HandleView.start {io : B.Io} {o : OpenFileState B} {h : Handle}
    (hview : L.HandleView io o h) (hnil : h.content = []) (committed : Bytes) (offset : UInt64) :
    o.start committed offset = h.start committed offset.toNat := by
  obtain ⟨ino, buffered, content, isCommitted, last⟩ := h
  have hmode : L.ModeView io o.writeMode buffered content := hview.mode
  have hempty : content = [] := hnil
  unfold OpenFileState.start Handle.start
  generalize o.writeMode = mode at hmode
  cases hmode with
  | @streaming state =>
      have hnext : UInt64.ofNat (L.content state).length = 0 := by rw [hempty]; rfl
      have hlen : (L.content state).length = 0 := by rw [hempty]; rfl
      by_cases hz : offset = 0
      · have hstays : ¬ (⟨ino, false, L.content state, isCommitted, last⟩ : Handle).FallsBack
            offset.toNat := by
          rintro ⟨-, hne⟩
          exact hne (by rw [hz, hlen]; rfl)
        rw [if_neg hstays]
        exact if_pos (hz.trans hnext.symm)
      · have hfalls : (⟨ino, false, L.content state, isCommitted, last⟩ : Handle).FallsBack
            offset.toNat := by
          refine ⟨rfl, fun he => hz (UInt64.toNat_inj.mp ?_)⟩
          rw [he, hlen]
          rfl
        rw [if_pos hfalls]
        exact if_neg (by rw [hnext]; exact hz)
  | buffered => rfl

/-- A handle that is not open is no exception. -/
theorem Files.Alone.of_closed {fh : Option UInt64} (h : f.Alone i fh)
    (hfh : fh.bind (fun j => f.handles[j]?) = none) : f.Alone i none := by
  intro k hd hk hi _
  refine h k hd hk hi ?_
  rintro rfl
  rw [Option.bind_some, hk] at hfh
  cases hfh

/-- Every request on the file does to its content what it should. -/
theorem Blockset.Laws.Views.current (hv : L.Views s f) (hc : L.NoCollision s.store.io) {op : FsOp}
    (hvalid : op.Valid s) (hon : op.OnFile i s) (hkeeps : op.KeepsUpdates i s)
    {removed : Option UInt64} (hcur : f.Current i b) (he : FsOp.Effect L.digest removed op f f') :
    f'.Current i (op.content b) := by
  cases he with
  | edit hop _ =>
      cases op with
      | openFile | truncate | write | release => exact absurd (by trivial) hop
      | _ => exact hon.elim
  | closed hop hfh =>
      cases op with
      | write =>
          obtain rfl := Option.some.inj hop
          have hopen := hon.1
          rw [hv.getFile_none hfh] at hopen
          exact absurd hopen Bool.false_ne_true
      | release => exact hcur
      | flush | fsync => exact hon.elim
      | _ => cases hop
  | create => exact hon.elim
  | symlink => exact hon.elim
  | rmdir => exact hon.elim
  | openFile hmax _ =>
      obtain ⟨rfl, hflags⟩ := hon
      exact hcur.opened (hv.wf.nextFh_closed hmax) hflags _
  | write hfh =>
      obtain ⟨o, ho, hview⟩ := hv.getFile_some hfh
      have hi : o.ino = i := by simpa [ho] using hon.1
      refine hcur.write hfh (hview.ino.symm.trans hi) (hv.alone hkeeps.1) hon.2 fun hnil => ?_
      have hstart := hkeeps.2 o ho ((byteCount_eq_zero_iff hview).mpr hnil)
      rw [hview.start hnil, hv.recorded hc, hv.committed_getD hc] at hstart
      exact hstart
  | truncate hfh =>
      obtain ⟨o, ho, hview⟩ := hv.getFile_some hfh
      refine hcur.truncate hfh hon (hv.alone hkeeps.1) (fun hnil => ?_) _
      have hstart := hkeeps.2 (by simpa [ho] using (byteCount_eq_zero_iff hview).mpr hnil)
      rw [Fs.truncateStart, hv.recorded hc] at hstart
      simpa [ho] using hstart
  | @truncateCommitted _ _ fh _ _ _ hfh =>
      obtain rfl : _ = i := hon
      have hclosed : fh.bind (fun j => s.openFiles[j]?) = none := by
        cases fh with
        | none => rfl
        | some j => exact hv.getFile_none hfh
      have hstart := hkeeps.2 (by rw [hclosed]; nofun)
      rw [Fs.truncateStart, hclosed, hv.recorded hc, hv.committed_getD hc] at hstart
      exact hcur.truncateCommitted ((hv.alone hkeeps.1).of_closed hfh) hstart _
  | flush => exact hon.elim
  | fsync => exact hon.elim
  | @release _ _ _ h hfh =>
      obtain rfl : h.ino = i := hon
      obtain ⟨o, ho, hview⟩ := hv.getFile_some hfh
      by_cases hnil : h.content = []
      · refine hcur.release_unwritten hfh rfl hnil ?_ _
        have hlast := hkeeps o ho ((byteCount_eq_zero_iff hview).mpr hnil)
        rw [hv.recorded hc, hv.committed_getD hc] at hlast
        exact hlast.imp_left hv.shared
      · exact hcur.release_written hfh rfl hview.length_le hnil _

theorem Blockset.Laws.Views.closed (hv : L.Views s f)
    (hclosed : ∀ p ∈ s.openFiles.toList, p.2.ino ≠ i) (fh : UInt64) (h : Handle)
    (hfh : f.handles[fh]? = some h) : h.ino ≠ i := by
  obtain ⟨o, ho, hview⟩ := hv.getFile_some hfh
  rw [← hview.ino]
  exact hclosed (fh, o) (Std.ExtTreeMap.mem_toList_iff_getElem?_eq_some.mpr ho)

theorem Blockset.Laws.Views.current_start (hv : L.Views s f) (hc : L.NoCollision s.store.io)
    {m : InodeMeta} (hm : s.inode i = some m) (hclosed : ∀ p ∈ s.openFiles.toList, p.2.ino ≠ i)
    (hsize : m.size = 0 → (s.committed i).getD [] = []) :
    f.Current i ((s.committed i).getD []) where
  inode := by
    rw [← hv.inode hc, hm]
    exact Option.some_ne_none m
  uncommitted fh h hfh hi := absurd hi (hv.closed hclosed fh h hfh)
  written fh h hfh hi := absurd hi (hv.closed hclosed fh h hfh)
  unwritten _ := by
    rw [← hv.recorded hc, Fs.recorded, hm, Option.any_some]
    split_ifs with hz
    · exact (hsize (of_decide_eq_true hz)).symm
    · rfl
  closed _ := (hv.committed_getD hc i).symm

/-- Of all writes and truncations of a file, through any number of handles and past them,
none is lost once the handles are closed, if one handle at a time has bytes and each starts
from what the file is. -/
theorem no_lost_update (hB : B.NoIoErrors) {overflowChecks : Bool} {s₀ : Fs B}
    (hs : Mounted L overflowChecks s₀) {m : InodeMeta} (hm : s₀.inode i = some m)
    (hclosed₀ : ∀ p ∈ s₀.openFiles.toList, p.2.ino ≠ i)
    (hsize : m.size = 0 → (s₀.committed i).getD [] = [])
    (hrun : Traces (fun _ b op => op.content b)
      (fun s _ op => op.Valid s ∧ op.OnFile i s ∧ op.KeepsUpdates i s)
      s₀ ((s₀.committed i).getD []) s b)
    (hc : L.NoCollision s.store.io) (hclosed : ∀ p ∈ s.openFiles.toList, p.2.ino ≠ i) :
    (s.committed i).getD [] = b := by
  have hB := hB.reliable L
  have hc₀ := hc.of_le (hrun.le L).1
  obtain ⟨f₀, hv₀⟩ := hs.views hB hc₀
  have hstart : f₀.Current i ((s₀.committed i).getD []) := hv₀.current_start hc₀ hm hclosed₀ hsize
  obtain ⟨f, hv, hcur⟩ := Traces.files hB (fun _ _ _ h => h.1) (I := fun b f => f.Current i b) hv₀
    hstart (fun _ _ _ _ _ hop hc hv hcur he => hv.current hc hop.1 hop.2.1 hop.2.2 hcur he) hrun hc
  rw [hv.committed_getD hc]
  exact hcur.closed (hv.closed hclosed)

end

/-- A saved file is written through two handles, one after the other. -/
def takenTurns : List FsOp :=
  [.openFile 2 O_WRONLY midnight, .openFile 2 O_WRONLY midnight, .write 2 3 [4], .write 2 4 [5],
    .release 2 2 midnight, .truncate 2 none 4 midnight, .write 3 4 [6], .release 2 3 midnight]

def takenTurnsRun : Fs memoryBlockset × Bytes :=
  (runTraced (fun _ b op => op.content b)
    (fun s _ op => op.Valid s ∧ op.OnFile 2 s ∧ op.KeepsUpdates 2 s) takenTurns savedFs
    ((savedFs.committed 2).getD [])).get (by decide +kernel)

theorem no_lost_update_takenTurns :
    takenTurnsRun.2 = [1, 2, 3, 4, 6] ∧
    (takenTurnsRun.1.committed 2).getD [] = takenTurnsRun.2 := by
  have hm : savedFs.inode 2 = some ((savedFs.inode 2).get (by decide +kernel)) :=
    (Option.some_get _).symm
  refine ⟨by decide +kernel, no_lost_update memoryBlockset_noIoErrors (mounted_savedFs true) hm
    (by decide +kernel) (by decide +kernel) ((Traces.refl _ _).runTraced (Option.some_get _).symm)
    (memoryLaws_noCollision (by decide +kernel)) (by decide +kernel)⟩

/-- Two handles of a saved file that are used at the same time. -/
def bothAtOnce : List FsOp :=
  [.openFile 2 O_WRONLY midnight, .openFile 2 O_WRONLY midnight, .write 2 3 [4], .write 3 4 [5],
    .release 2 2 midnight, .release 2 3 midnight]

def bothAtOnceFs : Fs memoryBlockset := (runFsOps bothAtOnce savedFs).get (by decide +kernel)

theorem update_lost :
    Mounted memoryLaws true bothAtOnceFs ∧
    bothAtOnceFs.openFiles.isEmpty = true ∧
    bothAtOnce.foldl (fun b op => op.content b) ((savedFs.committed 2).getD []) = [1, 2, 3, 4, 5] ∧
    bothAtOnceFs.committed 2 = some [1, 2, 3, 0, 5] :=
  ⟨(mounted_savedFs true).runFsOps (Option.some_get _).symm, by decide +kernel, by decide +kernel,
    by decide +kernel⟩

end SliceFs
