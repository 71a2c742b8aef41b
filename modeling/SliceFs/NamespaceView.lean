import SliceFs.OpenView

/-!
# Names, seen by the files

The operations on names change contents in few ways: they add an empty inode, change
attributes, or delete the inode that lost its last name.
-/
namespace SliceFs
open TreeMaps ProgramLogic ByteFile

section
variable {B : Blockset} {α : Type} {L : B.Laws} {s : Fs B} {f : Files}

/-- The inode a name stands for. -/
def Fs.resolve (s : Fs B) (parent : UInt64) (name : Str) : Option UInt64 :=
  (lookup parent name s.store).1.toOption

/-- The attributes of an inode. -/
def Fs.inode (s : Fs B) (i : UInt64) : Option InodeMeta := (getInode i s.store).1.toOption

/-- A file whose last name is about to go. -/
def Fs.isLastLink (s : Fs B) (i : UInt64) : Bool :=
  (s.inode i).any fun m => ¬ m.isDir ∧ m.nlinks ≤ 1

theorem Blockset.Laws.Views.inode (h : L.Views s f) (hc : L.NoCollision s.store.io) (i : UInt64) :
    s.inode i = f.core.inodes[i]? := by
  rw [Fs.inode, getInode_eq h.core hc, Contents.getInode]
  cases f.core.inodes[i]? <;> rfl

/-- A lookup changes at most the backend. -/
theorem lookup_snd (p : UInt64) (name : Str) (st : Store B) :
    ∃ io, lookup p name st = ((lookup p name st).1, { st with io := io }) := by
  have hdig := dirDigestOf_apply p st
  unfold lookup
  cases hd : st.maps.dirData[p]? with
  | none =>
      rw [hd] at hdig
      exact ⟨st.io, by rw [Prog.bind_error hdig]⟩
  | some d =>
      rw [hd] at hdig
      rw [Prog.bind_ok hdig]
      refine ⟨(lookupDirEntry B d name st.io).2, ?_⟩
      unfold Prog.mapErr onIo Prog.zoom
      cases (lookupDirEntry B d name st.io).1 <;> rfl

variable (L) in
/-- What a name stands for in an entry list. -/
def Blockset.Laws.entryOf (name : Str) (b : Bytes) : Except (Fault MetaError) UInt64 :=
  (noPanic deserializeEntryList b).bind fun entries =>
    ((entries[L.digest name.bytes]?).map EntryRecord.ino).elim (.error (.err (.notFound 0))) .ok

theorem lookupDirEntry_fst (hB : L.Reliable) {io : B.Io} (hc : L.NoCollision io) {b : Bytes}
    (hb : b ∈ L.stored io) (name : Str) :
    (lookupDirEntry B (L.digest b) name io).1 = L.entryOf name b := by
  have hload : loadEntryList B (L.digest b) io = (noPanic deserializeEntryList b, io) :=
    loadRecord_of_stored L hc hb
  unfold lookupDirEntry Blockset.Laws.entryOf
  cases hd : noPanic deserializeEntryList b with
  | error e =>
      rw [hd] at hload
      rw [Prog.bind_error hload]
      rfl
  | ok entries =>
      rw [hd] at hload
      rw [Prog.bind_ok hload]
      obtain ⟨w, hw, -, -⟩ := L.step_pushAll_eq (ε := MetaError) hB name.bytes (B.new io)
      unfold Blockset.withFsa Prog.zoom entryKey
      rw [Prog.bind_ok hw]
      show _ = Option.elim _ _ _
      cases entries[L.digest name.bytes]? <;> rfl

/-- What a name stands for does not depend on what else the backend has. -/
theorem lookup_grow (hB : L.Reliable) {st : Store B} {c : Contents} (h : L.Holds st c) {io : B.Io}
    (hle : L.le st.io io) (hc : L.NoCollision io) (p : UInt64) (name : Str) :
    (lookup p name { st with io := io }).1 = (lookup p name st).1 := by
  have hdig := dirDigestOf_apply p st
  have hdig' := dirDigestOf_apply p { st with io := io }
  unfold lookup
  cases hd : st.maps.dirData[p]? with
  | none =>
      rw [hd] at hdig hdig'
      rw [Prog.bind_error hdig, Prog.bind_error hdig']
  | some d =>
      rw [hd] at hdig hdig'
      obtain ⟨b, hb, rfl⟩ := h.dirs p d hd
      rw [Prog.bind_ok hdig, Prog.bind_ok hdig']
      have h₁ := lookupDirEntry_fst hB (hc.of_le hle) hb name
      have h₂ := lookupDirEntry_fst hB hc (L.stored_mono hle hb) name
      unfold Prog.mapErr onIo Prog.zoom
      rw [h₁, h₂]
      cases L.entryOf name b <;> rfl

/-- A lookup, seen by the files: only the backend may grow. -/
theorem callStore_lookup_eq (h : L.Views s f) (errno : MetaError → Errno) (p : UInt64)
    (name : Str) :
    ∃ s', callStore errno (lookup p name) s =
        ((lookup p name s.store).1.mapError (Fault.map errno), s') ∧
      L.Views s' f ∧ L.le s.store.io s'.store.io ∧
      s' = { s with store := { s.store with io := s'.store.io } } := by
  obtain ⟨io, hio⟩ := lookup_snd p name s.store
  have hle : L.le s.store.io io := le_of_run hio
  refine ⟨{ s with store := { s.store with io := io } }, ?_, h.grow hle, hle, rfl⟩
  rw [callStore, Prog.mapErr, onStore_eq hio]
  cases (lookup p name s.store).1 <;> rfl

/-- A lookup that tells failure from success. -/
theorem attempt_lookup_eq (h : L.Views s f) (p : UInt64) (name : Str) :
    ∃ s', L.Views s' f ∧
      ((∃ r, Prog.attempt (onStore (lookup p name)) s =
          ((.ok r, s') : Except (Fault Errno) _ × _) ∧ r.toOption = s.resolve p name) ∨
        Prog.attempt (onStore (lookup p name)) s =
          ((.error .panic, s') : Except (Fault Errno) _ × _)) := by
  obtain ⟨io, hio⟩ := lookup_snd p name s.store
  refine ⟨{ s with store := { s.store with io := io } }, h.grow (le_of_run hio), ?_⟩
  unfold Prog.attempt Fs.resolve
  rw [onStore_eq hio]
  cases (lookup p name s.store).1 with
  | ok i => exact .inl ⟨.ok i, rfl, rfl⟩
  | error e =>
      cases e with
      | err e => exact .inl ⟨.error e, rfl, rfl⟩
      | panic => exact .inr rfl

/-- Editing the entry list of a directory leaves the files alone. -/
theorem Blockset.Laws.Views.link (hB : L.Reliable) (h : L.Views s f) (p : UInt64) (name : Str)
    (i : UInt64) : L.Views { s with store := (link p name i s.store).2 } f :=
  h.store ((growing_link (g := L.growthQuiet) p name i).le_run s.store).1
    (h.core.link hB p name i) (UInt64.le_refl _)

theorem Blockset.Laws.Views.unlink (hB : L.Reliable) (h : L.Views s f) (p : UInt64)
    (name : Str) : L.Views { s with store := (unlink p name s.store).2 } f :=
  h.store ((growing_unlink (g := L.growthQuiet) p name).le_run s.store).1
    (h.core.unlink hB p name) (UInt64.le_refl _)

/-- A call that ends in the same state however it ends. -/
theorem wp_callStore {errno : MetaError → Errno} {m : StoreM B α} {P : Fs B → Prop}
    (h : L.NoCollision (m s.store).2.io → P { s with store := (m s.store).2 }) :
    wp L.growthFs (callStore errno m) (fun _ s' => P s') s := by
  unfold wp callStore Prog.mapErr onStore Prog.zoom
  cases (m s.store).1 <;> exact h

theorem wp_attempt_onStore {m : StoreM B α} {P : Fs B → Prop}
    (h : P { s with store := (m s.store).2 }) :
    wp L.growthFs (Prog.attempt (onStore m) : FsM B (Except MetaError α))
      (fun r s' => (∀ e, r = .error e → e = .panic) ∧ P s') s := by
  intro _
  unfold Prog.attempt onStore Prog.zoom
  cases (m s.store).1 with
  | ok a => exact ⟨nofun, h⟩
  | error e =>
      cases e with
      | err e => exact ⟨nofun, h⟩
      | panic => exact ⟨fun e he => (Except.error.inj he).symm, h⟩

theorem removeInode_addInode {st : Store B} {c : Contents} (h : L.Holds st c) (m : InodeMeta) :
    (c.addInode m).removeInode c.nextIno = c.burnIno := by
  simp only [Contents.addInode, Contents.removeInode, Contents.burnIno, erase_insert_self,
    erase_of_getElem?_eq_none _ h.inodes_nextIno]

/-- A node is made with its name, or a number is used up, or nothing happens. -/
theorem wp_createNode (hB : L.Reliable) (h : L.Views s f) (p : UInt64) (name : Str)
    (m : InodeMeta) :
    wp L.growthFs (createNode p name m)
      (fun r s' => r ≠ .error .panic →
        (r = .ok f.core.nextIno ∧ f.core.nextIno ≠ u64Max ∧
          L.Views s' { f with core := f.core.addInode m }) ∨
        (∃ e, r = .error e) ∧ ∃ c, f.core.Tweak c ∧ L.Views s' { f with core := c }) s := by
  unfold createNode
  by_cases hmax : f.core.nextIno = u64Max
  · have hrun : callStore metaErrorToErrno (createInode m) s = _ :=
      callStore_error (createInode_panic h.core m hmax)
    exact wp_of_eq (Prog.bind_error hrun) fun _ hne => absurd rfl hne
  · obtain ⟨st, hcreate, hcore⟩ := createInode_eq hB h.core m hmax
    have hlt := lt_add_one_of_ne_u64Max hmax
    have h₁ := h.store (le_of_run hcreate) hcore (UInt64.le_of_lt hlt)
    refine wp_bind_of_eq (callStore_ok hcreate) (wp_bind ?_)
    refine (wp_attempt_onStore (P := fun s' => L.Views s' { f with core := f.core.addInode m })
      (h₁.link hB p name f.core.nextIno)).mono ?_
    rintro r s₂ - ⟨hpanic, h₂⟩
    have hadd : f.core.Tweak f.core.burnIno := .burn (.refl _) hmax
    cases r with
    | error e => exact fun hne => absurd (congrArg Except.error (hpanic e rfl)) hne
    | ok linked =>
        cases linked with
        | ok _ => exact wp_bind_of_eq rfl (wp_pure fun _ _ => .inl ⟨rfl, hmax, h₂⟩)
        | error e =>
            have hnew : (f.core.addInode m).inodes[f.core.nextIno]? =
                some { m with ino := f.core.nextIno } := by simp [Contents.addInode]
            obtain ⟨st₃, hdel, hcore₃⟩ := deleteInode_eq h₂.core hnew
            rw [removeInode_addInode h.core] at hcore₃
            have h₃ := h₂.store (le_of_run hdel) hcore₃ (UInt64.le_refl _)
            have hundo : undoCreate f.core.nextIno (.error e) s₂ =
                (.error (.err (metaErrorToErrno e)), { s₂ with store := st₃ }) := by
              have hatt := attempt_onStore_eq (s := s₂) (r := .ok ()) hdel
              rw [undoCreate, Prog.bind_ok hatt]
              rfl
            exact wp_of_eq (Prog.bind_error hundo) fun _ _ => .inr ⟨⟨_, rfl⟩, _, hadd, h₃⟩

/-- The state after an operation on names. -/
def Blockset.Laws.Edits (L : B.Laws) (removed : Option UInt64) (f : Files) (s' : Fs B) : Prop :=
  ∃ c, f.core.Edit L.digest removed c ∧ L.Views s' { f with core := c }

theorem Blockset.Laws.Views.edits (h : L.Views s f) (removed : Option UInt64) :
    L.Edits removed f s :=
  ⟨f.core, .tweak (.refl _), h⟩

theorem wp_testCreate (hB : L.Reliable) (h : L.Views s f) (p : UInt64) (name : Str)
    (mode umask uid gid : UInt32) :
    wp L.growthFs (testCreate p name mode umask uid gid)
      (fun r s' => r ≠ .error .panic →
        (r = .ok (f.core.nextIno, f.nextFh + 1) ∧ f.core.nextIno ≠ u64Max ∧ f.nextFh ≠ u64Max ∧
          L.Views s' (({ f with core := f.core.addInode (.newFile 0 uid gid (fileMode mode umask)) }
            : Files).insertHandle f.core.nextIno)) ∨
        (∃ e, r = .error e) ∧ L.Edits none f s') s := by
  unfold testCreate
  refine wp_bind ((wp_createNode hB h p name _).mono ?_)
  rintro r s₁ - h₁
  cases r with
  | error e =>
      intro hne
      rcases h₁ (by rintro ⟨⟩; exact hne rfl) with ⟨he, -⟩ | ⟨-, c, hc, hv⟩
      · cases he
      · exact .inr ⟨⟨e, rfl⟩, c, .tweak hc, hv⟩
  | ok i =>
      rcases h₁ nofun with ⟨hi, hmax, hv⟩ | ⟨⟨e, he⟩, -⟩
      · obtain rfl := Except.ok.inj hi
        by_cases hfh : f.nextFh = u64Max
        · have hpanic := insertHandle_panic (hv.nextFh.trans hfh) f.core.nextIno
          exact wp_of_eq (Prog.bind_error hpanic) fun _ hne => absurd rfl hne
        · obtain ⟨s₂, hins, h₂⟩ := insertHandle_eq hv hfh
            (i := f.core.nextIno) (lt_add_one_of_ne_u64Max hmax)
          exact wp_bind_of_eq hins (wp_pure fun _ _ => .inl ⟨rfl, hmax, hfh, h₂⟩)
      · cases he

theorem wp_testMknod (hB : L.Reliable) (h : L.Views s f) (p : UInt64) (name : Str)
    (mode uid gid umask : UInt32) :
    wp L.growthFs (testMknod p name mode uid gid umask)
      (fun r s' => r ≠ .error .panic → L.Edits none f s') s := by
  unfold testMknod
  by_cases hmode : mode &&& S_IFMT = S_IFREG ∨ mode &&& S_IFMT = 0
  · refine wp_congr (Prog.ensure_bind_of hmode _ _ _) ?_
    refine (wp_createNode hB h p name _).mono ?_
    rintro r s₁ - h₁ hne
    rcases h₁ hne with ⟨-, hmax, hv⟩ | ⟨-, c, hc, hv⟩
    · exact ⟨_, .tweak (.add _ (.refl _) hmax rfl), hv⟩
    · exact ⟨c, .tweak hc, hv⟩
  · exact wp_of_eq (Prog.ensure_bind_of_not hmode _ _ _) fun _ _ => h.edits none

theorem wp_simulateMkdir (hB : L.Reliable) (h : L.Views s f) (p : UInt64) (name : Str)
    (mode umask uid gid : UInt32) :
    wp L.growthFs (simulateMkdir p name mode umask uid gid)
      (fun _ s' => L.Edits none f s') s := by
  refine wp_callStore (P := L.Edits none f) fun hg => ?_
  obtain ⟨c, hc, htweak⟩ := wp_createDirectory hB h.core p name _ rfl hg
  exact ⟨c, .tweak htweak, h.store
    ((TreeGrowth.createDirectory (g := L.growthQuiet) p name _).le_run s.store).1 hc
    htweak.nextIno_le⟩

theorem decrementEach_eq (h : L.Views s f) (i : UInt64) :
    ∃ st, decrementEach ((f.core.manifest L.digest i).toOption.getD []) s =
        (.ok (), { s with store := st }) ∧
      L.Views { s with store := st }
        { f with core := f.core.drop ((f.core.content i).map L.digest) } := by
  unfold Contents.manifest Contents.content
  rcases hm : f.core.manifests[i]? with _ | _ | b
  · exact ⟨s.store, rfl, h⟩
  · exact ⟨s.store, rfl, h⟩
  · obtain ⟨st, hrun, -, hv⟩ := decrementIfSome_eq h (some (L.digest b))
    refine ⟨st, ?_, hv⟩
    exact (Prog.bind_ok hrun).trans rfl

theorem wp_deleteFile (h : L.Views s f) {i : UInt64} {m : InodeMeta}
    (hm : f.core.inodes[i]? = some m) :
    wp L.growthFs (deleteFile i)
      (fun r s' => r = .ok () ∧ L.Views s' { f with core := f.core.deleteFile L.digest i }) s := by
  refine wp_of_good fun hc => ?_
  unfold deleteFile
  refine wp_bind_of_eq (attempt_getManifest_eq h hc i) ?_
  obtain ⟨st, hdec, h₁⟩ := decrementEach_eq h i
  refine wp_bind_of_eq hdec ?_
  obtain ⟨st', hdel, hcore⟩ := deleteInode_eq h₁.core (i := i) (m := m) hm
  have h₂ := h₁.store (le_of_run hdel) hcore (UInt64.le_refl _)
  have hatt := attempt_onStore_eq (s := { s with store := st }) (r := .ok ()) hdel
  exact wp_bind_of_eq hatt (wp_pure fun _ => ⟨rfl, h₂⟩)

/-- A change of attributes other than type and size. -/
theorem updateInode_views (hB : L.Reliable) (h : L.Views s f) {m n : InodeMeta}
    (hm : f.core.inodes[n.ino]? = some m) (hsize : n.size = m.size)
    (hmode : n.mode &&& S_IFMT = m.mode &&& S_IFMT) :
    ∃ st, updateInode n s.store = (.ok (), st) ∧ f.core.Tweak (f.core.putInode n) ∧
      L.Views { s with store := st } { f with core := f.core.putInode n } := by
  obtain ⟨st, hupd, hcore⟩ := updateInode_eq hB h.core hm
  exact ⟨st, hupd, .attr (.refl _) hm hsize hmode,
    h.store (le_of_run hupd) hcore (UInt64.le_refl _)⟩

/-- Removing a name changes the link count or deletes the file. -/
theorem wp_simulateUnlink (hB : L.Reliable) (h : L.Views s f) (p : UInt64) (name : Str) :
    wp L.growthFs (simulateUnlink p name)
      (fun r s' => r ≠ .error .panic →
        L.Edits ((s.resolve p name).filter s.isLastLink) f s') s := by
  refine wp_of_good fun hc => ?_
  unfold simulateUnlink Fs.resolve
  obtain ⟨s₁, hlook, h₁, -, -⟩ := callStore_lookup_eq h metaErrorToErrno p name
  cases hr : (lookup p name s.store).1 with
  | error e =>
      rw [hr] at hlook
      exact wp_of_eq (Prog.bind_error hlook) fun _ _ => h₁.edits _
  | ok i =>
      rw [hr] at hlook
      refine wp_bind_of_eq hlook (wp_of_good fun hc₁ => ?_)
      have hget := getInode_eq h₁.core hc₁ i
      have hlast : s.isLastLink i = (f.core.inodes[i]?).any fun m => ¬ m.isDir ∧ m.nlinks ≤ 1 := by
        rw [Fs.isLastLink, h.inode hc]
      rw [Contents.getInode] at hget
      cases hm : f.core.inodes[i]? with
      | none =>
          rw [hm] at hget
          exact wp_of_eq (Prog.bind_error (callStore_error hget)) fun _ _ => h₁.edits _
      | some m =>
          rw [hm] at hget hlast
          refine wp_bind_of_eq (callStore_ok hget) ?_
          by_cases hdir : m.isDir
          · exact wp_of_eq (Prog.ensure_bind_of_not (not_not.mpr hdir) _ _ _) fun _ _ => h₁.edits _
          refine wp_congr (Prog.ensure_bind_of hdir _ _ _) (wp_bind ?_)
          refine (wp_callStore (P := fun s' => L.Views s' f) fun _ => h₁.unlink hB p name).mono ?_
          rintro r s₂ - h₂
          cases r with
          | error e => exact fun _ => h₂.edits _
          | ok _ =>
              by_cases hn : m.nlinks ≤ 1
              · have hrem : (Option.some i).filter s.isLastLink = some i := by
                  rw [Option.filter_some, if_pos (by rw [hlast]; simp [hdir, hn])]
                rw [if_pos hn]
                refine (wp_deleteFile h₂ hm).mono ?_
                rintro _ s₃ - ⟨-, h₃⟩ -
                exact ⟨_, .delete hrem hm (.refl _), h₃⟩
              · rw [if_neg hn]
                have hino : m.ino = i := (h.core.inode i m hm).2.1
                obtain ⟨st, hupd, htweak, h₃⟩ := updateInode_views hB h₂ (m := m)
                  (n := { m with nlinks := m.nlinks - 1 }) (by rw [← hm, ← hino]) rfl rfl
                exact wp_of_eq (callStore_ok hupd) fun _ _ => ⟨_, .tweak htweak, h₃⟩

theorem wp_simulateLink (hB : L.Reliable) (h : L.Views s f) (i p : UInt64) (name : Str)
    (now : Now) :
    wp L.growthFs (simulateLink i p name now) (fun _ s' => L.Edits none f s') s := by
  refine wp_of_good fun hc => ?_
  unfold simulateLink
  have hget := getInode_eq h.core hc i
  rw [Contents.getInode] at hget
  cases hm : f.core.inodes[i]? with
  | none =>
      rw [hm] at hget
      exact wp_of_eq (Prog.bind_error (callStore_error hget)) fun _ => h.edits _
  | some m =>
      rw [hm] at hget
      refine wp_bind_of_eq (callStore_ok hget) ?_
      by_cases hdir : m.isDir
      · exact wp_of_eq (Prog.ensure_bind_of_not (not_not.mpr hdir) _ _ _) fun _ => h.edits _
      refine wp_congr (Prog.ensure_bind_of hdir _ _ _) (wp_bind ?_)
      refine (wp_callStore (P := fun s' => L.Views s' f) fun _ => h.link hB p name i).mono ?_
      rintro r s₁ - h₁
      cases r with
      | error e => exact h₁.edits _
      | ok _ =>
          by_cases hn : m.nlinks.toNat + 1 < 2 ^ 32
          · refine wp_congr (Prog.assert_bind_of hn _ _) ?_
            have hino : m.ino = i := (h.core.inode i m hm).2.1
            obtain ⟨st, hupd, htweak, h₂⟩ := updateInode_views hB h₁ (m := m)
              (n := ({ m with nlinks := m.nlinks + 1 } : InodeMeta).setCtime now)
              (by rw [← hm, ← hino]; rfl) rfl rfl
            exact wp_bind_of_eq (callStore_ok hupd) (wp_pure fun _ => ⟨_, .tweak htweak, h₂⟩)
          · exact wp_of_eq (Prog.assert_bind_of_not hn _ _) fun _ => h₁.edits _

/-- An inode loses the name that a rename takes for another. -/
theorem wp_displace (hB : L.Reliable) (h : L.Views s f) {i : UInt64} {m : InodeMeta}
    (hm : f.core.inodes[i]? = some m) {removed : Option UInt64}
    (hrem : ¬ m.isDir ∧ m.nlinks ≤ 1 → removed = some i) :
    wp L.growthFs (displace i m) (fun _ s' => L.Edits removed f s') s := by
  unfold displace
  by_cases hn : m.nlinks ≤ 1
  · rw [if_pos hn]
    by_cases hdir : m.isDir
    · rw [if_pos hdir]
      exact wp_pure fun _ => h.edits _
    · rw [if_neg hdir]
      refine (wp_deleteFile h hm).mono ?_
      rintro _ s₁ - ⟨-, h₁⟩
      exact ⟨_, .delete (hrem ⟨hdir, hn⟩) hm (.refl _), h₁⟩
  · rw [if_neg hn]
    have hino : m.ino = i := (h.core.inode i m hm).2.1
    obtain ⟨st, hupd, htweak, h₁⟩ := updateInode_views hB h (m := m)
      (n := { m with nlinks := m.nlinks - 1 }) (by rw [← hm, ← hino]) rfl rfl
    have hatt := attempt_onStore_eq (s := s) (r := .ok ()) hupd
    exact wp_bind_of_eq hatt (wp_pure fun _ => ⟨_, .tweak htweak, h₁⟩)

theorem wp_removeTarget (hB : L.Reliable) (h : L.Views s f) (p : UInt64) (name : Str)
    (target removed : Option UInt64)
    (hrem : ∀ i ∈ target, ∀ m, f.core.inodes[i]? = some m → ¬ m.isDir ∧ m.nlinks ≤ 1 →
      removed = some i) :
    wp L.growthFs (removeTarget p name target) (fun _ s' => L.Edits removed f s') s := by
  cases target with
  | none => exact wp_pure fun _ => h.edits _
  | some i =>
      refine wp_of_good fun hc => ?_
      have hget := getInode_eq h.core hc i
      rw [Contents.getInode] at hget
      cases hm : f.core.inodes[i]? with
      | none =>
          rw [hm] at hget
          exact wp_of_eq (Prog.bind_error (callStore_error hget)) fun _ => h.edits _
      | some m =>
          rw [hm] at hget
          refine wp_bind_of_eq (callStore_ok hget) (wp_bind ?_)
          refine (wp_callStore (P := fun s' => L.Views s' f) fun _ => h.unlink hB p name).mono ?_
          rintro r s₁ - h₁
          cases r with
          | error e => exact h₁.edits _
          | ok _ => exact wp_displace hB h₁ hm (hrem i rfl m hm)

theorem Blockset.Laws.Edits.link (hB : L.Reliable) {removed : Option UInt64}
    (h : L.Edits removed f s) (p : UInt64) (name : Str) (i : UInt64) :
    L.Edits removed f { s with store := (link p name i s.store).2 } := by
  obtain ⟨c, hc, hv⟩ := h
  exact ⟨c, hc, hv.link hB p name i⟩

theorem Blockset.Laws.Edits.unlink (hB : L.Reliable) {removed : Option UInt64}
    (h : L.Edits removed f s) (p : UInt64) (name : Str) :
    L.Edits removed f { s with store := (unlink p name s.store).2 } := by
  obtain ⟨c, hc, hv⟩ := h
  exact ⟨c, hc, hv.unlink hB p name⟩

/-- An edit of attributes other than type and size. -/
theorem wp_editInode_edits (hB : L.Reliable) {removed : Option UInt64}
    (h : L.Edits removed f s) (errno : MetaError → Errno) (i : UInt64)
    (change : InodeMeta → InodeMeta) (hino : ∀ m, (change m).ino = m.ino)
    (hsize : ∀ m, (change m).size = m.size)
    (hmode : ∀ m, (change m).mode &&& S_IFMT = m.mode &&& S_IFMT) :
    wp L.growthFs (editInode errno i change) (fun _ s' => L.Edits removed f s') s := by
  obtain ⟨c, hc, hv⟩ := h
  refine (wp_editInode hB hv errno i change hino).mono ?_
  rintro r s' - ⟨-, h'⟩
  refine ⟨_, hc.trans_tweak ?_, h'⟩
  cases hm : c.inodes[i]? with
  | none =>
      dsimp only [Contents.modifyInode]
      rw [hm]
      exact .refl _
  | some m =>
      exact .modifyInode (.refl c) hm ((hino m).trans (hv.core.inode i m hm).2.1) (hsize m)
        (hmode m)

/-- The inode that a rename deletes. -/
def Fs.displaced (s : Fs B) (parent : UInt64) (name : Str) (newParent : UInt64) (newName : Str)
    (flags : UInt32) : Option UInt64 :=
  if flags &&& 2 = 0 ∧ flags &&& 1 = 0 ∧ s.resolve parent name ≠ none then
    (s.resolve newParent newName).filter s.isLastLink
  else none

theorem wp_simulateRename (hB : L.Reliable) (h : L.Views s f) (p : UInt64) (name : Str)
    (p' : UInt64) (name' : Str) (flags : UInt32) (now : Now) :
    wp L.growthFs (simulateRename p name p' name' flags now)
      (fun _ s' => L.Edits (s.displaced p name p' name' flags) f s') s := by
  refine wp_of_good fun hc => ?_
  unfold simulateRename
  by_cases hflags : flags &&& 2 = 0
  swap
  · exact wp_of_eq (Prog.ensure_bind_of_not hflags _ _ _) fun _ => h.edits _
  refine wp_congr (Prog.ensure_bind_of hflags _ _ _) ?_
  obtain ⟨s₁, hlook, h₁, hle₁, hs₁⟩ := callStore_lookup_eq h (fun _ => .enoent) p name
  cases hr : (lookup p name s.store).1 with
  | error e =>
      rw [hr] at hlook
      exact wp_of_eq (Prog.bind_error hlook) fun _ => h₁.edits _
  | ok src =>
      rw [hr] at hlook
      refine wp_bind_of_eq hlook (wp_of_good fun hc₁ => ?_)
      have hsame : s₁.resolve p' name' = s.resolve p' name' := by
        rw [Fs.resolve, Fs.resolve, hs₁]
        exact congrArg Except.toOption (lookup_grow hB h.core hle₁ hc₁ p' name')
      have hsrc : s.resolve p name ≠ none := by
        rw [Fs.resolve, hr]
        exact Option.some_ne_none src
      obtain ⟨s₂, h₂, ⟨target, hatt, ht⟩ | hatt⟩ := attempt_lookup_eq h₁ p' name'
      swap
      · exact wp_of_eq (Prog.bind_error hatt) fun _ => h₂.edits _
      refine wp_bind_of_eq hatt ?_
      by_cases hex : flags &&& 1 = 0 ∨ target.toOption = none
      swap
      · exact wp_of_eq (Prog.ensure_bind_of_not hex _ _ _) fun _ => h₂.edits _
      refine wp_congr (Prog.ensure_bind_of hex _ _ _) (wp_bind ?_)
      refine (wp_removeTarget hB h₂ p' name' target.toOption
        (s.displaced p name p' name' flags) ?_).mono ?_
      · intro i hi m hm hlast
        have hno : flags &&& 1 = 0 := hex.resolve_right (by rw [Option.mem_def.mp hi]; nofun)
        rw [Fs.displaced, if_pos ⟨hflags, hno, hsrc⟩, ← hsame, ← ht, Option.mem_def.mp hi,
          Option.filter_some, if_pos (by rw [Fs.isLastLink, h.inode hc, hm]; simpa using hlast)]
      rintro r s₃ - h₃
      cases r with
      | error e => exact h₃
      | ok _ =>
          refine wp_bind ((wp_callStore (P := L.Edits _ f) fun _ => h₃.link hB p' name' src).mono
            ?_)
          rintro r s₄ - h₄
          cases r with
          | error e => exact h₄
          | ok _ =>
              refine wp_bind ((wp_callStore (P := L.Edits _ f) fun _ => h₄.unlink hB p name).mono
                ?_)
              rintro r s₅ - h₅
              cases r with
              | error e => exact h₅
              | ok _ =>
                  exact wp_editInode_edits hB h₅ _ src _ (fun _ => rfl) (fun _ => rfl) fun _ => rfl

theorem wp_simulateSymlink (hB : L.Reliable) (h : L.Views s f) (p : UInt64) (name target : Str)
    (uid gid : UInt32) :
    wp L.growthFs (simulateSymlink p name target uid gid)
      (fun r s' => r ≠ .error .panic → (∃ e, r = .error e) ∧ L.Edits none f s' ∨
        (∀ i, r = .ok i → i = f.core.nextIno) ∧ ∃ c, (f.core.addSymlink L.digest
            (symlinkInode uid gid (UInt64.ofNat target.bytes.length)) target.bytes).Tweak c ∧
          f.core.nextIno ≠ u64Max ∧ L.Views s' { f with core := c }) s := by
  unfold simulateSymlink
  refine wp_bind ((wp_createNode hB h p name _).mono ?_)
  rintro r s₁ - h₁
  cases r with
  | error e =>
      intro hne
      rcases h₁ (by rintro ⟨⟩; exact hne rfl) with ⟨he, -⟩ | ⟨-, c, hc, hv⟩
      · cases he
      · exact .inl ⟨⟨_, rfl⟩, c, .tweak hc, hv⟩
  | ok i =>
      rcases h₁ nofun with ⟨hi, hmax, hv⟩ | ⟨⟨e, he⟩, -⟩
      swap
      · cases he
      obtain rfl := Except.ok.inj hi
      obtain ⟨io, hpush, hio, hstored⟩ := onIo_pushAll_eq (L := L) (ε := Errno) hB target.bytes
        s₁.store
      refine wp_bind_of_eq (onStore_eq hpush) ?_
      have h₂ := hv.grow hio
      obtain ⟨st, hset, hcore⟩ := setManifest_eq (b := some target.bytes) hB h₂.core
        (i := f.core.nextIno) (lt_add_one_of_ne_u64Max hmax) (by
          rintro x ⟨rfl⟩
          exact ⟨hstored, target.length_le⟩)
      have h₃ := h₂.store (le_of_run hset) hcore (UInt64.le_refl _)
      refine wp_bind_of_eq (callStore_ok hset) ?_
      obtain ⟨st', hinc, hcore', hio'⟩ := incrementRefcount_eq (ε := Errno) h₃.core
        (L.digest target.bytes)
      have h₄ := h₃.store (hio' ▸ L.le_refl _) hcore' (UInt64.le_refl _)
      refine wp_bind_of_eq (onStore_eq hinc) (wp_bind ?_)
      refine (wp_editInode hB h₄ eio f.core.nextIno
        (fun m => { m with size := UInt64.ofNat target.bytes.length }) fun _ => rfl).mono ?_
      rintro r s₅ - ⟨hr, h₅⟩
      have hedit : ∃ c, (f.core.addSymlink L.digest
            (symlinkInode uid gid (UInt64.ofNat target.bytes.length)) target.bytes).Tweak c ∧
          f.core.nextIno ≠ u64Max ∧ L.Views s₅ { f with core := c } := by
        refine ⟨_, ?_, hmax, h₅⟩
        have hnew : (f.core.addInode (symlinkInode uid gid
            (UInt64.ofNat target.bytes.length))).inodes[f.core.nextIno]? =
              some { symlinkInode uid gid (UInt64.ofNat target.bytes.length) with
                ino := f.core.nextIno } := by
          simp [Contents.addInode]
        refine Contents.Tweak.modifyInode (.refl _) hnew rfl rfl rfl
      cases r with
      | error e => exact fun _ => .inr ⟨by rintro i ⟨⟩, hedit⟩
      | ok _ => exact wp_pure fun _ _ => .inr ⟨fun i hi => (Except.ok.inj hi).symm, hedit⟩

/-- What a symbolic link is read as is its committed content. -/
theorem simulateReadlink_eq (h : L.Views s f) (hc : L.NoCollision s.store.io) {i : UInt64}
    {target : Str} (hi : f.core.content i = some target.bytes) :
    simulateReadlink i s = (.ok target, s) := by
  have hm : f.core.manifests[i]? = some (some target.bytes) := Option.join_eq_some_iff.mp hi
  have hget := getManifest_eq h.core hc i
  rw [Contents.getManifest, hm] at hget
  have hreq := requireContent_eq h hc i
  rw [hi] at hreq
  unfold simulateReadlink
  refine (Prog.bind_ok (callStore_ok hget)).trans ?_
  refine (Prog.bind_ok (Prog.mapErr_ok _ hreq)).trans ?_
  rw [Option.getD_some, Str.fromUtf8_bytes]
  rfl

/-- A link that was made reads as its target. -/
theorem wp_simulateSymlink_readlink (hB : L.Reliable) (h : L.Views s f) (p : UInt64)
    (name target : Str) (uid gid : UInt32) :
    wp L.growthFs (simulateSymlink p name target uid gid)
      (fun r s' => ∀ i, r = .ok i → L.NoCollision s'.store.io →
        simulateReadlink i s' = (.ok target, s')) s := by
  refine (wp_simulateSymlink hB h p name target uid gid).mono ?_
  rintro _ s' - hpost i rfl hc
  obtain ⟨⟨e, he⟩, -⟩ | ⟨hino, c, htweak, -, hv⟩ := hpost nofun
  · cases he
  · refine simulateReadlink_eq hv hc ?_
    rw [hino i rfl, htweak.content]
    simp [Contents.content, Contents.addSymlink, Contents.increment, Contents.setContent]

theorem setMode_type (m : InodeMeta) (mode : UInt32) :
    (m.setMode mode).mode &&& S_IFMT = m.mode &&& S_IFMT := by
  rw [InodeMeta.setMode, type_or_permissions, UInt32.and_assoc, UInt32.and_self]

theorem wp_testSetattrMode (hB : L.Reliable) (h : L.Views s f) (i : UInt64) (mode : UInt32)
    (now : Now) :
    wp L.growthFs (testSetattrMode i mode now) (fun _ s' => L.Edits none f s') s :=
  wp_editInode_edits hB (h.edits none) eio i _ (fun _ => rfl) (fun _ => rfl)
    fun m => setMode_type m mode

theorem wp_testSetattrUidGid (hB : L.Reliable) (h : L.Views s f) (i : UInt64)
    (uid gid : Option UInt32) (now : Now) :
    wp L.growthFs (testSetattrUidGid i uid gid now) (fun _ s' => L.Edits none f s') s :=
  wp_editInode_edits hB (h.edits none) eio i _ (fun _ => rfl) (fun _ => rfl) fun _ => rfl

theorem wp_testSetattrMtime (hB : L.Reliable) (h : L.Views s f) (i : UInt64) (sec : Int64)
    (nsec : UInt32) (now : Now) :
    wp L.growthFs (testSetattrMtime i sec nsec now) (fun _ s' => L.Edits none f s') s :=
  wp_editInode_edits hB (h.edits none) eio i _ (fun _ => rfl) (fun _ => rfl) fun _ => rfl

theorem wp_setXattrs {st : Store B} {c : Contents} (h : L.Holds st c) (i : UInt64) (xs : Xattrs) :
    wp L.growthQuiet (setXattrs i xs) (fun _ st' => L.Holds st' c) st := by
  refine wp_bind fun _ => ?_
  have hio := h.onIo (ε := MetaError) (B.withFsa (internXattrs B xs))
  cases (onIo (B.withFsa (internXattrs B xs)) st).1 with
  | error e => exact hio
  | ok d => exact fun _ => ⟨hio.inodes, hio.inode, hio.manifests, hio.manifest, hio.content,
      hio.dirs, hio.refcounts, hio.nextIno⟩

theorem wp_setXattr {st : Store B} {c : Contents} (h : L.Holds st c) (i : UInt64) (name : Str)
    (value : Bytes) :
    wp L.growthQuiet (setXattr i name value) (fun _ st' => L.Holds st' c) st := by
  refine wp_bind fun _ => ?_
  have hio : L.Holds (loadXattrsOf i st).2 c := by
    show L.Holds (onIo ((st.maps.xattrData[i]?).elim (pure []) (loadXattrs B)) st).2 c
    cases st.maps.xattrData[i]? with
    | none => exact h.onIo (pure [])
    | some d => exact h.onIo (loadXattrs B d)
  cases (loadXattrsOf i st).1 with
  | error e => exact hio
  | ok xs => exact wp_setXattrs hio i _

theorem wp_removeXattr {st : Store B} {c : Contents} (h : L.Holds st c) (i : UInt64) (name : Str) :
    wp L.growthQuiet (removeXattr i name) (fun _ st' => L.Holds st' c) st := by
  unfold removeXattr
  refine wp_bind_of_eq (Prog.read_apply _ _) ?_
  dsimp only
  cases st.maps.xattrData[i]? with
  | none => exact fun _ => h
  | some d =>
      refine wp_bind_of_eq rfl (wp_bind fun _ => ?_)
      have hio := h.onIo (loadXattrs B d)
      cases (onIo (loadXattrs B d) st).1 with
      | error e => exact hio
      | ok xs =>
          by_cases hx : (removeXattrEntry xs name).1 = true
          · exact wp_congr (Prog.ensure_bind_of hx _ _ _) (wp_setXattrs hio i _)
          · exact wp_of_eq (Prog.ensure_bind_of_not hx _ _ _) fun _ => hio

theorem wp_testSetxattr (h : L.Views s f) (i : UInt64) (name : Str) (value : Bytes) :
    wp L.growthFs (testSetxattr i name value) (fun _ s' => L.Edits none f s') s :=
  wp_callStore (P := L.Edits none f) fun hg => (h.store
    ((growing_setXattr (g := L.growthQuiet) i name value).le_run s.store).1
    (wp_setXattr h.core i name value hg)
    (UInt64.le_refl _)).edits none

theorem wp_testRemovexattr (h : L.Views s f) (i : UInt64) (name : Str) :
    wp L.growthFs (testRemovexattr i name) (fun _ s' => L.Edits none f s') s :=
  wp_callStore (P := L.Edits none f) fun hg => (h.store
    ((growing_removeXattr (g := L.growthQuiet) i name).le_run s.store).1
    (wp_removeXattr h.core i name hg)
    (UInt64.le_refl _)).edits none

theorem listDirectory_views (h : L.Views s f) (i : UInt64) :
    L.Views { s with store := (listDirectory i s.store).2 } f := by
  refine h.store ((growing_listDirectory (g := L.growthQuiet) i).le_run s.store).1 ?_
    (UInt64.le_refl _)
  have hdig := dirDigestOf_apply i s.store
  unfold listDirectory
  cases hd : s.store.maps.dirData[i]? with
  | none =>
      rw [hd] at hdig
      rw [Prog.bind_error hdig]
      exact h.core
  | some d =>
      rw [hd] at hdig
      rw [Prog.bind_ok hdig]
      exact h.core.onIo (listDirEntries B d)

theorem wp_dropBacklink (hB : L.Reliable) (h : L.Views s f) (p : UInt64) :
    wp L.growthFs (dropBacklink p)
      (fun _ s' => ∃ c, f.core.Tweak c ∧ L.Views s' { f with core := c }) s := by
  refine wp_of_good fun hc => ?_
  unfold dropBacklink
  have hget := getInode_eq h.core hc p
  rw [Contents.getInode] at hget
  cases hm : f.core.inodes[p]? with
  | none =>
      rw [hm] at hget
      exact wp_of_eq (Prog.bind_error (callStore_error hget)) fun _ => ⟨_, .refl _, h⟩
  | some m =>
      rw [hm] at hget
      refine wp_bind_of_eq (callStore_ok hget) ?_
      by_cases hn : 0 < m.nlinks
      · rw [if_pos hn]
        have hino : m.ino = p := (h.core.inode p m hm).2.1
        obtain ⟨st, hupd, htweak, h₁⟩ := updateInode_views hB h (m := m)
          (n := { m with nlinks := m.nlinks - 1 }) (by rw [← hm, ← hino]) rfl rfl
        exact wp_of_eq (callStore_ok hupd) fun _ => ⟨_, htweak, h₁⟩
      · rw [if_neg hn]
        exact wp_pure fun _ => ⟨_, .refl _, h⟩

/-- Removing a directory deletes its inode and leaves what else there is. -/
theorem wp_simulateRmdir (hB : L.Reliable) (h : L.Views s f) (p : UInt64) (name : Str) :
    wp L.growthFs (simulateRmdir p name)
      (fun _ s' => L.Edits none f s' ∨ ∃ i m c, f.core.inodes[i]? = some m ∧ m.isDir ∧
        (f.core.removeInode i).Tweak c ∧ L.Views s' { f with core := c }) s := by
  unfold simulateRmdir
  obtain ⟨s₁, hlook, h₁, -, -⟩ := callStore_lookup_eq h metaErrorToErrno p name
  cases hr : (lookup p name s.store).1 with
  | error e =>
      rw [hr] at hlook
      exact wp_of_eq (Prog.bind_error hlook) fun _ => .inl (h₁.edits _)
  | ok i =>
      rw [hr] at hlook
      refine wp_bind_of_eq hlook (wp_of_good fun hc₁ => ?_)
      have hget := getInode_eq h₁.core hc₁ i
      rw [Contents.getInode] at hget
      cases hm : f.core.inodes[i]? with
      | none =>
          rw [hm] at hget
          exact wp_of_eq (Prog.bind_error (callStore_error hget)) fun _ => .inl (h₁.edits _)
      | some m =>
          rw [hm] at hget
          refine wp_bind_of_eq (callStore_ok hget) ?_
          by_cases hdir : m.isDir
          swap
          · exact wp_of_eq (Prog.ensure_bind_of_not hdir _ _ _) fun _ => .inl (h₁.edits _)
          refine wp_congr (Prog.ensure_bind_of hdir _ _ _) (wp_bind ?_)
          refine (wp_callStore (P := fun s' => L.Views s' f) fun _ =>
            listDirectory_views h₁ i).mono ?_
          rintro r s₂ - h₂
          cases r with
          | error e => exact .inl (h₂.edits _)
          | ok entries =>
              by_cases hempty : ∀ e ∈ entries, e.name = Str.dot ∨ e.name = Str.dotDot
              swap
              · exact wp_of_eq (Prog.ensure_bind_of_not hempty _ _ _) fun _ => .inl (h₂.edits _)
              refine wp_congr (Prog.ensure_bind_of hempty _ _ _) (wp_bind ?_)
              refine (wp_callStore (P := fun s' => L.Views s' f) fun _ =>
                h₂.unlink hB p name).mono ?_
              rintro r s₃ - h₃
              cases r with
              | error e => exact .inl (h₃.edits _)
              | ok _ =>
                  obtain ⟨st, hdel, hcore⟩ := deleteInode_eq h₃.core hm
                  have h₄ := h₃.store (le_of_run hdel) hcore (UInt64.le_refl _)
                  refine wp_bind_of_eq (callStore_ok hdel) ((wp_dropBacklink hB h₄ p).mono ?_)
                  rintro r s₅ - ⟨c, hc, h₅⟩
                  exact .inr ⟨i, m, c, hm, hdir, hc, h₅⟩

end

end SliceFs
