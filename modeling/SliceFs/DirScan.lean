import SliceFs.NameRuns
import SliceFs.PagedScan

/-!
# Directory scans

`readdir` numbers the entries of a directory by their place in the entry list, which is read
again on every call. A scan that goes on from the last offset therefore reads an entry exactly
once if and only if the changes between the calls carry it over the offset as often in one
direction as in the other.
-/
namespace SliceFs
open TreeMaps ProgramLogic PagedScan

variable {B : Blockset}

inductive FileType where
  | directory
  | symlink
  | regularFile
deriving DecidableEq

/-- The kind that is reported for an inode; one that cannot be read is a regular file. -/
def fileTypeOf : Except MetaError InodeMeta → FileType
  | .ok m =>
      if m.mode &&& S_IFMT = S_IFDIR then .directory
      else if m.mode &&& S_IFMT = S_IFLNK then .symlink
      else .regularFile
  | .error _ => .regularFile

/-- The loop of `test_readdir` over the entries after the offset. -/
def entryKinds : List DirEntry → FsM B (List (UInt64 × FileType × Str))
  | [] => pure []
  | entry :: entries => do
      let inode ← Prog.attempt (onStore (getInode entry.ino))
      let rest ← entryKinds entries
      pure ((entry.ino, fileTypeOf inode, entry.name) :: rest)

def testReaddir (ino offset : UInt64) : FsM B (List (UInt64 × FileType × Str)) := do
  let entries ← callStore metaErrorToErrno (listDirectory ino)
  entryKinds (entries.drop offset.toNat)

structure DirReply where
  ino : UInt64
  nextOffset : UInt64
  kind : FileType
  name : Str
deriving DecidableEq

/-- The reply of `readdir`: its buffer takes `capacity` entries. -/
def addEntries (offset : UInt64) (capacity : ℕ) (entries : List (UInt64 × FileType × Str)) :
    List DirReply :=
  (entries.take capacity).mapIdx fun index e => ⟨e.1, offset + index.toUInt64 + 1, e.2.1, e.2.2⟩

def readdir (ino offset : UInt64) (capacity : ℕ) : FsM B (List DirReply) := do
  let entries ← testReaddir ino offset
  pure (addEntries offset capacity entries)

def DirReply.entry (r : DirReply) : DirEntry := ⟨r.name, r.ino⟩

/-- Where the reader goes on: after the last entry of the reply. -/
def nextOffset (offset : UInt64) (reply : List DirReply) : UInt64 :=
  reply.getLast?.elim offset DirReply.nextOffset

/-- A call of a scan: the file system that it found, the room in its reply, and the reply. -/
structure ScanCall (B : Blockset) where
  fs : Fs B
  capacity : ℕ
  reply : List DirReply

/-- The calls of a scan from an offset on. Between two calls there may be any requests that meet
a condition. -/
inductive Scans (P : Fs B → FsOp → Prop) (p : UInt64) : UInt64 → Fs B → List (ScanCall B) → Prop
  | stop (offset : UInt64) (s : Fs B) : Scans P p offset s []
  | call {offset : UInt64} {s s₁ s₂ : Fs B} {capacity : ℕ} {reply : List DirReply}
      {rest : List (ScanCall B)} : 0 < capacity → readdir p offset capacity s = (.ok reply, s₁) →
      Runs P s₁ s₂ → Scans P p (nextOffset offset reply) s₂ rest →
      Scans P p offset s (⟨s, capacity, reply⟩ :: rest)

/-- The list that a call pages through. -/
def ScanCall.listing (p : UInt64) (c : ScanCall B) : Call DirEntry := ⟨c.fs.entries p, c.capacity⟩

section
variable {L : B.Laws} {s s₁ : Fs B} {t : Tree} {f : Files} {p offset : UInt64} {capacity : ℕ}
  {reply : List DirReply}

theorem Blockset.Laws.Shows.nodup_entries (h : L.Shows s t) (hc : L.NoCollision s.store.io)
    (p : UInt64) : (s.entries p).Nodup := by
  rw [h.entries hc]
  cases hes : t.dirs[p]? with
  | none => exact List.nodup_nil
  | some es =>
      rw [Option.getD_some]
      refine List.Nodup.map_on ?_ (nodup_toList es)
      rintro ⟨k, r⟩ hr ⟨k', r'⟩ hr' heq
      have hk := Std.ExtTreeMap.mem_toList_iff_getElem?_eq_some.mp hr
      have hk' := Std.ExtTreeMap.mem_toList_iff_getElem?_eq_some.mp hr'
      have hlisted := (h.listing.listed p es hes).entry
      have hname : r.name = r'.name := congrArg DirEntry.name heq
      -- the key is the digest of the name, so one name has one record
      obtain rfl : k = k' := by rw [(hlisted k r hk).2.1, (hlisted k' r' hk').2.1, hname]
      have hrec : r = r' := Option.some.inj (hk.symm.trans hk')
      rw [hrec]

theorem Blockset.Laws.Shows.length_entries (h : L.Shows s t) (hc : L.NoCollision s.store.io)
    (p : UInt64) : (s.entries p).length < 2 ^ 32 := by
  rw [h.entries hc, List.length_map, Std.ExtTreeMap.length_toList]
  cases hes : t.dirs[p]? with
  | none => simp
  | some es => exact (h.listing.listed p es hes).size

theorem entryKinds_eq (h : L.Views s f) (hc : L.NoCollision s.store.io) (es : List DirEntry) :
    ∃ rs, entryKinds es s = (.ok rs, s) ∧ rs.map (fun r => ⟨r.2.2, r.1⟩) = es := by
  induction es with
  | nil => exact ⟨[], rfl, rfl⟩
  | cons e es ih =>
      obtain ⟨rs, hrs, hmap⟩ := ih
      have hinode : Prog.attempt (onStore (getInode e.ino)) s =
          ((.ok ((f.core.inodes[e.ino]?).elim (.error (.notFound e.ino)) .ok), s) :
            Except (Fault Errno) _ × _) := by
        apply attempt_onStore_eq
        rw [getInode_eq h.core hc, Contents.getInode]
        cases f.core.inodes[e.ino]? <;> rfl
      refine ⟨(e.ino, fileTypeOf ((f.core.inodes[e.ino]?).elim (.error (.notFound e.ino)) .ok),
        e.name) :: rs, ?_, ?_⟩
      · rw [entryKinds, Prog.bind_ok hinode, Prog.bind_ok hrs]
        rfl
      · rw [List.map_cons, hmap]

theorem map_entry_addEntries (offset : UInt64) (capacity : ℕ)
    (entries : List (UInt64 × FileType × Str)) :
    (addEntries offset capacity entries).map DirReply.entry =
      (entries.map fun e => (⟨e.2.2, e.1⟩ : DirEntry)).take capacity := by
  rw [← List.map_take]
  apply List.ext_getElem <;> simp [addEntries, DirReply.entry]

theorem nextOffset_addEntries {entries : List (UInt64 × FileType × Str)}
    (hbound : entries ≠ [] → offset.toNat + entries.length < 2 ^ 64) :
    (nextOffset offset (addEntries offset capacity entries)).toNat =
      offset.toNat + (entries.take capacity).length := by
  rw [nextOffset, addEntries, List.getLast?_mapIdx]
  cases hlast : (entries.take capacity).getLast? with
  | none => simp [List.getLast?_eq_none_iff.mp hlast]
  | some e =>
      have hne : entries.take capacity ≠ [] := by
        intro h
        simp [h] at hlast
      have hpos := List.length_pos_iff.mpr hne
      have hle := List.length_take_le' capacity entries
      have hlt := hbound fun h => hne (by simp [h])
      have hindex : ((entries.take capacity).length - 1).toUInt64.toNat =
          (entries.take capacity).length - 1 := by
        apply UInt64.toNat_ofNat_of_lt'
        change _ < 2 ^ 64
        omega
      simp only [Option.map_some, Option.elim_some, UInt64.toNat_add, UInt64.toNat_one, hindex]
      omega

/-- A reply has the entries of the page at the offset, gives the offset of the next page, and
changes nothing. -/
theorem readdir_ok (h : L.Shows s t) (hc : L.NoCollision s.store.io)
    (hreply : readdir p offset capacity s = (.ok reply, s₁)) :
    s₁ = s ∧ reply.map DirReply.entry = Call.page ⟨s.entries p, capacity⟩ offset.toNat ∧
      (nextOffset offset reply).toNat = Call.next ⟨s.entries p, capacity⟩ offset.toNat := by
  obtain ⟨f, hv, -⟩ := h.files
  have hlist := listDirectory_eq h.listing hc p
  cases hes : t.dirs[p]? with
  | none =>
      rw [hes] at hlist
      rw [readdir, testReaddir, Prog.bind_error (Prog.bind_error (callStore_error hlist))] at hreply
      cases hreply
  | some es =>
      rw [hes] at hlist
      have hentries := h.entries hc p
      rw [hes, Option.getD_some] at hentries
      obtain ⟨rs, hrs, hmap⟩ := entryKinds_eq hv hc ((s.entries p).drop offset.toNat)
      have hread : testReaddir p offset s = (.ok rs, s) := by
        rw [testReaddir, Prog.bind_ok (callStore_ok hlist), ← hentries]
        exact hrs
      have hlen : rs.length = (s.entries p).length - offset.toNat := by
        rw [← List.length_drop, ← hmap, List.length_map]
      have hsmall := h.length_entries hc p
      rw [readdir, Prog.bind_ok hread] at hreply
      cases hreply
      refine ⟨rfl, ?_, ?_⟩
      · rw [map_entry_addEntries, hmap]
        rfl
      · rw [nextOffset_addEntries, Call.next, Call.page, ← hmap, ← List.map_take, List.length_map]
        intro hne
        have hpos := List.length_pos_iff.mpr hne
        omega

variable {P : Fs B → FsOp → Prop} {calls : List (ScanCall B)}

theorem Scans.head {c : ScanCall B} (h : Scans P p offset s (c :: calls)) : c.fs = s := by
  cases h
  rfl

/-- Any requests leave a file system that shows some tree. -/
theorem Runs.shows (hB : L.Reliable) {s₀ : Fs B} (h₀ : L.Shows s₀ t)
    (hrun : Runs (fun s op => op.Tame s) s₀ s) (hc : L.NoCollision s.store.io) :
    ∃ t', L.Shows s t' := by
  obtain ⟨t', ht', -⟩ := hrun.tameTree (I := fun _ => True) hB (fun _ _ _ => trivial)
    (fun _ _ => trivial) h₀ trivial hc
  exact ⟨t', ht'⟩

/-- A scan is a scan by position of the directory's lists. -/
theorem Scans.pages (hB : L.Reliable) (hscan : Scans (fun s op => op.Tame s) p offset s calls)
    (h : L.Shows s t)
    (hc : ∀ c ∈ calls, L.NoCollision c.fs.store.io) :
    (∀ c ∈ calls, (c.fs.entries p).Nodup ∧ 0 < c.capacity) ∧
      calls.map (fun c => c.reply.map DirReply.entry) =
        PagedScan.pages offset.toNat (calls.map (ScanCall.listing p)) := by
  induction hscan generalizing t with
  | stop => exact ⟨by simp, rfl⟩
  | @call offset s s₁ s₂ capacity reply rest hcap hreply hrun hrest ih =>
      have hcs := hc _ List.mem_cons_self
      obtain ⟨rfl, hpage, hnext⟩ := readdir_ok h hcs hreply
      have htail : (∀ c ∈ rest, (c.fs.entries p).Nodup ∧ 0 < c.capacity) ∧
          rest.map (fun c => c.reply.map DirReply.entry) =
            PagedScan.pages (nextOffset offset reply).toNat (rest.map (ScanCall.listing p)) := by
        cases rest with
        | nil => exact ⟨by simp, rfl⟩
        | cons d rest =>
            -- the next call finds the file system after the requests in between
            have hd : d.fs = s₂ := hrest.head
            have hc₂ := hc d (List.mem_cons_of_mem _ List.mem_cons_self)
            rw [hd] at hc₂
            obtain ⟨t₂, ht₂⟩ := hrun.shows hB h hc₂
            exact ih ht₂ fun c hmem => hc c (List.mem_cons_of_mem _ hmem)
      obtain ⟨hwf, hpages⟩ := htail
      constructor
      · intro c hmem
        rcases List.mem_cons.mp hmem with rfl | hmem
        · exact ⟨h.nodup_entries hcs p, hcap⟩
        · exact hwf c hmem
      · rw [List.map_cons, List.map_cons, hpages, hnext, hpage]
        rfl

/-- In a scan of a directory up to an empty reply, with any requests before it and between the
calls, an entry that every call finds there is returned exactly once if and only if the
requests carry it over the offset backwards as often as forwards. -/
theorem readdir_once_iff (L : B.Laws) (hB : B.NoIoErrors) {uid gid : UInt32} {io io' : B.Io}
    {st : Store B} (hnew : Store.new B uid gid io = (.ok st, io')) {auto : Bool} {s : Fs B}
    (hrun : Runs (fun s op => op.Tame s) (Fs.mount st auto) s)
    {p : UInt64} {calls : List (ScanCall B)} (hscan : Scans (fun s op => op.Tame s) p 0 s calls)
    (hend : (calls.map ScanCall.reply).getLast? = some [])
    (hc : ∀ c ∈ calls, L.NoCollision c.fs.store.io) {e : DirEntry}
    (he : ∀ c ∈ calls, e ∈ c.fs.entries p) :
    ((calls.flatMap ScanCall.reply).map DirReply.entry).count e = 1 ↔
      skips e 0 (calls.map (ScanCall.listing p)) =
        repeats e 0 (calls.map (ScanCall.listing p)) := by
  have hB := hB.reliable L
  obtain ⟨c, rest, rfl⟩ : ∃ c rest, calls = c :: rest := by
    cases calls with
    | nil => simp at hend
    | cons c rest => exact ⟨c, rest, rfl⟩
  have hcs := hc c List.mem_cons_self
  rw [hscan.head] at hcs
  obtain ⟨t, ht⟩ := hrun.shows hB (shows_new (L := L) hB hnew auto) hcs
  obtain ⟨hwf, hpages⟩ := hscan.pages hB ht hc
  have hlast : (PagedScan.pages 0 ((c :: rest).map (ScanCall.listing p))).getLast? = some [] := by
    have hmap : (c :: rest).map (fun c => c.reply.map DirReply.entry) =
        ((c :: rest).map ScanCall.reply).map (List.map DirReply.entry) := by
      rw [List.map_map]
      rfl
    rw [show (0 : ℕ) = (0 : UInt64).toNat from rfl, ← hpages, hmap, List.getLast?_map, hend]
    rfl
  have hnodup : ∀ l ∈ (c :: rest).map (ScanCall.listing p), l.list.Nodup := by
    simpa [ScanCall.listing] using fun d hd => (hwf d hd).1
  have hmem : ∀ l ∈ (c :: rest).map (ScanCall.listing p), e ∈ l.list := by
    simpa [ScanCall.listing] using he
  have hcap : ∀ l ∈ (c :: rest).map (ScanCall.listing p), 0 < l.capacity := by
    simpa [ScanCall.listing] using fun d hd => (hwf d hd).2
  have hcount := count_pages hnodup hmem hcap hlast
  have hflat : ((c :: rest).flatMap ScanCall.reply).map DirReply.entry =
      (PagedScan.pages 0 ((c :: rest).map (ScanCall.listing p))).flatten := by
    rw [show (0 : ℕ) = (0 : UInt64).toNat from rfl, ← hpages, List.map_flatMap, List.flatMap_def]
  -- nothing is behind the offset where the scan starts
  have hstart : ¬ Behind (c.listing p).list 0 e := Nat.not_lt_zero _
  rw [hflat]
  simp only [List.map_cons, List.head?_cons, Option.elim_some, if_neg hstart] at hcount ⊢
  omega

end

theorem Runs.tame {s s' : Fs B} (h : Runs (fun s op => op.OnNames ∧ op.Proper ∧ s.Roomy) s s') :
    Runs (fun s op => op.Tame s) s s' := by
  induction h with
  | refl => exact .refl s
  | step _ hop hrun ih => exact ih.step (FsOp.tame_of_onNames hop) hrun

/-- A page of two entries of the root directory, and the file system after it. -/
def rootPage (offset : UInt64) (s : Fs memoryBlockset) : List DirReply :=
  ((readdir 1 offset 2 s).1.toOption).getD []

def afterRootPage (offset : UInt64) (s : Fs memoryBlockset) : Fs memoryBlockset :=
  (readdir 1 offset 2 s).2

/-- One of the two names is removed after the first page. -/
def removedFs (name : Str) : Fs memoryBlockset :=
  ((FsOp.unlink 1 name).run (afterRootPage 0 twoNamesFs)).getD twoNamesFs

def removalScan (name : Str) : List (ScanCall memoryBlockset) :=
  [⟨twoNamesFs, 2, rootPage 0 twoNamesFs⟩,
    ⟨removedFs name, 2, rootPage 2 (removedFs name)⟩,
    ⟨afterRootPage 2 (removedFs name), 2, rootPage 3 (afterRootPage 2 (removedFs name))⟩]

theorem readdir_eq_rootPage {offset : UInt64} {s : Fs memoryBlockset}
    (h : (readdir 1 offset 2 s).1.toOption.isSome = true) :
    readdir 1 offset 2 s = (.ok (rootPage offset s), afterRootPage offset s) := by
  rw [Prog.eq_ok_of_isSome h, rootPage, Option.get_eq_getD]
  rfl

theorem removalScan_done : ∀ name ∈ [nameA, nameB],
    ((readdir 1 0 2 twoNamesFs).1.toOption.isSome = true ∧
      nextOffset 0 (rootPage 0 twoNamesFs) = 2 ∧ (afterRootPage 0 twoNamesFs).Roomy) ∧
    ((FsOp.unlink 1 name).run (afterRootPage 0 twoNamesFs)).isSome = true ∧
    (readdir 1 2 2 (removedFs name)).1.toOption.isSome = true ∧
    nextOffset 2 (rootPage 2 (removedFs name)) = 3 ∧
    (readdir 1 3 2 (afterRootPage 2 (removedFs name))).1.toOption.isSome = true := by
  decide +kernel

theorem scans_removalScan {name : Str} (hname : name ∈ [nameA, nameB]) :
    Scans (fun s op => op.Tame s) 1 0 twoNamesFs (removalScan name) := by
  obtain ⟨⟨hread, hfirst, hroom⟩, hsome, hread₂, hsecond, hread₃⟩ := removalScan_done name hname
  have hnames : (FsOp.unlink 1 name).OnNames := trivial
  have hproper : (FsOp.unlink 1 name).Proper := by
    rcases List.mem_pair.mp hname with rfl | rfl <;> decide
  have hremove : (FsOp.unlink 1 name).run (afterRootPage 0 twoNamesFs) = some (removedFs name) := by
    rw [removedFs, ← Option.some_get hsome, Option.getD_some]
  refine .call Nat.two_pos (readdir_eq_rootPage hread)
    (.step (.refl _) (FsOp.tame_of_onNames ⟨hnames, hproper, hroom⟩) hremove) ?_
  rw [hfirst]
  refine .call Nat.two_pos (readdir_eq_rootPage hread₂) (.refl _) ?_
  rw [hsecond]
  exact .call Nat.two_pos (readdir_eq_rootPage hread₃) (.refl _) (.stop _ _)

/-- `a` is removed after it was returned, and `b`, which is there at every call, is not
returned at all. -/
theorem readdir_skips_entry :
    Runs (fun s op => op.Tame s) (Fs.mount freshStore false) twoNamesFs ∧
    Scans (fun s op => op.Tame s) 1 0 twoNamesFs (removalScan nameA) ∧
    ((removalScan nameA).map ScanCall.reply).getLast? = some [] ∧
    (∀ c ∈ removalScan nameA, ⟨nameB, 2⟩ ∈ c.fs.entries 1) ∧
    (((removalScan nameA).flatMap ScanCall.reply).map DirReply.entry).count ⟨nameB, 2⟩ = 0 :=
  ⟨runs_twoNamesFs.tame, scans_removalScan List.mem_cons_self, by decide +kernel⟩

/-- `b` is removed before it is returned, and `..` is returned once. -/
theorem readdir_once_iff_removed :
    (((removalScan nameB).flatMap ScanCall.reply).map DirReply.entry).count ⟨Str.dotDot, 1⟩ =
      1 := by
  have hnew : Store.new memoryBlockset 0 0 MemoryIo.empty = (.ok freshStore, _) :=
    Prog.eq_ok_of_isSome (by decide +kernel)
  have hfacts : ((removalScan nameB).map ScanCall.reply).getLast? = some [] ∧
      (∀ c ∈ removalScan nameB, (c.fs.store.io.blobs.map Prod.fst).Nodup ∧
        ⟨Str.dotDot, 1⟩ ∈ c.fs.entries 1) ∧
      skips ⟨Str.dotDot, 1⟩ 0 ((removalScan nameB).map (ScanCall.listing 1)) =
        repeats ⟨Str.dotDot, 1⟩ 0 ((removalScan nameB).map (ScanCall.listing 1)) := by
    decide +kernel
  obtain ⟨hend, hcalls, hbalance⟩ := hfacts
  exact (readdir_once_iff memoryLaws memoryBlockset_noIoErrors hnew runs_twoNamesFs.tame
    (scans_removalScan (List.mem_cons_of_mem _ List.mem_cons_self)) hend
    (fun c hmem => memoryLaws_noCollision (hcalls c hmem).1) fun c hmem => (hcalls c hmem).2).mpr
    hbalance

end SliceFs
