import SliceFs.Tree

/-!
# Trees, seen in the store

`Listing` relates the entry lists of a store to the blobs it keeps them in. The lists are
read back as long as the counts and lengths fit the 32 bits the format has for them.
-/
namespace SliceFs
open TreeMaps ProgramLogic

section
variable {B : Blockset} {ε α : Type} (L : B.Laws)

/-- The key of a name. -/
def Blockset.Laws.key (name : Str) : Digest224 := L.digest name.bytes

/-- An entry list that the backend has and that is read back as it is. -/
structure Blockset.Laws.Listed (io : B.Io) (es : Entries) : Prop where
  stored : serializeEntryList es ∈ L.stored io
  size : es.size < 2 ^ 32
  entry : ∀ (k : Digest224) (e : EntryRecord), es[k]? = some e →
    e.key = k ∧ k = L.key e.name ∧ e.name.bytes ∈ L.stored io ∧ e.name.bytes.length < 2 ^ 32

/-- The entry lists of a store. -/
structure Blockset.Laws.Listing (st : Store B) (dirs : Map UInt64 Entries) : Prop where
  digests : ∀ p : UInt64, st.maps.dirData[p]? =
    (dirs[p]?).map fun es => L.digest (serializeEntryList es)
  listed : ∀ (p : UInt64) (es : Entries), dirs[p]? = some es → L.Listed st.io es

variable {L} {st st' : Store B} {dirs : Map UInt64 Entries} {io io' : B.Io} {es : Entries}

theorem Blockset.Laws.Listed.mono (h : L.Listed io es) (hle : L.le io io') : L.Listed io' es where
  stored := L.stored_mono hle h.stored
  size := h.size
  entry k e he := by
    obtain ⟨hkey, hk, hname, hlen⟩ := h.entry k e he
    exact ⟨hkey, hk, L.stored_mono hle hname, hlen⟩

/-- A directory that is not written keeps its entries. -/
theorem Blockset.Laws.Listing.frame (h : L.Listing st dirs) (hle : L.le st.io st'.io)
    (hdirs : st'.maps.dirData = st.maps.dirData) : L.Listing st' dirs where
  digests p := by rw [hdirs, h.digests p]
  listed p es hes := (h.listed p es hes).mono hle

theorem loadEntryList_eq (h : L.Listed io es) (hc : L.NoCollision io) :
    loadEntryList B (L.digest (serializeEntryList es)) io = (.ok es, io) := by
  have hdec := deserializeEntryList_serializeEntryList (fun k e he => (h.entry k e he).1)
    (fun k e he => (h.entry k e he).2.2.2)
  rw [Nat.mod_eq_of_lt h.size, ← Std.ExtTreeMap.length_toList, List.take_length,
    ofList_toList] at hdec
  rw [loadEntryList, loadRecord_of_stored L hc h.stored, noPanic_ok hdec]

/-- The entry under the key of a name has the name. -/
theorem Blockset.Laws.Listed.name_eq (h : L.Listed io es) (hc : L.NoCollision io) {name : Str}
    (hname : name.bytes ∈ L.stored io) {e : EntryRecord} (he : es[L.key name]? = some e) :
    e.name = name := by
  obtain ⟨-, hkey, hstored, -⟩ := h.entry _ e he
  have hbytes : name.bytes = e.name.bytes := hc hname hstored hkey
  exact Str.bytes_injective hbytes.symm

/-- The list with one more entry. -/
theorem Blockset.Laws.Listed.insert (h : L.Listed io es) (hle : L.le io io') {name : Str}
    (hname : name.bytes ∈ L.stored io') (hlen : name.bytes.length < 2 ^ 32)
    (hroom : es.size + 1 < 2 ^ 32) (i : UInt64)
    (hstored : serializeEntryList (es.insert (L.key name) ⟨L.key name, i, name⟩) ∈ L.stored io') :
    L.Listed io' (es.insert (L.key name) ⟨L.key name, i, name⟩) where
  stored := hstored
  size := Nat.lt_of_le_of_lt Std.ExtTreeMap.size_insert_le hroom
  entry k e he := by
    rw [getElem?_insert_ite] at he
    split_ifs at he with hk
    · obtain rfl := Option.some.inj he
      exact ⟨hk.symm, hk, hname, hlen⟩
    · exact (h.mono hle).entry k e he

/-- The list with an entry less. -/
theorem Blockset.Laws.Listed.erase (h : L.Listed io es) (hle : L.le io io') (k : Digest224)
    (hstored : serializeEntryList (es.erase k) ∈ L.stored io') : L.Listed io' (es.erase k) where
  stored := hstored
  size := Nat.lt_of_le_of_lt Std.ExtTreeMap.size_erase_le h.size
  entry j e he := by
    rw [getElem?_erase_ite] at he
    split_ifs at he
    exact (h.mono hle).entry j e he

/-- A directory gets a new entry list. -/
theorem Blockset.Laws.Listing.setDir (h : L.Listing st dirs) (p : UInt64)
    (hes : L.Listed st.io es) :
    L.Listing { st with maps := { st.maps with
        dirData := st.maps.dirData.insert p (L.digest (serializeEntryList es)) } }
      (dirs.insert p es) where
  digests q := by
    rw [getElem?_insert_ite, getElem?_insert_ite, h.digests q]
    split_ifs <;> rfl
  listed q fs hfs := by
    rw [getElem?_insert_ite] at hfs
    split_ifs at hfs
    · obtain rfl := Option.some.inj hfs
      exact hes
    · exact h.listed q fs hfs

/-- The key of a name is the digest of the name, which is stored. -/
theorem entryKey_eq (hB : L.Reliable) (name : Str) (io : B.Io) :
    ∃ w, entryKey B name (B.new io) = ((.ok (L.key name), w) : Except (Fault ε) _ × _) ∧
      L.le io (B.drop w) ∧ name.bytes ∈ L.stored (B.drop w) := by
  obtain ⟨w, hw, hle, hname⟩ := L.step_pushAll_eq (ε := ε) hB name.bytes (B.new io)
  exact ⟨w, hw, L.le_trans (L.le_new io) hle, hname⟩

theorem lookupDirEntry_eq (hB : L.Reliable) (h : L.Listed io es) (hc : L.NoCollision io)
    (name : Str) :
    ∃ io', L.le io io' ∧ name.bytes ∈ L.stored io' ∧
      lookupDirEntry B (L.digest (serializeEntryList es)) name io =
        ((es[L.key name]?.map EntryRecord.ino).elim (.error (.err (.notFound 0))) .ok, io') := by
  obtain ⟨w, hw, hle, hname⟩ := entryKey_eq (L := L) (ε := MetaError) hB name io
  refine ⟨B.drop w, hle, hname, ?_⟩
  unfold lookupDirEntry
  rw [Prog.bind_ok (loadEntryList_eq h hc)]
  unfold Blockset.withFsa Prog.zoom
  rw [Prog.bind_ok hw]
  cases es[L.key name]? <;> rfl

/-- What `lookup` finds. -/
theorem lookup_eq (hB : L.Reliable) (h : L.Listing st dirs) (hc : L.NoCollision st.io)
    (p : UInt64) (name : Str) :
    ∃ io, L.le st.io io ∧
      ((∃ es e, dirs[p]? = some es ∧ es[L.key name]? = some e ∧ name.bytes ∈ L.stored io ∧
          lookup p name st = (.ok e.ino, { st with io := io })) ∨
        ((dirs[p]?).bind (fun es => es[L.key name]?) = none ∧
          ∃ err, (dirs[p]? ≠ none → err = .notFound 0) ∧
            lookup p name st = (.error (.err err), { st with io := io }))) := by
  have hdig := dirDigestOf_apply p st
  unfold lookup
  rw [h.digests p] at hdig
  cases hes : dirs[p]? with
  | none =>
      rw [hes] at hdig
      exact ⟨st.io, L.le_refl _, .inr ⟨rfl, _, fun hdir => absurd rfl hdir, Prog.bind_error hdig⟩⟩
  | some es =>
      rw [hes] at hdig
      rw [Prog.bind_ok hdig]
      obtain ⟨io, hle, hname, hlookup⟩ := lookupDirEntry_eq hB (h.listed p es hes) hc name
      have hrun : onIo (lookupDirEntry B (L.digest (serializeEntryList es)) name) st =
          ((es[L.key name]?.map EntryRecord.ino).elim (.error (.err (.notFound 0))) .ok,
            { st with io := io }) := by
        unfold onIo Prog.zoom
        rw [hlookup]
      refine ⟨io, hle, ?_⟩
      rw [Prog.mapErr, hrun]
      cases he : es[L.key name]? with
      | none => exact .inr ⟨he, _, fun _ => rfl, rfl⟩
      | some e => exact .inl ⟨es, e, rfl, he, hname, rfl⟩

theorem addDirEntry_dots {name : Str} (hdots : name.IsDots) (d : Digest224) (i : UInt64)
    (io : B.Io) : addDirEntry B d name i io = (.error (.err (.invalidName name)), io) :=
  Prog.ensure_bind_of_not (p := ¬ (name = .dot ∨ name = .dotDot)) (not_not.mpr hdots) _ _ _

theorem removeDirEntry_dots {name : Str} (hdots : name.IsDots) (d : Digest224) (io : B.Io) :
    removeDirEntry B d name io = (.error (.err (.invalidName name)), io) :=
  Prog.ensure_bind_of_not (p := ¬ (name = .dot ∨ name = .dotDot)) (not_not.mpr hdots) _ _ _

theorem addDirEntry_of_load {d d' key : Digest224} {name : Str} {i : UInt64} {w w' : B.Fsa}
    (hproper : ¬ name.IsDots) (hload : loadEntryList B d io = (.ok es, io))
    (hkey : entryKey B name (B.new io) = ((.ok key, w) : Except (Fault MetaError) _ × _))
    (hnew : es[key]? = none) (hlist : internEntryList B (es.insert key ⟨key, i, name⟩) w =
      ((.ok d', w') : Except (Fault MetaError) _ × _)) :
    addDirEntry B d name i io = (.ok d', B.drop w') := by
  have hdots : ¬ (name = .dot ∨ name = .dotDot) := hproper
  unfold addDirEntry
  rw [Prog.ensure_bind_of hdots, Prog.bind_ok hload]
  unfold Blockset.withFsa Prog.zoom
  rw [Prog.bind_ok hkey, Prog.ensure_bind_of hnew, hlist]

/-- Adding an entry to a list. -/
theorem addDirEntry_eq (hB : L.Reliable) (h : L.Listed io es) (hc : L.NoCollision io)
    {name : Str} (hdots : ¬ name.IsDots) (hlen : name.bytes.length < 2 ^ 32)
    (hroom : es[L.key name]? = none → es.size + 1 < 2 ^ 32) (i : UInt64) :
    ∃ io', L.le io io' ∧
      (es[L.key name]? ≠ none ∧ name.bytes ∈ L.stored io' ∧
          addDirEntry B (L.digest (serializeEntryList es)) name i io =
            (.error (.err (.alreadyExists i)), io') ∨
        es[L.key name]? = none ∧ addDirEntry B (L.digest (serializeEntryList es)) name i io =
          (.ok (L.digest (serializeEntryList (es.insert (L.key name) ⟨L.key name, i, name⟩))),
            io') ∧
        L.Listed io' (es.insert (L.key name) ⟨L.key name, i, name⟩)) := by
  have hload := loadEntryList_eq h hc
  obtain ⟨w, hw, hle, hname⟩ := entryKey_eq (L := L) (ε := MetaError) hB name io
  cases he : es[L.key name]? with
  | some e =>
      have hproper : ¬ (name = .dot ∨ name = .dotDot) := hdots
      refine ⟨B.drop w, hle, .inl ⟨by simp, hname, ?_⟩⟩
      unfold addDirEntry
      rw [Prog.ensure_bind_of hproper, Prog.bind_ok hload]
      unfold Blockset.withFsa Prog.zoom
      rw [Prog.bind_ok hw, Prog.ensure_bind_of_not (by simp [he])]
  | none =>
      obtain ⟨w', hw', hle', hstored⟩ := L.step_pushAll_eq (ε := MetaError) hB
        (serializeEntryList (es.insert (L.key name) ⟨L.key name, i, name⟩)) w
      refine ⟨B.drop w', L.le_trans hle hle', .inr ⟨rfl, ?_, ?_⟩⟩
      · exact addDirEntry_of_load hdots hload hw he hw'
      · exact h.insert (L.le_trans hle hle') (L.stored_mono hle' hname) hlen (hroom he) i hstored

/-- Removing an entry from a list. -/
theorem removeDirEntry_eq (hB : L.Reliable) (h : L.Listed io es) (hc : L.NoCollision io)
    {name : Str} (hdots : ¬ name.IsDots) :
    ∃ io', L.le io io' ∧ name.bytes ∈ L.stored io' ∧
      (es[L.key name]? = none ∧ removeDirEntry B (L.digest (serializeEntryList es)) name io =
          (.error (.err (.notFound 0)), io') ∨
        es[L.key name]? ≠ none ∧ removeDirEntry B (L.digest (serializeEntryList es)) name io =
          (.ok (L.digest (serializeEntryList (es.erase (L.key name)))), io') ∧
        L.Listed io' (es.erase (L.key name))) := by
  have hproper : ¬ (name = .dot ∨ name = .dotDot) := hdots
  have hload := loadEntryList_eq h hc
  obtain ⟨w, hw, hle, hname⟩ := entryKey_eq (L := L) (ε := MetaError) hB name io
  unfold removeDirEntry
  rw [Prog.ensure_bind_of hproper, Prog.bind_ok hload]
  unfold Blockset.withFsa Prog.zoom
  cases he : es[L.key name]? with
  | none =>
      refine ⟨B.drop w, hle, hname, .inl ⟨rfl, ?_⟩⟩
      rw [Prog.bind_ok hw, Prog.ensure_bind_of_not (by simp [he])]
  | some e =>
      obtain ⟨w', hw', hle', hstored⟩ := L.step_pushAll_eq (ε := MetaError) hB
        (serializeEntryList (es.erase (L.key name))) w
      refine ⟨B.drop w', L.le_trans hle hle', L.stored_mono hle' hname, .inr ⟨by simp, ?_, ?_⟩⟩
      · rw [Prog.bind_ok hw, Prog.ensure_bind_of (by simp [he]), internEntryList, hw']
      · exact h.erase (L.le_trans hle hle') (L.key name) hstored

/-- The edit of the entry list of a directory. -/
theorem rewriteDir_ok {p : UInt64} {edit : Digest224 → Prog B.Io MetaError Digest224}
    {d d' : Digest224} (hd : st.maps.dirData[p]? = some d) (hedit : edit d st.io = (.ok d', io')) :
    rewriteDir p edit st = (.ok (), { st with
      io := io', maps := { st.maps with dirData := st.maps.dirData.insert p d' } }) := by
  have hdig := dirDigestOf_apply p st
  rw [hd] at hdig
  have hio : onIo (edit d) st = (.ok d', { st with io := io' }) := by
    rw [onIo, Prog.zoom, hedit]
  rw [rewriteDir, Prog.bind_ok hdig, Prog.bind_ok hio]
  rfl

theorem rewriteDir_error {p : UInt64} {edit : Digest224 → Prog B.Io MetaError Digest224}
    {d : Digest224} {e : Fault MetaError} (hd : st.maps.dirData[p]? = some d)
    (hedit : edit d st.io = (.error e, io')) :
    rewriteDir p edit st = (.error e, { st with io := io' }) := by
  have hdig := dirDigestOf_apply p st
  rw [hd] at hdig
  have hio : onIo (edit d) st = (.error e, { st with io := io' }) := by
    rw [onIo, Prog.zoom, hedit]
  rw [rewriteDir, Prog.bind_ok hdig, Prog.bind_error hio]

theorem rewriteDir_none {p : UInt64} (edit : Digest224 → Prog B.Io MetaError Digest224)
    (hd : st.maps.dirData[p]? = none) :
    rewriteDir p edit st = (.error (.err (.notADirectory p)), st) := by
  have hdig := dirDigestOf_apply p st
  rw [hd] at hdig
  rw [rewriteDir, Prog.bind_error hdig]

theorem Blockset.Laws.Listing.digest_some (h : L.Listing st dirs) {p : UInt64}
    (hes : dirs[p]? = some es) : st.maps.dirData[p]? = some (L.digest (serializeEntryList es)) := by
  rw [h.digests p, hes]
  rfl

theorem Blockset.Laws.Listing.digest_none (h : L.Listing st dirs) {p : UInt64}
    (hes : dirs[p]? = none) : st.maps.dirData[p]? = none := by
  rw [h.digests p, hes]
  rfl

/-- What `link` does to the entry lists. -/
theorem link_eq (hB : L.Reliable) (h : L.Listing st dirs) (hc : L.NoCollision st.io)
    {p : UInt64} {name : Str} (hlen : name.bytes.length < 2 ^ 32)
    (hroom : ∀ es, dirs[p]? = some es → es.size + 1 < 2 ^ 32) (i : UInt64) :
    (∃ es st', dirs[p]? = some es ∧ ¬ name.IsDots ∧ es[L.key name]? = none ∧
        link p name i st = (.ok (), st') ∧
        L.Listing st' (dirs.insert p (es.insert (L.key name) ⟨L.key name, i, name⟩))) ∨
      ∃ err st', (name.IsDots ∨ dirs[p]? = none ∨
          err = .alreadyExists i ∧ ∃ es e, dirs[p]? = some es ∧ es[L.key name]? = some e ∧
            (L.NoCollision st'.io → e.name = name)) ∧
        link p name i st = (.error (.err err), st') ∧ L.Listing st' dirs := by
  unfold link
  cases hes : dirs[p]? with
  | none => exact .inr ⟨_, st, .inr (.inl rfl), rewriteDir_none _ (h.digest_none hes), h⟩
  | some es =>
      by_cases hdots : name.IsDots
      · exact .inr ⟨_, _, .inl hdots,
          rewriteDir_error (h.digest_some hes) (addDirEntry_dots hdots _ i st.io), h⟩
      · obtain ⟨io', hle, ⟨hsome, hstored, hfail⟩ | ⟨hnone, hadd, hlisted⟩⟩ :=
          addDirEntry_eq hB (h.listed p es hes) hc hdots hlen (fun _ => hroom es hes) i
        · obtain ⟨e, he⟩ := Option.ne_none_iff_exists'.mp hsome
          refine .inr ⟨_, _, .inr (.inr ⟨rfl, es, e, rfl, he, fun hc' => ?_⟩),
            rewriteDir_error (h.digest_some hes) hfail, h.frame hle rfl⟩
          exact ((h.listed p es hes).mono hle).name_eq hc' hstored he
        · refine .inl ⟨es, _, rfl, hdots, hnone, rewriteDir_ok (h.digest_some hes) hadd, ?_⟩
          have hframe : L.Listing { st with io := io' } dirs := h.frame hle rfl
          exact hframe.setDir p hlisted

/-- What `unlink` does to the entry lists. -/
theorem unlink_eq (hB : L.Reliable) (h : L.Listing st dirs) (hc : L.NoCollision st.io)
    (p : UInt64) (name : Str) :
    (∃ es st', dirs[p]? = some es ∧ ¬ name.IsDots ∧ es[L.key name]? ≠ none ∧
        unlink p name st = (.ok (), st') ∧ L.Listing st' (dirs.insert p (es.erase (L.key name)))) ∨
      ∃ err st', (name.IsDots ∨ (dirs[p]?).bind (fun es => es[L.key name]?) = none) ∧
        unlink p name st = (.error (.err err), st') ∧ L.Listing st' dirs := by
  unfold unlink
  cases hes : dirs[p]? with
  | none => exact .inr ⟨_, st, .inr rfl, rewriteDir_none _ (h.digest_none hes), h⟩
  | some es =>
      by_cases hdots : name.IsDots
      · exact .inr ⟨_, _, .inl hdots,
          rewriteDir_error (h.digest_some hes) (removeDirEntry_dots hdots _ st.io), h⟩
      · obtain ⟨io', hle, -, hfail | ⟨hsome, hremove, hlisted⟩⟩ :=
          removeDirEntry_eq hB (h.listed p es hes) hc hdots
        · exact .inr ⟨_, _, .inr hfail.1, rewriteDir_error (h.digest_some hes) hfail.2,
            h.frame hle rfl⟩
        · refine .inl ⟨es, _, rfl, hdots, hsome, rewriteDir_ok (h.digest_some hes) hremove, ?_⟩
          have hframe : L.Listing { st with io := io' } dirs := h.frame hle rfl
          exact hframe.setDir p hlisted

theorem listDirectory_of_load {p : UInt64} {d : Digest224} (hd : st.maps.dirData[p]? = some d)
    (hload : loadEntryList B d st.io = (.ok es, st.io)) :
    listDirectory p st = (.ok (es.toList.map fun e => ⟨e.2.name, e.2.ino⟩), st) := by
  have hdig := dirDigestOf_apply p st
  rw [hd] at hdig
  unfold listDirectory
  rw [Prog.bind_ok hdig]
  unfold onIo Prog.zoom listDirEntries
  rw [Prog.bind_ok hload]
  rfl

theorem listDirectory_eq (h : L.Listing st dirs) (hc : L.NoCollision st.io) (p : UInt64) :
    listDirectory p st = ((dirs[p]?).elim (.error (.err (.notADirectory p)))
      (fun es => .ok (es.toList.map fun e => ⟨e.2.name, e.2.ino⟩)), st) := by
  cases hes : dirs[p]? with
  | none =>
      have hdig := dirDigestOf_apply p st
      rw [h.digest_none hes] at hdig
      unfold listDirectory
      exact Prog.bind_error hdig
  | some es =>
      exact listDirectory_of_load (h.digest_some hes) (loadEntryList_eq (h.listed p es hes) hc)

end

section Frame
variable {B : Blockset} (L : B.Laws)

/-- The programs that leave the entry lists alone. -/
abbrev Blockset.Laws.fixedDirs : Growth (Store B) := L.growthMaps (.fixed StoreMaps.dirData)

instance fixedDirs_store : StoreGrowth L L.fixedDirs :=
  storeGrowth_maps (fun _ _ => rfl) fun _ _ => rfl

instance fixedDirs_inode : InodeGrowth L L.fixedDirs :=
  AllowsInodes.inodeGrowth ⟨fun _ _ _ => rfl, fun _ _ _ => rfl, fun _ _ => rfl, fun _ _ _ => rfl⟩

end Frame

section Directories
variable {B : Blockset} {L : B.Laws} {st : Store B} {c : Contents} {dirs : Map UInt64 Entries}
  {es : Entries} {i p : UInt64} {pm : InodeMeta} {name : Str}

/-- The entries of a new directory can be read back. -/
theorem listed_newDir {io : B.Io}
    (hstored : serializeEntryList (Tree.newDir L.key i p) ∈ L.stored io)
    (hdot : Str.dot.bytes ∈ L.stored io) (hdotDot : Str.dotDot.bytes ∈ L.stored io) :
    L.Listed io (Tree.newDir L.key i p) where
  stored := hstored
  size := by
    have h₁ := Std.ExtTreeMap.size_insert_le (t := Std.ExtTreeMap.insert (∅ : Entries) (L.key .dot)
      ⟨L.key .dot, i, .dot⟩) (k := L.key .dotDot) (v := ⟨L.key .dotDot, p, .dotDot⟩)
    have h₂ := Std.ExtTreeMap.size_insert_le (t := (∅ : Entries)) (k := L.key .dot)
      (v := ⟨L.key .dot, i, .dot⟩)
    rw [Std.ExtTreeMap.size_empty] at h₂
    exact Nat.lt_of_le_of_lt (Nat.le_trans h₁ (Nat.succ_le_succ h₂)) (by decide)
  entry k e he := by
    rw [Tree.newDir, getElem?_insert_ite, getElem?_insert_ite] at he
    split_ifs at he with h₁ h₂
    · obtain rfl := Option.some.inj he
      exact ⟨h₁.symm, h₁, hdotDot, (by decide : Str.dotDot.bytes.length < 2 ^ 32)⟩
    · obtain rfl := Option.some.inj he
      exact ⟨h₂.symm, h₂, hdot, (by decide : Str.dot.bytes.length < 2 ^ 32)⟩
    · simp at he

/-- A parent counts one more directory, unless its count is full. -/
theorem wp_addBacklink_cases (hB : L.Reliable) (h : L.Holds st c) (hp : c.inodes[p]? = some pm) :
    wp L.growthQuiet (addBacklink p)
      (fun r st' => r = .error .panic ∧ 2 ^ 32 ≤ pm.nlinks.toNat + 1 ∨
        r = .ok () ∧ pm.nlinks.toNat + 1 < 2 ^ 32 ∧
          L.Holds st' (c.modifyInode p fun m => { m with nlinks := m.nlinks + 1 }) ∧
          L.le st.io st'.io ∧ st'.maps.dirData = st.maps.dirData) st := by
  refine wp_of_good fun hc => ?_
  have hget := getInode_eq h hc p
  rw [Contents.getInode, hp] at hget
  unfold addBacklink
  refine wp_bind_of_eq hget ?_
  by_cases hn : pm.nlinks.toNat + 1 < 2 ^ 32
  · obtain rfl := (h.inode p pm hp).2.1
    obtain ⟨st', hupd, h'⟩ := updateInode_eq hB h (m := { pm with nlinks := pm.nlinks + 1 })
      (n := pm) hp
    have hgrow := (InodeGrowth.updateInode (g := L.fixedDirs)
      { pm with nlinks := pm.nlinks + 1 }).le_run st
    rw [hupd] at hgrow
    refine wp_of_eq ((Prog.assert_bind_of hn _ _).trans hupd) fun _ =>
      .inr ⟨rfl, hn, ?_, hgrow.1.1, hgrow.2⟩
    rw [Contents.modifyInode, hp]
    exact h'
  · exact wp_of_eq (Prog.assert_bind_of_not hn _ _) fun _ => .inl ⟨rfl, Nat.le_of_not_lt hn⟩

/-- A directory is inserted under a number that was handed out, unless its name is taken or
reserved, or the count of the parent is full. -/
theorem wp_insertDirectory_cases (hB : L.Reliable) (h : L.Holds st c) (hlist : L.Listing st dirs)
    (hlen : name.bytes.length < 2 ^ 32) (hi : i < c.nextIno) (hne : p ≠ i)
    (hp : c.inodes[p]? = some pm) (hes : dirs[p]? = some es) (hroom : es.size + 1 < 2 ^ 32)
    (m : InodeMeta) :
    wp L.growthQuiet (insertDirectory i p name m)
      (fun r st' =>
        (∃ e, r = .error (.err e) ∧ L.Holds st' c ∧ L.Listing st' dirs ∧
          (name.IsDots ∨
            e = .alreadyExists i ∧ ∃ x, es[L.key name]? = some x ∧ x.name = name)) ∨
        r = .error .panic ∧ 2 ^ 32 ≤ pm.nlinks.toNat + 1 ∨
        r = .ok () ∧ pm.nlinks.toNat + 1 < 2 ^ 32 ∧ ¬ name.IsDots ∧ es[L.key name]? = none ∧
          L.Holds st' (({ c with inodes := c.inodes.insert i (m.asDirectory i) } :
            Contents).modifyInode p fun pm => { pm with nlinks := pm.nlinks + 1 }) ∧
          L.Listing st' ((dirs.insert i (Tree.newDir L.key i p)).insert p
            (es.insert (L.key name) ⟨L.key name, i, name⟩))) st := by
  have hdig := dirDigestOf_apply p st
  rw [hlist.digest_some hes] at hdig
  obtain ⟨io, hdir, hle, hm, hentries, hdot, hdotDot⟩ :=
    onIo_internDirectory_eq (L := L) (ε := MetaError) hB (m.asDirectory i) i p st
  unfold insertDirectory
  refine wp_bind_of_eq hdig (wp_bind_of_eq hdir (wp_of_good fun hc₁ => ?_))
  have hlisted := (hlist.listed p es hes).mono hle
  have hrun : ∀ {r : Except (Fault MetaError) Digest224} {io' : B.Io},
      addDirEntry B (L.digest (serializeEntryList es)) name i io = (r, io') →
      onIo (addDirEntry B (L.digest (serializeEntryList es)) name i) { st with io := io } =
        (r, { st with io := io' }) := by
    intro r io' hadd
    rw [onIo, Prog.zoom, hadd]
  by_cases hdots : name.IsDots
  · exact wp_of_eq (Prog.bind_error (hrun (addDirEntry_dots hdots _ i io))) fun _ =>
      .inl ⟨_, rfl, h.grow hle, hlist.frame hle rfl, .inl hdots⟩
  obtain ⟨io', hle', ⟨hsome, hstored, hfail⟩ | ⟨hfree, hadd, hparent⟩⟩ :=
    addDirEntry_eq hB hlisted hc₁ hdots hlen (fun _ => hroom) i
  · refine wp_of_eq (Prog.bind_error (hrun hfail)) fun hc₂ =>
      .inl ⟨_, rfl, h.grow (L.le_trans hle hle'), hlist.frame (L.le_trans hle hle') rfl,
        .inr ⟨rfl, ?_⟩⟩
    obtain ⟨x, hx⟩ := Option.ne_none_iff_exists'.mp hsome
    exact ⟨x, hx, (hlisted.mono hle').name_eq hc₂ hstored hx⟩
  · have hnewDir := listed_newDir (i := i) (p := p) (L.stored_mono hle' hentries)
      (L.stored_mono hle' hdot) (L.stored_mono hle' hdotDot)
    have hle'' := L.le_trans hle hle'
    have hcore := (((h.grow hle'').setInode (L.stored_mono hle' hm) rfl hi st.maps.logicalBytes
      st.maps.inodeCount).setDir (p := i) ⟨_, hnewDir.stored, rfl⟩).setDir (p := p)
        ⟨_, hparent.stored, rfl⟩
    have hgrown : L.Listing { st with io := io' } dirs := hlist.frame hle'' rfl
    have hlist' := (hgrown.setDir i hnewDir).setDir p hparent
    have hp' : (c.inodes.insert i (m.asDirectory i))[p]? = some pm := by
      rw [getElem?_insert_ite, if_neg hne, hp]
    refine wp_bind_of_eq (hrun hadd) (wp_bind_of_eq (Prog.modify_apply _ _) (wp_bind ?_))
    refine (wp_addBacklink_cases hB hcore hp').mono ?_
    rintro _ st₃ - (⟨rfl, hn⟩ | ⟨rfl, hn, hcore₃, hle₃, hdirs₃⟩)
    · exact .inr (.inl ⟨rfl, hn⟩)
    · exact wp_modify fun _ => .inr (.inr ⟨rfl, hn, hdots, hfree, hcore₃.counters _ _,
        hlist'.frame hle₃ hdirs₃⟩)

variable (L) in
/-- The ways in which `create_directory` can end. -/
inductive Blockset.Laws.CreatesDirectory (c : Contents) (dirs : Map UInt64 Entries) (p : UInt64)
    (name : Str) (m : InodeMeta) : Except (Fault MetaError) UInt64 → Store B → Prop where
  | refused {e : MetaError} {st' : Store B} :
      (¬ ∃ pm, c.inodes[p]? = some pm ∧ pm.isDir ∧ dirs[p]? ≠ none) → L.Holds st' c →
      L.Listing st' dirs → CreatesDirectory c dirs p name m (.error (.err e)) st'
  | overflow {st' : Store B} :
      (c.nextIno = u64Max ∨ ∃ pm, c.inodes[p]? = some pm ∧ 2 ^ 32 ≤ pm.nlinks.toNat + 1) →
      CreatesDirectory c dirs p name m (.error .panic) st'
  | reserved {e : MetaError} {st' : Store B} : c.nextIno ≠ u64Max → name.IsDots →
      L.Holds st' c.burnIno → L.Listing st' dirs →
      CreatesDirectory c dirs p name m (.error (.err e)) st'
  | taken {es : Entries} {x : EntryRecord} {st' : Store B} : c.nextIno ≠ u64Max →
      dirs[p]? = some es → es[L.key name]? = some x → x.name = name → L.Holds st' c.burnIno →
      L.Listing st' dirs →
      CreatesDirectory c dirs p name m (.error (.err (.alreadyExists c.nextIno))) st'
  | made {pm : InodeMeta} {es : Entries} {st' : Store B} : c.nextIno ≠ u64Max →
      c.inodes[p]? = some pm → pm.isDir → pm.nlinks.toNat + 1 < 2 ^ 32 → dirs[p]? = some es →
      ¬ name.IsDots → es[L.key name]? = none →
      L.Holds st' ((c.addInode (m.asDirectory c.nextIno)).modifyInode p fun pm =>
        { pm with nlinks := pm.nlinks + 1 }) →
      L.Listing st' ((dirs.insert c.nextIno (Tree.newDir L.key c.nextIno p)).insert p
        (es.insert (L.key name) ⟨L.key name, c.nextIno, name⟩)) →
      CreatesDirectory c dirs p name m (.ok c.nextIno) st'

/-- A number is handed out before the name is looked at. -/
theorem wp_createDirectory_listing (hB : L.Reliable) (h : L.Holds st c) (hlist : L.Listing st dirs)
    (hlen : name.bytes.length < 2 ^ 32)
    (hroom : ∀ es, dirs[p]? = some es → es.size + 1 < 2 ^ 32) (m : InodeMeta) :
    wp L.growthQuiet (createDirectory p name m) (L.CreatesDirectory c dirs p name m) st := by
  refine wp_of_good fun hc => ?_
  have hget := getInode_eq h hc p
  have hdig := dirDigestOf_apply p st
  rw [Contents.getInode] at hget
  unfold createDirectory
  cases hp : c.inodes[p]? with
  | none =>
      rw [hp] at hget
      exact wp_of_eq (Prog.bind_error hget) fun _ => .refused (by simp [hp]) h hlist
  | some pm =>
      rw [hp] at hget
      refine wp_bind_of_eq hget ?_
      by_cases hpdir : pm.isDir
      swap
      · exact wp_of_eq (Prog.ensure_bind_of_not hpdir _ _ _) fun _ =>
          .refused (by simp [hp, hpdir]) h hlist
      refine wp_congr (Prog.ensure_bind_of hpdir _ _ _) ?_
      cases hes : dirs[p]? with
      | none =>
          rw [hlist.digest_none hes] at hdig
          exact wp_of_eq (Prog.bind_error hdig) fun _ => .refused (by simp [hes]) h hlist
      | some es =>
          rw [hlist.digest_some hes] at hdig
          refine wp_bind_of_eq hdig ?_
          by_cases hmax : c.nextIno = u64Max
          · exact wp_of_eq (Prog.bind_error (allocateIno_panic h hmax)) fun _ =>
              .overflow (.inl hmax)
          obtain ⟨st₁, halloc, h₁, hio₁⟩ := allocateIno_eq (ε := MetaError) h hmax
          have hgrow := (InodeGrowth.allocateIno (g := L.fixedDirs) (ε := MetaError)).le_run st
          rw [halloc] at hgrow
          have hne : p ≠ c.nextIno := fun he => UInt64.lt_irrefl _ (he ▸ (h.inode p pm hp).2.2)
          refine wp_bind_of_eq halloc (wp_bind ?_)
          refine (wp_insertDirectory_cases hB h₁ (hlist.frame hgrow.1.1 hgrow.2) hlen
            (lt_add_one_of_ne_u64Max hmax) hne hp hes (hroom es hes) m).mono ?_
          rintro _ st₂ - (⟨e, rfl, h₂, hlist₂, hdots | ⟨rfl, x, hx, hname⟩⟩ | ⟨rfl, hn⟩ |
            ⟨rfl, hn, hdots, hfree, h₂, hlist₂⟩)
          · exact .reserved hmax hdots h₂ hlist₂
          · exact .taken hmax hes hx hname h₂ hlist₂
          · exact .overflow (.inr ⟨pm, hp, hn⟩)
          · exact wp_pure fun _ => .made hmax hp hpdir hn hes hdots hfree h₂ hlist₂

end Directories

end SliceFs
