import SliceFs.SnapshotSwitch
import SliceFs.Seed

/-!
# Extended attributes as maps

The attributes of an inode are kept as one encoded list, which is decoded, edited and
stored again by each call. Read through the calls they are one map for each inode: the
lists never name an attribute twice, the encoding is exact in both directions, and what
`commit` records is what `load_from_root` gives back.
-/
namespace SliceFs
open LittleEndian TreeMaps ProgramLogic

/-- The attributes of every inode. -/
abbrev Attrs := UInt64 → Str → Option Bytes

def Attrs.put (a : Attrs) (ino : UInt64) (name : Str) (value : Option Bytes) : Attrs :=
  Function.update a ino (Function.update (a ino) name value)

inductive XattrCall where
  | set (ino : UInt64) (name : Str) (value : Bytes)
  | get (ino : UInt64) (name : Str)
  | list (ino : UInt64)
  | remove (ino : UInt64) (name : Str)
  | commit
  /-- Loads the root that one of the commits so far returned. -/
  | load (k : ℕ)

inductive XattrReply where
  | done
  | value (v : Bytes)
  | names (names : List Str)
  | root (root : Digest224)
deriving DecidableEq

/-- The root that a call committed. -/
def committedRoot : Except MetaError XattrReply → List Digest224
  | .ok (.root root) => [root]
  | _ => []

section
variable {B : Blockset} (overflowChecks : Bool)

/-- The store is replaced by the one that the root gives, over the same backend. -/
def reload (root : Digest224) : StoreM B Unit := do
  let st ← onIo (loadFromRoot B overflowChecks root)
  Prog.modify fun s => { st with io := s.io }

/-- `roots` are the roots committed so far. -/
def XattrCall.run (roots : List Digest224) : XattrCall → StoreM B XattrReply
  | set ino name value => do setXattr ino name value; pure .done
  | get ino name => do let v ← getXattr ino name; pure (.value v)
  | list ino => do let names ← listXattrs ino; pure (.names names)
  | remove ino name => do removeXattr ino name; pure .done
  | commit => do let root ← SliceFs.commit; pure (.root root)
  | load k => do (roots[k]?).elim (pure ()) (reload overflowChecks); pure .done

/-- The replies to calls made one after the other; failed calls do not end the run. -/
def runXattrCalls : List XattrCall → List Digest224 →
    Prog (Store B) Empty (List (Except MetaError XattrReply))
  | [], _ => pure []
  | call :: calls, roots => do
      let r ← (call.run overflowChecks roots).attempt
      let rs ← runXattrCalls calls (roots ++ committedRoot r)
      pure (r :: rs)

end

/-- The attributes now, and those at each commit so far. -/
structure AttrHistory where
  now : Attrs
  saved : List Attrs

namespace XattrCall

def next : XattrCall → AttrHistory → AttrHistory
  | set ino name value, a =>
      { a with now := Attrs.put a.now ino name (some value) }
  | remove ino name, a =>
      { a with now := Attrs.put a.now ino name none }
  | commit, a => { a with saved := a.saved ++ [a.now] }
  | load k, a => { a with now := (a.saved[k]?).getD a.now }
  | _, a => a

/-- What a call replies by the maps. -/
def Answers : XattrCall → AttrHistory → Except MetaError XattrReply → Prop
  | set _ _ _, _, r => r = .ok .done
  | get ino name, a, r =>
      r = (a.now ino name).elim (.error (.notFound ino)) fun v => .ok (.value v)
  | list ino, a, r => ∃ names : List Str, r = .ok (.names names) ∧ names.Nodup ∧
      ∀ name, name ∈ names ↔ a.now ino name ≠ none
  | remove ino name, a, r =>
      r = if a.now ino name = none then .error (.notFound ino) else .ok .done
  | commit, _, r => ∃ root, r = .ok (.root root)
  | load _, _, r => r = .ok .done

def Short : XattrCall → Prop
  | set _ name value => ShortXattr (name, value)
  | _ => True

end XattrCall

/-- Every call of a sequence is answered by the maps as the calls before it made them. -/
def AnswersAll : List XattrCall → AttrHistory → List (Except MetaError XattrReply) → Prop
  | [], _, rs => rs = []
  | call :: calls, a, rs => ∃ r rest, rs = r :: rest ∧ call.Answers a r ∧
      AnswersAll calls (call.next a) rest

section
variable {B : Blockset} {L : B.Laws} {overflowChecks : Bool}

variable (L) in
/-- The list stands at an entry of the attribute map. -/
def Blockset.Laws.XattrsAt (io : B.Io) (xs : Xattrs) : Option Digest224 → Prop
  | none => xs = []
  | some d => d = L.digest (serializeXattrs xs) ∧ serializeXattrs xs ∈ L.stored io

variable (L) in
/-- The attribute map stands for the attributes `a`. -/
def Blockset.Laws.HoldsXattrs (io : B.Io) (m : Map UInt64 Digest224) (a : Attrs) : Prop :=
  ∀ ino : UInt64, ∃ xs : Xattrs, ProperXattrs xs ∧ L.XattrsAt io xs m[ino]? ∧
    a ino = getXattrEntry xs

theorem Blockset.Laws.XattrsAt.mono {io io' : B.Io} {xs : Xattrs} {d : Option Digest224}
    (h : L.XattrsAt io xs d) (hle : L.le io io') : L.XattrsAt io' xs d := by
  cases d with
  | none => exact h
  | some d => exact ⟨h.1, L.stored_mono hle h.2⟩

theorem Blockset.Laws.HoldsXattrs.mono {io io' : B.Io} {m : Map UInt64 Digest224} {a : Attrs}
    (h : L.HoldsXattrs io m a) (hle : L.le io io') : L.HoldsXattrs io' m a := by
  intro ino
  obtain ⟨xs, hxs, hat, ha⟩ := h ino
  exact ⟨xs, hxs, hat.mono hle, ha⟩

section Calls
variable {st : Store B} {ino : UInt64} {xs : Xattrs} {name : Str}

theorem onIo_loadXattrs_eq (hc : L.NoCollision st.io) (hxs : ProperXattrs xs)
    (hmem : serializeXattrs xs ∈ L.stored st.io) :
    onIo (loadXattrs B (L.digest (serializeXattrs xs))) st = (.ok xs, st) := by
  have hload : loadXattrs B (L.digest (serializeXattrs xs)) st.io = (.ok xs, st.io) := by
    rw [loadXattrs, loadRecord_of_stored L hc hmem,
      noPanic_ok (deserializeXattrs_serializeXattrs hxs.short)]
  rw [onIo, Prog.zoom, hload]

theorem loadXattrsOf_eq (hc : L.NoCollision st.io) (hxs : ProperXattrs xs)
    (hat : L.XattrsAt st.io xs st.maps.xattrData[ino]?) :
    loadXattrsOf ino st = (.ok xs, st) := by
  show onIo ((st.maps.xattrData[ino]?).elim (pure []) (loadXattrs B)) st = _
  cases hd : st.maps.xattrData[ino]? with
  | none =>
      rw [hd] at hat
      obtain rfl : xs = [] := hat
      rfl
  | some d =>
      rw [hd] at hat
      obtain ⟨rfl, hmem⟩ := hat
      exact onIo_loadXattrs_eq hc hxs hmem

theorem getXattr_eq (hc : L.NoCollision st.io) (hxs : ProperXattrs xs)
    (hat : L.XattrsAt st.io xs st.maps.xattrData[ino]?) (name : Str) :
    getXattr ino name st =
      ((getXattrEntry xs name).elim (.error (.err (.notFound ino))) .ok, st) := by
  unfold getXattr
  rw [Prog.bind_ok (show readMaps (fun m => m.xattrData[ino]?) st =
    (.ok st.maps.xattrData[ino]?, st) from rfl)]
  cases hd : st.maps.xattrData[ino]? with
  | none =>
      rw [hd] at hat
      obtain rfl : xs = [] := hat
      rfl
  | some d =>
      rw [hd] at hat
      obtain ⟨rfl, hmem⟩ := hat
      rw [Prog.ofOption_some, Prog.bind_ok (Prog.pure_apply _ _),
        Prog.bind_ok (onIo_loadXattrs_eq hc hxs hmem)]
      cases getXattrEntry xs name with
      | none => rfl
      | some v => rfl

theorem listXattrs_eq (hc : L.NoCollision st.io) (hxs : ProperXattrs xs)
    (hat : L.XattrsAt st.io xs st.maps.xattrData[ino]?) :
    listXattrs ino st = (.ok (listXattrNames xs), st) := by
  rw [listXattrs, Prog.bind_ok (loadXattrsOf_eq hc hxs hat)]
  rfl

theorem setXattr_eq (hc : L.NoCollision st.io) (hxs : ProperXattrs xs)
    (hat : L.XattrsAt st.io xs st.maps.xattrData[ino]?) (name : Str) (value : Bytes) :
    setXattr ino name value st = setXattrs ino (setXattrEntry xs name value) st := by
  rw [setXattr, Prog.bind_ok (loadXattrsOf_eq hc hxs hat)]

theorem removeXattr_of_absent (hc : L.NoCollision st.io) (hxs : ProperXattrs xs)
    (hat : L.XattrsAt st.io xs st.maps.xattrData[ino]?) (hname : getXattrEntry xs name = none) :
    removeXattr ino name st = (.error (.err (.notFound ino)), st) := by
  unfold removeXattr
  rw [Prog.bind_ok (show readMaps (fun m => m.xattrData[ino]?) st =
    (.ok st.maps.xattrData[ino]?, st) from rfl)]
  cases hd : st.maps.xattrData[ino]? with
  | none => rfl
  | some d =>
      rw [hd] at hat
      obtain ⟨rfl, hmem⟩ := hat
      rw [Prog.ofOption_some, Prog.bind_ok (Prog.pure_apply _ _),
        Prog.bind_ok (onIo_loadXattrs_eq hc hxs hmem), Prog.ensure_bind_of_not]
      rw [removeXattrEntry_fst]
      exact fun h => h hname

theorem removeXattr_of_present (hc : L.NoCollision st.io) (hxs : ProperXattrs xs)
    (hat : L.XattrsAt st.io xs st.maps.xattrData[ino]?) (hname : getXattrEntry xs name ≠ none) :
    removeXattr ino name st = setXattrs ino (removeXattrEntry xs name).2 st := by
  unfold removeXattr
  rw [Prog.bind_ok (show readMaps (fun m => m.xattrData[ino]?) st =
    (.ok st.maps.xattrData[ino]?, st) from rfl)]
  cases hd : st.maps.xattrData[ino]? with
  | none =>
      rw [hd] at hat
      obtain rfl : xs = [] := hat
      exact absurd rfl hname
  | some d =>
      rw [hd] at hat
      obtain ⟨rfl, hmem⟩ := hat
      rw [Prog.ofOption_some, Prog.bind_ok (Prog.pure_apply _ _),
        Prog.bind_ok (onIo_loadXattrs_eq hc hxs hmem),
        Prog.ensure_bind_of ((removeXattrEntry_fst xs name).mpr hname)]

/-- Storing a list changes the entry of its inode only. -/
theorem setXattrs_eq (hB : L.Reliable) (ino : UInt64) {a : Attrs}
    (h : L.HoldsXattrs st.io st.maps.xattrData a) (hxs : ProperXattrs xs) :
    ∃ io m, setXattrs ino xs st =
        (.ok (), { st with io := io, maps := { st.maps with xattrData := m } }) ∧
      L.le st.io io ∧ L.HoldsXattrs io m (Function.update a ino (getXattrEntry xs)) := by
  obtain ⟨io, hpush, hle, hstored⟩ := onIo_pushAll_eq (L := L) (ε := MetaError) hB
    (serializeXattrs xs) st
  refine ⟨io, st.maps.xattrData.insert ino (L.digest (serializeXattrs xs)), ?_, hle, ?_⟩
  · rw [setXattrs, internXattrs, Prog.bind_ok hpush]
    rfl
  · intro i
    rw [getElem?_insert_ite]
    by_cases hi : i = ino
    · subst hi
      refine ⟨xs, hxs, ?_, Function.update_self ..⟩
      rw [if_pos rfl]
      exact ⟨rfl, hstored⟩
    · obtain ⟨ys, hys, hat, ha⟩ := h i
      refine ⟨ys, hys, ?_, ?_⟩
      · rw [if_neg hi]
        exact hat.mono hle
      · rw [Function.update_of_ne hi, ha]

end Calls

/-- A store with these maps can be committed and loaded again, if memory allows. -/
structure Reloadable (L : B.Laws) (overflowChecks : Bool) (io : B.Io) (m : StoreMaps) : Prop where
  inodes : ∀ (ino : UInt64) (d : Digest224), m.inodeData[ino]? = some d →
    ∃ b ∈ L.stored io, d = L.digest b
  maxIno_ne : maxIno m.inodeMap.map.toList ≠ u64Max
  root_mem : m.inodeData.contains 1 = true
  totalSize_lt : overflowChecks = true → totalSize io m < 2 ^ 64

theorem Reloadable.mono {io io' : B.Io} {m : StoreMaps} (h : Reloadable L overflowChecks io m)
    (hle : L.le io io') (hc : L.NoCollision io') : Reloadable L overflowChecks io' m where
  inodes ino d hd := by
    obtain ⟨b, hb, rfl⟩ := h.inodes ino d hd
    exact ⟨b, L.stored_mono hle hb, rfl⟩
  maxIno_ne := h.maxIno_ne
  root_mem := h.root_mem
  totalSize_lt hch := by
    rw [totalSize_of_le hle hc h.inodes]
    exact h.totalSize_lt hch

variable (L overflowChecks) in
/-- The root was committed when the attributes were `a`. -/
def SavedAs (io : B.Io) (root : Digest224) (a : Attrs) : Prop :=
  ∃ m : StoreMaps, Committed L overflowChecks io m root ∧ L.HoldsXattrs io m.xattrData a

theorem SavedAs.mono {io io' : B.Io} {root : Digest224} {a : Attrs}
    (h : SavedAs L overflowChecks io root a) (hle : L.le io io') (hc : L.NoCollision io') :
    SavedAs L overflowChecks io' root a := by
  obtain ⟨m, hm, ha⟩ := h
  exact ⟨m, hm.mono hle hc, ha.mono hle⟩

/-- The store and the roots stand for the attributes and those of earlier commits. -/
structure Tracks (L : B.Laws) (overflowChecks : Bool) (st : Store B) (roots : List Digest224)
    (a : AttrHistory) : Prop where
  reloadable : Reloadable L overflowChecks st.io st.maps
  attrs : L.HoldsXattrs st.io st.maps.xattrData a.now
  saved : List.Forall₂ (SavedAs L overflowChecks st.io) roots a.saved

variable {st : Store B} {roots : List Digest224} {a : AttrHistory} {call : XattrCall}

/-- Only the attributes changed, and the backend grew. -/
theorem Tracks.update (h : Tracks L overflowChecks st roots a) {io : B.Io}
    {m : Map UInt64 Digest224} {now : Attrs} (hle : L.le st.io io) (hc : L.NoCollision io)
    (hnow : L.HoldsXattrs io m now) :
    Tracks L overflowChecks { st with io := io, maps := { st.maps with xattrData := m } } roots
      { a with now := now } where
  reloadable :=
    have hr := h.reloadable.mono hle hc
    ⟨hr.inodes, hr.maxIno_ne, hr.root_mem, hr.totalSize_lt⟩
  attrs := hnow
  saved := h.saved.imp fun _ _ hs => hs.mono hle hc

theorem growing_sumSizes (L : B.Laws) (overflowChecks : Bool) (ds : List Digest224) (acc : UInt64) :
    Growing L.growth (sumSizes B overflowChecks acc ds) := by
  induction ds generalizing acc with
  | nil => exact growing_pure acc
  | cons d ds ih =>
      unfold sumSizes loadSize
      infer_instance

theorem growing_loadFromRoot (L : B.Laws) (overflowChecks : Bool) (root : Digest224) :
    Growing L.growth (loadFromRoot B overflowChecks root) := by
  have hsizes := growing_sumSizes L overflowChecks
  have hinodes : ∀ d, Growing L.growth (loadInodeMap B d) := fun d => growing_loadRecord ..
  have hmap : ∀ d, Growing L.growth (loadU64DigestMap B d) := fun d => growing_loadRecord ..
  have hcounts : ∀ d, Growing L.growth (loadDigest224U64Map B d) := fun d => growing_loadRecord ..
  have hrefs : ∀ b, Growing L.growth (loadRefcounts B b) := fun b => by
    unfold loadRefcounts
    infer_instance
  unfold loadFromRoot
  infer_instance

instance growing_reload (root : Digest224) :
    Growing L.growthStore (reload overflowChecks root : StoreM B Unit) := by
  have hmodify : ∀ u : Store B, Growing L.growthStore
      (Prog.modify fun s => { u with io := s.io } : StoreM B Unit) :=
    fun _ => growing_modify fun s => L.le_refl s.io
  have hload := growing_loadFromRoot L overflowChecks root
  unfold reload
  infer_instance

instance growing_xattrCall (call : XattrCall) (roots : List Digest224) :
    Growing L.growthStore (call.run overflowChecks roots : StoreM B XattrReply) := by
  have hload : ∀ root : Option Digest224,
      Growing L.growthStore (root.elim (pure ()) (reload overflowChecks) : StoreM B Unit) := by
    intro root
    cases root with
    | none => exact growing_pure ()
    | some root => exact growing_reload root
  cases call <;> unfold XattrCall.run <;> infer_instance

instance growing_runXattrCalls (calls : List XattrCall) (roots : List Digest224) :
    Growing L.growthStore (runXattrCalls overflowChecks calls roots :
      Prog (Store B) Empty _) := by
  induction calls generalizing roots with
  | nil => exact growing_pure []
  | cons call calls ih =>
      unfold runXattrCalls
      infer_instance

/-- What a call does: it answers by the maps and changes them, or it is a commit that
memory does not allow. -/
def Follows (L : B.Laws) (overflowChecks : Bool) (roots : List Digest224) (a : AttrHistory)
    (call : XattrCall) (r : Except (Fault MetaError) XattrReply) (st : Store B) : Prop :=
  (∃ x : Except MetaError XattrReply, r = x.mapError .err ∧ call.Answers a x ∧
    Tracks L overflowChecks st (roots ++ committedRoot x) (call.next a)) ∨
  r = .error .panic ∧ ¬ st.maps.Encodable

theorem wp_commitCall (hB : L.Reliable) (h : Tracks L overflowChecks st roots a) :
    wp L.growthStore (XattrCall.commit.run overflowChecks roots)
      (Follows L overflowChecks roots a .commit) st := by
  by_cases hm : st.maps.Encodable
  · obtain ⟨io, hcommit, hle, hmaps, hrecord⟩ := commit_eq (ε := MetaError) L hB hm
    refine wp_of_eq (Prog.bind_ok hcommit) fun hg => .inl ⟨.ok (.root _), rfl, ⟨_, rfl⟩, ?_⟩
    have hr := h.reloadable.mono hle hg
    have hattrs := h.attrs.mono hle
    have hsaved := h.saved.imp fun _ _ hs => hs.mono hle hg
    refine ⟨hr, hattrs, List.rel_append hsaved (.cons ?_ .nil)⟩
    exact ⟨st.maps, ⟨rfl, hrecord, hmaps, hr.inodes, hm, hr.maxIno_ne, hr.root_mem,
      hr.totalSize_lt⟩, hattrs⟩
  · obtain ⟨io, hcommit⟩ := commit_panic (ε := MetaError) hm
    exact wp_of_eq (Prog.bind_error hcommit) fun _ => .inr ⟨rfl, hm⟩

theorem wp_loadCall (h : Tracks L overflowChecks st roots a) (hc : L.NoCollision st.io) (k : ℕ) :
    wp L.growthStore ((XattrCall.load k).run overflowChecks roots)
      (Follows L overflowChecks roots a (.load k)) st := by
  have hread : Tracks L overflowChecks st (roots ++ []) a := by rwa [List.append_nil]
  rw [XattrCall.run]
  rcases hroot : roots[k]? with _ | root
  · refine wp_of_eq rfl fun _ => .inl ⟨.ok .done, rfl, rfl, ?_⟩
    have hnone : a.saved[k]? = none := by
      rw [List.getElem?_eq_none_iff, ← h.saved.length_eq, ← List.getElem?_eq_none_iff, hroot]
    rw [XattrCall.next, hnone]
    exact hread
  · obtain ⟨hk, rfl⟩ := List.getElem?_eq_some_iff.mp hroot
    have hk' : k < a.saved.length := h.saved.length_eq ▸ hk
    obtain ⟨m, hm, hattrs⟩ : SavedAs L overflowChecks st.io roots[k] a.saved[k] :=
      h.saved.get hk hk'
    have hload : onIo (loadFromRoot B overflowChecks roots[k]) st =
        (.ok (loadedStore st.io roots[k] m), st) := by
      rw [onIo, Prog.zoom, hm.load hc]
    have hreload : reload overflowChecks roots[k] st =
        (.ok (), loadedStore st.io roots[k] m) := by
      rw [reload, Prog.bind_ok hload]
      rfl
    refine wp_of_eq (Prog.bind_ok hreload) fun _ => .inl ⟨.ok .done, rfl, rfl, ?_⟩
    rw [XattrCall.next, List.getElem?_eq_getElem hk', Option.getD_some]
    exact ⟨⟨hm.inodes, hm.loadable.maxIno_ne, hm.loadable.root_mem, hm.loadable.totalSize_lt⟩,
      hattrs, hread.saved⟩

/-- One call, whatever came before it. -/
theorem wp_xattrCall (hB : L.Reliable) (h : Tracks L overflowChecks st roots a)
    (hshort : call.Short) :
    wp L.growthStore (call.run overflowChecks roots)
      (Follows L overflowChecks roots a call) st := by
  refine wp_of_good fun hc => ?_
  -- The calls that only read leave the store and the attributes as they are.
  have hread : Tracks L overflowChecks st (roots ++ []) a := by rwa [List.append_nil]
  cases call with
  | commit => exact wp_commitCall hB h
  | load k => exact wp_loadCall h hc k
  | get ino name =>
      obtain ⟨xs, hxs, hat, ha⟩ := h.attrs ino
      have hget := getXattr_eq hc hxs hat name
      rw [← ha] at hget
      rw [XattrCall.run]
      cases hv : a.now ino name with
      | none =>
          rw [hv] at hget
          exact wp_of_eq (Prog.bind_error hget) fun _ => .inl
            ⟨.error (.notFound ino), rfl, by rw [XattrCall.Answers, hv]; rfl, hread⟩
      | some v =>
          rw [hv] at hget
          exact wp_of_eq (Prog.bind_ok hget) fun _ => .inl
            ⟨.ok (.value v), rfl, by rw [XattrCall.Answers, hv]; rfl, hread⟩
  | list ino =>
      obtain ⟨xs, hxs, hat, ha⟩ := h.attrs ino
      refine wp_of_eq (Prog.bind_ok (listXattrs_eq hc hxs hat)) fun _ => .inl
        ⟨.ok (.names (listXattrNames xs)), rfl, ⟨_, rfl, hxs.nodup, fun name => ?_⟩, hread⟩
      rw [ha]
      exact mem_listXattrNames
  | set ino name value =>
      obtain ⟨xs, hxs, hat, ha⟩ := h.attrs ino
      obtain ⟨io, m, hset, hle, hnow⟩ := setXattrs_eq hB ino h.attrs (hxs.set hshort)
      rw [← setXattr_eq hc hxs hat] at hset
      refine wp_of_eq (Prog.bind_ok hset) fun hg => .inl ⟨.ok .done, rfl, rfl, ?_⟩
      rw [getXattrEntry_setXattrEntry, ← ha] at hnow
      exact hread.update hle hg hnow
  | remove ino name =>
      obtain ⟨xs, hxs, hat, ha⟩ := h.attrs ino
      by_cases hname : a.now ino name = none
      · have hnone : getXattrEntry xs name = none := by rw [← ha, hname]
        refine wp_of_eq (Prog.bind_error (removeXattr_of_absent hc hxs hat hnone)) fun _ => .inl
          ⟨.error (.notFound ino), rfl, by rw [XattrCall.Answers, if_pos hname], ?_⟩
        have hsame : XattrCall.next (.remove ino name) a = a := by
          rw [XattrCall.next, Attrs.put, ← hname, Function.update_eq_self,
            Function.update_eq_self]
        rw [hsame]
        exact hread
      · have hsome : getXattrEntry xs name ≠ none := by rwa [← ha]
        obtain ⟨io, m, hset, hle, hnow⟩ := setXattrs_eq hB ino h.attrs (hxs.remove name)
        rw [← removeXattr_of_present hc hxs hat hsome] at hset
        refine wp_of_eq (Prog.bind_ok hset) fun hg => .inl
          ⟨.ok .done, rfl, by rw [XattrCall.Answers, if_neg hname], ?_⟩
        rw [getXattrEntry_removeXattrEntry, ← ha] at hnow
        exact hread.update hle hg hnow

/-- A sequence of calls is answered by the maps, up to a commit that memory does not
allow. -/
theorem wp_runXattrCalls (hB : L.Reliable) {calls : List XattrCall}
    (h : Tracks L overflowChecks st roots a) (hshort : ∀ call ∈ calls, call.Short) :
    wp L.growthStore (runXattrCalls overflowChecks calls roots)
      (fun r st' => (∃ rs, r = .ok rs ∧ AnswersAll calls a rs) ∨
        r = .error .panic ∧ ¬ st'.maps.Encodable) st := by
  induction calls generalizing st roots a with
  | nil => exact wp_pure fun _ => .inl ⟨[], rfl, rfl⟩
  | cons call calls ih =>
      rw [runXattrCalls]
      refine wp_bind (wp_attempt ((wp_xattrCall hB h (hshort call List.mem_cons_self)).mono ?_))
      rintro r st₁ - (⟨x, rfl, hx, htracks⟩ | ⟨rfl, hm⟩)
      · have hrest : wp L.growthStore (do
            let rs ← runXattrCalls overflowChecks calls (roots ++ committedRoot x)
            pure (x :: rs)) (fun r st' => (∃ rs, r = .ok rs ∧ AnswersAll (call :: calls) a rs) ∨
              r = .error .panic ∧ ¬ st'.maps.Encodable) st₁ := by
          refine wp_bind ((ih htracks fun y hy => hshort y (List.mem_cons_of_mem _ hy)).mono ?_)
          rintro r st₂ - (⟨rs, rfl, hrs⟩ | ⟨rfl, hm⟩)
          · exact wp_pure fun _ => .inl ⟨x :: rs, rfl, x, rs, rfl, hx, hrs⟩
          · exact .inr ⟨rfl, hm⟩
        cases x with
        | ok reply => exact hrest
        | error e => exact hrest
      · exact .inr ⟨rfl, hm⟩

/-- A new store has no attributes. -/
theorem reloadable_of_new (hB : L.Reliable) {uid gid : UInt32} {io io' : B.Io}
    (h : Store.new B uid gid io = (.ok st, io')) (hc : L.NoCollision st.io) :
    Reloadable L overflowChecks st.io st.maps ∧ st.maps.xattrData = ∅ := by
  have hreach : Reachable L overflowChecks st := .new h
  have hnumbered := hreach.numbered hB
  obtain ⟨io₁, rfl, -, hstored, -⟩ := new_eq hB h
  have hroot : ∀ (ino : UInt64) (d : Digest224),
      (Std.ExtTreeMap.insert ∅ 1 (L.digest (serializeInode (rootInode uid gid))) :
        Map UInt64 Digest224)[ino]? = some d →
          d = L.digest (serializeInode (rootInode uid gid)) := by
    intro ino d hd
    rw [getElem?_insert_ite] at hd
    split_ifs at hd with hino
    · exact (Option.some.inj hd).symm
    · simp at hd
  refine ⟨⟨fun ino d hd => ⟨_, hstored, hroot ino d hd⟩, hnumbered.maxIno_ne, ?_, ?_⟩, rfl⟩
  · simp [StoreMaps.initial]
  · intro _
    have hzero : totalSize io₁ (.initial (L.digest (serializeInode (rootInode uid gid)))
        (L.digest (serializeEntryList (L.newDir 1 1)))) = 0 := by
      refine List.sum_eq_zero fun n hn => ?_
      obtain ⟨e, he, rfl⟩ := List.mem_map.mp hn
      rw [hroot e.1 e.2 (Std.ExtTreeMap.mem_toList_iff_getElem?_eq_some.mp he),
        sizeAt_of_stored hc hstored, deserializeInode_serializeInode]
      rfl
    rw [hzero]
    decide

/-- From a store without attributes on, every sequence of calls is answered by one map for
each inode; only a commit can panic, if memory cannot hold what it encodes. The encoding of
a list is exact in both directions. -/
theorem xattrs_are_maps (hB : B.NoIoErrors) (hst : Reloadable L overflowChecks st.io st.maps)
    (hnone : st.maps.xattrData = ∅) :
    (∀ xs : Xattrs, (∀ x ∈ xs, ShortXattr x) →
      deserializeXattrs (serializeXattrs xs) = .ok xs) ∧
    (∀ (b : Bytes) (xs : Xattrs), deserializeXattrs b = .ok xs → serializeXattrs xs = b) ∧
    ∀ calls : List XattrCall, (∀ call ∈ calls, call.Short) →
      ∀ r st', runXattrCalls overflowChecks calls [] st = (r, st') → L.NoCollision st'.io →
        (∃ rs, r = .ok rs ∧ AnswersAll calls ⟨fun _ _ => none, []⟩ rs) ∨
          r = .error .panic ∧ ¬ st'.maps.Encodable := by
  refine ⟨fun xs h => deserializeXattrs_serializeXattrs h,
    fun b xs h => serializeXattrs_of_deserializeXattrs h, ?_⟩
  intro calls hshort r st' hrun hc
  have htracks : Tracks L overflowChecks st [] ⟨fun _ _ => none, []⟩ := by
    refine ⟨hst, fun ino => ⟨[], .nil, ?_, rfl⟩, .nil⟩
    rw [hnone, Std.ExtTreeMap.getElem?_empty]
    rfl
  have hwp := wp_runXattrCalls (hB.reliable L) htracks hshort
  unfold wp at hwp
  rw [hrun] at hwp
  exact hwp hc

end

/-- The calls set an attribute, commit, remove the attribute and load the committed root. -/
def attrCalls : List XattrCall :=
  [.set 1 .dot [7], .commit, .remove 1 .dot, .get 1 .dot, .load 0, .get 1 .dot, .get 2 .dot]

theorem xattrs_are_maps_fresh :
    ∃ rs, (runXattrCalls true attrCalls [] freshStore).1 = .ok rs ∧
      AnswersAll attrCalls ⟨fun _ _ => none, []⟩ rs := by
  have hnew : Reloadable memoryLaws true freshStore.io freshStore.maps ∧
      freshStore.maps.xattrData = ∅ :=
    reloadable_of_new (memoryBlockset_noIoErrors.reliable memoryLaws)
      (Prog.eq_ok_of_isSome (by decide +kernel)) (memoryLaws_noCollision (by decide +kernel))
  have hshort : ∀ call ∈ attrCalls, call.Short := by
    simp [attrCalls, XattrCall.Short, ShortXattr, Str.dot]
  have hreturns : (runXattrCalls true attrCalls [] freshStore).1.toOption.isSome = true := by
    decide +kernel
  obtain h | ⟨h, -⟩ := (xattrs_are_maps memoryBlockset_noIoErrors hnew.1 hnew.2).2.2 attrCalls
    hshort _ _ Prod.mk.eta.symm (memoryLaws_noCollision (by decide +kernel))
  · exact h
  · rw [h] at hreturns
    cases hreturns

end SliceFs
