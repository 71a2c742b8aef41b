import SliceFs.TreeSteps

/-!
# A directory as a map

A directory is a finite map from names to inode numbers. The code keeps it as a list of
entries under the digests of their names and rewrites the list with every call; the list
is a function of the map, so directories with the same entries have the same digest.
-/
namespace SliceFs
open TreeMaps ProgramLogic

/-- The calls on one directory. -/
inductive DirOp where
  | add (name : Str) (ino : UInt64)
  | remove (name : Str)
  | lookup (name : Str)
deriving DecidableEq

/-- What the directory is: inode numbers under names. -/
abbrev DirMap := Map Bytes UInt64

namespace DirOp

def name : DirOp → Str
  | .add name _ => name
  | .remove name => name
  | .lookup name => name

/-- What a call returns, and the map after it. -/
def apply (m : DirMap) : DirOp → Except MetaError (Option UInt64) × DirMap
  | .add name ino =>
    if name.IsDots then (.error (.invalidName name), m)
    else if m[name.bytes]? ≠ none then (.error (.alreadyExists ino), m)
    else (.ok none, m.insert name.bytes ino)
  | .remove name =>
    if name.IsDots then (.error (.invalidName name), m)
    else if m[name.bytes]? = none then (.error (.notFound 0), m)
    else (.ok none, m.erase name.bytes)
  | .lookup name => ((m[name.bytes]?).elim (.error (.notFound 0)) fun i => .ok (some i), m)

def applyAll : List DirOp → DirMap → List (Except MetaError (Option UInt64)) × DirMap
  | [], m => ([], m)
  | op :: ops, m =>
    ((op.apply m).1 :: (applyAll ops (op.apply m).2).1, (applyAll ops (op.apply m).2).2)

section
variable (B : Blockset)

/-- The call on the list under a digest, and the digest of the list after it. -/
def run (d : Digest224) : DirOp → Prog B.Io MetaError (Option UInt64 × Digest224)
  | .add name ino => do
    let d' ← addDirEntry B d name ino
    pure (none, d')
  | .remove name => do
    let d' ← removeDirEntry B d name
    pure (none, d')
  | .lookup name => do
    let ino ← lookupDirEntry B d name
    pure (some ino, d)

/-- A call that fails leaves the directory where it was. -/
def next (d : Digest224) (r : Except MetaError (Option UInt64 × Digest224)) : Digest224 :=
  (r.map Prod.snd).toOption.getD d

def runAll : List DirOp → Digest224 →
    Prog B.Io MetaError (List (Except MetaError (Option UInt64)) × Digest224)
  | [], d => pure ([], d)
  | op :: ops, d => do
    let r ← Prog.attempt (op.run B d)
    let p ← runAll ops (next d r)
    pure (r.map Prod.fst :: p.1, p.2)

/-- A new directory and calls on it. -/
def session (selfIno parentIno : UInt64) (ops : List DirOp) :
    Prog B.Io MetaError (List (Except MetaError (Option UInt64)) × Digest224) := do
  let d ← B.withFsa (createDirEntries B selfIno parentIno)
  runAll B ops d

end

end DirOp

/-- A directory with `.` and `..`. -/
def newDirMap (selfIno parentIno : UInt64) : DirMap :=
  ((∅ : DirMap).insert Str.dot.bytes selfIno).insert Str.dotDot.bytes parentIno

section
variable {B : Blockset} (L : B.Laws)

instance growing_dirOp_run (d : Digest224) (op : DirOp) : Growing L.growth (op.run B d) := by
  cases op <;> unfold DirOp.run <;> infer_instance

instance growing_dirOp_runAll (ops : List DirOp) (d : Digest224) :
    Growing L.growth (DirOp.runAll B ops d) := by
  induction ops generalizing d with
  | nil => exact growing_pure _
  | cons op ops ih =>
      unfold DirOp.runAll
      have hrest : ∀ d, Growing L.growth (DirOp.runAll B ops d) := ih
      infer_instance

/-- An entry list that can be read back and has the names and numbers of the map. -/
structure Blockset.Laws.Represents (io : B.Io) (es : Entries) (m : DirMap) : Prop where
  listed : L.Listed io es
  sound : ∀ (k : Digest224) (e : EntryRecord), es[k]? = some e → m[e.name.bytes]? = some e.ino
  complete : ∀ (b : Bytes) (i : UInt64), m[b]? = some i →
    ∃ e, es[L.digest b]? = some e ∧ e.name.bytes = b
  size : es.size = m.size

namespace Blockset.Laws.Represents
variable {L} {io io' : B.Io} {es : Entries} {m : DirMap} {name : Str}

theorem mono (h : L.Represents io es m) (hle : L.le io io') : L.Represents io' es m :=
  ⟨h.listed.mono hle, h.sound, h.complete, h.size⟩

theorem eq_none (h : L.Represents io es m) (he : es[L.key name]? = none) :
    m[name.bytes]? = none := by
  cases hm : m[name.bytes]? with
  | none => rfl
  | some i =>
      obtain ⟨e, hsome, -⟩ := h.complete _ i hm
      exact absurd (he.symm.trans hsome) nofun

/-- The entry under the key of a stored name is the one that the map has for it. -/
theorem eq_some (h : L.Represents io es m) (hc : L.NoCollision io)
    (hname : name.bytes ∈ L.stored io) {e : EntryRecord} (he : es[L.key name]? = some e) :
    m[name.bytes]? = some e.ino := by
  rw [← h.listed.name_eq hc hname he]
  exact h.sound _ e he

theorem getElem?_of_getElem? {es' : Entries} (h : L.Represents io es m)
    (h' : L.Represents io' es' m) {k : Digest224} {e : EntryRecord} (he : es[k]? = some e) :
    es'[k]? = some e := by
  obtain ⟨hkey, hk, -, -⟩ := h.listed.entry k e he
  obtain ⟨e', he', hname⟩ := h'.complete _ _ (h.sound k e he)
  obtain ⟨hkey', -, -, -⟩ := h'.listed.entry _ e' he'
  have hino : some e'.ino = some e.ino := by
    rw [← h'.sound _ e' he', hname, h.sound k e he]
  have hdigest : L.digest e.name.bytes = k := hk.symm
  rw [hdigest] at he' hkey'
  rw [he']
  cases e with
  | mk key ino name =>
      cases e' with
      | mk key' ino' name' =>
          obtain rfl : name' = name := Str.bytes_injective hname
          obtain rfl : ino' = ino := Option.some.inj hino
          obtain rfl : key' = key := hkey'.trans hkey.symm
          rfl

/-- The map determines the list. -/
theorem entries_eq {es' : Entries} (h : L.Represents io es m) (h' : L.Represents io' es' m) :
    es = es' := by
  refine Std.ExtTreeMap.ext_getElem? fun k => ?_
  refine Option.ext fun e => ⟨fun he => ?_, fun he => ?_⟩
  · exact h.getElem?_of_getElem? h' he
  · exact h'.getElem?_of_getElem? h he

theorem insert (h : L.Represents io es m) (he : es[L.key name]? = none) {ino : UInt64}
    (hlisted : L.Listed io' (es.insert (L.key name) ⟨L.key name, ino, name⟩)) :
    L.Represents io' (es.insert (L.key name) ⟨L.key name, ino, name⟩)
      (m.insert name.bytes ino) where
  listed := hlisted
  sound k e hk := by
    rw [getElem?_insert_ite] at hk ⊢
    split_ifs at hk with hkey
    · obtain rfl := Option.some.inj hk
      rw [if_pos rfl]
    · have hne : e.name.bytes ≠ name.bytes := by
        intro heq
        refine hkey ((h.listed.entry k e hk).2.1.trans ?_)
        rw [Blockset.Laws.key, heq]
        rfl
      rw [if_neg hne]
      exact h.sound k e hk
  complete b i hb := by
    rw [getElem?_insert_ite] at hb ⊢
    split_ifs at hb with hname
    · subst hname
      exact ⟨_, if_pos rfl, rfl⟩
    · obtain ⟨e, hsome, hbytes⟩ := h.complete b i hb
      have hkey : L.digest b ≠ L.key name := by
        intro heq
        rw [heq, he] at hsome
        cases hsome
      exact ⟨e, (if_neg hkey).trans hsome, hbytes⟩
  size := by
    rw [size_insert_of_none he, size_insert_of_none (h.eq_none he), h.size]

theorem erase (h : L.Represents io es m) (hc : L.NoCollision io) (hname : name.bytes ∈ L.stored io)
    {e₀ : EntryRecord} (he : es[L.key name]? = some e₀)
    (hlisted : L.Listed io' (es.erase (L.key name))) :
    L.Represents io' (es.erase (L.key name)) (m.erase name.bytes) where
  listed := hlisted
  sound k e hk := by
    rw [getElem?_erase_ite] at hk ⊢
    split_ifs at hk with hkey
    have hne : e.name.bytes ≠ name.bytes := by
      intro heq
      refine hkey ((h.listed.entry k e hk).2.1.trans ?_)
      rw [Blockset.Laws.key, heq]
      rfl
    rw [if_neg hne]
    exact h.sound k e hk
  complete b i hb := by
    rw [getElem?_erase_ite] at hb ⊢
    split_ifs at hb with hbytes
    obtain ⟨e, hsome, hb'⟩ := h.complete b i hb
    have hkey : L.digest b ≠ L.key name := by
      intro heq
      rw [heq] at hsome
      refine hbytes ?_
      rw [← hb', h.listed.name_eq hc hname hsome]
    exact ⟨e, (if_neg hkey).trans hsome, hb'⟩
  size := by
    rw [size_erase_of_some he, size_erase_of_some (h.eq_some hc hname he), h.size]

/-- The list has the bindings of the map, in another order. -/
theorem perm (h : L.Represents io es m) :
    (es.toList.map fun e => (e.2.name.bytes, e.2.ino)).Perm m.toList := by
  have hmem : ∀ e ∈ es.toList, es[e.1]? = some e.2 :=
    fun e he => Std.ExtTreeMap.mem_toList_iff_getElem?_eq_some.mp he
  refine (List.perm_ext_iff_of_nodup ?_ (nodup_toList m)).mpr fun p => ?_
  · refine List.Nodup.map_on (fun a ha b hb heq => ?_) (nodup_toList es)
    have hbytes : a.2.name.bytes = b.2.name.bytes := congrArg Prod.fst heq
    have hkey : a.1 = b.1 := by
      rw [(h.listed.entry _ _ (hmem a ha)).2.1, (h.listed.entry _ _ (hmem b hb)).2.1,
        Blockset.Laws.key, hbytes]
      rfl
    refine Prod.ext hkey (Option.some.inj ?_)
    rw [← hmem a ha, ← hmem b hb, hkey]
  · rw [List.mem_map, Std.ExtTreeMap.mem_toList_iff_getElem?_eq_some]
    constructor
    · rintro ⟨e, he, rfl⟩
      exact h.sound _ _ (hmem e he)
    · intro hp
      obtain ⟨e, he, hbytes⟩ := h.complete p.1 p.2 hp
      refine ⟨(L.digest p.1, e), Std.ExtTreeMap.mem_toList_iff_getElem?_eq_some.mpr he, ?_⟩
      have hino := h.sound _ e he
      rw [hbytes, hp] at hino
      exact Prod.ext hbytes (Option.some.inj hino).symm

end Blockset.Laws.Represents

variable {L} {io : B.Io} {es : Entries} {m : DirMap}

/-- A new directory has the two entries. -/
theorem represents_newDir (hc : L.NoCollision io) {i p : UInt64}
    (hstored : serializeEntryList (L.newDir i p) ∈ L.stored io)
    (hdot : Str.dot.bytes ∈ L.stored io) (hdotDot : Str.dotDot.bytes ∈ L.stored io) :
    L.Represents io (L.newDir i p) (newDirMap i p) := by
  have hbytes : Str.dotDot.bytes ≠ Str.dot.bytes := by decide
  have hkey : L.digest Str.dotDot.bytes ≠ L.digest Str.dot.bytes :=
    fun heq => hbytes (hc hdotDot hdot heq)
  refine ⟨listed_newDir hstored hdot hdotDot, fun k e hk => ?_, fun b j hb => ?_, ?_⟩
  · rw [Blockset.Laws.newDir, getElem?_insert_ite, getElem?_insert_ite] at hk
    rw [newDirMap, getElem?_insert_ite, getElem?_insert_ite]
    split_ifs at hk with h₁ h₂
    · obtain rfl := Option.some.inj hk
      exact if_pos rfl
    · obtain rfl := Option.some.inj hk
      rw [if_neg hbytes.symm, if_pos rfl]
    · simp at hk
  · rw [newDirMap, getElem?_insert_ite, getElem?_insert_ite] at hb
    rw [Blockset.Laws.newDir, getElem?_insert_ite, getElem?_insert_ite]
    split_ifs at hb with h₁ h₂
    · subst h₁
      exact ⟨_, if_pos rfl, rfl⟩
    · subst h₂
      exact ⟨_, (if_neg hkey.symm).trans (if_pos rfl), rfl⟩
    · simp at hb
  · rw [Blockset.Laws.newDir, newDirMap, size_insert_of_none, size_insert_of_none,
      size_insert_of_none, size_insert_of_none]
    · rfl
    · simp
    · rw [getElem?_insert_ite, if_neg hbytes]
      simp
    · simp
    · rw [getElem?_insert_ite, if_neg hkey]
      simp

/-- One call: its result is that of the map, and so is the list that it leaves. -/
theorem dirOp_step (hB : L.Reliable) (h : L.Represents io es m) (op : DirOp)
    (hlen : op.name.bytes.length < 2 ^ 32) (hsize : (op.apply m).2.size < 2 ^ 32)
    (hc : L.NoCollision (op.run B (L.digest (serializeEntryList es)) io).2) :
    ∃ r es', Prog.attempt (op.run B (L.digest (serializeEntryList es))) io =
        ((.ok r, (op.run B (L.digest (serializeEntryList es)) io).2) :
          Except (Fault MetaError) _ × _) ∧
      r.map Prod.fst = (op.apply m).1 ∧
      DirOp.next (L.digest (serializeEntryList es)) r = L.digest (serializeEntryList es') ∧
      L.Represents (op.run B (L.digest (serializeEntryList es)) io).2 es' (op.apply m).2 := by
  have hc₀ : L.NoCollision io := hc.of_le (Growing.le_run (g := L.growth) io)
  cases op with
  | add name ino =>
      by_cases hdots : name.IsDots
      · have hrun : (DirOp.add name ino).run B (L.digest (serializeEntryList es)) io =
            (.error (.err (.invalidName name)), io) := by
          rw [DirOp.run, Prog.bind_error (addDirEntry_dots hdots _ _ _)]
        rw [Prog.attempt, hrun, DirOp.apply, if_pos hdots]
        exact ⟨_, es, rfl, rfl, rfl, h⟩
      · have hroom : es[L.key name]? = none → es.size + 1 < 2 ^ 32 := by
          intro he
          have hm := h.eq_none he
          rw [DirOp.apply, if_neg hdots, if_neg (not_not.mpr hm), size_insert_of_none hm] at hsize
          rw [h.size]
          exact hsize
        obtain ⟨io', hle, ⟨he, hname, hadd⟩ | ⟨he, hadd, hlisted⟩⟩ :=
          addDirEntry_eq hB h.listed hc₀ hdots hlen hroom ino
        · have hrun : (DirOp.add name ino).run B (L.digest (serializeEntryList es)) io =
              (.error (.err (.alreadyExists ino)), io') := by
            rw [DirOp.run, Prog.bind_error hadd]
          rw [hrun] at hc
          obtain ⟨e, hsome⟩ := Option.ne_none_iff_exists'.mp he
          have hm := (h.mono hle).eq_some hc hname hsome
          rw [Prog.attempt, hrun, DirOp.apply, if_neg hdots, if_pos (by rw [hm]; simp)]
          exact ⟨_, es, rfl, rfl, rfl, h.mono hle⟩
        · have hrun : (DirOp.add name ino).run B (L.digest (serializeEntryList es)) io =
              (.ok (none, L.digest (serializeEntryList (es.insert (L.key name)
                ⟨L.key name, ino, name⟩))), io') := by
            rw [DirOp.run, Prog.bind_ok hadd]
            rfl
          rw [Prog.attempt, hrun, DirOp.apply, if_neg hdots, if_neg (not_not.mpr (h.eq_none he))]
          exact ⟨_, _, rfl, rfl, rfl, h.insert he hlisted⟩
  | remove name =>
      by_cases hdots : name.IsDots
      · have hrun : (DirOp.remove name).run B (L.digest (serializeEntryList es)) io =
            (.error (.err (.invalidName name)), io) := by
          rw [DirOp.run, Prog.bind_error (removeDirEntry_dots hdots _ _)]
        rw [Prog.attempt, hrun, DirOp.apply, if_pos hdots]
        exact ⟨_, es, rfl, rfl, rfl, h⟩
      · obtain ⟨io', hle, hname, ⟨he, hremove⟩ | ⟨he, hremove, hlisted⟩⟩ :=
          removeDirEntry_eq hB h.listed hc₀ hdots
        · have hrun : (DirOp.remove name).run B (L.digest (serializeEntryList es)) io =
              (.error (.err (.notFound 0)), io') := by
            rw [DirOp.run, Prog.bind_error hremove]
          rw [Prog.attempt, hrun, DirOp.apply, if_neg hdots, if_pos (h.eq_none he)]
          exact ⟨_, es, rfl, rfl, rfl, h.mono hle⟩
        · have hrun : (DirOp.remove name).run B (L.digest (serializeEntryList es)) io =
              (.ok (none, L.digest (serializeEntryList (es.erase (L.key name)))), io') := by
            rw [DirOp.run, Prog.bind_ok hremove]
            rfl
          rw [hrun] at hc
          obtain ⟨e, hsome⟩ := Option.ne_none_iff_exists'.mp he
          have hm := (h.mono hle).eq_some hc hname hsome
          rw [Prog.attempt, hrun, DirOp.apply, if_neg hdots, if_neg (by rw [hm]; simp)]
          exact ⟨_, _, rfl, rfl, rfl, (h.mono hle).erase hc hname hsome hlisted⟩
  | lookup name =>
      obtain ⟨io', hle, hname, hlookup⟩ := lookupDirEntry_eq hB h.listed hc₀ name
      cases he : es[L.key name]? with
      | none =>
          rw [he] at hlookup
          have hrun : (DirOp.lookup name).run B (L.digest (serializeEntryList es)) io =
              (.error (.err (.notFound 0)), io') := by
            rw [DirOp.run, Prog.bind_error hlookup]
          rw [Prog.attempt, hrun, DirOp.apply, h.eq_none he]
          exact ⟨_, es, rfl, rfl, rfl, h.mono hle⟩
      | some e =>
          rw [he] at hlookup
          have hrun : (DirOp.lookup name).run B (L.digest (serializeEntryList es)) io =
              (.ok (some e.ino, L.digest (serializeEntryList es)), io') := by
            rw [DirOp.run, Prog.bind_ok hlookup]
            rfl
          rw [hrun] at hc
          rw [Prog.attempt, hrun, DirOp.apply, (h.mono hle).eq_some hc hname he]
          exact ⟨_, es, rfl, rfl, rfl, h.mono hle⟩

/-- A sequence of calls. -/
theorem dirOp_runAll (hB : L.Reliable) (h : L.Represents io es m) {ops : List DirOp}
    (hlen : ∀ op ∈ ops, op.name.bytes.length < 2 ^ 32)
    (hsize : ∀ p, p <+: ops → (DirOp.applyAll p m).2.size < 2 ^ 32)
    (hc : L.NoCollision (DirOp.runAll B ops (L.digest (serializeEntryList es)) io).2) :
    ∃ es' io', DirOp.runAll B ops (L.digest (serializeEntryList es)) io =
        (.ok ((DirOp.applyAll ops m).1, L.digest (serializeEntryList es')), io') ∧
      L.Represents io' es' (DirOp.applyAll ops m).2 := by
  induction ops generalizing io es m with
  | nil => exact ⟨es, io, rfl, h⟩
  | cons op ops ih =>
      have hone : (op.apply m).2.size < 2 ^ 32 := hsize [op] ⟨ops, rfl⟩
      have hle : L.le (op.run B (L.digest (serializeEntryList es)) io).2
          (DirOp.runAll B (op :: ops) (L.digest (serializeEntryList es)) io).2 := by
        rw [DirOp.runAll]
        have hsnd : (Prog.attempt (op.run B (L.digest (serializeEntryList es))) io :
            Except (Fault MetaError) _ × _).2 = _ := Prog.attempt_snd _ _
        rw [← hsnd]
        exact Growing.le_bind (g := L.growth) _ _ io
      obtain ⟨r, es₁, hr, hresult, hnext, h₁⟩ :=
        dirOp_step hB h op (hlen op List.mem_cons_self) hone (hc.of_le hle)
      rw [DirOp.runAll, Prog.bind_ok hr, hnext] at hc ⊢
      obtain ⟨es₂, io₂, hrest, h₂⟩ := ih h₁ (fun op' hop' => hlen op' (List.mem_cons_of_mem _ hop'))
        (fun p hp => hsize (op :: p) ((List.prefix_cons_inj op).mpr hp))
        (hc.of_le (Growing.le_bind (g := L.growth) _ _ _))
      refine ⟨es₂, io₂, ?_, h₂⟩
      rw [Prog.bind_ok hrest, hresult]
      rfl

/-- The dots stay what they are. -/
theorem applyAll_dots (ops : List DirOp) {m : DirMap} {name : Str} (hdots : name.IsDots) :
    (DirOp.applyAll ops m).2[name.bytes]? = m[name.bytes]? := by
  induction ops generalizing m with
  | nil => rfl
  | cons op ops ih =>
      rw [DirOp.applyAll, ih]
      have hother : ∀ name' : Str, ¬ name'.IsDots → name.bytes ≠ name'.bytes :=
        fun name' hno heq => hno (Str.bytes_injective heq ▸ hdots)
      cases op with
      | add name' ino =>
          rw [DirOp.apply]
          split_ifs with h₁ h₂
          · rfl
          · rfl
          · rw [getElem?_insert_ite, if_neg (hother name' h₁)]
      | remove name' =>
          rw [DirOp.apply]
          split_ifs with h₁ h₂
          · rfl
          · rfl
          · rw [getElem?_erase_ite, if_neg (hother name' h₁)]
      | lookup name' => rfl

theorem listDirEntries_eq (h : L.Listed io es) (hc : L.NoCollision io) :
    listDirEntries B (L.digest (serializeEntryList es)) io =
      (.ok (es.toList.map fun e => ⟨e.2.name, e.2.ino⟩), io) := by
  rw [listDirEntries, Prog.bind_ok (loadEntryList_eq h hc)]
  rfl

/-- The names and counts fit the 32 bits that the format has for them. -/
structure DirOp.Fits (selfIno parentIno : UInt64) (ops : List DirOp) : Prop where
  names : ∀ op ∈ ops, op.name.bytes.length < 2 ^ 32
  counts : ∀ p, p <+: ops → (DirOp.applyAll p (newDirMap selfIno parentIno)).2.size < 2 ^ 32

theorem dirOp_session (hB : L.Reliable) {selfIno parentIno : UInt64} {ops : List DirOp}
    (hops : DirOp.Fits selfIno parentIno ops)
    (hc : L.NoCollision (DirOp.session B selfIno parentIno ops io).2) :
    ∃ es io', DirOp.session B selfIno parentIno ops io =
        (.ok ((DirOp.applyAll ops (newDirMap selfIno parentIno)).1,
          L.digest (serializeEntryList es)), io') ∧
      L.Represents io' es (DirOp.applyAll ops (newDirMap selfIno parentIno)).2 := by
  obtain ⟨f, hcreate, -, hstored, hdot, hdotDot⟩ :=
    createDirEntries_eq (L := L) (ε := MetaError) hB selfIno parentIno (B.new io)
  have hnew : (B.withFsa (createDirEntries B selfIno parentIno) : Prog B.Io MetaError _) io =
      (.ok (L.digest (serializeEntryList (L.newDir selfIno parentIno))), B.drop f) := by
    rw [Blockset.withFsa, Prog.zoom, hcreate]
  rw [DirOp.session, Prog.bind_ok hnew] at hc ⊢
  have hc₀ := hc.of_le (Growing.le_run (g := L.growth) (B.drop f))
  exact dirOp_runAll hB (represents_newDir hc₀ hstored hdot hdotDot) hops.names hops.counts hc

end

/-- The calls on a new directory return what they return on the map that has `.` and `..`,
which stay in it. The directory lists the map, and its digest is a function of the map. -/
theorem directory_refines_map {B : Blockset} (L : B.Laws) (hB : B.NoIoErrors)
    {selfIno parentIno : UInt64} {ops : List DirOp} (hops : DirOp.Fits selfIno parentIno ops)
    {io : B.Io} (hc : L.NoCollision (DirOp.session B selfIno parentIno ops io).2) :
    ∃ d io' entries, DirOp.session B selfIno parentIno ops io =
        (.ok ((DirOp.applyAll ops (newDirMap selfIno parentIno)).1, d), io') ∧
      (DirOp.applyAll ops (newDirMap selfIno parentIno)).2[Str.dot.bytes]? = some selfIno ∧
      (DirOp.applyAll ops (newDirMap selfIno parentIno)).2[Str.dotDot.bytes]? = some parentIno ∧
      listDirEntries B d io' = (.ok entries, io') ∧
      (entries.map fun e => (e.name.bytes, e.ino)).Perm
        (DirOp.applyAll ops (newDirMap selfIno parentIno)).2.toList ∧
      ∀ ops₂ io₂, DirOp.Fits selfIno parentIno ops₂ →
        L.NoCollision (DirOp.session B selfIno parentIno ops₂ io₂).2 →
        (DirOp.applyAll ops₂ (newDirMap selfIno parentIno)).2 =
          (DirOp.applyAll ops (newDirMap selfIno parentIno)).2 →
        ∃ rs io₂', DirOp.session B selfIno parentIno ops₂ io₂ = (.ok (rs, d), io₂') := by
  have hB := hB.reliable L
  obtain ⟨es, io', hrun, h⟩ := dirOp_session hB hops hc
  rw [hrun] at hc
  refine ⟨_, io', _, hrun, ?_, ?_, listDirEntries_eq h.listed hc, ?_, fun ops₂ io₂ hops₂ hc₂ heq =>
    ?_⟩
  · rw [applyAll_dots ops (.inl rfl)]
    rw [newDirMap, getElem?_insert_ite, if_neg (by decide), Std.ExtTreeMap.getElem?_insert_self]
  · rw [applyAll_dots ops (.inr rfl)]
    exact Std.ExtTreeMap.getElem?_insert_self
  · rw [List.map_map]
    exact h.perm
  · obtain ⟨es₂, io₂', hrun₂, h₂⟩ := dirOp_session hB hops₂ hc₂
    rw [heq] at h₂
    rw [h₂.entries_eq h] at hrun₂
    exact ⟨_, io₂', hrun₂⟩

/-- A name is added, `.` cannot be removed, and the name is found. -/
def threeOps : List DirOp :=
  [.add (.letters 1 (by decide)) 7, .remove .dot, .lookup (.letters 1 (by decide))]

theorem directory_refines_map_threeOps :
    ∃ d io', DirOp.session memoryBlockset 2 1 threeOps MemoryIo.empty =
      (.ok ([.ok none, .error (.invalidName .dot), .ok (some 7)], d), io') := by
  have hops : DirOp.Fits 2 1 threeOps := by
    refine ⟨by decide +kernel, fun p hp => ?_⟩
    have hall : ∀ p ∈ threeOps.inits, (DirOp.applyAll p (newDirMap 2 1)).2.size < 2 ^ 32 := by
      decide +kernel
    exact hall p ((List.mem_inits _ _).mpr hp)
  have hc : memoryLaws.NoCollision (DirOp.session memoryBlockset 2 1 threeOps MemoryIo.empty).2 :=
    memoryLaws_noCollision (by decide +kernel)
  obtain ⟨d, io', entries, hrun, -⟩ :=
    directory_refines_map memoryLaws memoryBlockset_noIoErrors hops hc
  have hresults : (DirOp.applyAll threeOps (newDirMap 2 1)).1 =
      [.ok none, .error (.invalidName .dot), .ok (some 7)] := by decide +kernel
  rw [hresults] at hrun
  exact ⟨d, io', hrun⟩

end SliceFs
