import SliceFs.Codec

/-!
# Extended attributes

The attributes of an inode are one blob: name and value pairs, each part preceded
by its length in 32 bits.
-/
namespace SliceFs
open LittleEndian ProgramLogic

abbrev Xattrs := List (Str × Bytes)

def serializeXattrs (xattrs : Xattrs) : Bytes :=
  xattrs.flatMap fun a =>
    u32Bytes (UInt32.ofNat a.1.bytes.length) ++ a.1.bytes ++
      u32Bytes (UInt32.ofNat a.2.length) ++ a.2

/-- One attribute at the front of the bytes, and the bytes after it. -/
def parseXattr (b : Bytes) : Except MetaError ((Str × Bytes) × Bytes) :=
  if b.length < 4 then .error (.corrupted "xattr: truncated at name_len")
  else
    let nameLen := (u32OfBytes (b.take 4)).toNat
    let b := b.drop 4
    if b.length < nameLen then .error (.corrupted "xattr: truncated at name bytes")
    else
      match Str.fromUtf8 (b.take nameLen) with
      | none => .error (.corrupted "xattr name not utf-8")
      | some name =>
        let b := b.drop nameLen
        if b.length < 4 then .error (.corrupted "xattr: truncated at value_len")
        else
          let valueLen := (u32OfBytes (b.take 4)).toNat
          let b := b.drop 4
          if b.length < valueLen then .error (.corrupted "xattr: truncated at value bytes")
          else .ok ((name, b.take valueLen), b.drop valueLen)

/-- The loop runs while bytes are left; each turn takes at least eight of them. -/
def parseXattrs : ℕ → Bytes → Except MetaError Xattrs
  | 0, _ => .ok []
  | n + 1, b =>
    if b = [] then .ok []
    else
      match parseXattr b with
      | .error e => .error e
      | .ok (a, rest) =>
        match parseXattrs n rest with
        | .error e => .error e
        | .ok as => .ok (a :: as)

def deserializeXattrs (bytes : Bytes) : Except MetaError Xattrs :=
  parseXattrs bytes.length bytes

def setXattrEntry (xattrs : Xattrs) (name : Str) (value : Bytes) : Xattrs :=
  match xattrs with
  | [] => [(name, value)]
  | a :: as => if a.1 = name then (a.1, value) :: as else a :: setXattrEntry as name value

def getXattrEntry (xattrs : Xattrs) (name : Str) : Option Bytes :=
  (xattrs.find? fun a => a.1 = name).map Prod.snd

def listXattrNames (xattrs : Xattrs) : List Str := xattrs.map Prod.fst

/-- The list without the entries of that name, and whether there were any. -/
def removeXattrEntry (xattrs : Xattrs) (name : Str) : Bool × Xattrs :=
  let kept := xattrs.filter fun a => a.1 ≠ name
  (decide (kept.length < xattrs.length), kept)

section Encoding

/-- One attribute as it is stored. -/
def xattrBytes (a : Str × Bytes) : Bytes :=
  u32Bytes (UInt32.ofNat a.1.bytes.length) ++ a.1.bytes ++
    u32Bytes (UInt32.ofNat a.2.length) ++ a.2

/-- The lengths fit the fields they are written to. -/
def ShortXattr (a : Str × Bytes) : Prop := a.1.bytes.length < 2 ^ 32 ∧ a.2.length < 2 ^ 32

theorem serializeXattrs_cons (a : Str × Bytes) (xs : Xattrs) :
    serializeXattrs (a :: xs) = xattrBytes a ++ serializeXattrs xs := rfl

theorem xattrBytes_ne_nil (a : Str × Bytes) (rest : Bytes) : xattrBytes a ++ rest ≠ [] := by
  intro h
  have hlen := congrArg List.length h
  simp [xattrBytes] at hlen

theorem length_xattrBytes_pos (a : Str × Bytes) : 0 < (xattrBytes a).length := by
  simp [xattrBytes]

theorem parseXattr_xattrBytes {a : Str × Bytes} (h : ShortXattr a) (rest : Bytes) :
    parseXattr (xattrBytes a ++ rest) = .ok (a, rest) := by
  have hname : (u32OfBytes (u32Bytes (UInt32.ofNat a.1.bytes.length))).toNat =
      a.1.bytes.length := by
    rw [u32OfBytes_u32Bytes, UInt32.toNat_ofNat_of_lt' h.1]
  have hvalue : (u32OfBytes (u32Bytes (UInt32.ofNat a.2.length))).toNat = a.2.length := by
    rw [u32OfBytes_u32Bytes, UInt32.toNat_ofNat_of_lt' h.2]
  simp only [parseXattr, xattrBytes, List.append_assoc]
  rw [if_neg (by simp), List.take_left' (length_u32Bytes _), List.drop_left' (length_u32Bytes _),
    hname, if_neg (by simp), List.take_left, Str.fromUtf8_bytes, List.drop_left]
  simp only
  rw [if_neg (by simp), List.take_left' (length_u32Bytes _), List.drop_left' (length_u32Bytes _),
    hvalue, if_neg (by simp), List.take_left, List.drop_left]

/-- A field and its length, taken from the front of the bytes, are those bytes. -/
theorem u32Bytes_take_append {b : Bytes} (hb : 4 ≤ b.length) {field : Bytes}
    (hfield : field = (b.drop 4).take (u32OfBytes (b.take 4)).toNat)
    (hlen : (u32OfBytes (b.take 4)).toNat ≤ (b.drop 4).length) :
    u32Bytes (UInt32.ofNat field.length) ++ field ++
        (b.drop 4).drop (u32OfBytes (b.take 4)).toNat = b ∧ field.length < 2 ^ 32 := by
  have hfour : (b.take 4).length = 4 := by
    rw [List.length_take]
    omega
  have hsize : field.length = (u32OfBytes (b.take 4)).toNat := by
    rw [hfield, List.length_take]
    omega
  constructor
  · rw [hsize, UInt32.ofNat_toNat, u32Bytes_u32OfBytes hfour, hfield, List.append_assoc,
      List.take_append_drop, List.take_append_drop]
  · rw [hsize]
    exact (u32OfBytes (b.take 4)).toNat_lt

/-- What is decoded is what was there. -/
theorem parseXattr_ok {b rest : Bytes} {a : Str × Bytes} (h : parseXattr b = .ok (a, rest)) :
    b = xattrBytes a ++ rest ∧ ShortXattr a := by
  unfold parseXattr at h
  by_cases h₁ : b.length < 4
  · rw [if_pos h₁] at h
    cases h
  by_cases h₂ : (b.drop 4).length < (u32OfBytes (b.take 4)).toNat
  · simp only [if_neg h₁, if_pos h₂] at h
    cases h
  simp only [if_neg h₁, if_neg h₂] at h
  split at h
  · cases h
  · next name hname =>
      split_ifs at h with h₃ h₄
      obtain ⟨rfl, rfl⟩ := Prod.mk.inj (Except.ok.inj h)
      obtain ⟨hb, hshort⟩ := u32Bytes_take_append (by omega) (Str.bytes_of_fromUtf8 hname)
        (by omega)
      obtain ⟨hb', hshort'⟩ := u32Bytes_take_append (by omega) rfl (Nat.le_of_not_lt h₄)
      refine ⟨?_, hshort, hshort'⟩
      rw [xattrBytes, List.append_assoc, List.append_assoc, List.append_assoc, ← List.append_assoc,
        ← List.append_assoc (u32Bytes _) _ (List.drop _ _), hb', hb]

theorem parseXattrs_serializeXattrs {xs : Xattrs} (h : ∀ a ∈ xs, ShortXattr a) {n : ℕ}
    (hn : (serializeXattrs xs).length ≤ n) : parseXattrs n (serializeXattrs xs) = .ok xs := by
  induction xs generalizing n with
  | nil =>
      cases n with
      | zero => rfl
      | succ n => rfl
  | cons a xs ih =>
      rw [serializeXattrs_cons, List.length_append] at hn
      have hpos := length_xattrBytes_pos a
      obtain ⟨n, rfl⟩ : ∃ k, n = k + 1 := ⟨n - 1, by omega⟩
      rw [serializeXattrs_cons, parseXattrs, if_neg (xattrBytes_ne_nil a _),
        parseXattr_xattrBytes (h a List.mem_cons_self)]
      simp only
      rw [ih (fun x hx => h x (List.mem_cons_of_mem _ hx)) (by omega)]

theorem deserializeXattrs_serializeXattrs {xs : Xattrs} (h : ∀ a ∈ xs, ShortXattr a) :
    deserializeXattrs (serializeXattrs xs) = .ok xs :=
  parseXattrs_serializeXattrs h le_rfl

theorem serializeXattrs_of_parseXattrs {n : ℕ} {b : Bytes} {xs : Xattrs} (hn : b.length ≤ n)
    (h : parseXattrs n b = .ok xs) : serializeXattrs xs = b := by
  induction n generalizing b xs with
  | zero =>
      obtain rfl := List.length_eq_zero_iff.mp (Nat.le_zero.mp hn)
      obtain rfl := Except.ok.inj h
      rfl
  | succ n ih =>
      rw [parseXattrs] at h
      split_ifs at h with hb
      · obtain rfl := Except.ok.inj h
        rw [hb]
        rfl
      · split at h
        · cases h
        · next a rest hparse =>
            obtain ⟨rfl, -⟩ := parseXattr_ok hparse
            have hpos := length_xattrBytes_pos a
            rw [List.length_append] at hn
            split at h
            · cases h
            · next as has =>
                obtain rfl := Except.ok.inj h
                rw [serializeXattrs_cons, ih (by omega) has]

theorem serializeXattrs_of_deserializeXattrs {b : Bytes} {xs : Xattrs}
    (h : deserializeXattrs b = .ok xs) : serializeXattrs xs = b :=
  serializeXattrs_of_parseXattrs le_rfl h

end Encoding

section Lists
variable {xs : Xattrs} {name n : Str} {value : Bytes}

theorem getXattrEntry_cons (a : Str × Bytes) (xs : Xattrs) (n : Str) :
    getXattrEntry (a :: xs) n = if a.1 = n then some a.2 else getXattrEntry xs n := by
  unfold getXattrEntry
  by_cases h : a.1 = n
  · simp [h]
  · simp [h]

theorem getXattrEntry_setXattrEntry (xs : Xattrs) (name : Str) (value : Bytes) :
    getXattrEntry (setXattrEntry xs name value) =
      Function.update (getXattrEntry xs) name (some value) := by
  funext n
  induction xs with
  | nil =>
      rw [setXattrEntry, getXattrEntry_cons, Function.update_apply]
      simp only [eq_comm]
  | cons a xs ih =>
      rw [setXattrEntry]
      split_ifs with ha
      · subst ha
        rw [getXattrEntry_cons, Function.update_apply, getXattrEntry_cons]
        by_cases hn : a.1 = n
        · rw [if_pos hn, if_pos hn.symm]
        · rw [if_neg hn, if_neg (Ne.symm hn), if_neg hn]
      · rw [getXattrEntry_cons, ih, Function.update_apply, Function.update_apply,
          getXattrEntry_cons]
        by_cases hn : a.1 = n
        · rw [if_pos hn, if_neg (fun h => ha (hn.trans h)), if_pos hn]
        · rw [if_neg hn, if_neg hn]

theorem getXattrEntry_removeXattrEntry (xs : Xattrs) (name : Str) :
    getXattrEntry (removeXattrEntry xs name).2 =
      Function.update (getXattrEntry xs) name none := by
  funext n
  rw [Function.update_apply]
  induction xs with
  | nil =>
      split_ifs
      · rfl
      · rfl
  | cons a xs ih =>
      have ih' : getXattrEntry (xs.filter fun a => a.1 ≠ name) n =
          if n = name then none else getXattrEntry xs n := ih
      show getXattrEntry ((a :: xs).filter fun a => a.1 ≠ name) n = _
      by_cases ha : a.1 = name
      · rw [List.filter_cons_of_neg (by simpa using ha), ih', getXattrEntry_cons]
        by_cases hn : n = name
        · rw [if_pos hn, if_pos hn]
        · rw [if_neg hn, if_neg hn, if_neg fun h => hn (h.symm.trans ha)]
      · rw [List.filter_cons_of_pos (by simpa using ha), getXattrEntry_cons, ih',
          getXattrEntry_cons]
        by_cases hn : a.1 = n
        · rw [if_pos hn, if_neg fun h => ha (hn.trans h), if_pos hn]
        · rw [if_neg hn, if_neg hn]

theorem mem_listXattrNames : n ∈ listXattrNames xs ↔ getXattrEntry xs n ≠ none := by
  induction xs with
  | nil => simp [listXattrNames, getXattrEntry]
  | cons a xs ih =>
      rw [getXattrEntry_cons]
      show n ∈ a.1 :: listXattrNames xs ↔ _
      rw [List.mem_cons, ih]
      by_cases hn : a.1 = n
      · simp [hn]
      · rw [if_neg hn]
        simp [Ne.symm hn]

/-- An entry is removed exactly if there was one. -/
theorem removeXattrEntry_fst (xs : Xattrs) (name : Str) :
    (removeXattrEntry xs name).1 = true ↔ getXattrEntry xs name ≠ none := by
  rw [← mem_listXattrNames, removeXattrEntry, decide_eq_true_iff,
    List.length_filter_lt_length_iff_exists]
  simp [listXattrNames]

/-- A list as `set_xattr` and `remove_xattr` make it. -/
structure ProperXattrs (xs : Xattrs) : Prop where
  short : ∀ a ∈ xs, ShortXattr a
  nodup : (listXattrNames xs).Nodup

theorem ProperXattrs.nil : ProperXattrs [] := ⟨nofun, List.nodup_nil⟩

theorem mem_setXattrEntry {a : Str × Bytes} (h : a ∈ setXattrEntry xs name value) :
    a ∈ xs ∨ a = (name, value) := by
  induction xs with
  | nil => exact .inr (List.mem_singleton.mp h)
  | cons b xs ih =>
      rw [setXattrEntry] at h
      split_ifs at h with hb
      · rcases List.mem_cons.mp h with rfl | h
        · exact .inr (by rw [hb])
        · exact .inl (List.mem_cons_of_mem _ h)
      · rcases List.mem_cons.mp h with rfl | h
        · exact .inl List.mem_cons_self
        · exact (ih h).imp_left (List.mem_cons_of_mem _)

theorem ProperXattrs.set (h : ProperXattrs xs) (ha : ShortXattr (name, value)) :
    ProperXattrs (setXattrEntry xs name value) where
  short a hmem := by
    rcases mem_setXattrEntry hmem with hmem | rfl
    · exact h.short a hmem
    · exact ha
  nodup := by
    have hnodup := h.nodup
    clear h
    induction xs with
    | nil => exact List.nodup_singleton name
    | cons b xs ih =>
        obtain ⟨hb, hxs⟩ := List.nodup_cons.mp hnodup
        rw [setXattrEntry]
        split_ifs with hname
        · exact hnodup
        · refine List.nodup_cons.mpr ⟨?_, ih hxs⟩
          intro hmem
          change b.1 ∈ listXattrNames (setXattrEntry xs name value) at hmem
          rw [mem_listXattrNames, getXattrEntry_setXattrEntry, Function.update_of_ne hname,
            ← mem_listXattrNames] at hmem
          exact hb hmem

theorem ProperXattrs.remove (h : ProperXattrs xs) (name : Str) :
    ProperXattrs (removeXattrEntry xs name).2 where
  short a hmem := h.short a (List.mem_of_mem_filter hmem)
  nodup := h.nodup.sublist (List.filter_sublist.map Prod.fst)

end Lists

section Operations
variable (B : Blockset) {ε : Type}

def internXattrs (xattrs : Xattrs) : Prog B.Fsa ε Digest224 :=
  B.step (B.pushAll (serializeXattrs xattrs))

def loadXattrs (key : Digest224) : Prog B.Io MetaError Xattrs :=
  loadRecord "xattr node" (noPanic deserializeXattrs) key

variable {B} (L : B.Laws)

instance growing_internXattrs (xattrs : Xattrs) :
    Growing L.growthFsa (internXattrs B xattrs : Prog B.Fsa ε Digest224) := by
  unfold internXattrs
  infer_instance

instance growing_loadXattrs (d : Digest224) : Growing L.growth (loadXattrs B d) := by
  unfold loadXattrs
  infer_instance

end Operations

end SliceFs
