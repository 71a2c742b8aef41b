import SliceFs.SegmentLog

/-!
# Garbage collection of segments

A pass of the collector copies every segment file to the file whose number is higher by
100000 and leaves the originals where they are. A later session takes the number after
the highest. Names are sorted as strings: as long as all numbers have six digits and no
copy replaces another segment, replay still finds the newest root last.
-/
namespace SliceFs
open TreeMaps SegmentEntry LittleEndian

/-- The marker that `close` writes. -/
def eofBytes : Bytes := [0xFF, 0, 0, 0, 0]

/-- A segment file that was closed. -/
def closedSegment (segmentId : ℕ) (es : List SegmentEntry) : Bytes :=
  headerBytes segmentId ++ (framesBytes es ++ eofBytes)

def hasSegExtension (name : FileName) : Bool :=
  segmentSuffixBytes.isSuffixOf name && decide (4 < name.length)

/-- The number in the name of a segment. -/
def parseSegmentId (name : FileName) : Option ℕ :=
  if isSegmentName name then Numerals.parseU64 ((name.drop 8).take (name.length - 12)) else none

/-- One more than the highest number in use. -/
def nextSegmentId (dir : SegmentDir) : ℕ := (dir.keys.filterMap parseSegmentId).foldr max 0 + 1

/-- The copy goes through a temporary file that is renamed; other files stay. -/
def compactSegment (dir : SegmentDir) (path : FileName) (outputSegmentId : ℕ) :
    Except SegmentError SegmentDir :=
  match dir[path]? with
  | none => .error .io
  | some file =>
    match readSegment file with
    | .error e => .error e
    | .ok entries => .ok (dir.insert (segmentNameOfWidth 3 outputSegmentId)
        (closedSegment outputSegmentId entries))

/-- The files a pass goes through, as the directory lists them in some order. -/
def gcPaths (dir : SegmentDir) : List FileName := dir.keys.filter hasSegExtension

def runGcInner : List FileName → SegmentDir → Except SegmentError SegmentDir
  | [], dir => .ok dir
  | path :: paths, dir =>
    match compactSegment dir path ((parseSegmentId path).getD 0 + 100000) with
    | .error e => .error e
    | .ok dir => runGcInner paths dir

/-- What changes the segments between two mounts: a session or a snapshot command that
logged the given entries, and a run of the collector. -/
inductive LogStep where
  | session (es : List SegmentEntry)
  | gc (order : List FileName)

/-- The directory after entries were logged to a segment of their own. -/
def sessionDir (dir : SegmentDir) (es : List SegmentEntry) : SegmentDir :=
  dir.insert (segmentName (nextSegmentId dir)) (headerBytes (nextSegmentId dir) ++ framesBytes es)

def LogStep.run (dir : SegmentDir) : LogStep → Except SegmentError SegmentDir
  | session es => .ok (sessionDir dir es)
  | gc order => runGcInner order dir

/-- The collector sees the files of the directory, in any order. -/
def LogStep.Allowed (dir : SegmentDir) : LogStep → Prop
  | session es => ∀ e ∈ es, e.Fits
  | gc order => order.Perm (gcPaths dir)

/-- The root of the last root update, over time. -/
def LogStep.root (last : Digest224) : LogStep → Digest224
  | session es => (lastRoot es).getD last
  | gc _ => last

/-- The segments right after seeding. -/
def seededDir (root : Digest224) : SegmentDir :=
  (∅ : SegmentDir).insert (segmentName 1) (closedSegment 1 [.rootUpdate root])

/-- The directories that sessions and runs of the collector lead to, with the newest root. -/
inductive LogHistory (P : SegmentDir → LogStep → Prop) : SegmentDir → Digest224 → Prop where
  | seeded (root : Digest224) : LogHistory P (seededDir root) root
  | step {dir dir' : SegmentDir} {last : Digest224} {step : LogStep} : LogHistory P dir last →
      step.Allowed dir → P dir step → step.run dir = .ok dir' →
      LogHistory P dir' (step.root last)

/-- A session gets a number of six digits; a copy gets one too and does not replace a
segment with other entries. -/
def LogStep.InRange (dir : SegmentDir) : LogStep → Prop
  | session _ => nextSegmentId dir < 10 ^ 6
  | gc order => ∀ path ∈ order, ∀ file ∈ dir[path]?,
      (parseSegmentId path).getD 0 + 100000 < 10 ^ 6 ∧
      ∀ copy ∈ dir[segmentName ((parseSegmentId path).getD 0 + 100000)]?,
        readSegment copy = readSegment file

instance (dir : SegmentDir) : (step : LogStep) → Decidable (step.InRange dir)
  | .session _ => inferInstanceAs (Decidable (_ < _))
  | .gc order => inferInstanceAs (Decidable (∀ path ∈ order, ∀ file ∈ dir[path]?,
      (parseSegmentId path).getD 0 + 100000 < 10 ^ 6 ∧
      ∀ copy ∈ dir[segmentName ((parseSegmentId path).getD 0 + 100000)]?,
        readSegment copy = readSegment file))

/-- An entry that reads back as itself. -/
structure SegmentEntry.Settled (e : SegmentEntry) : Prop where
  fits : e.Fits
  readBack : e.readBack = e

theorem SegmentEntry.settled_readBack {e : SegmentEntry} (h : e.Fits) : e.readBack.Settled := by
  cases e with
  | rootUpdate root => exact ⟨h, rfl⟩
  | snapshotRecord snap =>
      obtain ⟨version, name, root, createdAt⟩ := snap
      cases name with
      | none => exact ⟨h, rfl⟩
      | some name =>
          by_cases hb : name.bytes = []
          · have hsnap : SegmentEntry.readBack
                (.snapshotRecord ⟨version, some name, root, createdAt⟩) =
                .snapshotRecord ⟨version, none, root, createdAt⟩ := by
              simp [SegmentEntry.readBack, hb, Option.filter_some]
            have hpayload : payloadBytes (.snapshotRecord ⟨version, none, root, createdAt⟩) =
                payloadBytes (.snapshotRecord ⟨version, some name, root, createdAt⟩) := by
              simp [payloadBytes, nameBytes, hb, Str.empty]
            rw [hsnap]
            refine ⟨?_, rfl⟩
            rw [Fits, hpayload]
            exact h
          · have hsnap : SegmentEntry.readBack
                (.snapshotRecord ⟨version, some name, root, createdAt⟩) =
                .snapshotRecord ⟨version, some name, root, createdAt⟩ := by
              simp [SegmentEntry.readBack, hb, Option.filter_some]
            rw [hsnap]
            exact ⟨h, hsnap⟩

theorem SegmentEntry.settled_rootUpdate (root : Digest224) : (rootUpdate root).Settled :=
  ⟨by simp [Fits, payloadBytes], rfl⟩

theorem SegmentEntry.settled_of_parseSnapshotRecord {payload : Bytes}
    (hlen : payload.length < 2 ^ 32) {e : SegmentEntry} (h : parseSnapshotRecord payload = some e) :
    e.Settled := by
  unfold parseSnapshotRecord at h
  dsimp only at h
  split_ifs at h with h₁ h₂ h₃
  · obtain rfl := Option.some.inj h
    exact ⟨by simp [Fits, payloadBytes, nameBytes, Str.empty], rfl⟩
  · obtain ⟨name, hname, rfl⟩ := Option.map_eq_some_iff.mp h
    have hbytes := Str.bytes_of_fromUtf8 hname
    have hcount : name.bytes.length = (u32OfBytes ((payload.drop 44).take 4)).toNat := by
      rw [hbytes, List.length_take, List.length_drop]
      omega
    have hne : name.bytes ≠ [] := by
      rw [← List.length_pos_iff]
      omega
    refine ⟨?_, by simp [SegmentEntry.readBack, Option.filter_some, hne]⟩
    simp only [Fits, payloadBytes, nameBytes, Option.getD_some, List.length_append, length_u64Bytes,
      length_u32Bytes, length_digestBytes]
    omega

theorem settled_of_yield {b rest : Bytes} {e : SegmentEntry} (h : readStep b = .yield e rest) :
    e.Settled := by
  cases b with
  | nil => simp [readStep] at h
  | cons ty b =>
      have hlt : ∀ c : Bytes, (c.take (u32OfBytes (b.take 4)).toNat).length < 2 ^ 32 := by
        intro c
        have hcount := UInt32.toNat_lt (u32OfBytes (b.take 4))
        rw [List.length_take]
        omega
      simp only [readStep] at h
      split_ifs at h
      · split at h
        · next e' hparse =>
            obtain ⟨rfl, -⟩ := ReadStep.yield.inj h
            unfold parseRootUpdate at hparse
            split_ifs at hparse
            obtain rfl := Option.some.inj hparse
            exact settled_rootUpdate _
        · cases h
      · split at h
        · next e' hparse =>
            obtain ⟨rfl, -⟩ := ReadStep.yield.inj h
            exact settled_of_parseSnapshotRecord (hlt _) hparse
        · cases h

/-- What was read from any file can be written and read again. -/
theorem settled_of_readSegment {file : Bytes} {es : List SegmentEntry}
    (h : readSegment file = .ok es) : ∀ e ∈ es, e.Settled := by
  have hread : ∀ (n : ℕ) (b : Bytes), ∀ e ∈ readEntries n b, e.Settled := by
    intro n
    induction n with
    | zero => exact nofun
    | succ n ih =>
        intro b e he
        rw [readEntries] at he
        split at he
        · cases he
        · exact ih _ e he
        · next e' rest hstep =>
            rcases List.mem_cons.mp he with rfl | he
            · exact settled_of_yield hstep
            · exact ih _ e he
  unfold readSegment at h
  split_ifs at h
  obtain rfl := Except.ok.inj h
  exact hread _ _

theorem root?_readBack (e : SegmentEntry) : e.readBack.root? = e.root? := by
  cases e <;> rfl

theorem lastRoot_map_readBack (es : List SegmentEntry) :
    lastRoot (es.map SegmentEntry.readBack) = lastRoot es := by
  rw [lastRoot, List.filterMap_map, lastRoot]
  exact congrArg (fun f => (es.filterMap f).getLast?) (funext root?_readBack)

theorem map_readBack_of_settled {es : List SegmentEntry} (h : ∀ e ∈ es, e.Settled) :
    es.map SegmentEntry.readBack = es := by
  rw [List.map_congr_left fun e he => (h e he).readBack, List.map_id']

theorem readSegment_closedSegment (n : ℕ) {es : List SegmentEntry} (h : ∀ e ∈ es, e.Settled) :
    readSegment (closedSegment n es) = .ok es := by
  have heof : readAll eofBytes = [] := readAll_of_stop rfl
  rw [closedSegment, readSegment_headerBytes_append, readAll_framesBytes_append fun e he =>
    (h e he).fits, heof, map_readBack_of_settled h, List.append_nil]

theorem readSegment_session (n : ℕ) {es : List SegmentEntry} (h : ∀ e ∈ es, e.Fits) :
    readSegment (headerBytes n ++ framesBytes es) = .ok (es.map SegmentEntry.readBack) := by
  have hread := readAll_framesBytes_append h []
  have hnil : readAll [] = [] := rfl
  rw [List.append_nil, hnil, List.append_nil] at hread
  rw [readSegment_headerBytes_append, hread]

theorem parseSegmentId_ofWidth (width : ℕ) {n : ℕ} (h : n < 2 ^ 64) :
    parseSegmentId (segmentNameOfWidth width n) = some n := by
  have hdrop : (segmentNameOfWidth width n).drop 8 =
      Numerals.decimal width n ++ segmentSuffixBytes :=
    List.drop_left' rfl
  have hlen : (segmentNameOfWidth width n).length - 12 = (Numerals.decimal width n).length := by
    simp only [segmentNameOfWidth, List.length_append, segmentPrefixBytes, segmentSuffixBytes,
      List.length_cons, List.length_nil]
    omega
  rw [parseSegmentId, if_pos (isSegmentName_ofWidth width n), hdrop, hlen, List.take_left,
    Numerals.parseU64_decimal h]

theorem parseSegmentId_segmentName {n : ℕ} (h : n < 2 ^ 64) :
    parseSegmentId (segmentName n) = some n :=
  parseSegmentId_ofWidth 6 h

theorem hasSegExtension_of_isSegmentName {name : FileName} (h : isSegmentName name = true) :
    hasSegExtension name = true := by
  rw [isSegmentName, Bool.and_eq_true, List.isPrefixOf_iff_prefix] at h
  have hlen : segmentPrefixBytes.length ≤ name.length := h.1.length_le
  rw [hasSegExtension, h.2, Bool.true_and, decide_eq_true_eq]
  exact lt_of_lt_of_le (by decide) hlen

theorem hasSegExtension_segmentName (n : ℕ) : hasSegExtension (segmentName n) = true :=
  hasSegExtension_of_isSegmentName (isSegmentName_segmentName n)

/-- The copies have names of at least six digits, whatever width was asked for. -/
theorem segmentNameOfWidth_three {n : ℕ} (h : 100000 ≤ n) (hn : n < 10 ^ 6) :
    segmentNameOfWidth 3 n = segmentName n := by
  have hpow : n < 10 ^ Numerals.widthFrom 20 n :=
    Numerals.lt_pow_widthFrom (lt_trans hn (by norm_num))
  have hsix : 6 ≤ Numerals.widthFrom 20 n := by
    by_contra hlt
    have hle : 10 ^ Numerals.widthFrom 20 n ≤ 10 ^ 5 := Nat.pow_le_pow_right (by decide) (by omega)
    omega
  rw [segmentName, segmentNameOfWidth, segmentNameOfWidth,
    Numerals.decimal_eq_decimal (le_trans (by decide) hsix) hsix]

/-- A directory that renders a log of entries that read back as themselves. -/
structure Clean (dir : SegmentDir) (log : SegmentLog) : Prop where
  renders : Renders dir log
  settled : ∀ (n : ℕ) (es : List SegmentEntry), log[n]? = some es → ∀ e ∈ es, e.Settled

variable {dir dir' : SegmentDir} {log : SegmentLog}

theorem Clean.insert (h : Clean dir log) {n : ℕ} (hn : n < 10 ^ 6) {file : Bytes}
    {es : List SegmentEntry} (hlen : 16 ≤ file.length) (hread : readSegment file = .ok es)
    (hes : ∀ e ∈ es, e.Settled) : Clean (dir.insert (segmentName n) file) (log.insert n es) where
  renders := h.renders.insert hn hlen hread
  settled m es' hm := by
    rw [getElem?_insert_ite] at hm
    split_ifs at hm
    · obtain rfl := Option.some.inj hm
      exact hes
    · exact h.settled m es' hm

theorem le_foldr_max {l : List ℕ} {n : ℕ} (h : n ∈ l) : n ≤ l.foldr max 0 := by
  induction l with
  | nil => cases h
  | cons m l ih =>
      rw [List.foldr_cons]
      rcases List.mem_cons.mp h with rfl | h
      · exact le_max_left _ _
      · exact le_trans (ih h) (le_max_right _ _)

/-- The next number is above every number in use. -/
theorem Renders.lt_nextSegmentId (h : Renders dir log) {n : ℕ} (hn : n ∈ log) :
    n < nextSegmentId dir := by
  have hlt := h.lt hn
  obtain ⟨es, hes⟩ := Option.isSome_iff_exists.mp (Std.ExtTreeMap.mem_iff_isSome_getElem?.mp hn)
  obtain ⟨-, file, hfile, -⟩ := h.file n es hes
  refine Nat.lt_succ_of_le (le_foldr_max (List.mem_filterMap.mpr ⟨segmentName n, ?_, ?_⟩))
  · exact Std.ExtTreeMap.mem_keys.mpr (mem_of_getElem?_eq_some hfile)
  · exact parseSegmentId_segmentName (lt_trans hlt (by norm_num))

/-- `cur` is `log` with copies of the segments in `done`. -/
structure SegmentLog.Copying (log : SegmentLog) (done : List ℕ) (cur : SegmentLog) : Prop where
  keep : ∀ (n : ℕ) (es : List SegmentEntry), log[n]? = some es → cur[n]? = some es
  only : ∀ (n : ℕ) (es : List SegmentEntry), cur[n]? = some es →
    log[n]? = some es ∨ ∃ m, n = m + 100000 ∧ log[m]? = some es
  copied : ∀ m ∈ done, ∀ es : List SegmentEntry, log[m]? = some es → cur[m + 100000]? = some es

theorem SegmentLog.Copying.refl (log : SegmentLog) : log.Copying [] log :=
  ⟨fun _ _ h => h, fun _ _ h => .inl h, nofun⟩

theorem SegmentLog.Copying.insert {log cur : SegmentLog} {done : List ℕ} (h : log.Copying done cur)
    {m : ℕ} {es : List SegmentEntry} (hm : log[m]? = some es)
    (hno : ∀ es', log[m + 100000]? = some es' → es' = es) :
    log.Copying (m :: done) (cur.insert (m + 100000) es) where
  keep n es' hn := by
    rw [getElem?_insert_ite]
    split_ifs with heq
    · subst heq
      rw [hno es' hn]
    · exact h.keep n es' hn
  only n es' hn := by
    rw [getElem?_insert_ite] at hn
    split_ifs at hn with heq
    · obtain rfl := Option.some.inj hn
      exact .inr ⟨m, heq, hm⟩
    · exact h.only n es' hn
  copied k hk es' hes' := by
    rw [getElem?_insert_ite]
    split_ifs with heq
    · obtain rfl : k = m := by omega
      rw [← hm, hes']
    · refine h.copied k ?_ es' hes'
      rcases List.mem_cons.mp hk with rfl | hk
      · exact absurd rfl heq
      · exact hk

/-- What a pass may do with segment `m`: its copy has a number of six digits and replaces
nothing else. -/
def SegmentLog.Copyable (log : SegmentLog) (m : ℕ) : Prop :=
  m + 100000 < 10 ^ 6 ∧ ∀ es es', log[m]? = some es → log[m + 100000]? = some es' → es' = es

theorem Clean.compactSegment {cur : SegmentLog} {done : List ℕ} (h : Clean dir cur)
    (hcopy : log.Copying done cur) {m : ℕ} {es : List SegmentEntry} (hm : log[m]? = some es)
    (hable : log.Copyable m) :
    ∃ dir', SliceFs.compactSegment dir (segmentName m)
        ((parseSegmentId (segmentName m)).getD 0 + 100000) = .ok dir' ∧
      Clean dir' (cur.insert (m + 100000) es) ∧
      log.Copying (m :: done) (cur.insert (m + 100000) es) := by
  have hcur := hcopy.keep m es hm
  obtain ⟨hlt, file, hfile, -, hread⟩ := h.renders.file m es hcur
  have hes := h.settled m es hcur
  have hparse := parseSegmentId_segmentName (lt_trans hlt (by norm_num) : m < 2 ^ 64)
  refine ⟨dir.insert (segmentNameOfWidth 3 (m + 100000)) (closedSegment (m + 100000) es), ?_, ?_,
    hcopy.insert hm fun es' hes' => hable.2 es es' hm hes'⟩
  · rw [hparse, Option.getD_some, SliceFs.compactSegment, hfile]
    simp only [hread]
  · rw [segmentNameOfWidth_three (by omega) hable.1]
    exact h.insert hable.1 (by simp [closedSegment]) (readSegment_closedSegment _ hes) hes

/-- A pass over the segments with the numbers `ms`. -/
theorem Clean.runGcInner {cur : SegmentLog} {done ms : List ℕ} (h : Clean dir cur)
    (hcopy : log.Copying done cur) (hms : ∀ m ∈ ms, m ∈ log ∧ log.Copyable m) :
    ∃ dir' cur', SliceFs.runGcInner (ms.map segmentName) dir = .ok dir' ∧ Clean dir' cur' ∧
      log.Copying (ms.reverse ++ done) cur' := by
  induction ms generalizing dir cur done with
  | nil => exact ⟨dir, cur, rfl, h, hcopy⟩
  | cons m ms ih =>
      obtain ⟨hmem, hable⟩ := hms m List.mem_cons_self
      obtain ⟨es, hes⟩ := Option.isSome_iff_exists.mp
        (Std.ExtTreeMap.mem_iff_isSome_getElem?.mp hmem)
      obtain ⟨dir₁, hrun, h₁, hcopy₁⟩ := h.compactSegment hcopy hes hable
      obtain ⟨dir', cur', hrest, h', hcopy'⟩ :=
        ih h₁ hcopy₁ fun k hk => hms k (List.mem_cons_of_mem _ hk)
      refine ⟨dir', cur', ?_, h', ?_⟩
      · rw [List.map_cons, SliceFs.runGcInner, hrun]
        exact hrest
      · simpa using hcopy'

theorem Renders.keys_eq (h : Renders dir log) : dir.keys = log.keys.map segmentName := by
  rw [← Std.ExtTreeMap.map_fst_toList_eq_keys, h.toList_eq, List.map_map,
    ← Std.ExtTreeMap.map_fst_toList_eq_keys, List.map_map]
  rfl

theorem Renders.gcPaths_eq (h : Renders dir log) : gcPaths dir = log.keys.map segmentName := by
  rw [gcPaths, h.keys_eq, List.filter_eq_self]
  intro name hname
  obtain ⟨n, -, rfl⟩ := List.mem_map.mp hname
  exact hasSegExtension_segmentName n

theorem Clean.copyable (h : Clean dir log) {order : List FileName}
    (hrange : (LogStep.gc order).InRange dir) (hperm : order.Perm (gcPaths dir)) {m : ℕ}
    (hm : m ∈ log) : log.Copyable m := by
  obtain ⟨es, hes⟩ := Option.isSome_iff_exists.mp (Std.ExtTreeMap.mem_iff_isSome_getElem?.mp hm)
  obtain ⟨hlt, file, hfile, -, hread⟩ := h.renders.file m es hes
  have hpath : segmentName m ∈ order := by
    rw [hperm.mem_iff, h.renders.gcPaths_eq]
    exact List.mem_map_of_mem (Std.ExtTreeMap.mem_keys.mpr hm)
  have hparse := parseSegmentId_segmentName (lt_trans hlt (by norm_num) : m < 2 ^ 64)
  obtain ⟨hsix, hsame⟩ := hrange _ hpath file hfile
  rw [hparse, Option.getD_some] at hsix hsame
  refine ⟨hsix, fun es₁ es' hes₁ hes' => ?_⟩
  obtain rfl : es = es₁ := Option.some.inj (hes.symm.trans hes₁)
  obtain ⟨-, copy, hcopy, -, hread'⟩ := h.renders.file _ es' hes'
  have hsame' := hsame copy hcopy
  rw [hread', hread] at hsame'
  exact Except.ok.inj hsame'

/-- A run of the collector adds a copy of every segment, and nothing else. -/
theorem Clean.gc (h : Clean dir log) {order : List FileName} (hperm : order.Perm (gcPaths dir))
    (hrange : (LogStep.gc order).InRange dir) :
    ∃ dir' log', SliceFs.runGcInner order dir = .ok dir' ∧ Clean dir' log' ∧
      log.Copying log.keys log' := by
  obtain ⟨ms, hms, rfl⟩ : ∃ ms : List ℕ, ms.Perm log.keys ∧ order = ms.map segmentName := by
    rw [h.renders.gcPaths_eq] at hperm
    have hcomp : Relation.Comp (· = List.map segmentName ·) List.Perm order log.keys := by
      rw [List.eq_map_comp_perm]
      exact hperm
    obtain ⟨ms, horder, hms⟩ := hcomp
    exact ⟨ms, hms, horder⟩
  have hlog : ∀ m ∈ ms, m ∈ log := fun m hm => Std.ExtTreeMap.mem_keys.mp (hms.mem_iff.mp hm)
  obtain ⟨dir', log', hrun, h', hcopy⟩ := h.runGcInner (SegmentLog.Copying.refl log)
    fun m hm => ⟨hlog m hm, h.copyable hrange hperm (hlog m hm)⟩
  refine ⟨dir', log', hrun, h', hcopy.keep, hcopy.only, fun m hm => hcopy.copied m ?_⟩
  rw [List.append_nil, List.mem_reverse, hms.mem_iff]
  exact hm

/-- The copies keep the newest root last. -/
theorem SegmentLog.Latest.copying {log' : SegmentLog} {r : Digest224} (h : log.Latest r)
    (hcopy : log.Copying log.keys log') : log'.Latest r := by
  obtain ⟨n, es, hn, hr, hlater⟩ := h
  refine ⟨n + 100000, es, hcopy.copied n (Std.ExtTreeMap.mem_keys.mpr (mem_of_getElem?_eq_some hn))
    es hn, hr, fun m es' hlt hm => ?_⟩
  rcases hcopy.only m es' hm with hm | ⟨k, rfl, hk⟩
  · exact hlater m es' (by omega) hm
  · exact hlater k es' (by omega) hk

theorem clean_seededDir (root : Digest224) :
    Clean (seededDir root) ((∅ : SegmentLog).insert 1 [.rootUpdate root]) := by
  have hempty : Clean ∅ (∅ : SegmentLog) :=
    ⟨⟨fun name hname => absurd hname Std.ExtTreeMap.not_mem_empty, by simp⟩, by simp⟩
  have hsettled : ∀ e ∈ [SegmentEntry.rootUpdate root], e.Settled := by
    simp only [List.mem_singleton, forall_eq]
    exact settled_rootUpdate root
  exact hempty.insert (by decide) (by simp [closedSegment])
    (readSegment_closedSegment 1 hsettled) hsettled

/-- A segment above all others is read last. -/
theorem SegmentLog.entries_insert {n : ℕ} (hn : ∀ m ∈ log, m < n) (es : List SegmentEntry) :
    SegmentLog.entries (log.insert n es) = log.entries ++ es := by
  have hlt : ∀ e ∈ log.toList, e.1 < n := by
    intro e he
    exact hn e.1 (mem_of_getElem?_eq_some (Std.ExtTreeMap.mem_toList_iff_getElem?_eq_some.mp he))
  have hbelow : log.toList.filter (fun e => decide (compare e.1 n = .lt)) = log.toList :=
    List.filter_eq_self.mpr fun e he => decide_eq_true (compare_lt_iff_lt.mpr (hlt e he))
  have habove : log.toList.filter (fun e => decide (compare n e.1 = .lt)) = [] := by
    refine List.filter_eq_nil_iff.mpr fun e he => ?_
    rw [decide_eq_true_iff, compare_lt_iff_lt]
    exact not_lt_of_gt (hlt e he)
  rw [SegmentLog.entries, toList_insert_eq, hbelow, habove, List.flatMap_append,
    List.flatMap_singleton, SegmentLog.entries]

/-- Replay after a session goes on with what its segment reads as. -/
theorem Renders.load_session (h : Renders dir log) (hn : nextSegmentId dir < 10 ^ 6)
    {es es' : List SegmentEntry}
    (hread : readSegment (headerBytes (nextSegmentId dir) ++ framesBytes es) = .ok es') :
    loadStoreFromSegments (sessionDir dir es) =
      .ok ((lastRoot es').or (lastRoot log.entries),
        snapshotsOf log.entries ++ snapshotsOf es') := by
  have hinsert := h.insert hn (by simp) hread
  rw [sessionDir, hinsert.load, SegmentLog.entries_insert fun m hm => h.lt_nextSegmentId hm,
    lastRoot_append, snapshotsOf_append]

theorem Clean.session (h : Clean dir log) {es : List SegmentEntry} (hes : ∀ e ∈ es, e.Fits)
    (hn : nextSegmentId dir < 10 ^ 6) :
    Clean (sessionDir dir es)
      (log.insert (nextSegmentId dir) (es.map SegmentEntry.readBack)) := by
  refine h.insert hn (by simp) (readSegment_session _ hes) fun e he => ?_
  obtain ⟨e', he', rfl⟩ := List.mem_map.mp he
  exact settled_readBack (hes e' he')

/-- A segment above all others decides the newest root, if it has one. -/
theorem SegmentLog.Latest.insert {r : Digest224} (h : log.Latest r) {n : ℕ}
    (hn : ∀ m ∈ log, m < n) (es : List SegmentEntry) :
    SegmentLog.Latest (log.insert n es) ((lastRoot es).getD r) := by
  have hget : ∀ m es', (log.insert n es)[m]? = some es' →
      m = n ∧ es' = es ∨ m ≠ n ∧ log[m]? = some es' := by
    intro m es' hm
    rw [getElem?_insert_ite] at hm
    split_ifs at hm with hmn
    · exact .inl ⟨hmn, (Option.some.inj hm).symm⟩
    · exact .inr ⟨hmn, hm⟩
  cases hes : lastRoot es with
  | some r' =>
      refine ⟨n, es, by rw [getElem?_insert_ite, if_pos rfl], hes, fun m es' hlt hm => ?_⟩
      rcases hget m es' hm with ⟨rfl, -⟩ | ⟨-, hm⟩
      · exact absurd hlt (lt_irrefl _)
      · exact absurd (hn m (mem_of_getElem?_eq_some hm)) (by omega)
  | none =>
      obtain ⟨k, es₀, hk, hr, hlater⟩ := h
      have hkn := hn k (mem_of_getElem?_eq_some hk)
      refine ⟨k, es₀, by rw [getElem?_insert_ite, if_neg (by omega), hk], hr, fun m es' hlt hm =>
        ?_⟩
      rcases hget m es' hm with ⟨-, rfl⟩ | ⟨-, hm⟩
      · exact hes
      · exact hlater m es' hlt hm

theorem LogHistory.clean {last : Digest224} (h : LogHistory LogStep.InRange dir last) :
    ∃ log, Clean dir log ∧ log.Latest last := by
  induction h with
  | seeded root =>
      refine ⟨_, clean_seededDir root, 1, [.rootUpdate root], ?_, rfl, fun m es' hlt hm => ?_⟩
      · rw [getElem?_insert_ite, if_pos rfl]
      · rw [getElem?_insert_ite, if_neg (by omega)] at hm
        simp at hm
  | @step dir dir' last step _ hallowed hrange hrun ih =>
      obtain ⟨log, hclean, hlatest⟩ := ih
      cases step with
      | session es =>
          obtain rfl := Except.ok.inj hrun
          refine ⟨_, hclean.session hallowed hrange, ?_⟩
          have h := hlatest.insert (fun m hm => hclean.renders.lt_nextSegmentId hm)
            (es.map SegmentEntry.readBack)
          rwa [lastRoot_map_readBack] at h
      | gc order =>
          obtain ⟨dir₁, log', hrun', hclean', hcopy⟩ := hclean.gc hallowed hrange
          obtain rfl : dir' = dir₁ := Except.ok.inj (hrun.symm.trans hrun')
          exact ⟨log', hclean', hlatest.copying hcopy⟩

/-- As long as numbers stay in range, replay returns the root that was written last. -/
theorem load_latest {last : Digest224} (h : LogHistory LogStep.InRange dir last) :
    ∃ snaps, loadStoreFromSegments dir = .ok (some last, snaps) := by
  obtain ⟨log, hclean, hlatest⟩ := h.clean
  rw [hclean.renders.load, hlatest.lastRoot_entries]
  exact ⟨_, rfl⟩

/-- The directory after a run of the collector over its files in order of their names. -/
def collected (dir : SegmentDir) : SegmentDir := (runGcInner (gcPaths dir) dir).toOption.getD dir

theorem LogHistory.collected {P : SegmentDir → LogStep → Prop} {last : Digest224}
    (h : LogHistory P dir last) (hP : P dir (.gc (gcPaths dir)))
    (hok : (runGcInner (gcPaths dir) dir).toOption.isSome) :
    LogHistory P (SliceFs.collected dir) last := by
  have hrun : runGcInner (gcPaths dir) dir = .ok (SliceFs.collected dir) := by
    unfold SliceFs.collected
    cases hrun : runGcInner (gcPaths dir) dir with
    | ok dir' => rfl
    | error e => simp [hrun, Except.toOption] at hok
  have hallowed : (LogStep.gc (gcPaths dir)).Allowed dir := List.Perm.refl _
  exact h.step hallowed hP hrun

theorem LogHistory.session {P : SegmentDir → LogStep → Prop} {last : Digest224}
    (h : LogHistory P dir last) {es : List SegmentEntry} (hes : ∀ e ∈ es, e.Fits)
    (hP : P dir (.session es)) : LogHistory P (sessionDir dir es) ((lastRoot es).getD last) := by
  have hallowed : (LogStep.session es).Allowed dir := hes
  exact h.step hallowed hP rfl

section Runs

def oldRoot : Digest224 := .replicate 7 1

def newRoot : Digest224 := .replicate 7 2

def firstSnapshot : SnapshotEntry := ⟨1, none, newRoot, 0⟩

/-- After ten runs of the collector a session gets a number of seven digits. -/
def staleDir : SegmentDir := sessionDir (collected^[10] (seededDir oldRoot)) [.rootUpdate newRoot]

theorem load_staleDir : LogHistory (fun _ _ => True) staleDir newRoot ∧
    loadStoreFromSegments staleDir = .ok (some oldRoot, []) := by
  have hok : ∀ k < 10, (runGcInner (gcPaths (collected^[k] (seededDir oldRoot)))
      (collected^[k] (seededDir oldRoot))).toOption.isSome := by
    decide +kernel
  have hrun : ∀ k ≤ 10, LogHistory (fun _ _ => True)
      (collected^[k] (seededDir oldRoot)) oldRoot := by
    intro k
    induction k with
    | zero => exact fun _ => .seeded oldRoot
    | succ k ih =>
        intro hk
        rw [Function.iterate_succ_apply']
        exact (ih (by omega)).collected trivial (hok k hk)
  exact ⟨(hrun 10 le_rfl).session (by decide +kernel) trivial, by decide +kernel⟩

/-- A session that commits and takes a snapshot. -/
def snapshotDir : SegmentDir :=
  sessionDir (seededDir oldRoot) [.rootUpdate newRoot, .snapshotRecord firstSnapshot]

theorem snapshotDir_history : LogHistory LogStep.InRange snapshotDir newRoot :=
  LogHistory.session (.seeded oldRoot) (by decide +kernel) (by decide +kernel)

theorem load_latest_collected : ∃ snaps,
    loadStoreFromSegments (sessionDir (collected snapshotDir) [.rootUpdate oldRoot]) =
      .ok (some oldRoot, snaps) :=
  load_latest ((snapshotDir_history.collected (by decide +kernel) (by decide +kernel)).session
    (by decide +kernel) (by decide +kernel))

end Runs

/-- The number of snapshot records in a log. -/
def SegmentLog.snapshotCount (log : SegmentLog) : ℕ :=
  total (fun _ es => (snapshotsOf es).length) log

theorem SegmentLog.length_snapshotsOf_entries (log : SegmentLog) :
    (snapshotsOf log.entries).length = log.snapshotCount := by
  rw [SegmentLog.snapshotCount, total, SegmentLog.entries, snapshotsOf, List.filterMap_flatMap,
    List.length_flatMap]
  rfl

theorem SegmentLog.snapshotCount_eq_zero_iff {log : SegmentLog} :
    log.snapshotCount = 0 ↔
      ∀ (n : ℕ) (es : List SegmentEntry), log[n]? = some es → snapshotsOf es = [] := by
  rw [SegmentLog.snapshotCount, total_eq_zero_iff]
  simp only [List.length_eq_zero_iff]

/-- Among the segments with snapshot records there is one that was not copied before: the
numbers of a chain of copies are bounded. -/
theorem Renders.exists_uncopied (h : Renders dir log) {log' : SegmentLog}
    (hcopy : log.Copying log.keys log') {n : ℕ} {es : List SegmentEntry} (hn : log[n]? = some es) :
    ∃ m, log[m]? = some es ∧ log[m + 100000]? = none := by
  induction hk : 10 ^ 6 - n using Nat.strong_induction_on generalizing n with
  | _ k ih =>
      have hlt := h.lt (mem_of_getElem?_eq_some hn)
      have hcopied := hcopy.copied n (Std.ExtTreeMap.mem_keys.mpr (mem_of_getElem?_eq_some hn))
        es hn
      cases hnext : log[n + 100000]? with
      | none => exact ⟨n, hn, hnext⟩
      | some es' =>
          obtain rfl : es = es' := Option.some.inj (hcopied.symm.trans (hcopy.keep _ _ hnext))
          exact ih (10 ^ 6 - (n + 100000)) (by omega) hnext rfl

/-- Copying repeats the snapshot records. -/
theorem Renders.snapshotCount_copying (h : Renders dir log) {log' : SegmentLog}
    (hcopy : log.Copying log.keys log') :
    log'.snapshotCount = log.snapshotCount ↔ log.snapshotCount = 0 := by
  constructor
  · intro heq
    by_contra hne
    obtain ⟨n, es, hn, hes⟩ : ∃ (n : ℕ) (es : List SegmentEntry),
        log[n]? = some es ∧ snapshotsOf es ≠ [] := by
      by_contra hall
      push Not at hall
      exact hne (SegmentLog.snapshotCount_eq_zero_iff.mpr hall)
    obtain ⟨m, hm, hnone⟩ := h.exists_uncopied hcopy hn
    have hlt : log.snapshotCount < log'.snapshotCount :=
      total_lt_of_subset _ hcopy.keep hnone
        (hcopy.copied m (Std.ExtTreeMap.mem_keys.mpr (mem_of_getElem?_eq_some hm)) es hm)
        (List.length_pos_iff.mpr hes)
    omega
  · intro hzero
    rw [hzero, SegmentLog.snapshotCount_eq_zero_iff]
    rw [SegmentLog.snapshotCount_eq_zero_iff] at hzero
    intro n es hn
    rcases hcopy.only n es hn with hn | ⟨m, -, hm⟩
    · exact hzero n es hn
    · exact hzero m es hm

/-- A run of the collector in range leaves the result of replay as it was exactly when there
are no snapshots. -/
theorem load_gc_iff {last : Digest224} (h : LogHistory LogStep.InRange dir last)
    {order : List FileName} (hperm : order.Perm (gcPaths dir))
    (hrange : (LogStep.gc order).InRange dir) :
    ∃ dir', runGcInner order dir = .ok dir' ∧
      (loadStoreFromSegments dir' = loadStoreFromSegments dir ↔
        loadStoreFromSegments dir = .ok (some last, [])) := by
  obtain ⟨log, hclean, hlatest⟩ := h.clean
  obtain ⟨dir', log', hrun, hclean', hcopy⟩ := hclean.gc hperm hrange
  refine ⟨dir', hrun, ?_⟩
  have hcount := hclean.renders.snapshotCount_copying hcopy
  rw [← SegmentLog.length_snapshotsOf_entries, ← SegmentLog.length_snapshotsOf_entries,
    List.length_eq_zero_iff] at hcount
  rw [hclean.renders.load, hclean'.renders.load, hlatest.lastRoot_entries,
    (hlatest.copying hcopy).lastRoot_entries]
  simp only [Except.ok.injEq, Prod.mk.injEq, true_and]
  constructor
  · intro heq
    exact hcount.mp (congrArg List.length heq)
  · intro hnil
    have hlen := hcount.mpr hnil
    rw [hnil] at hlen ⊢
    exact List.length_eq_zero_iff.mp hlen

/-- The snapshot is listed twice. -/
theorem load_collected_snapshotDir : LogHistory LogStep.InRange snapshotDir newRoot ∧
    runGcInner (gcPaths snapshotDir) snapshotDir = .ok (collected snapshotDir) ∧
    loadStoreFromSegments snapshotDir = .ok (some newRoot, [firstSnapshot]) ∧
    loadStoreFromSegments (collected snapshotDir) =
      .ok (some newRoot, [firstSnapshot, firstSnapshot]) :=
  ⟨snapshotDir_history, by decide +kernel, by decide +kernel, by decide +kernel⟩

theorem load_gc_iff_committed :
    ∃ dir', runGcInner (gcPaths (sessionDir (seededDir oldRoot) [.rootUpdate newRoot]))
        (sessionDir (seededDir oldRoot) [.rootUpdate newRoot]) = .ok dir' ∧
      loadStoreFromSegments dir' =
        loadStoreFromSegments (sessionDir (seededDir oldRoot) [.rootUpdate newRoot]) := by
  have h : LogHistory LogStep.InRange (sessionDir (seededDir oldRoot) [.rootUpdate newRoot])
      newRoot :=
    LogHistory.session (.seeded oldRoot) (by decide +kernel) (by decide +kernel)
  obtain ⟨dir', hrun, hiff⟩ := load_gc_iff h (List.Perm.refl _) (by decide +kernel)
  exact ⟨dir', hrun, hiff.mpr (by decide +kernel)⟩

end SliceFs
