import SliceFs.StoreRecords

/-!
# The counters of a store

Besides its maps a store keeps two running counters: the number of inodes and the sum of
their sizes. Operations adjust them by what they change, and loading a store computes them
anew. Both ways give the same numbers as long as the sum of the sizes stays below `2 ^ 64`
and directories are created with size 0, as all callers do.
-/
namespace SliceFs
open TreeMaps ProgramLogic

/-- What `statvfs` and `statfs` say about the host's file system. -/
structure HostStat where
  blockSize : UInt64
  blocks : UInt64
  bfree : UInt64
  bavail : UInt64

/-- The answers of the two calls on the path of the store. -/
structure Host where
  statvfs : Option HostStat
  statfs : Option HostStat

structure Statfs where
  blocks : UInt64
  bfree : UInt64
  bavail : UInt64
  files : UInt64
  ffree : UInt64
  bsize : UInt32

/-- One of the two answers, if it is of use: a file system without blocks is not. -/
def HostStat.report (st : HostStat) (files ffree : UInt64) : Option Statfs :=
  if 0 < st.blocks then
    some ⟨st.blocks, st.bfree, st.bavail, files, ffree,
      if 0 < st.blockSize then st.blockSize.toUInt32 else 4096⟩
  else none

section
variable {B : Blockset} {ε : Type}

/-- `compute_statfs`; there is no host when the store has no path or it is no C string. -/
def computeStatfs (host : Option Host) : Prog (Store B) ε Statfs := do
  let files ← readMaps StoreMaps.inodeCount
  let ffree := saturatingSub u64Max files
  pure (((host.bind fun h =>
    (h.statvfs.bind fun st => st.report files ffree).or
      (h.statfs.bind fun st => st.report files ffree))).getD
    ⟨0, 0, 0, files, ffree, 4096⟩)

variable (L : B.Laws)

/-- The counters are right, except that `pending` inodes are not counted yet. -/
structure Blockset.Laws.Counted (pending : ℕ) (s : Store B) : Prop where
  recorded : L.Recorded s
  count : s.maps.inodeCount.toNat + pending = s.maps.inodeData.size
  bytes : s.maps.logicalBytes.toNat = totalSize s.io s.maps

variable {L} {s : Store B} {pending : ℕ}

theorem totalSize_eq_total (io : B.Io) (m : StoreMaps) :
    totalSize io m = total (fun _ d => (sizeAt io d).toNat) m.inodeData := rfl

theorem sizeAt_serializeInode {io : B.Io} {m : InodeMeta} (hc : L.NoCollision io)
    (hm : serializeInode m ∈ L.stored io) : sizeAt io (L.digest (serializeInode m)) = m.size := by
  rw [sizeAt_of_stored hc hm, deserializeInode_serializeInode]
  rfl

/-- There are fewer inodes than numbers. -/
theorem size_le_of_lt {m : Map UInt64 Digest224} {n : UInt64} (h : ∀ ino ∈ m, ino < n) :
    m.size ≤ n.toNat := by
  have hnodup : (m.keys.map UInt64.toNat).Nodup :=
    m.nodup_keys.map fun a b hab => UInt64.toNat_inj.mp hab
  have hsub : m.keys.map UInt64.toNat ⊆ List.range n.toNat := by
    intro k hk
    obtain ⟨ino, hino, rfl⟩ := List.mem_map.mp hk
    exact List.mem_range.mpr (UInt64.lt_iff_toNat_lt.mp (h ino (Std.ExtTreeMap.mem_keys.mp hino)))
  have hlen := (List.subperm_of_subset hnodup hsub).length_le
  rwa [List.length_map, List.length_range, Std.ExtTreeMap.length_keys] at hlen

theorem toNat_saturatingSub {a b : UInt64} (h : b.toNat ≤ a.toNat) :
    (saturatingSub a b).toNat = a.toNat - b.toNat := by
  rw [saturatingSub, if_neg (by rw [UInt64.lt_iff_toNat_lt]; omega)]
  exact UInt64.toNat_sub_of_le _ _ (UInt64.le_iff_toNat_le.mpr h)

/-- A sum in which one term is replaced. -/
theorem toNat_replace {a old new : UInt64} (hold : old.toNat ≤ a.toNat)
    (hsum : a.toNat - old.toNat + new.toNat < 2 ^ 64) :
    (if old < new then a + (new - old) else saturatingSub a (old - new)).toNat =
      a.toNat - old.toNat + new.toNat := by
  split_ifs with hlt
  · rw [UInt64.lt_iff_toNat_lt] at hlt
    rw [UInt64.toNat_add, UInt64.toNat_sub_of_le _ _ (UInt64.le_iff_toNat_le.mpr hlt.le),
      Nat.mod_eq_of_lt (by omega)]
    omega
  · rw [UInt64.lt_iff_toNat_lt, not_lt] at hlt
    have hsub := UInt64.toNat_sub_of_le _ _ (UInt64.le_iff_toNat_le.mpr hlt)
    rw [toNat_saturatingSub (by omega), hsub]
    omega

namespace Blockset.Laws.Counted

theorem grow (h : L.Counted pending s) {io : B.Io} (hle : L.le s.io io) (hc : L.NoCollision io) :
    L.Counted pending { s with io := io } where
  recorded := h.recorded.grow hle
  count := h.count
  bytes := by
    rw [totalSize_of_le hle hc h.recorded.names]
    exact h.bytes

/-- Only the inodes, the counters and the backend matter. -/
theorem congr (h : L.Counted pending s) {s' : Store B} (hio : s'.io = s.io)
    (hmap : s'.maps.inodeMap = s.maps.inodeMap) (hdata : s'.maps.inodeData = s.maps.inodeData)
    (hbytes : s'.maps.logicalBytes = s.maps.logicalBytes)
    (hcount : s'.maps.inodeCount = s.maps.inodeCount) : L.Counted pending s' where
  recorded := h.recorded.congr hio hmap hdata
  count := by rw [hcount, hdata, h.count]
  bytes := by rw [hbytes, h.bytes, totalSize, totalSize, hio, hdata]

/-- A new inode, with its size added; it is counted with it or later. -/
theorem setNew (h : L.Counted 0 s) {m : InodeMeta} (hino : s.maps.inodeData[m.ino]? = none)
    (hlt : m.ino < s.maps.inodeMap.nextIno) (hm : serializeInode m ∈ L.stored s.io)
    (hc : L.NoCollision s.io)
    (hsize : totalSize s.io (s.maps.setInode m.ino (L.digest (serializeInode m))) < 2 ^ 64) :
    L.Counted 1 { s with maps := { s.maps.setInode m.ino (L.digest (serializeInode m)) with
      logicalBytes := s.maps.logicalBytes + m.size } } where
  recorded := (h.recorded.setInode hlt hm).congr rfl rfl rfl
  count := by
    have hcount := h.count
    simp only [StoreMaps.setInode, size_insert_of_none hino]
    omega
  bytes := by
    have htotal := total_insert_new (fun _ d => (sizeAt s.io d).toNat) hino
      (L.digest (serializeInode m))
    rw [sizeAt_serializeInode hc hm] at htotal
    have hbytes := h.bytes
    simp only [totalSize_eq_total, StoreMaps.setInode, htotal] at hsize hbytes ⊢
    rw [UInt64.toNat_add, hbytes]
    omega

/-- An inode without content leaves the sum as it is. -/
theorem setEmpty (h : L.Counted 0 s) {m : InodeMeta} (hino : s.maps.inodeData[m.ino]? = none)
    (hlt : m.ino < s.maps.inodeMap.nextIno) (hm : serializeInode m ∈ L.stored s.io)
    (hc : L.NoCollision s.io) (hzero : m.size = 0) :
    L.Counted 1 { s with maps := s.maps.setInode m.ino (L.digest (serializeInode m)) } := by
  refine (h.setNew hino hlt hm hc ?_).congr rfl rfl rfl ?_ rfl
  · have htotal := total_insert_new (fun _ d => (sizeAt s.io d).toNat) hino
      (L.digest (serializeInode m))
    rw [sizeAt_serializeInode hc hm, hzero] at htotal
    have hbytes := h.bytes
    have hbound := s.maps.logicalBytes.toNat_lt
    have hnone : (0 : UInt64).toNat = 0 := rfl
    simp only [totalSize_eq_total, StoreMaps.setInode] at hbytes ⊢
    omega
  · rw [hzero]
    exact (UInt64.add_zero _).symm

/-- The pending inode is counted. -/
theorem settle (h : L.Counted 1 s) :
    L.Counted 0 { s with maps := { s.maps with inodeCount := s.maps.inodeCount + 1 } } where
  recorded := h.recorded.congr rfl rfl rfl
  count := by
    have hcount := h.count
    have hsize := size_le_of_lt h.recorded.next
    have hlt := s.maps.inodeMap.nextIno.toNat_lt
    have hone : (1 : UInt64).toNat = 1 := rfl
    simp only [UInt64.toNat_add, hone]
    omega
  bytes := h.bytes

/-- An inode takes the place of another one, with the difference of their sizes. -/
theorem setOld (h : L.Counted pending s) {m : InodeMeta} {d : Digest224}
    (hd : s.maps.inodeData[m.ino]? = some d) (hm : serializeInode m ∈ L.stored s.io)
    (hc : L.NoCollision s.io)
    (hsize : totalSize s.io (s.maps.setInode m.ino (L.digest (serializeInode m))) < 2 ^ 64) :
    L.Counted pending { s with maps := { s.maps.setInode m.ino (L.digest (serializeInode m)) with
      logicalBytes :=
        if sizeAt s.io d < m.size then s.maps.logicalBytes + (m.size - sizeAt s.io d)
        else saturatingSub s.maps.logicalBytes (sizeAt s.io d - m.size) } } where
  recorded := (h.recorded.setInode (h.recorded.next m.ino (mem_of_getElem?_eq_some hd)) hm).congr
    rfl rfl rfl
  count := by
    have hcount := h.count
    have hmem : s.maps.inodeData.contains m.ino = true :=
      Std.ExtTreeMap.contains_iff_mem.mpr (mem_of_getElem?_eq_some hd)
    simp only [StoreMaps.setInode]
    rw [Std.ExtTreeMap.size_insert, if_pos hmem, hcount]
  bytes := by
    have htotal := total_insert_of_some (fun _ d => (sizeAt s.io d).toNat) hd
      (L.digest (serializeInode m))
    rw [sizeAt_serializeInode hc hm] at htotal
    have hle := le_total (fun _ d => (sizeAt s.io d).toNat) hd
    have hbytes := h.bytes
    simp only [totalSize_eq_total, StoreMaps.setInode] at hsize hbytes ⊢
    rw [toNat_replace (by omega) (by omega)]
    omega

theorem remove (h : L.Counted 0 s) {ino : UInt64} {d : Digest224}
    (hd : s.maps.inodeData[ino]? = some d) :
    L.Counted 0 { s with maps := { s.maps.removeInode ino with
      logicalBytes := saturatingSub s.maps.logicalBytes (sizeAt s.io d)
      inodeCount := saturatingSub s.maps.inodeCount 1 } } where
  recorded := (h.recorded.removeInode ino).congr rfl rfl rfl
  count := by
    have hcount := h.count
    have hpos := size_insert_of_none (getElem?_erase_self_eq_none s.maps.inodeData ino) d
    rw [insert_erase_of_some hd] at hpos
    have hone : (1 : UInt64).toNat = 1 := rfl
    simp only [StoreMaps.removeInode, size_erase_of_some hd]
    rw [toNat_saturatingSub (by omega)]
    omega
  bytes := by
    have htotal := total_erase (fun _ d => (sizeAt s.io d).toNat) hd
    have hbytes := h.bytes
    simp only [totalSize_eq_total, StoreMaps.removeInode] at hbytes ⊢
    rw [toNat_saturatingSub (by omega)]
    omega

end Blockset.Laws.Counted

theorem Blockset.Laws.Counted.burn (h : L.Counted pending s) {next : UInt64}
    (hle : s.maps.inodeMap.nextIno ≤ next) :
    L.Counted pending { s with maps := { s.maps with
      inodeMap := { s.maps.inodeMap with nextIno := next } } } :=
  ⟨h.recorded.burn hle, h.count, h.bytes⟩

/-- The number that is handed out next has no inode. -/
theorem Blockset.Laws.Recorded.next_eq_none (h : L.Recorded s) :
    s.maps.inodeData[s.maps.inodeMap.nextIno]? = none :=
  Std.ExtTreeMap.getElem?_eq_none fun hmem => UInt64.lt_irrefl _ (h.next _ hmem)

/-- An inode of the map is read. -/
theorem Blockset.Laws.Recorded.getInode (h : L.Recorded s) (hc : L.NoCollision s.io) {ino : UInt64}
    (hino : ino ∈ s.maps.inodeData) :
    ∃ m : InodeMeta, m.ino = ino ∧ serializeInode m ∈ L.stored s.io ∧
      s.maps.inodeData[ino]? = some (L.digest (serializeInode m)) ∧
      SliceFs.getInode ino s = (.ok m, s) := by
  obtain ⟨d, hd⟩ := Option.isSome_iff_exists.mp (Std.ExtTreeMap.mem_iff_isSome_getElem?.mp hino)
  obtain ⟨m, hm, hstored, rfl⟩ := h.stored ino d hd
  refine ⟨m, hm, hstored, hd, ?_⟩
  have hread : (readMaps (fun maps => maps.inodeData[ino]?) : StoreM B _) s =
      (.ok (some (L.digest (serializeInode m))), s) := by
    rw [readMaps, Prog.read_apply, hd]
  rw [SliceFs.getInode, Prog.bind_ok hread, Prog.ofOption_some, Prog.bind_ok (Prog.pure_apply _ _),
    onIo, Prog.zoom, loadInode_of_stored L hc hstored]

section Operations
variable {s' : Store B}

theorem Blockset.Laws.Counted.createInode (hB : L.Reliable) (h : L.Counted 0 s) {m : InodeMeta}
    {r : Except (Fault MetaError) UInt64} (hrun : SliceFs.createInode m s = (r, s'))
    (hc : L.NoCollision s'.io) (hsize : totalSize s'.io s'.maps < 2 ^ 64) : L.Counted 0 s' := by
  by_cases hmax : s.maps.inodeMap.nextIno = u64Max
  · have halloc := allocateIno_apply (ε := MetaError) s
    rw [if_pos hmax] at halloc
    rw [SliceFs.createInode, Prog.bind_error halloc] at hrun
    obtain ⟨-, rfl⟩ := Prod.mk.inj hrun
    exact h
  · obtain ⟨io, hle, hm, happly⟩ := createInode_apply (L := L) hB m s hmax
    rw [happly] at hrun
    obtain ⟨-, rfl⟩ := Prod.mk.inj hrun
    have hlt := lt_add_one_of_ne_u64Max hmax
    have hgrown := (h.burn (UInt64.le_of_lt hlt)).grow hle hc
    exact (hgrown.setNew (m := { m with ino := s.maps.inodeMap.nextIno }) h.recorded.next_eq_none
      hlt hm hc hsize).settle

theorem Blockset.Laws.Counted.updateInode (hB : L.Reliable) (h : L.Counted pending s)
    {m : InodeMeta} {r : Except (Fault MetaError) Unit} (hrun : SliceFs.updateInode m s = (r, s'))
    (hc : L.NoCollision s'.io) (hsize : totalSize s'.io s'.maps < 2 ^ 64) :
    L.Counted pending s' := by
  cases hd : s.maps.inodeData[m.ino]? with
  | none =>
      rw [updateInode_missing hd] at hrun
      obtain ⟨-, rfl⟩ := Prod.mk.inj hrun
      exact h
  | some d =>
      obtain ⟨io, hle, hm, happly⟩ := updateInode_apply (L := L) hB hd
      rw [happly] at hrun
      obtain ⟨-, rfl⟩ := Prod.mk.inj hrun
      obtain ⟨n, -, hn, rfl⟩ := h.recorded.stored m.ino d hd
      have hold : sizeAt s.io (L.digest (serializeInode n)) =
          sizeAt io (L.digest (serializeInode n)) := by
        rw [sizeAt_serializeInode (hc.of_le hle) hn,
          sizeAt_serializeInode hc (L.stored_mono hle hn)]
      rw [hold]
      exact (h.grow hle hc).setOld hd hm hc hsize

theorem Blockset.Laws.Counted.deleteInode (h : L.Counted 0 s) {ino : UInt64}
    {r : Except (Fault MetaError) Unit} (hrun : SliceFs.deleteInode ino s = (r, s')) :
    L.Counted 0 s' := by
  rw [deleteInode_apply] at hrun
  cases hd : s.maps.inodeData[ino]? with
  | none =>
      rw [hd] at hrun
      obtain ⟨-, rfl⟩ := Prod.mk.inj hrun
      exact h
  | some d =>
      rw [hd] at hrun
      obtain ⟨-, rfl⟩ := Prod.mk.inj hrun
      exact h.remove hd

/-- Another link of the parent changes no size. -/
theorem Blockset.Laws.Counted.addBacklink (hB : L.Reliable) (h : L.Counted pending s) {p : UInt64}
    (hp : p ∈ s.maps.inodeData) {r : Except (Fault MetaError) Unit}
    (hrun : SliceFs.addBacklink p s = (r, s')) (hc : L.NoCollision s'.io) (hr : r ≠ .error .panic) :
    r = .ok () ∧ L.Counted pending s' := by
  have hquiet : Growing L.growthQuiet (SliceFs.addBacklink p : StoreM B Unit) := inferInstance
  have hle : L.le s.io s'.io := by
    have hrun' := (hquiet.le_run s).1
    rwa [hrun] at hrun'
  obtain ⟨m, rfl, hstored, hd, hget⟩ := h.recorded.getInode (hc.of_le hle) hp
  rw [SliceFs.addBacklink, Prog.bind_ok hget] at hrun
  by_cases hlinks : m.nlinks.toNat + 1 < 2 ^ 32
  · rw [Prog.assert_bind_of hlinks] at hrun
    obtain ⟨io, hio, hm, happly⟩ := updateInode_apply (L := L) hB
      (m := { m with nlinks := m.nlinks + 1 }) hd
    refine ⟨?_, h.updateInode hB hrun hc ?_⟩
    · rw [happly] at hrun
      exact (Prod.mk.inj hrun).1.symm
    · rw [happly] at hrun
      obtain ⟨-, rfl⟩ := Prod.mk.inj hrun
      have hbytes := (h.grow hio hc).bytes
      have htotal := total_insert_of_some (fun _ d => (sizeAt io d).toNat) hd
        (L.digest (serializeInode { m with nlinks := m.nlinks + 1 }))
      rw [sizeAt_serializeInode hc hm, sizeAt_serializeInode hc (L.stored_mono hio hstored)]
        at htotal
      have hlt := s.maps.logicalBytes.toNat_lt
      simp only [totalSize_eq_total, StoreMaps.setInode] at hbytes htotal ⊢
      omega
  · rw [Prog.assert_bind_of_not hlinks] at hrun
    exact absurd (Prod.mk.inj hrun).1.symm hr

theorem Blockset.Laws.Counted.insertDirectory (hB : L.Reliable) (h : L.Counted 0 s) {ino p : UInt64}
    (hino : s.maps.inodeData[ino]? = none) (hlt : ino < s.maps.inodeMap.nextIno)
    (hp : p ∈ s.maps.inodeData) (name : Str) {m : InodeMeta} (hzero : m.size = 0)
    {r : Except (Fault MetaError) Unit} (hrun : SliceFs.insertDirectory ino p name m s = (r, s'))
    (hc : L.NoCollision s'.io) (hr : r ≠ .error .panic) : L.Counted 0 s' := by
  rcases insertDirectory_cases (L := L) hB ino p name m s with
    ⟨f, io, hle, hcase⟩ | ⟨io, dirs, hle, hm, hcase⟩
  · rw [hcase] at hrun
    obtain ⟨-, rfl⟩ := Prod.mk.inj hrun
    exact h.grow hle hc
  · rw [hcase] at hrun
    set s₁ : Store B := { s with
      io := io
      maps := { s.maps.setInode ino (L.digest (serializeInode (m.asDirectory ino))) with
        dirData := dirs } } with hs₁
    have hp₁ : p ∈ s₁.maps.inodeData := Std.ExtTreeMap.mem_insert.mpr (.inr hp)
    cases hback : SliceFs.addBacklink p s₁ with
    | mk rb s₂ =>
        have hquiet : Growing L.growthQuiet (SliceFs.addBacklink p : StoreM B Unit) := inferInstance
        have hle₂ : L.le io s₂.io := by
          have hrun' := (hquiet.le_run s₁).1
          rwa [hback] at hrun'
        have hcounted : L.NoCollision io → L.Counted 1 s₁ := fun hio =>
          ((h.grow hle hio).setEmpty (m := m.asDirectory ino) hino hlt hm hio hzero).congr
            rfl rfl rfl rfl rfl
        cases rb with
        | error f =>
            -- the parent was found before, so that its links can only overflow
            rw [Prog.bind_error hback] at hrun
            obtain ⟨rfl, rfl⟩ := Prod.mk.inj hrun
            exact absurd ((hcounted (hc.of_le hle₂)).addBacklink hB hp₁ hback hc hr).1 (by simp)
        | ok u =>
            rw [Prog.bind_ok hback] at hrun
            obtain ⟨-, rfl⟩ := Prod.mk.inj hrun
            exact ((hcounted (hc.of_le hle₂)).addBacklink hB hp₁ hback hc (by simp)).2.settle

theorem Blockset.Laws.Counted.createDirectory (hB : L.Reliable) (h : L.Counted 0 s) {p : UInt64}
    {name : Str} {m : InodeMeta} (hzero : m.size = 0) {r : Except (Fault MetaError) UInt64}
    (hrun : SliceFs.createDirectory p name m s = (r, s')) (hc : L.NoCollision s'.io)
    (hr : r ≠ .error .panic) : L.Counted 0 s' := by
  rcases createDirectory_cases p name m s with ⟨f, hcase⟩ | ⟨hp, hmax, hcase⟩
  · rw [hcase] at hrun
    obtain ⟨-, rfl⟩ := Prod.mk.inj hrun
    exact h
  · rw [hcase] at hrun
    have hlt := lt_add_one_of_ne_u64Max hmax
    have hburned := h.burn (UInt64.le_of_lt hlt)
    cases hins : SliceFs.insertDirectory s.maps.inodeMap.nextIno p name m
      { s with maps := { s.maps with
        inodeMap := { s.maps.inodeMap with nextIno := s.maps.inodeMap.nextIno + 1 } } } with
    | mk ri s₁ =>
        cases ri with
        | error f =>
            rw [Prog.bind_error hins] at hrun
            obtain ⟨rfl, rfl⟩ := Prod.mk.inj hrun
            exact hburned.insertDirectory hB h.recorded.next_eq_none hlt hp name hzero hins hc
              fun hf => hr (congrArg _ (Except.error.inj hf))
        | ok u =>
            rw [Prog.bind_ok hins] at hrun
            obtain ⟨-, rfl⟩ := Prod.mk.inj hrun
            exact hburned.insertDirectory hB h.recorded.next_eq_none hlt hp name hzero hins hc
              (by simp)

variable (L) in
/-- The backend grows; the inodes and the counters stay. -/
def Blockset.Laws.growthCounters : Growth (Store B) :=
  L.growthStore.both (.fixed fun s =>
    (s.maps.inodeMap, s.maps.inodeData, s.maps.logicalBytes, s.maps.inodeCount))

instance inodesOnly_counters : InodesOnly L L.growthCounters where
  io _ _ hle := ⟨hle, rfl⟩
  log s _ := ⟨L.le_refl s.io, rfl⟩
  maps s _ hmap hdata hbytes hcount := ⟨L.le_refl s.io, by
    simp only [Growth.fixed, hmap, hdata, hbytes, hcount]⟩

/-- All callers create directories of size 0; the counter of bytes relies on it. -/
def StoreOp.Flat : StoreOp → Prop
  | .createDirectory _ _ inode => inode.size = 0
  | _ => True

/-- What a step does to the counters. -/
theorem StoreOp.counted_run (hB : L.Reliable) {op : StoreOp} (h : op.run s = some s')
    (hop : op.Flat) (hs : L.Counted 0 s) (hc : L.NoCollision s'.io)
    (hsize : totalSize s'.io s'.maps < 2 ^ 64) : L.Counted 0 s' := by
  cases op with
  | createInode inode =>
      exact hs.createInode hB (Prod.ext rfl (Prog.snd_of_exec h)) hc hsize
  | updateInode inode =>
      exact hs.updateInode hB (Prod.ext rfl (Prog.snd_of_exec h)) hc hsize
  | deleteInode ino => exact hs.deleteInode (Prod.ext rfl (Prog.snd_of_exec h))
  | createDirectory parent name inode =>
      refine hs.createDirectory hB hop (Prod.ext rfl (Prog.snd_of_exec h)) hc fun hpanic => ?_
      have hnone := Prog.exec_of_panic (Prod.ext hpanic (Prog.snd_of_exec h))
      exact absurd (h.symm.trans hnone) (by simp)
  | _ =>
      obtain ⟨hle, hfixed⟩ := StoreOp.le_of_sparesInodes (inodesOnly_counters (L := L)) h trivial
      simp only [Growth.fixed, Prod.mk.injEq] at hfixed
      obtain ⟨hmap, hdata, hbytes, hcount⟩ := hfixed
      exact (hs.grow hle hc).congr rfl hmap hdata hbytes hcount

end Operations

/-- The sizes of a new store's inodes: there is the root directory only. -/
theorem counted_new (hB : L.Reliable) {uid gid : UInt32} {io io' : B.Io}
    (h : Store.new B uid gid io = (.ok s, io')) (hc : L.NoCollision s.io) : L.Counted 0 s := by
  have hrecorded := recorded_new (L := L) hB h
  obtain ⟨io₁, rfl, -, hm, -⟩ := new_eq (L := L) hB h
  have hnone : (∅ : Map UInt64 Digest224)[(1 : UInt64)]? = none := by simp
  refine ⟨hrecorded, ?_, ?_⟩
  · rw [StoreMaps.initial, size_insert_of_none hnone]
    rfl
  · have htotal := total_insert_new (fun _ d => (sizeAt io₁ d).toNat) hnone
      (L.digest (serializeInode (rootInode uid gid)))
    rw [sizeAt_serializeInode hc hm] at htotal
    simp only [totalSize_eq_total, StoreMaps.initial, htotal]
    rfl

/-- The counters that loading computes are the ones of the committed store. -/
theorem Blockset.Laws.Counted.loadedStore (h : L.Counted 0 s) {io : B.Io} (hle : L.le s.io io)
    (hc : L.NoCollision io) (root : Digest224) :
    (SliceFs.loadedStore io root s.maps : Store B).maps = s.maps := by
  have hgrown := h.grow hle hc
  have hbytes : UInt64.ofNat (totalSize io s.maps) = s.maps.logicalBytes := by
    rw [← hgrown.bytes]
    exact UInt64.ofNat_toNat
  have hcount : UInt64.ofNat s.maps.inodeData.size = s.maps.inodeCount := by
    rw [← hgrown.count]
    exact UInt64.ofNat_toNat
  simp only [SliceFs.loadedStore, hbytes, hcount]

/-- The stores whose counters are kept: the sizes of the inodes never exceed 64 bits in
sum. -/
inductive Tallied (L : B.Laws) (overflowChecks : Bool) : Store B → Prop where
  | new {uid gid : UInt32} {io io' : B.Io} {s : Store B} :
      Store.new B uid gid io = (.ok s, io') → Tallied L overflowChecks s
  | step {s s' : Store B} (op : StoreOp) : Tallied L overflowChecks s → op.Flat →
      op.run s = some s' → totalSize s'.io s'.maps < 2 ^ 64 → Tallied L overflowChecks s'
  | load {s s' t : Store B} {io io' : B.Io} {root : Digest224} :
      Tallied L overflowChecks s → commit s = ((.ok root, s') : Except (Fault MetaError) _ × _) →
      L.le s'.io io → L.NoCollision io → loadFromRoot B overflowChecks root io = (.ok t, io') →
      Tallied L overflowChecks t

theorem Tallied.counted {overflowChecks : Bool} (hB : L.Reliable) (h : Tallied L overflowChecks s)
    (hc : L.NoCollision s.io) : L.Counted 0 s := by
  induction h with
  | new hnew => exact counted_new hB hnew hc
  | step op _ hflat hrun hsize ih =>
      exact StoreOp.counted_run hB hrun hflat (ih (hc.of_le (StoreOp.le_run L hrun))) hc hsize
  | @load s s' t io io' root _ hcommit hle hio hload ih =>
      obtain rfl := eq_loadedStore_of_commit L hB hcommit hle hio hload
      obtain ⟨-, -, -, hgrown, -, -⟩ := commit_spec L hB hcommit
      have hle' := L.le_trans hgrown hle
      have hs := ih (hio.of_le hle')
      exact (hs.grow hle' hio).congr rfl rfl rfl
        (congrArg StoreMaps.logicalBytes (hs.loadedStore hle' hio root))
        (congrArg StoreMaps.inodeCount (hs.loadedStore hle' hio root))

theorem files_report (st : HostStat) (files ffree : UInt64) :
    ∀ r ∈ st.report files ffree, r.files = files ∧ r.ffree = ffree := by
  intro r hr
  by_cases hblocks : 0 < st.blocks
  · rw [HostStat.report, if_pos hblocks] at hr
    obtain rfl := Option.some.inj hr
    exact ⟨rfl, rfl⟩
  · rw [HostStat.report, if_neg hblocks] at hr
    simp at hr

/-- Whatever the host says, the numbers of files are the store's own. -/
theorem computeStatfs_eq (host : Option Host) (s : Store B) :
    ∃ r : Statfs, computeStatfs (ε := ε) host s = (.ok r, s) ∧ r.files = s.maps.inodeCount ∧
      r.ffree = saturatingSub u64Max s.maps.inodeCount := by
  refine ⟨_, rfl, ?_⟩
  cases hreport : (host.bind fun h =>
      (h.statvfs.bind fun st => st.report s.maps.inodeCount
        (saturatingSub u64Max s.maps.inodeCount)).or
        (h.statfs.bind fun st =>
          st.report s.maps.inodeCount (saturatingSub u64Max s.maps.inodeCount))) with
  | none => exact ⟨rfl, rfl⟩
  | some r =>
      obtain ⟨h, -, hor⟩ := Option.bind_eq_some_iff.mp hreport
      rcases Option.or_eq_some_iff.mp hor with hst | ⟨-, hst⟩ <;>
      · obtain ⟨st, -, hr⟩ := Option.bind_eq_some_iff.mp hst
        exact files_report st _ _ r hr

/-- The running counters are the ones a recount gives: `statfs` tells the number of inodes,
the counter of bytes is the sum of the sizes, and a store that is committed and loaded again
has all maps and counters of the one that went on. -/
theorem counters_exact {overflowChecks : Bool} (hB : L.Reliable) (h : Tallied L overflowChecks s)
    (hc : L.NoCollision s.io) :
    s.maps.logicalBytes.toNat = totalSize s.io s.maps ∧
    (∀ host, ∃ r : Statfs, computeStatfs (ε := ε) host s = (.ok r, s) ∧
      r.files.toNat = s.maps.inodeData.size ∧ r.files.toNat + r.ffree.toNat = u64Max.toNat) ∧
    ∀ (root : Digest224) (s' t : Store B) (io io' : B.Io),
      commit s = ((.ok root, s') : Except (Fault MetaError) _ × _) → L.le s'.io io →
      L.NoCollision io →
      loadFromRoot B overflowChecks root io = (.ok t, io') → t.maps = s.maps := by
  have hcounted := h.counted hB hc
  refine ⟨hcounted.bytes, fun host => ?_, ?_⟩
  · obtain ⟨r, hr, hfiles, hffree⟩ := computeStatfs_eq (ε := ε) host s
    have hmax : s.maps.inodeCount.toNat ≤ u64Max.toNat :=
      Nat.le_of_lt_succ s.maps.inodeCount.toNat_lt
    refine ⟨r, hr, ?_, ?_⟩
    · rw [hfiles]
      exact hcounted.count
    · rw [hffree, hfiles, toNat_saturatingSub hmax]
      omega
  · intro root s' t io io' hcommit hle hio hload
    obtain rfl := eq_loadedStore_of_commit L hB hcommit hle hio hload
    obtain ⟨-, -, -, hgrown, -, -⟩ := commit_spec L hB hcommit
    exact hcounted.loadedStore (L.le_trans hgrown hle) hio root

end

/-- A new store with a file, which grows to ten bytes, and a directory beside it. -/
def fileStore : Store memoryBlockset :=
  ((StoreOp.createInode (.newFile 0 0 0 (S_IFREG ||| 0o644))).run freshStore).get
    (by decide +kernel)

def grownStore : Store memoryBlockset :=
  ((StoreOp.updateInode { InodeMeta.newFile 2 0 0 (S_IFREG ||| 0o644) with size := 10 }).run
    fileStore).get (by decide +kernel)

def treeStore : Store memoryBlockset :=
  ((StoreOp.createDirectory 1 .a (.newDirectory 0 0 0 (S_IFDIR ||| 0o755))).run grownStore).get
    (by decide +kernel)

theorem facts_treeStore :
    (totalSize fileStore.io fileStore.maps = 0 ∧ totalSize grownStore.io grownStore.maps = 10) ∧
      totalSize treeStore.io treeStore.maps = 10 ∧ treeStore.maps.inodeData.size = 3 ∧
      (treeStore.io.blobs.map Prod.fst).Nodup := by
  decide +kernel

theorem counters_exact_treeStore :
    treeStore.maps.logicalBytes.toNat = 10 ∧
    ∃ r : Statfs, computeStatfs (ε := MetaError) none treeStore = (.ok r, treeStore) ∧
      r.files.toNat = 3 := by
  obtain ⟨⟨hfile, hgrown⟩, htree, hsize, hc⟩ := facts_treeStore
  have hnew : Tallied memoryLaws true freshStore := .new (Prog.eq_ok_of_isSome (by decide +kernel))
  have hfile' : Tallied memoryLaws true fileStore :=
    hnew.step (.createInode _) trivial (Option.some_get _).symm (hfile.trans_lt (by decide))
  have hgrown' : Tallied memoryLaws true grownStore :=
    hfile'.step (.updateInode _) trivial (Option.some_get _).symm (hgrown.trans_lt (by decide))
  have htree' : Tallied memoryLaws true treeStore :=
    hgrown'.step (.createDirectory 1 .a (.newDirectory 0 0 0 (S_IFDIR ||| 0o755))) rfl
      (Option.some_get _).symm (htree.trans_lt (by decide))
  obtain ⟨hbytes, hstat, -⟩ := counters_exact (ε := MetaError)
    (memoryBlockset_noIoErrors.reliable memoryLaws) htree' (memoryLaws_noCollision hc)
  obtain ⟨r, hr, hfiles, -⟩ := hstat none
  exact ⟨hbytes.trans htree, r, hr, hfiles.trans hsize⟩

end SliceFs
