import SliceFs.Truncation

/-!
# What a read returns

The content of a file is what a write handle with bytes holds, and otherwise what was
committed, cut or extended to the size of the inode. A read takes the size from neither:
without such a handle it returns the bytes of the manifest, and it fails when there is
none.
-/
namespace SliceFs
open TreeMaps ProgramLogic ByteFile

section
variable {B : Blockset} {L : B.Laws} {s : Fs B} {f : Files} {i : UInt64} {m : InodeMeta}
  {order : List UInt64}

/-- The current content of a file; `order` is the order in which the table of handles is
walked. -/
def Fs.current (L : B.Laws) (s : Fs B) (order : List UInt64) (i : UInt64) : Bytes :=
  (findWriter order i s.openFiles).elim
    (resize 0 ((s.inode i).elim 0 fun m => m.size.toNat) ((s.committed i).getD [])) L.contentOf

theorem resize_eq_self_iff {n : ℕ} {b : Bytes} : resize 0 n b = b ↔ b.length = n := by
  constructor
  · intro h
    rw [← h, length_resize]
  · rintro rfl
    rw [resize, List.take_length, Nat.sub_self, List.replicate_zero, List.append_nil]

/-- Without a handle that holds bytes a read returns bytes of the manifest, or fails. -/
theorem testRead_noWriter (hv : L.Views s f) (hc : L.NoCollision s.store.io)
    (hwriter : findWriter order i s.openFiles = none) (offset : UInt64) (size : UInt32) :
    testRead order i offset size s =
      ((s.committed i).elim (.error (.err .eio))
        (fun b => .ok ((b.drop offset.toNat).take size.toNat)), s) := by
  have hread := readManifest_eq hv hc i
  rw [hv.committed hc]
  unfold testRead
  refine (Prog.bind_ok (Prog.read_apply _ _)).trans ?_
  rw [hwriter]
  cases hx : f.core.manifests[i]? with
  | none =>
      rw [hx] at hread
      exact Prog.bind_error hread
  | some x =>
      rw [hx] at hread
      refine (Prog.bind_ok hread).trans ?_
      exact congrArg (fun b => (Except.ok b, s)) (slice_clamp _ _ _)

/-- Every piece of a file is read back exactly when a handle holds bytes of it, or its
manifest exists and has the size of the inode. -/
theorem reads_current_iff (hB : B.NoIoErrors) {overflowChecks : Bool}
    (hs : Mounted L overflowChecks s) (hc : L.NoCollision s.store.io) (hm : s.inode i = some m)
    (order : List UInt64) :
    (∀ (offset : UInt64) (size : UInt32),
      L.NoCollision (testRead order i offset size s).2.store.io →
      (testRead order i offset size s).1 =
        .ok (((s.current L order i).drop offset.toNat).take size.toNat)) ↔
    (findWriter order i s.openFiles).isSome = true ∨
      ∃ b, s.committed i = some b ∧ b.length = m.size.toNat := by
  have hB := hB.reliable L
  obtain ⟨f, hv⟩ := hs.views hB hc
  have hrel := findWriter_rel hv order i
  have hread : ∀ (offset : UInt64) (size : UInt32),
      L.NoCollision (testRead order i offset size s).2.store.io →
      (testRead order i offset size s).1 =
        (f.readContent order i).map (fun b => (b.drop offset.toNat).take size.toNat) :=
    fun offset size hcr => (wp_testRead hB hv order i offset size hcr).1
  unfold Fs.current
  rw [hm, Option.elim_some]
  cases hwriter : findWriter order i s.openFiles with
  | some o =>
      rw [hwriter] at hrel
      cases hf : f.findWriter order i with
      | none =>
          rw [hf] at hrel
          cases hrel
      | some hd =>
          rw [hf] at hrel
          cases hrel with
          | some ho =>
              refine ⟨fun _ => .inl rfl, fun _ offset size hcr => ?_⟩
              rw [hread offset size hcr, Files.readContent, hf, Option.elim_some, ho.contentOf]
              rfl
  | none =>
      rw [hwriter] at hrel
      have hsame := testRead_noWriter hv hc hwriter
      simp only [hsame, Option.isSome_none, Bool.false_eq_true, false_or, Option.elim_none]
      have hlen := hv.committed_length_le hc i
      constructor
      · intro h
        cases hb : s.committed i with
        | none =>
            have hfail := h 0 0 hc
            rw [hb, Option.elim_none] at hfail
            cases hfail
        | some b =>
            refine ⟨b, rfl, resize_eq_self_iff.mp ?_⟩
            simp only [hb, Option.elim_some, Option.getD_some] at h hlen
            have hsize : (resize 0 m.size.toNat b).length < 2 ^ 64 := by
              rw [length_resize]
              exact m.size.toNat_lt
            refine (eq_of_reads (lt_of_le_of_lt hlen (by decide)) hsize fun offset size => ?_).symm
            exact Except.ok.inj (h offset size hc)
      · rintro ⟨b, hb, hsize⟩ offset size -
        rw [hb, Option.elim_some, Option.getD_some, resize_eq_self_iff.mpr hsize]

end

theorem reads_current_iff_saved : (testRead [] 2 1 2 savedFs).1 =
    .ok (((savedFs.current memoryLaws [] 2).drop 1).take 2) := by
  have hlive : ∃ m, savedFs.inode 2 = some m ∧ m.size.toNat = 3 :=
    ⟨(savedFs.inode 2).get (by decide +kernel), (Option.some_get _).symm, by decide +kernel⟩
  obtain ⟨m, hm, hsize⟩ := hlive
  refine (reads_current_iff memoryBlockset_noIoErrors (mounted_savedFs true)
    (memoryLaws_noCollision (by decide +kernel)) hm []).mpr (.inr ⟨[1, 2, 3], ?_, hsize.symm⟩) 1 2
    (memoryLaws_noCollision (by decide +kernel))
  decide +kernel

/-- A file made by `mknod` was never written: it is live and regular, and has no
manifest. -/
def unwrittenFs : Fs memoryBlockset :=
  (runFsOps [.mknod 1 nameA (S_IFREG ||| 0o644) 0 0 0] freshFs).get (by decide +kernel)

theorem mounted_unwrittenFs (overflowChecks : Bool) :
    Mounted memoryLaws overflowChecks unwrittenFs :=
  (mounted_freshFs overflowChecks).runFsOps (Option.some_get _).symm

/-- A file that has no bytes yet cannot be read. -/
theorem read_of_made_file_fails :
    Mounted memoryLaws true unwrittenFs ∧
      (unwrittenFs.inode 2).map (fun m => (m.mode &&& S_IFMT, m.size)) = some (S_IFREG, 0) ∧
      unwrittenFs.current memoryLaws [] 2 = [] ∧
      (testRead [] 2 0 1 unwrittenFs).1 = .error (.err .eio) := by
  refine ⟨mounted_unwrittenFs true, by decide +kernel, ?_, ?_⟩
  · decide +kernel
  · decide +kernel

end SliceFs
