import SliceFs.Blockset

/-!
# A backend in memory

An instance of the store interface that satisfies its laws: a backend is a list of
blobs under their digests, and an accumulator is the bytes pushed so far. The digest
is a polynomial of the bytes modulo `2 ^ 224`; it stands for no particular hash.
-/
namespace SliceFs
open ProgramLogic

def memoryHash (b : Bytes) : ℕ := b.foldl (fun acc x => (acc * 257 + x.toNat + 1) % 2 ^ 224) 0

def memoryDigest (b : Bytes) : Digest224 :=
  let n := memoryHash b
  #v[UInt32.ofNat n, UInt32.ofNat (n / 2 ^ 32), UInt32.ofNat (n / 2 ^ 64),
    UInt32.ofNat (n / 2 ^ 96), UInt32.ofNat (n / 2 ^ 128), UInt32.ofNat (n / 2 ^ 160),
    UInt32.ofNat (n / 2 ^ 192)]

structure MemoryIo where
  blobs : List (Digest224 × Bytes)
  keyed : ∀ p ∈ blobs, p.1 = memoryDigest p.2

namespace MemoryIo

def empty : MemoryIo := ⟨[], by simp⟩

def put (io : MemoryIo) (b : Bytes) : MemoryIo :=
  if (memoryDigest b, b) ∈ io.blobs then io
  else ⟨(memoryDigest b, b) :: io.blobs, by
    intro p hp
    rcases List.mem_cons.mp hp with rfl | hp
    · rfl
    · exact io.keyed p hp⟩

def get (io : MemoryIo) (d : Digest224) : Option Bytes :=
  (io.blobs.find? fun p => p.1 = d).map Prod.snd

theorem blobs_subset_put (io : MemoryIo) (b : Bytes) : io.blobs ⊆ (io.put b).blobs := by
  unfold put
  split_ifs
  · exact List.Subset.refl _
  · exact List.subset_cons_self _ _

theorem mem_put (io : MemoryIo) (b : Bytes) : (memoryDigest b, b) ∈ (io.put b).blobs := by
  unfold put
  split_ifs with h
  · exact h
  · exact List.mem_cons_self

end MemoryIo

def memoryBlockset : Blockset where
  State := Bytes
  Io := MemoryIo
  Fsa := MemoryIo
  stateDefault := []
  new io := io
  drop f := f
  pushBytes st d f := (st ++ d, f)
  stateEnd st f := ((memoryDigest st).push 0, f.put st)
  fsaEnd d f := (d.pop, f)
  pushAll b f := (memoryDigest b, f.put b)
  takeIoError f := (false, f)
  fileStorageGet io d := io.get d

theorem memoryBlockset_noIoErrors : memoryBlockset.NoIoErrors := fun _ => rfl

def memoryLaws : memoryBlockset.Laws where
  digest := memoryDigest
  content st := st
  stored io := { b | (memoryDigest b, b) ∈ io.blobs }
  backed _ _ := True
  le a b := a.blobs ⊆ b.blobs
  le_refl _ := List.Subset.refl _
  le_trans h₁ h₂ := List.Subset.trans h₁ h₂
  stored_mono h _ hb := h hb
  backed_mono _ _ := trivial
  le_new _ := List.Subset.refl _
  le_pushBytes _ _ _ := List.Subset.refl _
  le_stateEnd st f := f.blobs_subset_put st
  le_fsaEnd _ _ := List.Subset.refl _
  le_pushAll b f := f.blobs_subset_put b
  le_takeIoError _ := List.Subset.refl _
  content_default := rfl
  content_pushBytes _ _ _ := rfl
  backed_default _ := trivial
  backed_pushBytes _ _ := trivial
  digest_end st f := Vector.pop_push
  stored_end _ _ := MemoryIo.mem_put _ _
  digest_pushAll _ _ := rfl
  stored_pushAll _ := MemoryIo.mem_put _ _
  get_stored := by
    intro io b hinj hb
    have hfind : (io.blobs.find? fun p => p.1 = memoryDigest b) = some (memoryDigest b, b) := by
      obtain ⟨p, hp⟩ : ∃ p, (io.blobs.find? fun p => p.1 = memoryDigest b) = some p := by
        rw [← Option.isSome_iff_exists, List.find?_isSome]
        exact ⟨_, hb, by simp⟩
      have hmem := List.mem_of_find?_eq_some hp
      have hkey : p.1 = memoryDigest b := by simpa using List.find?_some hp
      have hdig := io.keyed p hmem
      have hpb : p.2 = b := by
        apply hinj _ hb (hdig.symm.trans hkey)
        show (memoryDigest p.2, p.2) ∈ io.blobs
        rw [← hdig]
        exact hmem
      rw [hp, ← hpb, ← hdig]
    show (io.blobs.find? _).map Prod.snd = some b
    rw [hfind]
    rfl

/-- Distinct digests in the list are distinct digests of the stored blobs. -/
theorem memoryLaws_noCollision {io : MemoryIo} (h : (io.blobs.map Prod.fst).Nodup) :
    memoryLaws.NoCollision io := by
  intro a ha b hb hab
  have ha' : (memoryDigest a, a) ∈ io.blobs := ha
  have hb' : (memoryDigest b, b) ∈ io.blobs := hb
  have heq : memoryDigest a = memoryDigest b := hab
  rw [heq] at ha'
  exact congrArg Prod.snd (List.inj_on_of_nodup_map h ha' hb' rfl)

end SliceFs
