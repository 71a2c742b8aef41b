import SliceFs.MemoryBackend

/-!
# Writes of node files

A content is kept in files, and a backend writes them one by one: while bytes are pushed,
at the end of an accumulator, or when a writer is dropped. Any of these writes may fail. A
backend can read a content back when a write of each of its files succeeded, at whatever
time; a write that fails leaves the file as it was.

The backend in memory whose writes fail by a list of outcomes is an instance.
-/
namespace SliceFs
open ProgramLogic

/-- There are more contents than digests. -/
theorem not_injective_digest (digest : Bytes → Digest224) : ¬ Function.Injective digest := by
  have hwords : Function.Injective fun (d : Digest224) (k : Fin 7) => (d.get k).toBitVec := by
    intro d e h
    ext k hk
    exact congrArg BitVec.toNat (congrFun h ⟨k, hk⟩)
  have : Finite Digest224 := Finite.of_injective _ hwords
  exact not_injective_infinite_finite digest

/-- The files that were written at some time, whatever came of it. -/
def triedIn {Node : Type} (writes : Set (Node × Bool)) : Set Node := { n | ∃ ok, (n, ok) ∈ writes }

/-- The contents of which all files were written with success. -/
def storedIn {Node : Type} (nodes : Bytes → Set Node) (writes : Set (Node × Bool)) : Set Bytes :=
  { b | ∀ n ∈ nodes b, (n, true) ∈ writes }

/-- The files of a backend: `nodes` are those of a content, `inner` those that the pushes
into an accumulator took care of, and `writes` are the writes so far with their outcomes.
A writer is `given` files that it writes at once or when it is dropped. -/
structure Blockset.Nodes (B : Blockset) where
  Node : Type
  digest : Bytes → Digest224
  content : B.State → Bytes
  nodes : Bytes → Set Node
  inner : B.State → Set Node
  writes : B.Io → Set (Node × Bool)
  given : B.Fsa → Set Node
  given_new : ∀ io, triedIn (writes io) ⊆ given (B.new io)
  given_pushBytes : ∀ st d f, given f ⊆ given (B.pushBytes st d f).2
  given_stateEnd : ∀ st f, given f ⊆ given (B.stateEnd st f).2
  given_fsaEnd : ∀ d f, given f ⊆ given (B.fsaEnd d f).2
  given_pushAll : ∀ b f, given f ⊆ given (B.pushAll b f).2
  given_takeIoError : ∀ f, given f ⊆ given (B.takeIoError f).2
  tried_drop : ∀ f, given f ⊆ triedIn (writes (B.drop f))
  content_default : content B.stateDefault = []
  content_pushBytes : ∀ st d f, content (B.pushBytes st d f).1 = content st ++ d
  inner_default : inner B.stateDefault = ∅
  inner_pushBytes : ∀ st d f,
    inner (B.pushBytes st d f).1 ⊆ inner st ∪ given (B.pushBytes st d f).2
  digest_end : ∀ st f, (B.fsaEnd (B.stateEnd st f).1 (B.stateEnd st f).2).1 = digest (content st)
  nodes_end : ∀ st f,
    nodes (content st) ⊆ inner st ∪ given (B.fsaEnd (B.stateEnd st f).1 (B.stateEnd st f).2).2
  digest_pushAll : ∀ b f, (B.pushAll b f).1 = digest b
  nodes_pushAll : ∀ b f, nodes b ⊆ given (B.pushAll b f).2
  get_stored : ∀ {io b}, Set.InjOn digest (storedIn nodes (writes io)) →
    b ∈ storedIn nodes (writes io) → B.fileStorageGet io (digest b) = some b
  stored_of_get : ∀ {io d b}, B.fileStorageGet io d = some b →
    digest b = d ∧ b ∈ storedIn nodes (writes io)

namespace Blockset.Nodes
variable {B : Blockset} {ε α : Type} (N : B.Nodes)

def tried (io : B.Io) : Set N.Node := triedIn (N.writes io)

def stored (io : B.Io) : Set Bytes := storedIn N.nodes (N.writes io)

/-- The contents that the backend was to store. -/
def attempted (io : B.Io) : Set Bytes := { b | N.nodes b ⊆ N.tried io }

/-- Each file of the content of which a write failed was also written with success. -/
def MadeGood (io : B.Io) (b : Bytes) : Prop :=
  ∀ n ∈ N.nodes b, (n, false) ∈ N.writes io → (n, true) ∈ N.writes io

theorem stored_subset_attempted (io : B.Io) : N.stored io ⊆ N.attempted io :=
  fun _ hb n hn => ⟨true, hb n hn⟩

/-- Of a content that was to be stored, the failed writes decide whether it is. -/
theorem madeGood_iff {io : B.Io} {b : Bytes} (h : b ∈ N.attempted io) :
    N.MadeGood io b ↔ b ∈ N.stored io := by
  refine ⟨fun hgood n hn => ?_, fun hb n hn _ => hb n hn⟩
  obtain ⟨ok, hok⟩ := h hn
  cases ok with
  | true => exact hok
  | false => exact hgood n hn hok

/-- Among contents without a collision a digest gives its content or nothing. -/
theorem get_digest_iff {io : B.Io} {b c : Bytes} (hc : Set.InjOn N.digest (N.attempted io))
    (hb : b ∈ N.attempted io) :
    B.fileStorageGet io (N.digest b) = some c ↔ c = b ∧ N.MadeGood io b := by
  have hsub := N.stored_subset_attempted io
  rw [N.madeGood_iff hb]
  constructor
  · intro hget
    obtain ⟨hdigest, hstored⟩ := N.stored_of_get hget
    obtain rfl := hc (hsub hstored) hb hdigest
    exact ⟨rfl, hstored⟩
  · rintro ⟨rfl, hstored⟩
    exact N.get_stored (hc.mono hsub) hstored

/-- What holds of the backend without a promise that anything can be read back. -/
def laws : B.Laws where
  digest := N.digest
  content := N.content
  stored _ := Set.univ
  backed _ _ := True
  le _ _ := True
  le_refl _ := trivial
  le_trans _ _ := trivial
  stored_mono _ := Set.Subset.rfl
  backed_mono _ _ := trivial
  le_new _ := trivial
  le_pushBytes _ _ _ := trivial
  le_stateEnd _ _ := trivial
  le_fsaEnd _ _ := trivial
  le_pushAll _ _ := trivial
  le_takeIoError _ := trivial
  content_default := N.content_default
  content_pushBytes := N.content_pushBytes
  backed_default _ := trivial
  backed_pushBytes _ _ := trivial
  digest_end := N.digest_end
  stored_end _ _ := Set.mem_univ _
  digest_pushAll := N.digest_pushAll
  stored_pushAll _ := Set.mem_univ _
  get_stored hinj _ := (not_injective_digest N.digest (Set.injOn_univ.mp hinj)).elim

/-- A backend tries more and more files. -/
def growth : Growth B.Io where
  le a b := N.tried a ⊆ N.tried b
  good _ := True
  le_refl _ := Set.Subset.rfl
  le_trans := Set.Subset.trans
  good_of_le _ _ := trivial

/-- A writer is given more and more files. -/
def growthFsa : Growth B.Fsa where
  le a b := N.given a ⊆ N.given b
  good _ := True
  le_refl _ := Set.Subset.rfl
  le_trans := Set.Subset.trans
  good_of_le _ _ := trivial

theorem part_withFsa : N.growth.Part N.growthFsa B.new (fun f _ => B.drop f) where
  le_set h := (N.given_new _).trans (Set.Subset.trans h (N.tried_drop _))
  good_set _ := trivial

instance nodes_step_pushBytes (st : B.State) (d : Bytes) :
    Growing N.growthFsa (B.step (B.pushBytes st d) : Prog B.Fsa ε B.State) :=
  ⟨N.given_pushBytes st d⟩

instance nodes_step_pushAll (b : Bytes) :
    Growing N.growthFsa (B.step (B.pushAll b) : Prog B.Fsa ε Digest224) :=
  ⟨N.given_pushAll b⟩

instance nodes_step_takeIoError :
    Growing N.growthFsa (B.step B.takeIoError : Prog B.Fsa ε Bool) :=
  ⟨N.given_takeIoError⟩

instance nodes_finish (st : B.State) :
    Growing N.growthFsa (B.finish st : Prog B.Fsa ε Digest224) :=
  ⟨fun f => (N.given_stateEnd st f).trans (N.given_fsaEnd _ _)⟩

instance nodes_withFsa {m : Prog B.Fsa ε α} [h : Growing N.growthFsa m] :
    Growing N.growth (B.withFsa m) :=
  growing_zoom N.part_withFsa h

instance nodes_get (d : Digest224) : Growing N.growth (B.get d : Prog B.Io ε (Option Bytes)) :=
  growing_read _

end Blockset.Nodes

/-- The files of a backend in memory: one for what was pushed so far, one for a content. -/
inductive NodeFile where
  | part (b : Bytes)
  | whole (b : Bytes)
deriving DecidableEq

/-- The files of a content; nothing is pushed of an empty one. -/
def NodeFile.ofContent (b : Bytes) : List NodeFile :=
  if b = [] then [.whole b] else [.part b, .whole b]

/-- A backend in memory: the outcomes of the coming writes, after which all succeed, and the
writes so far, the latest first. -/
structure FaultyIo where
  faults : List Bool
  writes : List (NodeFile × Bool)

namespace FaultyIo

/-- A write with the next outcome. -/
def write (io : FaultyIo) (n : NodeFile) : FaultyIo :=
  ⟨io.faults.tail, (n, !io.faults.headD false) :: io.writes⟩

/-- The content of a write, if it was the last one that the content lacked. -/
def contentOf (io : FaultyIo) (d : Digest224) : NodeFile × Bool → Option Bytes
  | (.whole b, _) =>
    if memoryDigest b = d ∧ ∀ n ∈ NodeFile.ofContent b, (n, true) ∈ io.writes then some b else none
  | (.part _, _) => none

def get (io : FaultyIo) (d : Digest224) : Option Bytes := io.writes.findSome? (io.contentOf d)

theorem contentOf_eq_some {io : FaultyIo} {d : Digest224} {w : NodeFile × Bool} {b : Bytes}
    (h : io.contentOf d w = some b) :
    memoryDigest b = d ∧ ∀ n ∈ NodeFile.ofContent b, (n, true) ∈ io.writes := by
  obtain ⟨n, ok⟩ := w
  cases n with
  | part c => cases h
  | whole c =>
      rw [contentOf] at h
      split_ifs at h with hif
      rwa [← Option.some.inj h]

theorem get_eq_some {io : FaultyIo} {d : Digest224} {b : Bytes} (h : io.get d = some b) :
    memoryDigest b = d ∧ ∀ n ∈ NodeFile.ofContent b, (n, true) ∈ io.writes := by
  obtain ⟨w, -, hw⟩ := List.exists_of_findSome?_eq_some h
  exact contentOf_eq_some hw

theorem isSome_get {io : FaultyIo} {b : Bytes}
    (h : ∀ n ∈ NodeFile.ofContent b, (n, true) ∈ io.writes) : (io.get (memoryDigest b)).isSome := by
  have hwhole : NodeFile.whole b ∈ NodeFile.ofContent b := by
    unfold NodeFile.ofContent
    split_ifs <;> simp
  rw [get, List.findSome?_isSome_iff]
  exact ⟨_, h _ hwhole, by rw [contentOf, if_pos ⟨rfl, h⟩]; rfl⟩

end FaultyIo

/-- A writer remembers that a write failed. -/
structure FaultyFsa where
  io : FaultyIo
  failed : Bool

namespace FaultyFsa

def write (f : FaultyFsa) (n : NodeFile) : FaultyFsa :=
  ⟨f.io.write n, f.failed || f.io.faults.headD false⟩

theorem subset_write (f : FaultyFsa) (n : NodeFile) : f.io.writes ⊆ (f.write n).io.writes :=
  List.subset_cons_self _ _

theorem mem_write {f : FaultyFsa} {n : NodeFile} (h : (f.write n).failed = false) :
    (n, true) ∈ (f.write n).io.writes := by
  have hok := (Bool.or_eq_false_iff.mp h).2
  show (n, true) ∈ (n, !f.io.faults.headD false) :: f.io.writes
  rw [hok]
  exact List.mem_cons_self

theorem failed_of_write {f : FaultyFsa} {n : NodeFile} (h : (f.write n).failed = false) :
    f.failed = false :=
  (Bool.or_eq_false_iff.mp h).1

end FaultyFsa

/-- Pushing bytes writes the file of what was pushed so far, the end of an accumulator that
of the content. -/
def faultyBlockset : Blockset where
  State := Bytes
  Io := FaultyIo
  Fsa := FaultyFsa
  stateDefault := []
  new io := ⟨io, false⟩
  drop f := f.io
  pushBytes st d f := (st ++ d, f.write (.part (st ++ d)))
  stateEnd st f := ((memoryDigest st).push 0, f.write (.whole st))
  fsaEnd d f := (d.pop, f)
  pushAll b f := (memoryDigest b, (f.write (.part b)).write (.whole b))
  takeIoError f := (f.failed, { f with failed := false })
  fileStorageGet io d := io.get d

theorem mem_ofContent {b : Bytes} {n : NodeFile} (h : n ∈ NodeFile.ofContent b) :
    n = .whole b ∨ n = .part b ∧ b ≠ [] := by
  unfold NodeFile.ofContent at h
  split_ifs at h with hnil
  · exact .inl (List.mem_singleton.mp h)
  · rcases List.mem_cons.mp h with rfl | h
    · exact .inr ⟨rfl, hnil⟩
    · exact .inl (List.mem_singleton.mp h)

def faultyNodes : faultyBlockset.Nodes where
  Node := NodeFile
  digest := memoryDigest
  content st := st
  nodes b := { n | n ∈ NodeFile.ofContent b }
  inner st := { n | n = .part st ∧ st ≠ [] }
  writes io := { w | w ∈ io.writes }
  given f := { n | ∃ ok, (n, ok) ∈ f.io.writes }
  given_new _ := Set.Subset.rfl
  given_pushBytes _ _ f := fun _ ⟨ok, h⟩ => ⟨ok, f.subset_write _ h⟩
  given_stateEnd _ f := fun _ ⟨ok, h⟩ => ⟨ok, f.subset_write _ h⟩
  given_fsaEnd _ _ := Set.Subset.rfl
  given_pushAll _ f := fun _ ⟨ok, h⟩ =>
    ⟨ok, (f.write _).subset_write _ (f.subset_write _ h)⟩
  given_takeIoError _ := Set.Subset.rfl
  tried_drop _ := Set.Subset.rfl
  content_default := rfl
  content_pushBytes _ _ _ := rfl
  inner_default := Set.eq_empty_of_forall_notMem fun _ h => h.2 rfl
  inner_pushBytes _ _ _ := by
    rintro n ⟨rfl, -⟩
    exact .inr ⟨_, List.mem_cons_self⟩
  digest_end _ _ := Vector.pop_push
  nodes_end st f := by
    intro n hn
    rcases mem_ofContent hn with rfl | hpart
    · exact .inr ⟨_, List.mem_cons_self⟩
    · exact .inl hpart
  digest_pushAll _ _ := rfl
  nodes_pushAll b f := by
    intro n hn
    rcases mem_ofContent hn with rfl | ⟨rfl, -⟩
    · exact ⟨_, List.mem_cons_self⟩
    · exact ⟨_, List.mem_cons_of_mem _ List.mem_cons_self⟩
  get_stored {io b} hinj hb := by
    obtain ⟨c, hc⟩ := Option.isSome_iff_exists.mp (FaultyIo.isSome_get hb)
    obtain ⟨hdigest, hstored⟩ := FaultyIo.get_eq_some hc
    have hsame : c = b := hinj hstored hb hdigest
    rw [← hsame] at hc ⊢
    exact hc
  stored_of_get := FaultyIo.get_eq_some

/-- The contents whose files a backend was to write. -/
def FaultyIo.contents (io : FaultyIo) : List Bytes :=
  io.writes.filterMap fun w => match w.1 with
    | .whole b => some b
    | .part _ => none

/-- An error that is reported and a file that is not written are the same here. -/
def faultyLaws : faultyBlockset.Laws where
  digest := memoryDigest
  content st := st
  stored := faultyNodes.stored
  backed io st := ∀ n ∈ faultyNodes.inner st, (n, true) ∈ io.writes
  le a b := a.writes ⊆ b.writes
  le_refl _ := List.Subset.refl _
  le_trans h₁ h₂ := List.Subset.trans h₁ h₂
  stored_mono h _ hb := fun n hn => h (hb n hn)
  backed_mono h hst := fun n hn => h (hst n hn)
  le_new _ := List.Subset.refl _
  le_pushBytes _ _ f := f.subset_write _
  le_stateEnd _ f := f.subset_write _
  le_fsaEnd _ _ := List.Subset.refl _
  le_pushAll _ f := List.Subset.trans (f.subset_write _) ((f.write _).subset_write _)
  le_takeIoError _ := List.Subset.refl _
  content_default := rfl
  content_pushBytes _ _ _ := rfl
  backed_default _ := fun _ hn => absurd rfl hn.2
  backed_pushBytes hok _ := by
    rintro n ⟨rfl, -⟩
    exact FaultyFsa.mem_write hok
  digest_end _ _ := Vector.pop_push
  stored_end {st f} hok hst := by
    intro n hn
    rcases mem_ofContent hn with rfl | hpart
    · exact FaultyFsa.mem_write hok
    · exact f.subset_write _ (hst n hpart)
  digest_pushAll _ _ := rfl
  stored_pushAll {b f} hok := by
    intro n hn
    rcases mem_ofContent hn with rfl | ⟨rfl, -⟩
    · exact FaultyFsa.mem_write hok
    · have hpart : (FaultyFsa.write f (.part b)).failed = false :=
        FaultyFsa.failed_of_write (n := .whole b) hok
      exact (FaultyFsa.write f _).subset_write _ (FaultyFsa.mem_write hpart)
  get_stored := faultyNodes.get_stored

end SliceFs
