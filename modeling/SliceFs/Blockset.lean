import SliceFs.LittleEndian
import SliceFs.ProgramLogic

/-!
# The content-addressed store

File contents and metadata records are kept by the `blockset` crate, which is not
part of the repository. Its interface is a parameter here: the Merkle accumulator
`State`, the backend `Io`, the writer `FileStorageAdd` that borrows an `Io` and
flushes when it is dropped, and `file_storage_get`. What the repository's
documents promise of it is the structure `Laws`.

A digest has 224 bits, so no digest function is injective. The assumption made
instead is that no two blobs stored in the backend have the same digest; as the
backend only gains blobs, it is inherited by every earlier backend.
-/
namespace SliceFs
open ProgramLogic

abbrev Bytes := LittleEndian.Bytes

abbrev Digest224 := Vector UInt32 7

abbrev Digest256 := Vector UInt32 8

instance transOrd_digest224 : Std.TransOrd Digest224 := Vector.instTransOrd

instance lawfulBEq_digest224 : LawfulBEq Digest224 := inferInstance

structure Blockset where
  State : Type
  Io : Type
  /-- `FileStorageAdd`, from `new` to `drop`. -/
  Fsa : Type
  stateDefault : State
  new : Io → Fsa
  drop : Fsa → Io
  pushBytes : State → Bytes → Fsa → State × Fsa
  stateEnd : State → Fsa → Digest256 × Fsa
  fsaEnd : Digest256 → Fsa → Digest224 × Fsa
  pushAll : Bytes → Fsa → Digest224 × Fsa
  /-- Whether an error was recorded; the error itself is only printed. -/
  takeIoError : Fsa → Bool × Fsa
  fileStorageGet : Io → Digest224 → Option Bytes

namespace Blockset
variable (B : Blockset) {ε α : Type}

/-- A step of the writer as a program. -/
def step (f : B.Fsa → α × B.Fsa) : Prog B.Fsa ε α := fun s => (.ok (f s).1, (f s).2)

/-- `let d256 = state.end(&mut fsa); fsa.end(&d256)` -/
def finish (st : B.State) : Prog B.Fsa ε Digest224 := do
  let d256 ← B.step (B.stateEnd st)
  B.step (B.fsaEnd d256)

/-- The programs that borrow the backend for a writer and drop it at the end. -/
def withFsa (m : Prog B.Fsa ε α) : Prog B.Io ε α :=
  Prog.zoom B.new (fun f _ => B.drop f) m

def get (d : Digest224) : Prog B.Io ε (Option Bytes) :=
  Prog.read fun io => B.fileStorageGet io d

instance neverFails_withFsa {m : Prog B.Fsa ε α} [h : NeverFails m] : NeverFails (B.withFsa m) :=
  ⟨fun s e => h.ne_error (B.new s) e⟩

instance neverFails_step (f : B.Fsa → α × B.Fsa) : NeverFails (B.step f : Prog B.Fsa ε α) :=
  ⟨fun _ _ => nofun⟩

/-- No write to the backend fails. -/
def NoIoErrors : Prop := ∀ f, (B.takeIoError f).1 = false

/-- The documented behaviour of the store, with its meaning: `content` is what was
pushed into an accumulator, `stored` what a backend can return, and an accumulator is
`backed` by a backend that holds its nodes. -/
structure Laws where
  digest : Bytes → Digest224
  content : B.State → Bytes
  stored : B.Io → Set Bytes
  backed : B.Io → B.State → Prop
  le : B.Io → B.Io → Prop
  le_refl : ∀ io, le io io
  le_trans : ∀ {a b c}, le a b → le b c → le a c
  stored_mono : ∀ {a b}, le a b → stored a ⊆ stored b
  backed_mono : ∀ {a b st}, le a b → backed a st → backed b st
  le_new : ∀ io, le io (B.drop (B.new io))
  le_pushBytes : ∀ st d f, le (B.drop f) (B.drop (B.pushBytes st d f).2)
  le_stateEnd : ∀ st f, le (B.drop f) (B.drop (B.stateEnd st f).2)
  le_fsaEnd : ∀ d f, le (B.drop f) (B.drop (B.fsaEnd d f).2)
  le_pushAll : ∀ b f, le (B.drop f) (B.drop (B.pushAll b f).2)
  le_takeIoError : ∀ f, le (B.drop f) (B.drop (B.takeIoError f).2)
  content_default : content B.stateDefault = []
  content_pushBytes : ∀ st d f, content (B.pushBytes st d f).1 = content st ++ d
  backed_default : ∀ io, backed io B.stateDefault
  backed_pushBytes : ∀ {st d f}, (B.takeIoError (B.pushBytes st d f).2).1 = false →
    backed (B.drop f) st → backed (B.drop (B.pushBytes st d f).2) (B.pushBytes st d f).1
  digest_end : ∀ st f, (B.fsaEnd (B.stateEnd st f).1 (B.stateEnd st f).2).1 = digest (content st)
  stored_end : ∀ {st f},
    (B.takeIoError (B.fsaEnd (B.stateEnd st f).1 (B.stateEnd st f).2).2).1 = false →
    backed (B.drop f) st →
    content st ∈ stored (B.drop (B.fsaEnd (B.stateEnd st f).1 (B.stateEnd st f).2).2)
  digest_pushAll : ∀ b f, (B.pushAll b f).1 = digest b
  stored_pushAll : ∀ {b f}, (B.takeIoError (B.pushAll b f).2).1 = false →
    b ∈ stored (B.drop (B.pushAll b f).2)
  get_stored : ∀ {io b}, Set.InjOn digest (stored io) → b ∈ stored io →
    B.fileStorageGet io (digest b) = some b

namespace Laws
variable {B} (L : B.Laws)

/-- No two blobs of the backend have one digest. -/
def NoCollision (io : B.Io) : Prop := Set.InjOn L.digest (L.stored io)

theorem NoCollision.of_le {L : B.Laws} {a b : B.Io} (h : L.NoCollision b) (hle : L.le a b) :
    L.NoCollision a :=
  h.mono (L.stored_mono hle)

/-- The backend gains blobs and has no collision. -/
def growth : Growth B.Io where
  le := L.le
  good := L.NoCollision
  le_refl := L.le_refl
  le_trans := L.le_trans
  good_of_le hle h := h.of_le hle

/-- A writer grows as the backend it would leave behind if dropped. -/
def growthFsa : Growth B.Fsa := L.growth.comap B.drop

theorem part_withFsa : L.growth.Part L.growthFsa B.new (fun f _ => B.drop f) where
  le_set h := L.le_trans (L.le_new _) h
  good_set h := h

instance growing_step_pushBytes (st : B.State) (d : Bytes) :
    Growing L.growthFsa (B.step (B.pushBytes st d) : Prog B.Fsa ε B.State) :=
  ⟨L.le_pushBytes st d⟩

instance growing_step_stateEnd (st : B.State) :
    Growing L.growthFsa (B.step (B.stateEnd st) : Prog B.Fsa ε Digest256) :=
  ⟨L.le_stateEnd st⟩

instance growing_step_fsaEnd (d : Digest256) :
    Growing L.growthFsa (B.step (B.fsaEnd d) : Prog B.Fsa ε Digest224) :=
  ⟨L.le_fsaEnd d⟩

instance growing_step_pushAll (b : Bytes) :
    Growing L.growthFsa (B.step (B.pushAll b) : Prog B.Fsa ε Digest224) :=
  ⟨L.le_pushAll b⟩

instance growing_step_takeIoError :
    Growing L.growthFsa (B.step B.takeIoError : Prog B.Fsa ε Bool) :=
  ⟨L.le_takeIoError⟩

instance growing_finish (st : B.State) :
    Growing L.growthFsa (B.finish st : Prog B.Fsa ε Digest224) := by
  unfold finish
  infer_instance

instance growing_withFsa {m : Prog B.Fsa ε α} [h : Growing L.growthFsa m] :
    Growing L.growth (B.withFsa m) :=
  growing_zoom L.part_withFsa h

instance growing_get (d : Digest224) :
    Growing L.growth (B.get d : Prog B.Io ε (Option Bytes)) :=
  growing_read _

/-- What is pushed can be read back, and errors are reported only by a backend on which the
laws are silent anyway. -/
structure Reliable : Prop where
  stored_pushAll : ∀ b f, b ∈ L.stored (B.drop (B.pushAll b f).2)
  stored_end : ∀ {st f}, L.backed (B.drop f) st →
    L.content st ∈ L.stored (B.drop (B.fsaEnd (B.stateEnd st f).1 (B.stateEnd st f).2).2)
  backed_pushBytes : ∀ {st d f}, L.backed (B.drop f) st →
    L.backed (B.drop (B.pushBytes st d f).2) (B.pushBytes st d f).1
  quiet : ∀ {f}, L.NoCollision (B.drop f) → (B.takeIoError f).1 = false

/-- Pushing a whole blob gives its digest and leaves it in the backend. -/
theorem step_pushAll_eq (hB : L.Reliable) (b : Bytes) (f : B.Fsa) :
    ∃ f', B.step (B.pushAll b) f = ((.ok (L.digest b), f') : Except (Fault ε) _ × _) ∧
      L.le (B.drop f) (B.drop f') ∧ b ∈ L.stored (B.drop f') :=
  ⟨_, by rw [step, L.digest_pushAll], L.le_pushAll b f, hB.stored_pushAll b f⟩

/-- Finishing a backed accumulator gives the digest of its content and leaves the
content in the backend. -/
theorem finish_eq (hB : L.Reliable) {st : B.State} {f : B.Fsa}
    (h : L.backed (B.drop f) st) :
    ∃ f', B.finish st f = ((.ok (L.digest (L.content st)), f') : Except (Fault ε) _ × _) ∧
      L.le (B.drop f) (B.drop f') ∧ L.content st ∈ L.stored (B.drop f') := by
  refine ⟨(B.fsaEnd (B.stateEnd st f).1 (B.stateEnd st f).2).2, ?_, ?_, ?_⟩
  · rw [← L.digest_end st f]
    rfl
  · exact L.le_trans (L.le_stateEnd st f) (L.le_fsaEnd _ _)
  · exact hB.stored_end h

theorem step_pushBytes_eq (hB : L.Reliable) {st : B.State} {f : B.Fsa} (d : Bytes)
    (h : L.backed (B.drop f) st) :
    ∃ st' f', B.step (B.pushBytes st d) f = ((.ok st', f') : Except (Fault ε) _ × _) ∧
      L.le (B.drop f) (B.drop f') ∧ L.content st' = L.content st ++ d ∧
      L.backed (B.drop f') st' :=
  ⟨_, _, rfl, L.le_pushBytes st d f, L.content_pushBytes st d f, hB.backed_pushBytes h⟩

theorem get_apply {io : B.Io} {b : Bytes} (hc : L.NoCollision io) (hb : b ∈ L.stored io) :
    B.get (L.digest b) io = ((.ok (some b), io) : Except (Fault ε) _ × _) := by
  rw [get, Prog.read_apply, L.get_stored hc hb]

end Laws

theorem NoIoErrors.reliable {B : Blockset} (hB : B.NoIoErrors) (L : B.Laws) : L.Reliable where
  stored_pushAll _ _ := L.stored_pushAll (hB _)
  stored_end h := L.stored_end (hB _) h
  backed_pushBytes h := L.backed_pushBytes (hB _) h
  quiet _ := hB _

end Blockset

end SliceFs
