import SliceFs.Checked
import SliceFs.Metadata
import SliceFs.PathFs

/-!
# Fixed-size chunks

A buffer is cut into blocks of one size, the last of them possibly shorter. Offsets and
sizes are 64-bit words, and the end of a block is computed before it is compared with the
end of the buffer: the sum fits in a word because a second block is only begun when the
first did not reach the end.
-/
namespace SliceFs
open ProgramLogic

/-- A content hash of any width. -/
abbrev ChunkHash := Bytes

/-- `{:02x}` of a byte. -/
def hexByte (b : UInt8) : List Char :=
  [Nat.digitChar (b.toNat / 16), Nat.digitChar (b.toNat % 16)]

inductive CasError where
  | notFound (hash : ChunkHash)
  | integrityFailure (expected actual : ChunkHash)
  | hashCollision (hash : ChunkHash)
  | io (kind : PathFs.IoErrorKind)
  | chunker (message : String)
  | index (message : String)
deriving DecidableEq, Repr

structure Chunk where
  offset : ℕ
  data : Bytes
deriving DecidableEq, Repr

/-- The block size is not zero: `new` panics there. -/
structure FixedChunker where
  blockSize : UInt64
  pos : 0 < blockSize

namespace FixedChunker

def new {ε : Type} (blockSize : UInt64) : Except (Fault ε) FixedChunker :=
  if h : blockSize > 0 then .ok ⟨blockSize, h⟩ else .error .panic

theorem blockSize_pos (c : FixedChunker) : 0 < c.blockSize.toNat := c.pos

/-- The loop of `chunk`, at an offset and with the chunks so far. -/
def chunkFrom (c : FixedChunker) (data : Bytes) (offset : ℕ) (chunks : List Chunk) :
    Except (Fault CasError) (List Chunk) :=
  if offset < data.length then
    -- the sum is computed in a word
    if offset + c.blockSize.toNat < 2 ^ 64 then
      let stop := min (offset + c.blockSize.toNat) data.length
      chunkFrom c data stop (chunks ++ [⟨offset, (data.take stop).drop offset⟩])
    else .error .panic
  else .ok chunks
termination_by data.length - offset
decreasing_by
  have := c.blockSize_pos
  omega

def chunk (c : FixedChunker) (data : Bytes) : Except (Fault CasError) (List Chunk) :=
  if data = [] then .ok [] else c.chunkFrom data 0 []

/-- The block of number `k`. -/
def block (c : FixedChunker) (data : Bytes) (k : ℕ) : Chunk :=
  ⟨k * c.blockSize.toNat, (data.drop (k * c.blockSize.toNat)).take c.blockSize.toNat⟩

/-- How many blocks there are: the length over the block size, rounded up. -/
def count (c : FixedChunker) (data : Bytes) : ℕ := data.length ⌈/⌉ c.blockSize.toNat

variable {c : FixedChunker} {data : Bytes} {k : ℕ}

theorem lt_count_iff : k < c.count data ↔ k * c.blockSize.toNat < data.length := by
  rw [count, ← not_le, ceilDiv_le_iff_le_mul c.blockSize_pos, not_le, Nat.mul_comm]

theorem length_block (c : FixedChunker) (data : Bytes) (k : ℕ) :
    (c.block data k).data.length =
      min c.blockSize.toNat (data.length - k * c.blockSize.toNat) := by
  rw [block, List.length_take, List.length_drop]

/-- A block that another one follows is full. -/
theorem length_block_of_lt (h : k + 1 < c.count data) :
    (c.block data k).data.length = c.blockSize.toNat := by
  have hlt := lt_count_iff.mp h
  rw [Nat.add_mul, Nat.one_mul] at hlt
  rw [length_block]
  omega

/-- The blocks from number `k` on are what the loop adds at their offset. -/
theorem chunkFrom_eq (hlen : data.length ≤ isizeMax) (chunks : List Chunk) (n : ℕ)
    (hn : k + n = c.count data) :
    c.chunkFrom data (min (k * c.blockSize.toNat) data.length) chunks =
      .ok (chunks ++ (List.range' k n).map (c.block data)) := by
  have hpos := c.blockSize_pos
  have hmax : isizeMax < 2 ^ 63 := by decide
  induction n generalizing k chunks with
  | zero =>
      have hend : ¬ k * c.blockSize.toNat < data.length := by
        rw [← lt_count_iff]
        omega
      rw [chunkFrom, if_neg (by omega), List.range'_zero, List.map_nil, List.append_nil]
  | succ n ih =>
      have hlt : k * c.blockSize.toNat < data.length := by
        rw [← lt_count_iff]
        omega
      -- a word holds the first sum, and any later one is below twice the length
      have hsum : k * c.blockSize.toNat + c.blockSize.toNat < 2 ^ 64 := by
        rcases Nat.eq_zero_or_pos k with rfl | hk
        · rw [Nat.zero_mul, Nat.zero_add]
          exact c.blockSize.toNat_lt
        · have hle := Nat.le_mul_of_pos_left c.blockSize.toNat hk
          omega
      have hslice : (data.take (min (k * c.blockSize.toNat + c.blockSize.toNat) data.length)).drop
          (k * c.blockSize.toNat) = (c.block data k).data := by
        rw [← List.take_eq_take_min, List.drop_take, Nat.add_sub_cancel_left]
        rfl
      have hnext := ih (chunks ++ [c.block data k]) (k := k + 1) (by omega)
      rw [Nat.add_mul, Nat.one_mul] at hnext
      rw [chunkFrom, Nat.min_eq_left (Nat.le_of_lt hlt), if_pos hlt, if_pos hsum]
      simp only [hslice]
      refine Eq.trans hnext ?_
      rw [List.range'_succ, List.map_cons, List.append_assoc]
      rfl

theorem chunk_eq (hlen : data.length ≤ isizeMax) :
    c.chunk data = .ok ((List.range (c.count data)).map (c.block data)) := by
  rw [chunk]
  split_ifs with hnil
  · have hnone : c.count data = 0 := by
      by_contra hne
      have hlt := lt_count_iff.mp (Nat.pos_of_ne_zero hne)
      rw [hnil, List.length_nil] at hlt
      omega
    rw [hnone]
    rfl
  · have hloop := chunkFrom_eq (k := 0) hlen [] (c.count data) (Nat.zero_add _)
    rw [Nat.zero_mul, Nat.zero_min, List.nil_append, ← List.range_eq_range'] at hloop
    exact hloop

/-- The first `k` blocks are the first bytes. -/
theorem flatten_blocks (c : FixedChunker) (data : Bytes) (k : ℕ) :
    (((List.range k).map (c.block data)).map Chunk.data).flatten =
      data.take (k * c.blockSize.toNat) := by
  induction k with
  | zero => simp
  | succ k ih =>
      rw [List.range_succ, List.map_append, List.map_append, List.flatten_append, ih, Nat.add_mul,
        Nat.one_mul, List.take_add]
      simp [block]

/-- The chunks are the input in order, with their offsets, all of the block size except
possibly the last, and as many as the length needs. -/
theorem chunk_partitions (c : FixedChunker) (data : Bytes) (hlen : data.length ≤ isizeMax) :
    ∃ chunks, c.chunk data = .ok chunks ∧
      (chunks.map Chunk.data).flatten = data ∧
      (∀ (k : ℕ) (x : Chunk), chunks[k]? = some x →
        x.offset = ((chunks.take k).map fun y => y.data.length).sum) ∧
      (∀ (k : ℕ) (x : Chunk), chunks[k]? = some x →
        (k + 1 < chunks.length → x.data.length = c.blockSize.toNat) ∧
        1 ≤ x.data.length ∧ x.data.length ≤ c.blockSize.toNat) ∧
      chunks.length = data.length ⌈/⌉ c.blockSize.toNat := by
  have hblock : ∀ (k : ℕ) (x : Chunk), ((List.range (c.count data)).map (c.block data))[k]? =
      some x → k < c.count data ∧ x = c.block data k := by
    intro k x hx
    rw [List.getElem?_map, Option.map_eq_some_iff] at hx
    obtain ⟨j, hj, rfl⟩ := hx
    obtain ⟨hlt, hval⟩ := List.getElem?_eq_some_iff.mp hj
    rw [List.getElem_range] at hval
    rw [List.length_range] at hlt
    exact ⟨hlt, by rw [hval]⟩
  refine ⟨_, chunk_eq hlen, ?_, ?_, ?_, ?_⟩
  · rw [flatten_blocks, List.take_of_length_le]
    exact not_lt.mp (mt lt_count_iff.mpr (Nat.lt_irrefl _))
  · intro k x hx
    obtain ⟨hk, rfl⟩ := hblock k x hx
    have hbytes := congrArg List.length (flatten_blocks c data k)
    rw [List.length_flatten, List.map_map, List.length_take,
      Nat.min_eq_left (lt_count_iff.mp hk).le] at hbytes
    rw [← List.map_take, List.take_range, Nat.min_eq_left hk.le]
    exact hbytes.symm
  · intro k x hx
    obtain ⟨hk, rfl⟩ := hblock k x hx
    rw [List.length_map, List.length_range]
    have hlt := lt_count_iff.mp hk
    have hpos := c.blockSize_pos
    refine ⟨length_block_of_lt, ?_⟩
    rw [length_block]
    omega
  · rw [List.length_map, List.length_range]
    rfl

theorem chunk_partitions_pairs :
    ∃ chunks, (FixedChunker.mk 2 (by decide)).chunk [7, 8, 9] = .ok chunks ∧
      (chunks.map Chunk.data).flatten = [7, 8, 9] ∧ chunks.length = 3 ⌈/⌉ 2 := by
  obtain ⟨chunks, hrun, hdata, -, -, hcount⟩ :=
    chunk_partitions ⟨2, by decide⟩ [7, 8, 9] (by decide)
  exact ⟨chunks, hrun, hdata, hcount⟩

end FixedChunker

end SliceFs
