import SliceFs.Chunking

/-!
# Compressed blocks

A block is stored as one tag byte and a payload. The tag says how the payload was made:
by an algorithm, or verbatim when the algorithm did not make it smaller or failed. The
compression libraries are parameters.
-/
namespace SliceFs

inductive AlgorithmId where
  | none | zstd | lz4 | raw
deriving DecidableEq, Repr

namespace AlgorithmId

def toU8 : AlgorithmId → UInt8
  | none => 0x00
  | zstd => 0x01
  | lz4 => 0x02
  | raw => 0x03

def fromU8 (v : UInt8) : Option AlgorithmId :=
  if v = 0x00 then some none
  else if v = 0x01 then some zstd
  else if v = 0x02 then some lz4
  else if v = 0x03 then some raw
  else Option.none

/-- The name in error messages. -/
def name : AlgorithmId → String
  | none => "None"
  | zstd => "Zstd"
  | lz4 => "Lz4"
  | raw => "Raw"

@[simp] theorem fromU8_toU8 (a : AlgorithmId) : fromU8 a.toU8 = some a := by
  cases a <;> rfl

end AlgorithmId

inductive CompressorError where
  | compress (message : String)
  | decompress (message : String)
deriving DecidableEq, Repr

/-- The functions of the compression libraries, with their error messages. -/
structure CompressionLibs where
  zstdEncodeAll : Bytes → Int32 → Except String Bytes
  zstdDecode : Bytes → Except String Bytes
  lz4CompressPrependSize : Bytes → Bytes
  lz4DecompressSizePrepended : Bytes → Except String Bytes

/-- The decoders invert the encoders where these succeed. -/
structure CompressionLibs.Laws (libs : CompressionLibs) : Prop where
  zstd : ∀ (input : Bytes) (level : Int32) (output : Bytes),
    libs.zstdEncodeAll input level = .ok output → libs.zstdDecode output = .ok input
  lz4 : ∀ input : Bytes,
    libs.lz4DecompressSizePrepended (libs.lz4CompressPrependSize input) = .ok input

inductive Compressor where
  | zstd (level : Int32)
  | lz4
  | none
deriving DecidableEq, Repr

namespace Compressor
variable (libs : CompressionLibs)

/-- What an algorithm made of an input, or the input itself if that is not longer. -/
def smaller (algo : AlgorithmId) (input compressed : Bytes) : AlgorithmId × Bytes :=
  if compressed.length ≥ input.length then (.raw, input) else (algo, compressed)

def compress (c : Compressor) (input : Bytes) : Except CompressorError (AlgorithmId × Bytes) :=
  match c with
  | zstd level =>
      if input = [] then .ok (.raw, [])
      else
        match libs.zstdEncodeAll input level with
        | .error e => .error (.compress e)
        | .ok compressed => .ok (smaller .zstd input compressed)
  | lz4 =>
      if input = [] then .ok (.raw, [])
      else .ok (smaller .lz4 input (libs.lz4CompressPrependSize input))
  | none => .ok (.none, input)

/-- The name in error messages. -/
def name : Compressor → String
  | zstd _ => "ZstdCompressor"
  | lz4 => "Lz4Compressor"
  | none => "NoneCompressor"

/-- The answer to data of another algorithm. -/
def refuse (c : Compressor) (algorithm : AlgorithmId) : CompressorError :=
  .decompress (c.name ++ " cannot decompress " ++ algorithm.name ++ " data")

def decompress (c : Compressor) (algorithm : AlgorithmId) (input : Bytes) :
    Except CompressorError Bytes :=
  match c, algorithm with
  | _, .raw => .ok input
  | _, .none => .ok input
  | zstd _, .zstd => (libs.zstdDecode input).mapError .decompress
  | lz4, .lz4 => (libs.lz4DecompressSizePrepended input).mapError .decompress
  | c, other => .error (c.refuse other)

end Compressor

variable (libs : CompressionLibs)

def compressBlock (c : Compressor) (raw : Bytes) : Bytes :=
  match c.compress libs raw with
  | .ok (algo, payload) => algo.toU8 :: payload
  | .error _ => AlgorithmId.raw.toU8 :: raw

def decompressBlock (c : Compressor) : Bytes → Except CompressorError Bytes
  | [] => .ok []
  | tag :: payload =>
      match AlgorithmId.fromU8 tag with
      | none => .error (.decompress ("unknown algorithm id: 0x" ++ String.ofList (hexByte tag)))
      | some algo => c.decompress libs algo payload

variable {libs}

theorem Compressor.decompress_raw (c : Compressor) (input : Bytes) :
    c.decompress libs .raw input = .ok input := by
  cases c <;> rfl

/-- What a tag and a payload must be to stand for an input. -/
def Compressor.Encodes (libs : CompressionLibs) (c : Compressor) (input : Bytes)
    (r : AlgorithmId × Bytes) : Prop :=
  c.decompress libs r.1 r.2 = .ok input ∧ r.2.length ≤ input.length

theorem Compressor.encodes_raw (c : Compressor) (input : Bytes) :
    c.Encodes libs input (.raw, input) :=
  ⟨c.decompress_raw input, Nat.le_refl _⟩

theorem Compressor.encodes_smaller {c : Compressor} {algo : AlgorithmId} {input compressed : Bytes}
    (h : c.decompress libs algo compressed = .ok input) :
    c.Encodes libs input (smaller algo input compressed) := by
  unfold smaller
  split_ifs with hle
  · exact c.encodes_raw input
  · exact ⟨h, Nat.le_of_lt (Nat.lt_of_not_le hle)⟩

/-- Whatever tag a compressor chooses, it reads it back. -/
theorem Compressor.encodes_compress (hlibs : libs.Laws) {c : Compressor} {input : Bytes}
    {r : AlgorithmId × Bytes} (h : c.compress libs input = .ok r) : c.Encodes libs input r := by
  cases c with
  | zstd level =>
      by_cases hnil : input = []
      · simp only [compress, hnil, if_true] at h
        obtain rfl := Except.ok.inj h
        rw [hnil]
        exact encodes_raw _ _
      · cases hzstd : libs.zstdEncodeAll input level with
        | error e => simp [compress, hnil, hzstd] at h
        | ok compressed =>
            simp only [compress, hnil, if_false, hzstd] at h
            obtain rfl := Except.ok.inj h
            refine encodes_smaller ?_
            show (libs.zstdDecode compressed).mapError _ = _
            rw [hlibs.zstd input level compressed hzstd]
            rfl
  | lz4 =>
      by_cases hnil : input = []
      · simp only [compress, hnil, if_true] at h
        obtain rfl := Except.ok.inj h
        rw [hnil]
        exact encodes_raw _ _
      · simp only [compress, hnil, if_false] at h
        obtain rfl := Except.ok.inj h
        refine encodes_smaller ?_
        show (libs.lz4DecompressSizePrepended _).mapError _ = _
        rw [hlibs.lz4 input]
        rfl
  | none =>
      obtain rfl := Except.ok.inj h
      exact ⟨rfl, Nat.le_refl _⟩

/-- A stored block reads back as the input and is at most one byte longer. -/
theorem decompressBlock_compressBlock (hlibs : libs.Laws) (c : Compressor) (input : Bytes) :
    decompressBlock libs c (compressBlock libs c input) = .ok input ∧
      (compressBlock libs c input).length ≤ input.length + 1 := by
  have hwire : ∃ r : AlgorithmId × Bytes, compressBlock libs c input = r.1.toU8 :: r.2 ∧
      c.Encodes libs input r := by
    unfold compressBlock
    cases hrun : c.compress libs input with
    | error e => exact ⟨(.raw, input), rfl, c.encodes_raw input⟩
    | ok r => exact ⟨r, rfl, Compressor.encodes_compress hlibs hrun⟩
  obtain ⟨r, hr, hread, hlen⟩ := hwire
  rw [hr]
  refine ⟨?_, Nat.succ_le_succ hlen⟩
  simp only [decompressBlock, AlgorithmId.fromU8_toU8]
  exact hread

def sevens : Bytes := List.replicate 40 7

/-- The frame that zstd makes of it: a block of two literals and a match of the other 38. -/
def sevensFrame : Bytes :=
  [0x28, 0xB5, 0x2F, 0xFD, 0x00, 0x58, 0x45, 0x00, 0x00, 0x10, 7, 7, 0x01, 0x00, 0x1F, 0x80, 0x05]

/-- Libraries that know one word. -/
def wordLibs : CompressionLibs where
  zstdEncodeAll input _ := if input = sevens then .ok sevensFrame else .error "no such word"
  zstdDecode output := if output = sevensFrame then .ok sevens else .error "unknown word"
  lz4CompressPrependSize input := 0 :: input
  lz4DecompressSizePrepended output := .ok output.tail

theorem wordLibs_laws : wordLibs.Laws where
  zstd input level output h := by
    by_cases hword : input = sevens
    · simp only [wordLibs, hword, if_true] at h ⊢
      rw [← Except.ok.inj h]
      rfl
    · simp [wordLibs, hword] at h
  lz4 _ := rfl

theorem decompressBlock_compressBlock_word :
    compressBlock wordLibs (.zstd 3) sevens = 1 :: sevensFrame ∧
    decompressBlock wordLibs (.zstd 3) (compressBlock wordLibs (.zstd 3) sevens) = .ok sevens :=
  ⟨by decide, (decompressBlock_compressBlock wordLibs_laws (.zstd 3) sevens).1⟩

end SliceFs
