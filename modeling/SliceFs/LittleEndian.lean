import Mathlib

/-!
# Little-endian words and fixed-width fields

A word of `w` bytes is written least significant byte first. Decoding accepts
any byte string, so that a reader of untrusted bytes has a meaning for every
input; the round trip in one direction needs the value to fit its width, and in
the other direction is unconditional.

The second half is about byte strings assembled from fields of one width: a
reader that takes the `i`-th field by offset finds the `i`-th encoded value.
-/
namespace LittleEndian

abbrev Bytes := List UInt8

/-- The `w` low-order bytes of `n`, least significant first. -/
def encode : ℕ → ℕ → Bytes
  | 0, _ => []
  | w + 1, n => UInt8.ofNat n :: encode w (n / 256)

def decode : Bytes → ℕ
  | [] => 0
  | b :: bs => b.toNat + 256 * decode bs

@[simp] theorem length_encode (w n : ℕ) : (encode w n).length = w := by
  induction w generalizing n with
  | zero => rfl
  | succ w ih => simp [encode, ih]

theorem decode_encode {w n : ℕ} (h : n < 256 ^ w) : decode (encode w n) = n := by
  induction w generalizing n with
  | zero => simp only [pow_zero, Nat.lt_one_iff] at h; simp [encode, decode, h]
  | succ w ih =>
      have hn : n / 256 < 256 ^ w := by
        rw [Nat.div_lt_iff_lt_mul (by decide)]
        simpa only [pow_succ] using h
      simp only [encode, decode, ih hn, UInt8.toNat_ofNat']
      omega

theorem decode_lt (bs : Bytes) : decode bs < 256 ^ bs.length := by
  induction bs with
  | nil => simp [decode]
  | cons b bs ih =>
      have hb := b.toNat_lt
      simp only [decode, List.length_cons, pow_succ]
      omega

theorem encode_decode (bs : Bytes) : encode bs.length (decode bs) = bs := by
  induction bs with
  | nil => rfl
  | cons b bs ih =>
      have hb := b.toNat_lt
      have hdiv : (b.toNat + 256 * decode bs) / 256 = decode bs := by omega
      have hmod : UInt8.ofNat (b.toNat + 256 * decode bs) = b := by
        apply UInt8.toNat_inj.mp
        rw [UInt8.toNat_ofNat']
        omega
      rw [List.length_cons, decode, encode, hdiv, hmod, ih]

/-- The unsigned 32-bit and 64-bit words of the formats below. -/
def u32Bytes (x : UInt32) : Bytes := encode 4 x.toNat

def u64Bytes (x : UInt64) : Bytes := encode 8 x.toNat

def u32OfBytes (bs : Bytes) : UInt32 := UInt32.ofNat (decode bs)

def u64OfBytes (bs : Bytes) : UInt64 := UInt64.ofNat (decode bs)

@[simp] theorem length_u32Bytes (x : UInt32) : (u32Bytes x).length = 4 := length_encode ..

@[simp] theorem length_u64Bytes (x : UInt64) : (u64Bytes x).length = 8 := length_encode ..

@[simp] theorem u32OfBytes_u32Bytes (x : UInt32) : u32OfBytes (u32Bytes x) = x := by
  have h : x.toNat < 256 ^ 4 := x.toNat_lt
  simp [u32OfBytes, u32Bytes, decode_encode h]

@[simp] theorem u64OfBytes_u64Bytes (x : UInt64) : u64OfBytes (u64Bytes x) = x := by
  have h : x.toNat < 256 ^ 8 := x.toNat_lt
  simp [u64OfBytes, u64Bytes, decode_encode h]

theorem u32OfBytes_toNat {bs : Bytes} (h : bs.length = 4) :
    (u32OfBytes bs).toNat = decode bs := by
  have hb := decode_lt bs
  rw [h] at hb
  exact UInt32.toNat_ofNat_of_lt' hb

theorem u32Bytes_u32OfBytes {bs : Bytes} (h : bs.length = 4) : u32Bytes (u32OfBytes bs) = bs := by
  rw [u32Bytes, u32OfBytes_toNat h, ← h, encode_decode]

section Fields
variable {α : Type*} {k : ℕ} {f : α → Bytes}

theorem length_flatMap_of_width (hf : ∀ a, (f a).length = k) (xs : List α) :
    (xs.flatMap f).length = xs.length * k := by
  induction xs with
  | nil => simp
  | cons x xs ih =>
      simp only [List.flatMap_cons, List.length_append, List.length_cons, hf, ih]
      ring

/-- Skipping `i` whole fields leaves the encoding of the remaining values. -/
theorem drop_flatMap_of_width (hf : ∀ a, (f a).length = k) (xs : List α) (i : ℕ) :
    (xs.flatMap f).drop (k * i) = (xs.drop i).flatMap f := by
  induction xs generalizing i with
  | nil => simp
  | cons x xs ih =>
      cases i with
      | zero => simp
      | succ i =>
          have hk : k * (i + 1) = (f x).length + k * i := by rw [hf]; ring
          rw [List.flatMap_cons, hk, List.drop_append, List.drop_eq_nil_of_le (by omega)]
          simpa using ih i

theorem take_drop_flatMap_of_width (hf : ∀ a, (f a).length = k) (xs : List α) (i : ℕ)
    (hi : i < xs.length) : ((xs.flatMap f).drop (k * i)).take k = f xs[i] := by
  rw [drop_flatMap_of_width hf, List.drop_eq_getElem_cons hi, List.flatMap_cons]
  exact List.take_left' (hf _)

/-- The first `n` fields of width `k` of a byte string. -/
def fieldsOf (k n : ℕ) (b : Bytes) : List Bytes :=
  (List.range n).map fun i => (b.drop (k * i)).take k

theorem fieldsOf_succ (k n : ℕ) (b : Bytes) :
    fieldsOf k (n + 1) b = b.take k :: fieldsOf k n (b.drop k) := by
  rw [fieldsOf, List.range_succ_eq_map, List.map_cons, List.map_map, fieldsOf]
  refine congrArg₂ List.cons rfl (List.map_congr_left fun i _ => ?_)
  rw [Function.comp_apply, List.drop_drop, Nat.mul_succ, Nat.add_comm]

theorem fieldsOf_flatMap (hf : ∀ a, (f a).length = k) (xs : List α) :
    fieldsOf k xs.length (xs.flatMap f) = xs.map f := by
  apply List.ext_getElem
  · simp [fieldsOf]
  · intro i h₁ h₂
    have hi : i < xs.length := by simpa using h₂
    simp only [fieldsOf, List.getElem_map, List.getElem_range]
    exact take_drop_flatMap_of_width hf xs i hi

/-- A decoder that inverts the encoding of one value recovers the list. -/
theorem map_fieldsOf_flatMap (hf : ∀ a, (f a).length = k) {dec : Bytes → α}
    (hdec : ∀ a, dec (f a) = a) (xs : List α) :
    (fieldsOf k xs.length (xs.flatMap f)).map dec = xs := by
  rw [fieldsOf_flatMap hf, List.map_map]
  exact List.map_id'' hdec xs

end Fields

end LittleEndian
