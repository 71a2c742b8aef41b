import SliceFs.Blockset

/-!
# Inode metadata, names and errors

The plain data of the `slicefs-traits` crate. A `Str` is a Rust string: bytes in
well-formed UTF-8, no longer than an allocation can be. Times are seconds and
nanoseconds read from a clock that the operations take as an argument.
-/
namespace SliceFs

/-- The largest allocation: `isize::MAX`. -/
def isizeMax : ℕ := 2 ^ 63 - 1

def u64Max : UInt64 := UInt64.ofNat (2 ^ 64 - 1)

theorem lt_add_one_of_ne_u64Max {n : UInt64} (h : n ≠ u64Max) : n < n + 1 := by
  rw [UInt64.lt_iff_toNat_lt, UInt64.toNat_add]
  have hn := n.toNat_lt
  have hne : n.toNat ≠ 2 ^ 64 - 1 := by
    intro he
    apply h
    rw [← UInt64.ofNat_toNat (x := n), he]
    rfl
  have h1 : (1 : UInt64).toNat = 1 := rfl
  rw [h1, Nat.mod_eq_of_lt (by omega)]
  omega

theorem toNat_add_one_of_ne_u64Max {n : UInt64} (h : n ≠ u64Max) : (n + 1).toNat = n.toNat + 1 := by
  have hlt := UInt64.lt_iff_toNat_lt.mp (lt_add_one_of_ne_u64Max h)
  have hlt' := n.toNat_lt
  rw [UInt64.toNat_add, UInt64.toNat_one] at hlt ⊢
  omega

def isContinuation (b : UInt8) : Bool := 0x80 ≤ b && b ≤ 0xBF

/-- The second byte of a three-byte sequence, by its first byte. -/
def validSecondOfThree (a b : UInt8) : Bool :=
  if a == 0xE0 then 0xA0 ≤ b && b ≤ 0xBF
  else if a == 0xED then 0x80 ≤ b && b ≤ 0x9F
  else 0xE1 ≤ a && a ≤ 0xEF && isContinuation b

/-- The second byte of a four-byte sequence, by its first byte. -/
def validSecondOfFour (a b : UInt8) : Bool :=
  if a == 0xF0 then 0x90 ≤ b && b ≤ 0xBF
  else if a == 0xF4 then 0x80 ≤ b && b ≤ 0x8F
  else 0xF1 ≤ a && a ≤ 0xF3 && isContinuation b

def validUtf8 : Bytes → Bool
  | [] => true
  | a :: r₁ =>
    if a < 0x80 then validUtf8 r₁
    else match r₁ with
      | [] => false
      | b :: r₂ =>
        if 0xC2 ≤ a && a ≤ 0xDF then isContinuation b && validUtf8 r₂
        else match r₂ with
          | [] => false
          | c :: r₃ =>
            if validSecondOfThree a b then isContinuation c && validUtf8 r₃
            else match r₃ with
              | [] => false
              | d :: r₄ =>
                validSecondOfFour a b && isContinuation c && isContinuation d && validUtf8 r₄

structure Str where
  bytes : Bytes
  valid : validUtf8 bytes = true
  length_le : bytes.length ≤ isizeMax
deriving DecidableEq

theorem Str.bytes_injective : Function.Injective Str.bytes := by
  rintro ⟨b, hb, hlen⟩ ⟨_, _, _⟩ rfl
  rfl

/-- `String::from_utf8` -/
def Str.fromUtf8 (b : Bytes) : Option Str :=
  if h : validUtf8 b = true ∧ b.length ≤ isizeMax then some ⟨b, h.1, h.2⟩ else none

theorem Str.fromUtf8_bytes (s : Str) : Str.fromUtf8 s.bytes = some s := by
  rw [fromUtf8, dif_pos ⟨s.valid, s.length_le⟩]

theorem Str.bytes_of_fromUtf8 {b : Bytes} {s : Str} (h : Str.fromUtf8 b = some s) :
    s.bytes = b := by
  unfold fromUtf8 at h
  split_ifs at h
  rw [← Option.some.inj h]

/-- The entry names `.` and `..`. -/
def Str.dot : Str := ⟨[0x2E], by decide, by decide⟩

def Str.dotDot : Str := ⟨[0x2E, 0x2E], by decide, by decide⟩

def Str.empty : Str := ⟨[], by decide, by decide⟩

/-- The name `a`. -/
def Str.a : Str := ⟨[0x61], by decide, by decide⟩

theorem validUtf8_replicate (n : ℕ) : validUtf8 (List.replicate n 0x61) = true := by
  induction n with
  | zero => rfl
  | succ n ih =>
      rw [List.replicate_succ, validUtf8.eq_def]
      simpa using ih

/-- The name of `n` letters `a`. -/
def Str.letters (n : ℕ) (h : n ≤ isizeMax) : Str :=
  ⟨List.replicate n 0x61, validUtf8_replicate n, by rwa [List.length_replicate]⟩

inductive MetaError where
  | notFound (ino : UInt64)
  | alreadyExists (ino : UInt64)
  | notADirectory (ino : UInt64)
  | isADirectory (ino : UInt64)
  | notEmpty (ino : UInt64)
  | invalidName (name : Str)
  | corrupted (message : String)
  | io
deriving DecidableEq

structure DirEntry where
  name : Str
  ino : UInt64
deriving DecidableEq

structure InodeMeta where
  ino : UInt64
  mode : UInt32
  uid : UInt32
  gid : UInt32
  nlinks : UInt32
  size : UInt64
  mtimeSec : Int64
  mtimeNsec : UInt32
  ctimeSec : Int64
  ctimeNsec : UInt32
deriving DecidableEq

def InodeMeta.newDirectory (ino : UInt64) (uid gid mode : UInt32) : InodeMeta :=
  ⟨ino, mode, uid, gid, 2, 0, 0, 0, 0, 0⟩

def InodeMeta.newFile (ino : UInt64) (uid gid mode : UInt32) : InodeMeta :=
  ⟨ino, mode, uid, gid, 1, 0, 0, 0, 0, 0⟩

/-- The time of day an operation reads: seconds and nanoseconds since the epoch. -/
structure Now where
  secs : UInt64
  nanos : UInt32
deriving DecidableEq

def InodeMeta.setCtime (m : InodeMeta) (now : Now) : InodeMeta :=
  { m with ctimeSec := now.secs.toInt64, ctimeNsec := now.nanos }

/-- The size, modification and change times a commit of content records. -/
def InodeMeta.setWritten (m : InodeMeta) (size : UInt64) (now : Now) : InodeMeta :=
  { m with
    size := size
    mtimeSec := now.secs.toInt64
    mtimeNsec := now.nanos
    ctimeSec := now.secs.toInt64
    ctimeNsec := now.nanos }

/-- POSIX inode type bits. -/
def S_IFMT : UInt32 := 0o170000

def S_IFREG : UInt32 := 0o100000

def S_IFDIR : UInt32 := 0o040000

def S_IFLNK : UInt32 := 0o120000

/-- Permission bits do not change the type. -/
theorem type_or_permissions (t mode : UInt32) :
    (t ||| (mode &&& 0o7777)) &&& S_IFMT = t &&& S_IFMT := by
  apply UInt32.toNat_inj.mp
  simp only [UInt32.toNat_and, UInt32.toNat_or]
  rw [Nat.and_or_distrib_right, Nat.and_assoc mode.toNat]
  simp [S_IFMT]

def InodeMeta.isDir (m : InodeMeta) : Prop := m.mode &&& S_IFDIR ≠ 0

instance (m : InodeMeta) : Decidable m.isDir := inferInstanceAs (Decidable (_ ≠ _))

end SliceFs
