import Mathlib

/-!
# Decimal numerals in file names

Numerals are byte strings of ASCII digits, most significant first and padded with
zeros to a width. Numerals of one width compare as strings the way their numbers
do; numerals of different widths need not.
-/
namespace Numerals

def digit (d : ℕ) : UInt8 := UInt8.ofNat (48 + d)

/-- The last `w` decimal digits of `n`. -/
def padded : ℕ → ℕ → List UInt8
  | 0, _ => []
  | w + 1, n => digit (n / 10 ^ w) :: padded w (n % 10 ^ w)

/-- The number of decimal digits, for numbers below `10 ^ fuel`. -/
def widthFrom : ℕ → ℕ → ℕ
  | 0, _ => 0
  | fuel + 1, n => if n < 10 then 1 else widthFrom fuel (n / 10) + 1

/-- The numeral of a 64-bit number with at least `w` digits. -/
def decimal (w n : ℕ) : List UInt8 := padded (max w (widthFrom 20 n)) n

def parseDigit (c : UInt8) : Option ℕ :=
  if 48 ≤ c ∧ c ≤ 57 then some (c.toNat - 48) else none

def parseDigits : ℕ → List UInt8 → Option ℕ
  | acc, [] => some acc
  | acc, c :: cs => (parseDigit c).bind fun d => parseDigits (10 * acc + d) cs

def stripPlus : List UInt8 → List UInt8
  | [] => []
  | c :: cs => if c = 43 then cs else c :: cs

/-- The decimal reader of unsigned 64-bit numbers: an optional plus sign, then one or
more digits. -/
def parseU64 (s : List UInt8) : Option ℕ :=
  if stripPlus s = [] then none
  else (parseDigits 0 (stripPlus s)).filter fun n => n < 2 ^ 64

@[simp] theorem length_padded (w n : ℕ) : (padded w n).length = w := by
  induction w generalizing n with
  | zero => rfl
  | succ w ih => simp [padded, ih]

theorem digit_toNat {d : ℕ} (h : d < 10) : (digit d).toNat = 48 + d := by
  rw [digit, UInt8.toNat_ofNat']
  omega

theorem digit_lt_digit {a b : ℕ} (ha : a < 10) (hb : b < 10) : digit a < digit b ↔ a < b := by
  rw [UInt8.lt_iff_toNat_lt, digit_toNat ha, digit_toNat hb]
  omega

theorem digit_inj {a b : ℕ} (ha : a < 10) (hb : b < 10) : digit a = digit b ↔ a = b := by
  rw [← UInt8.toNat_inj, digit_toNat ha, digit_toNat hb]
  omega

theorem compare_digit_eq_lt {a b : ℕ} (ha : a < 10) (hb : b < 10) :
    compare (digit a) (digit b) = .lt ↔ a < b := by
  rw [Std.compare_eq_lt, digit_lt_digit ha hb]

theorem compare_digit_eq_eq {a b : ℕ} (ha : a < 10) (hb : b < 10) :
    compare (digit a) (digit b) = .eq ↔ a = b := by
  rw [Std.LawfulEqOrd.compare_eq_iff_eq, digit_inj ha hb]

/-- Numerals of one width are ordered as their numbers. -/
theorem compare_padded_eq_lt {w a b : ℕ} (ha : a < 10 ^ w) (hb : b < 10 ^ w) :
    compare (padded w a) (padded w b) = .lt ↔ a < b := by
  induction w generalizing a b with
  | zero =>
      simp only [pow_zero, Nat.lt_one_iff] at ha hb
      simp [padded, ha, hb]
  | succ w ih =>
      have hpos : 0 < 10 ^ w := by positivity
      have hda : a / 10 ^ w < 10 := by
        rw [Nat.div_lt_iff_lt_mul hpos]
        rwa [pow_succ, mul_comm] at ha
      have hdb : b / 10 ^ w < 10 := by
        rw [Nat.div_lt_iff_lt_mul hpos]
        rwa [pow_succ, mul_comm] at hb
      have hlow := ih (Nat.mod_lt a hpos) (Nat.mod_lt b hpos)
      have hxa := Nat.div_add_mod a (10 ^ w)
      have hxb := Nat.div_add_mod b (10 ^ w)
      have hma := Nat.mod_lt a hpos
      have hmb := Nat.mod_lt b hpos
      rw [padded, padded, List.compare_cons_cons, Ordering.then_eq_lt,
        compare_digit_eq_lt hda hdb, compare_digit_eq_eq hda hdb, hlow]
      constructor
      · rintro (h | ⟨h, h'⟩)
        · have := Nat.mul_le_mul_left (10 ^ w) (Nat.succ_le_of_lt h)
          rw [Nat.succ_eq_add_one, mul_add, mul_one] at this
          omega
        · rw [h] at hxa
          omega
      · intro h
        rcases Nat.lt_trichotomy (a / 10 ^ w) (b / 10 ^ w) with h₁ | h₁ | h₁
        · exact Or.inl h₁
        · rw [h₁] at hxa
          exact Or.inr ⟨h₁, by omega⟩
        · have := Nat.mul_le_mul_left (10 ^ w) (Nat.succ_le_of_lt h₁)
          rw [Nat.succ_eq_add_one, mul_add, mul_one] at this
          omega

theorem compare_append_left (p a b : List UInt8) : compare (p ++ a) (p ++ b) = compare a b := by
  induction p with
  | nil => rfl
  | cons c p ih =>
      rw [List.cons_append, List.cons_append, List.compare_cons_cons, ih]
      simp

theorem compare_append_right {a b : List UInt8} (hlen : a.length = b.length) (s : List UInt8) :
    compare (a ++ s) (b ++ s) = compare a b := by
  induction a generalizing b with
  | nil =>
      obtain rfl : b = [] := List.length_eq_zero_iff.mp hlen.symm
      simp
  | cons c a ih =>
      cases b with
      | nil => simp at hlen
      | cons d b =>
          rw [List.cons_append, List.cons_append, List.compare_cons_cons, List.compare_cons_cons,
            ih (Nat.succ.inj hlen)]

theorem lt_pow_widthFrom {fuel n : ℕ} (h : n < 10 ^ fuel) : n < 10 ^ widthFrom fuel n := by
  induction fuel generalizing n with
  | zero => simpa [widthFrom] using h
  | succ fuel ih =>
      rw [widthFrom]
      split_ifs with hn
      · simpa using hn
      · have hdiv : n / 10 < 10 ^ fuel := by
          rw [Nat.div_lt_iff_lt_mul (by decide)]
          rwa [pow_succ] at h
        have hlow := ih hdiv
        rw [pow_succ]
        omega

theorem widthFrom_le {fuel n k : ℕ} (hk : 0 < k) (h : n < 10 ^ k) : widthFrom fuel n ≤ k := by
  induction fuel generalizing n k with
  | zero => exact Nat.zero_le k
  | succ fuel ih =>
      rw [widthFrom]
      split_ifs with hn
      · exact hk
      · obtain ⟨j, rfl⟩ := Nat.exists_eq_succ_of_ne_zero hk.ne'
        have hj : 0 < j := by
          rcases Nat.eq_zero_or_pos j with rfl | hj
          · simp only [Nat.succ_eq_add_one, zero_add, pow_one] at h
            omega
          · exact hj
        have hdiv : n / 10 < 10 ^ j := by
          rw [Nat.div_lt_iff_lt_mul (by decide)]
          rwa [Nat.succ_eq_add_one, pow_succ] at h
        exact Nat.succ_le_succ (ih hj hdiv)

/-- A number that fits the width is written with exactly that width. -/
theorem decimal_eq_padded {w n : ℕ} (hw : 0 < w) (h : n < 10 ^ w) : decimal w n = padded w n := by
  rw [decimal, max_eq_left (widthFrom_le hw h)]

/-- The width asked for does not matter once the number has that many digits. -/
theorem decimal_eq_decimal {v w n : ℕ} (hv : v ≤ widthFrom 20 n) (hw : w ≤ widthFrom 20 n) :
    decimal v n = decimal w n := by
  rw [decimal, decimal, max_eq_right hv, max_eq_right hw]

theorem parseDigit_digit {d : ℕ} (h : d < 10) : parseDigit (digit d) = some d := by
  have hd := digit_toNat h
  rw [parseDigit, if_pos]
  · rw [hd]
    congr 1
    omega
  · rw [UInt8.le_iff_toNat_le, UInt8.le_iff_toNat_le, hd]
    constructor
    · show 48 ≤ 48 + d
      omega
    · show 48 + d ≤ 57
      omega

theorem parseDigits_padded {w n : ℕ} (h : n < 10 ^ w) (acc : ℕ) :
    parseDigits acc (padded w n) = some (acc * 10 ^ w + n) := by
  induction w generalizing n acc with
  | zero =>
      simp only [pow_zero, Nat.lt_one_iff] at h
      simp [padded, parseDigits, h]
  | succ w ih =>
      have hpos : 0 < 10 ^ w := by positivity
      have hd : n / 10 ^ w < 10 := by
        rw [Nat.div_lt_iff_lt_mul hpos]
        rwa [pow_succ, mul_comm] at h
      have hx := Nat.div_add_mod n (10 ^ w)
      rw [padded, parseDigits, parseDigit_digit hd, Option.bind_some, ih (Nat.mod_lt n hpos)]
      congr 1
      calc (10 * acc + n / 10 ^ w) * 10 ^ w + n % 10 ^ w
          = acc * (10 ^ w * 10) + (10 ^ w * (n / 10 ^ w) + n % 10 ^ w) := by ring
        _ = acc * 10 ^ (w + 1) + n := by rw [hx, pow_succ]

/-- Reading back what was written. -/
theorem parseU64_decimal {w n : ℕ} (h : n < 2 ^ 64) : parseU64 (decimal w n) = some n := by
  have hfuel : n < 10 ^ 20 := lt_of_lt_of_le h (by norm_num)
  have hwidth : 0 < widthFrom 20 n := by
    rw [widthFrom]
    split_ifs
    · exact one_pos
    · exact Nat.succ_pos _
  have hlt : n < 10 ^ max w (widthFrom 20 n) :=
    lt_of_lt_of_le (lt_pow_widthFrom hfuel) (Nat.pow_le_pow_right (by decide) (le_max_right _ _))
  have hparse := parseDigits_padded hlt 0
  unfold decimal
  obtain ⟨v, hv⟩ : ∃ v, max w (widthFrom 20 n) = v + 1 :=
    ⟨max w (widthFrom 20 n) - 1, by omega⟩
  rw [hv] at hparse hlt ⊢
  have hd : n / 10 ^ v < 10 := by
    rw [Nat.div_lt_iff_lt_mul (by positivity)]
    rwa [pow_succ, mul_comm] at hlt
  have hne : digit (n / 10 ^ v) ≠ 43 := by
    intro heq
    have hnat := congrArg UInt8.toNat heq
    rw [digit_toNat hd] at hnat
    exact absurd hnat (ne_of_gt (lt_of_lt_of_le (by decide) (Nat.le_add_right 48 _)))
  have hstrip : stripPlus (padded (v + 1) n) = padded (v + 1) n := by
    rw [padded, stripPlus, if_neg hne]
  rw [parseU64, hstrip, if_neg (by simp [padded]), hparse, zero_mul, zero_add,
    Option.filter_some, if_pos (decide_eq_true h)]

theorem decimal_injective {v w m n : ℕ} (hm : m < 2 ^ 64) (hn : n < 2 ^ 64)
    (h : decimal v m = decimal w n) : m = n := by
  have := parseU64_decimal (w := v) hm
  rw [h, parseU64_decimal hn] at this
  exact (Option.some.inj this).symm

end Numerals
