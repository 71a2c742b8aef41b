import Mathlib

/-!
# The Gregorian calendar

Dates with the 4/100/400-year leap rule, counted forwards one day at a time. A year that
begins in March ends with the leap day, so that the month and the day of the month depend
on the day of such a year alone.
-/
namespace Gregorian

structure Date where
  year : ℕ
  month : ℕ
  day : ℕ
deriving DecidableEq, Repr

def IsLeap (y : ℕ) : Prop := y % 4 = 0 ∧ (y % 100 ≠ 0 ∨ y % 400 = 0)

instance (y : ℕ) : Decidable (IsLeap y) := inferInstanceAs (Decidable (_ ∧ _))

def daysInMonth (y : ℕ) : ℕ → ℕ
  | 2 => if IsLeap y then 29 else 28
  | 4 => 30
  | 6 => 30
  | 9 => 30
  | 11 => 30
  | _ => 31

def Date.next (d : Date) : Date :=
  if d.day < daysInMonth d.year d.month then { d with day := d.day + 1 }
  else if d.month < 12 then ⟨d.year, d.month + 1, 1⟩
  else ⟨d.year + 1, 1, 1⟩

/-- The date `n` days later. -/
def Date.addDays (d : Date) : ℕ → Date
  | 0 => d
  | n + 1 => (d.addDays n).next

/-- The days of the year that begins in March of year `y`. -/
def yearLength (y : ℕ) : ℕ := if IsLeap (y + 1) then 366 else 365

/-- The days from March 1 of year 0 to March 1 of year `y`. -/
def marchDays (y : ℕ) : ℕ := 365 * y + y / 4 - y / 100 + y / 400

theorem marchDays_succ (y : ℕ) : marchDays (y + 1) = marchDays y + yearLength y := by
  have hsucc : ∀ k : ℕ, (y + 1) / k = y / k + if (y + 1) % k = 0 then 1 else 0 := by
    intro k
    rw [Nat.succ_div]
    simp only [Nat.dvd_iff_mod_eq_zero]
  have hle : y / 100 ≤ y / 4 := Nat.div_le_div_left (by decide) (by decide)
  unfold marchDays yearLength
  rw [hsucc, hsucc, hsucc]
  clear hsucc
  by_cases h₄ : (y + 1) % 4 = 0
  · by_cases h₁₀₀ : (y + 1) % 100 = 0
    · by_cases h₄₀₀ : (y + 1) % 400 = 0
      · rw [if_pos h₄, if_pos h₁₀₀, if_pos h₄₀₀, if_pos ⟨h₄, .inr h₄₀₀⟩]
        omega
      · have hnot : ¬ IsLeap (y + 1) := fun h => h.2.elim (fun h => h h₁₀₀) h₄₀₀
        rw [if_pos h₄, if_pos h₁₀₀, if_neg h₄₀₀, if_neg hnot]
        omega
    · have h₄₀₀ : ¬ (y + 1) % 400 = 0 := by omega
      rw [if_pos h₄, if_neg h₁₀₀, if_neg h₄₀₀, if_pos ⟨h₄, .inl h₁₀₀⟩]
      omega
  · have h₁₀₀ : ¬ (y + 1) % 100 = 0 := by omega
    have h₄₀₀ : ¬ (y + 1) % 400 = 0 := by omega
    rw [if_neg h₄, if_neg h₁₀₀, if_neg h₄₀₀, if_neg fun h => h₄ h.1]
    omega

/-- The 400-year cycle. -/
theorem marchDays_add (e y : ℕ) : marchDays (400 * e + y) = 146097 * e + marchDays y := by
  unfold marchDays
  omega

/-- The month of a day of a March year, counted from March. -/
def marchMonth (doy : ℕ) : ℕ := (5 * doy + 2) / 153

/-- The first day of a month of a March year. -/
def marchStart (mp : ℕ) : ℕ := (153 * mp + 2) / 5

def civilMonth (mp : ℕ) : ℕ := if mp < 10 then mp + 3 else mp - 9

/-- The day `doy` of the year that begins in March of year `y`. -/
def ofMarch (y doy : ℕ) : Date where
  year := if civilMonth (marchMonth doy) ≤ 2 then y + 1 else y
  month := civilMonth (marchMonth doy)
  day := doy - marchStart (marchMonth doy) + 1

theorem marchMonth_eq_iff {doy mp : ℕ} :
    marchMonth doy = mp ↔ marchStart mp ≤ doy ∧ doy < marchStart (mp + 1) := by
  unfold marchMonth marchStart
  omega

theorem le_yearLength (y : ℕ) : 365 ≤ yearLength y := by
  unfold yearLength
  split_ifs <;> decide

theorem yearLength_le (y : ℕ) : yearLength y ≤ 366 := by
  unfold yearLength
  split_ifs <;> decide

theorem marchMonth_lt {y doy : ℕ} (h : doy < yearLength y) : marchMonth doy < 12 := by
  have := yearLength_le y
  unfold marchMonth
  omega

/-- Of all months only February has a length that depends on the year. -/
theorem daysInMonth_civilMonth (y : ℕ) {mp : ℕ} (h : mp < 11) :
    daysInMonth y (civilMonth mp) = marchStart (mp + 1) - marchStart mp := by
  interval_cases mp <;> rfl

theorem daysInMonth_february (y : ℕ) :
    daysInMonth (y + 1) (civilMonth 11) = yearLength y - marchStart 11 := by
  show (if IsLeap (y + 1) then 29 else 28) = yearLength y - 337
  unfold yearLength
  split_ifs <;> rfl

theorem ofMarch_of_month {y doy mp : ℕ} (h : marchMonth doy = mp) :
    ofMarch y doy =
      ⟨if civilMonth mp ≤ 2 then y + 1 else y, civilMonth mp, doy - marchStart mp + 1⟩ := by
  subst h
  rfl

/-- The day after is the next day of the month, the first of the next month, or the first
of the next March year. -/
theorem next_ofMarch {y doy : ℕ} (h : doy < yearLength y) :
    (ofMarch y doy).next =
      if doy + 1 < yearLength y then ofMarch y (doy + 1) else ofMarch (y + 1) 0 := by
  obtain ⟨mp, hmp⟩ : ∃ mp, marchMonth doy = mp := ⟨_, rfl⟩
  have hlt : mp < 12 := hmp ▸ marchMonth_lt h
  obtain ⟨hstart, hstop⟩ := marchMonth_eq_iff.mp hmp
  have hlong := le_yearLength y
  rw [ofMarch_of_month hmp, Date.next]
  by_cases hfeb : mp = 11
  · subst hfeb
    have hstart : 337 ≤ doy := hstart
    -- February, of the next calendar year
    show (if doy - 337 + 1 < daysInMonth (y + 1) (civilMonth 11) then
      (⟨y + 1, 2, doy - 337 + 1 + 1⟩ : Date) else ⟨y + 1, 3, 1⟩) = _
    rw [daysInMonth_february]
    have hlast : doy - 337 + 1 < yearLength y - marchStart 11 ↔ doy + 1 < yearLength y := by
      rw [show marchStart 11 = 337 from rfl]
      omega
    by_cases hin : doy + 1 < yearLength y
    · have hshort := yearLength_le y
      have hnext : marchMonth (doy + 1) = 11 := by unfold marchMonth; omega
      have hday : doy - 337 + 1 = doy + 1 - 337 := by omega
      rw [if_pos (hlast.mpr hin), if_pos hin, ofMarch_of_month hnext, hday]
      rfl
    · rw [if_neg (mt hlast.mp hin), if_neg hin]
      rfl
  · have hsoon : mp < 11 := by omega
    have hbound : marchStart (mp + 1) ≤ 337 := by unfold marchStart; omega
    rw [if_pos (show doy + 1 < yearLength y by omega), daysInMonth_civilMonth _ hsoon]
    by_cases hin : doy + 1 < marchStart (mp + 1)
    · have hnext : marchMonth (doy + 1) = mp := marchMonth_eq_iff.mpr ⟨by omega, hin⟩
      have hday : doy + 1 - marchStart mp = doy - marchStart mp + 1 := by omega
      rw [if_pos (by simp only; omega), ofMarch_of_month hnext, hday]
    · have hfirst : doy + 1 = marchStart (mp + 1) := by omega
      have hgrow : marchStart (mp + 1) < marchStart (mp + 2) := by unfold marchStart; omega
      have hnext : marchMonth (doy + 1) = mp + 1 :=
        marchMonth_eq_iff.mpr ⟨hfirst.ge, by rw [hfirst]; exact hgrow⟩
      rw [if_neg (by simp only; omega), ofMarch_of_month hnext, hfirst]
      interval_cases mp <;> rfl

/-- The date some days later, as a day of a March year. -/
theorem addDays_ofMarch (y doy : ℕ) (h : doy < yearLength y) (n : ℕ) :
    ∃ y' doy', doy' < yearLength y' ∧ marchDays y' + doy' = marchDays y + doy + n ∧
      (ofMarch y doy).addDays n = ofMarch y' doy' := by
  induction n with
  | zero => exact ⟨y, doy, h, rfl, rfl⟩
  | succ n ih =>
      obtain ⟨y', doy', hlt, hdays, hdate⟩ := ih
      rw [Date.addDays, hdate, next_ofMarch hlt]
      by_cases hin : doy' + 1 < yearLength y'
      · rw [if_pos hin]
        exact ⟨y', doy' + 1, hin, by omega, rfl⟩
      · have hnext := marchDays_succ y'
        have hpos := le_yearLength (y' + 1)
        rw [if_neg hin]
        exact ⟨y' + 1, 0, by omega, by omega, rfl⟩

end Gregorian
