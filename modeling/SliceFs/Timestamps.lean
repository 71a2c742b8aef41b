import SliceFs.Checked
import SliceFs.Gregorian
import SliceFs.Metadata
import SliceFs.Numerals

/-!
# Timestamps as text

The listing of snapshots shows the time of each as a date of the Gregorian calendar. The
date comes from the number of days since 1970-01-01 by division alone: into eras of 400
years, years that begin in March, months and days.
-/
namespace SliceFs
open ProgramLogic Gregorian

section
variable {ε : Type}

/-- The year of an era, from the day of the era. -/
def yearOfEra (doe : ℕ) : Except (Fault ε) ℕ := do
  let a ← Checked.sub doe (doe / 1460)
  let b ← Checked.add a (doe / 36524)
  let c ← Checked.sub b (doe / 146096)
  pure (c / 365)

/-- The day of the year, from the day and the year of an era. -/
def dayOfYear (doe yoe : ℕ) : Except (Fault ε) ℕ := do
  let whole ← Checked.mul 365 yoe
  let leaps ← Checked.add whole (yoe / 4)
  let start ← Checked.sub leaps (yoe / 100)
  Checked.sub doe start

/-- The month of the calendar, from the month counted from March. -/
def monthOfMarch (mp : ℕ) : Except (Fault ε) ℕ :=
  if mp < 10 then Checked.add mp 3 else Checked.sub mp 9

/-- The day of the month, from the day of the year and the month counted from March. -/
def dayOfMonth (doy mp : ℕ) : Except (Fault ε) ℕ := do
  let a ← Checked.mul 153 mp
  let b ← Checked.add a 2
  let c ← Checked.sub doy (b / 5)
  Checked.add c 1

/-- The month and the day of the month, from the day of the year. -/
def monthAndDay (doy : ℕ) : Except (Fault ε) (ℕ × ℕ) := do
  let a ← Checked.mul 5 doy
  let b ← Checked.add a 2
  let d ← dayOfMonth doy (b / 153)
  let m ← monthOfMarch (b / 153)
  pure (m, d)

/-- The 400-year era of a day, rounded down. -/
def eraOf (z : ℤ) : Except (Fault ε) ℤ := do
  let floor ← if z ≥ 0 then .ok z else Checked.int64 (z - 146096)
  pure (floor.tdiv 146097)

/-- January and February belong to the next year. -/
def calendarYear (y : ℤ) (m : ℕ) : Except (Fault ε) ℤ :=
  if m ≤ 2 then Checked.int64 (y + 1) else .ok y

/-- A signed number as an unsigned one of 64 or 32 bits. -/
def asU64 (x : ℤ) : ℕ := (x % 2 ^ 64).toNat

def asU32 (x : ℤ) : UInt32 := UInt32.ofNat (x % 2 ^ 32).toNat

/-- The year and the day of the year, counted from March, `z` days after March 1 of
year 0. -/
def yearAndDay (z : ℤ) : Except (Fault ε) (ℤ × ℕ) := do
  let era ← eraOf z
  let first ← Checked.int64 (era * 146097)
  let doe ← Checked.int64 (z - first)
  let yoe ← yearOfEra (asU64 doe)
  let years ← Checked.int64 (era * 400)
  let y ← Checked.int64 (yoe + years)
  let doy ← dayOfYear (asU64 doe) yoe
  pure (y, doy)

def daysToYmd (days : UInt64) : Except (Fault ε) (UInt32 × UInt32 × UInt32) := do
  let z ← Checked.int64 (days.toInt64.toInt + 719468)
  let yd ← yearAndDay z
  let md ← monthAndDay yd.2
  let y ← calendarYear yd.1 md.1
  pure (asU32 y, asU32 md.1, asU32 md.2)

def ascii (s : String) : Bytes := s.toList.map fun c => UInt8.ofNat c.toNat

/-- `{:04}-{:02}-{:02}T{:02}:{:02}:{:02}Z` -/
def isoText (ymd : UInt32 × UInt32 × UInt32) (hour min sec : UInt64) : Bytes :=
  Numerals.decimal 4 ymd.1.toNat ++ ascii "-" ++ Numerals.decimal 2 ymd.2.1.toNat ++ ascii "-" ++
    Numerals.decimal 2 ymd.2.2.toNat ++ ascii "T" ++ Numerals.decimal 2 hour.toNat ++ ascii ":" ++
    Numerals.decimal 2 min.toNat ++ ascii ":" ++ Numerals.decimal 2 sec.toNat ++ ascii "Z"

def formatUnixTimestamp (secs : UInt64) : Except (Fault ε) Bytes :=
  if secs = 0 then .ok (ascii "unknown")
  else do
    let ymd ← daysToYmd (secs / 86400)
    pure (isoText ymd (secs / 3600 % 24) (secs / 60 % 60) (secs % 60))

/-- The day `doy` of year `100 c + 4 q + r` of an era. Only after December 31 of the last
year of a cycle the quotient by 1460 is one day early or late. -/
theorem year_of_day (c q r doy : ℕ) {doe : ℕ} (hc : c < 4) (hq : q < 25) (hr : r < 4)
    (hdoy : doy ≤ 365) (hleap : doy = 365 → r = 3 ∧ (q < 24 ∨ c = 3))
    (hdoe : doe = 36524 * c + 1461 * q + 365 * r + doy) :
    (doe - doe / 1460 + doe / 36524 - doe / 146096) / 365 = 100 * c + 4 * q + r := by
  by_cases hlast : doe = 146096
  · subst hlast
    omega
  · have hcentury : doe / 36524 = c := by omega
    have hera : doe / 146096 = 0 := by omega
    obtain ⟨x, hx⟩ : ∃ x, doe / 1460 = 25 * c + q + x :=
      ⟨(24 * c + q + 365 * r + doy) / 1460, by omega⟩
    have hle : x ≤ 1 := by omega
    have hlate : x = 1 → 1 ≤ doy := by omega
    have hfull : doy = 365 → x = 1 := by omega
    rw [hcentury, hera, hx]
    omega

theorem marchDays_of_lt {y : ℕ} (h : y < 400) : marchDays y = 365 * y + y / 4 - y / 100 := by
  unfold marchDays
  omega

theorem day_lt {y doy : ℕ} (h : y < 400) (hdoy : doy < yearLength y) :
    marchDays y + doy < 146097 := by
  have hnext := marchDays_succ y
  unfold marchDays at hnext ⊢
  omega

theorem yearOfEra_eq {y doy : ℕ} (h : y < 400) (hdoy : doy < yearLength y) :
    (yearOfEra (marchDays y + doy) : Except (Fault ε) ℕ) = .ok y := by
  have hlt := day_lt h hdoy
  have hshort := yearLength_le y
  have hleap : doy = 365 → y % 4 = 3 ∧ (y % 100 / 4 < 24 ∨ y / 100 = 3) := by
    intro hlast
    have hyear : IsLeap (y + 1) := by
      by_contra hnot
      rw [yearLength, if_neg hnot] at hdoy
      omega
    unfold IsLeap at hyear
    omega
  have hdays : marchDays y + doy =
      36524 * (y / 100) + 1461 * (y % 100 / 4) + 365 * (y % 4) + doy := by
    rw [marchDays_of_lt h]
    omega
  have hyear := year_of_day (y / 100) (y % 100 / 4) (y % 4) doy (by omega) (by omega) (by omega)
    (by omega) hleap hdays
  generalize marchDays y + doy = doe at hlt hyear
  have hfirst : doe / 1460 ≤ doe := Nat.div_le_self _ _
  have hlast : doe / 146096 ≤ doe - doe / 1460 + doe / 36524 := by omega
  rw [yearOfEra, Checked.sub_of_le hfirst, Checked.ok_bind, Checked.add_of_lt (by omega),
    Checked.ok_bind, Checked.sub_of_le hlast, Checked.ok_bind, hyear]
  congr 1
  omega

theorem dayOfYear_eq {y : ℕ} (h : y < 400) (doy : ℕ) :
    (dayOfYear (marchDays y + doy) y : Except (Fault ε) ℕ) = .ok doy := by
  have hle : y / 100 ≤ 365 * y + y / 4 := by omega
  rw [dayOfYear, Checked.mul_of_lt (by omega), Checked.ok_bind, Checked.add_of_lt (by omega),
    Checked.ok_bind, Checked.sub_of_le hle, Checked.ok_bind, ← marchDays_of_lt h,
    Checked.sub_of_le (Nat.le_add_right _ _), Nat.add_sub_cancel_left]

theorem monthOfMarch_eq {mp : ℕ} (h : mp < 12) :
    (monthOfMarch mp : Except (Fault ε) ℕ) = .ok (civilMonth mp) := by
  unfold monthOfMarch civilMonth
  split_ifs
  · exact Checked.add_of_lt (by omega)
  · exact Checked.sub_of_le (by omega)

theorem monthAndDay_eq {y doy : ℕ} (hdoy : doy < yearLength y) :
    (monthAndDay doy : Except (Fault ε) (ℕ × ℕ)) =
      .ok ((ofMarch y doy).month, (ofMarch y doy).day) := by
  have hshort := yearLength_le y
  have hmp : marchMonth doy < 12 := marchMonth_lt hdoy
  have hstart : marchStart (marchMonth doy) ≤ doy := (marchMonth_eq_iff.mp rfl).1
  have hday : (dayOfMonth doy (marchMonth doy) : Except (Fault ε) ℕ) =
      .ok (ofMarch y doy).day := by
    unfold marchStart at hstart
    rw [dayOfMonth, Checked.mul_of_lt (by omega), Checked.ok_bind, Checked.add_of_lt (by omega),
      Checked.ok_bind, Checked.sub_of_le hstart, Checked.ok_bind, Checked.add_of_lt (by omega)]
    rfl
  rw [monthAndDay, Checked.mul_of_lt (by omega), Checked.ok_bind, Checked.add_of_lt (by omega),
    Checked.ok_bind]
  show (do
    let d ← dayOfMonth doy (marchMonth doy)
    let m ← monthOfMarch (marchMonth doy)
    pure (m, d) : Except (Fault ε) (ℕ × ℕ)) = _
  rw [hday, Checked.ok_bind, monthOfMarch_eq hmp]
  rfl

theorem eraOf_eq {e doe : ℕ} (h : doe < 146097) :
    (eraOf ((146097 * e + doe : ℕ) : ℤ) : Except (Fault ε) ℤ) = .ok e := by
  have hquot : (146097 * e + doe) / 146097 = e := by omega
  have hnonneg : (((146097 * e + doe : ℕ) : ℤ)) ≥ 0 := Int.natCast_nonneg _
  rw [eraOf, if_pos hnonneg, Checked.ok_bind]
  show Except.ok (((146097 * e + doe : ℕ) : ℤ).tdiv 146097) = _
  rw [Int.tdiv_eq_ediv_of_nonneg hnonneg]
  congr 1
  omega

theorem yearLength_add (e y : ℕ) : yearLength (400 * e + y) = yearLength y := by
  have hiff : IsLeap (400 * e + y + 1) ↔ IsLeap (y + 1) := by
    unfold IsLeap
    omega
  unfold yearLength
  simp only [hiff]

theorem yearAndDay_eq {y doy : ℕ} (hy : y < 2 ^ 54) (hdoy : doy < yearLength y) :
    (yearAndDay ((marchDays y + doy : ℕ) : ℤ) : Except (Fault ε) (ℤ × ℕ)) = .ok ((y : ℤ), doy) := by
  -- year `y` is year `r` of era `e`
  obtain ⟨e, r, hr, rfl⟩ : ∃ e r, r < 400 ∧ y = 400 * e + r :=
    ⟨y / 400, y % 400, by omega, by omega⟩
  rw [yearLength_add] at hdoy
  have hdoe := day_lt hr hdoy
  rw [marchDays_add, Nat.add_assoc]
  have hrest : ((146097 * e + (marchDays r + doy) : ℕ) : ℤ) - e * 146097 =
      ((marchDays r + doy : ℕ) : ℤ) := by
    push_cast
    ring
  have hword : asU64 ((marchDays r + doy : ℕ) : ℤ) = marchDays r + doy := by
    unfold asU64
    omega
  have hyear : (r : ℤ) + e * 400 = ((400 * e + r : ℕ) : ℤ) := by
    push_cast
    ring
  rw [yearAndDay, eraOf_eq hdoe, Checked.ok_bind, Checked.int64_of_lt (by omega) (by omega),
    Checked.ok_bind, hrest, Checked.int64_of_lt (by omega) (by omega), Checked.ok_bind, hword,
    yearOfEra_eq hr hdoy, Checked.ok_bind, Checked.int64_of_lt (by omega) (by omega),
    Checked.ok_bind, hyear, Checked.int64_of_lt (by omega) (by omega), Checked.ok_bind,
    dayOfYear_eq hr, Checked.ok_bind]
  rfl

theorem calendarYear_eq {y : ℕ} (hy : y < 2 ^ 54) (doy : ℕ) :
    (calendarYear y (ofMarch y doy).month : Except (Fault ε) ℤ) =
      .ok ((ofMarch y doy).year : ℤ) := by
  unfold calendarYear ofMarch
  split_ifs
  · exact Checked.int64_of_lt (by omega) (by omega)
  · rfl

/-- A number of days that is not negative as a signed word. -/
theorem toInt_toInt64 {n : UInt64} (h : n.toNat < 2 ^ 63) : n.toInt64.toInt = n.toNat := by
  have hlt : 2 * n.toBitVec.toNat < 2 ^ 64 := by
    show 2 * n.toNat < 2 ^ 64
    omega
  exact BitVec.toInt_eq_toNat_of_lt hlt

/-- The words of a date. -/
def dateWords (d : Date) : UInt32 × UInt32 × UInt32 :=
  (UInt32.ofNat d.year, UInt32.ofNat d.month, UInt32.ofNat d.day)

def epoch : Date := ⟨1970, 1, 1⟩

theorem epoch_eq : epoch = ofMarch 1969 306 := rfl

theorem asU32_natCast (n : ℕ) : asU32 n = UInt32.ofNat n := by
  have hmod : ((n : ℤ) % 2 ^ 32).toNat = n % 2 ^ 32 := by omega
  rw [asU32, hmod]
  exact UInt32.ofNat_mod_size

theorem le_year_ofMarch (y doy : ℕ) : y ≤ (ofMarch y doy).year := by
  unfold ofMarch
  split_ifs
  · exact Nat.le_succ y
  · exact Nat.le_refl y

/-- No step leaves its word for any time that fits in one. -/
theorem daysToYmd_words {n : UInt64} (h : n.toNat < 2 ^ 62) :
    (daysToYmd n : Except (Fault ε) _) = .ok (dateWords (epoch.addDays n.toNat)) := by
  obtain ⟨y, doy, hdoy, hdays, hdate⟩ := addDays_ofMarch 1969 306
    (by decide) n.toNat
  have hepoch : marchDays 1969 + 306 = 719468 := rfl
  have hshort := yearLength_le y
  have hbound : 365 * y ≤ marchDays y := by
    unfold marchDays
    omega
  have hz : n.toInt64.toInt + 719468 = ((marchDays y + doy : ℕ) : ℤ) := by
    rw [toInt_toInt64 (by omega)]
    omega
  rw [epoch_eq, hdate, daysToYmd, hz, Checked.int64_of_lt (by omega) (by omega), Checked.ok_bind,
    yearAndDay_eq (by omega) hdoy, Checked.ok_bind, monthAndDay_eq hdoy, Checked.ok_bind,
    calendarYear_eq (by omega), Checked.ok_bind]
  simp only [asU32_natCast]
  rfl

/-- The date is the one that many days after 1970-01-01, as long as its year fits in a
word. -/
theorem daysToYmd_eq (n : UInt64) (h : (epoch.addDays n.toNat).year < 2 ^ 32) :
    (daysToYmd n : Except (Fault ε) _) = .ok (dateWords (epoch.addDays n.toNat)) := by
  refine daysToYmd_words ?_
  obtain ⟨y, doy, hdoy, hdays, hdate⟩ := addDays_ofMarch 1969 306
    (by decide) n.toNat
  have hy := le_year_ofMarch y doy
  rw [epoch_eq, hdate] at h
  have hshort := yearLength_le y
  have hbound : marchDays y ≤ 366 * y := by
    unfold marchDays
    omega
  omega

/-- The last day of February of a leap year. -/
theorem daysToYmd_leapDay :
    (daysToYmd 789 : Except (Fault Empty) _) = .ok (1972, 2, 29) := by
  have hdate : epoch.addDays (789 : UInt64).toNat = ⟨1972, 2, 29⟩ := by decide +kernel
  have hrun := daysToYmd_eq (ε := Empty) 789 (by rw [hdate]; decide)
  rw [hdate] at hrun
  exact hrun

/-- Every time has a text, with the date of its day; only a year past 32 bits is cut. -/
theorem formatUnixTimestamp_eq {secs : UInt64} (h : secs ≠ 0) :
    (formatUnixTimestamp secs : Except (Fault ε) Bytes) =
      .ok (isoText (dateWords (epoch.addDays (secs.toNat / 86400)))
        (secs / 3600 % 24) (secs / 60 % 60) (secs % 60)) := by
  have hdays : (secs / 86400).toNat = secs.toNat / 86400 := UInt64.toNat_div _ _
  have hlt := secs.toNat_lt
  rw [formatUnixTimestamp, if_neg h, daysToYmd_words (by omega), Checked.ok_bind, hdays]
  rfl

end

end SliceFs
