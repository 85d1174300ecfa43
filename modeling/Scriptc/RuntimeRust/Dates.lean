import Mathlib.Tactic.IntervalCases
import Scriptc.Lib.Numerals
import Scriptc.Num.Integral
import Scriptc.RuntimeRust.BytesEncoding

/-!
# Dates

`clock_and_date.rs`: days and civil dates, the ISO text of a time, and what is parsed back. The parser scans
bytes for ASCII characters, which is a scan of characters. Each way back undoes the way there.
-/

namespace Scriptc.RuntimeRust.Dates

open List

open Decoder (Units chars chars_encode)
open Numerals (digitValue padded length_padded read_padded)

/-! ### Days -/

def civilFromDays (day : ℤ) : ℤ × ℕ × ℕ :=
  let z := day + 719468
  let era := (if 0 ≤ z then z else z - 146096).tdiv 146097
  let dayOfEra := (z - era * 146097).toNat
  let yearOfEra := (dayOfEra - dayOfEra / 1460 + dayOfEra / 36524 - dayOfEra / 146096) / 365
  let year := yearOfEra + era * 400
  let dayOfYear := dayOfEra - (365 * yearOfEra + yearOfEra / 4 - yearOfEra / 100)
  let monthPrime := (5 * dayOfYear + 2) / 153
  let date := dayOfYear - (153 * monthPrime + 2) / 5 + 1
  let month := if monthPrime < 10 then monthPrime + 3 else monthPrime - 9
  (if month ≤ 2 then year + 1 else year, month, date)

def daysFromCivil (year month date : ℤ) : F64 :=
  let year := year - if month ≤ 2 then 1 else 0
  let era := (if 0 ≤ year then year else year - 399).tdiv 400
  let yearOfEra := (year - era * 400).toNat
  let monthPrime := month + if 2 < month then -3 else 9
  let dayOfYear := ((153 * monthPrime + 2).tdiv 5 + date - 1).toNat
  let dayOfEra := yearOfEra * 365 + yearOfEra / 4 - yearOfEra / 100 + dayOfYear
  .ofInt (era * 146097 + dayOfEra - 719468)

/-! ### Times -/

/-- The largest time. -/
def maxTime : F64 := .ofInt 8640000000000000

def dateNewMs (ms : F64) : F64 :=
  if !ms.isFinite || maxTime.lt (F64.abs ms) then .nan
  else if (F64.trunc ms).isZero then .zero else F64.trunc ms

def yearText (year : ℤ) : List Char :=
  if year < 0 then '-' :: padded 6 (-year).toNat
  else if 9999 < year then '+' :: padded 6 year.toNat
  else padded 4 year.toNat

def isoText (year : ℤ) (month date millisOfDay : ℕ) : List Char :=
  yearText year ++ '-' :: (padded 2 month ++ '-' :: (padded 2 date ++ 'T' ::
    (padded 2 (millisOfDay / 3600000) ++ ':' :: (padded 2 (millisOfDay / 60000 % 60) ++ ':' ::
    (padded 2 (millisOfDay / 1000 % 60) ++ '.' :: (padded 3 (millisOfDay % 1000) ++ ['Z']))))))

/-- A time that is none throws. -/
def dateToIso (ms : F64) : Option Units :=
  if !ms.isFinite || maxTime.lt (F64.abs ms) then none
  else
    let time := F64.trunc ms
    let day := F64.floor (F64.div time (.ofInt 86400000))
    let millisOfDay := (F64.truncRat (F64.sub time (F64.mul day (.ofInt 86400000))).rat).toNat
    let (year, month, date) := civilFromDays (F64.truncRat day.rat)
    some (Utf16.encode (isoText year month date millisOfDay))

def dateMakeMs (year : ℤ) (month date hours minutes seconds ms : ℕ) : F64 :=
  if ¬ (1 ≤ month ∧ month ≤ 12) ∨ ¬ (1 ≤ date ∧ date ≤ 31) ∨ 24 < hours ∨ 59 < minutes ∨ 59 < seconds ∨
      hours = 24 ∧ (minutes ≠ 0 ∨ seconds ≠ 0 ∨ ms ≠ 0) then .nan
  else
    F64.add (F64.add (F64.add (F64.add (F64.mul (daysFromCivil year month date) (.ofInt 86400000)) (F64.mul (.ofInt hours) (.ofInt 3600000)))
      (F64.mul (.ofInt minutes) (.ofInt 60000))) (F64.mul (.ofInt seconds) (.ofInt 1000))) (.ofInt ms)

/-! ### Parsing -/

/-- `date_take_digits` -/
def takeDigits (count : ℕ) (text : List Char) : Option (ℕ × List Char) :=
  if text.length < count then none
  else (Numerals.read digitValue 10 0 (text.take count)).map fun value => (value, text.drop count)

def expect (c : Char) : List Char → Option (List Char)
  | [] => none
  | d :: rest => if d = c then some rest else none

def months : List (List Char) :=
  ["jan", "feb", "mar", "apr", "may", "jun", "jul", "aug", "sep", "oct", "nov", "dec"].map String.toList

def skipSpace : List Char → List Char
  | ' ' :: rest => rest
  | text => text

/-- The date of a certificate. -/
def parseAsn1 (text : List Char) : Option F64 := do
  let month ← months.findIdx? (· = (text.take 3).map Char.toLower)
  let (first, rest) ← takeDigits 1 (skipSpace (skipSpace (text.drop 3)))
  let (date, rest) := ((takeDigits 1 rest).map fun (second, rest) => (first * 10 + second, rest)).getD (first, rest)
  let (hours, rest) ← takeDigits 2 (← expect ' ' rest)
  let (minutes, rest) ← takeDigits 2 (← expect ':' rest)
  let (seconds, rest) ← takeDigits 2 (← expect ':' rest)
  let (year, rest) ← takeDigits 4 (← expect ' ' rest)
  if rest = " GMT".toList then some (dateNewMs (dateMakeMs year (month + 1) date hours minutes seconds 0)) else none

def takeYear : List Char → Option (ℤ × List Char)
  | '-' :: rest => (takeDigits 6 rest).bind fun (year, rest) => if year = 0 then none else some (-year, rest)
  | '+' :: rest => (takeDigits 6 rest).map fun (year, rest) => (year, rest)
  | text => (takeDigits 4 text).map fun (year, rest) => (year, rest)

/-- A part that may be left out, after a character. -/
def takeAfter (c : Char) (count absent : ℕ) : List Char → Option (ℕ × List Char)
  | [] => some (absent, [])
  | d :: rest => if d = c then takeDigits count rest else some (absent, d :: rest)

/-- Two parts that may be left out, the second only with the first. -/
def takeTwo (c d : Char) (count count' absent : ℕ) (text : List Char) : Option (ℕ × ℕ × List Char) := do
  let (first, rest) ← takeAfter c count absent text
  if text.head? = some c then
    let (second, rest) ← takeAfter d count' absent rest
    some (first, second, rest)
  else some (first, absent, rest)

def takeOffset : List Char → Option (F64 × List Char)
  | 'Z' :: rest => some (.zero, rest)
  | c :: rest =>
    if c = '+' ∨ c = '-' then do
      let (hours, rest) ← takeDigits 2 rest
      let (minutes, rest) ← takeDigits 2 (← expect ':' rest)
      if 23 < hours ∨ 59 < minutes then none
      else
        let value := F64.mul (.ofInt (hours * 60 + minutes : ℕ)) (.ofInt 60000)
        some (if c = '-' then F64.neg value else value, rest)
    else none
  | [] => none

def parseIso (text : List Char) : Option F64 := do
  let (year, rest) ← takeYear text
  let (month, date, rest) ← takeTwo '-' '-' 2 2 1 rest
  if rest = [] then some (dateNewMs (dateMakeMs year month date 0 0 0 0))
  else
    let (hours, rest) ← takeDigits 2 (← expect 'T' rest)
    let (minutes, rest) ← takeDigits 2 (← expect ':' rest)
    let (seconds, ms, rest) ← takeTwo ':' '.' 2 3 0 rest
    let (offset, rest) ← takeOffset rest
    if rest = [] then some (dateNewMs (F64.sub (dateMakeMs year month date hours minutes seconds ms) offset)) else none

/-- The text of a certificate starts with a letter; a short one with a letter is no date at all. -/
def dateParseGetTime (value : Units) : F64 :=
  let text := chars value
  if 3 < text.length ∧ (text.head?.any fun c => c.isAlpha) then (parseAsn1 text).getD .nan
  else (parseIso text).getD .nan

/-! ### The calendar -/

def IsLeap (year : ℤ) : Prop := 4 ∣ year ∧ (¬ 100 ∣ year ∨ 400 ∣ year)

instance (year : ℤ) : Decidable (IsLeap year) := inferInstanceAs (Decidable (_ ∧ _))

def daysInMonth (year : ℤ) (month : ℕ) : ℕ :=
  if month = 2 then if IsLeap year then 29 else 28
  else if month = 4 ∨ month = 6 ∨ month = 9 ∨ month = 11 then 30
  else 31

/-- A day of an era by centuries, cycles of four years, years and days. -/
structure EraDay (d a b r s : ℕ) : Prop where
  eq : d = 36524 * a + 1461 * b + 365 * r + s
  century : a ≤ 3
  cycle : b ≤ 24
  year : r ≤ 3
  day : s ≤ 365
  /-- Only the last year of a cycle has a leap day, and that of the last cycle only in the last century. -/
  leap : s = 365 → r = 3 ∧ (b = 24 → a = 3)

theorem exists_eraDay {d : ℕ} (hd : d < 146097) : ∃ a b r s, EraDay d a b r s := by
  obtain ⟨a, c, hc, ha, hlast⟩ : ∃ a c, d = 36524 * a + c ∧ a ≤ 3 ∧ (c < 36524 ∨ a = 3 ∧ c = 36524) := by
    rcases Nat.lt_or_ge d 146096 with h | h
    · exact ⟨d / 36524, d % 36524, by omega, by omega, by omega⟩
    · exact ⟨3, 36524, by omega, by omega, by omega⟩
  obtain ⟨r, s, hs, hr, hleap⟩ : ∃ r s, c % 1461 = 365 * r + s ∧ r ≤ 3 ∧ (s < 365 ∨ r = 3 ∧ s = 365) := by
    rcases Nat.lt_or_ge (c % 1461) 1460 with h | h
    · exact ⟨c % 1461 / 365, c % 1461 % 365, by omega, by omega, by omega⟩
    · exact ⟨3, 365, by omega, by omega, by omega⟩
  exact ⟨a, c / 1461, r, s, by omega, ha, by omega, hr, by omega, by omega⟩

/-- The days are divided by the lengths of a year, and corrected for the leap days. -/
theorem EraDay.yearOfEra {d a b r s : ℕ} (h : EraDay d a b r s) :
    (d - d / 1460 + d / 36524 - d / 146096) / 365 = 100 * a + 4 * b + r := by
  obtain ⟨hd, ha, hb, hr, hs, hleap⟩ := h
  obtain ⟨e, he⟩ : ∃ e, e = (24 * a + b + 365 * r + s) / 1460 := ⟨_, rfl⟩
  have hcycle : d / 1460 = 25 * a + b + e := by
    rw [hd, he, ← Nat.mul_add_div (by norm_num : 0 < 1460)]
    congr 1
    ring
  have hcentury : d / 36524 - d / 146096 = a := by
    rcases Nat.lt_or_ge d 146096 with h | h
    · rw [Nat.div_eq_of_lt h]
      omega
    · omega
  have hle : d / 146096 ≤ d / 36524 := by omega
  have hcarry : e ≤ 1 ∧ (e = 0 → s < 365) ∧ (e = 1 → 1460 ≤ 24 * a + b + 365 * r + s) := by omega
  have hsplit : d - d / 1460 + d / 36524 - d / 146096 = 365 * (100 * a + 4 * b + r) + (s - e) := by omega
  rw [hsplit]
  omega

theorem EraDay.start {d a b r s : ℕ} (h : EraDay d a b r s) :
    365 * (100 * a + 4 * b + r) + (100 * a + 4 * b + r) / 4 - (100 * a + 4 * b + r) / 100 = d - s := by
  obtain ⟨hd, ha, hb, hr, -, -⟩ := h
  omega

/-- Division of an integer that rounds down, by one that rounds towards zero. -/
theorem tdiv_floor {z n : ℤ} (hn : 0 < n) : (if 0 ≤ z then z else z - (n - 1)).tdiv n = z / n := by
  split_ifs with hz
  · exact Int.tdiv_eq_ediv_of_nonneg hz
  · have h1 := Int.mul_ediv_add_emod z n
    have h2 := Int.emod_nonneg z hn.ne'
    have h3 := Int.emod_lt_of_pos z hn
    have hneg : z - (n - 1) = -(n - 1 - z) := by ring
    have hsplit : n - 1 - z = (n - 1 - z % n) + n * -(z / n) := by linarith
    have hdiv := ((Int.ediv_emod_unique hn).mpr ⟨hsplit.symm, by omega, by omega⟩).1
    rw [hneg, Int.neg_tdiv, Int.tdiv_eq_ediv_of_nonneg (by omega), hdiv, neg_neg]

/-- What a day is by eras, and what the code makes of it. -/
theorem civilFromDays_eraDay (day : ℤ) : ∃ (era : ℤ) (d a b r s : ℕ), EraDay d a b r s ∧ day = era * 146097 + d - 719468 ∧
    civilFromDays day =
      (if (if (5 * s + 2) / 153 < 10 then (5 * s + 2) / 153 + 3 else (5 * s + 2) / 153 - 9) ≤ 2 then
          ((100 * a + 4 * b + r : ℕ) : ℤ) + era * 400 + 1 else ((100 * a + 4 * b + r : ℕ) : ℤ) + era * 400,
        if (5 * s + 2) / 153 < 10 then (5 * s + 2) / 153 + 3 else (5 * s + 2) / 153 - 9,
        s - (153 * ((5 * s + 2) / 153) + 2) / 5 + 1) := by
  have h1 := Int.mul_ediv_add_emod (day + 719468) 146097
  have h2 := Int.emod_nonneg (day + 719468) (by norm_num : (146097 : ℤ) ≠ 0)
  have h3 := Int.emod_lt_of_pos (day + 719468) (by norm_num : (0 : ℤ) < 146097)
  have hera := tdiv_floor (z := day + 719468) (by norm_num : (0 : ℤ) < 146097)
  obtain ⟨d, hd⟩ := Int.eq_ofNat_of_zero_le h2
  obtain ⟨a, b, r, s, h⟩ := exists_eraDay (d := d) (by omega)
  refine ⟨(day + 719468) / 146097, d, a, b, r, s, h, by omega, ?_⟩
  have hday : (day + 719468 - (day + 719468) / 146097 * 146097).toNat = d := by omega
  have hof : d - (d - s) = s := by
    have := h.eq
    omega
  rw [civilFromDays]
  simp only [show (146096 : ℤ) = 146097 - 1 by norm_num, hera, hday, h.yearOfEra, h.start, hof]

/-- A civil date by eras, months counted from March. -/
theorem daysFromCivil_eq {era year month date : ℤ} {y mp s : ℕ} (hy : y < 400) (hyear : year - (if month ≤ 2 then 1 else 0) = y + era * 400)
    (hmonth : month + (if 2 < month then -3 else 9) = mp) (hdate : (153 * mp + 2) / 5 + date - 1 = s) :
    daysFromCivil year month date = .ofInt (era * 146097 + (365 * y + y / 4 - y / 100 + s : ℕ) - 719468) := by
  have hera := tdiv_floor (z := (y : ℤ) + era * 400) (by norm_num : (0 : ℤ) < 400)
  have hdiv : ((y : ℤ) + era * 400) / 400 = era := by omega
  have hof : ((y : ℤ) + era * 400 - era * 400).toNat = y := by omega
  have hday : ((153 * (mp : ℤ) + 2).tdiv 5 + date - 1).toNat = s := by
    rw [Int.tdiv_eq_ediv_of_nonneg (by omega)]
    omega
  rw [daysFromCivil]
  simp only [hyear, hmonth, show (399 : ℤ) = 400 - 1 by norm_num, hera, hdiv, hof, hday]
  rw [Nat.mul_comm y]

/-- **Days are dates**: a day comes back from its civil date, which is one of the calendar. -/
theorem daysFromCivil_civilFromDays (day : ℤ) :
    daysFromCivil (civilFromDays day).1 (civilFromDays day).2.1 (civilFromDays day).2.2 = .ofInt day ∧
      (1 ≤ (civilFromDays day).2.1 ∧ (civilFromDays day).2.1 ≤ 12) ∧
      1 ≤ (civilFromDays day).2.2 ∧ (civilFromDays day).2.2 ≤ daysInMonth (civilFromDays day).1 (civilFromDays day).2.1 := by
  obtain ⟨era, d, a, b, r, s, h, rfl, hcivil⟩ := civilFromDays_eraDay day
  rw [hcivil]
  have hstart := h.start
  obtain ⟨hd, ha, hb, hr, hs, hleap⟩ := h
  obtain ⟨mp, hmp⟩ : ∃ mp, mp = (5 * s + 2) / 153 := ⟨_, rfl⟩
  have hmp11 : mp ≤ 11 := by omega
  have hy : 100 * a + 4 * b + r < 400 := by omega
  rw [← hmp]
  dsimp only
  refine ⟨?_, ?_, by omega, ?_⟩
  · have hyear : (if (if mp < 10 then mp + 3 else mp - 9) ≤ 2 then ((100 * a + 4 * b + r : ℕ) : ℤ) + era * 400 + 1 else
        ((100 * a + 4 * b + r : ℕ) : ℤ) + era * 400) -
        (if ((if mp < 10 then mp + 3 else mp - 9 : ℕ) : ℤ) ≤ 2 then 1 else 0) = (100 * a + 4 * b + r : ℕ) + era * 400 := by
      split_ifs <;> omega
    have hmonth : ((if mp < 10 then mp + 3 else mp - 9 : ℕ) : ℤ) +
        (if 2 < ((if mp < 10 then mp + 3 else mp - 9 : ℕ) : ℤ) then -3 else 9) = mp := by
      split_ifs <;> omega
    have hdate : (153 * (mp : ℤ) + 2) / 5 + (s - (153 * mp + 2) / 5 + 1 : ℕ) - 1 = s := by omega
    rw [daysFromCivil_eq hy hyear hmonth hdate]
    congr 2
    omega
  · split_ifs <;> omega
  · -- February ends the year that starts in March
    by_cases hfeb : mp = 11
    · subst hfeb
      have hleapYear : s = 365 → IsLeap (((100 * a + 4 * b + r : ℕ) : ℤ) + era * 400 + 1) := by
        intro hs
        obtain ⟨hr, hlast⟩ := hleap hs
        refine ⟨by omega, ?_⟩
        by_cases hcycle : b = 24
        · have := hlast hcycle
          exact .inr (by omega)
        · exact .inl (by omega)
      generalize ((100 * a + 4 * b + r : ℕ) : ℤ) + era * 400 + 1 = year at hleapYear ⊢
      change s - 337 + 1 ≤ if IsLeap year then 29 else 28
      by_cases hl : IsLeap year
      · rw [if_pos hl]
        omega
      · have hne : s ≠ 365 := fun hs => hl (hleapYear hs)
        rw [if_neg hl]
        omega
    · rw [daysInMonth]
      interval_cases mp <;> simp <;> omega

/-! ### The text of a time -/

variable {n : ℤ}

theorem isSafe_of_time (h : |n| ≤ 8640000000000000) : F64.IsSafe n := by
  have := abs_le.mp h
  exact ⟨by unfold F64.maxSafeInteger; omega, by unfold F64.maxSafeInteger; omega⟩

theorem isTime (h : |n| ≤ 8640000000000000) :
    (!(F64.ofInt n).isFinite || maxTime.lt (F64.abs (.ofInt n))) = false := by
  have hs := isSafe_of_time h
  have habs : F64.IsSafe |n| := isSafe_of_time (by rwa [abs_abs])
  rw [F64.isFinite_ofInt hs, F64.abs_ofInt hs, maxTime, F64.lt_ofInt (by decide) habs]
  simpa using h

/-- A time by days and the milliseconds of the last. -/
theorem dateToIso_eq (h : |n| ≤ 8640000000000000) : dateToIso (.ofInt n) =
    some (Utf16.encode (isoText (civilFromDays (n / 86400000)).1 (civilFromDays (n / 86400000)).2.1 (civilFromDays (n / 86400000)).2.2
      (n % 86400000).toNat)) := by
  have hs := isSafe_of_time h
  have hb := abs_le.mp h
  have hday : F64.IsSafe (n / 86400000) := isSafe_of_time (abs_le.mpr ⟨by omega, by omega⟩)
  have hstart : F64.IsSafe (n / 86400000 * 86400000) :=
    ⟨by unfold F64.maxSafeInteger; omega, by unfold F64.maxSafeInteger; omega⟩
  have hmillis : F64.IsSafe (n % 86400000) := isSafe_of_time (abs_le.mpr ⟨by omega, by omega⟩)
  have hdiff : n - n / 86400000 * 86400000 = n % 86400000 := by omega
  have hfloor : F64.floor (F64.div (.ofInt n) (.ofInt 86400000)) = .ofInt (n / 86400000) :=
    F64.floor_div_ofInt (d := 86400000) hs (by norm_num) (by norm_num) (lt_of_le_of_lt h (by norm_num))
  have hmul : F64.mul (.ofInt (n / 86400000)) (.ofInt 86400000) = .ofInt (n / 86400000 * 86400000) :=
    F64.mul_ofInt hday (by decide) (by norm_num) (by norm_num)
  rw [dateToIso, isTime h]
  simp only [Bool.false_eq_true, if_false, F64.trunc_ofInt hs, hfloor, hmul, F64.sub_ofInt hs hstart, hdiff, F64.rat_ofInt hday,
    F64.rat_ofInt hmillis, F64.truncRat_intCast]

/-! ### Parsing it back -/

/-- Numbers are read back in their width. -/
theorem takeDigits_padded {w n : ℕ} (hw : 0 < w) (hn : n < 10 ^ w) (rest : List Char) : takeDigits w (padded w n ++ rest) = some (n, rest) := by
  have hlength := length_padded hw hn
  rw [takeDigits, if_neg (by rw [length_append]; omega), take_left' hlength, drop_left' hlength, read_padded]
  rfl

theorem padded_head (w n : ℕ) : ∃ c text, padded w n = c :: text ∧ c.isDigit = true := by
  obtain ⟨c, text, hc⟩ : ∃ c text, padded w n = c :: text :=
    exists_cons_of_ne_nil (ne_nil_of_length_pos (by
      rw [padded, length_leftpad]
      exact Nat.length_toDigits_pos.trans_le (le_max_right _ _)))
  refine ⟨c, text, hc, ?_⟩
  have hread := Numerals.isSome_of_read (read_padded w n) c (by rw [hc]; exact mem_cons_self)
  by_contra hdigit
  rw [digitValue, if_neg hdigit] at hread
  cases hread

theorem takeYear_yearText {year : ℤ} (hlo : -1000000 < year) (hhi : year < 1000000) (rest : List Char) :
    takeYear (yearText year ++ rest) = some (year, rest) := by
  unfold yearText
  split_ifs with hneg hlarge
  · have hread := takeDigits_padded (w := 6) (n := (-year).toNat) (by norm_num) (by omega) rest
    rw [cons_append, takeYear, hread, Option.bind_some]
    dsimp only
    rw [if_neg (by omega), Int.toNat_of_nonneg (by omega), neg_neg]
  · have hread := takeDigits_padded (w := 6) (n := year.toNat) (by norm_num) (by omega) rest
    rw [cons_append, takeYear, hread, Option.map_some]
    dsimp only
    rw [Int.toNat_of_nonneg (by omega)]
  · have hread := takeDigits_padded (w := 4) (n := year.toNat) (by norm_num) (by omega) rest
    obtain ⟨c, text, hc, hdigit⟩ := padded_head 4 year.toNat
    rw [hc, cons_append] at hread ⊢
    unfold takeYear
    split
    next heq =>
      cases heq
      exact absurd hdigit (by decide)
    next heq =>
      cases heq
      exact absurd hdigit (by decide)
    next =>
      rw [hread, Option.map_some]
      dsimp only
      rw [Int.toNat_of_nonneg (by omega)]

theorem takeTwo_padded (c d : Char) {w w' m n : ℕ} (absent : ℕ) (hw : 0 < w) (hw' : 0 < w') (hm : m < 10 ^ w) (hn : n < 10 ^ w')
    (rest : List Char) : takeTwo c d w w' absent (c :: (padded w m ++ d :: (padded w' n ++ rest))) = some (m, n, rest) := by
  simp [takeTwo, takeAfter, takeDigits_padded hw hm, takeDigits_padded hw' hn]

/-- The text of a date is read back as the date. -/
theorem dateParse_isoText {year : ℤ} {month date millis : ℕ} (hlo : -1000000 < year) (hhi : year < 1000000) (hmonth : month < 100)
    (hdate : date < 100) (hmillis : millis < 86400000) : dateParseGetTime (Utf16.encode (isoText year month date millis)) =
      dateNewMs (F64.sub (dateMakeMs year month date (millis / 3600000) (millis / 60000 % 60) (millis / 1000 % 60) (millis % 1000)) .zero) := by
  have hhead : (isoText year month date millis).head?.any (fun c => c.isAlpha) = false := by
    rw [isoText, yearText]
    split_ifs
    · rfl
    · rfl
    · obtain ⟨c, text, hc, hdigit⟩ := padded_head 4 year.toNat
      rw [hc]
      simp only [Char.isDigit, Bool.and_eq_true, decide_eq_true_eq, UInt32.le_iff_toNat_le] at hdigit
      have halpha : c.isAlpha = (decide (65 ≤ c.val ∧ c.val ≤ 90) || (decide (97 ≤ c.val) && decide (c.val ≤ 122))) := rfl
      simp [halpha, UInt32.le_iff_toNat_le] at hdigit ⊢
      omega
  have hhours : millis / 3600000 < 10 ^ 2 := by omega
  have hminutes : millis / 60000 % 60 < 10 ^ 2 := by omega
  have hseconds : millis / 1000 % 60 < 10 ^ 2 := by omega
  have hms : millis % 1000 < 10 ^ 3 := by omega
  have hparse : parseIso (isoText year month date millis) = some (dateNewMs (F64.sub
      (dateMakeMs year month date (millis / 3600000) (millis / 60000 % 60) (millis / 1000 % 60) (millis % 1000)) .zero)) := by
    unfold parseIso isoText
    simp [takeYear_yearText hlo hhi, takeTwo_padded '-' '-' 1 two_pos two_pos hmonth hdate, expect, takeDigits_padded two_pos hhours,
      takeDigits_padded two_pos hminutes, takeTwo_padded ':' '.' 0 two_pos three_pos hseconds hms, takeOffset]
  rw [dateParseGetTime, chars_encode, hparse, hhead, if_neg (by simp)]
  rfl

/-- The parts of a time add up. -/
theorem dateMakeMs_eq {day : ℤ} {year : ℤ} {month date millis : ℕ} (hday : |day * 86400000| ≤ 8640000086400000)
    (hcivil : daysFromCivil year month date = .ofInt day) (hmonth : 1 ≤ month ∧ month ≤ 12) (hdate : 1 ≤ date ∧ date ≤ 31)
    (hmillis : millis < 86400000) :
    dateMakeMs year month date (millis / 3600000) (millis / 60000 % 60) (millis / 1000 % 60) (millis % 1000) =
      .ofInt (day * 86400000 + millis) := by
  have hb := abs_le.mp hday
  have hsafe : ∀ k : ℤ, 0 ≤ k → k ≤ millis → F64.IsSafe (day * 86400000 + k) := fun k h0 h1 =>
    ⟨by unfold F64.maxSafeInteger; omega, by unfold F64.maxSafeInteger; omega⟩
  have hsmall : ∀ k : ℤ, 0 ≤ k → k ≤ 86400000 → F64.IsSafe k := fun k h0 h1 =>
    ⟨by unfold F64.maxSafeInteger; omega, by unfold F64.maxSafeInteger; omega⟩
  have hmul : ∀ a b : ℤ, 0 ≤ a → 0 ≤ b → a ≤ 86400000 → b ≤ 86400000 → F64.mul (.ofInt a) (.ofInt b) = .ofInt (a * b) :=
    fun a b ha hb ha' hb' => F64.mul_ofInt (hsmall a ha ha') (hsmall b hb hb') (fun _ => hb) fun _ => ha
  have hdays : F64.mul (.ofInt day) (.ofInt 86400000) = .ofInt (day * 86400000) :=
    F64.mul_ofInt ⟨by unfold F64.maxSafeInteger; omega, by unfold F64.maxSafeInteger; omega⟩ (by decide) (by norm_num) (by norm_num)
  have hstart := hsafe 0 le_rfl (by omega)
  rw [add_zero] at hstart
  rw [dateMakeMs, if_neg (by omega), hcivil, hdays, hmul _ 3600000 (by omega) (by norm_num) (by omega) (by norm_num),
    hmul _ 60000 (by omega) (by norm_num) (by omega) (by norm_num), hmul _ 1000 (by omega) (by norm_num) (by omega) (by norm_num)]
  have hhours := hsafe ((millis / 3600000 : ℕ) * 3600000) (by omega) (by omega)
  have hminutes := hsafe ((millis / 3600000 : ℕ) * 3600000 + (millis / 60000 % 60 : ℕ) * 60000) (by omega) (by omega)
  have hseconds := hsafe ((millis / 3600000 : ℕ) * 3600000 + (millis / 60000 % 60 : ℕ) * 60000 + (millis / 1000 % 60 : ℕ) * 1000)
    (by omega) (by omega)
  rw [← add_assoc] at hminutes hseconds
  rw [← add_assoc] at hseconds
  rw [F64.add_ofInt hstart (hsmall _ (by omega) (by omega)), F64.add_ofInt hhours (hsmall _ (by omega) (by omega)),
    F64.add_ofInt hminutes (hsmall _ (by omega) (by omega)), F64.add_ofInt hseconds (hsmall _ (by omega) (by omega))]
  congr 1
  omega

theorem dateNewMs_ofInt (h : |n| ≤ 8640000000000000) : dateNewMs (.ofInt n) = .ofInt n := by
  have hs := isSafe_of_time h
  rw [dateNewMs, isTime h, if_neg (by simp), F64.trunc_ofInt hs, F64.isZero_ofInt hs]
  split_ifs with hzero
  · rw [of_decide_eq_true hzero, F64.ofInt_zero]
  · rfl

/-- The years of the range of times have six digits at most. -/
theorem civilFromDays_year {day : ℤ} (h : |day| ≤ 100000000) : -1000000 < (civilFromDays day).1 ∧ (civilFromDays day).1 < 1000000 := by
  have hb := abs_le.mp h
  obtain ⟨era, d, a, b, r, s, ⟨hd, ha, hcycle, hr, hs, -⟩, rfl, hcivil⟩ := civilFromDays_eraDay day
  rw [hcivil]
  dsimp only
  split_ifs <;> omega

/-- **Dates.** Days and civil dates are inverse, and so are times and their ISO texts. -/
theorem dates_inverse :
    (∀ day : ℤ, |day| ≤ 100000000 →
      daysFromCivil (civilFromDays day).1 (civilFromDays day).2.1 (civilFromDays day).2.2 = .ofInt day ∧
        (1 ≤ (civilFromDays day).2.1 ∧ (civilFromDays day).2.1 ≤ 12) ∧
        1 ≤ (civilFromDays day).2.2 ∧ (civilFromDays day).2.2 ≤ daysInMonth (civilFromDays day).1 (civilFromDays day).2.1) ∧
    ∀ n : ℤ, |n| ≤ 8640000000000000 → ∃ text, dateToIso (.ofInt n) = some text ∧ dateParseGetTime text = .ofInt n := by
  refine ⟨fun day _ => daysFromCivil_civilFromDays day, fun n h => ⟨_, dateToIso_eq h, ?_⟩⟩
  have hb := abs_le.mp h
  have hday : |n / 86400000| ≤ 100000000 := abs_le.mpr ⟨by omega, by omega⟩
  obtain ⟨hcivil, hmonth, hdate, hlast⟩ := daysFromCivil_civilFromDays (n / 86400000)
  obtain ⟨hlo, hhi⟩ := civilFromDays_year hday
  have hmonthLength : daysInMonth (civilFromDays (n / 86400000)).1 (civilFromDays (n / 86400000)).2.1 ≤ 31 := by
    unfold daysInMonth
    split_ifs <;> omega
  have hmillis : (n % 86400000).toNat < 86400000 := by omega
  have htime : n / 86400000 * 86400000 + ((n % 86400000).toNat : ℤ) = n := by omega
  rw [dateParse_isoText hlo hhi (by omega) (by omega) hmillis,
    dateMakeMs_eq (abs_le.mpr ⟨by omega, by omega⟩) hcivil hmonth ⟨hdate, hlast.trans hmonthLength⟩ hmillis, htime, ← F64.ofInt_zero,
    F64.sub_ofInt (isSafe_of_time h) (by decide), sub_zero, dateNewMs_ofInt h]

end Scriptc.RuntimeRust.Dates
