import Mathlib.Algebra.Ring.Int.Defs
import OxiServe.Lib.Bytes

/-! # HTTP dates

A time is written as weekday, day, month and year with the time of day, in whole
seconds; a time before 1970 is written as its first second. The calendar is reckoned
from the first of March, in eras of four centuries.
-/
namespace OxiServe.Date

def dayNames : List Bytes := [lit "Sun",lit "Mon",lit "Tue",lit "Wed",lit "Thu",lit "Fri",lit "Sat"]

def monthNames : List Bytes :=
  [lit "Jan",lit "Feb",lit "Mar",lit "Apr",lit "May",lit "Jun",lit "Jul",lit "Aug",lit "Sep",lit "Oct",lit "Nov",
    lit "Dec"]

def pad2 (n : ℕ) : Bytes := (if n < 10 then [48] else []) ++ decimal n

/-- Days since the epoch to year, month and day. The year is cut to 32 bits. -/
def civilFromDays (z : Int) : Int × ℕ × ℕ :=
  let z := z + 719468
  let era := z / 146097
  let doe := z % 146097
  let yoe := (doe - doe / 1460 + doe / 36524 - doe / 146096) / 365
  let y := yoe + era * 400
  let doy := doe - (365 * yoe + yoe / 4 - yoe / 100)
  let mp := (5 * doy + 2) / 153
  let d := doy - (153 * mp + 2) / 5 + 1
  let m := if mp < 10 then mp + 3 else mp - 9
  (Int.bmod (y + if m ≤ 2 then 1 else 0) (2 ^ 32),m.toNat,d.toNat)

def year (y : Int) : Bytes := if y < 0 then lit "-" ++ decimal y.natAbs else decimal y.natAbs

/-- The fields of a date as they are written. -/
def fixdate (weekday : ℕ) (y : Int) (m d hour minute second : ℕ) : Bytes :=
  dayNames.getD weekday [] ++ lit ", " ++ pad2 d ++ lit " " ++ monthNames.getD (min (m - 1) 11) [] ++ lit " " ++
    year y ++ lit " " ++ pad2 hour ++ lit ":" ++ pad2 minute ++ lit ":" ++ pad2 second ++ lit " GMT"

/-- Whole seconds since the epoch, zero before it. Times are nanoseconds. -/
def wholeSecs (t : Int) : ℕ := t.toNat / 1000000000

/-- 1970-01-01 was a Thursday. -/
def httpDate (t : Int) : Bytes :=
  let secs := wholeSecs t
  let days := secs / 86400
  let rem := secs % 86400
  let (y,m,d) := civilFromDays days
  fixdate ((days + 4) % 7) y m d (rem / 3600) (rem % 3600 / 60) (rem % 60)

section Calendar

/-- Days from the first of January of year 1 to that of year `y`. -/
def daysBeforeYear (y : Int) : Int := 365 * (y - 1) + (y - 1) / 4 - (y - 1) / 100 + (y - 1) / 400

def isLeap (y : Int) : Bool := y % 4 == 0 && (y % 100 != 0 || y % 400 == 0)

/-- Days from the first of January to the first of a month. -/
def daysBeforeMonth (y : Int) (m : ℕ) : Int :=
  [0,31,59,90,120,151,181,212,243,273,304,334].getD (m - 1) 0 + if isLeap y && 2 < m then 1 else 0

/-- Days since 1970-01-01. -/
def dayNumber (y : Int) (m d : ℕ) : Int := daysBeforeYear y - daysBeforeYear 1970 + daysBeforeMonth y m + (d - 1)

theorem daysBeforeYear_succ (y : Int) :
    daysBeforeYear (y + 1) = daysBeforeYear y + 365 + if isLeap y then 1 else 0 := by
  unfold daysBeforeYear isLeap
  simp only [Bool.and_eq_true,Bool.or_eq_true,beq_iff_eq,bne_iff_ne]
  split <;> omega

/-- The years of an era before the one of a day, as four-year and hundred-year leaps. -/
theorem leaps_of_era {doe yoe c d e : Int} (h0 : 0 ≤ doe) (h1 : doe < 146097) (hc : c = doe / 1460)
    (hd : d = doe / 36524) (he : e = doe / 146096) (hy : yoe = (doe - c + d - e) / 365) :
    yoe / 4 ≤ c ∧ c ≤ yoe / 4 + 1 ∧ yoe / 100 = d - e := by
  refine ⟨by omega,by omega,?_⟩
  have hcentury : d = 0 ∨ d = 1 ∨ d = 2 ∨ d = 3 ∨ d = 4 := by omega
  have hy1 : 365 * yoe ≤ doe - c + d - e := by omega
  have hy2 : doe - c + d - e < 365 * yoe + 365 := by omega
  have hc1 : 1460 * c ≤ doe := by omega
  have hc2 : doe < 1460 * c + 1460 := by omega
  have hd1 : 36524 * d ≤ doe := by omega
  have hd2 : doe < 36524 * d + 36524 := by omega
  clear hy hc
  rcases hcentury with h | h | h | h | h <;> omega

/-- A day has its place in the year that starts in March. -/
theorem dayOfYear_bounds {doe yoe : Int} (h0 : 0 ≤ doe) (h1 : doe < 146097)
    (hy : yoe = (doe - doe / 1460 + doe / 36524 - doe / 146096) / 365) :
    0 ≤ yoe ∧ yoe < 400 ∧ 0 ≤ doe - (365 * yoe + yoe / 4 - yoe / 100) ∧
      doe - (365 * yoe + yoe / 4 - yoe / 100) ≤ 365 := by
  obtain ⟨hc1,hc2,hd⟩ := leaps_of_era h0 h1 rfl rfl rfl hy
  refine ⟨by omega,by omega,?_,?_⟩
  · omega
  · omega

/-- The parts of a day number that are reckoned from the first of March. -/
theorem civil_parts (z : Int) :
    ∃ era yoe mp d : Int, 0 ≤ yoe ∧ yoe < 400 ∧ 0 ≤ mp ∧ mp < 12 ∧ 1 ≤ d ∧ d ≤ 31 ∧
      z + 719468 = era * 146097 + (365 * yoe + yoe / 4 - yoe / 100) + (153 * mp + 2) / 5 + d - 1 ∧
      civilFromDays z = (Int.bmod (yoe + era * 400 + if mp < 10 then 0 else 1) (2 ^ 32),
        (if mp < 10 then mp + 3 else mp - 9).toNat,d.toNat) := by
  obtain ⟨doe,hdoe⟩ : ∃ doe, doe = (z + 719468) % 146097 := ⟨_,rfl⟩
  obtain ⟨yoe,hyoe⟩ : ∃ yoe, yoe = (doe - doe / 1460 + doe / 36524 - doe / 146096) / 365 := ⟨_,rfl⟩
  obtain ⟨doy,hdoy⟩ : ∃ doy, doy = doe - (365 * yoe + yoe / 4 - yoe / 100) := ⟨_,rfl⟩
  obtain ⟨mp,hmp⟩ : ∃ mp, mp = (5 * doy + 2) / 153 := ⟨_,rfl⟩
  have h0 : 0 ≤ doe := by omega
  have h1 : doe < 146097 := by omega
  obtain ⟨hy0,hy1,hd0,hd1⟩ := dayOfYear_bounds h0 h1 hyoe
  rw [← hdoy] at hd0 hd1
  have hmp0 : 0 ≤ mp ∧ mp < 12 := by omega
  have hd : 1 ≤ doy - (153 * mp + 2) / 5 + 1 ∧ doy - (153 * mp + 2) / 5 + 1 ≤ 31 := by omega
  refine ⟨(z + 719468) / 146097,yoe,mp,doy - (153 * mp + 2) / 5 + 1,hy0,hy1,hmp0.1,hmp0.2,hd.1,hd.2,?_,?_⟩
  · omega
  · have hjan : (if (if mp < 10 then mp + 3 else mp - 9) ≤ 2 then (1 : Int) else 0) = if mp < 10 then 0 else 1 := by
      split
      · rw [if_neg (by omega)]
      · rw [if_pos (by omega)]
    simp only [civilFromDays,← hdoe,← hyoe,← hdoy,← hmp,hjan]

theorem daysBeforeMarchYear {era yoe : Int} (h0 : 0 ≤ yoe) (h1 : yoe < 400) :
    daysBeforeYear (yoe + era * 400 + 1) = era * 146097 + (365 * yoe + yoe / 4 - yoe / 100) := by
  unfold daysBeforeYear
  omega

/-- From March on a leap day is past. -/
theorem daysBeforeMonth_march (y : Int) {k : ℕ} (hk : k < 10) :
    daysBeforeMonth y (k + 3) = (153 * k + 2) / 5 + 59 + if isLeap y then 1 else 0 := by
  have htable : ∀ k < 10,
      [0,31,59,90,120,151,181,212,243,273,304,334].getD (k + 3 - 1) 0 = (153 * (k : Int) + 2) / 5 + 59 := by decide
  have hpast : decide (2 < k + 3) = true := by
    rw [decide_eq_true_eq]
    omega
  rw [daysBeforeMonth,htable k hk,hpast,Bool.and_true]

/-- The first of the month that is `mp` months after March. -/
theorem daysBefore_march {y mp : Int} (h0 : 0 ≤ mp) (h1 : mp < 12) :
    daysBeforeYear (y + if mp < 10 then 0 else 1) +
        daysBeforeMonth (y + if mp < 10 then 0 else 1) (if mp < 10 then mp + 3 else mp - 9).toNat =
      daysBeforeYear (y + 1) + (153 * mp + 2) / 5 - 306 := by
  obtain ⟨k,rfl⟩ := Int.eq_ofNat_of_zero_le h0
  have hsucc := daysBeforeYear_succ y
  by_cases hk : (k : Int) < 10
  · have hmonth : ((k : Int) + 3).toNat = k + 3 := by omega
    rw [if_pos hk,if_pos hk,hmonth,daysBeforeMonth_march _ (by omega),Int.add_zero,hsucc]
    omega
  · rw [if_neg hk,if_neg hk]
    have hlast : k = 10 ∨ k = 11 := by omega
    rcases hlast with rfl | rfl
    · have hjan : daysBeforeMonth (y + 1) ((10 : ℕ) - 9 : Int).toNat = 0 := by simp [daysBeforeMonth]
      rw [hjan]
      omega
    · have hfeb : daysBeforeMonth (y + 1) ((11 : ℕ) - 9 : Int).toNat = 31 := by simp [daysBeforeMonth]
      rw [hfeb]
      omega

/-- The date of a day is that day's date in the calendar, as far as the year fits. -/
theorem dayNumber_civilFromDays {z : Int} (h0 : 0 ≤ z) (h1 : z < 2 ^ 39) :
    dayNumber (civilFromDays z).1 (civilFromDays z).2.1 (civilFromDays z).2.2 = z := by
  obtain ⟨era,yoe,mp,d,hy0,hy1,hm0,hm1,hd0,hd1,hz,hc⟩ := civil_parts z
  have hyear : Int.bmod (yoe + era * 400 + if mp < 10 then 0 else 1) (2 ^ 32) =
      yoe + era * 400 + if mp < 10 then 0 else 1 := by
    have hera : 0 ≤ era ∧ era < 2 ^ 22 := by omega
    apply Int.bmod_eq_of_le
    · split <;> omega
    · split <;> omega
  have hday : (d.toNat : Int) = d := Int.toNat_of_nonneg (by omega)
  have hepoch : daysBeforeYear 1970 = 719162 := by decide
  have hfirst := daysBefore_march (y := yoe + era * 400) hm0 hm1
  rw [daysBeforeMarchYear hy0 hy1] at hfirst
  rw [hc]
  simp only [dayNumber,hyear,hday,hepoch]
  omega

/-- The fields are those of a date in the years that dates can be written in. -/
theorem civil_bounds {z : Int} (h0 : 0 ≤ z) (h1 : z < 2932897) :
    1970 ≤ (civilFromDays z).1 ∧ (civilFromDays z).1 ≤ 9999 ∧ 1 ≤ (civilFromDays z).2.1 ∧
      (civilFromDays z).2.1 ≤ 12 ∧ 1 ≤ (civilFromDays z).2.2 ∧ (civilFromDays z).2.2 ≤ 31 := by
  obtain ⟨era,yoe,mp,d,hy0,hy1,hm0,hm1,hd0,hd1,hz,hc⟩ := civil_parts z
  have hera : 4 ≤ era ∧ era < 25 := by omega
  have hyear : Int.bmod (yoe + era * 400 + if mp < 10 then 0 else 1) (2 ^ 32) =
      yoe + era * 400 + if mp < 10 then 0 else 1 := by
    apply Int.bmod_eq_of_le
    · split <;> omega
    · split <;> omega
  rw [hc]
  simp only [hyear]
  split <;> omega

end Calendar

/-- The instant a date stands for. -/
def instant (y : Int) (m d hour minute second : ℕ) : Int :=
  (dayNumber y m d * 86400 + hour * 3600 + minute * 60 + second) * 1000000000

/-- The reader of dates takes those of the years 1970 to 9999 for what they stand for. -/
def ReadsDates (parse : Bytes → Option Int) : Prop :=
  ∀ w y m d hour minute second, w < 7 → 1970 ≤ y → y ≤ 9999 → 1 ≤ m → m ≤ 12 → 1 ≤ d → d ≤ 31 → hour < 24 →
    minute < 60 → second < 60 →
    parse (fixdate w y m d hour minute second) = some (instant y m d hour minute second)

/-- A time that is written is read back in whole seconds. -/
theorem parse_httpDate {parse : Bytes → Option Int} (hp : ReadsDates parse) {t : Int}
    (ht : wholeSecs t < 253402300800) : parse (httpDate t) = some ((wholeSecs t : Int) * 1000000000) := by
  have hdays : ((wholeSecs t / 86400 : ℕ) : Int) < 2932897 := by omega
  obtain ⟨hy0,hy1,hm0,hm1,hd0,hd1⟩ := civil_bounds (Int.natCast_nonneg _) hdays
  have hnum := dayNumber_civilFromDays (Int.natCast_nonneg (wholeSecs t / 86400)) (by omega)
  have hread := hp ((wholeSecs t / 86400 + 4) % 7) _ _ _ (wholeSecs t % 86400 / 3600) (wholeSecs t % 86400 % 3600 / 60)
    (wholeSecs t % 86400 % 60) (Nat.mod_lt _ (by decide)) hy0 hy1 hm0 hm1 hd0 hd1 (by omega) (by omega) (by omega)
  refine hread.trans ?_
  rw [instant,hnum]
  apply congrArg some
  generalize wholeSecs t = secs at *
  omega

end OxiServe.Date
