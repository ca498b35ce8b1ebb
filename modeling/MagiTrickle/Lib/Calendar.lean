import Mathlib.Data.Int.ModEq
import Mathlib.Tactic.Common
import Mathlib.Tactic.IntervalCases

/-!
# The proleptic Gregorian calendar

The dates, the day after a date, and the number of a day counted from
1970-01-01. Every integer is the number of one date (`days_injective`,
`days_surjective`), and the day after a date has the next number
(`days_next`). `days_march` counts with years that begin in March.
-/

namespace MagiTrickle.Lib.Calendar

def Leap (y : Int) : Prop := 4 ∣ y ∧ (¬100 ∣ y ∨ 400 ∣ y)

instance (y : Int) : Decidable (Leap y) := inferInstanceAs (Decidable (_ ∧ _))

def monthLength (y : Int) (m : Nat) : Nat :=
  if m = 2 then if Leap y then 29 else 28
  else if m = 4 ∨ m = 6 ∨ m = 9 ∨ m = 11 then 30
  else 31

theorem monthLength_pos (y : Int) (m : Nat) : 0 < monthLength y m := by
  unfold monthLength
  split_ifs <;> omega

theorem monthLength_le (y : Int) (m : Nat) :
    monthLength y m ≤ if m = 2 then 29 else if m = 4 ∨ m = 6 ∨ m = 9 ∨ m = 11 then 30 else 31 := by
  unfold monthLength
  split_ifs <;> omega

@[ext] structure Date where
  year : Int
  month : Nat
  day : Nat
  month_pos : 1 ≤ month
  month_le : month ≤ 12
  day_pos : 1 ≤ day
  day_le : day ≤ monthLength year month
  deriving DecidableEq, Repr

namespace Date

def next (d : Date) : Date :=
  if h : d.day < monthLength d.year d.month then
    ⟨d.year, d.month, d.day + 1, d.month_pos, d.month_le, by omega, h⟩
  else if h : d.month < 12 then
    ⟨d.year, d.month + 1, 1, by omega, h, by omega, monthLength_pos ..⟩
  else ⟨d.year + 1, 1, 1, by omega, by omega, by omega, monthLength_pos ..⟩

/-- The same month and day some years later; a 29 February that the year lacks is 1 March. -/
def addYears (d : Date) (n : Int) : Date :=
  if h : d.day ≤ monthLength (d.year + n) d.month then
    ⟨d.year + n, d.month, d.day, d.month_pos, d.month_le, d.day_pos, h⟩
  else ⟨d.year + n, 3, 1, by omega, by omega, by omega, monthLength_pos ..⟩

end Date

/-! ## Numbers of days -/

/-- The days of the years 1 to `y - 1`; negative before the year 1. -/
def daysBeforeYear (y : Int) : Int :=
  365 * (y - 1) + (y - 1) / 4 - (y - 1) / 100 + (y - 1) / 400

def daysBeforeMonth (y : Int) (m : Nat) : Nat := ((List.range' 1 (m - 1)).map (monthLength y)).sum

/-- The number of a day: 0 is 1970-01-01. -/
def Date.days (d : Date) : Int :=
  daysBeforeYear d.year + daysBeforeMonth d.year d.month + (d.day - 1) - 719162

theorem daysBeforeMonth_succ (y : Int) {m : Nat} (h : 1 ≤ m) :
    daysBeforeMonth y (m + 1) = daysBeforeMonth y m + monthLength y m := by
  obtain ⟨k, rfl⟩ : ∃ k, m = k + 1 := ⟨m - 1, by omega⟩
  rw [daysBeforeMonth, daysBeforeMonth, Nat.add_sub_cancel, Nat.add_sub_cancel,
    List.range'_1_concat, List.map_append, List.sum_append, Nat.add_comm 1 k]
  rfl

theorem daysBeforeMonth_eq (y : Int) (m : Nat) (h : 1 ≤ m) (h' : m ≤ 12) :
    (daysBeforeMonth y m : Int) =
      if m ≤ 2 then 31 * (m - 1) else (153 * (m - 3) + 2) / 5 + if Leap y then 60 else 59 := by
  by_cases hy : Leap y
  · interval_cases m <;> simp [daysBeforeMonth, List.range', monthLength, hy]
  · interval_cases m <;> simp [daysBeforeMonth, List.range', monthLength, hy]

theorem daysBeforeYear_succ (y : Int) :
    daysBeforeYear (y + 1) = daysBeforeYear y + if Leap y then 366 else 365 := by
  unfold daysBeforeYear
  split <;> rename_i h <;> unfold Leap at h <;> omega

theorem days_epoch : (⟨1970, 1, 1, by decide, by decide, by decide, by decide⟩ : Date).days = 0 := by
  decide

/-- The day after a date has the next number. -/
theorem days_next (d : Date) : d.next.days = d.days + 1 := by
  obtain ⟨y, m, day, hm, hm', hd, hd'⟩ := d
  unfold Date.next Date.days
  dsimp only
  split_ifs with hday hmonth
  · dsimp only
    omega
  · dsimp only
    rw [daysBeforeMonth_succ y hm]
    omega
  · obtain rfl : m = 12 := by omega
    dsimp only
    rw [daysBeforeYear_succ, daysBeforeMonth_eq _ 1 (by omega) (by omega),
      daysBeforeMonth_eq _ 12 (by omega) (by omega)]
    have hlen : monthLength y 12 = 31 := rfl
    split_ifs <;> omega

/-! ## Years that begin in March -/

/-- The year that began in the last March. -/
def marchYear (y : Int) (m : Nat) : Int := y - if m ≤ 2 then 1 else 0

/-- The months since March. -/
def marchMonth (m : Nat) : Nat := if m ≤ 2 then m + 9 else m - 3

/-- The days since 1 March. -/
def marchDay (m d : Nat) : Nat := (153 * marchMonth m + 2) / 5 + d - 1

/-- The number of a day, also of one after the end of its month. -/
def marchDays (y : Int) (m d : Nat) : Int :=
  365 * marchYear y m + marchYear y m / 4 - marchYear y m / 100 + marchYear y m / 400 +
    marchDay m d - 719468

theorem days_march (d : Date) : d.days = marchDays d.year d.month d.day := by
  obtain ⟨y, m, day, hm, hm', hd, hd'⟩ := d
  unfold Date.days marchDays marchDay marchYear marchMonth daysBeforeYear
  dsimp only
  rw [daysBeforeMonth_eq y m hm hm']
  by_cases h2 : m ≤ 2
  · simp only [if_pos h2]
    omega
  · simp only [if_neg h2]
    split <;> rename_i h <;> unfold Leap at h <;> omega

theorem days_addYears (d : Date) (n : Int) :
    (d.addYears n).days = marchDays (d.year + n) d.month d.day := by
  unfold Date.addYears
  split
  · exact days_march _
  · rename_i h
    obtain ⟨y, m, day, hm, hm', hd, hd'⟩ := d
    dsimp only at h ⊢
    -- only a 29 February can be missing
    have hfeb : m = 2 ∧ day = 29 ∧ ¬Leap (y + n) := by
      unfold monthLength at h hd'
      split_ifs at h hd' <;> first | omega | exact ⟨‹_›, by omega, ‹_›⟩
    obtain ⟨rfl, rfl, hleap⟩ := hfeb
    rw [days_march]
    unfold marchDays marchDay marchYear marchMonth
    unfold Leap at hleap
    simp only [Nat.le_refl, if_true]
    norm_num
    omega

theorem marchDay_lt (d : Date) :
    marchDay d.month d.day < if Leap (marchYear d.year d.month + 1) then 366 else 365 := by
  obtain ⟨y, m, day, hm, hm', hd, hd'⟩ := d
  unfold marchDay marchYear marchMonth
  dsimp only at *
  unfold monthLength at hd'
  interval_cases m <;> simp at hd' ⊢ <;> split_ifs at hd' ⊢ <;> omega

theorem marchDay_lt_366 (d : Date) : marchDay d.month d.day < 366 := by
  have hday := marchDay_lt d
  split at hday <;> omega

theorem marchMonth_lt {m : Nat} (hm : 1 ≤ m) (hm' : m ≤ 12) : marchMonth m < 12 := by
  unfold marchMonth
  split <;> omega

theorem marchMonth_eq (d : Date) : marchMonth d.month = (5 * marchDay d.month d.day + 2) / 153 := by
  obtain ⟨y, m, day, hm, hm', hd, hd'⟩ := d
  have hle := hd'.trans (monthLength_le y m)
  unfold marchDay marchMonth
  dsimp only at *
  interval_cases m <;> simp at hle ⊢ <;> omega

/-- The year of an era of 400 years from the days since the era began: every 1460, 36524 and 146096
days one more leap day has passed. -/
theorem yearOfEra_eq {Y r : Nat} (hY : Y < 400)
    (hr : r < 365 + if 4 ∣ Y + 1 ∧ (¬100 ∣ Y + 1 ∨ 400 ∣ Y + 1) then 1 else 0) :
    (365 * Y + Y / 4 - Y / 100 + r - (365 * Y + Y / 4 - Y / 100 + r) / 1460 +
      (365 * Y + Y / 4 - Y / 100 + r) / 36524 - (365 * Y + Y / 4 - Y / 100 + r) / 146096) / 365 = Y := by
  -- centuries, leap years of a century, years since a leap year
  obtain ⟨c, q, a, rfl, hc, hq, ha⟩ : ∃ c q a, Y = 100 * c + 4 * q + a ∧ c < 4 ∧ q < 25 ∧ a < 4 :=
    ⟨Y / 100, Y % 100 / 4, Y % 4, by omega, by omega, by omega, by omega⟩
  have h4 : (100 * c + 4 * q + a) / 4 = 25 * c + q := by omega
  have h100 : (100 * c + 4 * q + a) / 100 = c := by omega
  rw [h4, h100]
  have hd : 365 * (100 * c + 4 * q + a) + (25 * c + q) - c + r =
      36524 * c + 1461 * q + 365 * a + r := by omega
  rw [hd]
  -- the 366th day comes at the end of four years, save at the end of three centuries out of four
  have hr' : r ≤ 364 ∨ r = 365 ∧ a = 3 ∧ (q ≤ 23 ∨ c = 3) := by
    clear h4 h100 hd
    split at hr <;> omega
  clear h4 h100 hd hr hY
  generalize hD : 36524 * c + 1461 * q + 365 * a + r = D
  rcases hr' with hr' | ⟨rfl, rfl, hq'⟩
  · have h36524 : D / 36524 = c := by omega
    have h146096 : D / 146096 = 0 := by omega
    rw [h36524, h146096]
    by_cases he : 24 * c + q + 365 * a + r < 1460
    · have h1460 : D / 1460 = 25 * c + q := by omega
      rw [h1460]
      omega
    · have h1460 : D / 1460 = 25 * c + q + 1 := by omega
      rw [h1460]
      omega
  · have h1460 : D / 1460 = 25 * c + q + 1 := by omega
    rw [h1460]
    rcases hq' with hq' | rfl
    · have h36524 : D / 36524 = c := by omega
      have h146096 : D / 146096 = 0 := by omega
      rw [h36524, h146096]
      omega
    · by_cases hq' : q = 24
      · subst hq'
        subst hD
        rfl
      · have h36524 : D / 36524 = 3 := by omega
        have h146096 : D / 146096 = 0 := by omega
        rw [h36524, h146096]
        omega

/-! ## Eras of 400 years -/

def Date.era (d : Date) : Int := marchYear d.year d.month / 400

def Date.yearOfEra (d : Date) : Nat := (marchYear d.year d.month % 400).toNat

/-- The days since the era began. -/
def Date.dayOfEra (d : Date) : Nat :=
  365 * d.yearOfEra + d.yearOfEra / 4 - d.yearOfEra / 100 + marchDay d.month d.day

theorem yearOfEra_lt (d : Date) : d.yearOfEra < 400 := by
  unfold Date.yearOfEra
  omega

theorem marchYear_eq (d : Date) : marchYear d.year d.month = 400 * d.era + d.yearOfEra := by
  unfold Date.era Date.yearOfEra
  omega

theorem marchDay_lt_era (d : Date) : marchDay d.month d.day < 365 +
    if 4 ∣ d.yearOfEra + 1 ∧ (¬100 ∣ d.yearOfEra + 1 ∨ 400 ∣ d.yearOfEra + 1) then 1 else 0 := by
  have hlt := marchDay_lt d
  have hleap : Leap (marchYear d.year d.month + 1) ↔
      4 ∣ d.yearOfEra + 1 ∧ (¬100 ∣ d.yearOfEra + 1 ∨ 400 ∣ d.yearOfEra + 1) := by
    rw [marchYear_eq d]
    unfold Leap
    omega
  rw [← if_congr hleap rfl rfl]
  split at hlt
  · rwa [if_pos ‹_›]
  · rwa [if_neg ‹_›]

theorem dayOfEra_lt (d : Date) : d.dayOfEra < 146097 := by
  have hyear := yearOfEra_lt d
  have hday := marchDay_lt_era d
  unfold Date.dayOfEra
  split at hday <;> omega

theorem days_era (d : Date) : d.days = 146097 * d.era + d.dayOfEra - 719468 := by
  have hyear := yearOfEra_lt d
  rw [days_march, marchDays, marchYear_eq, Date.dayOfEra]
  omega

theorem yearOfEra_dayOfEra (d : Date) :
    (d.dayOfEra - d.dayOfEra / 1460 + d.dayOfEra / 36524 - d.dayOfEra / 146096) / 365 =
      d.yearOfEra :=
  yearOfEra_eq (yearOfEra_lt d) (marchDay_lt_era d)

theorem days_injective : Function.Injective Date.days := by
  intro d d' h
  have hlt := dayOfEra_lt d
  have hlt' := dayOfEra_lt d'
  rw [days_era, days_era] at h
  have hera : d.era = d'.era := by omega
  have hdoe : d.dayOfEra = d'.dayOfEra := by omega
  have hyoe : d.yearOfEra = d'.yearOfEra := by
    rw [← yearOfEra_dayOfEra d, ← yearOfEra_dayOfEra d', hdoe]
  have hyear : marchYear d.year d.month = marchYear d'.year d'.month := by
    rw [marchYear_eq, marchYear_eq, hera, hyoe]
  have hday : marchDay d.month d.day = marchDay d'.month d'.day := by
    unfold Date.dayOfEra at hdoe
    omega
  have hmonth : marchMonth d.month = marchMonth d'.month := by
    rw [marchMonth_eq, marchMonth_eq, hday]
  have hm : d.month = d'.month := by
    have := d.month_pos
    have := d'.month_pos
    have := d.month_le
    have := d'.month_le
    unfold marchMonth at hmonth
    split_ifs at hmonth <;> omega
  have hy : d.year = d'.year := by
    unfold marchYear at hyear
    rw [hm] at hyear
    omega
  have hd : d.day = d'.day := by
    have := d.day_pos
    have := d'.day_pos
    unfold marchDay at hday
    rw [hmonth] at hday
    omega
  exact Date.ext hy hm hd

/-- The calendar repeats every 400 years. -/
theorem monthLength_era (y k : Int) (m : Nat) : monthLength (y + 400 * k) m = monthLength y m := by
  have hleap : Leap (y + 400 * k) ↔ Leap y := by
    unfold Leap
    omega
  simp only [monthLength, hleap]

def Date.shiftEras (d : Date) (k : Int) : Date :=
  ⟨d.year + 400 * k, d.month, d.day, d.month_pos, d.month_le, d.day_pos,
    d.day_le.trans (monthLength_era ..).ge⟩

theorem days_shiftEras (d : Date) (k : Int) : (d.shiftEras k).days = d.days + 146097 * k := by
  rw [days_march, days_march]
  unfold marchDays marchDay marchMonth marchYear Date.shiftEras
  dsimp only
  omega

theorem days_surjective : Function.Surjective Date.days := by
  have hnat : ∀ n : Nat, ∃ d : Date, d.days = n := by
    intro n
    induction n with
    | zero => exact ⟨_, days_epoch⟩
    | succ n ih =>
      obtain ⟨d, hd⟩ := ih
      exact ⟨d.next, by rw [days_next, hd, Nat.cast_succ]⟩
  intro z
  obtain ⟨d, hd⟩ := hnat (z % 146097).toNat
  exact ⟨d.shiftEras (z / 146097), by rw [days_shiftEras, hd]; omega⟩

/-! ## Clock times -/

/-- A date and a second of it, without leap seconds. -/
@[ext] structure Utc where
  date : Date
  second : Nat
  second_lt : second < 86400
  deriving DecidableEq, Repr

namespace Utc

def unix (t : Utc) : Int := 86400 * t.date.days + t.second

def addYears (t : Utc) (n : Int) : Utc := ⟨t.date.addYears n, t.second, t.second_lt⟩

theorem unix_injective : Function.Injective unix := by
  intro t t' h
  have hlt := t.second_lt
  have hlt' := t'.second_lt
  unfold unix at h
  exact Utc.ext (days_injective (by omega)) (by omega)

theorem unix_surjective : Function.Surjective unix := by
  intro n
  obtain ⟨d, hd⟩ := days_surjective (n / 86400)
  exact ⟨⟨d, (n % 86400).toNat, by omega⟩, by unfold unix; dsimp only; omega⟩

end Utc

end MagiTrickle.Lib.Calendar
