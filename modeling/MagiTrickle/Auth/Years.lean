import MagiTrickle.Lib.Calendar

/-!
# Adding calendar years to a Unix time (`api/auth.c`)

An `int64_t` is an integer in its range, and arithmetic that leaves the range
has no result (`int64`); an `unsigned` wraps. `addYearsUtc_exact` relates
`mt_auth_add_years_utc` to the dates of `Lib.Calendar`.
-/

namespace MagiTrickle.Auth

open Lib.Calendar

/-! ## The functions -/

/-- The result of arithmetic in `int64_t`. -/
def int64 (n : Int) : Option Int := if -2 ^ 63 ≤ n ∧ n < 2 ^ 63 then some n else none

/-- `(z >= 0 ? z : z - less) / k`: a quotient that is to be rounded down. -/
def floorDiv (z less k : Int) : Option Int :=
  (if z ≥ 0 then some z else int64 (z - less)).map (Int.tdiv · k)

/-- `civil_from_days`: year, month and day. -/
def civilFromDays (z : Int) : Option (Int × UInt32 × UInt32) := do
  let z ← int64 (z + 719468)
  let era ← floorDiv z 146096 146097
  let start ← int64 (era * 146097)
  let doe := UInt32.ofInt (← int64 (z - start))
  let yoe := (doe - doe / 1460 + doe / 36524 - doe / 146096) / 365
  let y ← int64 (yoe.toNat + (← int64 (era * 400)))
  let doy := doe - (365 * yoe + yoe / 4 - yoe / 100)
  let mp := (5 * doy + 2) / 153
  let d := doy - (153 * mp + 2) / 5 + 1
  let m := mp + (if mp < 10 then 3 else UInt32.ofInt (-9))
  let y ← int64 (y + if m ≤ 2 then 1 else 0)
  return (y, m, d)

/-- `days_from_civil`. -/
def daysFromCivil (y : Int) (m d : UInt32) : Option Int := do
  let y ← int64 (y - if m ≤ 2 then 1 else 0)
  let era ← floorDiv y 399 400
  let start ← int64 (era * 400)
  let yoe := UInt32.ofInt (← int64 (y - start))
  let doy := (153 * (m + (if m > 2 then UInt32.ofInt (-3) else 9)) + 2) / 5 + d - 1
  let doe := yoe * 365 + yoe / 4 - yoe / 100 + doy
  let days ← int64 (era * 146097)
  int64 ((← int64 (days + doe.toNat)) - 719468)

/-- `mt_auth_add_years_utc`. -/
def addYearsUtc (unixTs years : Int) : Option Int := do
  let days ← floorDiv unixTs 86399 86400
  let secsOfDay ← int64 (unixTs - (← int64 (days * 86400)))
  let (y, m, d) ← civilFromDays days
  let y ← int64 (y + years)
  let newDays ← daysFromCivil y m d
  int64 ((← int64 (newDays * 86400)) + secsOfDay)

/-! ## Arithmetic -/

theorem int64_eq_some {n r : Int} : int64 n = some r ↔ r = n ∧ -2 ^ 63 ≤ n ∧ n < 2 ^ 63 := by
  unfold int64
  split
  · rename_i h
    simp only [Option.some.injEq]
    exact ⟨fun hr => ⟨hr.symm, h⟩, fun hr => hr.1.symm⟩
  · rename_i h
    exact ⟨fun hr => (Option.some_ne_none _ hr.symm).elim, fun hr => (h hr.2).elim⟩

theorem int64_of_range {n : Int} (h : -2 ^ 63 ≤ n) (h' : n < 2 ^ 63) : int64 n = some n :=
  if_pos ⟨h, h'⟩

theorem tdiv_floor {z k : Int} (hk : 0 < k) :
    (if z ≥ 0 then z else z - (k - 1)).tdiv k = z / k := by
  split
  · rename_i h
    exact Int.tdiv_eq_ediv_of_nonneg h
  · rename_i h
    have hmod := Int.emod_nonneg z hk.ne'
    have hlt := Int.emod_lt_of_pos z hk
    have hz := Int.mul_ediv_add_emod z k
    have hneg : ¬0 ≤ z - (k - 1) := by omega
    rw [Int.tdiv_eq_ediv, Int.sign_eq_one_of_pos hk]
    by_cases hr : z % k = k - 1
    · have hdiv : z - (k - 1) = k * (z / k) := by omega
      rw [hdiv, if_pos (.inr (dvd_mul_right ..)), Int.mul_ediv_cancel_left _ hk.ne', Int.add_zero]
    · have hdiv : z - (k - 1) = z % k + 1 + k * (z / k - 1) := by
        rw [Int.mul_sub]
        omega
      have hquot : (z - (k - 1)) / k = z / k - 1 := by
        rw [hdiv, Int.add_mul_ediv_left _ _ hk.ne', Int.ediv_eq_zero_of_lt (by omega) (by omega)]
        omega
      rw [if_neg, hquot]
      · omega
      · rintro (h0 | hdvd)
        · exact hneg h0
        · rw [hdiv, Int.dvd_add_left (dvd_mul_right ..)] at hdvd
          have := Int.le_of_dvd (by omega) hdvd
          omega

theorem floorDiv_eq_some {z less k q : Int} (hless : less + 1 = k) (hk : 0 < k) :
    floorDiv z less k = some q ↔
      q = z / k ∧ (0 ≤ z ∨ -2 ^ 63 ≤ z - less ∧ z - less < 2 ^ 63) := by
  obtain rfl : less = k - 1 := by omega
  have hfloor := tdiv_floor (z := z) hk
  unfold floorDiv
  split at hfloor
  · rename_i h
    have hz : 0 ≤ z := h
    rw [if_pos h, Option.map_some, hfloor, Option.some.injEq]
    exact ⟨fun hq => ⟨hq.symm, .inl hz⟩, fun hq => hq.1.symm⟩
  · rename_i h
    have hz : ¬0 ≤ z := h
    rw [if_neg h, Option.map_eq_some_iff]
    simp only [int64_eq_some, hz, false_or]
    constructor
    · rintro ⟨n, ⟨rfl, hrange⟩, rfl⟩
      exact ⟨hfloor, hrange⟩
    · rintro ⟨rfl, hrange⟩
      exact ⟨_, ⟨rfl, hrange⟩, hfloor⟩

theorem toNat_ofInt {n : Int} (h : 0 ≤ n) (h' : n < 2 ^ 32) : (UInt32.ofInt n).toNat = n.toNat := by
  unfold UInt32.ofInt
  rw [Int.emod_eq_of_lt h h']
  exact UInt32.toNat_ofNat_of_lt' (by rw [UInt32.size]; omega)

/-! ## The two conversions -/

section Unsigned

variable {doe : UInt32} {n : Nat}

theorem toNat_yearOfEra (hn : doe.toNat = n) (hlt : n < 146097) :
    ((doe - doe / 1460 + doe / 36524 - doe / 146096) / 365).toNat =
      (n - n / 1460 + n / 36524 - n / 146096) / 365 := by
  have h1460 : (doe / 1460).toNat = n / 1460 := by rw [UInt32.toNat_div, hn]; rfl
  have h36524 : (doe / 36524).toNat = n / 36524 := by rw [UInt32.toNat_div, hn]; rfl
  have h146096 : (doe / 146096).toNat = n / 146096 := by rw [UInt32.toNat_div, hn]; rfl
  rw [UInt32.toNat_div, UInt32.toNat_sub, UInt32.toNat_add, UInt32.toNat_sub, h1460, h36524,
    h146096, hn]
  show _ / 365 = _
  omega

theorem toNat_dayOfYear {yoe : UInt32} {y : Nat} (hn : doe.toNat = 365 * y + y / 4 - y / 100 + n)
    (hy : yoe.toNat = y) (hlt : y < 400) (hn' : n < 366) :
    (doe - (365 * yoe + yoe / 4 - yoe / 100)).toNat = n := by
  have h4 : (yoe / 4).toNat = y / 4 := by rw [UInt32.toNat_div, hy]; rfl
  have h100 : (yoe / 100).toNat = y / 100 := by rw [UInt32.toNat_div, hy]; rfl
  have h365 : (365 * yoe).toNat = 365 * y := by
    rw [UInt32.toNat_mul, hy]
    exact Nat.mod_eq_of_lt (by show 365 * y < _; omega)
  rw [UInt32.toNat_sub, UInt32.toNat_sub, UInt32.toNat_add, h4, h100, h365, hn]
  omega

theorem toNat_monthFromMarch (hn : doe.toNat = n) (hlt : n < 366) :
    ((5 * doe + 2) / 153).toNat = (5 * n + 2) / 153 := by
  have h5 : (5 * doe).toNat = 5 * n := by
    rw [UInt32.toNat_mul, hn]
    exact Nat.mod_eq_of_lt (by show 5 * n < _; omega)
  rw [UInt32.toNat_div, UInt32.toNat_add, h5]
  show (5 * n + 2) % 2 ^ 32 / 153 = _
  omega

theorem toNat_firstOfMonth {mp : UInt32} {k : Nat} (hk : mp.toNat = k) (hlt : k < 12) :
    ((153 * mp + 2) / 5).toNat = (153 * k + 2) / 5 := by
  have h153 : (153 * mp).toNat = 153 * k := by
    rw [UInt32.toNat_mul, hk]
    exact Nat.mod_eq_of_lt (by show 153 * k < _; omega)
  rw [UInt32.toNat_div, UInt32.toNat_add, h153]
  show (153 * k + 2) % 2 ^ 32 / 5 = _
  omega

end Unsigned

theorem toNat_month {mp : UInt32} {m : Nat} (hmp : mp.toNat = marchMonth m) (hm : 1 ≤ m)
    (hm' : m ≤ 12) : (mp + if mp < 10 then 3 else UInt32.ofInt (-9)).toNat = m := by
  unfold marchMonth at hmp
  have h10 : mp < 10 ↔ mp.toNat < 10 := UInt32.lt_iff_toNat_lt
  have h3 : (3 : UInt32).toNat = 3 := rfl
  have h9 : (UInt32.ofInt (-9)).toNat = 2 ^ 32 - 9 := rfl
  rw [UInt32.toNat_add]
  by_cases h : mp < 10
  · rw [if_pos h, h3]
    rw [h10] at h
    split at hmp <;> omega
  · rw [if_neg h, h9]
    rw [h10] at h
    split at hmp <;> omega

theorem toNat_marchMonth {m : UInt32} {k : Nat} (hk : m.toNat = k) (h1 : 1 ≤ k) (h12 : k ≤ 12) :
    (m + if m > 2 then UInt32.ofInt (-3) else 9).toNat = marchMonth k := by
  have h2 : m > 2 ↔ 2 < k := by
    rw [gt_iff_lt, UInt32.lt_iff_toNat_lt, hk]
    rfl
  have h9 : (9 : UInt32).toNat = 9 := rfl
  have h3 : (UInt32.ofInt (-3)).toNat = 2 ^ 32 - 3 := rfl
  unfold marchMonth
  rw [UInt32.toNat_add, hk]
  by_cases h : 2 < k
  · rw [if_pos (h2.mpr h), h3, if_neg (by omega)]
    omega
  · rw [if_neg (mt h2.mp h), h9, if_pos (by omega)]
    omega

/-- `civil_from_days` yields the date of a day, if the day is not too late for it. -/
theorem civilFromDays_days (d : Date) (hlo : -2 ^ 63 ≤ d.days) (hhi : d.days + 719468 < 2 ^ 63) :
    civilFromDays d.days = some (d.year, UInt32.ofNat d.month, UInt32.ofNat d.day) := by
  have hera := days_era d
  have hdoe := dayOfEra_lt d
  have hyear := yearOfEra_lt d
  have hdoy := marchDay_lt_366 d
  have hmarch := marchYear_eq d
  have hz : int64 (d.days + 719468) = some (146097 * d.era + d.dayOfEra) := by
    rw [int64_eq_some]
    omega
  have hfloor : floorDiv (146097 * d.era + d.dayOfEra) 146096 146097 = some d.era := by
    rw [floorDiv_eq_some (by decide) (by decide)]
    omega
  have hstart : int64 (d.era * 146097) = some (d.era * 146097) :=
    int64_of_range (by omega) (by omega)
  have hrest : int64 (146097 * d.era + d.dayOfEra - d.era * 146097) = some (d.dayOfEra : Int) := by
    rw [int64_eq_some]
    omega
  have hera400 : int64 (d.era * 400) = some (d.era * 400) := int64_of_range (by omega) (by omega)
  have hyear64 : int64 (d.yearOfEra + d.era * 400) = some (marchYear d.year d.month) := by
    rw [int64_eq_some]
    omega
  have hnat : (UInt32.ofInt d.dayOfEra).toNat = d.dayOfEra := by
    rw [toNat_ofInt (by omega) (by omega)]
    omega
  unfold civilFromDays
  simp only [Option.bind_eq_bind, hz, Option.bind_some, hfloor, hstart, hrest, hera400]
  generalize UInt32.ofInt d.dayOfEra = doe at hnat
  have hyoe := toNat_yearOfEra hnat hdoe
  rw [yearOfEra_dayOfEra] at hyoe
  generalize (doe - doe / 1460 + doe / 36524 - doe / 146096) / 365 = yoe at hyoe
  have hday := toNat_dayOfYear hnat hyoe hyear hdoy
  generalize doe - (365 * yoe + yoe / 4 - yoe / 100) = doy at hday
  have hmonth := toNat_monthFromMarch hday hdoy
  rw [← marchMonth_eq] at hmonth
  generalize (5 * doy + 2) / 153 = mp at hmonth
  have hfirst := toNat_firstOfMonth hmonth (marchMonth_lt d.month_pos d.month_le)
  have hm := toNat_month hmonth d.month_pos d.month_le
  generalize (mp + if mp < 10 then 3 else UInt32.ofInt (-9)) = m at hm
  have hm2 : m ≤ 2 ↔ d.month ≤ 2 := by
    rw [UInt32.le_iff_toNat_le, hm]
    rfl
  have hyear' : int64 (marchYear d.year d.month + if m ≤ 2 then 1 else 0) = some d.year := by
    simp only [int64_eq_some, hm2, marchYear] at *
    omega
  have hd : doy - (153 * mp + 2) / 5 + 1 = UInt32.ofNat d.day := by
    have hpos := d.day_pos
    have hone : (1 : UInt32).toNat = 1 := rfl
    rw [← UInt32.toNat_inj, UInt32.toNat_add, UInt32.toNat_sub, hfirst, hday, hone,
      UInt32.toNat_ofNat', marchDay]
    have := marchDay_lt_366 d
    unfold marchDay at this
    omega
  have hm' : m = UInt32.ofNat d.month := by
    rw [← hm, UInt32.ofNat_toNat]
  rw [hyoe, hyear64, Option.bind_some, hyear', hd, hm']
  rfl

section DaysFromCivil

variable {y : Int} {m d : Nat}

theorem toNat_ofNat_of_le {n : Nat} (h : n ≤ 31) : (UInt32.ofNat n).toNat = n :=
  UInt32.toNat_ofNat_of_lt' (by rw [UInt32.size]; omega)

theorem ofNat_le_two (h : m ≤ 12) : UInt32.ofNat m ≤ 2 ↔ m ≤ 2 := by
  rw [UInt32.le_iff_toNat_le, toNat_ofNat_of_le (by omega)]
  rfl

theorem toNat_dayOfEra {yoe : UInt32} {Y : Nat} (hyoe : yoe.toNat = Y) (hY : Y < 400) (hm : 1 ≤ m)
    (hm' : m ≤ 12) (hd : 1 ≤ d) (hd' : d ≤ 31) :
    (yoe * 365 + yoe / 4 - yoe / 100 +
      ((153 * (UInt32.ofNat m + if UInt32.ofNat m > 2 then UInt32.ofInt (-3) else 9) + 2) / 5 +
        UInt32.ofNat d - 1)).toNat = Y * 365 + Y / 4 - Y / 100 + marchDay m d := by
  have hlt := marchMonth_lt hm hm'
  have hmp := toNat_marchMonth (toNat_ofNat_of_le (by omega)) hm hm'
  have hfirst := toNat_firstOfMonth hmp hlt
  have hone : (1 : UInt32).toNat = 1 := rfl
  have h4 : (yoe / 4).toNat = Y / 4 := by rw [UInt32.toNat_div, hyoe]; rfl
  have h100 : (yoe / 100).toNat = Y / 100 := by rw [UInt32.toNat_div, hyoe]; rfl
  have h365 : (yoe * 365).toNat = Y * 365 := by
    rw [UInt32.toNat_mul, hyoe]
    exact Nat.mod_eq_of_lt (by show Y * 365 < _; omega)
  rw [UInt32.toNat_add, UInt32.toNat_sub, UInt32.toNat_add, h365, h4, h100, UInt32.toNat_sub,
    UInt32.toNat_add, hfirst, toNat_ofNat_of_le hd', hone, marchDay]
  omega

/-- `days_from_civil` yields the number of a day, also of one after the end of its month, if the
number is not too large for it. -/
theorem daysFromCivil_eq_some (hm : 1 ≤ m) (hm' : m ≤ 12) (hd : 1 ≤ d) (hd' : d ≤ 31) {z : Int} :
    daysFromCivil y (UInt32.ofNat m) (UInt32.ofNat d) = some z ↔
      z = marchDays y m d ∧ -2 ^ 63 ≤ z ∧ z + 719468 < 2 ^ 63 := by
  have hyear : y - (if UInt32.ofNat m ≤ 2 then 1 else 0) = marchYear y m := by
    simp only [ofNat_le_two hm', marchYear]
  obtain ⟨era, Y, hY, hYlt⟩ : ∃ (era : Int) (Y : Nat), marchYear y m = 400 * era + Y ∧ Y < 400 :=
    ⟨marchYear y m / 400, (marchYear y m % 400).toNat, by omega, by omega⟩
  have hvalue : marchDays y m d =
      era * 146097 + (Y * 365 + Y / 4 - Y / 100 + marchDay m d : Nat) - 719468 := by
    rw [marchDays, hY]
    omega
  have hday : marchDay m d < 400 := by
    have := marchMonth_lt hm hm'
    unfold marchDay
    omega
  have hnat : (UInt32.ofInt (400 * era + Y - era * 400)).toNat = Y := by
    rw [toNat_ofInt (by omega) (by omega)]
    omega
  have hdoe := toNat_dayOfEra hnat hYlt hm hm' hd hd'
  have hdiv : (400 * era + (Y : Int)) / 400 = era := by omega
  unfold daysFromCivil
  simp only [Option.bind_eq_bind, Option.bind_eq_some_iff, int64_eq_some, hyear, hY]
  constructor
  · rintro ⟨_, ⟨rfl, -⟩, era', hera, _, ⟨rfl, -⟩, _, ⟨rfl, -⟩, _, ⟨rfl, -⟩, _, ⟨rfl, hsum⟩, rfl, hz⟩
    rw [floorDiv_eq_some (by decide) (by decide), hdiv] at hera
    obtain ⟨rfl, -⟩ := hera
    rw [hdoe] at hsum hz ⊢
    omega
  · rintro ⟨rfl, hlo, hhi⟩
    refine ⟨_, ⟨rfl, by omega⟩, era, ?_, _, ⟨rfl, by omega⟩, _, ⟨rfl, by omega⟩, _,
      ⟨rfl, by omega⟩, _, ⟨rfl, ?_⟩, ?_⟩
    · rw [floorDiv_eq_some (by decide) (by decide), hdiv]
      omega
    · rw [hdoe]
      omega
    · rw [hdoe]
      omega

end DaysFromCivil

/-! ## Adding years -/

theorem day_le_31 (d : Date) : d.day ≤ 31 := by
  have hle := d.day_le.trans (monthLength_le d.year d.month)
  split_ifs at hle <;> omega

theorem civilFromDays_eq_some {z : Int} (hz : -2 ^ 63 ≤ z) {r : Int × UInt32 × UInt32} :
    civilFromDays z = some r ↔ z + 719468 < 2 ^ 63 ∧
      ∃ d : Date, d.days = z ∧ r = (d.year, UInt32.ofNat d.month, UInt32.ofNat d.day) := by
  obtain ⟨d, rfl⟩ := days_surjective z
  by_cases hhi : d.days + 719468 < 2 ^ 63
  · rw [civilFromDays_days d hz hhi, Option.some.injEq]
    constructor
    · rintro rfl
      exact ⟨hhi, d, rfl, rfl⟩
    · rintro ⟨-, d', hd', rfl⟩
      rw [days_injective hd']
  · have hnone : int64 (d.days + 719468) = none := if_neg fun h => hhi h.2
    constructor
    · intro h
      rw [civilFromDays, hnone] at h
      cases h
    · exact fun h => (hhi h.1).elim

/-- The arithmetic of `mt_auth_add_years_utc` stays within 64 bits. -/
def Fits (t : Utc) (years : Int) : Prop :=
  (0 ≤ t.unix ∨ -2 ^ 63 ≤ t.unix - 86399) ∧ -2 ^ 63 ≤ (t.addYears years).date.days * 86400 ∧
    (t.addYears years).unix < 2 ^ 63

theorem addYearsUtc_eq_some {t : Utc} {years later : Int} (hlo : -2 ^ 63 ≤ t.unix)
    (hhi : t.unix < 2 ^ 63) :
    addYearsUtc t.unix years = some later ↔ Fits t years ∧ later = (t.addYears years).unix := by
  have hsec := t.second_lt
  have hunix : t.unix = 86400 * t.date.days + t.second := rfl
  have hlater : (t.addYears years).unix = (t.addYears years).date.days * 86400 + t.second := by
    rw [Int.mul_comm]
    rfl
  have hdays : t.unix / 86400 = t.date.days := by omega
  have hnew : (t.addYears years).date.days =
      marchDays (t.date.year + years) t.date.month t.date.day := days_addYears t.date years
  have hdate := civilFromDays_days t.date (by omega) (by omega)
  have hback := @daysFromCivil_eq_some (t.date.year + years) _ _ t.date.month_pos t.date.month_le
    t.date.day_pos (day_le_31 t.date)
  unfold addYearsUtc Fits
  simp only [Option.bind_eq_bind, Option.bind_eq_some_iff, int64_eq_some]
  constructor
  · rintro ⟨days, hfloor, _, ⟨rfl, -⟩, _, ⟨rfl, -⟩, ⟨y, m, d⟩, hcivil, _, ⟨rfl, -⟩, z, hz, _,
      ⟨rfl, hstart⟩, rfl, hend⟩
    rw [floorDiv_eq_some (by decide) (by decide), hdays] at hfloor
    obtain ⟨rfl, hrange⟩ := hfloor
    rw [hdate] at hcivil
    cases hcivil
    obtain ⟨rfl, -⟩ := hback.mp hz
    omega
  · rintro ⟨⟨hrange, hstart, hend⟩, rfl⟩
    refine ⟨t.date.days, ?_, _, ⟨rfl, by omega⟩, _, ⟨rfl, by omega⟩, _, hdate, _, ⟨rfl, ?_⟩,
      (t.addYears years).date.days, ?_, _, ⟨rfl, by omega⟩, by omega, by omega⟩
    · rw [floorDiv_eq_some (by decide) (by decide), hdays]
      omega
    · have := marchDay_lt_366 t.date
      unfold marchDays marchYear at hnew
      split at hnew <;> omega
    · exact hback.mpr ⟨hnew, by omega, by omega⟩

/-- Every Unix time is one clock time on one date; as long as the arithmetic stays within 64 bits
`mt_auth_add_years_utc` yields the Unix time of the same clock time, month and day years later, or
of 1 March for a 29 February that the year lacks; and the two conversions are inverse to each other
on the dates of the calendar. -/
theorem addYearsUtc_exact :
    (∀ unixTs : Int, ∃! t : Utc, t.unix = unixTs) ∧
    (∀ (t : Utc) (years later : Int), -2 ^ 63 ≤ t.unix → t.unix < 2 ^ 63 →
      (addYearsUtc t.unix years = some later ↔ Fits t years ∧ later = (t.addYears years).unix)) ∧
    ∀ (z y : Int) (m d : UInt32), -2 ^ 63 ≤ z →
      (civilFromDays z = some (y, m, d) ↔ daysFromCivil y m d = some z ∧
        ∃ date : Date, (y, m, d) = (date.year, UInt32.ofNat date.month, UInt32.ofNat date.day)) := by
  refine ⟨fun unixTs => ?_, fun t years later => addYearsUtc_eq_some, fun z y m d hz => ?_⟩
  · obtain ⟨t, ht⟩ := Utc.unix_surjective unixTs
    exact ⟨t, ht, fun t' ht' => Utc.unix_injective (ht'.trans ht.symm)⟩
  · have hdate (date : Date) := @daysFromCivil_eq_some date.year _ _ date.month_pos date.month_le
      date.day_pos (day_le_31 date) z
    rw [civilFromDays_eq_some hz]
    constructor
    · rintro ⟨hhi, date, rfl, heq⟩
      cases heq
      exact ⟨(hdate date).mpr ⟨days_march date, hz, hhi⟩, date, rfl⟩
    · rintro ⟨hback, date, heq⟩
      cases heq
      obtain ⟨rfl, -, hhi⟩ := (hdate date).mp hback
      exact ⟨hhi, date, days_march date, rfl⟩

def leapNoon : Utc := ⟨⟨2024, 2, 29, by decide, by decide, by decide, by decide⟩, 43200, by decide⟩

theorem addYearsUtc_exact_leapNoon : ∃ t : Utc, addYearsUtc leapNoon.unix 1 = some t.unix ∧
    t.date = ⟨2025, 3, 1, by decide, by decide, by decide, by decide⟩ ∧
    civilFromDays leapNoon.date.days = some (2024, 2, 29) := by
  obtain ⟨-, hyears, hinverse⟩ := addYearsUtc_exact
  refine ⟨leapNoon.addYears 1, (hyears leapNoon 1 _ (by decide) (by decide)).mpr ⟨?_, rfl⟩,
    by decide, (hinverse _ _ _ _ (by decide)).mpr ⟨by decide, leapNoon.date, by decide⟩⟩
  exact ⟨by decide, by decide, by decide⟩

end MagiTrickle.Auth
