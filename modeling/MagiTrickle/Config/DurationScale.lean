import MagiTrickle.Config.Duration

/-!
# The scaled fraction of a duration

The scale is the power of ten over the digits that were read, as a double: exact
for at most 22 digits, and at least `10 ^ 22` beyond them. So the fraction is less
than the scale, and what it is scaled to is a few units at most
(`scaled_defined`). A fraction of few digits is scaled exactly (`scaled_exact`).
-/

namespace MagiTrickle.Config

open Libc (isDigit digitVal digitVal_lt decimal)
open Lib.Rounding

/-- `ds` behind the digits of `x`. -/
def decimalFrom (x : Nat) (ds : Bytes) : Nat := ds.foldl (fun v c => v * 10 + digitVal c) x

theorem le_decimalFrom (x : Nat) (ds : Bytes) : x ≤ decimalFrom x ds := by
  induction ds generalizing x with
  | nil => exact Nat.le_refl x
  | cons c cs ih => exact Nat.le_trans (by omega) (ih (x * 10 + digitVal c))

theorem decimalFrom_lt {x : Nat} {ds : Bytes} (h : ∀ c ∈ ds, isDigit c = true) :
    decimalFrom x ds < (x + 1) * 10 ^ ds.length := by
  induction ds generalizing x with
  | nil => exact Nat.lt_of_lt_of_le (Nat.lt_succ_self x) (Nat.le_of_eq (Nat.mul_one _).symm)
  | cons c cs ih =>
    obtain ⟨hc, hcs⟩ := List.forall_mem_cons.mp h
    have hval := digitVal_lt hc
    calc decimalFrom x (c :: cs) < (x * 10 + digitVal c + 1) * 10 ^ cs.length := ih hcs
      _ ≤ ((x + 1) * 10) * 10 ^ cs.length := Nat.mul_le_mul_right _ (by omega)
      _ = (x + 1) * 10 ^ (cs.length + 1) := by rw [Nat.pow_succ', Nat.mul_assoc]

/-! ## The scale -/

theorem near_ten_pow {k : ℕ} (hk : k ≤ 22) : binary64.near (10 ^ k) = 10 ^ k := by
  have hmul : ((10 : ℚ) ^ k) = ((5 ^ k : ℕ) : ℚ) * 2 ^ (k : ℤ) := by
    rw [zpow_natCast, Nat.cast_pow, ← mul_pow]
    norm_num
  have hlt : 5 ^ k < 2 ^ 53 :=
    (Nat.pow_le_pow_right (by decide) hk).trans_lt (by decide)
  rw [hmul]
  exact binary64.near_exact hlt (by show (-1074 : ℤ) ≤ k; omega)

theorem lt_high : (2 : ℚ) ^ 100 < 2 ^ binary64.high := by
  rw [← zpow_natCast]
  exact zpow_lt_zpow_right₀ (by norm_num) (by decide)

theorem ofRat_ten_pow {k : ℕ} (hk : k ≤ 22) : Double.ofRat (10 ^ k) = .fin (10 ^ k) := by
  rw [Double.ofRat, near_ten_pow hk]
  refine if_pos ?_
  calc (10 : ℚ) ^ k ≤ 10 ^ 22 := pow_le_pow_right₀ (by norm_num) hk
    _ < 2 ^ 100 := by norm_num
    _ < 2 ^ binary64.high := lt_high

/-- What is known of a scale: exact, or large. -/
inductive Scales (num : Nat) : Double → Prop where
  | exact (k : ℕ) : k ≤ 22 → num < 10 ^ k → Scales num (.fin (10 ^ k))
  | large (q : ℚ) : 10 ^ 22 ≤ q → Scales num (.fin q)
  | inf : Scales num .inf

/-- What `leading_fraction` keeps. -/
structure Fraction.Ok (f : Fraction) : Prop where
  num : f.num ≤ 2 ^ 63
  scale : Scales f.num f.scale

theorem scales_ofRat {num : Nat} {q : ℚ} (h : 10 ^ 22 ≤ q) : Scales num (.ofRat q) := by
  have hnear : (10 : ℚ) ^ 22 ≤ binary64.near q := by
    rw [← near_ten_pow (Nat.le_refl 22)]
    exact binary64.near_mono (by norm_num) h
  unfold Double.ofRat
  split_ifs
  · exact .large _ hnear
  · exact .inf

theorem Scales.digit {num d : Nat} {s : Double} (h : Scales num s) (hd : d < 10) :
    Scales (num * 10 + d) (s.mul (.fin 10)) := by
  cases h with
  | exact k hk hnum =>
    have hmul : (Double.fin (10 ^ k)).mul (.fin 10) = .ofRat (10 ^ (k + 1)) := by
      rw [pow_succ]
      rfl
    rw [hmul]
    rcases Nat.lt_or_eq_of_le hk with hk | rfl
    · rw [ofRat_ten_pow hk]
      refine .exact (k + 1) hk ?_
      rw [pow_succ]
      omega
    · exact scales_ofRat (by norm_num)
  | large q hq =>
    exact scales_ofRat (by linarith)
  | inf =>
    have hmul : Double.inf.mul (.fin 10) = .inf := by
      show (if (10 : ℚ) = 0 then Double.nan else .inf) = .inf
      exact if_neg (by norm_num)
    rw [hmul]
    exact .inf

theorem Fraction.Ok.digit {f : Fraction} {c : UInt8} (h : f.Ok) (hc : isDigit c = true) :
    (f.digit c).Ok := by
  unfold Fraction.digit
  split_ifs with hover hbig hfit
  · exact h
  · exact ⟨h.num, h.scale⟩
  · exact ⟨h.num, h.scale⟩
  · exact ⟨Nat.le_of_not_lt hfit, h.scale.digit (digitVal_lt hc)⟩

theorem Fraction.none_ok : Fraction.none.Ok := by
  refine ⟨Nat.zero_le _, ?_⟩
  have hone : Scales 0 (.fin (10 ^ 0)) := .exact 0 (Nat.zero_le _) Nat.one_pos
  rwa [pow_zero] at hone

theorem Fraction.Ok.foldl {f : Fraction} {ds : Bytes} (h : f.Ok)
    (hds : ∀ c ∈ ds, isDigit c = true) : (ds.foldl Fraction.digit f).Ok := by
  induction ds generalizing f with
  | nil => exact h
  | cons c cs ih =>
    obtain ⟨hc, hcs⟩ := List.forall_mem_cons.mp hds
    exact ih (h.digit hc) hcs

/-! ## The product -/

theorem ofRat_fin {q : ℚ} (hq : 0 ≤ q) (hlt : 2 * q < 2 ^ 100) :
    Double.ofRat q = .fin (binary64.near q) :=
  if_pos (((binary64.near_le_two_mul hq).trans_lt hlt).trans lt_high)

theorem scaled_defined {f : Fraction} {unit : Nat} (h : f.Ok) (hunit : unit ≤ 2 ^ 50) :
    ∃ x : ℚ, (Double.ofRat f.num).mul ((Double.ofRat unit).div f.scale) = .fin x ∧
      x ≤ 8 * unit := by
  have hunit' : (unit : ℚ) ≤ 2 ^ 50 := by exact_mod_cast hunit
  have hnum' : (f.num : ℚ) ≤ 2 ^ 63 := by exact_mod_cast h.num
  have hnum0 : (0 : ℚ) ≤ f.num := Nat.cast_nonneg _
  have hunit0 : (0 : ℚ) ≤ unit := Nat.cast_nonneg _
  have hcast : Double.ofRat unit = .fin unit :=
    Double.ofRat_natCast (Nat.lt_of_le_of_lt hunit (by decide))
  have hnear := binary64.near_le_two_mul hnum0
  have hnear0 := binary64.near_nonneg f.num
  rw [hcast, ofRat_fin hnum0 (by linarith)]
  by_cases hinf : f.scale = .inf
  · rw [hinf]
    refine ⟨binary64.near (binary64.near f.num * 0), ?_, ?_⟩
    · exact ofRat_fin (by rw [mul_zero]) (by rw [mul_zero]; norm_num)
    · have hz := binary64.near_le_two_mul (x := binary64.near f.num * 0) (by rw [mul_zero])
      linarith
  · obtain ⟨q, hq, hone, hle⟩ : ∃ q : ℚ, f.scale = .fin q ∧ 1 ≤ q ∧ f.num ≤ q := by
      obtain ⟨num, scale, overflow⟩ := f
      cases h.scale with
      | exact k hk hlt =>
        exact ⟨_, rfl, one_le_pow₀ (by norm_num), by exact_mod_cast hlt.le⟩
      | large q hq => exact ⟨q, rfl, by linarith, by dsimp only at hnum' ⊢; linarith⟩
      | inf => exact absurd rfl hinf
    have hpos : 0 < q := one_pos.trans_le hone
    have hdiv0 : 0 ≤ (unit : ℚ) / q := div_nonneg hunit0 hpos.le
    have hdiv : (unit : ℚ) / q ≤ unit := div_le_self hunit0 hone
    have hquot := binary64.near_le_two_mul hdiv0
    have hquot0 := binary64.near_nonneg ((unit : ℚ) / q)
    have hprod : binary64.near f.num * binary64.near (unit / q) ≤ 4 * unit := by
      calc binary64.near f.num * binary64.near (unit / q) ≤ (2 * q) * (2 * (unit / q)) :=
            mul_le_mul (hnear.trans (by linarith)) hquot hquot0 (by linarith)
        _ = 4 * unit := by field_simp; ring
    have hprod0 := mul_nonneg hnear0 hquot0
    have hdouble : (Double.fin unit).div (.fin q) = .fin (binary64.near (unit / q)) := by
      show (if q = 0 then _ else Double.ofRat (unit / q)) = _
      rw [if_neg hpos.ne', ofRat_fin hdiv0 (by linarith)]
    rw [hq, hdouble]
    refine ⟨binary64.near (binary64.near f.num * binary64.near (unit / q)), ?_, ?_⟩
    · exact ofRat_fin hprod0 (by linarith)
    · exact (binary64.near_le_two_mul hprod0).trans (by linarith)

theorem scaled_lt {f : Fraction} {unit : Nat} (h : f.Ok) (hunit : unit ≤ 2 ^ 50) :
    scaled f unit < 2 ^ 63 := by
  obtain ⟨x, hx, hle⟩ := scaled_defined h hunit
  have hle' : x ≤ (8 * unit : ℕ) := by exact_mod_cast hle
  unfold scaled
  rw [hx]
  exact (Nat.floor_le_of_le hle').trans_lt (by omega)

theorem scaled_none {f : Fraction} (h : f.num = 0) (unit : Nat) : scaled f unit = 0 := by
  have hzero : Double.ofRat f.num = .fin 0 := by
    rw [h]
    exact Double.ofRat_natCast (by decide)
  have hprod : Double.ofRat (0 * 0) = .fin 0 := by
    rw [mul_zero]
    exact_mod_cast Double.ofRat_natCast (n := 0) (by decide)
  unfold scaled
  rw [hzero]
  cases (Double.ofRat unit).div f.scale with
  | fin q =>
    show (Double.ofRat (0 * q)).trunc = 0
    rw [zero_mul, ← mul_zero 0, hprod]
    exact Nat.floor_zero
  | inf =>
    show (if (0 : ℚ) = 0 then Double.nan else .inf).trunc = 0
    rw [if_pos rfl]
    rfl
  | nan => rfl

theorem scaled_exact {k num m : Nat} (hpos : 0 < m) (hm : m * 10 ^ k ≤ 2 ^ 50)
    (hnum : num < 10 ^ k) (overflow : Bool) :
    scaled ⟨num, .fin (10 ^ k), overflow⟩ (m * 10 ^ k) = num * m := by
  have hten : 0 < 10 ^ k := Nat.pow_pos (by decide)
  have hnum' : num < 2 ^ 53 := by
    calc num < 10 ^ k := hnum
      _ ≤ m * 10 ^ k := Nat.le_mul_of_pos_left _ hpos
      _ < 2 ^ 53 := Nat.lt_of_le_of_lt hm (by decide)
  have hm' : m < 2 ^ 53 := by
    calc m ≤ m * 10 ^ k := Nat.le_mul_of_pos_right m hten
      _ < 2 ^ 53 := Nat.lt_of_le_of_lt hm (by decide)
  have hprod : num * m < 2 ^ 53 := by
    calc num * m ≤ 10 ^ k * m := Nat.mul_le_mul_right m hnum.le
      _ = m * 10 ^ k := Nat.mul_comm _ _
      _ < 2 ^ 53 := Nat.lt_of_le_of_lt hm (by decide)
  have hne : (10 : ℚ) ^ k ≠ 0 := pow_ne_zero k (by norm_num)
  have hquot : (Double.ofRat (m * 10 ^ k : ℕ)).div (.fin (10 ^ k)) = .fin m := by
    rw [Double.ofRat_natCast (Nat.lt_of_le_of_lt hm (by decide))]
    show (if (10 : ℚ) ^ k = 0 then _ else Double.ofRat ((m * 10 ^ k : ℕ) / 10 ^ k)) = _
    rw [if_neg hne, Nat.cast_mul, Nat.cast_pow, Nat.cast_ofNat, mul_div_cancel_right₀ _ hne,
      Double.ofRat_natCast hm']
  unfold scaled
  dsimp only
  rw [hquot, Double.ofRat_natCast hnum']
  show (Double.ofRat (num * m)).trunc = num * m
  rw [← Nat.cast_mul, Double.ofRat_natCast hprod]
  exact Nat.floor_natCast _

theorem foldl_digit_exact {x k : Nat} {ds : Bytes} (hk : k + ds.length ≤ 22)
    (hx : decimalFrom x ds ≤ 2 ^ 63) :
    ds.foldl Fraction.digit ⟨x, .fin (10 ^ k), false⟩ =
      ⟨decimalFrom x ds, .fin (10 ^ (k + ds.length)), false⟩ := by
  induction ds generalizing x k with
  | nil => rfl
  | cons c cs ih =>
    have hle : x * 10 + digitVal c ≤ 2 ^ 63 :=
      (le_decimalFrom (x * 10 + digitVal c) cs).trans hx
    rw [List.length_cons] at hk
    have hdigit : Fraction.digit ⟨x, .fin (10 ^ k), false⟩ c =
        ⟨x * 10 + digitVal c, .fin (10 ^ (k + 1)), false⟩ := by
      unfold Fraction.digit
      dsimp only
      rw [if_neg Bool.false_ne_true, if_neg (by omega), if_neg (by omega),
        ← ofRat_ten_pow (show k + 1 ≤ 22 by omega), pow_succ]
      rfl
    rw [List.foldl_cons, hdigit, ih (by omega) hx, List.length_cons,
      show k + 1 + cs.length = k + (cs.length + 1) by omega]
    rfl

end MagiTrickle.Config
