import Mathlib.Algebra.Order.Floor.Semifield
import Mathlib.Data.Int.Log
import Mathlib.Data.Rat.Floor
import Mathlib.Tactic.FieldSimp
import Mathlib.Tactic.Linarith
import Mathlib.Tactic.Ring

/-!
# Binary floating point

Non-negative numbers of a binary format: whole numbers of `digits` bits times a
power of two. `Format.near` rounds to the nearest one, to the even one of two;
it is monotone, does not change what the format has (`near_exact`) and at most
doubles (`near_le_two_mul`). `Double` adds what is too large, and what has no
value.
-/

namespace MagiTrickle.Lib.Rounding

/-! ## To whole numbers -/

/-- The nearest whole number, the even one of two. -/
def nearest (x : ℚ) : ℕ :=
  let k := ⌊x⌋₊
  if x < k + 1 / 2 then k else if k + 1 / 2 < x then k + 1 else k + k % 2

theorem nearest_bounds (x : ℚ) : ⌊x⌋₊ ≤ nearest x ∧ nearest x ≤ ⌊x⌋₊ + 1 := by
  unfold nearest
  dsimp only
  split_ifs <;> omega

@[simp] theorem nearest_natCast (n : ℕ) : nearest (n : ℚ) = n := by
  unfold nearest
  rw [Nat.floor_natCast]
  exact if_pos (by linarith)

theorem nearest_mono {x y : ℚ} (h : x ≤ y) : nearest x ≤ nearest y := by
  rcases Nat.lt_or_eq_of_le (Nat.floor_mono h) with hlt | heq
  · exact (nearest_bounds x).2.trans (Nat.succ_le_of_lt hlt |>.trans (nearest_bounds y).1)
  · unfold nearest
    dsimp only
    rw [heq]
    split_ifs with hx hy hy' hx' hy hy' hy hy'
    all_goals first | omega | linarith

theorem nearest_le_two_mul {x : ℚ} (h : 0 ≤ x) : (nearest x : ℚ) ≤ 2 * x := by
  have hfloor : (⌊x⌋₊ : ℚ) ≤ x := Nat.floor_le h
  rcases Nat.eq_zero_or_pos ⌊x⌋₊ with hzero | hpos
  · unfold nearest
    rw [hzero]
    dsimp only
    split_ifs with hlt hgt
    · simpa using h
    · push_cast
      linarith
    · simpa using h
  · have hone : (1 : ℚ) ≤ ⌊x⌋₊ := by exact_mod_cast hpos
    have hup : (nearest x : ℚ) ≤ ⌊x⌋₊ + 1 := by exact_mod_cast (nearest_bounds x).2
    linarith

/-! ## To the numbers of a format -/

/-- The numbers below `2 ^ high` that are a whole number of `digits` bits times a power of two from
`2 ^ low` on. -/
structure Format where
  digits : ℕ
  low : ℤ
  high : ℤ
  pos : 0 < digits

namespace Format

variable (F : Format) {x y : ℚ}

/-- The exponent of the last place of `x`. -/
def place (x : ℚ) : ℤ := max F.low (Int.log 2 x + 1 - F.digits)

def ulp (x : ℚ) : ℚ := 2 ^ F.place x

/-- The nearest number, `high` aside. -/
def near (x : ℚ) : ℚ := nearest (x / F.ulp x) * F.ulp x

theorem ulp_pos (x : ℚ) : 0 < F.ulp x := zpow_pos (by norm_num) _

/-- From the last place on, a whole number times a power of two has only whole places. -/
theorem exists_mul_ulp (m : ℕ) {j : ℤ} (hj : F.place x ≤ j) :
    ∃ k : ℕ, (m : ℚ) * 2 ^ j = k * F.ulp x := by
  obtain ⟨n, hn⟩ := Int.eq_ofNat_of_zero_le (Int.sub_nonneg_of_le hj)
  refine ⟨m * 2 ^ n, ?_⟩
  have hsum : j = n + F.place x := by omega
  rw [hsum, zpow_add₀ (by norm_num), zpow_natCast, ulp]
  push_cast
  ring

theorem near_of_place {m : ℕ} {j : ℤ} (hx : x = m * 2 ^ j) (hj : F.place x ≤ j) :
    F.near x = x := by
  obtain ⟨k, hk⟩ := F.exists_mul_ulp m hj
  have hmul : x = k * F.ulp x := hx.trans hk
  rw [near, (div_eq_iff (F.ulp_pos x).ne').mpr hmul, nearest_natCast]
  exact hmul.symm

theorem near_exact {m : ℕ} {j : ℤ} (hm : m < 2 ^ F.digits) (hj : F.low ≤ j) :
    F.near (m * 2 ^ j) = m * 2 ^ j := by
  rcases Nat.eq_zero_or_pos m with rfl | hpos
  · rw [Nat.cast_zero, zero_mul, near, zero_div]
    exact mul_eq_zero_of_left (by exact_mod_cast nearest_natCast 0) _
  · have hx : (0 : ℚ) < m * 2 ^ j := mul_pos (by exact_mod_cast hpos) (zpow_pos (by norm_num) j)
    have hlog : Int.log 2 ((m : ℚ) * 2 ^ j) < F.digits + j := by
      refine (Int.lt_zpow_iff_log_lt (by norm_num) hx).mp ?_
      rw [zpow_add₀ (by norm_num), zpow_natCast]
      exact mul_lt_mul_of_pos_right (by exact_mod_cast hm) (zpow_pos (by norm_num) j)
    refine F.near_of_place rfl ?_
    unfold place
    omega

theorem near_natCast {n : ℕ} (h : n < 2 ^ F.digits) (hlow : F.low ≤ 0) : F.near n = n := by
  have hexact := F.near_exact h hlow
  rwa [zpow_zero, mul_one] at hexact

theorem near_le_of_le {z : ℚ} {m : ℕ} {j : ℤ} (hz : z = m * 2 ^ j) (hj : F.place x ≤ j)
    (h : x ≤ z) : F.near x ≤ z := by
  obtain ⟨k, hk⟩ := F.exists_mul_ulp m hj
  rw [hz, hk] at h ⊢
  refine mul_le_mul_of_nonneg_right ?_ (F.ulp_pos x).le
  have hmono := nearest_mono ((div_le_iff₀ (F.ulp_pos x)).mpr h)
  rw [nearest_natCast] at hmono
  exact_mod_cast hmono

theorem le_near_of_le {z : ℚ} {m : ℕ} {j : ℤ} (hz : z = m * 2 ^ j) (hj : F.place x ≤ j)
    (h : z ≤ x) : z ≤ F.near x := by
  obtain ⟨k, hk⟩ := F.exists_mul_ulp m hj
  rw [hz, hk] at h ⊢
  refine mul_le_mul_of_nonneg_right ?_ (F.ulp_pos x).le
  have hmono := nearest_mono ((le_div_iff₀ (F.ulp_pos x)).mpr h)
  rw [nearest_natCast] at hmono
  exact_mod_cast hmono

theorem place_mono (hx : 0 < x) (h : x ≤ y) : F.place x ≤ F.place y := by
  have hlog := Int.log_mono_right (b := 2) hx h
  unfold place
  omega

theorem near_mono (hx : 0 < x) (h : x ≤ y) : F.near x ≤ F.near y := by
  rcases (F.place_mono hx h).lt_or_eq with hlt | heq
  · -- the power of two at the head of `y` lies between
    have hpos := F.pos
    have hlog : Int.log 2 x + 1 ≤ Int.log 2 y := by
      unfold place at hlt
      omega
    have hplace : F.place y ≤ Int.log 2 y := by
      unfold place at hlt ⊢
      omega
    have hhead : (2 : ℚ) ^ Int.log 2 y = (1 : ℕ) * 2 ^ Int.log 2 y := by
      rw [Nat.cast_one, one_mul]
    calc F.near x ≤ 2 ^ Int.log 2 y := by
          refine F.near_le_of_le hhead (by omega) ?_
          exact (Int.lt_zpow_succ_log_self (by norm_num) x).le.trans
            (zpow_le_zpow_right₀ (by norm_num) hlog)
      _ ≤ F.near y :=
          F.le_near_of_le hhead hplace (Int.zpow_log_le_self (by norm_num) (hx.trans_le h))
  · have hulp : F.ulp x = F.ulp y := by rw [ulp, ulp, heq]
    unfold near
    rw [hulp]
    refine mul_le_mul_of_nonneg_right ?_ (F.ulp_pos y).le
    exact_mod_cast nearest_mono (div_le_div_of_nonneg_right h (F.ulp_pos y).le)

theorem near_nonneg (x : ℚ) : 0 ≤ F.near x := mul_nonneg (Nat.cast_nonneg _) (F.ulp_pos x).le

theorem near_le_two_mul (h : 0 ≤ x) : F.near x ≤ 2 * x := by
  calc F.near x ≤ 2 * (x / F.ulp x) * F.ulp x :=
        mul_le_mul_of_nonneg_right (nearest_le_two_mul (div_nonneg h (F.ulp_pos x).le))
          (F.ulp_pos x).le
    _ = 2 * x := by
        have hne := (F.ulp_pos x).ne'
        field_simp

end Format

/-! ## Double precision -/

def binary64 : Format where
  digits := 53
  low := -1074
  high := 1024
  pos := by norm_num

/-- The doubles that are not negative. -/
inductive Double where
  | fin (x : ℚ)
  | inf
  | nan
  deriving DecidableEq, Repr

namespace Double

/-- The double nearest to `x`. -/
def ofRat (x : ℚ) : Double :=
  if binary64.near x < 2 ^ binary64.high then fin (binary64.near x) else inf

def mul : Double → Double → Double
  | fin x, fin y => ofRat (x * y)
  | fin x, inf | inf, fin x => if x = 0 then nan else inf
  | inf, inf => inf
  | nan, _ | _, nan => nan

def div : Double → Double → Double
  | fin x, fin y => if y = 0 then (if x = 0 then nan else inf) else ofRat (x / y)
  | fin _, inf => fin 0
  | inf, fin _ => inf
  | inf, inf => nan
  | nan, _ | _, nan => nan

/-- The whole part. What has none is 0 here; C leaves it open. -/
def trunc : Double → ℕ
  | fin x => ⌊x⌋₊
  | inf | nan => 0

theorem ofRat_natCast {n : ℕ} (h : n < 2 ^ 53) : ofRat n = fin n := by
  have hnear : binary64.near n = n := binary64.near_natCast h (by decide)
  have hlt : (n : ℚ) < 2 ^ (1024 : ℤ) := by
    calc (n : ℚ) < 2 ^ (53 : ℤ) := by exact_mod_cast h
      _ ≤ 2 ^ (1024 : ℤ) := zpow_le_zpow_right₀ (by norm_num) (by norm_num)
  rw [ofRat, hnear]
  exact if_pos hlt

end Double

end MagiTrickle.Lib.Rounding
