import MagiTrickle.Core.Basic
import Mathlib.Data.List.TakeWhile
import Mathlib.Data.Nat.Digits.Lemmas

/-!
# The C library functions on text

`strtol` in base ten and `inet_pton`, on the bytes of a string, as POSIX and
glibc document them. A byte outside the accepted syntax makes the function fail;
nothing is read past the end.
-/

namespace MagiTrickle.Libc

/-- `isspace` in the C locale. -/
def isSpace (c : UInt8) : Bool := c = 32 ∨ (9 ≤ c ∧ c ≤ 13)

/-- `isdigit`. -/
def isDigit (c : UInt8) : Bool := 48 ≤ c ∧ c ≤ 57

def digitVal (c : UInt8) : Nat := c.toNat - 48

def decimal (ds : Bytes) : Nat := ds.foldl (fun v c => v * 10 + digitVal c) 0

/-- The decimal digits of a number, as `%d` prints them. -/
def digits (n : Nat) : Bytes :=
  if n = 0 then [48] else (Nat.digits 10 n).reverse.map fun d => UInt8.ofNat (48 + d)

/-- `snprintf` with `%d`. -/
def formatInt (i : Int) : Bytes := if i < 0 then 45 :: digits i.natAbs else digits i.natAbs

/-- `strtol(s, &end, 10)`: the value and the text from `end` on, or `none` when nothing is
converted. The value is not clamped to `long`: the callers reject everything that clamping could
change. -/
def strtol (s : Bytes) : Option (Int × Bytes) :=
  let t := s.dropWhile isSpace
  let (neg, t) := match t with
    | 45 :: t => (true, t)
    | 43 :: t => (false, t)
    | t => (false, t)
  let ds := t.takeWhile isDigit
  if ds = [] then none
  else
    let v : Int := decimal ds
    some (if neg then -v else v, t.dropWhile isDigit)

/-- `strtoul(s, NULL, 10)` where `unsigned long` has 64 bits: too large a number gives the largest
one, a minus sign negates. -/
def strtoul (s : Bytes) : Nat :=
  match strtol s with
  | none => 0
  | some (v, _) =>
    if 2 ^ 64 ≤ v.natAbs then 2 ^ 64 - 1
    else if v < 0 then 2 ^ 64 - v.natAbs
    else v.natAbs

/-- One octet of a dotted quad: one to three digits, no leading zero, at most 255. -/
def octet (s : Bytes) : Option UInt8 :=
  if s ≠ [] ∧ s.length ≤ 3 ∧ s.all isDigit ∧ (s.head? = some 48 → s.length = 1) ∧
      decimal s ≤ 255 then
    some (UInt8.ofNat (decimal s))
  else none

/-- `inet_pton(AF_INET, …)`. -/
def inetPton4 (s : Bytes) : Option Bytes :=
  let parts := s.splitOn dot
  if parts.length = 4 then parts.mapM octet else none

def hexVal (c : UInt8) : Option Nat :=
  if 48 ≤ c ∧ c ≤ 57 then some (c.toNat - 48)
  else if 97 ≤ c ∧ c ≤ 102 then some (c.toNat - 87)
  else if 65 ≤ c ∧ c ≤ 70 then some (c.toNat - 55)
  else none

/-- One group of an IPv6 address, one to four hexadecimal digits, as two octets. -/
def hextet (s : Bytes) : Option Bytes :=
  if s = [] ∨ 4 < s.length then none
  else (s.mapM hexVal).map fun ds =>
    let v := ds.foldl (fun v d => v * 16 + d) 0
    [UInt8.ofNat (v / 256), UInt8.ofNat (v % 256)]

/-- The octets of groups separated by colons; the last group may be a dotted quad when `v4`. -/
def hextets (v4 : Bool) : List Bytes → Option Bytes
  | [] => some []
  | [p] => match hextet p with
    | some o => some o
    | none => if v4 then inetPton4 p else none
  | p :: ps => do
    let o ← hextet p
    let os ← hextets v4 ps
    pure (o ++ os)

/-- The text before and after the first `::`. -/
def splitGap : Bytes → Option (Bytes × Bytes)
  | [] => none
  | c :: cs => match c, cs with
    | 58, 58 :: rest => some ([], rest)
    | c, cs => (splitGap cs).map fun (l, r) => (c :: l, r)

/-- `inet_pton(AF_INET6, …)`: eight groups, or fewer with one `::` that stands for at least one. -/
def inetPton6 (s : Bytes) : Option Bytes :=
  let side (v4 : Bool) (t : Bytes) := if t = [] then some [] else hextets v4 (t.splitOn 58)
  match splitGap s with
  | none => do
    let os ← side true s
    if os.length = 16 then pure os else none
  | some (l, r) => do
    let ls ← side false l
    let rs ← side true r
    if ls.length + rs.length ≤ 14 then
      pure (ls ++ List.replicate (16 - ls.length - rs.length) 0 ++ rs)
    else none

/-! ## Printing and reading numbers -/

theorem isDigit_ofNat : ∀ {d : Nat}, d < 10 → isDigit (UInt8.ofNat (48 + d)) = true := by
  decide

theorem digitVal_lt {c : UInt8} (h : isDigit c = true) : digitVal c < 10 := by
  unfold isDigit at h
  obtain ⟨hlo, hhi⟩ := of_decide_eq_true h
  have hlo' := UInt8.le_iff_toNat_le.mp hlo
  have hhi' := UInt8.le_iff_toNat_le.mp hhi
  unfold digitVal
  simp only [UInt8.reduceToNat] at hlo' hhi'
  omega

theorem digitVal_ofNat : ∀ {d : Nat}, d < 10 → digitVal (UInt8.ofNat (48 + d)) = d := by
  decide

theorem isDigit_digits (n : Nat) : ∀ c ∈ digits n, isDigit c = true := by
  intro c hc
  unfold digits at hc
  split at hc
  · rw [List.mem_singleton.mp hc]
    decide
  · obtain ⟨d, hd, rfl⟩ := List.mem_map.mp hc
    exact isDigit_ofNat (Nat.digits_lt_base (by decide) (List.mem_reverse.mp hd))

theorem not_sign_of_isDigit {c : UInt8} (h : isDigit c = true) :
    isSpace c = false ∧ c ≠ 45 ∧ c ≠ 43 := by
  simp only [isDigit, isSpace, decide_eq_true_eq, decide_eq_false_iff_not, ne_eq,
    UInt8.le_iff_toNat_le, ← UInt8.toNat_inj] at h ⊢
  simp only [UInt8.reduceToNat] at h ⊢
  omega

theorem length_digits_le {n k : Nat} (hk : 0 < k) (h : n < 10 ^ k) : (digits n).length ≤ k := by
  unfold digits
  split
  · exact hk
  · simpa using (Nat.digits_length_le_iff (by decide) n).mpr h

theorem digits_ne_nil (n : Nat) : digits n ≠ [] := by
  unfold digits
  split
  · simp
  · next h => simpa using Nat.digits_ne_nil_iff_ne_zero.mpr h

theorem decimal_map (ds : List Nat) (h : ∀ d ∈ ds, d < 10) :
    decimal (ds.reverse.map fun d => UInt8.ofNat (48 + d)) = Nat.ofDigits 10 ds := by
  unfold decimal
  rw [List.map_reverse, List.foldl_reverse]
  induction ds with
  | nil => rfl
  | cons d ds ih =>
    rw [List.map_cons, List.foldr_cons, ih (fun x hx => h x (List.mem_cons_of_mem _ hx)),
      digitVal_ofNat (h d (List.mem_cons_self ..)), Nat.ofDigits_cons]
    omega

theorem decimal_digits (n : Nat) : decimal (digits n) = n := by
  unfold digits
  split
  · next h => rw [h]; rfl
  · rw [decimal_map _ fun d hd => Nat.digits_lt_base (by decide) hd, Nat.ofDigits_digits]

/-- `strtol` on digits alone. -/
theorem strtol_of_digits {ds : Bytes} (hne : ds ≠ []) (hall : ∀ c ∈ ds, isDigit c = true) :
    strtol ds = some ((decimal ds : Int), []) := by
  obtain ⟨c, cs, rfl⟩ := List.exists_cons_of_ne_nil hne
  obtain ⟨hspace, hminus, hplus⟩ := not_sign_of_isDigit (hall c (List.mem_cons_self ..))
  have htake : (c :: cs).takeWhile isDigit = c :: cs := List.takeWhile_eq_self_iff.mpr hall
  have hdrop : (c :: cs).dropWhile isDigit = [] := List.dropWhile_eq_nil_iff.mpr hall
  rw [strtol, List.dropWhile_cons_of_neg (by simpa using hspace)]
  split
  next neg t heq =>
  split at heq
  · next h45 => exact absurd (List.cons.inj h45).1 hminus
  · next h43 => exact absurd (List.cons.inj h43).1 hplus
  · cases heq
    simp only [htake, hdrop]
    simp

theorem strtoul_of_digits {ds : Bytes} (hne : ds ≠ []) (hall : ∀ c ∈ ds, isDigit c = true) :
    strtoul ds = if 2 ^ 64 ≤ decimal ds then 2 ^ 64 - 1 else decimal ds := by
  rw [strtoul, strtol_of_digits hne hall]
  dsimp only
  rw [Int.natAbs_natCast]
  split
  · rfl
  · rw [if_neg (by omega)]

/-- `strtol` reads back what `%d` printed. -/
theorem strtol_formatInt {i : Int} (h : 0 ≤ i) : strtol (formatInt i) = some (i, []) := by
  have hfmt : formatInt i = digits i.natAbs := if_neg (by omega)
  rw [hfmt, strtol_of_digits (digits_ne_nil _) (isDigit_digits _), decimal_digits,
    Int.natAbs_of_nonneg h]

end MagiTrickle.Libc
