import Mathlib.Algebra.Field.Rat
import Mathlib.Algebra.Order.Ring.Rat
import Mathlib.Data.List.DropRight
import Mathlib.Tactic.Linarith

/-!
# Validators of the web UI (`utils/rule-validators.ts`)

The validators for subnets, on strings of characters. `Number` is the conversion
of ECMAScript: the mathematical value of a numeric literal, rounded to a double.
Only its integers from 0 to 128 matter here, so that rounding is a question of
being near enough to one of them.
-/

namespace MagiTrickle.Frontend

/-! ## Numbers -/

/-- `\d` -/
def isDigit (c : Char) : Bool := '0' ≤ c ∧ c ≤ '9'

def isSpace (c : Char) : Bool :=
  c.toNat ∈ [9, 10, 11, 12, 13, 32, 0xA0, 0x1680, 0x2028, 0x2029, 0x202F, 0x205F, 0x3000, 0xFEFF] ∨
    (0x2000 ≤ c.toNat ∧ c.toNat ≤ 0x200A)

def digitValue (c : Char) : Nat :=
  if isDigit c then c.toNat - 48
  else if 'a' ≤ c ∧ c ≤ 'f' then c.toNat - 87
  else if 'A' ≤ c ∧ c ≤ 'F' then c.toNat - 55
  else 16

def runValue (base : Nat) (ds : List Char) : Nat := ds.foldl (fun v c => v * base + digitValue c) 0

/-- A literal in base 2, 8 or 16 behind its mark. -/
def basedLiteral (base : Nat) (ds : List Char) : Option Rat :=
  if ds ≠ [] ∧ ds.all (fun c => digitValue c < base) then some (runValue base ds) else none

def exponent : List Char → Option Int
  | [] => some 0
  | c :: t =>
    if c = 'e' ∨ c = 'E' then
      let (neg, ds) := match t with
        | '-' :: ds => (true, ds)
        | '+' :: ds => (false, ds)
        | ds => (false, ds)
      if ds ≠ [] ∧ ds.all isDigit then
        some (if neg then -(runValue 10 ds : Int) else runValue 10 ds)
      else none
    else none

/-- A decimal literal without a sign; `Infinity` is no integer and left out with it. -/
def decimalLiteral (t : List Char) : Option Rat :=
  let int := t.takeWhile isDigit
  let rest := t.dropWhile isDigit
  let frac := if rest.head? = some '.' then rest.tail.takeWhile isDigit else []
  let rest := if rest.head? = some '.' then rest.tail.dropWhile isDigit else rest
  if int = [] ∧ frac = [] then none
  else (exponent rest).map fun e : Int =>
    (runValue 10 (int ++ frac) : Rat) * (10 : Rat) ^ (e - (frac.length : Int))

/-- The mathematical value of a string, `none` where `Number` is not finite. -/
def numericValue (s : List Char) : Option Rat :=
  match (s.dropWhile isSpace).rdropWhile isSpace with
  | [] => some 0
  | '0' :: 'x' :: ds => basedLiteral 16 ds
  | '0' :: 'X' :: ds => basedLiteral 16 ds
  | '0' :: 'o' :: ds => basedLiteral 8 ds
  | '0' :: 'O' :: ds => basedLiteral 8 ds
  | '0' :: 'b' :: ds => basedLiteral 2 ds
  | '0' :: 'B' :: ds => basedLiteral 2 ds
  | '-' :: t => (decimalLiteral t).map (- ·)
  | '+' :: t => decimalLiteral t
  | t => decimalLiteral t

/-- The double nearest to a value is the integer `k ≤ 128`: it is within half a unit in the last
place of `k`, whose significand is even. Below a power of two the unit is half as large. -/
def roundsTo (q : Rat) (k : Nat) : Bool :=
  if k = 0 then -(1 / 2 ^ 1075) ≤ q ∧ q ≤ 1 / 2 ^ 1075
  else
    let e := Nat.log2 k
    let below : Rat := if k = 2 ^ e then 1 / 2 ^ (54 - e) else 1 / 2 ^ (53 - e)
    k - below ≤ q ∧ q ≤ k + 1 / 2 ^ (53 - e)

/-- `Number(s)` is an integer from 0 to 128. -/
def isPrefixNumber (s : List Char) : Bool :=
  match numericValue s with
  | none => false
  | some q => (List.range 129).any (roundsTo q)

/-! ## Subnets -/

/-- A run of one to `max` digits. -/
def isDigitRun (max : Nat) (s : List Char) : Bool := 1 ≤ s.length ∧ s.length ≤ max ∧ s.all isDigit

/-- The groups of `/^(\d{1,3})\.(\d{1,3})\.(\d{1,3})\.(\d{1,3})(?:\/(\d{1,2}))?$/`. -/
def subnetRe (pattern : List Char) : Option (List (List Char) × Option (List Char)) :=
  let octets := (pattern.takeWhile (· ≠ '/')).splitOn '.'
  if octets.length = 4 ∧ octets.all (isDigitRun 3) then
    match pattern.dropWhile (· ≠ '/') with
    | [] => some (octets, none)
    | _ :: bits => if isDigitRun 2 bits then some (octets, some bits) else none
  else none

def isValidSubnet (pattern : List Char) : Bool :=
  match subnetRe pattern with
  | none => false
  | some (octets, bits) =>
    octets.all (fun o => runValue 10 o ≤ 255) && bits.all fun b => runValue 10 b ≤ 32

/-- `/^[0-9a-fA-F:]+$/` with a colon. -/
def isValidIPv6 (ip : List Char) : Bool :=
  ip ≠ [] ∧ ip.all (fun c => digitValue c < 16 ∨ c = ':') ∧ ':' ∈ ip

def isValidSubnet6 (pattern : List Char) : Bool :=
  match pattern.splitOn '/' with
  | [ip] => isValidIPv6 ip
  | [ip, bits] => isPrefixNumber bits && isValidIPv6 ip
  | _ => false

end MagiTrickle.Frontend
