import MagiTrickle.Config.Duration

/-!
# Plain scalars (`config/yaml_scalar.c`)

What a scalar without quotes stands for. `resolvePlain` decides it for the
loader, and `needsQuote` tells the writer which strings would not be strings
any more without quotes.
-/

namespace MagiTrickle.Yaml

open Libc (isDigit isSpace decimal)
open Lib.Rounding (Double binary64)
open Config (takeSign toInt64)

/-- `mt_scalar_value_t`. -/
inductive Scalar where
  | str
  | null
  | bool (b : Bool)
  /-- `i`, or `u` where `is_uint` is set: from `2 ^ 63` on. -/
  | int (v : Int)
  | float (neg : Bool) (x : Double)
  | timestamp
  | merge
  deriving DecidableEq, Repr

/-- `TRUE_WORDS`. -/
def trueWords : List Bytes :=
  ["y", "Y", "yes", "Yes", "YES", "true", "True", "TRUE", "on", "On", "ON"].map str

/-- `FALSE_WORDS`. -/
def falseWords : List Bytes :=
  ["n", "N", "no", "No", "NO", "false", "False", "FALSE", "off", "Off", "OFF"].map str

/-- `NULL_WORDS`. -/
def nullWords : List Bytes := ["", "~", "null", "Null", "NULL"].map str

/-- `FLOAT_WORDS`. -/
def floatWords : List Bytes :=
  [".nan", ".NaN", ".NAN", ".inf", ".Inf", ".INF", "+.inf", "+.Inf", "+.INF", "-.inf", "-.Inf",
    "-.INF"].map str

/-! ## Numbers -/

/-- `strip_underscores`, into `outLen` bytes. -/
def stripUnderscores (s : Bytes) (outLen : Nat) : Bytes := (s.filter (· ≠ 95)).take (outLen - 1)

/-- The value of digits in a base up to 16. -/
def radixValue (base : Nat) (ds : Bytes) : Nat :=
  ds.foldl (fun v c => v * base + (Libc.hexVal c).getD 0) 0

def isRadixDigit (base : Nat) (c : UInt8) : Bool := (Libc.hexVal c).any (· < base)

/-- What the number at the head of `s` has for its base if `base` is 0, and where its digits begin:
`0x` before a hexadecimal digit, `0` before others. -/
def radix (base : Nat) (s : Bytes) : Nat × Bytes :=
  if base = 0 then
    match s with
    | 48 :: x :: c :: t =>
      if (x = 120 ∨ x = 88) ∧ (Libc.hexVal c).isSome then (16, c :: t) else (8, s)
    | 48 :: _ => (8, s)
    | _ => (10, s)
  else (base, s)

/-- What `strtoll` and `strtoull` have in common: the sign and the digits' value, and the text from
`end` on; `none` when nothing is converted. -/
def strtoWhole (base : Nat) (s : Bytes) : Option (Bool × Nat × Bytes) :=
  let (neg, t) := takeSign (s.dropWhile isSpace)
  let (base, t) := radix base t
  let ds := t.takeWhile (isRadixDigit base)
  if ds = [] then none else some (neg, radixValue base ds, t.dropWhile (isRadixDigit base))

/-- `strtoll` where all of `s` is converted, and without `ERANGE`. -/
def strtollAll (base : Nat) (s : Bytes) : Option Int :=
  match strtoWhole base s with
  | some (neg, v, []) =>
    let i : Int := if neg then -v else v
    if -2 ^ 63 ≤ i ∧ i < 2 ^ 63 then some i else none
  | _ => none

/-- `strtoull` where all of `s` is converted, and without `ERANGE`; a minus sign negates. -/
def strtoullAll (base : Nat) (s : Bytes) : Option Nat :=
  match strtoWhole base s with
  | some (neg, v, []) =>
    if v < 2 ^ 64 then some (if neg then (2 ^ 64 - v) % 2 ^ 64 else v) else none
  | _ => none

/-- `parse_go_int`. -/
def parseGoInt (s : Bytes) : Option Int :=
  if s = [] then none
  else
    match strtollAll 0 s with
    | some i => some i
    | none => if s.head? = some 45 then none else (strtoullAll 0 s).map fun u => (u : Int)

def skipExponent (s : Bytes) : Option Bytes :=
  match s with
  | c :: t =>
    if c = 101 ∨ c = 69 then
      let t := (takeSign t).2
      if t.head?.any isDigit then some (t.dropWhile isDigit) else none
    else some s
  | [] => some []

/-- `matches_yaml_style_float`. -/
def matchesYamlStyleFloat (s : Bytes) : Bool :=
  match (takeSign s).2 with
  | 46 :: p => p.head?.any isDigit && skipExponent (p.dropWhile isDigit) = some []
  | p =>
    p.head?.any isDigit &&
      match p.dropWhile isDigit with
      | 46 :: p => skipExponent (p.dropWhile isDigit) = some []
      | p => skipExponent p = some []

/-- The exponent that `strtod` takes from the head of `s`, and the text behind it; what is no
exponent is left alone. -/
def strtodExponent (s : Bytes) : Int × Bytes :=
  match s with
  | c :: t =>
    let (neg, ds) := takeSign t
    if (c = 101 ∨ c = 69) ∧ ds.head?.any isDigit then
      let e : Int := decimal (ds.takeWhile isDigit)
      (if neg then -e else e, ds.dropWhile isDigit)
    else (0, s)
  | [] => (0, [])

/-- `ERANGE` of `strtod` at the value `x`: too large, or below the normal numbers and not exact. -/
def outOfRange (x : Rat) : Bool :=
  Double.ofRat x = .inf ∨ x ≠ 0 ∧ x < (2 : Rat) ^ (-1022 : Int) ∧ binary64.near x ≠ x

/-- `strtod` on decimal numbers, where all of `s` is converted, and without `ERANGE`. -/
def strtodAll (s : Bytes) : Option (Bool × Double) :=
  let (neg, t) := takeSign s
  let whole := t.takeWhile isDigit
  let (frac, t) := match t.dropWhile isDigit with
    | 46 :: t => (t.takeWhile isDigit, t.dropWhile isDigit)
    | t => ([], t)
  let (e, t) := strtodExponent t
  let x : Rat := decimal (whole ++ frac) * (10 : Rat) ^ (e - frac.length)
  if (whole = [] ∧ frac = []) ∨ t ≠ [] ∨ outOfRange x then none
  else some (neg, .ofRat x)

/-- Behind the other tests of numbers: `0b` and binary digits. -/
def binaryInt (s : Bytes) : Option Int :=
  let neg := s.head? = some 45
  match if neg then s.tail else s with
  | 48 :: 98 :: c :: t =>
    (strtoullAll 2 (c :: t)).map fun b => if neg then toInt64 (-toInt64 b) else b
  | _ => none

/-! ## Timestamps -/

/-- One or two digits at the head of `p`. -/
def twoDigits (p : Bytes) : Option (Nat × Bytes) :=
  let ds := p.takeWhile isDigit
  if ds.length = 1 ∨ ds.length = 2 then some (decimal ds, p.dropWhile isDigit) else none

/-- The byte `c` at the head of `p`. -/
def expect (c : UInt8) (p : Bytes) : Option Bytes :=
  match p with
  | d :: p => if d = c then some p else none
  | [] => none

/-- `Z`, or an offset. -/
def zone (p : Bytes) : Option Bytes :=
  match p with
  | 90 :: p => some p
  | s :: a :: b :: c :: d :: e :: p =>
    if (s = 43 ∨ s = 45) ∧ isDigit a ∧ isDigit b ∧ c = 58 ∧ isDigit d ∧ isDigit e then some p
    else none
  | _ => none

def secondFraction (p : Bytes) : Option Bytes :=
  match p with
  | 46 :: p =>
    let n := (p.takeWhile isDigit).length
    if 1 ≤ n ∧ n ≤ 9 then some (p.dropWhile isDigit) else none
  | p => some p

def timeOfDay (p : Bytes) : Option Unit := do
  let c ← p.head?
  let tSep := c = 84 ∨ c = 116
  let p ← if tSep then some p.tail
    else if c = 32 ∨ c = 9 then some (p.dropWhile fun c => c = 32 ∨ c = 9)
    else none
  let (hour, p) ← twoDigits p
  let p ← expect 58 p
  let (minute, p) ← twoDigits p
  let p ← expect 58 p
  let (second, p) ← twoDigits p
  if hour > 23 ∨ minute > 59 ∨ second > 59 then none
  let p ← secondFraction p
  let p ← if tSep then zone p else some p
  if p = [] then some () else none

/-- `parse_timestamp`. -/
def timestamp (s : Bytes) : Option Unit := do
  if (s.takeWhile isDigit).length ≠ 4 then none
  let p ← expect 45 (s.dropWhile isDigit)
  let (month, p) ← twoDigits p
  if month < 1 ∨ month > 12 then none
  let p ← expect 45 p
  let (day, p) ← twoDigits p
  if day < 1 ∨ day > 31 then none
  if p = [] then some () else timeOfDay p

/-! ## Resolution -/

/-- `"nan"`, `"inf"` or `"-inf"` for one of the `floatWords`. -/
def floatWord (s : Bytes) : Scalar :=
  if s ∈ [".nan", ".NaN", ".NAN"].map str then .float false .nan
  else .float (s.head? = some 45) .inf

/-- What begins with a digit or a sign. -/
def resolveNumber (s : Bytes) : Scalar :=
  if (timestamp s).isSome then .timestamp
  else
    let plain := stripUnderscores s 128
    match parseGoInt plain with
    | some v => .int v
    | none =>
      match if matchesYamlStyleFloat plain then strtodAll plain else none with
      | some (neg, x) => .float neg x
      | none =>
        match binaryInt plain with
        | some v => .int v
        | none => .str

/-- `mt_yaml_resolve_plain`. -/
def resolvePlain (s : Bytes) : Scalar :=
  let first := s.head?
  let hintMap := first.all (· ∈ str "yYnNtTfFoO~")
  let hintDigit := first.any isDigit
  let hintSign := first.any fun c => c = 45 ∨ c = 43
  let hintDot := first = some 46
  let hintSpecial := first = some 60
  if !(hintMap || hintDigit || hintSign || hintDot || hintSpecial) then .str
  else if s ∈ trueWords then .bool true
  else if s ∈ falseWords then .bool false
  else if s ∈ nullWords then .null
  else if s ∈ floatWords then floatWord s
  else if s = str "<<" then .merge
  else if hintDot then
    match strtodAll s with
    | some (neg, x) => .float neg x
    | none => .str
  else if hintDigit || hintSign then resolveNumber s
  else .str

/-- The loop over `:` and one or two digits. -/
def base60Loop : Bytes → Option Bytes
  | 58 :: a :: b :: p =>
    if 48 ≤ a ∧ a ≤ 53 ∧ isDigit b then base60Loop p
    else if isDigit a then base60Loop (b :: p)
    else none
  | [58, a] => if isDigit a then some [] else none
  | [58] => none
  | p => some p

/-- `mt_yaml_is_base60_float`. -/
def isBase60Float (s : Bytes) : Bool :=
  match (takeSign s).2 with
  | c :: p =>
    let p := p.dropWhile fun c => isDigit c ∨ c = 95
    isDigit c && p.head? = some 58 &&
      match base60Loop p with
      | some (46 :: p) => p.all fun c => isDigit c ∨ c = 95
      | some p => p = []
      | none => false
  | [] => false

/-- `mt_yaml_string_needs_quote`. -/
def needsQuote (s : Bytes) : Bool := resolvePlain s ≠ .str || isBase60Float s

end MagiTrickle.Yaml
