import MagiTrickle.Core.Libc
import MagiTrickle.Lib.Rounding

/-!
# Durations as text (`config/duration.c`)

A duration is a number of nanoseconds in a signed 64-bit word. Its text is a
sign and a row of numbers with units; the fraction of a number is scaled in
double precision. `durationParse` reads a text, `durationFormat` writes one.
-/

namespace MagiTrickle.Config

open Libc (isDigit digitVal)
open Lib.Rounding (Double)

/-- `leading_int`: the number at the head of `s`, with the digits `x` before it, and the text behind
it. -/
def leadingInt (x : Nat) : Bytes → Option (Nat × Bytes)
  | [] => some (x, [])
  | c :: cs =>
    if isDigit c then
      if x > 2 ^ 63 / 10 then none
      else if x * 10 + digitVal c > 2 ^ 63 then none
      else leadingInt (x * 10 + digitVal c) cs
    else some (x, c :: cs)

/-- The variables of `leading_fraction`. -/
structure Fraction where
  num : Nat
  scale : Double
  overflow : Bool

def Fraction.digit (f : Fraction) (c : UInt8) : Fraction :=
  if f.overflow then f
  else if f.num > 2 ^ 63 / 10 then { f with overflow := true }
  else if f.num * 10 + digitVal c > 2 ^ 63 then { f with overflow := true }
  else { f with num := f.num * 10 + digitVal c, scale := f.scale.mul (.fin 10) }

/-- `leading_fraction`. -/
def leadingFraction (f : Fraction) : Bytes → Fraction × Bytes
  | [] => (f, [])
  | c :: cs => if isDigit c then leadingFraction (f.digit c) cs else (f, c :: cs)

def Fraction.none : Fraction := ⟨0, .fin 1, false⟩

/-- `UNITS`. -/
def units : List (Bytes × Nat) :=
  [(str "ns", 1), (str "us", 1000), ([0xc2, 0xb5, 115], 1000), ([0xce, 0xbc, 115], 1000),
    (str "ms", 1000000), (str "s", 1000000000), (str "m", 60000000000), (str "h", 3600000000000)]

/-- `lookup_unit`. -/
def lookupUnit (name : Bytes) : Option Nat := units.lookup name

def endsUnit (c : UInt8) : Bool := c = dot ∨ isDigit c

/-- `(uint64_t)((double)f * ((double)unit / scale))`. -/
def scaled (f : Fraction) (unit : Nat) : Nat :=
  ((Double.ofRat f.num).mul ((Double.ofRat unit).div f.scale)).trunc

/-- The fraction behind a dot, if there is one: the text behind it, and whether it has a digit. -/
def dotFraction : Bytes → Fraction × Bytes × Bool
  | 46 :: s =>
    let (f, s') := leadingFraction .none s
    (f, s', s'.length ≠ s.length)
  | s => (.none, s, false)

/-- One turn of the loop of `mt_duration_parse`: the value of a number with its unit, and the text
behind it. -/
def component (s : Bytes) : Except Err (Nat × Bytes) :=
  if ¬ s.head?.any endsUnit then .error .inval
  else
    match leadingInt 0 s with
    | none => .error .inval
    | some (v, s₁) =>
      let pre := s₁.length ≠ s.length
      let (f, s₂, post) := dotFraction s₁
      if ¬ pre ∧ ¬ post then .error .inval
      else
        let name := s₂.takeWhile (!endsUnit ·)
        let s₃ := s₂.dropWhile (!endsUnit ·)
        if name = [] then .error .inval
        else
          match lookupUnit name with
          | none => .error .inval
          | some unit =>
            if v > (2 ^ 63 - 1) / unit then .error .inval
            else if f.num > 0 then
              let v := (v * unit + scaled f unit) % 2 ^ 64
              if v > 2 ^ 63 then .error .inval else .ok (v, s₃)
            else .ok (v * unit, s₃)

/-- The loop, for at most `fuel` turns; each turn takes a byte. -/
def durationLoop : Nat → Nat → Bytes → Except Err Nat
  | _, d, [] => .ok d
  | 0, _, _ :: _ => .error .inval
  | fuel + 1, d, c :: cs =>
    match component (c :: cs) with
    | .error e => .error e
    | .ok (v, s) =>
      let d := (d + v) % 2 ^ 64
      if d > 2 ^ 63 then .error .inval else durationLoop fuel d s

/-- The sign at the head of `s`: whether it is a minus, and the text behind it. -/
def takeSign : Bytes → Bool × Bytes
  | 45 :: s => (true, s)
  | 43 :: s => (false, s)
  | s => (false, s)

/-- A word as a signed number. -/
def toInt64 (d : Int) : Int := d.bmod (2 ^ 64)

/-- `mt_duration_parse`. -/
def durationParse (s : Bytes) : Except Err Int :=
  let (neg, s) := takeSign s
  if s = str "0" then .ok 0
  else if s = [] then .error .inval
  else
    match durationLoop s.length 0 s with
    | .error e => .error e
    | .ok d =>
      if neg then .ok (toInt64 (-toInt64 d))
      else if d > 2 ^ 63 - 1 then .error .inval
      else .ok (toInt64 d)

/-! ## Writing -/

/-- `fmt_frac`: the last `prec` digits of `v` before `buf`, without the zeros at their end, and the
rest of `v`. -/
def fmtFrac : Nat → Bool → Bytes → Nat → Bytes × Nat
  | 0, print, buf, v => (if print then dot :: buf else buf, v)
  | prec + 1, print, buf, v =>
    let digit := v % 10
    let print := print || digit ≠ 0
    fmtFrac prec print (if print then UInt8.ofNat (48 + digit) :: buf else buf) (v / 10)

/-- The loop of `fmt_int`. -/
def fmtDigits (buf : Bytes) (v : Nat) : Bytes :=
  if v = 0 then buf else fmtDigits (UInt8.ofNat (48 + v % 10) :: buf) (v / 10)
decreasing_by omega

/-- `fmt_int`: the digits of `v` before `buf`. -/
def fmtInt (buf : Bytes) (v : Nat) : Bytes :=
  if v = 0 then 48 :: buf else fmtDigits buf v

/-- The text of `u` nanoseconds, more than none, in `buf`. -/
def formatUnsigned (u : Nat) : Bytes :=
  if u < 1000000000 then
    let (prec, buf) :=
      if u < 1000 then (0, str "ns")
      else if u < 1000000 then (3, [0xc2, 0xb5, 115])
      else (6, str "ms")
    let (buf, u) := fmtFrac prec false buf u
    fmtInt buf u
  else
    let (buf, u) := fmtFrac 9 false (str "s") u
    let buf := fmtInt buf (u % 60)
    let u := u / 60
    if u > 0 then
      let buf := fmtInt (109 :: buf) (u % 60)
      let u := u / 60
      if u > 0 then fmtInt (104 :: buf) u else buf
    else buf

/-- What `mt_duration_format` puts into a buffer of `outLen` bytes; nothing if it leaves the buffer
as it was. -/
def durationFormat (d : Int) (outLen : Nat) : Option Bytes :=
  let u := if d < 0 then (-(d + 1)).toNat + 1 else d.toNat
  if u = 0 then
    if outLen ≥ 3 then some (str "0s") else none
  else
    let text := if d < 0 then 45 :: formatUnsigned u else formatUnsigned u
    if text.length + 1 ≤ outLen then some text
    else if outLen > 0 then some [] else none

end MagiTrickle.Config
