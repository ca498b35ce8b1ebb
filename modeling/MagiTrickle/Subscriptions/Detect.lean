import MagiTrickle.Core.Libc
import Mathlib.Data.List.DropRight

/-!
# Types of subscription rules (`subscriptions/subparse.c`)

The validators that look at the text of a rule, and the type they detect. Which
texts compile as regular expressions is a parameter (`rx`).
-/

namespace MagiTrickle.Subscriptions

open Libc

/-- Letters, digits, `-` and `.`, and the bytes in `extra`. -/
def allCharsIn (s extra : Bytes) : Bool :=
  s.all fun c => (97 ≤ c ∧ c ≤ 122) ∨ (65 ≤ c ∧ c ≤ 90) ∨ (48 ≤ c ∧ c ≤ 57) ∨ c = 45 ∨ c = dot ∨
    c ∈ extra

/-- `strstr` of two equal bytes. -/
def hasTwice (c : UInt8) : Bytes → Bool
  | a :: b :: rest => (a = c ∧ b = c) || hasTwice c (b :: rest)
  | _ => false

def isValidDomain (p : Bytes) : Bool :=
  if p = [] then false
  else if p.head? = some dot ∨ p.getLast? = some dot then false
  else if hasTwice dot p then false
  else allCharsIn p []

def isValidWildcard (p : Bytes) : Bool :=
  if p = [] then false
  else if p.head? = some dot ∨ p.getLast? = some dot then false
  else if hasTwice dot p ∨ hasTwice 42 p then false
  else allCharsIn p (str "*?")

/-- The loop of `parse_dec`. Its `int` wraps around at the tenth digit, before the check. -/
def parseDecLoop : Bytes → Int → Int
  | [], n => n
  | c :: s, n =>
    if ¬ isDigit c then -1
    else
      let n := (n * 10 + digitVal c).bmod (2 ^ 32)
      if n > 999999999 then -1 else parseDecLoop s n

/-- `parse_dec`. -/
def parseDec (s : Bytes) : Int := if s = [] then -1 else parseDecLoop s 0

/-- A run of one to `maxLen` digits with a value of at most `max`, and what follows it. -/
def digitRun (maxLen max : Nat) (s : Bytes) : Option Bytes :=
  let d := s.takeWhile isDigit
  if d.length < 1 ∨ d.length > maxLen then none
  else
    let v := parseDec d
    if v < 0 ∨ v > max then none else some (s.dropWhile isDigit)

/-- The loop over the octets of `is_valid_subnet`, with the number of octets behind this one. -/
def octetRuns : Nat → Bytes → Option Bytes
  | 0, s => digitRun 3 255 s
  | n + 1, s =>
    match digitRun 3 255 s with
    | some (c :: s) => if c = dot then octetRuns n s else none
    | _ => none

def isValidSubnet (p : Bytes) : Bool :=
  match octetRuns 3 p with
  | none => false
  | some s =>
    if s.head? = some 47 then digitRun 2 32 s.tail = some [] else s = []

def isIpv6Char (c : UInt8) : Bool :=
  (48 ≤ c ∧ c ≤ 57) ∨ (97 ≤ c ∧ c ≤ 102) ∨ (65 ≤ c ∧ c ≤ 70) ∨ c = 58

def isValidIpv6Chars (ip : Bytes) : Bool := 58 ∈ ip ∧ ip.all isIpv6Char

def isValidSubnet6 (p : Bytes) : Bool :=
  match p.dropWhile (· ≠ 47) with
  | [] => isValidIpv6Chars p
  | _ :: rest =>
    if 47 ∈ rest then false
    else
      let pfx := parseDec rest
      if pfx < 0 ∨ pfx > 128 then false
      else if (p.takeWhile (· ≠ 47)).length ≥ 256 then false
      else isValidIpv6Chars (p.takeWhile (· ≠ 47))

/-- `mt_sub_detect_type`. -/
def detectType (rx : Bytes → Bool) (p : Bytes) : Bytes :=
  if isValidSubnet6 p then str "subnet6"
  else if isValidSubnet p then str "subnet"
  else if isValidDomain p then str "namespace"
  else if rx p then str "regex"
  else if isValidWildcard p then str "wildcard"
  else []

/-- The byte `'|'` of the keys. -/
abbrev bar : UInt8 := 124

theorem bar_not_mem_detectType (rx : Bytes → Bool) (p : Bytes) : bar ∉ detectType rx p := by
  unfold detectType
  split
  · decide
  · split
    · decide
    · split
      · decide
      · split
        · decide
        · split <;> decide

end MagiTrickle.Subscriptions
