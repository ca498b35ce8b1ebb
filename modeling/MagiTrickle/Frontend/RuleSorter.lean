import MagiTrickle.Frontend.Validators
import MagiTrickle.Lib.Ordered
import Mathlib.Data.List.Infix

/-!
# Sorting rules (`utils/rule-sorter.ts`)

`sortRules` compares two patterns by type, address or domain key. Numbers that a
comparison returns count by their sign only, so here it returns an `Ordering`.
`localeCompare` is a parameter. Valid patterns of the types that are compared as
domains are ASCII.
-/

namespace MagiTrickle.RuleSorter

open Frontend

inductive RuleType where
  | subnet
  | subnet6
  | wildcard
  | domain
  | «namespace»
  | regex
  deriving DecidableEq, Repr

/-- A rule; `id` tells two of them apart. -/
structure Rule where
  id : String
  name : List Char
  rule : List Char
  type : RuleType
  deriving DecidableEq, Repr

inductive SortField where
  | pattern
  | name
  deriving DecidableEq, Repr

inductive SortDirection where
  | asc
  | desc
  deriving DecidableEq, Repr

def RuleType.text : RuleType → List Char
  | subnet => "subnet".toList
  | subnet6 => "subnet6".toList
  | wildcard => "wildcard".toList
  | domain => "domain".toList
  | «namespace» => "namespace".toList
  | regex => "regex".toList

/-- `TYPE_PRIORITY`. -/
def RuleType.priority : RuleType → Nat
  | subnet => 10
  | subnet6 => 11
  | wildcard => 20
  | domain => 30
  | «namespace» => 31
  | regex => 40

/-- `domainLikeTypes`. -/
def RuleType.isDomainLike : RuleType → Bool
  | domain | wildcard | «namespace» => true
  | _ => false

/-! ## Validators -/

def isDomainChar (c : Char) : Bool :=
  ('a' ≤ c ∧ c ≤ 'z') ∨ ('A' ≤ c ∧ c ≤ 'Z') ∨ isDigit c ∨ c = '-' ∨ c = '.'

/-- `isValidDomain`. -/
def isValidDomain (pattern : List Char) : Bool :=
  pattern ≠ [] ∧ pattern.all isDomainChar ∧ pattern.head? ≠ some '.' ∧
    pattern.getLast? ≠ some '.' ∧ ¬['.', '.'] <:+: pattern

/-- `isValidWildcard`. -/
def isValidWildcard (pattern : List Char) : Bool :=
  pattern ≠ [] ∧ pattern.all (fun c => isDomainChar c ∨ c = '*' ∨ c = '?') ∧
    pattern.head? ≠ some '.' ∧ pattern.getLast? ≠ some '.' ∧ ¬['.', '.'] <:+: pattern ∧
    ¬['*', '*'] <:+: pattern

/-- `VALIDATOP_MAP`; `isValidRegex` asks the engine. -/
def isValid (isValidRegex : List Char → Bool) (r : Rule) : Bool :=
  match r.type with
  | .regex => isValidRegex r.rule
  | .wildcard => isValidWildcard r.rule
  | .domain | .namespace => isValidDomain r.rule
  | .subnet => isValidSubnet r.rule
  | .subnet6 => isValidSubnet6 r.rule

/-! ## Addresses -/

/-- `String.prototype.trim`. -/
def trim (s : List Char) : List Char := (s.dropWhile isSpace).rdropWhile isSpace

/-- `parseInt(s, 10)`; none is NaN. -/
def parseInt (s : List Char) : Option Int :=
  let (neg, s) := match s.dropWhile isSpace with
    | '-' :: t => (true, t)
    | '+' :: t => (false, t)
    | t => (false, t)
  let ds := s.takeWhile isDigit
  if ds = [] then none
  else some (if neg then -(runValue 10 ds : Int) else runValue 10 ds)

/-- `v << 8`, on 32 bits with a sign; NaN counts as 0. -/
def shiftOctet (v : Option Int) : Int := Int.bmod (Int.bmod (v.getD 0) (2 ^ 32) * 2 ^ 8) (2 ^ 32)

/-- `ipToNum`; the last shift takes the sign away. -/
def ipToNum (ip : List Char) : Nat :=
  let num := (ip.splitOn '.').foldl
    (fun acc octet => (parseInt octet).map (shiftOctet acc + ·)) (some 0)
  (num.getD 0 % 2 ^ 32).toNat

structure Cidr where
  ip : Nat
  mask : Option Int

/-- `parseCidr`. -/
def parseCidr (value : List Char) : Cidr :=
  let parts := value.splitOn '/'
  let ipStr := trim (parts.headD [])
  let maskStr := parts.tail.headD []
  if ipStr = [] then ⟨0, some 0⟩
  else ⟨ipToNum ipStr, if maskStr ≠ [] then parseInt maskStr else some 32⟩

/-- The comparison of subnets; a difference that is NaN counts as 0. -/
def compareCidr (a b : Cidr) : Ordering :=
  if a.ip ≠ b.ip then compare a.ip b.ip
  else match a.mask, b.mask with
    | some maskA, some maskB => compare maskB maskA
    | _, _ => .eq

/-! ## Domains -/

structure DomainSortKey where
  base : List Char
  tld : List Char
  sub : List Char
  raw : List Char
  isWildcard : Bool
  deriving DecidableEq, Repr

/-- `SECOND_LEVEL_TLD_HINTS`. -/
def secondLevelTldHints : List (List Char) :=
  ["co", "com", "net", "org", "gov", "edu", "ac"].map String.toList

def isWild (c : Char) : Bool := c = '*' ∨ c = '?'

/-- `.replace(/^[*?]+\.?/, "")` -/
def stripWild (s : List Char) : List Char :=
  if s.head?.any isWild then
    match s.dropWhile isWild with
    | '.' :: t => t
    | t => t
  else s

/-- `parts.join(".")` -/
def joinDots (parts : List (List Char)) : List Char := ['.'].intercalate parts

/-- `buildDomainSortKey`. -/
def buildDomainSortKey (rule : List Char) : DomainSortKey :=
  let trimmed := trim rule
  let hasWildcard := trimmed.head?.any isWild
  let cleaned := ((stripWild trimmed).rdropWhile (· = '.')).map Char.toLower
  let parts := (cleaned.splitOn '.').filter (· ≠ [])
  if parts.length < 2 then
    { base := cleaned, tld := [], sub := [], raw := cleaned, isWildcard := hasWildcard }
  else
    let tldPartsCount :=
      if parts.length ≥ 3 ∧ parts.getD (parts.length - 2) [] ∈ secondLevelTldHints ∧
        (parts.getD (parts.length - 1) []).length = 2 then 2 else 1
    { base := parts.getD (parts.length - tldPartsCount - 1) []
      tld := joinDots (parts.drop (parts.length - tldPartsCount))
      sub := joinDots (parts.take (parts.length - tldPartsCount - 1))
      raw := cleaned
      isWildcard := hasWildcard }

section Compare

variable (localeCompare : List Char → List Char → Ordering)

def compareSub (a b : List Char) : Ordering :=
  (compare (a.splitOn '.').length (b.splitOn '.').length).then (localeCompare a b)

/-- The comparison of domain keys; what is left for equal ones is `rest`. -/
def compareKeys (keyA keyB : DomainSortKey) (rest : Ordering) : Ordering :=
  let baseCmp := localeCompare keyA.base keyB.base
  if baseCmp ≠ .eq then baseCmp
  else
    let tldCmp := localeCompare keyA.tld keyB.tld
    if tldCmp ≠ .eq then tldCmp
    else if keyA.sub ≠ keyB.sub then
      if keyA.sub = [] then .lt
      else if keyB.sub = [] then .gt
      else if keyA.isWildcard ≠ keyB.isWildcard then if keyA.isWildcard then .lt else .gt
      else compareSub localeCompare keyA.sub keyB.sub
    else if keyA.isWildcard ≠ keyB.isWildcard then if keyA.isWildcard then .gt else .lt
    else
      let rawCmp := localeCompare keyA.raw keyB.raw
      if rawCmp ≠ .eq then rawCmp else rest

/-- The comparison of `sortRules` for the field `pattern`. -/
def comparePatterns (a b : Rule) : Ordering :=
  if ¬(a.type.isDomainLike ∧ b.type.isDomainLike) ∧ a.type.priority ≠ b.type.priority then
    compare a.type.priority b.type.priority
  else if a.type = .subnet then compareCidr (parseCidr a.rule) (parseCidr b.rule)
  else if a.type.isDomainLike ∧ b.type.isDomainLike then
    compareKeys localeCompare (buildDomainSortKey a.rule) (buildDomainSortKey b.rule)
      (localeCompare a.type.text b.type.text)
  else localeCompare a.rule b.rule

/-- `sortRules`. -/
def sortRules (rules : List Rule) (field : SortField) (direction : SortDirection) : List Rule :=
  let sorted := match field with
    | .name => Lib.Ordered.sort (fun a b => localeCompare a.name b.name) rules
    | .pattern => Lib.Ordered.sort (comparePatterns localeCompare) rules
  if direction = .desc then sorted.reverse else sorted

end Compare

/-! ## What sorting should do -/

section Spec

variable (localeCompare : List Char → List Char → Ordering)

structure Consistent (rules : List Rule) : Prop where
  antisymm : ∀ a ∈ rules, ∀ b ∈ rules,
    comparePatterns localeCompare a b = (comparePatterns localeCompare b a).swap
  trans : ∀ a ∈ rules, ∀ b ∈ rules, ∀ c ∈ rules, comparePatterns localeCompare a b = .lt →
    comparePatterns localeCompare b c = .lt → comparePatterns localeCompare a c = .lt

/-- The result has all rules, in order, and apart from rules that compare equal it is the same for
every arrangement of them. -/
structure SortsWell (rules : List Rule) : Prop where
  perm : (sortRules localeCompare rules .pattern .asc).Perm rules
  sorted : (sortRules localeCompare rules .pattern .asc).Pairwise fun a b =>
    comparePatterns localeCompare b a ≠ .lt
  canonical : ∀ rules', rules'.Perm rules →
    List.Forall₂ (fun a b => comparePatterns localeCompare a b = .eq)
      (sortRules localeCompare rules .pattern .asc) (sortRules localeCompare rules' .pattern .asc)

/-- Two rules for one subdomain, without and with a wildcard, and between them one for another
subdomain of the same domain, which has a wildcard and a later subdomain or no wildcard and an
earlier one. -/
def Tangle (p q r : Rule) : Prop :=
  let keyP := buildDomainSortKey p.rule
  let keyQ := buildDomainSortKey q.rule
  let keyR := buildDomainSortKey r.rule
  (p.type.isDomainLike ∧ q.type.isDomainLike ∧ r.type.isDomainLike) ∧
    (keyP.base = keyQ.base ∧ keyP.tld = keyQ.tld ∧ keyP.sub = keyQ.sub) ∧
    (keyP.base = keyR.base ∧ keyP.tld = keyR.tld) ∧ keyP.sub ≠ [] ∧ keyR.sub ≠ [] ∧
    keyP.isWildcard = false ∧ keyQ.isWildcard = true ∧
    if keyR.isWildcard then compareSub localeCompare keyP.sub keyR.sub = .lt
    else compareSub localeCompare keyR.sub keyP.sub = .lt

/-- There is a tangle among the rules. -/
def Tangled (rules : List Rule) : Prop :=
  ∃ p ∈ rules, ∃ q ∈ rules, ∃ r ∈ rules, Tangle localeCompare p q r

end Spec

end MagiTrickle.RuleSorter
