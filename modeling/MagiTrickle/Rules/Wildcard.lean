import MagiTrickle.Core.Basic

/-!
# The wildcard matcher (`rules/wildcard.c`)

One turn of the `for (;;)` loop of `mt_wildcard_match` is `wildcardStep`; the
loop is `wildcardLoop`, run for at most `wildcardFuel` turns. The pattern byte
`.` stands for any byte, `*` for any run, and `?` is the library's eroteme with
its own restart point.
-/

namespace MagiTrickle.Rules

/-- The loop variables. `star` and `eroteme` are `none` while the `has_` flag is false. -/
structure WildcardState where
  patternIndex : Nat
  sIndex : Nat
  star : Option Nat
  lastStar : Nat
  eroteme : Option Nat
  lastEroteme : Nat
  lastErotemeCluster : UInt8
  deriving DecidableEq, Repr

/-- What a turn of the loop does. -/
inductive WildcardTurn where
  | ret (b : Bool)
  | again (st : WildcardState)
  deriving DecidableEq, Repr

/-- `check_pattern`: only `*` and `?` may be left. -/
def checkPattern : Bytes → Bool
  | [] => true
  | c :: cs => if c = 42 ∨ c = 63 then checkPattern cs else false

/-- Resume after the last `*`, one byte further on. -/
def restartStar (st : WildcardState) (k : Nat) : WildcardState :=
  { st with patternIndex := k + 1, lastStar := st.lastStar + 1, sIndex := st.lastStar + 1 }

def advance (st : WildcardState) : WildcardState :=
  { st with patternIndex := st.patternIndex + 1, sIndex := st.sIndex + 1 }

def wildcardStep (pattern s : Bytes) (st : WildcardState) : WildcardTurn :=
  if s.length ≤ st.sIndex then .ret (checkPattern (pattern.drop st.patternIndex))
  else if pattern.length ≤ st.patternIndex then
    match st.star with
    | some k => .again (restartStar st k)
    | none => .ret false
  else
    let p := pattern.getD st.patternIndex 0
    let c := s.getD st.sIndex 0
    if p = 46 then .again (advance st)
    else if p = 63 then
      .again (advance { st with
        eroteme := some st.patternIndex, lastEroteme := st.sIndex, lastErotemeCluster := c })
    else if p = 42 then
      .again { st with
        star := some st.patternIndex, lastStar := st.sIndex, patternIndex := st.patternIndex + 1 }
    else if p ≠ c then
      match st.eroteme, st.star with
      | some e, _ =>
        .again { st with patternIndex := e + 1, sIndex := st.lastEroteme, eroteme := none }
      | none, some k => .again (restartStar st k)
      | none, none => .ret false
    else if st.eroteme.isSome ∧ st.lastErotemeCluster ≠ c then
      .again (advance { st with eroteme := none })
    else .again (advance st)

/-- The loop, for at most `fuel` turns. -/
def wildcardLoop (pattern s : Bytes) : Nat → WildcardState → Option Bool
  | 0, _ => none
  | fuel + 1, st =>
    match wildcardStep pattern s st with
    | .ret b => some b
    | .again st' => wildcardLoop pattern s fuel st'

/-- More turns than the loop has states. -/
def wildcardFuel (pattern s : Bytes) : Nat := ((pattern.length + 2) * (s.length + 2)) ^ 6

/-- `mt_wildcard_match`. -/
def wildcardMatch (pattern s : Bytes) : Bool :=
  if pattern.length = 0 then s.length = 0
  else if pattern = str "*" ∨ pattern = s then true
  else (wildcardLoop pattern s (wildcardFuel pattern s) ⟨0, 0, none, 0, none, 0, 0⟩).getD false

end MagiTrickle.Rules
