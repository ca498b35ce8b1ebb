import Mathlib.Algebra.Group.Int.Defs
import Mathlib.Algebra.Group.Nat.Defs
import Mathlib.Data.List.Basic

/-!
# Byte strings, error codes, identifiers

C strings are the bytes before their terminator (`Bytes`). `Err` is `mt_err_t`
without `MT_OK`: a function that returns `mt_err_t` and a value is an
`Except Err`. `Id` is the four-byte identifier of groups, rules and
subscriptions.
-/

namespace MagiTrickle

abbrev Bytes := List UInt8

instance : LawfulBEq Bytes := inferInstanceAs (LawfulBEq (List UInt8))

def str (s : String) : Bytes := s.toList.map fun c => UInt8.ofNat c.toNat

/-- The byte `'.'`. -/
abbrev dot : UInt8 := 46

/-- `fnv1a`, which `rules/match.c` and `dns_cache/cache.c` both have. -/
def fnv1a (s : Bytes) : UInt64 :=
  s.foldl (fun h b => (h ^^^ b.toUInt64) * 1099511628211) 1469598103934665603

/-- The error values of `mt_err_t`. -/
inductive Err where
  | nomem | inval | io | again | limit | timeout | closed | exist | noent | proto | state | sys
  | upstream | canceled
  deriving DecidableEq, Repr

theorem exists_of_bind_ok {α β : Type} {x : Except Err α} {f : α → Except Err β} {b : β}
    (h : (x >>= f) = .ok b) : ∃ a, x = .ok a ∧ f a = .ok b := by
  cases x with
  | error e => cases h
  | ok a => exact ⟨a, rfl, h⟩

/-- `mt_id_t`: four bytes. -/
structure Id where
  b0 : UInt8
  b1 : UInt8
  b2 : UInt8
  b3 : UInt8
  deriving DecidableEq, Repr

end MagiTrickle
