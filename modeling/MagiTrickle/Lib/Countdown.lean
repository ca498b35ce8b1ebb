import Mathlib.Algebra.Group.Nat.Defs
import Mathlib.Data.List.Basic

/-!
# Counting down in several places

A loop ends if a tuple of counters goes down lexicographically in every turn.
Read as the digits of a number whose places have bounds of their own, the tuple
is a number of turns that is enough (`mixed_lt`, `mixed_lt_prod`).
-/

namespace MagiTrickle.Lib.Countdown

/-- The number with these digits; `rs` bounds them. -/
def mixed : List Nat → List Nat → Nat
  | _ :: rs, d :: ds => d * rs.prod + mixed rs ds
  | _, _ => 0

abbrev Bounded (ds rs : List Nat) : Prop := List.Forall₂ (· < ·) ds rs

theorem mixed_cons (r : Nat) (rs : List Nat) (d : Nat) (ds : List Nat) :
    mixed (r :: rs) (d :: ds) = d * rs.prod + mixed rs ds := rfl

theorem mixed_lt_prod {rs ds : List Nat} (h : Bounded ds rs) : mixed rs ds < rs.prod := by
  induction h with
  | nil => exact Nat.one_pos
  | @cons d r ds rs hd _ ih =>
    rw [mixed_cons, List.prod_cons]
    calc d * rs.prod + mixed rs ds < d * rs.prod + rs.prod := Nat.add_lt_add_left ih _
      _ = (d + 1) * rs.prod := (Nat.succ_mul d rs.prod).symm
      _ ≤ r * rs.prod := Nat.mul_le_mul_right _ hd

theorem mixed_lt {rs ds ds' : List Nat} (h : Bounded ds rs) (h' : Bounded ds' rs) (hlt : ds < ds') :
    mixed rs ds < mixed rs ds' := by
  induction h generalizing ds' with
  | nil =>
    cases h'
    exact absurd hlt (List.lt_irrefl [])
  | @cons d r ds rs hd hds ih =>
    cases h' with
    | @cons d' _ ds' _ hd' hds' =>
      rw [mixed_cons, mixed_cons]
      rcases List.cons_lt_cons_iff.mp hlt with hdd | ⟨rfl, hrest⟩
      · calc d * rs.prod + mixed rs ds < d * rs.prod + rs.prod :=
              Nat.add_lt_add_left (mixed_lt_prod hds) _
          _ = (d + 1) * rs.prod := (Nat.succ_mul d rs.prod).symm
          _ ≤ d' * rs.prod := Nat.mul_le_mul_right _ hdd
          _ ≤ d' * rs.prod + mixed rs ds' := Nat.le_add_right _ _
      · exact Nat.add_lt_add_left (ih hds' hrest) _

/-- To go down lexicographically: the first place does not go up, and where it stays, the others go
down. -/
theorem lt_of_head {d d' : Nat} {ds ds' : List Nat} (hle : d ≤ d') (h : d = d' → ds < ds') :
    d :: ds < d' :: ds' := by
  rcases Nat.lt_or_eq_of_le hle with hlt | rfl
  · exact List.cons_lt_cons_iff.mpr (.inl hlt)
  · exact List.cons_lt_cons_iff.mpr (.inr ⟨rfl, h rfl⟩)

end MagiTrickle.Lib.Countdown
