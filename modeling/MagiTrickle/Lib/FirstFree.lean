import Mathlib.Tactic.Common

/-!
# The first free number

A search goes up from a number to a limit and stops at the first number that is
free. It gives the limit back when there is none before it, and a start beyond
the limit as it is, so that the result is free just where some number that it
could give is (`firstFree_iff`).
-/

namespace MagiTrickle.Lib.FirstFree

/-- The search, with what is left to the limit. -/
def search (used : Nat → Bool) : Nat → Nat → Nat
  | 0, n => n
  | left + 1, n => if used n then search used left (n + 1) else n

def firstFree (used : Nat → Bool) (limit start : Nat) : Nat := search used (limit - start) start

variable {used : Nat → Bool}

theorem search_spec (left n : Nat) : n ≤ search used left n ∧ search used left n ≤ n + left ∧
    (search used left n < n + left → used (search used left n) = false) ∧
    ∀ m, n ≤ m → m < search used left n → used m = true := by
  induction left generalizing n with
  | zero => exact ⟨Nat.le_refl _, Nat.le_refl _, fun h => absurd h (Nat.lt_irrefl _), fun m h h' =>
      absurd (Nat.lt_of_le_of_lt h h') (Nat.lt_irrefl _)⟩
  | succ left ih =>
    rw [search]
    split_ifs with hused
    · obtain ⟨hle, hle', hfree, hbefore⟩ := ih (n + 1)
      refine ⟨by omega, by omega, fun h => hfree (by omega), fun m hm hlt => ?_⟩
      rcases Nat.eq_or_lt_of_le hm with rfl | hm
      · exact hused
      · exact hbefore m hm hlt
    · exact ⟨Nat.le_refl _, by omega, fun _ => Bool.eq_false_iff.mpr hused, fun m h h' =>
        absurd (Nat.lt_of_le_of_lt h h') (Nat.lt_irrefl _)⟩

variable {limit start : Nat}

theorem le_firstFree : start ≤ firstFree used limit start := (search_spec _ _).1

theorem firstFree_le : firstFree used limit start ≤ max start limit := by
  have := (@search_spec used (limit - start) start).2.1
  unfold firstFree
  omega

theorem used_firstFree (h : firstFree used limit start < limit) :
    used (firstFree used limit start) = false := by
  refine (search_spec _ _).2.2.1 ?_
  unfold firstFree at h
  omega

/-- What is found is free if anything is. -/
theorem firstFree_iff : used (firstFree used limit start) = false ↔
    ∃ n, start ≤ n ∧ n ≤ max start limit ∧ used n = false := by
  refine ⟨fun h => ⟨_, le_firstFree, firstFree_le, h⟩, ?_⟩
  rintro ⟨n, hstart, hle, hn⟩
  obtain ⟨-, hend, hfree, hbefore⟩ := @search_spec used (limit - start) start
  by_cases hlt : firstFree used limit start < start + (limit - start)
  · exact hfree hlt
  · -- nothing before the end is free, so that the free number is the end
    have hn' : n = firstFree used limit start := by
      have hge : firstFree used limit start ≤ n := by
        by_contra hcon
        have := hbefore n hstart (Nat.lt_of_not_le hcon)
        rw [hn] at this
        exact Bool.false_ne_true this
      unfold firstFree at *
      omega
    rwa [← hn']

end MagiTrickle.Lib.FirstFree
