import Mathlib.Tactic.GCongr
import Mathlib.Tactic.Ring
import MagiTrickle.Lib.Countdown
import MagiTrickle.Rules.WildcardSound

/-!
# The wildcard matcher ends

The loop comes back to two kinds of places, and a `?` before the last `*` may
send it to meet that `*` again. What goes down in every turn (`digits_lt`) is a
tuple: first the part of the pattern that can no longer be come back to grows,
then the `?` before the `*` is used up, the `*` is met again, the index in the
text that goes with the `*` moves on, and last the `?` after the `*` is used up
and the index in the pattern moves on. `wildcardFuel` is more turns than that.
-/

namespace MagiTrickle.Rules

open Lib.Countdown

variable {pattern s : Bytes} {st st' : WildcardState}

/-- Where the indices are: the saved `?` has been passed, unless the loop has come back to a `*`
before it. -/
structure Ahead (pattern s : Bytes) (st : WildcardState) : Prop where
  here : st.patternIndex ≤ pattern.length
  eroteme : ∀ e, st.eroteme = some e →
    e < st.patternIndex ∨ ∃ k, st.star = some k ∧ k < e ∧ k < st.patternIndex
  star : ∀ k, st.star = some k → st.sIndex < s.length → st.lastStar < s.length

theorem Ahead.turn (ha : Ahead pattern s st) (hs : Sound pattern s st) (hlt : st.sIndex < s.length)
    (ht : Turn pattern s st st') : Ahead pattern s st' := by
  have hp : ∀ {i c}, pattern[i]? = some c → i < pattern.length := fun h =>
    (List.getElem?_eq_some_iff.mp h).1
  cases ht with
  | letter p c e hpat hc htoken he =>
    refine ⟨hp hpat, fun e' he' => ?_, fun k hk hlt' => ha.star k hk hlt⟩
    have hold : st.eroteme = some e' := by
      rcases he with rfl | rfl
      · exact he'
      · cases he'
    refine (ha.eroteme e' hold).imp Nat.lt_succ_of_lt ?_
    rintro ⟨k, hk, hke, hkp⟩
    exact ⟨k, hk, hke, Nat.lt_succ_of_lt hkp⟩
  | eroteme c hpat hc =>
    refine ⟨hp hpat, fun e' he' => .inl ?_, fun k hk hlt' => ha.star k hk hlt⟩
    cases he'
    exact Nat.lt_succ_self _
  | star hpat =>
    refine ⟨hp hpat, fun e he => ?_, fun k hk hlt' => hlt⟩
    have hne : e ≠ st.patternIndex := by
      rintro rfl
      exact absurd (Option.some.inj ((hs.eroteme _ he).1.symm.trans hpat)) (by decide)
    rcases Nat.lt_or_gt_of_ne hne with h | h
    · exact .inl (Nat.lt_succ_of_lt h)
    · exact .inr ⟨_, rfl, h, Nat.lt_succ_self _⟩
  | back e he hpat hstuck =>
    exact ⟨hp (hs.eroteme e he).1, nofun, fun k hk hlt' => ha.star k hk hlt⟩
  | restart k hk hstuck he =>
    refine ⟨hp (hs.star k hk).1, fun e' he' => ?_, fun k hk hlt' => hlt'⟩
    rcases Nat.lt_or_ge k e' with h | h
    · exact .inr ⟨k, hk, h, Nat.lt_succ_self _⟩
    · exact .inl (Nat.lt_succ_of_le h)

/-! ## What goes down -/

/-- The part of the pattern before the index and the saved `?`. -/
def WildcardState.lower (st : WildcardState) : Nat :=
  st.eroteme.elim st.patternIndex fun e => min st.patternIndex (e + 1)

def WildcardState.lowest (st : WildcardState) : Nat :=
  min st.lower (st.star.elim st.patternIndex (· + 1))

/-- 1 if the saved `?` is before the saved `*`. -/
def WildcardState.early (st : WildcardState) : Nat :=
  st.eroteme.elim 0 fun e => st.star.elim 1 fun k => min 1 (k - e)

/-- 1 if the index has come back to the saved `*` or before it. -/
def WildcardState.behind (st : WildcardState) : Nat :=
  st.star.elim 0 fun k => min 1 (k + 1 - st.patternIndex)

def digits (pattern s : Bytes) (st : WildcardState) : List Nat :=
  [pattern.length - st.lowest, st.early, st.behind,
    st.star.elim (pattern.length + 1) (pattern.length - ·), s.length - st.lastStar,
    pattern.length - st.lower, st.eroteme.elim 0 fun _ => 1, pattern.length - st.patternIndex]

def places (pattern s : Bytes) : List Nat :=
  [pattern.length + 1, 2, 2, pattern.length + 2, s.length + 1, pattern.length + 1, 2,
    pattern.length + 1]

theorem digits_bounded (pattern s : Bytes) (st : WildcardState) :
    Bounded (digits pattern s st) (places pattern s) := by
  obtain ⟨pi, si, star, ls, ero, le, cl⟩ := st
  simp only [digits, places, Bounded, List.forall₂_cons, List.Forall₂.nil, and_true,
    WildcardState.early, WildcardState.behind]
  cases star <;> cases ero <;> simp only [Option.elim] <;> omega

theorem digits_lt (hs : Sound pattern s st) (ha : Ahead pattern s st) (hlt : st.sIndex < s.length)
    (ht : Turn pattern s st st') : digits pattern s st' < digits pattern s st := by
  have hp : ∀ {i c}, pattern[i]? = some c → i < pattern.length := fun h =>
    (List.getElem?_eq_some_iff.mp h).1
  obtain ⟨pi, si, star, ls, ero, le, cl⟩ := st
  obtain ⟨-, hstar, hero⟩ := hs
  obtain ⟨here, hae, has⟩ := ha
  dsimp only at *
  simp only [digits, WildcardState.lowest, WildcardState.lower, WildcardState.early,
    WildcardState.behind]
  cases ht with
  | letter p c e hpat hc htoken he =>
    have hpi : pi < pattern.length := hp hpat
    clear hstar hero hlt
    rcases star with _ | k <;> rcases ero with _ | e' <;> rcases he with rfl | rfl <;>
      simp only [advance, Option.elim, Option.some.injEq, forall_eq', reduceCtorEq, false_and,
        exists_false, or_false, exists_eq_left'] at *
    all_goals
      iterate 8 refine lt_of_head (by omega) fun _ => ?_
      omega
  | eroteme c hpat hc =>
    have hpi : pi < pattern.length := hp hpat
    clear hstar hero hlt
    rcases star with _ | k <;> rcases ero with _ | e' <;>
      simp only [advance, Option.elim, Option.some.injEq, forall_eq', reduceCtorEq, false_and,
        exists_false, or_false, exists_eq_left'] at *
    all_goals
      iterate 8 refine lt_of_head (by omega) fun _ => ?_
      omega
  | star hpat =>
    have hpi : pi < pattern.length := hp hpat
    have hne (e : Nat) (he : ero = some e) : e ≠ pi := by
      rintro rfl
      exact absurd (Option.some.inj ((hero _ he).1.symm.trans hpat)) (by decide)
    have hne' (e : Nat) (he : ero = some e) (k : Nat) (hk : star = some k) : e ≠ k := by
      rintro rfl
      exact absurd (Option.some.inj ((hero _ he).1.symm.trans (hstar _ hk).1)) (by decide)
    have hk (k : Nat) (hk : star = some k) : k < pattern.length := hp (hstar k hk).1
    clear hstar hero hlt
    rcases star with _ | k <;> rcases ero with _ | e' <;>
      simp only [Option.elim, Option.some.injEq, forall_eq', reduceCtorEq, false_and,
        exists_false, or_false, exists_eq_left'] at *
    all_goals
      iterate 8 refine lt_of_head (by omega) fun _ => ?_
      omega
  | back e he hpat hstuck =>
    have hpe : e < pattern.length := hp (hero e he).1
    clear hstar hero hlt
    subst he
    rcases star with _ | k <;> simp only [Option.elim, Option.some.injEq, forall_eq',
      reduceCtorEq, false_and, exists_false, or_false, exists_eq_left'] at *
    all_goals
      iterate 8 refine lt_of_head (by omega) fun _ => ?_
      omega
  | restart k hk hstuck he =>
    subst hk
    have hpk : k < pattern.length := hp (hstar k rfl).1
    clear hstar hero
    rcases ero with _ | e' <;> simp only [restartStar, Option.elim, Option.some.injEq, forall_eq',
      reduceCtorEq, or_false, exists_eq_left'] at *
    all_goals
      -- the place in the text moves on, everything before it is as it was or less
      have hdown : s.length - (ls + 1) < s.length - ls := by
        have := has hlt
        omega
      refine lt_of_head (by omega) fun _ => lt_of_head le_rfl fun _ =>
        lt_of_head (by simp) fun _ => lt_of_head le_rfl fun _ => lt_of_head hdown.le fun h => ?_
      exact absurd h hdown.ne

/-! ## Enough turns -/

theorem wildcardLoop_ends {fuel : Nat} (hs : Sound pattern s st) (ha : Ahead pattern s st)
    (hfuel : mixed (places pattern s) (digits pattern s st) < fuel) :
    ∃ b, wildcardLoop pattern s fuel st = some b := by
  induction fuel generalizing st with
  | zero => exact absurd hfuel (Nat.not_lt_zero _)
  | succ fuel ih =>
    unfold wildcardLoop
    rcases wildcardStep_cases pattern s st with ⟨-, hstep⟩ | ⟨hlt, st', hstep, ht⟩ |
      ⟨-, -, -, hstep⟩
    · exact ⟨_, by rw [hstep]⟩
    · have hdown : mixed (places pattern s) (digits pattern s st') <
          mixed (places pattern s) (digits pattern s st) :=
        mixed_lt (digits_bounded pattern s st') (digits_bounded pattern s st)
          (digits_lt hs ha hlt ht)
      rw [hstep]
      exact ih (hs.turn ht) (ha.turn hs hlt ht) (by omega)
    · exact ⟨_, by rw [hstep]⟩

theorem prod_places_le (pattern s : Bytes) :
    (places pattern s).prod ≤ wildcardFuel pattern s := by
  unfold places wildcardFuel
  generalize pattern.length = p
  generalize s.length = n
  calc [p + 1, 2, 2, p + 2, n + 1, p + 1, 2, p + 1].prod
      = 2 ^ 3 * ((p + 1) ^ 3 * (p + 2) * (n + 1)) := by
        simp only [List.prod_cons, List.prod_nil]
        ring
    _ ≤ (n + 2) ^ 3 * ((p + 2) ^ 3 * (p + 2) * (n + 2)) := by
        gcongr <;> omega
    _ = ((p + 2) * (n + 2)) ^ 4 := by ring
    _ ≤ ((p + 2) * (n + 2)) ^ 6 := Nat.pow_le_pow_right (Nat.mul_pos (by omega) (by omega)) (by decide)

theorem wildcardLoop_fuel (pattern s : Bytes) :
    ∃ b, wildcardLoop pattern s (wildcardFuel pattern s) ⟨0, 0, none, 0, none, 0, 0⟩ = some b :=
  wildcardLoop_ends (sound_start pattern s) ⟨Nat.zero_le _, nofun, nofun⟩
    (Nat.lt_of_lt_of_le (mixed_lt_prod (digits_bounded pattern s _)) (prod_places_le pattern s))

theorem wildcardLoop_mono {fuel fuel' : Nat} {b : Bool}
    (h : wildcardLoop pattern s fuel st = some b) (hle : fuel ≤ fuel') :
    wildcardLoop pattern s fuel' st = some b := by
  induction fuel generalizing fuel' st with
  | zero => cases h
  | succ fuel ih =>
    obtain ⟨fuel', rfl⟩ : ∃ k, fuel' = k + 1 := ⟨fuel' - 1, by omega⟩
    unfold wildcardLoop at h ⊢
    cases hstep : wildcardStep pattern s st with
    | ret b' =>
      rw [hstep] at h
      exact h
    | again st' =>
      rw [hstep] at h
      exact ih h (by omega)

theorem wildcardLoop_of_run {fuel : Nat} {run : Nat → WildcardState} {k : Nat}
    (h : ∀ n < fuel, wildcardStep pattern s (run (k + n)) = .again (run (k + n + 1))) :
    wildcardLoop pattern s fuel (run k) = none := by
  induction fuel generalizing k with
  | zero => rfl
  | succ fuel ih =>
    have hfirst := h 0 (by omega)
    rw [Nat.add_zero] at hfirst
    unfold wildcardLoop
    rw [hfirst]
    refine ih fun n hn => ?_
    have hnext := h (n + 1) (by omega)
    rw [show k + (n + 1) = k + 1 + n by omega] at hnext
    exact hnext

/-- The loop returns, and no run of it goes on for `wildcardFuel` turns. -/
theorem wildcardLoop_terminates (pattern s : Bytes) :
    (∃ b, ∀ fuel, wildcardFuel pattern s ≤ fuel →
      wildcardLoop pattern s fuel ⟨0, 0, none, 0, none, 0, 0⟩ = some b) ∧
    ∀ run : Nat → WildcardState, run 0 = ⟨0, 0, none, 0, none, 0, 0⟩ →
      ∃ n < wildcardFuel pattern s, wildcardStep pattern s (run n) ≠ .again (run (n + 1)) := by
  obtain ⟨b, hb⟩ := wildcardLoop_fuel pattern s
  refine ⟨⟨b, fun fuel hfuel => wildcardLoop_mono hb hfuel⟩, fun run hstart => ?_⟩
  by_contra hall
  push Not at hall
  have hnone : wildcardLoop pattern s (wildcardFuel pattern s) (run 0) = none :=
    wildcardLoop_of_run fun n hn => by
      rw [Nat.zero_add]
      exact hall n hn
  rw [hstart, hb] at hnone
  cases hnone

end MagiTrickle.Rules
