import MagiTrickle.Config.DurationRoundTrip
import MagiTrickle.Yaml.Numbers
import MagiTrickle.Yaml.Save

/-!
# What is written is read

One lemma for each kind of field: a node that may be read where the writer wrote
a value gives that value. The library may put quotes around a string or a
duration, but not around a number or a truth value.
-/

namespace MagiTrickle.Yaml

open Lib.Yaml
open Config (durationParse durationFormat formatUnsigned formatUnsigned_spells)

/-! ## Scalars -/

theorem reads_scalar {style : Style} {v : Bytes} {n : Node} (h : (Node.scalar style v).Reads n) :
    ∃ style', n = .scalar style' v ∧ StyleReads v style style' := by
  cases h with
  | scalar h => exact ⟨_, rfl, h⟩

theorem reads_string {v : Bytes} {n : Node} (h : (stringNode v).Reads n) :
    ∃ style, n = .scalar style v ∧ (style = .plain → resolvePlain v = .str) := by
  obtain ⟨style, rfl, hstyle⟩ := reads_scalar h
  refine ⟨style, rfl, ?_⟩
  rintro rfl
  unfold stringStyle at hstyle
  split at hstyle
  · exact absurd rfl hstyle
  · split at hstyle
    · exact absurd rfl hstyle
    · next hquote =>
      have hno : (decide (resolvePlain v ≠ .str) || isBase60Float v) = false := by
        simpa [needsQuote] using hquote
      simpa using (Bool.or_eq_false_iff.mp hno).1

theorem reads_simple {v : Bytes} {n : Node} (h : (plainNode v).Reads n) (hv : Simple v) :
    n = .scalar .plain v := by
  obtain ⟨style, rfl, hstyle⟩ := reads_scalar h
  rw [hstyle hv]

theorem simple_digits (n : Nat) : Simple (Libc.digits n) := by
  refine ⟨Libc.digits_ne_nil n, fun c hc => ?_⟩
  have hdigit : 48 ≤ c ∧ c ≤ 57 := by simpa [Libc.isDigit] using Libc.isDigit_digits n c hc
  exact decide_eq_true (.inl hdigit)

theorem present_of_not_null {n : Node} (h : nodeIsNull n = false) : present (some n) = some n := by
  simp [present, Option.filter, h]

/-! ## Getters -/

theorem getString_reads {v : Bytes} {n : Node} (h : (stringNode v).Reads n) (dst : Bytes) :
    getString (some n) dst = .ok v := by
  obtain ⟨style, rfl, hplain⟩ := reads_string h
  have hnull : nodeIsNull (.scalar style v) = false := by
    cases style with
    | plain => simp [nodeIsNull, hplain rfl]
    | _ => rfl
  rw [getString, present_of_not_null hnull]

theorem getId_reads {id : Id} {n : Node} (h : (idNode id).Reads n) : getId (some n) = .ok id := by
  obtain ⟨style, rfl, hplain⟩ := reads_string h
  have hnull : nodeIsNull (.scalar style id.format) = false := by
    cases style with
    | plain => simp [nodeIsNull, hplain rfl]
    | _ => rfl
  rw [getId, present_of_not_null hnull]
  dsimp only
  rw [Id.parse_format]

theorem getBool_reads {v : Bool} {n : Node} (h : (boolNode v).Reads n) (dst : Bool) :
    getBool (some n) dst = .ok v := by
  have hresolve : ∀ v : Bool, Simple (if v then str "true" else str "false") ∧
      resolvePlain (if v then str "true" else str "false") = .bool v := by
    intro v
    cases v <;> exact ⟨⟨by decide, by decide +kernel⟩, by decide +kernel⟩
  obtain ⟨hsimple, hbool⟩ := hresolve v
  rw [reads_simple h hsimple]
  have hnull : nodeIsNull (.scalar .plain (if v then str "true" else str "false")) = false := by
    simp [nodeIsNull, hbool]
  rw [getBool, present_of_not_null hnull]
  dsimp only
  rw [hbool]

theorem getUint64_reads {v max : Nat} {n : Node} (h : (u64Node v).Reads n) (hv : v ≤ max)
    (hmax : max < 2 ^ 64) : getUint64 (some n) max = .ok (some v) := by
  have hresolve : resolvePlain (Libc.digits v) = .int v := resolve_digits (by omega)
  rw [reads_simple h (simple_digits v)]
  have hnull : nodeIsNull (.scalar .plain (Libc.digits v)) = false := by
    simp [nodeIsNull, hresolve]
  rw [getUint64, present_of_not_null hnull]
  dsimp only
  rw [hresolve, uintOf, if_neg (by omega)]
  exact if_neg (by omega)

theorem durationText_eq {d : Int} (hd : d ≠ 0) (hshort : (formatUnsigned d.natAbs).length < 31) :
    durationText d = (if d < 0 then [45] else []) ++ formatUnsigned d.natAbs := by
  have hu : (if d < 0 then (-(d + 1)).toNat + 1 else d.toNat) = d.natAbs := by split_ifs <;> omega
  unfold durationText durationFormat
  dsimp only
  rw [hu, if_neg (by omega)]
  by_cases hneg : d < 0
  · rw [if_pos hneg, if_pos hneg, if_pos (by simp only [List.length_cons]; omega)]
    rfl
  · rw [if_neg hneg, if_neg hneg, if_pos (by omega)]
    rfl

/-- The text of a duration in the buffer of the writer. -/
theorem durationText_spec {d : Int} (hlo : -2 ^ 63 ≤ d) (hhi : d < 2 ^ 63) :
    durationParse (durationText d) = .ok d ∧ (durationText d).length < 128 := by
  by_cases hzero : d = 0
  · subst hzero
    exact ⟨by decide +kernel, by decide⟩
  obtain ⟨ps, hps⟩ := @formatUnsigned_spells d.natAbs (by omega)
  have hshort := hps.short
  rw [durationText_eq hzero hshort]
  rcases lt_or_ge d 0 with hneg | hpos
  · rw [if_pos hneg]
    refine ⟨?_, by simp only [List.length_append, List.length_singleton]; omega⟩
    refine (hps.parse (.inr (.inr rfl)) (by show d.natAbs ≤ 2 ^ 63; omega)).trans ?_
    refine congrArg Except.ok ?_
    show -(d.natAbs : Int) = d
    omega
  · rw [if_neg (by omega)]
    refine ⟨?_, by simp only [List.nil_append]; omega⟩
    refine (hps.parse (.inl rfl) (by show d.natAbs ≤ 2 ^ 63 - 1; omega)).trans ?_
    refine congrArg Except.ok ?_
    show (d.natAbs : Int) = d
    omega

theorem getDuration_reads {d : Int} {n : Node} (h : (durationNode d).Reads n) (hlo : -2 ^ 63 ≤ d)
    (hhi : d < 2 ^ 63) : getDuration (some n) = .ok (some d) := by
  obtain ⟨hparse, hlen⟩ := durationText_spec hlo hhi
  obtain ⟨style, rfl, -⟩ := reads_scalar h
  have hresolve := resolve_duration hparse hlen
  have hnull : nodeIsNull (.scalar style (durationText d)) = false := by
    cases style with
    | plain => rcases hresolve with hr | ⟨hr, -⟩ <;> simp [nodeIsNull, hr]
    | _ => rfl
  rw [getDuration, present_of_not_null hnull]
  dsimp only
  by_cases hstyle : style = .plain
  · rw [if_pos hstyle]
    rcases hresolve with hr | ⟨hr, rfl⟩
    · rw [hr]
      dsimp only
      rw [hparse]
    · rw [hr]
      rfl
  · rw [if_neg hstyle]
    dsimp only
    rw [hparse]

end MagiTrickle.Yaml
