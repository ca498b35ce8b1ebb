import MagiTrickle.Config.DurationText

/-!
# What a duration is worth

The parser adds the parts up in an unsigned word and stops when the sum is more
than `2 ^ 63`. A sum of exactly `2 ^ 63` and a part worth `2 ^ 63` is `2 ^ 64`: it
wraps around to nothing and passes. That is the one way to get a number that is
not the sum of the parts (`durationParse_exact_iff`).
-/

namespace MagiTrickle.Config

open Libc (isDigit digitVal decimal)
open Lib.Rounding (Double)

def signed : Bool → Nat → Int
  | true, d => -d
  | false, d => d

def largest : Bool → Nat
  | true => 2 ^ 63
  | false => 2 ^ 63 - 1

namespace Text

def values (t : Text) : List Nat := t.parts.map Part.value

def total (t : Text) : Int := signed t.neg t.values.sum

end Text

/-- Values that go around: some add up to `2 ^ 63`, the next one is `2 ^ 63` again, and what comes
behind stays below the limit, or goes around once more. -/
inductive Laps (limit : Nat) : List Nat → Prop where
  | last {as rest : List Nat} : as.sum = 2 ^ 63 → rest.sum ≤ limit → Laps limit (as ++ 2 ^ 63 :: rest)
  | more {as rest : List Nat} : as.sum = 2 ^ 63 → Laps limit rest → Laps limit (as ++ 2 ^ 63 :: rest)

/-- The parser takes each part, and their values go around. -/
def Text.GoesAround (t : Text) : Prop := (∀ p ∈ t.parts, p.Fits) ∧ Laps (largest t.neg) t.values

/-- What is accepted is a row of parts and gives its signed sum; what has a sum outside the signed
64-bit range is rejected. -/
def Exact (s : Bytes) : Prop :=
  (∀ r, durationParse s = .ok r →
    (∃ t : Text, s = t.bytes) ∧ ∀ t : Text, s = t.bytes → r = t.total) ∧
  ∀ t : Text, s = t.bytes → t.total < -2 ^ 63 ∨ 2 ^ 63 ≤ t.total → durationParse s = .error .inval

/-! ## The running sum -/

def runningSum (d : Nat) : List Nat → Option Nat
  | [] => some d
  | v :: vs => if (d + v) % 2 ^ 64 ≤ 2 ^ 63 then runningSum ((d + v) % 2 ^ 64) vs else none

theorem tally_eq (d : Nat) (ps : List Part) :
    tally d ps = if ∀ p ∈ ps, p.Fits then
      match runningSum d (ps.map Part.value) with
      | some r => .ok r
      | none => .error .inval
    else .error .inval := by
  induction ps generalizing d with
  | nil =>
    rw [if_pos nofun]
    rfl
  | cons p ps ih =>
    rw [tally, List.map_cons, runningSum, ih]
    by_cases hp : p.Fits
    · by_cases hsum : (d + p.value) % 2 ^ 64 ≤ 2 ^ 63
      · rw [if_pos ⟨hp, hsum⟩, if_pos hsum]
        simp only [List.forall_mem_cons, hp, true_and]
      · rw [if_neg fun h => hsum h.2, if_neg hsum]
        exact (ite_self _).symm
    · rw [if_neg fun h => hp h.1, if_neg fun h => hp (h p List.mem_cons_self)]

theorem runningSum_of_le {d : Nat} {vs : List Nat} (h : d + vs.sum ≤ 2 ^ 63) :
    runningSum d vs = some (d + vs.sum) := by
  induction vs generalizing d with
  | nil => rfl
  | cons v vs ih =>
    rw [List.sum_cons, ← Nat.add_assoc] at h ⊢
    have hmod : (d + v) % 2 ^ 64 = d + v := Nat.mod_eq_of_lt (by omega)
    rw [runningSum, hmod, if_pos (by omega), ih h]

/-- At `2 ^ 63`, a value of `2 ^ 63` starts again from nothing. -/
theorem runningSum_lap {d : Nat} {as : List Nat} (h : d + as.sum = 2 ^ 63) (rest : List Nat) :
    runningSum d (as ++ 2 ^ 63 :: rest) = runningSum 0 rest := by
  induction as generalizing d with
  | nil =>
    obtain rfl : d = 2 ^ 63 := h
    rfl
  | cons a as ih =>
    rw [List.sum_cons, ← Nat.add_assoc] at h
    have hmod : (d + a) % 2 ^ 64 = d + a := Nat.mod_eq_of_lt (by omega)
    rw [List.cons_append, runningSum, hmod, if_pos (by omega), ih h]

/-- The running sum is the sum, or has gone around. -/
theorem runningSum_cases {d r : Nat} {vs : List Nat} (hd : d ≤ 2 ^ 63) (hvs : ∀ v ∈ vs, v ≤ 2 ^ 63)
    (h : runningSum d vs = some r) :
    r ≤ 2 ^ 63 ∧ (d + vs.sum = r ∨ ∃ as rest, vs = as ++ 2 ^ 63 :: rest ∧ d + as.sum = 2 ^ 63 ∧
      runningSum 0 rest = some r) := by
  induction vs generalizing d with
  | nil =>
    obtain rfl : d = r := Option.some.inj h
    exact ⟨hd, .inl rfl⟩
  | cons v vs ih =>
    obtain ⟨hv, hrest⟩ := List.forall_mem_cons.mp hvs
    rw [runningSum] at h
    split_ifs at h with hfit
    by_cases hsum : d + v ≤ 2 ^ 63
    · have hmod : (d + v) % 2 ^ 64 = d + v := Nat.mod_eq_of_lt (by omega)
      rw [hmod] at h
      obtain ⟨hr, hcases⟩ := ih hsum hrest h
      refine ⟨hr, hcases.imp (fun heq => ?_) ?_⟩
      · rw [List.sum_cons, ← Nat.add_assoc, heq]
      · rintro ⟨as, rest, rfl, has, hrest⟩
        exact ⟨v :: as, rest, rfl, by rw [List.sum_cons, ← Nat.add_assoc, has], hrest⟩
    · obtain ⟨rfl, rfl⟩ : d = 2 ^ 63 ∧ v = 2 ^ 63 := by
        omega
      obtain ⟨hr, -⟩ := ih (Nat.zero_le _) hrest h
      exact ⟨hr, .inr ⟨[], vs, rfl, rfl, h⟩⟩

theorem Laps.runningSum {limit : Nat} {vs : List Nat} (h : Laps limit vs) (hl : limit ≤ 2 ^ 63) :
    ∃ r ≤ limit, runningSum 0 vs = some r := by
  induction h with
  | @last as rest has hrest =>
    refine ⟨rest.sum, hrest, ?_⟩
    rw [runningSum_lap (by omega), runningSum_of_le (by omega), Nat.zero_add]
  | more has _ ih =>
    rw [runningSum_lap (by omega)]
    exact ih

theorem Laps.sum {limit : Nat} {vs : List Nat} (h : Laps limit vs) : 2 ^ 64 ≤ vs.sum := by
  cases h with
  | last has => rw [List.sum_append, List.sum_cons]; omega
  | more has => rw [List.sum_append, List.sum_cons]; omega

theorem laps_of_runningSum {limit r : Nat} {vs : List Nat} (hvs : ∀ v ∈ vs, v ≤ 2 ^ 63)
    (h : runningSum 0 vs = some r) (hr : r ≤ limit) : vs.sum = r ∨ Laps limit vs := by
  obtain ⟨-, hsum | ⟨as, rest, rfl, has, hrest⟩⟩ := runningSum_cases (Nat.zero_le _) hvs h
  · exact .inl ((Nat.zero_add _).symm.trans hsum)
  · have hvs' : ∀ v ∈ rest, v ≤ 2 ^ 63 := fun v hv =>
      hvs v (List.mem_append_right as (List.mem_cons_of_mem _ hv))
    have has' : as.sum = 2 ^ 63 := (Nat.zero_add _).symm.trans has
    have hlen : rest.length < (as ++ 2 ^ 63 :: rest).length := by
      rw [List.length_append, List.length_cons]
      omega
    rcases laps_of_runningSum hvs' hrest hr with hsum | hlaps
    · exact .inr (.last has' (hsum ▸ hr))
    · exact .inr (.more has' hlaps)
termination_by vs.length

/-! ## Signs -/

theorem toInt64_of_range {i : Int} (hlo : -2 ^ 63 ≤ i) (hhi : i < 2 ^ 63) : toInt64 i = i := by
  unfold toInt64
  rw [Int.bmod_eq_iff (by decide)]
  refine ⟨by omega, by omega, 0, by omega⟩

theorem largest_le (neg : Bool) : largest neg ≤ 2 ^ 63 := by
  cases neg <;> decide

theorem signed_range {neg : Bool} {d : Nat} :
    -2 ^ 63 ≤ signed neg d ∧ signed neg d < 2 ^ 63 ↔ d ≤ largest neg := by
  cases neg <;> simp only [signed, largest] <;> omega

theorem finish_eq {neg : Bool} {d : Nat} (hd : d ≤ 2 ^ 63) :
    finish neg d = if d ≤ largest neg then .ok (signed neg d) else .error .inval := by
  unfold finish
  cases neg with
  | true =>
    have hneg : toInt64 (-toInt64 d) = -d := by
      rcases Nat.lt_or_eq_of_le hd with hlt | rfl
      · rw [toInt64_of_range (i := d) (by omega) (by omega),
          toInt64_of_range (by omega) (by omega)]
      · decide
    rw [if_pos rfl, if_pos (show d ≤ largest true from hd), hneg]
    rfl
  | false =>
    rw [if_neg Bool.false_ne_true]
    by_cases hmax : d ≤ largest false
    · have hmax' : d ≤ 2 ^ 63 - 1 := hmax
      rw [if_neg (Nat.not_lt.mpr hmax'), if_pos hmax, toInt64_of_range (by omega) (by omega)]
      rfl
    · have hmax' : ¬ d ≤ 2 ^ 63 - 1 := hmax
      rw [if_pos (Nat.lt_of_not_le hmax'), if_neg hmax]

/-! ## The parser -/

theorem Text.value_le {t : Text} (h : ∀ p ∈ t.parts, p.Fits) : ∀ v ∈ t.values, v ≤ 2 ^ 63 := by
  intro v hv
  obtain ⟨p, hp, rfl⟩ := List.mem_map.mp hv
  exact (h p hp).2

/-- What the parser gives for a text: the running sum, if that ends and its sign has room for it. -/
theorem durationParse_ok_iff (t : Text) (r : Int) :
    durationParse t.bytes = .ok r ↔ (∀ p ∈ t.parts, p.Fits) ∧
      ∃ d ≤ largest t.neg, runningSum 0 t.values = some d ∧ r = signed t.neg d := by
  rw [durationParse_text, tally_eq]
  by_cases hfits : ∀ p ∈ t.parts, p.Fits
  · rw [if_pos hfits, show t.parts.map Part.value = t.values from rfl]
    cases hsum : runningSum 0 t.values with
    | none => exact iff_of_false nofun fun ⟨_, _, _, hd, _⟩ => nomatch hd
    | some d =>
      have hd := (runningSum_cases (Nat.zero_le _) (Text.value_le hfits) hsum).1
      dsimp only
      rw [finish_eq hd]
      by_cases hmax : d ≤ largest t.neg
      · rw [if_pos hmax]
        refine ⟨fun h => ⟨hfits, d, hmax, rfl, (Except.ok.inj h).symm⟩, ?_⟩
        rintro ⟨-, d', -, hd', rfl⟩
        rw [Option.some.inj hd']
      · rw [if_neg hmax]
        refine iff_of_false nofun ?_
        rintro ⟨-, d', hmax', hd', -⟩
        exact hmax (Option.some.inj hd' ▸ hmax')
  · rw [if_neg hfits]
    exact iff_of_false nofun fun h => hfits h.1

theorem durationParse_error {t : Text} {e : Err} (h : durationParse t.bytes = .error e) :
    e = .inval := by
  rw [durationParse_text, tally_eq] at h
  split_ifs at h with hfits
  · cases hsum : runningSum 0 (t.parts.map Part.value) with
    | none => rw [hsum] at h; exact (Except.error.inj h).symm
    | some d =>
      have hd := (runningSum_cases (Nat.zero_le _) (Text.value_le hfits) hsum).1
      rw [hsum] at h
      dsimp only at h
      rw [finish_eq hd] at h
      split_ifs at h
      exact (Except.error.inj h).symm
  · exact (Except.error.inj h).symm

/-- A text that goes around is accepted, with a sum that is out of range. -/
theorem Text.GoesAround.accepted {t : Text} (h : t.GoesAround) :
    (∃ r, durationParse t.bytes = .ok r) ∧ (t.total < -2 ^ 63 ∨ 2 ^ 63 ≤ t.total) := by
  obtain ⟨hfits, hlaps⟩ := h
  obtain ⟨d, hd, hsum⟩ := hlaps.runningSum (largest_le t.neg)
  refine ⟨⟨_, (durationParse_ok_iff t _).mpr ⟨hfits, d, hd, hsum, rfl⟩⟩, ?_⟩
  have hbig := hlaps.sum
  unfold Text.total
  cases t.neg <;> simp only [signed] <;> omega

/-- A text that does not go around, and is accepted, gives its sum. -/
theorem total_of_not_goesAround {t : Text} {r : Int} (h : ¬ t.GoesAround)
    (hok : durationParse t.bytes = .ok r) :
    r = t.total ∧ t.values.sum ≤ largest t.neg := by
  obtain ⟨hfits, d, hd, hsum, rfl⟩ := (durationParse_ok_iff t r).mp hok
  rcases laps_of_runningSum (Text.value_le hfits) hsum hd with heq | hlaps
  · exact ⟨by rw [Text.total, heq], by rw [heq]; exact hd⟩
  · exact absurd ⟨hfits, hlaps⟩ h

theorem exact_of_not_goesAround {s : Bytes} (h : ¬ ∃ t : Text, s = t.bytes ∧ t.GoesAround) :
    Exact s := by
  refine ⟨fun r hr => ⟨text_of_durationParse hr, ?_⟩, ?_⟩
  · rintro t rfl
    exact (total_of_not_goesAround (fun ht => h ⟨t, rfl, ht⟩) hr).1
  · rintro t rfl hout
    cases hparse : durationParse t.bytes with
    | error e => rw [durationParse_error hparse]
    | ok r =>
      have hle := (total_of_not_goesAround (fun ht => h ⟨t, rfl, ht⟩) hparse).2
      have hrange := signed_range.mpr hle
      unfold Text.total at hout
      omega

theorem not_exact_of_goesAround {t : Text} (h : t.GoesAround) : ¬ Exact t.bytes := by
  intro hexact
  obtain ⟨⟨r, hr⟩, hout⟩ := h.accepted
  rw [hexact.2 t rfl hout] at hr
  cases hr

/-- A text is read exactly unless its parts go around. -/
theorem durationParse_exact_iff (s : Bytes) :
    Exact s ↔ ¬ ∃ t : Text, s = t.bytes ∧ t.GoesAround := by
  refine ⟨?_, exact_of_not_goesAround⟩
  rintro hexact ⟨t, rfl, ht⟩
  exact not_exact_of_goesAround ht hexact

/-! ## Twice the largest part -/

/-- A microsecond below the range of the whole part, and the rest as a fraction. -/
def largePart : Part where
  whole := str "9223372036854775"
  frac := some (str "808")
  unit := (str "us", 1000)
  whole_digits := by decide +kernel
  frac_digits := by decide +kernel
  some_digit := by decide
  unit_mem := by decide

theorem largePart_value : largePart.value = 2 ^ 63 :=
  (@Part.value_exact largePart 1 (by decide) (by decide)).trans (by decide)

def largeText : Text := ⟨[], [largePart, largePart], .inl rfl⟩

theorem largeText_goesAround : largeText.GoesAround := by
  have hvalues : largeText.values = [2 ^ 63] ++ 2 ^ 63 :: [] := by
    show [largePart.value, largePart.value] = _
    rw [largePart_value]
    rfl
  refine ⟨fun p hp => ?_, hvalues ▸ .last rfl (Nat.zero_le _)⟩
  obtain rfl : p = largePart := by
    rcases List.mem_cons.mp hp with h | h
    · exact h
    · exact List.mem_singleton.mp h
  exact ⟨by decide, largePart_value.le⟩

/-- Two parts of `2 ^ 63` are accepted, as nothing. -/
theorem durationParse_wraps :
    ¬ Exact (str "9223372036854775.808us9223372036854775.808us") :=
  not_exact_of_goesAround largeText_goesAround

end MagiTrickle.Config
