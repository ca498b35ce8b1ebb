import MagiTrickle.Config.DurationScale

/-!
# The texts of durations

A text is a sign and a row of parts, each of digits, perhaps a dot and more
digits, and a unit (`Part`, `Text`). The loop takes one part in each turn
(`component_part`), so the parser is a running sum over the parts
(`durationParse_text`), and what it accepts is such a text
(`text_of_durationParse`).
-/

namespace MagiTrickle.Config

open Libc (isDigit digitVal decimal)
open Lib.Rounding (Double)

structure Part where
  whole : Bytes
  frac : Option Bytes
  unit : Bytes × Nat
  whole_digits : ∀ c ∈ whole, isDigit c = true
  frac_digits : ∀ c ∈ frac.getD [], isDigit c = true
  some_digit : whole ≠ [] ∨ frac.getD [] ≠ []
  unit_mem : unit ∈ units

namespace Part

def bytes (p : Part) : Bytes :=
  p.whole ++ ((p.frac.map (dot :: ·)).getD [] ++ p.unit.1)

def fraction (p : Part) : Fraction := (p.frac.getD []).foldl Fraction.digit .none

/-- What the part is worth: its number times the unit, and the scaled fraction without what is below
a nanosecond. -/
def value (p : Part) : Nat := decimal p.whole * p.unit.2 + scaled p.fraction p.unit.2

def Fits (p : Part) : Prop := decimal p.whole * p.unit.2 < 2 ^ 63 ∧ p.value ≤ 2 ^ 63

instance (p : Part) : Decidable p.Fits := inferInstanceAs (Decidable (_ ∧ _))

end Part

/-! ## Digits -/

theorem leadingInt_append {x : Nat} {ds rest : Bytes} (hds : ∀ c ∈ ds, isDigit c = true)
    (hrest : ∀ c ∈ rest.head?, isDigit c = false) (hx : x ≤ 2 ^ 63) :
    leadingInt x (ds ++ rest) =
      if decimalFrom x ds ≤ 2 ^ 63 then some (decimalFrom x ds, rest) else none := by
  induction ds generalizing x with
  | nil =>
    rw [show decimalFrom x [] = x from rfl, if_pos hx, List.nil_append]
    cases rest with
    | nil => rfl
    | cons c cs => rw [leadingInt, if_neg (by rw [hrest c rfl]; exact Bool.false_ne_true)]
  | cons c cs ih =>
    obtain ⟨hc, hcs⟩ := List.forall_mem_cons.mp hds
    have hle := le_decimalFrom (x * 10 + digitVal c) cs
    rw [List.cons_append, leadingInt, if_pos hc,
      show decimalFrom x (c :: cs) = decimalFrom (x * 10 + digitVal c) cs from rfl]
    by_cases hfit : x * 10 + digitVal c ≤ 2 ^ 63
    · rw [if_neg (by omega), if_neg (by omega), ih hcs hfit]
    · rw [if_neg (show ¬ decimalFrom (x * 10 + digitVal c) cs ≤ 2 ^ 63 by omega)]
      split_ifs <;> first | rfl | omega

theorem leadingFraction_append {f : Fraction} {ds rest : Bytes}
    (hds : ∀ c ∈ ds, isDigit c = true) (hrest : ∀ c ∈ rest.head?, isDigit c = false) :
    leadingFraction f (ds ++ rest) = (ds.foldl Fraction.digit f, rest) := by
  induction ds generalizing f with
  | nil =>
    cases rest with
    | nil => rfl
    | cons c cs =>
      rw [List.nil_append, leadingFraction, if_neg (by rw [hrest c rfl]; exact Bool.false_ne_true)]
      rfl
  | cons c cs ih =>
    obtain ⟨hc, hcs⟩ := List.forall_mem_cons.mp hds
    rw [List.cons_append, leadingFraction, if_pos hc]
    exact ih hcs

/-! ## Units -/

theorem units_spec : ∀ u ∈ units, u.1 ≠ [] ∧ (∀ c ∈ u.1, endsUnit c = false) ∧
    lookupUnit u.1 = some u.2 ∧ 0 < u.2 ∧ u.2 ≤ 2 ^ 50 := by
  decide +kernel

theorem mem_units_of_lookup {name : Bytes} {unit : Nat} (h : lookupUnit name = some unit) :
    (name, unit) ∈ units := by
  obtain ⟨l, r, hunits, -⟩ := List.lookup_eq_some_iff.mp h
  rw [hunits]
  exact List.mem_append_right l List.mem_cons_self

theorem not_isDigit_of_not_endsUnit {c : UInt8} (h : endsUnit c = false) : isDigit c = false := by
  have hno := of_decide_eq_false h
  exact Bool.eq_false_iff.mpr fun hdigit => hno (.inr hdigit)

/-! ## One part -/

theorem takeWhile_unit {name rest : Bytes} (hname : ∀ c ∈ name, endsUnit c = false)
    (hrest : ∀ c ∈ rest.head?, endsUnit c = true) :
    (name ++ rest).takeWhile (!endsUnit ·) = name ∧
      (name ++ rest).dropWhile (!endsUnit ·) = rest := by
  have hall : ∀ c ∈ name, (!endsUnit c) = true := fun c hc => by rw [hname c hc]; rfl
  have hstop : rest.takeWhile (!endsUnit ·) = [] ∧ rest.dropWhile (!endsUnit ·) = rest := by
    cases rest with
    | nil => exact ⟨rfl, rfl⟩
    | cons c cs =>
      have hc : ¬ (!endsUnit c) = true := by rw [hrest c rfl]; exact Bool.false_ne_true
      exact ⟨List.takeWhile_cons_of_neg hc, List.dropWhile_cons_of_neg hc⟩
  rw [List.takeWhile_append_of_pos hall, List.dropWhile_append_of_pos hall, hstop.1, hstop.2]
  exact ⟨List.append_nil name, rfl⟩

theorem head_not_digit {name rest : Bytes} (hne : name ≠ [])
    (hname : ∀ c ∈ name, endsUnit c = false) : ∀ c ∈ (name ++ rest).head?, isDigit c = false := by
  obtain ⟨b, bs, rfl⟩ := List.exists_cons_of_ne_nil hne
  intro c hc
  obtain rfl : b = c := Option.some.inj hc
  exact not_isDigit_of_not_endsUnit (hname b List.mem_cons_self)

theorem dotFraction_cons (s : Bytes) :
    dotFraction (46 :: s) = ((leadingFraction .none s).1, (leadingFraction .none s).2,
      decide ((leadingFraction .none s).2.length ≠ s.length)) := rfl

theorem dotFraction_part (p : Part) (rest : Bytes) :
    dotFraction ((p.frac.map (dot :: ·)).getD [] ++ (p.unit.1 ++ rest)) =
      (p.fraction, p.unit.1 ++ rest, decide (p.frac.getD [] ≠ [])) := by
  obtain ⟨hne, hname, -⟩ := units_spec p.unit p.unit_mem
  have hdigits := p.frac_digits
  unfold Part.fraction
  cases hfrac : p.frac with
  | none =>
    obtain ⟨b, bs, hb⟩ := List.exists_cons_of_ne_nil hne
    have hdot : b ≠ 46 := by
      rintro rfl
      exact absurd (hname 46 (by rw [hb]; exact List.mem_cons_self)) (by decide)
    show dotFraction (p.unit.1 ++ rest) = (Fraction.none, p.unit.1 ++ rest, false)
    rw [hb]
    unfold dotFraction
    split
    · next s heq => exact absurd (List.cons.inj heq).1 hdot
    · rfl
  | some fs =>
    rw [hfrac, Option.getD_some] at hdigits
    have hlead : leadingFraction .none (fs ++ (p.unit.1 ++ rest)) =
        (fs.foldl Fraction.digit .none, p.unit.1 ++ rest) :=
      leadingFraction_append hdigits (head_not_digit hne hname)
    show dotFraction (46 :: (fs ++ (p.unit.1 ++ rest))) = _
    rw [dotFraction_cons, hlead]
    refine congrArg (fun b => (_, _, b)) (decide_eq_decide.mpr ?_)
    rw [Option.getD_some, ← List.length_pos_iff]
    simp only [List.length_append]
    omega

theorem Part.head_bytes (p : Part) (rest : Bytes) :
    (p.bytes ++ rest).head?.any endsUnit = true := by
  unfold Part.bytes
  rcases hw : p.whole with _ | ⟨c, cs⟩
  · obtain ⟨fs, hfs⟩ : ∃ fs, p.frac = some fs := by
      cases hfrac : p.frac with
      | none =>
        have hsome := p.some_digit
        rw [hfrac, hw] at hsome
        exact hsome.elim (absurd rfl) (absurd rfl)
      | some fs => exact ⟨fs, rfl⟩
    rw [hfs]
    rfl
  · have hc := p.whole_digits c (by rw [hw]; exact List.mem_cons_self)
    exact decide_eq_true (.inr hc)

theorem Part.fraction_ok (p : Part) : p.fraction.Ok := Fraction.none_ok.foldl p.frac_digits

/-- The value of a part whose fraction has no more digits than its unit has places. -/
theorem Part.value_exact {p : Part} {m : Nat} (hm : 0 < m)
    (hunit : p.unit.2 = m * 10 ^ (p.frac.getD []).length) :
    p.value = decimal p.whole * p.unit.2 + decimal (p.frac.getD []) * m := by
  have hle : m * 10 ^ (p.frac.getD []).length ≤ 2 ^ 50 := by
    rw [← hunit]
    exact (units_spec p.unit p.unit_mem).2.2.2.2
  have hlt : decimal (p.frac.getD []) < 10 ^ (p.frac.getD []).length :=
    Nat.lt_of_lt_of_eq (decimalFrom_lt p.frac_digits) (Nat.one_mul _)
  have hten : 10 ^ (p.frac.getD []).length ≤ 2 ^ 50 := (Nat.le_mul_of_pos_left _ hm).trans hle
  have hlen : (p.frac.getD []).length < 16 :=
    (Nat.pow_lt_pow_iff_right (by decide)).mp (Nat.lt_of_le_of_lt hten (by decide))
  have hfraction : p.fraction = ⟨decimal (p.frac.getD []),
      .fin (10 ^ (p.frac.getD []).length), false⟩ := by
    have hexact := @foldl_digit_exact 0 0 (p.frac.getD []) (by omega)
      (show decimal (p.frac.getD []) ≤ 2 ^ 63 by omega)
    rw [pow_zero, Nat.zero_add] at hexact
    exact hexact
  unfold Part.value
  rw [hfraction, hunit, scaled_exact hm hle hlt]

theorem component_part (p : Part) {rest : Bytes} (hrest : ∀ c ∈ rest.head?, endsUnit c = true) :
    component (p.bytes ++ rest) = if p.Fits then .ok (p.value, rest) else .error .inval := by
  obtain ⟨hne, hname, hlookup, hpos, hle⟩ := units_spec p.unit p.unit_mem
  have hfrac := p.fraction_ok
  have hscaled := scaled_lt hfrac hle
  have hsplit : p.bytes ++ rest =
      p.whole ++ ((p.frac.map (dot :: ·)).getD [] ++ (p.unit.1 ++ rest)) := by
    unfold Part.bytes
    rw [List.append_assoc, List.append_assoc]
  have hdot : ∀ c ∈ ((p.frac.map (dot :: ·)).getD [] ++ (p.unit.1 ++ rest)).head?,
      isDigit c = false := by
    cases p.frac with
    | none =>
      show ∀ c ∈ (p.unit.1 ++ rest).head?, isDigit c = false
      exact head_not_digit hne hname
    | some fs =>
      intro c hc
      obtain rfl : dot = c := Option.some.inj hc
      rfl
  unfold component
  rw [if_neg (not_not.mpr (p.head_bytes rest)), hsplit,
    leadingInt_append p.whole_digits hdot (Nat.zero_le _),
    show decimalFrom 0 p.whole = decimal p.whole from rfl]
  by_cases hint : decimal p.whole ≤ 2 ^ 63
  · rw [if_pos hint]
    dsimp only
    rw [dotFraction_part, takeWhile_unit hname hrest |>.1, takeWhile_unit hname hrest |>.2]
    dsimp only
    rw [if_neg ?_, if_neg hne, hlookup]
    · dsimp only
      have hover : decimal p.whole > (2 ^ 63 - 1) / p.unit.2 ↔
          ¬ decimal p.whole * p.unit.2 < 2 ^ 63 := by
        rw [gt_iff_lt, ← not_le, Nat.le_div_iff_mul_le hpos]
        omega
      by_cases hcap : decimal p.whole * p.unit.2 < 2 ^ 63
      · rw [if_neg fun h => hover.mp h hcap]
        by_cases hnum : p.fraction.num > 0
        · have hmod : (decimal p.whole * p.unit.2 + scaled p.fraction p.unit.2) % 2 ^ 64 =
              p.value := Nat.mod_eq_of_lt (by omega)
          rw [if_pos hnum, hmod]
          by_cases hv : p.value ≤ 2 ^ 63
          · rw [if_neg (Nat.not_lt.mpr hv), if_pos ⟨hcap, hv⟩]
          · rw [if_pos (Nat.lt_of_not_le hv), if_neg fun h => hv h.2]
        · have hv : p.value = decimal p.whole * p.unit.2 := by
            rw [Part.value, scaled_none (by omega), Nat.add_zero]
          rw [if_neg hnum, if_pos ⟨hcap, by rw [hv]; exact hcap.le⟩, hv]
      · rw [if_pos (hover.mpr hcap), if_neg fun h => hcap h.1]
    · rintro ⟨hpre, hpost⟩
      rw [decide_eq_true_eq, not_not] at hpost
      refine hpre fun hlen => ?_
      have hwhole := p.some_digit.resolve_right (not_not.mpr hpost)
      have hlen' := List.length_pos_iff.mpr hwhole
      simp only [List.length_append] at hlen
      omega
  · rw [if_neg hint]
    refine (if_neg fun hfits => hint ?_).symm
    calc decimal p.whole ≤ decimal p.whole * p.unit.2 := Nat.le_mul_of_pos_right _ hpos
      _ ≤ 2 ^ 63 := hfits.1.le

/-! ## What is accepted -/

theorem leadingInt_some {x v : Nat} {s s' : Bytes} (h : leadingInt x s = some (v, s')) :
    ∃ ds, (∀ c ∈ ds, isDigit c = true) ∧ s = ds ++ s' := by
  induction s generalizing x with
  | nil =>
    obtain ⟨-, rfl⟩ := Prod.mk.inj (Option.some.inj h)
    exact ⟨[], nofun, rfl⟩
  | cons c cs ih =>
    unfold leadingInt at h
    split_ifs at h with hc
    · obtain ⟨ds, hds, rfl⟩ := ih h
      exact ⟨c :: ds, List.forall_mem_cons.mpr ⟨hc, hds⟩, rfl⟩
    · obtain ⟨-, rfl⟩ := Prod.mk.inj (Option.some.inj h)
      exact ⟨[], nofun, rfl⟩

theorem leadingFraction_split (f : Fraction) (s : Bytes) :
    ∃ ds, (∀ c ∈ ds, isDigit c = true) ∧ s = ds ++ (leadingFraction f s).2 := by
  induction s generalizing f with
  | nil => exact ⟨[], nofun, rfl⟩
  | cons c cs ih =>
    unfold leadingFraction
    split_ifs with hc
    · obtain ⟨ds, hds, hcs⟩ := ih (f.digit c)
      exact ⟨c :: ds, List.forall_mem_cons.mpr ⟨hc, hds⟩, congrArg (c :: ·) hcs⟩
    · exact ⟨[], nofun, rfl⟩

theorem dotFraction_split (s : Bytes) : ∃ frac : Option Bytes,
    (∀ c ∈ frac.getD [], isDigit c = true) ∧
      s = (frac.map (dot :: ·)).getD [] ++ (dotFraction s).2.1 ∧
      ((dotFraction s).2.2 = true → frac.getD [] ≠ []) := by
  unfold dotFraction
  split
  · next t =>
    obtain ⟨ds, hds, ht⟩ := leadingFraction_split .none t
    refine ⟨some ds, hds, congrArg (46 :: ·) ht, fun hpost hnil => ?_⟩
    rw [Option.getD_some] at hnil
    rw [hnil, List.nil_append] at ht
    exact of_decide_eq_true hpost (congrArg List.length ht).symm
  · exact ⟨none, nofun, rfl, nofun⟩

theorem part_of_component {s rest : Bytes} {v : Nat} (h : component s = .ok (v, rest)) :
    ∃ p : Part, s = p.bytes ++ rest ∧ ∀ c ∈ rest.head?, endsUnit c = true := by
  unfold component at h
  split_ifs at h with hhead
  cases hint : leadingInt 0 s with
  | none => rw [hint] at h; cases h
  | some r =>
    obtain ⟨x, s₁⟩ := r
    obtain ⟨whole, hwhole, rfl⟩ := leadingInt_some hint
    obtain ⟨frac, hfrac, hs₁, hpost⟩ := dotFraction_split s₁
    rw [hint] at h
    dsimp only at h
    split at h
    · cases h
    · next hdigits =>
      split at h
      · cases h
      · cases hunit : lookupUnit ((dotFraction s₁).2.1.takeWhile (!endsUnit ·)) with
        | none => rw [hunit] at h; cases h
        | some unit =>
          have hrest : rest = (dotFraction s₁).2.1.dropWhile (!endsUnit ·) := by
            rw [hunit] at h
            dsimp only at h
            split_ifs at h <;> exact (Prod.mk.inj (Except.ok.inj h)).2.symm
          refine ⟨⟨whole, frac, (_, unit), hwhole, hfrac, ?_, mem_units_of_lookup hunit⟩, ?_, ?_⟩
          · by_contra hno
            obtain ⟨hw, hf⟩ := not_or.mp hno
            refine hdigits ⟨?_, fun hp => hf (hpost hp)⟩
            rw [not_not.mp hw]
            exact fun hlen => hlen rfl
          · unfold Part.bytes
            dsimp only
            rw [List.append_assoc, List.append_assoc, hrest, List.takeWhile_append_dropWhile, ← hs₁]
          · intro c hc
            rw [hrest] at hc
            have hstop := List.head?_dropWhile_not (!endsUnit ·) (dotFraction s₁).2.1
            rw [Option.mem_def.mp hc] at hstop
            simpa using hstop

/-! ## Rows of parts -/

def partsBytes (ps : List Part) : Bytes := ps.flatMap Part.bytes

/-- The running sum of the loop. -/
def tally (d : Nat) : List Part → Except Err Nat
  | [] => .ok d
  | p :: ps =>
    if p.Fits ∧ (d + p.value) % 2 ^ 64 ≤ 2 ^ 63 then tally ((d + p.value) % 2 ^ 64) ps
    else .error .inval

theorem Part.two_le_length (p : Part) : 2 ≤ p.bytes.length := by
  have hunit := List.length_pos_iff.mpr (units_spec p.unit p.unit_mem).1
  have hlen : p.bytes.length =
      p.whole.length + ((p.frac.map (dot :: ·)).getD []).length + p.unit.1.length := by
    unfold Part.bytes
    rw [List.length_append, List.length_append, Nat.add_assoc]
  rcases p.some_digit with hw | hf
  · have := List.length_pos_iff.mpr hw
    omega
  · cases hfrac : p.frac with
    | none => rw [hfrac] at hf; exact absurd rfl hf
    | some fs =>
      have hdot : ((p.frac.map (dot :: ·)).getD []).length = fs.length + 1 := by
        rw [hfrac]
        rfl
      omega

theorem head_partsBytes (ps : List Part) : ∀ c ∈ (partsBytes ps).head?, endsUnit c = true := by
  cases ps with
  | nil => nofun
  | cons p ps =>
    intro c hc
    have hhead := p.head_bytes (partsBytes ps)
    rw [show p.bytes ++ partsBytes ps = partsBytes (p :: ps) from rfl, Option.mem_def.mp hc]
      at hhead
    exact hhead

theorem length_le_partsBytes (ps : List Part) : ps.length ≤ (partsBytes ps).length := by
  induction ps with
  | nil => exact Nat.le_refl 0
  | cons p ps ih =>
    have hlen := p.two_le_length
    rw [show partsBytes (p :: ps) = p.bytes ++ partsBytes ps from rfl, List.length_append,
      List.length_cons]
    omega

theorem durationLoop_parts {fuel d : Nat} {ps : List Part} (h : ps.length ≤ fuel) :
    durationLoop fuel d (partsBytes ps) = tally d ps := by
  induction ps generalizing fuel d with
  | nil => cases fuel <;> rfl
  | cons p ps ih =>
    obtain ⟨fuel, rfl⟩ := Nat.exists_eq_add_one_of_ne_zero (Nat.ne_of_gt (Nat.lt_of_lt_of_le
      (Nat.succ_pos _) h))
    have hcons : partsBytes (p :: ps) = p.bytes ++ partsBytes ps := rfl
    obtain ⟨c, cs, hcs⟩ := List.exists_cons_of_length_pos
      (show 0 < (partsBytes (p :: ps)).length by
        have := p.two_le_length
        rw [hcons, List.length_append]
        omega)
    have hturn := component_part p (head_partsBytes ps)
    rw [← hcons, hcs] at hturn
    rw [hcs, durationLoop, hturn, tally]
    by_cases hfits : p.Fits
    · rw [if_pos hfits]
      dsimp only
      rw [ih (Nat.le_of_succ_le_succ h)]
      by_cases hsum : (d + p.value) % 2 ^ 64 ≤ 2 ^ 63
      · rw [if_neg (Nat.not_lt.mpr hsum), if_pos ⟨hfits, hsum⟩]
      · rw [if_pos (Nat.lt_of_not_le hsum), if_neg fun h => hsum h.2]
    · rw [if_neg hfits, if_neg fun h => hfits h.1]

theorem parts_of_durationLoop {fuel d r : Nat} {s : Bytes} (h : durationLoop fuel d s = .ok r) :
    ∃ ps, s = partsBytes ps := by
  induction fuel generalizing d s with
  | zero =>
    cases s with
    | nil => exact ⟨[], rfl⟩
    | cons c cs => cases h
  | succ fuel ih =>
    cases s with
    | nil => exact ⟨[], rfl⟩
    | cons c cs =>
      rw [durationLoop] at h
      cases hturn : component (c :: cs) with
      | error e => rw [hturn] at h; cases h
      | ok r =>
        obtain ⟨p, hp, -⟩ := part_of_component hturn
        rw [hturn] at h
        dsimp only at h
        split_ifs at h
        obtain ⟨ps, hps⟩ := ih h
        exact ⟨p :: ps, hp.trans (congrArg (p.bytes ++ ·) hps)⟩

/-! ## Texts -/

/-- A sign and a row of parts; without parts, a zero. -/
structure Text where
  sign : Bytes
  parts : List Part
  sign_cases : sign = [] ∨ sign = [43] ∨ sign = [45]

namespace Text

def body (t : Text) : Bytes := if t.parts = [] then str "0" else partsBytes t.parts

def bytes (t : Text) : Bytes := t.sign ++ t.body

def neg (t : Text) : Bool := t.sign = [45]

end Text

/-- The end of `mt_duration_parse`. -/
def finish (neg : Bool) (d : Nat) : Except Err Int :=
  if neg then .ok (toInt64 (-toInt64 d))
  else if d > 2 ^ 63 - 1 then .error .inval
  else .ok (toInt64 d)

theorem takeSign_bytes (t : Text) : takeSign t.bytes = (t.neg, t.body) := by
  have hhead : ∀ c ∈ t.body.head?, endsUnit c = true := by
    unfold Text.body
    split_ifs
    · intro c hc
      obtain rfl : (48 : UInt8) = c := Option.some.inj hc
      rfl
    · exact head_partsBytes t.parts
  unfold Text.bytes Text.neg
  rcases t.sign_cases with h | h | h
  · rw [h, List.nil_append]
    unfold takeSign
    split
    · next s hs => exact absurd (hhead 45 (by rw [hs]; rfl)) (by decide)
    · next s hs => exact absurd (hhead 43 (by rw [hs]; rfl)) (by decide)
    · rfl
  · rw [h]
    rfl
  · rw [h]
    rfl

/-- The parser sums up the parts of a text. -/
theorem durationParse_text (t : Text) :
    durationParse t.bytes = match tally 0 t.parts with
      | .error e => .error e
      | .ok d => finish t.neg d := by
  unfold durationParse
  rw [takeSign_bytes]
  dsimp only
  unfold Text.body
  by_cases hnil : t.parts = []
  · rw [if_pos hnil, if_pos rfl, hnil]
    cases t.neg <;> rfl
  · obtain ⟨p, ps, hps⟩ := List.exists_cons_of_ne_nil hnil
    have hlen : 2 ≤ (partsBytes t.parts).length := by
      have := p.two_le_length
      rw [hps, show partsBytes (p :: ps) = p.bytes ++ partsBytes ps from rfl, List.length_append]
      omega
    rw [if_neg hnil, if_neg (ne_of_apply_ne List.length (by show _ ≠ 1; omega)),
      if_neg (List.ne_nil_of_length_pos (by omega)),
      durationLoop_parts (length_le_partsBytes t.parts)]
    rfl

theorem takeSign_eq {s body : Bytes} {neg : Bool} (h : takeSign s = (neg, body)) :
    ∃ sign : Bytes, (sign = [] ∨ sign = [43] ∨ sign = [45]) ∧ s = sign ++ body := by
  unfold takeSign at h
  split at h
  all_goals obtain ⟨-, rfl⟩ := Prod.mk.inj h
  · exact ⟨[45], .inr (.inr rfl), rfl⟩
  · exact ⟨[43], .inr (.inl rfl), rfl⟩
  · exact ⟨[], .inl rfl, rfl⟩

/-- What the parser accepts is a text. -/
theorem text_of_durationParse {s : Bytes} {r : Int} (h : durationParse s = .ok r) :
    ∃ t : Text, s = t.bytes := by
  unfold durationParse at h
  rcases hsplit : takeSign s with ⟨neg, body⟩
  obtain ⟨sign, hsign, hs⟩ := takeSign_eq hsplit
  rw [hsplit] at h
  dsimp only at h
  split at h
  · next hzero => exact ⟨⟨sign, [], hsign⟩, by rw [hs, hzero]; rfl⟩
  · split at h
    · cases h
    · next hnil =>
      cases hloop : durationLoop body.length 0 body with
      | error e => rw [hloop] at h; cases h
      | ok d =>
        obtain ⟨ps, rfl⟩ := parts_of_durationLoop hloop
        have hne : ps ≠ [] := by
          rintro rfl
          exact hnil rfl
        exact ⟨⟨sign, ps, hsign⟩, by rw [hs, Text.bytes, Text.body, if_neg hne]⟩

end MagiTrickle.Config
