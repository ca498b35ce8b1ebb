import Mathlib.Algebra.Order.BigOperators.Group.List
import MagiTrickle.Config.DurationSum

/-!
# Reading back a written duration

The formatter writes the parts of the number from the smallest unit up. Each is
the text of a part (`Part`) whose value is that share of the number, with a
fraction that its unit has places for; so the parser gets the number back
(`duration_roundTrip`).
-/

namespace MagiTrickle.Config

open Libc (isDigit digitVal decimal digits)

/-! ## Numbers -/

theorem fmtDigits_eq {v : Nat} (h : v ≠ 0) (buf : Bytes) : fmtDigits buf v = digits v ++ buf := by
  rw [fmtDigits, if_neg h]
  have hdigits : digits v = (if v / 10 = 0 then [] else digits (v / 10)) ++
      [UInt8.ofNat (48 + v % 10)] := by
    unfold digits
    rw [if_neg h, Nat.digits_def' (by decide) (Nat.pos_of_ne_zero h), List.reverse_cons,
      List.map_append]
    split_ifs with hv
    · rw [hv]
      rfl
    · rfl
  by_cases hv : v / 10 = 0
  · rw [hdigits, if_pos hv, hv, fmtDigits, if_pos rfl]
    rfl
  · rw [hdigits, if_neg hv, fmtDigits_eq hv, List.append_assoc]
    rfl
termination_by v
decreasing_by omega

theorem fmtInt_eq (buf : Bytes) (v : Nat) : fmtInt buf v = digits v ++ buf := by
  unfold fmtInt
  split_ifs with h
  · rw [h]
    rfl
  · exact fmtDigits_eq h buf

theorem decimal_concat (ds : Bytes) {d : Nat} (hd : d < 10) :
    decimal (ds ++ [UInt8.ofNat (48 + d)]) = decimal ds * 10 + d := by
  unfold decimal
  rw [List.foldl_append, List.foldl_cons, List.foldl_nil, Libc.digitVal_ofNat hd]

theorem isDigit_concat {ds : Bytes} {d : Nat} (h : ∀ c ∈ ds, isDigit c = true) (hd : d < 10) :
    ∀ c ∈ ds ++ [UInt8.ofNat (48 + d)], isDigit c = true := by
  intro c hc
  rcases List.mem_append.mp hc with hc | hc
  · exact h c hc
  · rw [List.mem_singleton.mp hc]
    exact Libc.isDigit_ofNat hd

theorem fmtFrac_true (prec : Nat) (buf : Bytes) (v : Nat) :
    ∃ ds : Bytes, (∀ c ∈ ds, isDigit c = true) ∧ ds.length = prec ∧ decimal ds = v % 10 ^ prec ∧
      fmtFrac prec true buf v = (dot :: (ds ++ buf), v / 10 ^ prec) := by
  induction prec generalizing buf v with
  | zero => exact ⟨[], nofun, rfl, (Nat.mod_one v).symm, by rw [Nat.pow_zero, Nat.div_one]; rfl⟩
  | succ prec ih =>
    obtain ⟨ds, hds, hlen, hval, hfmt⟩ := ih (UInt8.ofNat (48 + v % 10) :: buf) (v / 10)
    have hlt : v % 10 < 10 := Nat.mod_lt v (by decide)
    refine ⟨ds ++ [UInt8.ofNat (48 + v % 10)], isDigit_concat hds hlt, ?_, ?_, ?_⟩
    · rw [List.length_append, hlen]
      rfl
    · rw [decimal_concat ds hlt, hval, Nat.pow_succ', Nat.mod_mul]
      omega
    · show fmtFrac prec true (UInt8.ofNat (48 + v % 10) :: buf) (v / 10) = _
      rw [hfmt, List.append_assoc, Nat.div_div_eq_div_mul, Nat.pow_succ']
      rfl

theorem fmtFrac_false (prec : Nat) (buf : Bytes) (v : Nat) :
    ∃ frac : Option Bytes, (∀ c ∈ frac.getD [], isDigit c = true) ∧
      (frac.getD []).length ≤ prec ∧
      decimal (frac.getD []) * 10 ^ (prec - (frac.getD []).length) = v % 10 ^ prec ∧
      fmtFrac prec false buf v = ((frac.map (dot :: ·)).getD [] ++ buf, v / 10 ^ prec) := by
  induction prec generalizing buf v with
  | zero =>
    exact ⟨none, nofun, Nat.le_refl _, (Nat.mod_one v).symm, by rw [Nat.pow_zero, Nat.div_one]; rfl⟩
  | succ prec ih =>
    by_cases hzero : v % 10 = 0
    · obtain ⟨frac, hfrac, hlen, hval, hfmt⟩ := ih buf (v / 10)
      refine ⟨frac, hfrac, Nat.le_succ_of_le hlen, ?_, ?_⟩
      · rw [Nat.succ_sub hlen, Nat.pow_succ', Nat.mul_left_comm, hval, Nat.pow_succ', Nat.mod_mul]
        omega
      · unfold fmtFrac
        simp only [hzero, ne_eq, not_true_eq_false, decide_false, Bool.or_self, Bool.false_eq_true,
          if_false]
        rw [hfmt, Nat.div_div_eq_div_mul, Nat.pow_succ']
    · obtain ⟨ds, hds, hlen, hval, hfmt⟩ := fmtFrac_true (prec + 1) buf v
      refine ⟨some ds, hds, hlen.le, ?_, ?_⟩
      · rw [Option.getD_some, hlen, Nat.sub_self, Nat.pow_zero, Nat.mul_one, hval]
      · have hfirst : fmtFrac (prec + 1) false buf v = fmtFrac (prec + 1) true buf v := by
          unfold fmtFrac
          simp only [hzero, ne_eq, not_false_eq_true, decide_true, Bool.or_true]
        rw [hfirst, hfmt]
        rfl

/-! ## Parts -/

theorem fmtNumber {prec m : Nat} {name : Bytes} (hmem : (name, m * 10 ^ prec) ∈ units)
    (rest : Bytes) (v n : Nat) :
    ∃ p : Part, fmtFrac prec false (name ++ rest) v =
        ((fmtFrac prec false (name ++ rest) v).1, v / 10 ^ prec) ∧
      fmtInt (fmtFrac prec false (name ++ rest) v).1 n = p.bytes ++ rest ∧
      p.value = n * (m * 10 ^ prec) + v % 10 ^ prec * m ∧
      decimal p.whole * p.unit.2 = n * (m * 10 ^ prec) ∧
      p.bytes.length ≤ (digits n).length + 1 + prec + name.length := by
  obtain ⟨frac, hfrac, hlen, hval, hfmt⟩ := fmtFrac_false prec (name ++ rest) v
  have hm : 0 < m := Nat.pos_of_mul_pos_right (units_spec _ hmem).2.2.2.1
  let p : Part := ⟨digits n, frac, (name, m * 10 ^ prec), Libc.isDigit_digits n, hfrac,
    .inl (Libc.digits_ne_nil n), hmem⟩
  have hunit : p.unit.2 = m * 10 ^ (prec - (p.frac.getD []).length) *
      10 ^ (p.frac.getD []).length := by
    rw [Nat.mul_assoc, ← Nat.pow_add, Nat.sub_add_cancel hlen]
  refine ⟨p, by rw [hfmt], ?_, ?_, ?_, ?_⟩
  · rw [hfmt, fmtInt_eq]
    unfold Part.bytes
    simp only [p, List.append_assoc]
  · rw [Part.value_exact (Nat.mul_pos hm (Nat.pow_pos (by decide))) hunit]
    show decimal (digits n) * (m * 10 ^ prec) +
      decimal (frac.getD []) * (m * 10 ^ (prec - (frac.getD []).length)) = _
    rw [Libc.decimal_digits, Nat.mul_left_comm (decimal _), hval, Nat.mul_comm m (v % _)]
  · show decimal (digits n) * (m * 10 ^ prec) = _
    rw [Libc.decimal_digits]
  · have hdot : ((frac.map (dot :: ·)).getD []).length ≤ (frac.getD []).length + 1 := by
      cases frac with
      | none => exact Nat.zero_le _
      | some fs => exact Nat.le_refl _
    unfold Part.bytes
    simp only [p, List.length_append]
    omega

/-- A row of parts that the parser takes, worth `u`. -/
structure Spells (u : Nat) (text : Bytes) (ps : List Part) : Prop where
  text_eq : text = partsBytes ps
  ne_nil : ps ≠ []
  fits : ∀ p ∈ ps, decimal p.whole * p.unit.2 < 2 ^ 63
  sum : (ps.map Part.value).sum = u
  short : text.length < 31

/-- Below a second: one part, whose unit has `prec` places. -/
theorem spells_fraction {prec : Nat} {name : Bytes} (hmem : (name, 1 * 10 ^ prec) ∈ units)
    (hshort : prec + name.length ≤ 20) {u : Nat} (hu : u / 10 ^ prec < 1000)
    (hu' : u < 2 ^ 63) :
    ∃ ps, Spells u (fmtInt (fmtFrac prec false name u).1 (fmtFrac prec false name u).2) ps := by
  obtain ⟨p, hrest, htext, hval, hwhole, hlen⟩ := fmtNumber hmem [] u (u / 10 ^ prec)
  rw [List.append_nil] at hrest htext
  have hdigits : (digits (u / 10 ^ prec)).length ≤ 3 := Libc.length_digits_le (by decide) hu
  have hdiv := Nat.div_mul_le_self u (10 ^ prec)
  refine ⟨[p], ?_, List.cons_ne_nil _ _, ?_, ?_, ?_⟩
  · rw [hrest, htext]
    rfl
  · intro q hq
    rw [List.mem_singleton.mp hq, hwhole, Nat.one_mul]
    omega
  · show p.value + 0 = u
    rw [hval, Nat.one_mul, Nat.mul_one, Nat.add_zero, Nat.div_add_mod']
  · rw [hrest, htext, List.append_nil]
    omega

theorem fmtInt_unit {unit : Nat} {c : UInt8} (hmem : ([c], unit) ∈ units) (rest : Bytes) (n : Nat) :
    ∃ p : Part, fmtInt (c :: rest) n = p.bytes ++ rest ∧ p.value = n * unit ∧
      decimal p.whole * p.unit.2 = n * unit ∧ p.bytes.length ≤ (digits n).length + 2 := by
  obtain ⟨p, -, htext, hval, hwhole, hlen⟩ :=
    @fmtNumber 0 unit [c] (by rwa [Nat.pow_zero, Nat.mul_one]) rest 0 n
  rw [Nat.pow_zero, Nat.mul_one] at hval hwhole
  exact ⟨p, htext, by rw [hval, Nat.zero_mod, Nat.zero_mul, Nat.add_zero], hwhole, hlen⟩

theorem formatUnsigned_spells {u : Nat} (hu : u ≤ 2 ^ 63) : ∃ ps, Spells u (formatUnsigned u) ps := by
  unfold formatUnsigned
  split_ifs with hsecond hmicro hmilli
  · exact @spells_fraction 0 _ (by decide) (by decide) _ (by omega) (by omega)
  · exact @spells_fraction 3 _ (by decide) (by decide) _ (by omega) (by omega)
  · exact @spells_fraction 6 _ (by decide) (by decide) _ (by omega) (by omega)
  · obtain ⟨p, hrest, htext, hval, hwhole, hlen⟩ :=
      @fmtNumber 9 1 (str "s") (by decide) [] u (u / 10 ^ 9 % 60)
    have hdigits : (digits (u / 10 ^ 9 % 60)).length ≤ 2 :=
      Libc.length_digits_le (by decide) (by omega)
    rw [List.append_nil] at hrest htext
    rw [Nat.one_mul, Nat.mul_one] at hval
    rw [Nat.one_mul] at hwhole
    have hname : (str "s").length = 1 := rfl
    rw [hrest]
    dsimp only
    rw [htext]
    split_ifs with hminute hhour
    · -- hours, minutes and seconds
      obtain ⟨q, hq, hqval, hqwhole, hqlen⟩ := @fmtInt_unit 60000000000 109 (by decide)
        (p.bytes ++ []) (u / 10 ^ 9 / 60 % 60)
      obtain ⟨r, hr, hrval, hrwhole, hrlen⟩ := @fmtInt_unit 3600000000000 104 (by decide)
        (q.bytes ++ (p.bytes ++ [])) (u / 10 ^ 9 / 60 / 60)
      have hqdigits : (digits (u / 10 ^ 9 / 60 % 60)).length ≤ 2 :=
        Libc.length_digits_le (by decide) (by omega)
      have hrdigits : (digits (u / 10 ^ 9 / 60 / 60)).length ≤ 7 :=
        Libc.length_digits_le (by decide) (by omega)
      rw [hq, hr]
      refine ⟨[r, q, p], rfl, List.cons_ne_nil _ _, ?_, ?_, ?_⟩
      · simp only [List.forall_mem_cons, List.not_mem_nil, false_imp_iff, implies_true, and_true]
        omega
      · show r.value + (q.value + (p.value + 0)) = u
        omega
      · simp only [List.length_append, List.length_nil]
        omega
    · -- minutes and seconds
      obtain ⟨q, hq, hqval, hqwhole, hqlen⟩ := @fmtInt_unit 60000000000 109 (by decide)
        (p.bytes ++ []) (u / 10 ^ 9 / 60 % 60)
      have hqdigits : (digits (u / 10 ^ 9 / 60 % 60)).length ≤ 2 :=
        Libc.length_digits_le (by decide) (by omega)
      rw [hq]
      refine ⟨[q, p], rfl, List.cons_ne_nil _ _, ?_, ?_, ?_⟩
      · simp only [List.forall_mem_cons, List.not_mem_nil, false_imp_iff, implies_true, and_true]
        omega
      · show q.value + (p.value + 0) = u
        omega
      · simp only [List.length_append, List.length_nil]
        omega
    · refine ⟨[p], rfl, List.cons_ne_nil _ _, ?_, ?_, ?_⟩
      · simp only [List.forall_mem_cons, List.not_mem_nil, false_imp_iff, implies_true, and_true]
        omega
      · show p.value + 0 = u
        omega
      · simp only [List.length_append, List.length_nil]
        omega

/-! ## The round trip -/

theorem Spells.parse {u : Nat} {text sign : Bytes} {ps : List Part} (h : Spells u text ps)
    (hsign : sign = [] ∨ sign = [43] ∨ sign = [45]) (hu : u ≤ largest (decide (sign = [45]))) :
    durationParse (sign ++ text) = .ok (signed (decide (sign = [45])) u) := by
  have hlimit := largest_le (decide (sign = [45]))
  let t : Text := ⟨sign, ps, hsign⟩
  have hbytes : t.bytes = sign ++ text := by
    rw [Text.bytes, Text.body, if_neg h.ne_nil, h.text_eq]
  rw [← hbytes]
  refine (durationParse_ok_iff t _).mpr ⟨fun p hp => ⟨h.fits p hp, ?_⟩, u, hu, ?_, rfl⟩
  · have hle : p.value ≤ _ := List.le_sum_of_mem (List.mem_map_of_mem hp)
    rw [h.sum] at hle
    omega
  · have hsum : t.values.sum = u := h.sum
    rw [runningSum_of_le (by omega), hsum, Nat.zero_add]

/-- The text of a duration fits the buffer it is made in, is written wherever it fits, and is read
as that duration. -/
theorem duration_roundTrip (d : Int) (hlo : -2 ^ 63 ≤ d) (hhi : d < 2 ^ 63) :
    ∃ text : Bytes, text.length < 32 ∧
      (∀ outLen, text.length < outLen → durationFormat d outLen = some text) ∧
      durationParse text = .ok d := by
  by_cases hzero : d = 0
  · subst hzero
    refine ⟨str "0s", by decide, fun outLen hlen => ?_, ?_⟩
    · exact if_pos (show outLen ≥ 3 from hlen)
    · obtain ⟨p, -, htext, hval, hwhole, -⟩ := @fmtNumber 9 1 (str "s") (by decide) [] 0 0
      have hwritten : fmtInt (fmtFrac 9 false (str "s" ++ []) 0).1 0 = str "0s" := by decide
      have hspells : Spells 0 (str "0s") [p] := by
        refine ⟨hwritten.symm.trans htext, List.cons_ne_nil _ _, fun q hq => ?_, ?_, by decide⟩
        · rw [List.mem_singleton.mp hq, hwhole]
          decide
        · show p.value + 0 = 0
          omega
      have hparse := @Spells.parse _ _ [] _ hspells (.inl rfl) (Nat.zero_le _)
      rwa [List.nil_append] at hparse
  · have hu : (if d < 0 then (-(d + 1)).toNat + 1 else d.toNat) = d.natAbs := by
      split_ifs <;> omega
    obtain ⟨ps, hps⟩ := @formatUnsigned_spells d.natAbs (by omega)
    have hwrite (text : Bytes) (outLen : Nat) (hlen : text.length < outLen)
        (heq : (if d < 0 then 45 :: formatUnsigned d.natAbs else formatUnsigned d.natAbs) = text) :
        durationFormat d outLen = some text := by
      unfold durationFormat
      dsimp only
      rw [hu, if_neg (by omega), heq, if_pos (Nat.succ_le_of_lt hlen)]
    have hlong : (45 :: formatUnsigned d.natAbs).length < 32 := Nat.succ_lt_succ hps.short
    have hshort := hps.short
    rcases lt_or_ge d 0 with hneg | hpos
    · refine ⟨45 :: formatUnsigned d.natAbs, hlong, fun outLen hlen =>
        hwrite _ outLen hlen (if_pos hneg), ?_⟩
      have hparse := @Spells.parse _ _ [45] _ hps (.inr (.inr rfl))
        (by show d.natAbs ≤ 2 ^ 63; omega)
      refine hparse.trans (congrArg Except.ok ?_)
      show -(d.natAbs : Int) = d
      omega
    · refine ⟨formatUnsigned d.natAbs, by omega, fun outLen hlen =>
        hwrite _ outLen hlen (if_neg (by omega)), ?_⟩
      have hparse := @Spells.parse _ _ [] _ hps (.inl rfl)
        (by show d.natAbs ≤ 2 ^ 63 - 1; omega)
      refine hparse.trans (congrArg Except.ok ?_)
      show (d.natAbs : Int) = d
      omega

theorem duration_roundTrip_least :
    ∃ text : Bytes, text.length < 32 ∧
      (∀ outLen, text.length < outLen → durationFormat (-2 ^ 63) outLen = some text) ∧
      durationParse text = .ok (-2 ^ 63) :=
  duration_roundTrip (-2 ^ 63) (by decide) (by decide)

end MagiTrickle.Config
