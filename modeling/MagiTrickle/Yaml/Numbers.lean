import MagiTrickle.Config.DurationText
import MagiTrickle.Yaml.Scalar

/-!
# Numbers and durations as plain scalars

A whole number written in digits is resolved as itself (`resolve_digits`). A
duration ends in the letter of a unit, which no number and no timestamp takes,
so it stays a string (`resolve_duration`).
-/

namespace MagiTrickle.Yaml

open Libc (isDigit isSpace decimal digits digitVal)
open Config (takeSign Part Text partsBytes units durationParse endsUnit)

/-! ## The letter of a unit at the end -/

def isUnitEnd (c : UInt8) : Bool := c = 115 ∨ c = 109 ∨ c = 104

theorem isUnitEnd_spec : ∀ c : UInt8, isUnitEnd c = true →
    isDigit c = false ∧ isSpace c = false ∧ Libc.hexVal c = none ∧ c ∉ [43, 45, 46, 95] := by
  intro c hc
  have hcases : c = 115 ∨ c = 109 ∨ c = 104 := by simpa [isUnitEnd] using hc
  rcases hcases with rfl | rfl | rfl <;> decide

/-- The letter of a unit stands at the end of `s`. -/
def Closed (s : Bytes) : Prop := ∃ c, s.getLast? = some c ∧ isUnitEnd c = true

namespace Closed

variable {s t : Bytes}

theorem ne_nil (h : Closed s) : s ≠ [] := by
  rintro rfl
  obtain ⟨c, hc, -⟩ := h
  cases hc

theorem tail {x : UInt8} (h : Closed (x :: t)) (hx : isUnitEnd x = false) : Closed t := by
  obtain ⟨c, hc, hend⟩ := h
  cases t with
  | nil =>
    obtain rfl : x = c := Option.some.inj hc
    rw [hend] at hx
    cases hx
  | cons y ys => exact ⟨c, hc, hend⟩

theorem append (h : Closed t) (s : Bytes) : Closed (s ++ t) := by
  obtain ⟨c, hc, hend⟩ := h
  exact ⟨c, by simp [List.getLast?_append, hc], hend⟩

theorem dropWhile {p : UInt8 → Bool} (hp : ∀ c, isUnitEnd c = true → p c = false) (h : Closed s) :
    Closed (s.dropWhile p) := by
  induction s with
  | nil => exact h
  | cons x t ih =>
    by_cases hx : p x = true
    · have hend : isUnitEnd x = false := by
        by_contra hne
        rw [hp x (by simpa using hne)] at hx
        cases hx
      rw [List.dropWhile_cons_of_pos hx]
      exact ih (h.tail hend)
    · rwa [List.dropWhile_cons_of_neg hx]

theorem dropDigits (h : Closed s) : Closed (s.dropWhile isDigit) :=
  h.dropWhile fun c hc => (isUnitEnd_spec c hc).1

theorem takeSign (h : Closed s) : Closed (takeSign s).2 := by
  unfold Config.takeSign
  split
  · exact h.tail rfl
  · exact h.tail rfl
  · exact h

theorem radix (h : Closed s) (base : Nat) : Closed (radix base s).2 := by
  unfold Yaml.radix
  split
  · split
    · next x c t =>
      split
      · next hx =>
        refine (h.tail rfl).tail ?_
        rcases hx.1 with rfl | rfl <;> rfl
      · exact h
    · exact h
    · exact h
  · exact h

theorem strtoWhole {base v : Nat} {neg : Bool} {r : Bytes} (h : Closed s)
    (hr : strtoWhole base s = some (neg, v, r)) : Closed r := by
  have hspace : Closed (s.dropWhile isSpace) := h.dropWhile fun c hc => (isUnitEnd_spec c hc).2.1
  have hdigits (base : Nat) (c : UInt8) (hc : isUnitEnd c = true) :
      isRadixDigit base c = false := by
    unfold isRadixDigit
    rw [(isUnitEnd_spec c hc).2.2.1]
    rfl
  unfold Yaml.strtoWhole at hr
  dsimp only at hr
  split at hr
  · cases hr
  · obtain ⟨-, -, rfl⟩ := hr
    exact (hspace.takeSign.radix base).dropWhile (hdigits _)

theorem strtollAll (h : Closed s) (base : Nat) : strtollAll base s = none := by
  unfold Yaml.strtollAll
  split
  · next neg v hr => exact absurd rfl (h.strtoWhole hr).ne_nil
  · rfl

theorem strtoullAll (h : Closed s) (base : Nat) : strtoullAll base s = none := by
  unfold Yaml.strtoullAll
  split
  · next neg v hr => exact absurd rfl (h.strtoWhole hr).ne_nil
  · rfl

theorem parseGoInt (h : Closed s) : parseGoInt s = none := by
  unfold Yaml.parseGoInt
  rw [if_neg h.ne_nil, h.strtollAll, h.strtoullAll]
  exact ite_self none

theorem skipExponent {r : Bytes} (h : Closed s) (hr : skipExponent s = some r) : Closed r := by
  unfold Yaml.skipExponent at hr
  split at hr
  · next c t =>
    split at hr
    · next hc =>
      have ht : Closed t := by
        refine h.tail ?_
        rcases hc with rfl | rfl <;> rfl
      dsimp only at hr
      split at hr
      · obtain rfl := Option.some.inj hr
        exact ht.takeSign.dropDigits
      · cases hr
    · obtain rfl := Option.some.inj hr
      exact h
  · exact absurd rfl h.ne_nil

theorem skipExponent_ne (h : Closed s) : Yaml.skipExponent s ≠ some [] :=
  fun hr => absurd rfl (h.skipExponent hr).ne_nil

theorem matchesYamlStyleFloat (h : Closed s) : matchesYamlStyleFloat s = false := by
  unfold Yaml.matchesYamlStyleFloat
  have hs := h.takeSign
  split
  · next p hp =>
    rw [hp] at hs
    simp [(hs.tail rfl).dropDigits.skipExponent_ne]
  · split
    · next p hp =>
      have hd := hs.dropDigits
      rw [hp] at hd
      simp [(hd.tail rfl).dropDigits.skipExponent_ne]
    · next p hp => simp [hs.dropDigits.skipExponent_ne]

theorem strtodExponent (h : Closed s) : Closed (strtodExponent s).2 := by
  unfold Yaml.strtodExponent
  split
  · next c t =>
    dsimp only
    split
    · next hc =>
      have ht : Closed t := by
        refine h.tail ?_
        rcases hc.1 with rfl | rfl <;> rfl
      exact ht.takeSign.dropDigits
    · exact h
  · exact h

theorem strtodAll (h : Closed s) : strtodAll s = none := by
  unfold Yaml.strtodAll
  have hs := h.takeSign.dropDigits
  dsimp only
  refine if_pos (.inr (.inl (Closed.ne_nil (strtodExponent ?_))))
  split
  · next t ht =>
    rw [ht] at hs
    exact (hs.tail rfl).dropDigits
  · exact hs

theorem binaryInt (h : Closed s) : binaryInt s = none := by
  unfold Yaml.binaryInt
  dsimp only
  have hs : Closed (if s.head? = some 45 then s.tail else s) := by
    split
    · next hhead =>
      cases s with
      | nil => exact h
      | cons x t =>
        obtain rfl : x = 45 := Option.some.inj hhead
        exact h.tail rfl
    · exact h
  split
  · next c t ht =>
    rw [ht] at hs
    rw [((hs.tail rfl).tail rfl).strtoullAll]
    rfl
  · rfl

end Closed

/-! ## Durations -/

theorem not_word {s : Bytes} (h : Closed s) (hhead : ∀ c ∈ s.head?, c = 43 ∨ c = 45 ∨ endsUnit c) :
    s ∉ trueWords ∧ s ∉ falseWords ∧ s ∉ nullWords ∧ s ∉ floatWords ∧ s ≠ str "<<" := by
  have hwords : ∀ w ∈ trueWords ++ falseWords ++ nullWords ++ floatWords ++ [str "<<"],
      ¬((∃ c ∈ w.getLast?, isUnitEnd c = true) ∧
        ∀ c ∈ w.head?, c = 43 ∨ c = 45 ∨ endsUnit c = true) := by
    decide +kernel
  obtain ⟨c, hc, hend⟩ := h
  have hno : s ∉ trueWords ++ falseWords ++ nullWords ++ floatWords ++ [str "<<"] :=
    fun hmem => hwords s hmem ⟨⟨c, hc, hend⟩, hhead⟩
  simpa [List.mem_append, not_or, and_assoc] using hno

theorem mem_parts {ps : List Part} {c : UInt8} (hc : c ∈ partsBytes ps) : c ≠ 45 ∧ c ≠ 95 := by
  have hdigit : isDigit c = true → c ≠ 45 ∧ c ≠ 95 := by
    rintro h
    constructor <;> rintro rfl <;> cases h
  have hunits : ∀ u ∈ units, ∀ c ∈ u.1, c ≠ 45 ∧ c ≠ 95 := by decide +kernel
  obtain ⟨p, -, hp⟩ := List.mem_flatMap.mp hc
  unfold Part.bytes at hp
  rcases List.mem_append.mp hp with hp | hp
  · exact hdigit (p.whole_digits c hp)
  · rcases List.mem_append.mp hp with hp | hp
    · cases hfrac : p.frac with
      | none =>
        rw [hfrac] at hp
        cases hp
      | some fs =>
        rw [hfrac] at hp
        rcases List.mem_cons.mp hp with rfl | hp
        · decide
        · exact hdigit (p.frac_digits c (by rwa [hfrac]))
    · exact hunits _ p.unit_mem c hp

theorem closed_parts {ps : List Part} (h : ps ≠ []) : Closed (partsBytes ps) := by
  have hunits : ∀ u ∈ units, ∃ c ∈ u.1.getLast?, isUnitEnd c = true := by decide +kernel
  obtain ⟨l, p, rfl⟩ : ∃ l p, ps = l ++ [p] :=
    ⟨ps.dropLast, ps.getLast h, (List.dropLast_append_getLast h).symm⟩
  have hp : Closed p.unit.1 := hunits _ p.unit_mem
  unfold partsBytes
  rw [List.flatMap_append, List.flatMap_singleton]
  exact ((hp.append _).append _).append _

/-- A number with a unit is no timestamp. -/
theorem timestamp_text (t : Text) (ht : t.parts ≠ []) : timestamp t.bytes = none := by
  have hbody : t.body = partsBytes t.parts := if_neg ht
  unfold Text.bytes
  rw [hbody]
  rcases t.sign_cases with h | h | h
  · have hexpect : expect 45 ((partsBytes t.parts).dropWhile isDigit) = none := by
      cases hd : (partsBytes t.parts).dropWhile isDigit with
      | nil => rfl
      | cons c cs =>
        have hmem : c ∈ partsBytes t.parts :=
          (List.dropWhile_sublist isDigit).subset (by rw [hd]; exact List.mem_cons_self)
        exact if_neg (mem_parts hmem).1
    rw [h, List.nil_append, timestamp, hexpect]
    split <;> rfl
  · rw [h]
    rfl
  · rw [h]
    rfl

theorem resolve_duration {s : Bytes} {d : Int} (h : durationParse s = .ok d)
    (hlen : s.length < 128) :
    resolvePlain s = .str ∨ resolvePlain s = .int 0 ∧ d = 0 := by
  obtain ⟨t, rfl⟩ := Config.text_of_durationParse h
  by_cases hnil : t.parts = []
  · have hbytes : t.bytes = t.sign ++ str "0" := by rw [Text.bytes, Text.body, if_pos hnil]
    rw [hbytes] at h ⊢
    rcases t.sign_cases with hs | hs | hs <;> rw [hs] at h ⊢
    · exact .inr ⟨by decide +kernel, by cases h; rfl⟩
    · exact .inr ⟨by decide +kernel, by cases h; rfl⟩
    · exact .inr ⟨by decide +kernel, by cases h; rfl⟩
  · have hbytes : t.bytes = t.sign ++ partsBytes t.parts := by
      rw [Text.bytes, Text.body, if_neg hnil]
    have hclosed : Closed t.bytes := by
      rw [hbytes]
      exact (closed_parts hnil).append _
    have hhead : ∀ c ∈ t.bytes.head?, c = 43 ∨ c = 45 ∨ endsUnit c = true := by
      rw [hbytes]
      rcases t.sign_cases with hs | hs | hs <;> rw [hs]
      · exact fun c hc => .inr (.inr (Config.head_partsBytes t.parts c hc))
      · exact fun c hc => .inl (Option.some.inj hc).symm
      · exact fun c hc => .inr (.inl (Option.some.inj hc).symm)
    have hstrip : stripUnderscores t.bytes 128 = t.bytes := by
      have hno : ∀ c ∈ t.bytes, c ≠ 95 := by
        rw [hbytes]
        intro c hc
        rcases List.mem_append.mp hc with hc | hc
        · rcases t.sign_cases with hs | hs | hs <;> rw [hs] at hc
          · cases hc
          · rw [List.mem_singleton.mp hc]
            decide
          · rw [List.mem_singleton.mp hc]
            decide
        · exact (mem_parts hc).2
      rw [stripUnderscores, List.filter_eq_self.mpr (by simpa using hno),
        List.take_of_length_le (by omega)]
    obtain ⟨htrue, hfalse, hnull, hfloat, hmerge⟩ := not_word hclosed hhead
    have hnumber : resolveNumber t.bytes = .str := by
      simp [resolveNumber, timestamp_text t hnil, hstrip, hclosed.parseGoInt,
        hclosed.matchesYamlStyleFloat, hclosed.binaryInt]
    left
    unfold resolvePlain
    simp only [htrue, hfalse, hnull, hfloat, hmerge, if_false, hclosed.strtodAll, hnumber,
      ite_self]

/-! ## Whole numbers -/

theorem hexVal_of_isDigit {c : UInt8} (h : isDigit c = true) :
    Libc.hexVal c = some (digitVal c) := by
  have hc : 48 ≤ c ∧ c ≤ 57 := by simpa [isDigit] using h
  rw [Libc.hexVal, if_pos hc, digitVal]

theorem radixValue_digits {ds : Bytes} (h : ∀ c ∈ ds, isDigit c = true) :
    radixValue 10 ds = decimal ds := by
  have hfold : ∀ v : Nat, ds.foldl (fun v c => v * 10 + (Libc.hexVal c).getD 0) v =
      ds.foldl (fun v c => v * 10 + digitVal c) v := by
    induction ds with
    | nil => exact fun _ => rfl
    | cons c ds ih =>
      obtain ⟨hc, hds⟩ := List.forall_mem_cons.mp h
      intro v
      rw [List.foldl_cons, List.foldl_cons, hexVal_of_isDigit hc]
      exact ih hds _
  exact hfold 0

theorem head_digits {n : Nat} (h : n ≠ 0) : (digits n).head? ≠ some 48 := by
  have hne : Nat.digits 10 n ≠ [] := Nat.digits_ne_nil_iff_ne_zero.mpr h
  have hlast := Nat.getLast_digit_ne_zero 10 h
  have hlt : (Nat.digits 10 n).getLast hne < 10 :=
    Nat.digits_lt_base (by decide) (List.getLast_mem hne)
  have hno : ∀ d < 10, UInt8.ofNat (48 + d) = 48 → d = 0 := by decide
  rw [digits, if_neg h, List.head?_map, List.head?_reverse, List.getLast?_eq_getLast_of_ne_nil hne]
  intro hhead
  exact hlast (hno _ hlt (Option.some.inj hhead))

theorem strtoWhole_digits (n : Nat) : strtoWhole 0 (digits n) = some (false, n, []) := by
  by_cases hzero : n = 0
  · subst hzero
    decide
  have hall := Libc.isDigit_digits n
  have hhead := head_digits hzero
  obtain ⟨c, cs, hcs⟩ := List.exists_cons_of_ne_nil (Libc.digits_ne_nil n)
  have hc : isDigit c = true := hall c (by rw [hcs]; exact List.mem_cons_self)
  obtain ⟨hspace, hminus, hplus⟩ := Libc.not_sign_of_isDigit hc
  have hsign : takeSign ((digits n).dropWhile isSpace) = (false, digits n) := by
    rw [hcs, List.dropWhile_cons_of_neg (by simp [hspace])]
    unfold takeSign
    split
    · next heq => exact absurd (List.cons.inj heq).1 hminus
    · next heq => exact absurd (List.cons.inj heq).1 hplus
    · rfl
  have hradix : radix 0 (digits n) = (10, digits n) := by
    rw [hcs] at hhead ⊢
    unfold radix
    rw [if_pos rfl]
    split
    · next heq => exact absurd (congrArg some (List.cons.inj heq).1) hhead
    · next heq => exact absurd (congrArg some (List.cons.inj heq).1) hhead
    · rfl
  have hten : ∀ c ∈ digits n, isRadixDigit 10 c = true := by
    intro c hc
    have hdigit : 48 ≤ c ∧ c ≤ 57 := by simpa [isDigit] using hall c hc
    have hle := UInt8.le_iff_toNat_le.mp hdigit.2
    rw [isRadixDigit, hexVal_of_isDigit (hall c hc), digitVal]
    simp only [Option.any_some, decide_eq_true_eq]
    have h57 : (57 : UInt8).toNat = 57 := rfl
    omega
  have htake : (digits n).takeWhile (isRadixDigit 10) = digits n :=
    List.takeWhile_eq_self_iff.mpr hten
  have hdrop : (digits n).dropWhile (isRadixDigit 10) = [] := List.dropWhile_eq_nil_iff.mpr hten
  simp only [strtoWhole, hsign, hradix, htake, hdrop, Libc.digits_ne_nil, if_false,
    radixValue_digits hall, Libc.decimal_digits]

theorem parseGoInt_digits {n : Nat} (h : n < 2 ^ 64) : parseGoInt (digits n) = some (n : Int) := by
  obtain ⟨c, cs, hcs⟩ := List.exists_cons_of_ne_nil (Libc.digits_ne_nil n)
  have hc : isDigit c = true := Libc.isDigit_digits n c (by rw [hcs]; exact List.mem_cons_self)
  have hminus : (digits n).head? ≠ some 45 := by
    rw [hcs]
    rintro heq
    obtain rfl := Option.some.inj heq
    cases hc
  have hsigned : strtollAll 0 (digits n) =
      if -2 ^ 63 ≤ (n : Int) ∧ (n : Int) < 2 ^ 63 then some (n : Int) else none := by
    rw [strtollAll, strtoWhole_digits]
    rfl
  have hunsigned : strtoullAll 0 (digits n) = some n := by
    rw [strtoullAll, strtoWhole_digits]
    exact if_pos h
  rw [parseGoInt, if_neg (Libc.digits_ne_nil n), hsigned, hunsigned, if_neg hminus]
  by_cases hsmall : -2 ^ 63 ≤ (n : Int) ∧ (n : Int) < 2 ^ 63
  · rw [if_pos hsmall]
  · rw [if_neg hsmall]
    rfl

theorem resolve_digits {n : Nat} (h : n < 2 ^ 64) : resolvePlain (digits n) = .int n := by
  have hwords : ∀ w ∈ trueWords ++ falseWords ++ nullWords ++ floatWords ++ [str "<<"],
      ¬(w ≠ [] ∧ ∀ c ∈ w, isDigit c = true) := by
    decide +kernel
  have hno : digits n ∉ trueWords ++ falseWords ++ nullWords ++ floatWords ++ [str "<<"] :=
    fun hmem => hwords _ hmem ⟨Libc.digits_ne_nil n, Libc.isDigit_digits n⟩
  simp only [List.mem_append, List.mem_singleton, not_or] at hno
  obtain ⟨⟨⟨⟨htrue, hfalse⟩, hnull⟩, hfloat⟩, hmerge⟩ := hno
  have hall := Libc.isDigit_digits n
  have hstamp : timestamp (digits n) = none := by
    have hdrop : (digits n).dropWhile isDigit = [] := List.dropWhile_eq_nil_iff.mpr hall
    rw [timestamp, hdrop]
    split <;> rfl
  have hstrip : stripUnderscores (digits n) 128 = digits n := by
    have hlen : (digits n).length ≤ 20 := Libc.length_digits_le (by decide) (by omega)
    have hmem : ∀ c ∈ digits n, c ≠ 95 := by
      rintro c hc rfl
      cases hall _ hc
    rw [stripUnderscores, List.filter_eq_self.mpr (by simpa using hmem),
      List.take_of_length_le (by omega)]
  have hnumber : resolveNumber (digits n) = .int n := by
    simp [resolveNumber, hstamp, hstrip, parseGoInt_digits h]
  obtain ⟨c, cs, hcs⟩ := List.exists_cons_of_ne_nil (Libc.digits_ne_nil n)
  have hc : isDigit c = true := hall c (by rw [hcs]; exact List.mem_cons_self)
  have hfirst : (digits n).head? = some c := by rw [hcs]; rfl
  have hdot : c ≠ 46 := by
    rintro rfl
    cases hc
  unfold resolvePlain
  simp [htrue, hfalse, hnull, hfloat, hmerge, hnumber, hfirst, hc, hdot]

end MagiTrickle.Yaml
