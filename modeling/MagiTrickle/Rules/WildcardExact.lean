import MagiTrickle.Rules.WildcardTotal

/-!
# The wildcard matcher without `?`

After the last `*` the loop has read one byte of the text for each byte of the
pattern. If the text is a word of the pattern, then what is left of the one is a
word of what is left of the other, or the loop finds such a rest when it comes
back to that `*` (`Tight`). Earlier stars need not be come back to. So the
matcher accepts the language of the pattern (`wildcardMatch_exact`).
-/

namespace MagiTrickle.Rules

open Lib.Glob

variable {pattern s : Bytes} {st st' : WildcardState} {i j : Nat} {c : UInt8}

/-- What the text from `j` on has to be for the pattern from `i` on. -/
def Fits (pattern s : Bytes) (i j : Nat) : Prop :=
  Derives (tokens (pattern.drop i)) (s.drop j)

theorem drop_of_getElem? {l : Bytes} (h : l[i]? = some c) : l.drop i = c :: l.drop (i + 1) := by
  obtain ⟨hlt, rfl⟩ := List.getElem?_eq_some_iff.mp h
  exact List.drop_eq_getElem_cons hlt

theorem Fits.letter {p : UInt8} (h : Fits pattern s i j) (hp : pattern[i]? = some p)
    (hc : s[j]? = some c) (ht : token p = .any ∨ token p = .lit c) :
    Fits pattern s (i + 1) (j + 1) := by
  unfold Fits tokens at h
  rw [drop_of_getElem? hp, drop_of_getElem? hc, List.map_cons] at h
  rcases ht with ht | ht
  · rw [ht] at h
    obtain ⟨b, ys, heq, hrest⟩ := derives_any.mp h
    rwa [← (List.cons.inj heq).2] at hrest
  · rw [ht] at h
    obtain ⟨ys, heq, hrest⟩ := derives_lit.mp h
    rwa [← (List.cons.inj heq).2] at hrest

theorem fits_star (hp : pattern[i]? = some 42) :
    Fits pattern s i j ↔ ∃ n, Fits pattern s (i + 1) (j + n) := by
  unfold Fits tokens
  rw [drop_of_getElem? hp, List.map_cons, show token 42 = .run from rfl, derives_run]
  simp only [List.drop_drop]

theorem Stuck.not_fits (h : Stuck pattern s st) (hlt : st.sIndex < s.length) :
    ¬ Fits pattern s st.patternIndex st.sIndex := by
  intro hfit
  unfold Fits tokens at hfit
  rcases h with hnone | ⟨p, c, hp, hc, htoken, hne⟩
  · rw [List.drop_of_length_le (List.getElem?_eq_none_iff.mp hnone), List.map_nil, derives_nil]
      at hfit
    exact absurd (List.drop_eq_nil_iff.mp hfit) (Nat.not_le_of_lt hlt)
  · rw [drop_of_getElem? hp, drop_of_getElem? hc, List.map_cons, htoken] at hfit
    obtain ⟨ys, heq, -⟩ := derives_lit.mp hfit
    exact hne (List.cons.inj heq).1.symm

/-- `check_pattern` passes what has the empty word. -/
theorem checkPattern_of_derives {rest : Bytes} (h : Derives (tokens rest) []) :
    checkPattern rest = true := by
  induction rest with
  | nil => rfl
  | cons b rest ih =>
    unfold tokens at h
    rw [List.map_cons] at h
    have hb : (b = 42 ∨ b = 63) ∧ Derives (tokens rest) [] := by
      unfold token at h
      split_ifs at h with hrun hopt hany
      · obtain ⟨n, hn⟩ := derives_run.mp h
        rw [List.drop_nil] at hn
        exact ⟨.inl hrun, hn⟩
      · cases h with
        | skip h => exact ⟨.inr hopt, h⟩
      · cases h
      · cases h
    rw [checkPattern, if_pos hb.1]
    exact ih hb.2

/-- What the loop keeps on a pattern without `?`. -/
structure Tight (pattern s : Bytes) (st : WildcardState) : Prop where
  eroteme : st.eroteme = none
  star : ∀ k, st.star = some k → k < st.patternIndex ∧
    (∀ i, k < i → i < st.patternIndex → pattern[i]? ≠ some 42) ∧
    st.sIndex = st.lastStar + (st.patternIndex - (k + 1))
  fits : Derives (tokens pattern) s → Fits pattern s st.patternIndex st.sIndex ∨
    ∃ k, st.star = some k ∧ ∃ j, st.lastStar < j ∧ Fits pattern s (k + 1) j

theorem token_single {c : UInt8} (hstar : c ≠ 42) (hq : c ≠ 63) : (token c).Single := by
  unfold token
  rw [if_neg hstar, if_neg hq]
  split_ifs <;> trivial

/-- The bytes of a pattern from a `*` to the next one stand for one byte each. -/
theorem tokens_after_star {k n : Nat} (hq : 63 ∉ pattern)
    (hmid : ∀ i, k < i → i < n → pattern[i]? ≠ some 42) (hkn : k < n) (hn : n ≤ pattern.length) :
    ∃ ts : List (Token UInt8), (∀ t ∈ ts, t.Single) ∧ ts.length = n - (k + 1) ∧
      tokens (pattern.drop (k + 1)) = ts ++ tokens (pattern.drop n) := by
  have hsplit : pattern.drop (k + 1) =
      (pattern.drop (k + 1)).take (n - (k + 1)) ++ pattern.drop n := by
    conv_lhs => rw [← List.take_append_drop (n - (k + 1)) (pattern.drop (k + 1))]
    rw [List.drop_drop, Nat.add_sub_cancel' hkn]
  refine ⟨tokens ((pattern.drop (k + 1)).take (n - (k + 1))), fun t ht => ?_, ?_, ?_⟩
  · obtain ⟨c, hc, rfl⟩ := List.mem_map.mp ht
    obtain ⟨m, hm⟩ := List.mem_iff_getElem?.mp hc
    have hlt : m < n - (k + 1) := by
      have hlen := (List.getElem?_eq_some_iff.mp hm).1
      rw [List.length_take] at hlen
      omega
    rw [List.getElem?_take_of_lt hlt, List.getElem?_drop] at hm
    refine token_single ?_ ?_
    · rintro rfl
      exact hmid _ (by omega) (by omega) hm
    · rintro rfl
      exact hq (List.mem_of_getElem? hm)
  · rw [tokens, List.length_map, List.length_take, List.length_drop]
    omega
  · conv_lhs => rw [hsplit]
    exact List.map_append

theorem Tight.turn (h : Tight pattern s st) (ha : Ahead pattern s st) (hq : 63 ∉ pattern)
    (hlt : st.sIndex < s.length) (ht : Turn pattern s st st') : Tight pattern s st' := by
  cases ht with
  | letter p c e hp hc htoken he =>
    have hnone : e = none := he.elim (fun he => he.trans h.eroteme) id
    refine ⟨hnone, fun k hk => ?_, fun hword => ?_⟩
    · obtain ⟨hkp, hmid, hsi⟩ := h.star k hk
      refine ⟨Nat.lt_succ_of_lt hkp, fun i hki hip hi => ?_, ?_⟩
      · rcases Nat.lt_or_eq_of_le (Nat.le_of_lt_succ hip) with hip | rfl
        · exact hmid i hki hip hi
        · obtain rfl : p = 42 := Option.some.inj (hp.symm.trans hi)
          rcases htoken with htoken | htoken <;> cases htoken
      · show st.sIndex + 1 = st.lastStar + (st.patternIndex + 1 - (k + 1))
        omega
    · rcases h.fits hword with hfit | hlater
      · exact .inl (hfit.letter hp hc htoken)
      · exact .inr hlater
  | eroteme c hp hc => exact absurd (List.mem_of_getElem? hp) hq
  | star hp =>
    refine ⟨h.eroteme, fun k hk => ?_, fun hword => ?_⟩
    · obtain rfl : st.patternIndex = k := Option.some.inj hk
      refine ⟨Nat.lt_succ_self _, fun i hki hip => absurd hip (Nat.not_lt_of_le hki), ?_⟩
      exact (congrArg (st.sIndex + ·) (Nat.sub_self (st.patternIndex + 1))).symm
    · rcases h.fits hword with hfit | ⟨k, hk, j, hj, hfit⟩
      · obtain ⟨n, hn⟩ := (fits_star hp).mp hfit
        rcases Nat.eq_zero_or_pos n with rfl | hn'
        · exact .inl hn
        · exact .inr ⟨st.patternIndex, rfl, st.sIndex + n, Nat.lt_add_of_pos_right hn', hn⟩
      · -- the rest that the star before would find starts with a run, so this star finds it too
        obtain ⟨hkp, hmid, hsi⟩ := h.star k hk
        obtain ⟨ts, hsingle, hlen, htokens⟩ := tokens_after_star hq hmid hkp ha.here
        unfold Fits at hfit
        rw [htokens, drop_of_getElem? hp, tokens, List.map_cons] at hfit
        obtain ⟨j', hj', hrest⟩ := hfit.later hsingle (Nat.le_of_lt hj)
        refine .inr ⟨st.patternIndex, rfl, j', ?_, hrest⟩
        show st.sIndex < j'
        omega
  | back e he hp hstuck => rw [h.eroteme] at he; cases he
  | restart k hk hstuck he =>
    refine ⟨h.eroteme, fun k' hk' => ?_, fun hword => ?_⟩
    · obtain rfl : k = k' := Option.some.inj (hk.symm.trans hk')
      refine ⟨Nat.lt_succ_self _, fun i hki hip => absurd hip (Nat.not_lt_of_le hki), ?_⟩
      exact (congrArg (st.lastStar + 1 + ·) (Nat.sub_self (k + 1))).symm
    · obtain ⟨k', hk', j, hj, hfit⟩ := (h.fits hword).resolve_left (hstuck.not_fits hlt)
      obtain rfl : k = k' := Option.some.inj (hk.symm.trans hk')
      rcases Nat.lt_or_eq_of_le (Nat.succ_le_of_lt hj) with hj' | rfl
      · exact .inr ⟨k, hk, j, hj', hfit⟩
      · exact .inl hfit

/-- At the end of the text, a word's pattern has nothing left that needs a byte. -/
theorem Tight.fits_end (h : Tight pattern s st) (ha : Ahead pattern s st) (hq : 63 ∉ pattern)
    (hend : s.length ≤ st.sIndex) (hword : Derives (tokens pattern) s) :
    checkPattern (pattern.drop st.patternIndex) = true := by
  refine checkPattern_of_derives ?_
  rcases h.fits hword with hfit | ⟨k, hk, j, hj, hfit⟩
  · unfold Fits at hfit
    rwa [List.drop_of_length_le hend] at hfit
  · obtain ⟨hkp, hmid, hsi⟩ := h.star k hk
    obtain ⟨ts, hsingle, hlen, htokens⟩ := tokens_after_star hq hmid hkp ha.here
    unfold Fits at hfit
    rw [htokens] at hfit
    have hrest := (hfit.drop hsingle).2
    rwa [List.drop_drop, List.drop_of_length_le (show s.length ≤ j + ts.length by omega)] at hrest

theorem wildcardLoop_complete {fuel : Nat} {b : Bool} (h : Tight pattern s st)
    (hs : Sound pattern s st) (ha : Ahead pattern s st) (hq : 63 ∉ pattern)
    (hword : Derives (tokens pattern) s) (hrun : wildcardLoop pattern s fuel st = some b) :
    b = true := by
  induction fuel generalizing st with
  | zero => cases hrun
  | succ fuel ih =>
    unfold wildcardLoop at hrun
    rcases wildcardStep_cases pattern s st with ⟨hend, hstep⟩ | ⟨hlt, st', hstep, ht⟩ |
      ⟨hlt, hstuck, hnone, hstep⟩
    · rw [hstep] at hrun
      exact (Option.some.inj hrun).symm.trans (h.fits_end ha hq hend hword)
    · rw [hstep] at hrun
      exact ih (h.turn ha hq hlt ht) (hs.turn ht) (ha.turn hs hlt ht) hrun
    · obtain ⟨k, hk, -⟩ := (h.fits hword).resolve_left (hstuck.not_fits hlt)
      rw [hnone] at hk
      cases hk

theorem tight_start (pattern s : Bytes) : Tight pattern s ⟨0, 0, none, 0, none, 0, 0⟩ :=
  ⟨rfl, nofun, .inl⟩

theorem wildcardMatch_of_derives (hq : 63 ∉ pattern) (h : Derives (tokens pattern) s) :
    wildcardMatch pattern s = true := by
  unfold wildcardMatch
  split_ifs with hempty hshort
  · rw [List.length_eq_zero_iff.mp hempty] at h
    rw [derives_nil.mp h]
    rfl
  · rfl
  · obtain ⟨b, hb⟩ := wildcardLoop_fuel pattern s
    rw [hb, Option.getD_some]
    exact wildcardLoop_complete (tight_start pattern s) (sound_start pattern s)
      ⟨Nat.zero_le _, nofun, nofun⟩ hq h hb

/-- Without `?`, the matcher accepts the words of the pattern. -/
theorem wildcardMatch_exact (pattern s : Bytes) (hq : 63 ∉ pattern) :
    wildcardMatch pattern s = true ↔ Derives (tokens pattern) s :=
  ⟨derives_of_wildcardMatch, wildcardMatch_of_derives hq⟩

/-- The last star has to be come back to. -/
theorem wildcardMatch_exact_turns : wildcardMatch (str "*a*.b") (str "cabbab") = true ↔
    Derives (tokens (str "*a*.b")) (str "cabbab") :=
  wildcardMatch_exact (str "*a*.b") (str "cabbab") (by decide)

end MagiTrickle.Rules
