import MagiTrickle.Lib.Glob
import MagiTrickle.Rules.Wildcard

/-!
# What the wildcard matcher accepts

The language of a pattern is that of its tokens (`tokens`). `Turn` says what one
turn of the loop does. The text before each index that the loop keeps is a word
of the pattern before the index that goes with it (`Sound`): so what is accepted
is a word of the pattern (`wildcardMatch_sound`).
-/

namespace MagiTrickle.Rules

open Lib.Glob

def token (c : UInt8) : Token UInt8 :=
  if c = 42 then .run else if c = 63 then .opt else if c = 46 then .any else .lit c

def tokens (pattern : Bytes) : List (Token UInt8) := pattern.map token

/-! ## Turns -/

/-- The pattern does not go on with the next byte of the text: it is at its end, or at another
letter. -/
def Stuck (pattern s : Bytes) (st : WildcardState) : Prop :=
  pattern[st.patternIndex]? = none ∨ ∃ p c, pattern[st.patternIndex]? = some p ∧
    s[st.sIndex]? = some c ∧ token p = .lit p ∧ p ≠ c

inductive Turn (pattern s : Bytes) (st : WildcardState) : WildcardState → Prop where
  | letter (p c : UInt8) (e : Option Nat) : pattern[st.patternIndex]? = some p →
      s[st.sIndex]? = some c → token p = .any ∨ token p = .lit c →
      e = st.eroteme ∨ e = none → Turn pattern s st (advance { st with eroteme := e })
  | eroteme (c : UInt8) : pattern[st.patternIndex]? = some 63 → s[st.sIndex]? = some c →
      Turn pattern s st (advance { st with
        eroteme := some st.patternIndex, lastEroteme := st.sIndex, lastErotemeCluster := c })
  | star : pattern[st.patternIndex]? = some 42 → Turn pattern s st { st with
      star := some st.patternIndex, lastStar := st.sIndex, patternIndex := st.patternIndex + 1 }
  | back (e : Nat) : st.eroteme = some e → pattern[st.patternIndex]? ≠ none →
      Stuck pattern s st → Turn pattern s st
        { st with patternIndex := e + 1, sIndex := st.lastEroteme, eroteme := none }
  | restart (k : Nat) : st.star = some k → Stuck pattern s st →
      pattern[st.patternIndex]? = none ∨ st.eroteme = none → Turn pattern s st (restartStar st k)

variable {pattern s : Bytes} {st st' : WildcardState}

/-- Every turn goes on as `Turn` says, or ends the loop: at the end of the text, or where there is
nowhere to come back to. -/
theorem wildcardStep_cases (pattern s : Bytes) (st : WildcardState) :
    (s.length ≤ st.sIndex ∧
        wildcardStep pattern s st = .ret (checkPattern (pattern.drop st.patternIndex))) ∨
      (st.sIndex < s.length ∧ ∃ st', wildcardStep pattern s st = .again st' ∧
        Turn pattern s st st') ∨
      (st.sIndex < s.length ∧ Stuck pattern s st ∧ st.star = none ∧
        wildcardStep pattern s st = .ret false) := by
  unfold wildcardStep
  by_cases hs : s.length ≤ st.sIndex
  · exact .inl ⟨hs, if_pos hs⟩
  · refine .inr ?_
    have hlt : st.sIndex < s.length := Nat.lt_of_not_le hs
    rw [if_neg hs]
    by_cases hp : pattern.length ≤ st.patternIndex
    · rw [if_pos hp]
      have hnone : pattern[st.patternIndex]? = none := List.getElem?_eq_none hp
      cases hstar : st.star with
      | none => exact .inr ⟨hlt, .inl hnone, rfl, rfl⟩
      | some k => exact .inl ⟨hlt, _, rfl, .restart k hstar (.inl hnone) (.inl hnone)⟩
    · have hp' : st.patternIndex < pattern.length := Nat.lt_of_not_le hp
      have hpat := List.getElem?_eq_getElem hp'
      have htext := List.getElem?_eq_getElem hlt
      rw [if_neg hp, List.getD_eq_getElem?_getD, List.getD_eq_getElem?_getD, hpat, htext,
        Option.getD_some, Option.getD_some]
      generalize pattern[st.patternIndex] = p at hpat
      generalize s[st.sIndex] = c at htext
      dsimp only
      split_ifs with hdot hq hstar hne hcluster
      · refine .inl ⟨hlt, _, rfl, .letter p c st.eroteme hpat htext (.inl ?_) (.inl rfl)⟩
        rw [hdot]
        rfl
      · exact .inl ⟨hlt, _, rfl, .eroteme c (hq ▸ hpat) htext⟩
      · exact .inl ⟨hlt, _, rfl, .star (hstar ▸ hpat)⟩
      · have hlit : token p = .lit p := by
          rw [token, if_neg hstar, if_neg hq, if_neg hdot]
        have hstuck : Stuck pattern s st := .inr ⟨p, c, hpat, htext, hlit, hne⟩
        cases he : st.eroteme with
        | some e =>
          refine .inl ⟨hlt, _, rfl, .back e he ?_ hstuck⟩
          rw [hpat]
          exact Option.some_ne_none p
        | none =>
          cases hstar' : st.star with
          | none => exact .inr ⟨hlt, hstuck, rfl, rfl⟩
          | some k => exact .inl ⟨hlt, _, rfl, .restart k hstar' hstuck (.inr he)⟩
      all_goals
        have hpc : p = c := not_not.mp hne
        have hlit : token p = .lit c := by
          rw [token, if_neg hstar, if_neg hq, if_neg hdot, hpc]
      · exact .inl ⟨hlt, _, rfl, .letter p c none hpat htext (.inr hlit) (.inr rfl)⟩
      · exact .inl ⟨hlt, _, rfl, .letter p c st.eroteme hpat htext (.inr hlit) (.inl rfl)⟩

/-! ## What has been read -/

/-- The first `j` bytes of the text are a word of the first `i` bytes of the pattern. -/
def Reads (pattern s : Bytes) (i j : Nat) : Prop :=
  Derives (tokens (pattern.take i)) (s.take j)

theorem Reads.next {i j j' : Nat} {p : UInt8} {ys : Bytes} (h : Reads pattern s i j)
    (hp : pattern[i]? = some p) (hs : s.take j' = s.take j ++ ys) (hy : Derives [token p] ys) :
    Reads pattern s (i + 1) j' := by
  unfold Reads tokens
  rw [List.take_add_one, hp, Option.toList_some, List.map_append, hs]
  exact h.append hy

theorem Reads.byte {i j : Nat} {p c : UInt8} (h : Reads pattern s i j) (hp : pattern[i]? = some p)
    (hc : s[j]? = some c) (hy : Derives [token p] [c]) : Reads pattern s (i + 1) (j + 1) := by
  refine h.next hp ?_ hy
  rw [List.take_add_one, hc, Option.toList_some]

/-- Past a `*`, any number of bytes further on. -/
theorem Reads.run {i j j' : Nat} (h : Reads pattern s i j) (hp : pattern[i]? = some 42)
    (hj : j ≤ j') : Reads pattern s (i + 1) j' := by
  have hsplit : s.take j' = s.take j ++ (s.take j').drop j := by
    conv_lhs => rw [← List.take_append_drop j (s.take j'), List.take_take, Nat.min_eq_left hj]
  refine h.next hp hsplit ?_
  rw [← List.append_nil ((s.take j').drop j)]
  exact .run _ .nil

/-- Past a `?` that stands for no byte. -/
theorem Reads.skip {i j : Nat} (h : Reads pattern s i j) (hp : pattern[i]? = some 63) :
    Reads pattern s (i + 1) j :=
  h.next hp (List.append_nil _).symm (.skip .nil)

/-- What the loop keeps: the text before each index has been read by the pattern before the index
that goes with it. A star's own index may have moved on since. -/
structure Sound (pattern s : Bytes) (st : WildcardState) : Prop where
  here : Reads pattern s st.patternIndex st.sIndex
  star : ∀ k, st.star = some k → pattern[k]? = some 42 ∧ ∃ j ≤ st.lastStar, Reads pattern s k j
  eroteme : ∀ e, st.eroteme = some e →
    pattern[e]? = some 63 ∧ Reads pattern s e st.lastEroteme

theorem Sound.turn (h : Sound pattern s st) (ht : Turn pattern s st st') : Sound pattern s st' := by
  cases ht with
  | letter p c e hp hc htoken he =>
    refine ⟨h.here.byte hp hc ?_, h.star, fun e' he' => ?_⟩
    · rcases htoken with htoken | htoken <;> rw [htoken]
      · exact .any .nil
      · exact .lit .nil
    · rcases he with rfl | rfl
      · exact h.eroteme e' he'
      · cases he'
  | eroteme c hp hc =>
    refine ⟨h.here.byte hp hc (.take .nil), h.star, fun e' he' => ?_⟩
    obtain rfl : st.patternIndex = e' := Option.some.inj he'
    exact ⟨hp, h.here⟩
  | star hp =>
    refine ⟨h.here.run hp (Nat.le_refl _), fun k hk => ?_, h.eroteme⟩
    obtain rfl : st.patternIndex = k := Option.some.inj hk
    exact ⟨hp, st.sIndex, (Nat.le_refl _), h.here⟩
  | back e he hp hstuck =>
    obtain ⟨hmark, hreads⟩ := h.eroteme e he
    exact ⟨hreads.skip hmark, h.star, nofun⟩
  | restart k hk hstuck he =>
    obtain ⟨hmark, j, hj, hreads⟩ := h.star k hk
    have hj' : j ≤ st.lastStar + 1 := Nat.le_succ_of_le hj
    refine ⟨hreads.run hmark hj', fun k' hk' => ?_, h.eroteme⟩
    obtain rfl : k = k' := Option.some.inj (hk.symm.trans hk')
    exact ⟨hmark, j, hj', hreads⟩

/-- What `check_pattern` passes has the empty word. -/
theorem derives_of_checkPattern {rest : Bytes} (h : checkPattern rest = true) :
    Derives (tokens rest) [] := by
  refine derives_of_gaps fun t ht => ?_
  obtain ⟨c, hc, rfl⟩ := List.mem_map.mp ht
  induction rest with
  | nil => cases hc
  | cons b rest ih =>
    obtain ⟨hb, hrest⟩ : (b = 42 ∨ b = 63) ∧ checkPattern rest = true := by
      by_cases hb : b = 42 ∨ b = 63
      · exact ⟨hb, by rwa [checkPattern, if_pos hb] at h⟩
      · rw [checkPattern, if_neg hb] at h
        cases h
    rcases List.mem_cons.mp hc with rfl | hc
    · rcases hb with rfl | rfl
      · exact .inr rfl
      · exact .inl rfl
    · exact ih hrest hc (List.mem_map_of_mem hc)

theorem wildcardLoop_sound {fuel : Nat} (h : Sound pattern s st)
    (hrun : wildcardLoop pattern s fuel st = some true) : Derives (tokens pattern) s := by
  induction fuel generalizing st with
  | zero => cases hrun
  | succ fuel ih =>
    unfold wildcardLoop at hrun
    rcases wildcardStep_cases pattern s st with ⟨hend, hstep⟩ | ⟨-, st', hstep, ht⟩ |
      ⟨-, -, -, hstep⟩
    · rw [hstep] at hrun
      have hgaps := derives_of_checkPattern (Option.some.inj hrun)
      have hword := h.here.append hgaps
      rwa [tokens, tokens, ← List.map_append, List.take_append_drop, List.append_nil,
        List.take_of_length_le hend] at hword
    · rw [hstep] at hrun
      exact ih (h.turn ht) hrun
    · rw [hstep] at hrun
      cases hrun

theorem sound_start (pattern s : Bytes) : Sound pattern s ⟨0, 0, none, 0, none, 0, 0⟩ :=
  ⟨.nil, nofun, nofun⟩

theorem derives_self (pattern : Bytes) : Derives (tokens pattern) pattern := by
  induction pattern with
  | nil => exact .nil
  | cons c cs ih =>
    have hc : Derives [token c] [c] := by
      unfold token
      split_ifs
      · exact .run [c] .nil
      · exact .take .nil
      · exact .any .nil
      · exact .lit .nil
    exact hc.append ih

theorem derives_of_wildcardMatch (h : wildcardMatch pattern s = true) :
    Derives (tokens pattern) s := by
  unfold wildcardMatch at h
  split_ifs at h with hempty hshort
  · rw [List.length_eq_zero_iff.mp hempty, List.length_eq_zero_iff.mp (of_decide_eq_true h)]
    exact .nil
  · rcases hshort with rfl | rfl
    · rw [← List.append_nil s]
      exact .run s .nil
    · exact derives_self pattern
  · obtain ⟨b, hb⟩ : ∃ b, wildcardLoop pattern s (wildcardFuel pattern s)
        ⟨0, 0, none, 0, none, 0, 0⟩ = some b := by
      cases hrun : wildcardLoop pattern s (wildcardFuel pattern s) ⟨0, 0, none, 0, none, 0, 0⟩ with
      | some b => exact ⟨b, rfl⟩
      | none =>
        rw [hrun] at h
        cases h
    rw [hb, Option.getD_some] at h
    exact wildcardLoop_sound (sound_start pattern s) (hb.trans (congrArg some h))

/-- What the matcher accepts is a word of the pattern. -/
theorem wildcardMatch_sound (pattern s : Bytes) (h : wildcardMatch pattern s = true) :
    Derives (tokens pattern) s :=
  derives_of_wildcardMatch h

/-- A star over a dot, an optional byte that comes back, and a letter. -/
theorem wildcardMatch_sound_turns : Derives (tokens (str "*.?b")) (str "aab") :=
  wildcardMatch_sound (str "*.?b") (str "aab") (by decide +kernel)

end MagiTrickle.Rules
