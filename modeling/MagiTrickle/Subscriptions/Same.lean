import MagiTrickle.Subscriptions.Parse
import Mathlib.Data.List.Nodup

/-!
# Rule lists compare as multisets

Both loops of `mt_sub_same_rules` in closed form for lists whose keys differ:
the first leaves a state for every rule, the second takes off the states that
are met. The comparison is then one of permutations (`sameRules_iff_perm`).
-/

namespace MagiTrickle.Subscriptions

open Config

variable {rx : Bytes → Bool}

/-! ## Keys -/

theorem ruleKey_inj {type type' text text' : Bytes} (h : bar ∉ type) (h' : bar ∉ type')
    (hkey : ruleKey type text = ruleKey type' text') : type = type' ∧ text = text' := by
  unfold ruleKey at hkey
  induction type generalizing type' with
  | nil =>
    cases type' with
    | nil => exact ⟨rfl, (List.cons.inj hkey).2⟩
    | cons c type' => exact absurd ((List.cons.inj hkey).1 ▸ List.mem_cons_self) h'
  | cons c type ih =>
    cases type' with
    | nil => exact absurd ((List.cons.inj hkey).1 ▸ List.mem_cons_self) h
    | cons c' type' =>
      obtain ⟨rfl, hrest⟩ := List.cons.inj hkey
      obtain ⟨rfl, htext⟩ := ih (fun hm => h (List.mem_cons_of_mem _ hm))
        (fun hm => h' (List.mem_cons_of_mem _ hm)) hrest
      exact ⟨rfl, htext⟩

theorem bar_not_mem_effectiveType {rule : SubRule} (h : bar ∉ rule.type) :
    bar ∉ effectiveType rx rule := by
  unfold effectiveType
  split
  · exact h
  · exact bar_not_mem_detectType rx rule.rule

/-! ## States -/

/-- The state of a rule that has been counted once. -/
def stateOf (rx : Bytes → Bool) (rule : SubRule) : RuleState :=
  ⟨sameRulesKey rx rule, rule.id, rule.enable, 1⟩

theorem find?_key_eq_none {states : List RuleState} {key : Bytes}
    (h : key ∉ states.map RuleState.key) : states.find? (·.key = key) = none := by
  rw [List.find?_eq_none]
  intro st hst
  rw [decide_eq_true_eq]
  intro hkey
  exact h (hkey ▸ List.mem_map_of_mem hst)

theorem find?_key_eq_some {states : List RuleState} (hnd : (states.map RuleState.key).Nodup)
    {st : RuleState} (hst : st ∈ states) : states.find? (·.key = st.key) = some st := by
  cases hfind : states.find? (·.key = st.key) with
  | none =>
    have hno := List.find?_eq_none.mp hfind st hst
    exact absurd (decide_eq_true rfl) hno
  | some st' =>
    have hkey : st'.key = st.key := by simpa using List.find?_some hfind
    rw [List.inj_on_of_nodup_map hnd (List.mem_of_find?_eq_some hfind) hst hkey]

theorem updateState_eq_map {states : List RuleState} (hnd : (states.map RuleState.key).Nodup)
    (key : Bytes) (f : RuleState → RuleState) :
    updateState key f states = states.map fun st => if st.key = key then f st else st := by
  induction states with
  | nil => rfl
  | cons st states ih =>
    obtain ⟨hnotin, hnd⟩ := List.nodup_cons.mp hnd
    rw [updateState, List.map_cons]
    split
    · next hkey =>
      congr 1
      have hsame : ∀ st' ∈ states, (if st'.key = key then f st' else st') = id st' := by
        intro st' hst'
        refine if_neg fun hkey' => hnotin ?_
        rw [hkey, ← hkey']
        exact List.mem_map_of_mem hst'
      rw [List.map_congr_left hsame, List.map_id]
    · rw [ih hnd]

/-! ## The loops -/

theorem countLeft_nodup {rules : List SubRule} {states : List RuleState}
    (hnd : (rules.map (sameRulesKey rx)).Nodup)
    (hnew : ∀ r ∈ rules, sameRulesKey rx r ∉ states.map RuleState.key) :
    rules.foldlM (countLeft rx) states = some ((rules.map (stateOf rx)).reverse ++ states) := by
  induction rules generalizing states with
  | nil => rfl
  | cons r rules ih =>
    obtain ⟨hnotin, hnd⟩ := List.nodup_cons.mp hnd
    have hstep : countLeft rx states r = some (stateOf rx r :: states) := by
      unfold countLeft
      dsimp only
      rw [find?_key_eq_none (hnew r List.mem_cons_self)]
      rfl
    rw [List.foldlM_cons, hstep, Option.bind_eq_bind, Option.bind_some, ih hnd, List.map_cons,
      List.reverse_cons, List.append_assoc]
    · rfl
    · intro r' hr'
      rw [List.map_cons, List.mem_cons, not_or]
      refine ⟨fun hkey => ?_, hnew r' (List.mem_cons_of_mem _ hr')⟩
      have hkey' : sameRulesKey rx r' = sameRulesKey rx r := hkey
      exact hnotin (hkey' ▸ List.mem_map_of_mem hr')

/-- A state that a rule takes one off. -/
def Meets (rx : Bytes → Bool) (st : RuleState) (r : SubRule) : Prop :=
  st.key = sameRulesKey rx r ∧ st.count ≠ 0 ∧ st.id = r.id ∧ st.enable = r.enable

theorem countRight_eq_some {states : List RuleState} (hnd : (states.map RuleState.key).Nodup)
    {r : SubRule} {st : RuleState} (hst : st ∈ states) (h : Meets rx st r) :
    countRight rx states r = some (states.map fun st =>
      if st.key = sameRulesKey rx r then { st with count := st.count - 1 } else st) := by
  obtain ⟨hkey, hcount, hid, hen⟩ := h
  unfold countRight
  dsimp only
  rw [← hkey, find?_key_eq_some hnd hst]
  dsimp only
  rw [if_neg hcount, if_neg (not_or.mpr ⟨not_not.mpr hid, not_not.mpr hen⟩),
    updateState_eq_map hnd]

theorem exists_meets_of_countRight {states states' : List RuleState} {r : SubRule}
    (h : countRight rx states r = some states') : ∃ st ∈ states, Meets rx st r := by
  unfold countRight at h
  dsimp only at h
  split at h
  · cases h
  · next st hfind =>
    split at h
    · cases h
    · next hcount =>
      split at h
      · cases h
      · next hsame =>
        rw [not_or, not_not, not_not] at hsame
        have hkey : st.key = sameRulesKey rx r := by simpa using List.find?_some hfind
        exact ⟨st, List.mem_of_find?_eq_some hfind, hkey, hcount, hsame⟩

def takeOff (rx : Bytes → Bool) (rules : List SubRule) (st : RuleState) : RuleState :=
  if st.key ∈ rules.map (sameRulesKey rx) then { st with count := st.count - 1 } else st

theorem key_takeOff (rules : List SubRule) (st : RuleState) :
    (takeOff rx rules st).key = st.key := by
  unfold takeOff
  split <;> rfl

theorem map_key_takeOff (rules : List SubRule) (states : List RuleState) :
    (states.map (takeOff rx rules)).map RuleState.key = states.map RuleState.key := by
  rw [List.map_map]
  exact List.map_congr_left fun st _ => key_takeOff rules st

theorem countRight_eq_takeOff {states : List RuleState} (hnd : (states.map RuleState.key).Nodup)
    {r : SubRule} {st : RuleState} (hst : st ∈ states) (h : Meets rx st r) :
    countRight rx states r = some (states.map (takeOff rx [r])) := by
  rw [countRight_eq_some hnd hst h]
  refine congrArg some (List.map_congr_left fun st' _ => ?_)
  unfold takeOff
  rw [List.map_singleton]
  simp only [List.mem_singleton]

theorem takeOff_cons {r : SubRule} {rules : List SubRule}
    (hnotin : sameRulesKey rx r ∉ rules.map (sameRulesKey rx)) (st : RuleState) :
    takeOff rx rules (takeOff rx [r] st) = takeOff rx (r :: rules) st := by
  unfold takeOff
  simp only [List.map_cons, List.map_nil, List.mem_cons, List.not_mem_nil, or_false]
  by_cases hkey : st.key = sameRulesKey rx r
  · rw [if_pos hkey]
    have hrest : st.key ∉ rules.map (sameRulesKey rx) := hkey ▸ hnotin
    rw [if_neg hrest, if_pos (Or.inl hkey)]
  · rw [if_neg hkey]
    by_cases hin : st.key ∈ rules.map (sameRulesKey rx)
    · rw [if_pos hin, if_pos (.inr hin)]
    · rw [if_neg hin, if_neg (not_or.mpr ⟨hkey, hin⟩)]

theorem meets_takeOff {r r' : SubRule} (hne : sameRulesKey rx r' ≠ sameRulesKey rx r)
    {states : List RuleState} :
    (∃ st ∈ states.map (takeOff rx [r]), Meets rx st r') ↔ ∃ st ∈ states, Meets rx st r' := by
  have hsame : ∀ st : RuleState, st.key = sameRulesKey rx r' → takeOff rx [r] st = st := by
    intro st hkey
    unfold takeOff
    refine if_neg fun hin => hne ?_
    rw [List.map_singleton, List.mem_singleton] at hin
    rw [← hkey, hin]
  refine ⟨?_, ?_⟩
  · rintro ⟨st', hst', hmeets⟩
    obtain ⟨st, hst, rfl⟩ := List.mem_map.mp hst'
    rw [hsame st ((key_takeOff [r] st).symm.trans hmeets.1)] at hmeets
    exact ⟨st, hst, hmeets⟩
  · rintro ⟨st, hst, hmeets⟩
    refine ⟨st, ?_, hmeets⟩
    rw [← hsame st hmeets.1]
    exact List.mem_map_of_mem hst

/-- The second loop succeeds when every rule meets a state, and takes one off the states met. -/
theorem countRight_nodup {rules : List SubRule} {states states' : List RuleState}
    (hnd : (rules.map (sameRulesKey rx)).Nodup) (hst : (states.map RuleState.key).Nodup) :
    rules.foldlM (countRight rx) states = some states' ↔
      (∀ r ∈ rules, ∃ st ∈ states, Meets rx st r) ∧ states' = states.map (takeOff rx rules) := by
  induction rules generalizing states with
  | nil =>
    have hid : states.map (takeOff rx []) = states := by
      refine (List.map_congr_left fun st _ => ?_).trans (List.map_id states)
      exact if_neg List.not_mem_nil
    rw [hid, List.foldlM_nil]
    refine ⟨fun h => ⟨fun r hr => absurd hr List.not_mem_nil, (Option.some.inj h).symm⟩, ?_⟩
    rintro ⟨-, rfl⟩
    rfl
  | cons r rules ih =>
    obtain ⟨hnotin, hnd⟩ := List.nodup_cons.mp hnd
    have hother : ∀ r' ∈ rules, sameRulesKey rx r' ≠ sameRulesKey rx r := by
      intro r' hr' heq
      exact hnotin (heq ▸ List.mem_map_of_mem hr')
    have hst' : ((states.map (takeOff rx [r])).map RuleState.key).Nodup := by
      rw [map_key_takeOff]
      exact hst
    have hmap : (states.map (takeOff rx [r])).map (takeOff rx rules) =
        states.map (takeOff rx (r :: rules)) := by
      rw [List.map_map]
      exact List.map_congr_left fun st _ => takeOff_cons hnotin st
    rw [List.foldlM_cons, Option.bind_eq_bind]
    refine ⟨fun h => ?_, ?_⟩
    · obtain ⟨mid, hstep, hrest⟩ := Option.bind_eq_some_iff.mp h
      obtain ⟨st, hin, hmeets⟩ := exists_meets_of_countRight hstep
      rw [countRight_eq_takeOff hst hin hmeets] at hstep
      cases hstep
      obtain ⟨hall, rfl⟩ := (ih hnd hst').mp hrest
      refine ⟨?_, hmap⟩
      intro r' hr'
      rcases List.mem_cons.mp hr' with rfl | hr'
      · exact ⟨st, hin, hmeets⟩
      · exact (meets_takeOff (hother r' hr')).mp (hall r' hr')
    · rintro ⟨hall, rfl⟩
      obtain ⟨st, hin, hmeets⟩ := hall r List.mem_cons_self
      rw [countRight_eq_takeOff hst hin hmeets, Option.bind_some, ih hnd hst', hmap]
      exact ⟨fun r' hr' =>
        (meets_takeOff (hother r' hr')).mpr (hall r' (List.mem_cons_of_mem _ hr')), rfl⟩

/-! ## Permutations -/

def tag (rx : Bytes → Bool) (r : SubRule) : Bytes × Id × Bool := (sameRulesKey rx r, r.id, r.enable)

theorem meets_stateOf {left : List SubRule} {r : SubRule} :
    (∃ st ∈ (left.map (stateOf rx)).reverse ++ [], Meets rx st r) ↔
      ∃ l ∈ left, tag rx l = tag rx r := by
  simp only [List.append_nil, List.mem_reverse, List.mem_map, exists_exists_and_eq_and, Meets,
    stateOf, tag, Prod.mk.injEq, ne_eq, one_ne_zero, not_false_eq_true, true_and]

theorem keys_subset {left right : List SubRule} (hlen : left.length = right.length)
    (hr : (right.map (sameRulesKey rx)).Nodup)
    (hall : ∀ r ∈ right, ∃ l ∈ left, tag rx l = tag rx r) :
    left.map (sameRulesKey rx) ⊆ right.map (sameRulesKey rx) := by
  have hsub : right.map (sameRulesKey rx) ⊆ left.map (sameRulesKey rx) := by
    intro key hkey
    obtain ⟨r, hrin, rfl⟩ := List.mem_map.mp hkey
    obtain ⟨l, hlin, htag⟩ := hall r hrin
    rw [← (Prod.mk.inj htag).1]
    exact List.mem_map_of_mem hlin
  have hperm := (hr.subperm hsub).perm_of_length_le (by rw [List.length_map, List.length_map, hlen])
  exact hperm.symm.subset

theorem sameRules_iff_tags {left right : List SubRule} (hl : (left.map (sameRulesKey rx)).Nodup)
    (hr : (right.map (sameRulesKey rx)).Nodup) :
    sameRules rx left right = true ↔
      left.length = right.length ∧ ∀ r ∈ right, ∃ l ∈ left, tag rx l = tag rx r := by
  unfold sameRules
  by_cases hlen : left.length = right.length
  · rw [if_neg (not_not.mpr hlen)]
    by_cases hnil : left = []
    · rw [if_pos hnil]
      rw [hnil, List.length_nil] at hlen
      have hnil' : right = [] := List.length_eq_zero_iff.mp hlen.symm
      refine iff_of_true rfl ⟨by rw [hnil, hnil'], fun r hr => ?_⟩
      rw [hnil'] at hr
      exact absurd hr List.not_mem_nil
    · rw [if_neg hnil, countLeft_nodup hl fun r _ => List.not_mem_nil]
      have hkeys : (((left.map (stateOf rx)).reverse ++ []).map RuleState.key).Nodup := by
        rw [List.append_nil, List.map_reverse, List.nodup_reverse, List.map_map]
        exact hl
      dsimp only
      cases hfold : right.foldlM (countRight rx) ((left.map (stateOf rx)).reverse ++ []) with
      | none =>
        refine iff_of_false nofun ?_
        rintro ⟨-, hall⟩
        have hsome := (countRight_nodup hr hkeys).mpr
          ⟨fun r hrin => meets_stateOf.mpr (hall r hrin), rfl⟩
        rw [hfold] at hsome
        cases hsome
      | some states' =>
        obtain ⟨hall, rfl⟩ := (countRight_nodup hr hkeys).mp hfold
        have hall' : ∀ r ∈ right, ∃ l ∈ left, tag rx l = tag rx r :=
          fun r hrin => meets_stateOf.mp (hall r hrin)
        refine iff_of_true ?_ ⟨hlen, hall'⟩
        -- every state was met, since there are as many rules on both sides
        rw [List.all_eq_true]
        intro st hst
        obtain ⟨st₀, hst₀, rfl⟩ := List.mem_map.mp hst
        rw [List.append_nil, List.mem_reverse] at hst₀
        obtain ⟨l, hlin, rfl⟩ := List.mem_map.mp hst₀
        have hin : (stateOf rx l).key ∈ right.map (sameRulesKey rx) :=
          keys_subset hlen hr hall' (List.mem_map_of_mem hlin)
        rw [takeOff, if_pos hin]
        rfl
  · rw [if_pos hlen]
    exact iff_of_false nofun fun h => hlen h.1

def view (rx : Bytes → Bool) (r : SubRule) : (Bytes × Bytes) × Id × Bool :=
  ((effectiveType rx r, r.rule), r.id, r.enable)

theorem tag_eq_iff_view_eq {l r : SubRule} (hl : bar ∉ l.type) (hr : bar ∉ r.type) :
    tag rx l = tag rx r ↔ view rx l = view rx r := by
  refine ⟨fun h => ?_, fun h => ?_⟩
  · obtain ⟨hkey, hrest⟩ := Prod.mk.inj h
    obtain ⟨htype, htext⟩ := ruleKey_inj (bar_not_mem_effectiveType hl)
      (bar_not_mem_effectiveType hr) hkey
    rw [view, view, htype, htext, hrest]
  · obtain ⟨hpair, hrest⟩ := Prod.mk.inj h
    obtain ⟨htype, htext⟩ := Prod.mk.inj hpair
    rw [tag, tag, sameRulesKey, sameRulesKey, htype, htext, hrest]

theorem keys_nodup {rules : List SubRule} (h : ∀ r ∈ rules, bar ∉ r.type)
    (hnd : (rules.map fun r => (effectiveType rx r, r.rule)).Nodup) :
    (rules.map (sameRulesKey rx)).Nodup := by
  have hmap : rules.map (sameRulesKey rx) =
      (rules.map fun r => (effectiveType rx r, r.rule)).map fun p => ruleKey p.1 p.2 := by
    rw [List.map_map]
    rfl
  rw [hmap]
  refine hnd.map_on fun p hp q hq heq => ?_
  obtain ⟨r, hr, rfl⟩ := List.mem_map.mp hp
  obtain ⟨r', hr', rfl⟩ := List.mem_map.mp hq
  obtain ⟨htype, htext⟩ := ruleKey_inj (bar_not_mem_effectiveType (h r hr))
    (bar_not_mem_effectiveType (h r' hr')) heq
  exact Prod.ext htype htext

/-- Where no type has a bar and no type and text occur twice, two lists are the same exactly when
one is a permutation of the other. -/
theorem sameRules_iff_perm (rx : Bytes → Bool) {left right : List SubRule}
    (hl : ∀ r ∈ left, bar ∉ r.type) (hr : ∀ r ∈ right, bar ∉ r.type)
    (hnl : (left.map fun r => (effectiveType rx r, r.rule)).Nodup)
    (hnr : (right.map fun r => (effectiveType rx r, r.rule)).Nodup) :
    sameRules rx left right = true ↔ (left.map (view rx)).Perm (right.map (view rx)) := by
  rw [sameRules_iff_tags (keys_nodup hl hnl) (keys_nodup hr hnr)]
  refine ⟨?_, fun h => ⟨?_, ?_⟩⟩
  · rintro ⟨hlen, hall⟩
    have hsub : right.map (view rx) ⊆ left.map (view rx) := by
      intro v hv
      obtain ⟨r, hrin, rfl⟩ := List.mem_map.mp hv
      obtain ⟨l, hlin, htag⟩ := hall r hrin
      rw [← (tag_eq_iff_view_eq (hl l hlin) (hr r hrin)).mp htag]
      exact List.mem_map_of_mem hlin
    have hnd : (right.map (view rx)).Nodup := by
      refine List.Nodup.of_map Prod.fst ?_
      rw [List.map_map]
      exact hnr
    exact ((hnd.subperm hsub).perm_of_length_le
      (by rw [List.length_map, List.length_map, hlen])).symm
  · have hlen := h.length_eq
    rwa [List.length_map, List.length_map] at hlen
  · intro r hrin
    obtain ⟨l, hlin, hview⟩ := List.mem_map.mp (h.symm.subset (List.mem_map_of_mem hrin))
    exact ⟨l, hlin, (tag_eq_iff_view_eq (hl l hlin) (hr r hrin)).mpr hview⟩

theorem sameRules_iff_perm_swapped :
    sameRules (fun _ => false)
        [⟨⟨1, 2, 3, 4⟩, str "example.com", str "domain", true⟩,
          ⟨⟨5, 6, 7, 8⟩, str "fd00::/8", [], false⟩]
        [⟨⟨5, 6, 7, 8⟩, str "fd00::/8", str "subnet6", false⟩,
          ⟨⟨1, 2, 3, 4⟩, str "example.com", str "domain", true⟩] = true :=
  (sameRules_iff_perm (fun _ => false) (by decide +kernel) (by decide +kernel) (by decide +kernel)
    (by decide +kernel)).mpr (by decide +kernel)

end MagiTrickle.Subscriptions
