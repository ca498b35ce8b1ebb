import MagiTrickle.Subscriptions.Same
import Mathlib.Data.Finset.Card

/-!
# A refresh keeps what the user chose

The rules of a list are its entries without repetitions, each with an id of its
own; a refresh puts the id, the flag and the type of the existing rule with the
same text over them. A second refresh with the same list changes nothing
(`refreshRules_again`), but the comparison sees that only where no two rules
have the same key (`refreshRules_exact`).
-/

namespace MagiTrickle.Subscriptions

open Config

variable {rx : Bytes → Bool}

/-! ## Drawing ids -/

theorem nextUniqueId_spec {used draws rest : List Id} {id : Id}
    (h : nextUniqueId used draws = some (id, rest)) :
    id ∉ used ∧ ∃ skipped, draws = skipped ++ id :: rest ∧ ∀ d ∈ skipped, d ∈ used := by
  induction draws with
  | nil => cases h
  | cons d draws ih =>
    rw [nextUniqueId] at h
    split at h
    · next hd =>
      obtain ⟨hid, skipped, rfl, hskip⟩ := ih h
      refine ⟨hid, d :: skipped, rfl, fun x hx => ?_⟩
      rcases List.mem_cons.mp hx with rfl | hx
      · exact hd
      · exact hskip x hx
    · next hd =>
      cases h
      exact ⟨hd, [], rfl, fun x hx => absurd hx List.not_mem_nil⟩

theorem nextUniqueId_isSome {used draws : List Id} {d : Id} (hd : d ∈ draws) (hused : d ∉ used) :
    ∃ id rest, nextUniqueId used draws = some (id, rest) := by
  induction draws with
  | nil => exact absurd hd List.not_mem_nil
  | cons d' draws ih =>
    rw [nextUniqueId]
    split
    · next hin =>
      rcases List.mem_cons.mp hd with rfl | hd
      · exact absurd hin hused
      · exact ih hd
    · exact ⟨_, _, rfl⟩

def freshDraws (used draws : List Id) : Finset Id := draws.toFinset \ used.toFinset

theorem freshDraws_next {used draws rest : List Id} {id : Id}
    (h : nextUniqueId used draws = some (id, rest)) :
    (freshDraws (used ++ [id]) rest).card + 1 = (freshDraws used draws).card := by
  obtain ⟨hid, skipped, rfl, hskip⟩ := nextUniqueId_spec h
  have hsplit : freshDraws used (skipped ++ id :: rest) =
      insert id (freshDraws (used ++ [id]) rest) := by
    ext d
    simp only [freshDraws, Finset.mem_sdiff, List.mem_toFinset, List.mem_append, List.mem_cons,
      List.not_mem_nil, or_false, Finset.mem_insert]
    constructor
    · rintro ⟨hd | rfl | hd, hno⟩
      · exact absurd (hskip d hd) hno
      · exact .inl rfl
      · by_cases heq : d = id
        · exact .inl heq
        · exact .inr ⟨hd, not_or.mpr ⟨hno, heq⟩⟩
    · rintro (rfl | ⟨hd, hno⟩)
      · exact ⟨.inr (.inl rfl), hid⟩
      · exact ⟨.inr (.inr hd), fun hin => hno (.inl hin)⟩
  rw [hsplit, Finset.card_insert_of_notMem]
  simp only [freshDraws, Finset.mem_sdiff, List.mem_toFinset, List.mem_append, List.mem_singleton,
    or_true, not_true_eq_false, and_false, not_false_eq_true]

/-! ## Parsing -/

/-- What is known after the entries `done`. -/
structure Parsed (rx : Bytes → Bool) (draws : List Id) (done : List Bytes) (st : Parsing) :
    Prop where
  texts : st.rules.map SubRule.rule = done.eraseDups
  seen : ∀ t, ruleKey (detectType rx t) t ∈ st.seen ↔ t ∈ done
  ids : st.rules.map SubRule.id = st.used
  nodup : st.used.Nodup
  used : ∀ d ∈ st.used, d ∈ draws
  left : ∀ d ∈ st.draws, d ∈ draws
  fields : ∀ r ∈ st.rules, r.type = detectType rx r.rule ∧ r.enable = true

theorem ruleKey_detectType_inj {t t' : Bytes}
    (h : ruleKey (detectType rx t) t = ruleKey (detectType rx t') t') : t = t' :=
  (ruleKey_inj (bar_not_mem_detectType rx t) (bar_not_mem_detectType rx t') h).2

theorem eraseDups_concat (done : List Bytes) (line : Bytes) :
    (done ++ [line]).eraseDups =
      if line ∈ done then done.eraseDups else done.eraseDups ++ [line] := by
  rw [List.eraseDups_append]
  split
  · next h =>
    have hall : [line].removeAll done = [] := by
      rw [List.removeAll, List.filter_eq_nil_iff]
      simpa using h
    rw [hall, List.eraseDups_nil, List.append_nil]
  · next h =>
    have hnone : [line].removeAll done = [line] := by
      rw [List.removeAll, List.filter_eq_self]
      simpa using h
    rw [hnone]
    rfl

theorem parseEntry_parsed {draws : List Id} {done : List Bytes} {st st' : Parsing} {line : Bytes}
    (h : Parsed rx draws done st) (hstep : parseEntry rx st line = some st') :
    Parsed rx draws (done ++ [line]) st' := by
  unfold parseEntry at hstep
  dsimp only at hstep
  split at hstep
  · next hseen =>
    cases hstep
    have hin := (h.seen line).mp hseen
    refine ⟨?_, fun t => ?_, h.ids, h.nodup, h.used, h.left, h.fields⟩
    · rw [eraseDups_concat, if_pos hin]
      exact h.texts
    · rw [h.seen t, List.mem_append, List.mem_singleton]
      exact ⟨.inl, fun ht => ht.elim id fun heq => heq ▸ hin⟩
  · next hseen =>
    split at hstep
    · cases hstep
    · next id rest hnext =>
      cases hstep
      have hnotin : line ∉ done := fun hin => hseen ((h.seen line).mpr hin)
      obtain ⟨hid, skipped, hdraws, -⟩ := nextUniqueId_spec hnext
      refine ⟨?_, fun t => ?_, ?_, ?_, ?_, ?_, ?_⟩
      · rw [eraseDups_concat, if_neg hnotin, List.map_append, h.texts]
        rfl
      · rw [List.mem_cons, h.seen t, List.mem_append, List.mem_singleton]
        constructor
        · rintro (hkey | ht)
          · exact .inr (ruleKey_detectType_inj hkey)
          · exact .inl ht
        · rintro (ht | rfl)
          · exact .inr ht
          · exact .inl rfl
      · rw [List.map_append, h.ids]
        rfl
      · refine List.nodup_append.mpr ⟨h.nodup, List.nodup_singleton _, fun d hd d' hd' heq => ?_⟩
        rw [List.mem_singleton.mp hd'] at heq
        exact hid (heq ▸ hd)
      · intro d hd
        rcases List.mem_append.mp hd with hd | hd
        · exact h.used d hd
        · rw [List.mem_singleton.mp hd]
          exact h.left id (hdraws ▸ List.mem_append_right _ List.mem_cons_self)
      · intro d hd
        exact h.left d (hdraws ▸ List.mem_append_right _ (List.mem_cons_of_mem _ hd))
      · intro r hr
        rcases List.mem_append.mp hr with hr | hr
        · exact h.fields r hr
        · rw [List.mem_singleton.mp hr]
          exact ⟨rfl, rfl⟩

theorem parsed_fold {draws : List Id} {done lines : List Bytes} {st st' : Parsing}
    (h : Parsed rx draws done st) (hfold : lines.foldlM (parseEntry rx) st = some st') :
    Parsed rx draws (done ++ lines) st' := by
  induction lines generalizing done st with
  | nil =>
    cases hfold
    rwa [List.append_nil]
  | cons line lines ih =>
    rw [List.foldlM_cons] at hfold
    obtain ⟨mid, hstep, hfold⟩ := Option.bind_eq_some_iff.mp hfold
    have hrest := ih (parseEntry_parsed h hstep) hfold
    rwa [List.append_assoc] at hrest

theorem fold_isSome {draws : List Id} {done lines : List Bytes} {st : Parsing}
    (h : Parsed rx draws done st)
    (henough : (done ++ lines).eraseDups.length ≤
      done.eraseDups.length + (freshDraws st.used st.draws).card) :
    ∃ st', lines.foldlM (parseEntry rx) st = some st' := by
  induction lines generalizing done st with
  | nil => exact ⟨st, rfl⟩
  | cons line lines ih =>
    have hcons : done ++ line :: lines = (done ++ [line]) ++ lines := by
      rw [List.append_assoc]
      rfl
    rw [hcons] at henough
    have hmono : (done ++ [line]).eraseDups.length ≤
        ((done ++ [line]) ++ lines).eraseDups.length := by
      have happ : ((done ++ [line]) ++ lines).eraseDups =
          (done ++ [line]).eraseDups ++ (lines.removeAll (done ++ [line])).eraseDups :=
        List.eraseDups_append
      rw [happ, List.length_append]
      omega
    have hstep : ∃ st', parseEntry rx st line = some st' ∧
        (done ++ [line]).eraseDups.length + (freshDraws st'.used st'.draws).card =
          done.eraseDups.length + (freshDraws st.used st.draws).card := by
      unfold parseEntry
      dsimp only
      split
      · next hseen =>
        refine ⟨st, rfl, ?_⟩
        rw [eraseDups_concat, if_pos ((h.seen line).mp hseen)]
      · next hseen =>
        have hnotin : line ∉ done := fun hin => hseen ((h.seen line).mpr hin)
        rw [eraseDups_concat, if_neg hnotin, List.length_append, List.length_singleton] at hmono ⊢
        have hpos : 0 < (freshDraws st.used st.draws).card := by omega
        obtain ⟨d, hd⟩ := Finset.card_pos.mp hpos
        rw [freshDraws, Finset.mem_sdiff, List.mem_toFinset, List.mem_toFinset] at hd
        obtain ⟨id, rest, hnext⟩ := nextUniqueId_isSome hd.1 hd.2
        have hcard := freshDraws_next hnext
        rw [hnext]
        refine ⟨_, rfl, ?_⟩
        dsimp only
        omega
    obtain ⟨mid, hmid, hcard⟩ := hstep
    obtain ⟨st', hst'⟩ := ih (parseEntry_parsed h hmid) (by omega)
    refine ⟨st', ?_⟩
    rw [List.foldlM_cons, hmid]
    exact hst'

theorem parsed_nil (rx : Bytes → Bool) (draws : List Id) : Parsed rx draws [] ⟨[], [], [], draws⟩ :=
  ⟨rfl, fun _ => iff_of_false List.not_mem_nil List.not_mem_nil, rfl, List.nodup_nil,
    fun _ hd => absurd hd List.not_mem_nil, fun _ hd => hd, fun _ hr => absurd hr List.not_mem_nil⟩

/-- What `mt_sub_parse_rules` returns. -/
structure IsParsed (rx : Bytes → Bool) (list : Bytes) (draws : List Id) (rules : List SubRule) :
    Prop where
  texts : rules.map SubRule.rule = (entries list).eraseDups
  nodup : (rules.map SubRule.id).Nodup
  drawn : ∀ r ∈ rules, r.id ∈ draws
  fields : ∀ r ∈ rules, r.type = detectType rx r.rule ∧ r.enable = true

theorem isParsed_of_parseRules {list : Bytes} {draws rest : List Id} {rules : List SubRule}
    (h : parseRules rx list draws = some (rules, rest)) : IsParsed rx list draws rules := by
  obtain ⟨st, hfold, heq⟩ := Option.map_eq_some_iff.mp h
  cases heq
  have hp := parsed_fold (parsed_nil rx draws) hfold
  refine ⟨hp.texts, hp.ids ▸ hp.nodup, fun r hr => ?_, hp.fields⟩
  exact hp.used r.id (hp.ids ▸ List.mem_map_of_mem hr)

/-- Parsing comes to its end when there are as many values to draw as entries. -/
theorem parseRules_isSome {list : Bytes} {draws : List Id}
    (h : (entries list).eraseDups.length ≤ draws.toFinset.card) :
    ∃ rules rest, parseRules rx list draws = some (rules, rest) := by
  obtain ⟨st, hst⟩ := @fold_isSome rx draws [] (entries list) ⟨[], [], [], draws⟩
    (parsed_nil rx draws) (by
      have hempty : freshDraws [] draws = draws.toFinset := by
        rw [freshDraws, List.toFinset_nil, Finset.sdiff_empty]
      rw [hempty, List.nil_append]
      exact Nat.le_trans h (Nat.le_add_left _ _))
  exact ⟨st.rules, st.draws, by rw [parseRules, hst]; rfl⟩

/-! ## Carrying over -/

/-- No id is drawn in the second loop when the ids carried over differ. -/
theorem refreshLoop_eq_map {existing parsed : List SubRule} {used : List Id} (draws : List Id)
    (hzero : ∀ r ∈ parsed, (carryOver existing r).id ≠ ⟨0, 0, 0, 0⟩)
    (hnd : (parsed.map fun r => (carryOver existing r).id).Nodup)
    (hused : ∀ r ∈ parsed, (carryOver existing r).id ∉ used) :
    refreshLoop existing used draws parsed = some (parsed.map (carryOver existing)) := by
  induction parsed generalizing used with
  | nil => rfl
  | cons r parsed ih =>
    obtain ⟨hnotin, hnd⟩ := List.nodup_cons.mp hnd
    have hkeep : ¬(Id.isZero (carryOver existing r).id = true ∨
        (carryOver existing r).id ∈ used) := by
      rintro (hz | hin)
      · exact hzero r List.mem_cons_self (of_decide_eq_true hz)
      · exact hused r List.mem_cons_self hin
    rw [refreshLoop, if_neg hkeep, ih (fun x hx => hzero x (List.mem_cons_of_mem _ hx)) hnd]
    · rfl
    · intro x hx hin
      rcases List.mem_append.mp hin with hin | hin
      · exact hused x (List.mem_cons_of_mem _ hx) hin
      · exact hnotin (List.mem_map.mpr ⟨x, hx, List.mem_singleton.mp hin⟩)

theorem carryOver_rule (existing : List SubRule) (r : SubRule) :
    (carryOver existing r).rule = r.rule := by
  unfold carryOver
  split <;> rfl

theorem current_spec {existing : List SubRule} {text : Bytes} {cur : SubRule}
    (h : current existing text = some cur) : cur ∈ existing ∧ cur.rule = text := by
  refine ⟨List.mem_of_find?_eq_some h, ?_⟩
  have hboth : cur.rule ≠ [] ∧ cur.rule = text := by simpa using List.find?_some h
  exact hboth.2

theorem carryOver_of_none {existing : List SubRule} {r : SubRule}
    (h : current existing r.rule = none) : carryOver existing r = r := by
  unfold carryOver
  rw [h]

theorem carryOver_of_some {existing : List SubRule} {r cur : SubRule}
    (h : current existing r.rule = some cur) :
    carryOver existing r =
      ⟨cur.id, r.rule, if cur.type ≠ [] then cur.type else r.type, cur.enable⟩ := by
  unfold carryOver
  rw [h]

theorem carryOver_id_inj {existing parsed : List SubRule} (hids : (existing.map SubRule.id).Nodup)
    (htexts : (parsed.map SubRule.rule).Nodup) (hpids : (parsed.map SubRule.id).Nodup)
    (hapart : ∀ r ∈ parsed, r.id ∉ existing.map SubRule.id) {r r' : SubRule} (hr : r ∈ parsed)
    (hr' : r' ∈ parsed) (h : (carryOver existing r).id = (carryOver existing r').id) : r = r' := by
  cases hcur : current existing r.rule with
  | none =>
    rw [carryOver_of_none hcur] at h
    cases hcur' : current existing r'.rule with
    | none =>
      rw [carryOver_of_none hcur'] at h
      exact List.inj_on_of_nodup_map hpids hr hr' h
    | some cur' =>
      rw [carryOver_of_some hcur'] at h
      have hid : r.id = cur'.id := h
      exact absurd (hid ▸ List.mem_map_of_mem (current_spec hcur').1) (hapart r hr)
  | some cur =>
    rw [carryOver_of_some hcur] at h
    cases hcur' : current existing r'.rule with
    | none =>
      rw [carryOver_of_none hcur'] at h
      have hid : cur.id = r'.id := h
      exact absurd (hid ▸ List.mem_map_of_mem (current_spec hcur).1) (hapart r' hr')
    | some cur' =>
      rw [carryOver_of_some hcur'] at h
      have hsame : cur = cur' :=
        List.inj_on_of_nodup_map hids (current_spec hcur).1 (current_spec hcur').1 h
      refine List.inj_on_of_nodup_map htexts hr hr' ?_
      rw [← (current_spec hcur).2, ← (current_spec hcur').2, hsame]

theorem nodup_eraseDups (l : List Bytes) : l.eraseDups.Nodup := by
  induction l using List.reverseRecOn with
  | nil => exact List.nodup_nil
  | append_singleton l line ih =>
    rw [eraseDups_concat]
    split
    · exact ih
    · next h =>
      refine List.nodup_append.mpr ⟨ih, List.nodup_singleton _, fun t ht t' ht' heq => h ?_⟩
      rw [← List.mem_singleton.mp ht', ← heq]
      exact List.mem_eraseDups.mp ht

/-- What the loops of a refresh leave: the parsed rules with what was carried over. -/
theorem refreshRules_eq {list : Bytes} {existing : List SubRule} {draws rest : List Id}
    {parsed : List SubRule} (hparse : parseRules rx list draws = some (parsed, rest))
    (hzero : ∀ r ∈ parsed, (carryOver existing r).id ≠ ⟨0, 0, 0, 0⟩)
    (hinj : ∀ r ∈ parsed, ∀ r' ∈ parsed, (carryOver existing r).id = (carryOver existing r').id →
      r = r') :
    refreshRules rx list existing draws = some (parsed.map (carryOver existing)) := by
  have hp := isParsed_of_parseRules hparse
  have hnd : parsed.Nodup := List.Nodup.of_map _ hp.nodup
  unfold refreshRules
  rw [hparse]
  dsimp only
  split
  · next hnil => rw [hnil, List.map_nil]
  · exact refreshLoop_eq_map rest hzero (hnd.map_on hinj) fun r _ => List.not_mem_nil

/-! ## A second refresh -/

/-- Rules that a list and the detection of types can give. -/
structure Settled (rx : Bytes → Bool) (list : Bytes) (rules : List SubRule) : Prop where
  texts : rules.map SubRule.rule = (entries list).eraseDups
  ids : (rules.map SubRule.id).Nodup
  nonzero : ∀ r ∈ rules, r.id ≠ ⟨0, 0, 0, 0⟩
  untyped : ∀ r ∈ rules, r.type = [] → detectType rx r.rule = []

theorem ne_nil_of_mem_entries {list t : Bytes} (h : t ∈ entries list) : t ≠ [] := by
  have hboth : t ≠ [] ∧ t.head? ≠ some 35 := by simpa using (List.mem_filter.mp h).2
  exact hboth.1

theorem Settled.ne_nil {list : Bytes} {rules : List SubRule} (h : Settled rx list rules)
    {r : SubRule} (hr : r ∈ rules) : r.rule ≠ [] := by
  refine @ne_nil_of_mem_entries list r.rule (List.mem_eraseDups.mp ?_)
  rw [← h.texts]
  exact List.mem_map_of_mem hr

theorem Settled.current_eq {list : Bytes} {rules : List SubRule} (h : Settled rx list rules)
    {r : SubRule} (hr : r ∈ rules) : current rules r.rule = some r := by
  cases hcur : current rules r.rule with
  | none =>
    have hno := List.find?_eq_none.mp hcur r hr
    exact absurd (decide_eq_true ⟨h.ne_nil hr, rfl⟩) hno
  | some cur =>
    obtain ⟨hin, htext⟩ := current_spec hcur
    have hnd : (rules.map SubRule.rule).Nodup := h.texts ▸ nodup_eraseDups _
    rw [List.inj_on_of_nodup_map hnd hin hr htext]

theorem map_eq_of_same_keys {α β κ : Type} {f : α → β} {k : α → κ} {k' : β → κ} {xs : List α}
    {ys : List β} (h : xs.map k = ys.map k') (hf : ∀ x ∈ xs, ∀ y ∈ ys, k x = k' y → f x = y) :
    xs.map f = ys := by
  induction xs generalizing ys with
  | nil =>
    cases ys with
    | nil => rfl
    | cons y ys => cases h
  | cons x xs ih =>
    cases ys with
    | nil => cases h
    | cons y ys =>
      obtain ⟨hhead, htail⟩ := List.cons.inj h
      rw [List.map_cons, hf x List.mem_cons_self y List.mem_cons_self hhead,
        ih htail fun x' hx' y' hy' =>
          hf x' (List.mem_cons_of_mem _ hx') y' (List.mem_cons_of_mem _ hy')]

/-- A refresh of settled rules with their own list leaves them as they are. -/
theorem Settled.refreshRules_again {list : Bytes} {rules : List SubRule}
    (h : Settled rx list rules) {draws rest : List Id} {parsed : List SubRule}
    (hparse : parseRules rx list draws = some (parsed, rest)) :
    refreshRules rx list rules draws = some rules := by
  have hp := isParsed_of_parseRules hparse
  -- every parsed rule finds the settled rule with its text
  have hcarry : ∀ p ∈ parsed, ∃ r ∈ rules, r.rule = p.rule ∧ carryOver rules p = r := by
    intro p hpin
    have htext : p.rule ∈ rules.map SubRule.rule := by
      rw [h.texts, ← hp.texts]
      exact List.mem_map_of_mem hpin
    obtain ⟨r, hr, hrule⟩ := List.mem_map.mp htext
    have hcur : current rules p.rule = some r := hrule ▸ h.current_eq hr
    refine ⟨r, hr, hrule, ?_⟩
    rw [carryOver_of_some hcur, ← hrule]
    have htype : (if r.type ≠ [] then r.type else p.type) = r.type := by
      by_cases hty : r.type = []
      · rw [if_neg (not_not.mpr hty), (hp.fields p hpin).1, ← hrule, h.untyped r hr hty, hty]
      · rw [if_pos hty]
    rw [htype]
  have hmap : parsed.map (carryOver rules) = rules := by
    refine map_eq_of_same_keys (hp.texts.trans h.texts.symm) fun p hpin r hr htext => ?_
    obtain ⟨r', hr', hrule, heq⟩ := hcarry p hpin
    have hnd : (rules.map SubRule.rule).Nodup := h.texts ▸ nodup_eraseDups _
    rw [heq, List.inj_on_of_nodup_map hnd hr' hr (hrule.trans htext)]
  rw [refreshRules_eq hparse, hmap]
  · intro p hpin
    obtain ⟨r, hr, -, heq⟩ := hcarry p hpin
    rw [heq]
    exact h.nonzero r hr
  · intro p hpin p' hpin' hid
    obtain ⟨r, hr, hrule, heq⟩ := hcarry p hpin
    obtain ⟨r', hr', hrule', heq'⟩ := hcarry p' hpin'
    rw [heq, heq'] at hid
    have hsame := List.inj_on_of_nodup_map h.ids hr hr' hid
    have hnd : (parsed.map SubRule.rule).Nodup := hp.texts ▸ nodup_eraseDups _
    refine List.inj_on_of_nodup_map hnd hpin hpin' ?_
    rw [← hrule, ← hrule', hsame]

/-! ## Comparing rules with themselves -/

theorem find?_updateState {key k : Bytes} {f : RuleState → RuleState}
    (hf : ∀ st, (f st).key = st.key) (states : List RuleState) :
    (updateState key f states).find? (·.key = k) =
      if k = key then (states.find? (·.key = k)).map f else states.find? (·.key = k) := by
  induction states with
  | nil =>
    rw [updateState, List.find?_nil]
    split <;> rfl
  | cons st states ih =>
    rw [updateState]
    by_cases hst : st.key = key
    · rw [if_pos hst]
      by_cases hk : k = key
      · rw [if_pos hk, List.find?_cons_of_pos (by rw [decide_eq_true_eq, hf, hst, hk]),
          List.find?_cons_of_pos (by rw [decide_eq_true_eq, hst, hk])]
        rfl
      · rw [if_neg hk,
          List.find?_cons_of_neg (by rw [decide_eq_true_eq, hf, hst]; exact Ne.symm hk),
          List.find?_cons_of_neg (by rw [decide_eq_true_eq, hst]; exact Ne.symm hk)]
    · rw [if_neg hst]
      by_cases hsk : st.key = k
      · rw [List.find?_cons_of_pos (by rw [decide_eq_true_eq, hsk]),
          List.find?_cons_of_pos (by rw [decide_eq_true_eq, hsk]), if_neg (hsk ▸ hst)]
      · rw [List.find?_cons_of_neg (by rw [decide_eq_true_eq]; exact hsk), ih,
          List.find?_cons_of_neg (by rw [decide_eq_true_eq]; exact hsk)]

/-- Every rule that was counted has a state with its id. -/
def Counted (rx : Bytes → Bool) (states : List RuleState) (done : List SubRule) : Prop :=
  ∀ x ∈ done, ∃ st, states.find? (·.key = sameRulesKey rx x) = some st ∧ st.id = x.id ∧ 0 < st.count

theorem countLeft_counted {states states' : List RuleState} {done : List SubRule} {r : SubRule}
    (h : Counted rx states done) (hstep : countLeft rx states r = some states') :
    Counted rx states' (done ++ [r]) := by
  unfold countLeft at hstep
  dsimp only at hstep
  split at hstep
  · next st hfind =>
    split at hstep
    · cases hstep
    · next hsame =>
      cases hstep
      intro x hx
      rw [@find?_updateState (sameRulesKey rx r) (sameRulesKey rx x)
        (fun st => { st with id := r.id, enable := r.enable, count := st.count + 1 })
        (fun _ => rfl) states]
      by_cases hkey : sameRulesKey rx x = sameRulesKey rx r
      · rw [if_pos hkey, hkey, hfind]
        refine ⟨_, rfl, ?_, Nat.succ_pos _⟩
        rcases List.mem_append.mp hx with hx | hx
        · -- the state is the one of `x` too
          obtain ⟨st', hfind', hid, hpos⟩ := h x hx
          rw [hkey, hfind] at hfind'
          cases hfind'
          have hids : st.id = r.id := by
            by_contra hne
            exact hsame ⟨hpos, .inl hne⟩
          exact hids.symm.trans hid
        · rw [List.mem_singleton.mp hx]
      · rw [if_neg hkey]
        rcases List.mem_append.mp hx with hx | hx
        · exact h x hx
        · exact absurd (congrArg _ (List.mem_singleton.mp hx)) hkey
  · next hfind =>
    cases hstep
    intro x hx
    by_cases hkey : sameRulesKey rx x = sameRulesKey rx r
    · rcases List.mem_append.mp hx with hx | hx
      · obtain ⟨st', hfind', -⟩ := h x hx
        rw [hkey, hfind] at hfind'
        cases hfind'
      · rw [List.mem_singleton.mp hx]
        exact ⟨_, List.find?_cons_of_pos (decide_eq_true rfl), rfl, Nat.one_pos⟩
    · rcases List.mem_append.mp hx with hx | hx
      · rw [List.find?_cons_of_neg (by rw [decide_eq_true_eq]; exact Ne.symm hkey)]
        exact h x hx
      · exact absurd (congrArg _ (List.mem_singleton.mp hx)) hkey

theorem counted_fold {states states' : List RuleState} {done rules : List SubRule}
    (h : Counted rx states done) (hfold : rules.foldlM (countLeft rx) states = some states') :
    Counted rx states' (done ++ rules) := by
  induction rules generalizing done states with
  | nil =>
    cases hfold
    rwa [List.append_nil]
  | cons r rules ih =>
    rw [List.foldlM_cons] at hfold
    obtain ⟨mid, hstep, hfold⟩ := Option.bind_eq_some_iff.mp hfold
    have hrest := ih (countLeft_counted h hstep) hfold
    rwa [List.append_assoc] at hrest

/-- Rules with different ids compare equal to themselves exactly when their keys differ. -/
theorem sameRules_self_iff {rules : List SubRule} (hids : (rules.map SubRule.id).Nodup) :
    sameRules rx rules rules = true ↔ (rules.map (sameRulesKey rx)).Nodup := by
  refine ⟨fun h => ?_, fun h => (sameRules_iff_tags h h).mpr ⟨rfl, fun r hr => ⟨r, hr, rfl⟩⟩⟩
  unfold sameRules at h
  rw [if_neg (not_not.mpr rfl)] at h
  split at h
  · next hnil =>
    rw [hnil]
    exact List.nodup_nil
  · split at h
    · cases h
    · next states hfold =>
      have hcounted := @counted_fold rx [] states [] rules (fun x hx => absurd hx List.not_mem_nil)
        hfold
      refine (List.Nodup.of_map _ hids).map_on fun x hx y hy hkey => ?_
      obtain ⟨st, hst, hid, -⟩ := hcounted x hx
      obtain ⟨st', hst', hid', -⟩ := hcounted y hy
      rw [hkey, hst'] at hst
      cases hst
      exact List.inj_on_of_nodup_map hids hx hy (hid.symm.trans hid')

/-! ## The result -/

/-- The type a text has after a refresh: that of its first existing rule, or the detected one. -/
def keptType (rx : Bytes → Bool) (existing : List SubRule) (text : Bytes) : Bytes :=
  match existing.find? (·.rule = text) with
  | some cur => if cur.type ≠ [] then cur.type else detectType rx text
  | none => detectType rx text

/-- No two texts of the list get the same key. -/
def KeysApart (rx : Bytes → Bool) (existing : List SubRule) (list : Bytes) : Prop :=
  ∀ t ∈ entries list, ∀ t' ∈ entries list,
    ruleKey (keptType rx existing t) t = ruleKey (keptType rx existing t') t' → t = t'

theorem current_eq_find? {existing : List SubRule} {text : Bytes} (h : text ≠ []) :
    current existing text = existing.find? (·.rule = text) := by
  unfold current
  congr 1
  funext r
  rw [decide_eq_decide]
  refine ⟨And.right, fun heq => ⟨?_, heq⟩⟩
  rw [heq]
  exact h

/-- The type of a rule that was parsed and carried over. -/
theorem carryOver_type {existing : List SubRule} {p : SubRule}
    (htype : p.type = detectType rx p.rule) (hne : p.rule ≠ []) :
    (carryOver existing p).type = keptType rx existing p.rule := by
  unfold keptType
  rw [← current_eq_find? hne, ← htype]
  cases hcur : current existing p.rule with
  | none => rw [carryOver_of_none hcur]
  | some cur => rw [carryOver_of_some hcur]

theorem keptType_eq_nil {existing : List SubRule} {t : Bytes} (h : keptType rx existing t = []) :
    detectType rx t = [] := by
  unfold keptType at h
  split at h
  · split at h
    · next hne => exact absurd h hne
    · exact h
  · exact h

theorem keys_nodup_iff {existing rules : List SubRule} {list : Bytes}
    (htexts : rules.map SubRule.rule = (entries list).eraseDups)
    (htype : ∀ r ∈ rules, r.type = keptType rx existing r.rule) :
    (rules.map (sameRulesKey rx)).Nodup ↔ KeysApart rx existing list := by
  have hkey : ∀ r ∈ rules, sameRulesKey rx r = ruleKey (keptType rx existing r.rule) r.rule := by
    intro r hr
    have heff : effectiveType rx r = keptType rx existing r.rule := by
      unfold effectiveType
      rw [htype r hr]
      split
      · rfl
      · next hnil => rw [keptType_eq_nil (not_not.mp hnil), not_not.mp hnil]
    rw [sameRulesKey, heff]
  have hmap : rules.map (sameRulesKey rx) =
      (entries list).eraseDups.map fun t => ruleKey (keptType rx existing t) t := by
    rw [← htexts, List.map_map]
    exact List.map_congr_left hkey
  rw [hmap, List.nodup_map_iff_inj_on (nodup_eraseDups _)]
  unfold KeysApart
  simp only [List.mem_eraseDups]

/-- The rules that a refresh returns: the entries of the list in order, each with what its first
existing rule says. The same list again gives the same rules, and the comparison says so exactly
when no two of them have one key. -/
theorem refreshRules_exact (rx : Bytes → Bool) (list : Bytes) {existing : List SubRule}
    {draws : List Id} (hids : (existing.map SubRule.id).Nodup)
    (hnonzero : ∀ r ∈ existing, r.id ≠ ⟨0, 0, 0, 0⟩)
    (hdraws : ∀ d ∈ draws, d ≠ ⟨0, 0, 0, 0⟩ ∧ d ∉ existing.map SubRule.id)
    (henough : (entries list).eraseDups.length ≤ draws.toFinset.card) :
    ∃ rules, refreshRules rx list existing draws = some rules ∧
      rules.map SubRule.rule = (entries list).eraseDups ∧
      (∀ r ∈ rules, ∀ cur, existing.find? (·.rule = r.rule) = some cur →
        r.id = cur.id ∧ r.enable = cur.enable ∧ (cur.type ≠ [] → r.type = cur.type)) ∧
      (rules.map SubRule.id).Nodup ∧
      ∀ draws' : List Id, (entries list).eraseDups.length ≤ draws'.toFinset.card →
        ∃ rules', refreshRules rx list rules draws' = some rules' ∧
          (sameRules rx rules rules' = true ↔ KeysApart rx existing list) := by
  obtain ⟨parsed, rest, hparse⟩ := @parseRules_isSome rx list draws henough
  have hp := isParsed_of_parseRules hparse
  have htexts : (parsed.map SubRule.rule).Nodup := hp.texts ▸ nodup_eraseDups _
  have hne : ∀ p ∈ parsed, p.rule ≠ [] := by
    intro p hpin
    refine @ne_nil_of_mem_entries list _ (List.mem_eraseDups.mp ?_)
    rw [← hp.texts]
    exact List.mem_map_of_mem hpin
  have hinj : ∀ p ∈ parsed, ∀ p' ∈ parsed,
      (carryOver existing p).id = (carryOver existing p').id → p = p' :=
    fun p hpin p' hpin' hid => carryOver_id_inj hids htexts hp.nodup
      (fun r hr => (hdraws r.id (hp.drawn r hr)).2) hpin hpin' hid
  have hzero : ∀ p ∈ parsed, (carryOver existing p).id ≠ ⟨0, 0, 0, 0⟩ := by
    intro p hpin
    cases hcur : current existing p.rule with
    | none =>
      rw [carryOver_of_none hcur]
      exact (hdraws p.id (hp.drawn p hpin)).1
    | some cur =>
      rw [carryOver_of_some hcur]
      exact hnonzero cur (current_spec hcur).1
  have hrules : (parsed.map (carryOver existing)).map SubRule.rule = (entries list).eraseDups := by
    rw [List.map_map, ← hp.texts]
    exact List.map_congr_left fun p _ => carryOver_rule existing p
  have hnodup : ((parsed.map (carryOver existing)).map SubRule.id).Nodup := by
    rw [List.map_map]
    exact (List.Nodup.of_map _ hp.nodup).map_on hinj
  have htype : ∀ r ∈ parsed.map (carryOver existing), r.type = keptType rx existing r.rule := by
    intro r hr
    obtain ⟨p, hpin, rfl⟩ := List.mem_map.mp hr
    rw [carryOver_rule, carryOver_type (hp.fields p hpin).1 (hne p hpin)]
  have hsettled : Settled rx list (parsed.map (carryOver existing)) := by
    refine ⟨hrules, hnodup, fun r hr => ?_, fun r hr hnil => ?_⟩
    · obtain ⟨p, hpin, rfl⟩ := List.mem_map.mp hr
      exact hzero p hpin
    · exact keptType_eq_nil ((htype r hr).symm.trans hnil)
  refine ⟨_, refreshRules_eq hparse hzero hinj, hrules, fun r hr cur hcur => ?_, hnodup,
    fun draws' henough' => ?_⟩
  · obtain ⟨p, hpin, rfl⟩ := List.mem_map.mp hr
    rw [carryOver_rule, ← current_eq_find? (hne p hpin)] at hcur
    rw [carryOver_of_some hcur]
    exact ⟨rfl, rfl, fun hty => if_pos hty⟩
  · obtain ⟨parsed', rest', hparse'⟩ := @parseRules_isSome rx list draws' henough'
    refine ⟨_, hsettled.refreshRules_again hparse', ?_⟩
    rw [sameRules_self_iff hnodup]
    exact keys_nodup_iff hrules htype

/-- Two rules of the user with the key `a|b|c`. -/
def oneKey : List SubRule :=
  [⟨⟨0, 0, 0, 1⟩, str "c", str "a|b", true⟩, ⟨⟨0, 0, 0, 2⟩, str "b|c", str "a", true⟩]

theorem refreshed_rules_seem_changed :
    (oneKey.map SubRule.id).Nodup ∧ (∀ r ∈ oneKey, r.id ≠ ⟨0, 0, 0, 0⟩) ∧
      ∃ rules rules', refreshRules (fun _ => true) (str "c\nb|c") oneKey
          [⟨0, 0, 0, 3⟩, ⟨0, 0, 0, 4⟩] = some rules ∧
        refreshRules (fun _ => true) (str "c\nb|c") rules [⟨0, 0, 0, 3⟩, ⟨0, 0, 0, 4⟩] =
          some rules' ∧
        sameRules (fun _ => true) rules rules' = false := by
  refine ⟨by decide, by decide, oneKey, oneKey, ?_, ?_, ?_⟩ <;> decide +kernel

theorem refreshRules_exact_two :
    ∃ rules, refreshRules (fun _ => true) (str "example.com\nsub.example.net\n")
        [⟨⟨0xaa, 0xbb, 0xcc, 0xdd⟩, str "example.com", str "domain", false⟩]
        [⟨1, 0, 0, 0⟩, ⟨2, 0, 0, 0⟩] = some rules ∧
      rules.map SubRule.rule = [str "example.com", str "sub.example.net"] := by
  obtain ⟨rules, hrefresh, htexts, -⟩ := @refreshRules_exact (fun _ => true)
    (str "example.com\nsub.example.net\n")
    [⟨⟨0xaa, 0xbb, 0xcc, 0xdd⟩, str "example.com", str "domain", false⟩]
    [⟨1, 0, 0, 0⟩, ⟨2, 0, 0, 0⟩] (by decide) (by decide) (by decide) (by decide +kernel)
  refine ⟨rules, hrefresh, htexts.trans ?_⟩
  decide +kernel

end MagiTrickle.Subscriptions
