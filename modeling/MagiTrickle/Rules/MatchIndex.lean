import MagiTrickle.Rules.Match
import Mathlib.Tactic.Tauto

/-!
# The group index against the single-rule matcher

`exactSetContains_foldl` says what the hash set holds, `nsTrieMatch_foldl` what
the trie decides, and `matcherMatch_iff` puts the index together: it answers as
some added rule does on its own, or as a namespace rule with a leading dot does
in the trie, which drops that dot (`DotCovers`).
-/

namespace MagiTrickle.Rules

open MagiTrickle.Lib

/-! ## The hash set -/

/-- Keys are found, the counter is exact, and the load stays at three quarters. -/
structure ExactSet.WF (set : ExactSet) : Prop where
  cap : (set.slots = [] ∧ set.len = 0) ∨ ∃ e, set.slots.length = 2 ^ (e + 4)
  found : OpenTable.Found exactHash set.slots
  len_eq : set.len = (OpenTable.keys set.slots).length
  load : set.len * 4 ≤ set.slots.length * 3

theorem ExactSet.wf_empty : ExactSet.WF ⟨[], 0⟩ where
  cap := .inl ⟨rfl, rfl⟩
  found := fun i k h => by simp at h
  len_eq := rfl
  load := by simp

theorem exactSetGrow_spec {set : ExactSet} (h : set.WF) :
    (exactSetGrow set).WF ∧ (exactSetGrow set).slots ≠ [] ∧
      (exactSetGrow set).len * 4 < (exactSetGrow set).slots.length * 3 ∧
      (OpenTable.keys (exactSetGrow set).slots).Perm (OpenTable.keys set.slots) := by
  obtain ⟨e, he, hroom⟩ : ∃ e, (if set.slots.length = 0 then 16 else set.slots.length * 2) =
      2 ^ (e + 4) ∧ (OpenTable.keys set.slots).length * 4 < 2 ^ (e + 4) * 3 := by
    have hl := h.load
    rw [h.len_eq] at hl
    rcases h.cap with ⟨hs, -⟩ | ⟨e, he⟩
    · exact ⟨0, by simp [hs], by simp [hs, OpenTable.keys]⟩
    · have hpos := Nat.two_pow_pos (e + 4)
      refine ⟨e + 1, ?_, ?_⟩
      · rw [if_neg (by omega), he, show e + 1 + 4 = e + 4 + 1 by omega, Nat.pow_succ _ (e + 4)]
      · rw [show e + 1 + 4 = e + 4 + 1 by omega, Nat.pow_succ]
        omega
  obtain ⟨hlen, hf, hp⟩ := OpenTable.found_rehash (e + 4) h.found (by omega)
  have hpl := hp.length_eq
  have hpos := Nat.two_pow_pos (e + 4)
  unfold exactSetGrow
  rw [he]
  refine ⟨⟨.inr ⟨e, hlen⟩, hf, hpl.symm, ?_⟩, ?_, ?_, hp⟩
  · simp only [hlen]; omega
  · intro hnil
    simp only at hnil
    rw [hnil] at hlen
    simp only [List.length_nil] at hlen
    omega
  · simp only [hlen]; exact hroom

theorem exactSetPut_spec {set : ExactSet} (h : set.WF) (hne : set.slots ≠ [])
    (hroom : set.len * 4 < set.slots.length * 3) (s : Bytes) :
    (exactSetPut set s).WF ∧ ∀ x, x ∈ OpenTable.keys (exactSetPut set s).slots ↔
      x = s ∨ x ∈ OpenTable.keys set.slots := by
  obtain ⟨e, he⟩ : ∃ e, set.slots.length = 2 ^ (e + 4) := by
    rcases h.cap with ⟨hs, -⟩ | he
    · exact absurd hs hne
    · exact he
  have hlen := h.len_eq
  have hfree : none ∈ set.slots := OpenTable.free_of_length_lt (by omega)
  obtain ⟨i, hi⟩ := OpenTable.lookup_isSome exactHash he hfree (fun x => decide (x = s)) s
  have hmem := OpenTable.probe_mem_iff h.found hi
  unfold exactSetPut
  simp only [hi]
  by_cases hs : s ∈ OpenTable.keys set.slots
  · rw [if_pos (hmem.mpr hs)]
    refine ⟨h, fun x => ⟨.inr, ?_⟩⟩
    rintro (rfl | hx)
    · exact hs
    · exact hx
  · rw [if_neg (fun hh => hs (hmem.mp hh))]
    have hif := OpenTable.probe_free he hs hi
    have hp := OpenTable.keys_set_perm (k := s) hif
    refine ⟨⟨.inr ⟨e, by simpa using he⟩, OpenTable.found_set h.found hi hif, ?_, ?_⟩, fun x => ?_⟩
    · simpa [hlen] using hp.length_eq.symm
    · rw [Nat.pow_add] at he
      simp only [List.length_set]
      omega
    · rw [hp.mem_iff, List.mem_cons]

theorem exactSetInsert_spec {set : ExactSet} (h : set.WF) (s : Bytes) :
    (exactSetInsert set s).WF ∧ ∀ x, x ∈ OpenTable.keys (exactSetInsert set s).slots ↔
      x = s ∨ x ∈ OpenTable.keys set.slots := by
  unfold exactSetInsert
  split
  · obtain ⟨hw, hne, hroom, hp⟩ := exactSetGrow_spec h
    obtain ⟨hw', hk⟩ := exactSetPut_spec hw hne hroom s
    exact ⟨hw', fun x => by rw [hk, hp.mem_iff]⟩
  · next hc =>
    simp only [not_or, ge_iff_le, not_le, List.length_eq_zero_iff] at hc
    exact exactSetPut_spec h hc.1 hc.2 s

theorem exactSetContains_iff {set : ExactSet} (h : set.WF) (s : Bytes) :
    exactSetContains set s = true ↔ s ∈ OpenTable.keys set.slots := by
  unfold exactSetContains
  rcases h.cap with ⟨hs, -⟩ | ⟨e, he⟩
  · simp [hs, OpenTable.keys]
  · have hpos := Nat.two_pow_pos (e + 4)
    have hload := h.load
    have hlen := h.len_eq
    have hfree : none ∈ set.slots := OpenTable.free_of_length_lt (by omega)
    obtain ⟨i, hi⟩ := OpenTable.lookup_isSome exactHash he hfree (fun x => decide (x = s)) s
    rw [if_neg (by omega)]
    simp only [hi, decide_eq_true_eq]
    exact OpenTable.probe_mem_iff h.found hi

theorem exactSetInsert_foldl (ss : List Bytes) {set : ExactSet} (h : set.WF) :
    (ss.foldl exactSetInsert set).WF ∧
      ∀ x, x ∈ OpenTable.keys (ss.foldl exactSetInsert set).slots ↔
        x ∈ ss ∨ x ∈ OpenTable.keys set.slots := by
  induction ss generalizing set with
  | nil => simpa using h
  | cons y ss ih =>
    obtain ⟨hw, hk⟩ := exactSetInsert_spec h y
    obtain ⟨hw', hk'⟩ := ih hw
    refine ⟨hw', fun x => ?_⟩
    rw [List.foldl_cons, hk', hk, List.mem_cons]
    tauto

theorem exactSetContains_foldl (ss : List Bytes) (s : Bytes) :
    exactSetContains (ss.foldl exactSetInsert ⟨[], 0⟩) s = true ↔ s ∈ ss := by
  obtain ⟨hw, hk⟩ := exactSetInsert_foldl ss ExactSet.wf_empty
  rw [exactSetContains_iff hw, hk]
  simp [OpenTable.keys]

/-! ## Labels -/

def segs : Bytes → Bytes → List Bytes
  | acc, [] => [acc]
  | acc, c :: cs => if c = dot then acc :: segs [] cs else segs (c :: acc) cs

def unsegs (ls : List Bytes) : Bytes := List.intercalate [dot] (ls.map List.reverse)

theorem segs_ne_nil (acc u : Bytes) : segs acc u ≠ [] := by
  induction u generalizing acc with
  | nil => simp [segs]
  | cons c u ih =>
    unfold segs
    split
    · simp
    · exact ih _

theorem unsegs_cons (l : Bytes) {ls : List Bytes} (h : ls ≠ []) :
    unsegs (l :: ls) = l.reverse ++ dot :: unsegs ls := by
  cases ls with
  | nil => exact absurd rfl h
  | cons m ls => simp [unsegs, List.intercalate]

theorem unsegs_append {as bs : List Bytes} (ha : as ≠ []) (hb : bs ≠ []) :
    unsegs (as ++ bs) = unsegs as ++ dot :: unsegs bs := by
  induction as with
  | nil => exact absurd rfl ha
  | cons a as ih =>
    cases as with
    | nil => rw [List.singleton_append, unsegs_cons a hb]; simp [unsegs, List.intercalate]
    | cons a' as =>
      rw [List.cons_append, unsegs_cons a (by simp), ih (by simp), unsegs_cons a (by simp)]
      simp

theorem unsegs_segs (acc u : Bytes) : unsegs (segs acc u) = acc.reverse ++ u := by
  induction u generalizing acc with
  | nil => simp [segs, unsegs, List.intercalate]
  | cons c u ih =>
    unfold segs
    split
    · next hc => rw [unsegs_cons _ (segs_ne_nil _ _), ih, hc]; simp
    · rw [ih]; simp

theorem segs_append (acc u v : Bytes) : segs acc (u ++ dot :: v) = segs acc u ++ segs [] v := by
  induction u generalizing acc with
  | nil => simp [segs]
  | cons c u ih =>
    by_cases hc : c = dot
    · simp [segs, hc, ih]
    · simp [segs, hc, ih]

/-- One list of parts begins another exactly when the texts agree up to a dot or the end. -/
theorem segs_prefix_iff (u v : Bytes) :
    segs [] u <+: segs [] v ↔ u = v ∨ (u ++ [dot]) <+: v := by
  constructor
  · rintro ⟨t, ht⟩
    have hv := unsegs_segs [] v
    rw [← ht] at hv
    cases t with
    | nil => left; simpa [unsegs_segs] using hv
    | cons a t =>
      right
      rw [unsegs_append (segs_ne_nil _ _) (by simp), unsegs_segs] at hv
      exact ⟨unsegs (a :: t), by simpa using hv⟩
  · rintro (rfl | ⟨t, rfl⟩)
    · exact List.prefix_refl _
    · rw [List.append_assoc, List.singleton_append, segs_append]
      exact List.prefix_append _ _

/-- The scan of a name without a leading dot sees all its parts. -/
theorem labelsFrom_eq_segs (acc u : Bytes) (h : u.getLast? ≠ some dot) :
    labelsFrom acc u = segs acc u := by
  induction u generalizing acc with
  | nil => rfl
  | cons c u ih =>
    unfold labelsFrom segs
    split
    · next hc =>
      cases u with
      | nil => simp [hc] at h
      | cons d u => rw [if_neg (by simp), ih [] (by simpa using h)]
    · cases u with
      | nil => rfl
      | cons d u => exact ih _ (by simpa using h)

/-- The scan of a name with a leading dot does not see the empty part before it. -/
theorem labelsFrom_append_dot (acc u : Bytes) : labelsFrom acc (u ++ [dot]) = segs acc u := by
  induction u generalizing acc with
  | nil => simp [labelsFrom, segs]
  | cons c u ih =>
    rw [List.cons_append]
    unfold labelsFrom segs
    split
    · rw [if_neg (by simp), ih]
    · exact ih _

theorem labels_of_head_ne {s : Bytes} (h0 : s ≠ []) (h : s.head? ≠ some dot) :
    labels s = segs [] s.reverse := by
  rw [labels, if_neg h0]
  exact labelsFrom_eq_segs _ _ (by simpa using h)

theorem labels_dot_cons (x : Bytes) : labels (dot :: x) = segs [] x.reverse := by
  rw [labels, if_neg (by simp), List.reverse_cons]
  exact labelsFrom_append_dot _ _

theorem labels_ne_nil {s : Bytes} (h : s ≠ []) : labels s ≠ [] := by
  by_cases hd : s.head? = some dot
  · cases s with
    | nil => exact absurd rfl h
    | cons c s =>
      simp only [List.head?_cons, Option.some.injEq] at hd
      rw [hd, labels_dot_cons]
      exact segs_ne_nil _ _
  · rw [labels_of_head_ne h hd]
    exact segs_ne_nil _ _

/-! ## Namespaces -/

theorem segs_reverse_prefix_iff (r d : Bytes) :
    segs [] r.reverse <+: segs [] d.reverse ↔ d = r ∨ (dot :: r) <:+ d := by
  rw [segs_prefix_iff, List.reverse_inj, ← List.reverse_cons, List.reverse_prefix, eq_comm]

theorem namespaceMatch_iff (r d : Bytes) :
    namespaceMatch r d = true ↔ d = r ∨ (dot :: r) <:+ d := by
  unfold namespaceMatch
  split
  · next h => simp [h.2]
  · next h =>
    have hne : d ≠ r := fun e => h ⟨by rw [e], e⟩
    split
    · next hlt =>
      simp only [Bool.false_eq_true, hne, false_or, false_iff]
      intro hs
      have := hs.length_le
      simp only [List.length_cons] at this
      omega
    · next hge =>
      simp only [decide_eq_true_eq, hne, false_or]
      constructor
      · rintro ⟨hdot, hdrop⟩
        refine ⟨d.take (d.length - r.length - 1), ?_⟩
        rw [← hdrop]
        conv_rhs => rw [← List.take_append_drop (d.length - r.length - 1) d]
        have hlt : d.length - r.length - 1 < d.length := by omega
        rw [List.drop_eq_getElem_cons hlt,
          show d.length - r.length - 1 + 1 = d.length - r.length by omega]
        rw [List.getElem?_eq_getElem hlt, Option.some.injEq] at hdot
        rw [hdot, hdrop]
      · rintro ⟨t, rfl⟩
        have hl : (t ++ dot :: r).length - r.length = t.length + 1 := by simp; omega
        rw [hl]
        simp

/-- What the trie answers for the namespace rule `r` beyond the single-rule matcher: the rule's
leading dot is dropped, so the rule also covers its remainder and every name that ends in `r`. -/
def DotCovers (r d : Bytes) : Prop :=
  ∃ x, r = dot :: x ∧ (r <:+ d ∨ (d = x ∧ x ≠ [] ∧ x.head? ≠ some dot))

/-- The trie entry of a non-empty rule against the single-rule matcher. -/
theorem labels_prefix_iff {r : Bytes} (hr : r ≠ []) (d : Bytes) :
    labels r <+: labels d ↔ namespaceMatch r d = true ∨ DotCovers r d := by
  rw [namespaceMatch_iff]
  rcases r with _ | ⟨c, x⟩
  · exact absurd rfl hr
  rcases d with _ | ⟨c', d⟩
  · -- the empty name has no labels
    have : ¬ labels (c :: x) <+: labels [] := by
      simpa [labels] using labels_ne_nil hr
    simp only [this, false_iff, not_or]
    refine ⟨⟨by simp, by simp⟩, ?_⟩
    rintro ⟨x', hx', h | ⟨h, hne, -⟩⟩
    · simp at h
    · exact hne h.symm
  by_cases hc : c = dot
  · subst hc
    rw [labels_dot_cons]
    by_cases hc' : c' = dot
    · subst hc'
      rw [labels_dot_cons, segs_reverse_prefix_iff]
      simp only [DotCovers, List.cons.injEq, true_and, exists_eq_left', List.suffix_cons_iff]
      constructor
      · rintro (rfl | h)
        · exact .inl (.inl rfl)
        · exact .inr (.inl (.inr h))
      · rintro ((rfl | h) | (rfl | h) | ⟨h, -, hh⟩)
        · exact .inl rfl
        · rcases h with rfl | h
          · exact .inr (List.suffix_refl _)
          · exact .inr ((List.suffix_cons _ _).trans h)
        · exact .inl rfl
        · exact .inr h
        · simp [← h] at hh
    · rw [labels_of_head_ne (by simp) (by simpa using hc'), segs_reverse_prefix_iff]
      simp only [DotCovers, List.cons.injEq, true_and, exists_eq_left']
      constructor
      · rintro (rfl | h)
        · exact .inr (.inr ⟨rfl, by simp, by simpa using hc'⟩)
        · exact .inr (.inl h)
      · rintro ((⟨h, -⟩ | h) | h | ⟨h, -⟩)
        · exact absurd h hc'
        · exact .inr ((List.suffix_cons _ _).trans h)
        · exact .inr h
        · exact .inl h
  · have hnd : ¬ DotCovers (c :: x) (c' :: d) := by
      rintro ⟨y, hy, -⟩
      exact hc (List.cons.inj hy).1
    simp only [hnd, or_false]
    rw [labels_of_head_ne hr (by simpa using hc)]
    by_cases hc' : c' = dot
    · subst hc'
      rw [labels_dot_cons, segs_reverse_prefix_iff, List.suffix_cons_iff]
      constructor
      · rintro (rfl | h)
        · exact .inr (.inl rfl)
        · exact .inr (.inr h)
      · rintro (h | h | h)
        · exact absurd (List.cons.inj h).1.symm hc
        · exact .inl (List.cons.inj h).2.symm
        · exact .inr h
    · rw [labels_of_head_ne (by simp) (by simpa using hc'), segs_reverse_prefix_iff]

theorem nsTrieInsert_foldl (rs : List Bytes) (t : NsTrie) :
    (rs.foldl nsTrieInsert t).root = (rs.map labels).foldl Forest.insert t.root ∧
      ((rs.foldl nsTrieInsert t).hasEmptyRule = true ↔ t.hasEmptyRule = true ∨ [] ∈ rs) := by
  induction rs generalizing t with
  | nil => simp
  | cons r rs ih =>
    obtain ⟨hroot, hempty⟩ := ih (nsTrieInsert t r)
    rw [List.foldl_cons, hroot, hempty, List.map_cons, List.foldl_cons, List.mem_cons]
    unfold nsTrieInsert
    rcases r with _ | ⟨c, r⟩
    · simp [labels, Forest.insert]
    · simp

/-- The trie of a list of rules compares labels; the empty rule is kept apart. -/
theorem nsTrieMatch_labels (rs : List Bytes) (d : Bytes) :
    nsTrieMatch (rs.foldl nsTrieInsert ⟨.nil, false⟩) d = true ↔
      (∃ r ∈ rs, r ≠ [] ∧ labels r <+: labels d) ∨
        ([] ∈ rs ∧ (d.length = 0 ∨ d.getLast? = some dot)) := by
  obtain ⟨hroot, hempty⟩ := nsTrieInsert_foldl rs ⟨.nil, false⟩
  have hwalk : (rs.foldl nsTrieInsert ⟨.nil, false⟩).root.walk (labels d) = true ↔
      ∃ r ∈ rs, r ≠ [] ∧ labels r <+: labels d := by
    rw [hroot, Forest.walk_iff]
    simp only [Forest.holds_foldl_insert, Forest.not_holds_empty, or_false, List.mem_map]
    constructor
    · rintro ⟨w, ⟨⟨r, hr, rfl⟩, hw⟩, hp⟩
      refine ⟨r, hr, ?_, hp⟩
      rintro rfl
      exact hw rfl
    · rintro ⟨r, hr, hne, h⟩
      exact ⟨labels r, ⟨⟨r, hr, rfl⟩, labels_ne_nil hne⟩, h⟩
  have hrule : (rs.foldl nsTrieInsert ⟨.nil, false⟩).hasEmptyRule = true ↔ [] ∈ rs := by
    simpa using hempty
  unfold nsTrieMatch
  split
  · next h => exact iff_of_true rfl (.inr ⟨hrule.mp h.1, h.2⟩)
  · next h =>
    rw [hwalk, or_iff_left]
    exact fun hr => h ⟨hrule.mpr hr.1, hr.2⟩

/-- The trie of a list of rules covers a name when one of the rules does, up to a leading dot. -/
theorem nsTrieMatch_foldl (rs : List Bytes) (d : Bytes) :
    nsTrieMatch (rs.foldl nsTrieInsert ⟨.nil, false⟩) d = true ↔
      ∃ r ∈ rs, namespaceMatch r d = true ∨ DotCovers r d := by
  have hnil : (d.length = 0 ∨ d.getLast? = some dot) ↔
      namespaceMatch [] d = true ∨ DotCovers [] d := by
    have : ¬ DotCovers [] d := by rintro ⟨x, hx, -⟩; cases hx
    rw [namespaceMatch_iff, List.length_eq_zero_iff, List.getLast?_eq_some_iff]
    simp only [this, or_false]
    exact or_congr Iff.rfl (exists_congr fun _ => eq_comm)
  rw [nsTrieMatch_labels, hnil]
  constructor
  · rintro (⟨r, hr, hne, hp⟩ | ⟨hr, h⟩)
    · exact ⟨r, hr, (labels_prefix_iff hne d).mp hp⟩
    · exact ⟨[], hr, h⟩
  · rintro ⟨r, hr, h⟩
    by_cases hne : r = []
    · exact .inr ⟨hne ▸ hr, hne ▸ h⟩
    · exact .inl ⟨r, hr, hne, (labels_prefix_iff hne d).mpr h⟩

/-! ## The index -/

def textsOf (k : RuleKind) (rules : List (Bytes × Bytes)) : List Bytes :=
  (rules.filter fun r => kindOf r.1 = k).map Prod.snd

def scanned (rules : List (Bytes × Bytes)) : List RuleMatcher :=
  (rules.filter fun r => kindOf r.1 = .rkWildcard ∨ kindOf r.1 = .rkRegex).map fun r =>
    ruleMatcherNew r.1 r.2

theorem matcherOf_eq (rules : List (Bytes × Bytes)) :
    matcherOf rules = ⟨(textsOf .rkDomain rules).foldl exactSetInsert ⟨[], 0⟩,
      (textsOf .rkNamespace rules).foldl nsTrieInsert ⟨.nil, false⟩, scanned rules⟩ := by
  have key : ∀ (rules : List (Bytes × Bytes)) (m : Matcher),
      rules.foldl (fun m r => matcherAdd m r.1 r.2) m =
        ⟨(textsOf .rkDomain rules).foldl exactSetInsert m.exact,
          (textsOf .rkNamespace rules).foldl nsTrieInsert m.ns, m.scan ++ scanned rules⟩ := by
    intro rules
    induction rules with
    | nil => intro m; simp [textsOf, scanned]
    | cons r rules ih =>
      intro m
      rw [List.foldl_cons, ih]
      unfold matcherAdd
      cases hk : kindOf r.1 <;> simp [textsOf, scanned, hk]
  exact key rules matcherNew

/-- The index answers as some added rule does alone, or as the trie does for a leading dot. -/
theorem matcherMatch_iff (rx : Bytes → Bytes → Bool) (rules : List (Bytes × Bytes)) (d : Bytes) :
    matcherMatch rx (matcherOf rules) d = true ↔
      (∃ r ∈ rules, ruleMatcherMatch rx (ruleMatcherNew r.1 r.2) d = true) ∨
      ∃ r ∈ rules, kindOf r.1 = .rkNamespace ∧ DotCovers r.2 d := by
  rw [matcherOf_eq, matcherMatch, Bool.or_eq_true, Bool.or_eq_true, exactSetContains_foldl,
    nsTrieMatch_foldl, List.any_eq_true]
  simp only [textsOf, scanned, List.mem_map, List.mem_filter, decide_eq_true_eq]
  constructor
  · rintro ((⟨r, ⟨hr, hk⟩, rfl⟩ | ⟨-, ⟨r, ⟨hr, hk⟩, rfl⟩, h⟩) | ⟨-, ⟨r, ⟨hr, hk⟩, rfl⟩, h⟩)
    · exact .inl ⟨r, hr, by simp [ruleMatcherMatch, ruleMatcherNew, hk]⟩
    · rcases h with h | h
      · exact .inl ⟨r, hr, by simpa [ruleMatcherMatch, ruleMatcherNew, hk] using h⟩
      · exact .inr ⟨r, hr, hk, h⟩
    · exact .inl ⟨r, hr, h⟩
  · rintro (⟨r, hr, h⟩ | ⟨r, hr, hk, h⟩)
    · -- each kind is looked up in its own part of the index
      cases hk : kindOf r.1 with
      | rkDomain =>
        simp only [ruleMatcherMatch, ruleMatcherNew, hk, decide_eq_true_eq] at h
        exact .inl (.inl ⟨r, ⟨hr, hk⟩, h.2.symm⟩)
      | rkNamespace =>
        simp only [ruleMatcherMatch, ruleMatcherNew, hk] at h
        exact .inl (.inr ⟨r.2, ⟨r, ⟨hr, hk⟩, rfl⟩, .inl h⟩)
      | rkWildcard => exact .inr ⟨_, ⟨r, ⟨hr, .inl hk⟩, rfl⟩, h⟩
      | rkRegex => exact .inr ⟨_, ⟨r, ⟨hr, .inr hk⟩, rfl⟩, h⟩
      | rkNever => simp [ruleMatcherMatch, ruleMatcherNew, hk] at h
    · exact .inl (.inr ⟨r.2, ⟨r, ⟨hr, hk⟩, rfl⟩, .inr h⟩)

/-- The index agrees with the single-rule matcher exactly where no namespace rule with a leading
dot covers the name in the trie alone. -/
theorem matcherMatch_eq_any_iff (rx : Bytes → Bytes → Bool) (rules : List (Bytes × Bytes))
    (d : Bytes) :
    (matcherMatch rx (matcherOf rules) d = true ↔
      ∃ r ∈ rules, ruleMatcherMatch rx (ruleMatcherNew r.1 r.2) d = true) ↔
    ((∃ r ∈ rules, kindOf r.1 = .rkNamespace ∧ DotCovers r.2 d) →
      ∃ r ∈ rules, ruleMatcherMatch rx (ruleMatcherNew r.1 r.2) d = true) := by
  rw [matcherMatch_iff]
  exact ⟨fun h hc => h.mp (.inr hc), fun h => ⟨fun hc => hc.elim id h, .inl⟩⟩

/-- The rule `.com` alone does not match `a.com`, its index does. -/
theorem matcherMatch_leading_dot :
    ¬ ∀ (rx : Bytes → Bytes → Bool) (rules : List (Bytes × Bytes)) (d : Bytes),
      matcherMatch rx (matcherOf rules) d = true ↔
        ∃ r ∈ rules, ruleMatcherMatch rx (ruleMatcherNew r.1 r.2) d = true := by
  intro h
  have := h (fun _ _ => false) [(str "namespace", str ".com")] (str "a.com")
  revert this
  decide

end MagiTrickle.Rules
