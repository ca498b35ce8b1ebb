import MagiTrickle.Rules.MatchIndex
import Mathlib.Data.List.Dedup

/-!
# The hash set and the trie on their own

`exactSet_exact`: the hash set of exact names is a set, and every probe of it
ends. `nsTrie_exact`: the trie compares names label by label, where the labels
are the parts between the dots from right to left (`dotLabels`), and the loops
visit just these (`labelsBefore_length`).
-/

namespace MagiTrickle.Rules

open MagiTrickle.Lib

/-! ## The hash set -/

/-- The set that an insertion probes: it grows first if it has to. -/
def exactSetRoom (set : ExactSet) : ExactSet :=
  if set.slots.length = 0 ∨ set.len * 4 ≥ set.slots.length * 3 then exactSetGrow set else set

def grownSlots (set : ExactSet) (ks : List Bytes) : List (Option Bytes) :=
  ks.foldl (OpenTable.place exactHash)
    (List.replicate (if set.slots.length = 0 then 16 else set.slots.length * 2) none)

/-- All probe loops on a set end at a slot: that of a lookup, that of an insertion, and those of
growing, which place the keys one after the other. -/
structure ExactSet.ProbesEnd (set : ExactSet) : Prop where
  contains : set.slots ≠ [] → ∀ s,
    (OpenTable.lookup exactHash set.slots (fun x => decide (x = s)) s).isSome
  insert : ∀ s,
    (OpenTable.lookup exactHash (exactSetRoom set).slots (fun x => decide (x = s)) s).isSome
  grow : ∀ ks k, ks ++ [k] <+: OpenTable.keys set.slots →
    (OpenTable.lookup exactHash (grownSlots set ks) (fun _ => false) k).isSome

section Probes

variable {set : ExactSet}

theorem ExactSet.WF.free (h : set.WF) (hne : set.slots ≠ []) :
    none ∈ set.slots ∧ ∃ e, set.slots.length = 2 ^ e := by
  obtain ⟨e, he⟩ : ∃ e, set.slots.length = 2 ^ (e + 4) := by
    rcases h.cap with ⟨hs, -⟩ | he
    · exact absurd hs hne
    · exact he
  have hpos := Nat.two_pow_pos (e + 4)
  have hload := h.load
  have hlen := h.len_eq
  exact ⟨OpenTable.free_of_length_lt (by omega), e + 4, he⟩

theorem lookup_of_wf (h : set.WF) (hne : set.slots ≠ []) (stop : Bytes → Bool) (s : Bytes) :
    (OpenTable.lookup exactHash set.slots stop s).isSome := by
  obtain ⟨hfree, e, he⟩ := h.free hne
  obtain ⟨i, hi⟩ := OpenTable.lookup_isSome exactHash he hfree stop s
  rw [hi]
  rfl

theorem wf_exactSetRoom (h : set.WF) :
    (exactSetRoom set).WF ∧ (exactSetRoom set).slots ≠ [] := by
  unfold exactSetRoom
  split
  · obtain ⟨hw, hne, -⟩ := exactSetGrow_spec h
    exact ⟨hw, hne⟩
  · next hc =>
    simp only [not_or, List.length_eq_zero_iff] at hc
    exact ⟨h, hc.1⟩

/-- While growing places the keys, the new table has more slots than keys. -/
theorem lookup_grownSlots (h : set.WF) {ks : List Bytes} {k : Bytes}
    (hks : ks ++ [k] <+: OpenTable.keys set.slots) :
    (OpenTable.lookup exactHash (grownSlots set ks) (fun _ => false) k).isSome := by
  have hnd : ks.Nodup :=
    (((OpenTable.nodup_keys h.found).sublist hks.sublist).sublist (List.sublist_append_left ..))
  have hlen := hks.length_le
  rw [List.length_append, List.length_singleton] at hlen
  have hload := h.load
  rw [h.len_eq] at hload
  obtain ⟨e, he, hroom⟩ : ∃ e, (if set.slots.length = 0 then 16 else set.slots.length * 2) = 2 ^ e ∧
      ks.length < 2 ^ e := by
    rcases h.cap with ⟨hs, -⟩ | ⟨e, he⟩
    · rw [hs] at hlen
      exact absurd hlen (by simp [OpenTable.keys])
    · have hpos := Nat.two_pow_pos (e + 4)
      refine ⟨e + 4 + 1, ?_, ?_⟩
      · rw [if_neg (by omega), he, Nat.pow_succ 2 (e + 4)]
      · rw [Nat.pow_succ 2 (e + 4)]
        omega
  obtain ⟨hsize, -, hperm⟩ := OpenTable.foldl_place_spec (List.replicate (2 ^ e) none) ks
    List.length_replicate (OpenTable.found_replicate_none exactHash _) hnd
    (fun x _ => by simp [OpenTable.keys_replicate_none])
    (by rw [OpenTable.keys_replicate_none, List.length_replicate, List.length_nil]; omega)
  rw [OpenTable.keys_replicate_none, List.append_nil] at hperm
  rw [List.length_replicate] at hsize
  have hfree : none ∈ ks.foldl (OpenTable.place exactHash) (List.replicate (2 ^ e) none) := by
    refine OpenTable.free_of_length_lt ?_
    rw [hperm.length_eq, hsize]
    exact hroom
  obtain ⟨i, hi⟩ := OpenTable.lookup_isSome exactHash hsize hfree (fun _ => false) k
  rw [grownSlots, he, hi]
  rfl

theorem probesEnd_of_wf (h : set.WF) : set.ProbesEnd where
  contains hne s := lookup_of_wf h hne _ s
  insert s := lookup_of_wf (wf_exactSetRoom h).1 (wf_exactSetRoom h).2 _ s
  grow _ _ hks := lookup_grownSlots h hks

end Probes

/-- After any insertions: what is contained, how many strings are counted, that a slot is free, and
that the next probe ends, whatever it looks for. -/
theorem exactSet_exact (ss : List Bytes) :
    (∀ s, exactSetContains (ss.foldl exactSetInsert ⟨[], 0⟩) s = true ↔ s ∈ ss) ∧
      (ss.foldl exactSetInsert ⟨[], 0⟩).len = ss.dedup.length ∧
      ((ss.foldl exactSetInsert ⟨[], 0⟩).slots ≠ [] →
        none ∈ (ss.foldl exactSetInsert ⟨[], 0⟩).slots) ∧
      (ss.foldl exactSetInsert ⟨[], 0⟩).ProbesEnd := by
  obtain ⟨hw, hk⟩ := exactSetInsert_foldl ss ExactSet.wf_empty
  refine ⟨exactSetContains_foldl ss, ?_, fun hne => (hw.free hne).1, probesEnd_of_wf hw⟩
  have hperm : (OpenTable.keys (ss.foldl exactSetInsert ⟨[], 0⟩).slots).Perm ss.dedup := by
    rw [List.perm_ext_iff_of_nodup (OpenTable.nodup_keys hw.found) (ss.nodup_dedup)]
    intro x
    rw [hk, List.mem_dedup]
    simp [OpenTable.keys]
  rw [hw.len_eq, hperm.length_eq]

/-! ## The walk over a name -/

/-- The inner loops: the start of the label that ends before `e`. -/
def labelStart (s : Bytes) : Nat → Nat
  | 0 => 0
  | e + 1 => if s[e]? = some dot then e + 1 else labelStart s e

theorem labelStart_le (s : Bytes) (e : Nat) : labelStart s e ≤ e := by
  induction e with
  | zero => exact Nat.le_refl 0
  | succ e ih =>
    unfold labelStart
    split
    · exact Nat.le_refl _
    · omega

/-- The outer loops of `ns_trie_insert` and `ns_trie_match`: the labels they visit, from `e`. -/
def labelsBefore (s : Bytes) (e : Nat) : List Bytes :=
  if e = 0 then []
  else (s.take e).drop (labelStart s e) :: labelsBefore s (labelStart s e - 1)
termination_by e
decreasing_by
  have := labelStart_le s e
  omega

/-- The scan of the reversed text sees the label that is begun, and then the labels before it. -/
theorem labelsFrom_take (s : Bytes) (e e' : Nat) (hle : e ≤ e') (hlen : e' ≤ s.length)
    (hpos : 0 < e') :
    labelsFrom ((s.take e').drop e) (s.take e).reverse =
      (s.take e').drop (labelStart s e) :: labelsBefore s (labelStart s e - 1) := by
  induction e generalizing e' with
  | zero => simp [labelsFrom, labelStart, labelsBefore]
  | succ e ih =>
    have he : e < s.length := by omega
    have htake : (s.take (e + 1)).reverse = s[e] :: (s.take e).reverse := by
      rw [List.take_succ_eq_append_getElem he, List.reverse_append]
      rfl
    rw [htake, labelsFrom, labelStart, List.getElem?_eq_getElem he]
    by_cases hdot : s[e] = dot
    · rw [if_pos hdot, if_pos (congrArg some hdot), Nat.add_sub_cancel]
      congr 1
      -- the next label ends at the dot
      by_cases hzero : e = 0
      · subst hzero
        simp [labelsBefore]
      · have hne : ¬ (s.take e).reverse = [] := by
          rw [List.reverse_eq_nil_iff, ← List.length_eq_zero_iff, List.length_take]
          omega
        have hstep := ih e (Nat.le_refl e) (by omega) (by omega)
        rw [List.drop_take_self] at hstep
        rw [if_neg hne, hstep]
        conv_rhs => rw [labelsBefore, if_neg hzero]
    · rw [if_neg hdot, if_neg fun h => hdot (Option.some.inj h)]
      have hdrop : s[e] :: (s.take e').drop (e + 1) = (s.take e').drop e := by
        have hlt : e < (s.take e').length := by
          rw [List.length_take]
          omega
        rw [List.drop_eq_getElem_cons hlt, List.getElem_take]
      rw [hdrop]
      exact ih e' (by omega) hlen hpos

theorem labelsBefore_length (s : Bytes) : labelsBefore s s.length = labels s := by
  unfold labels labelsBefore
  by_cases hs : s = []
  · rw [if_pos hs, if_pos (List.length_eq_zero_iff.mpr hs)]
  · have hpos := List.length_pos_iff.mpr hs
    have hscan := labelsFrom_take s s.length s.length (Nat.le_refl _) (Nat.le_refl _) hpos
    rw [List.drop_take_self, List.take_length] at hscan
    rw [if_neg hs, if_neg (by omega), hscan, List.take_length]

/-! ## Labels as parts -/

/-- The parts of a name between its dots from right to left, without the last one if it is
empty. -/
def dotLabels (s : Bytes) : List Bytes :=
  if (s.splitOn dot).reverse.getLast? = some [] then (s.splitOn dot).reverse.dropLast
  else (s.splitOn dot).reverse

/-- A letter in front of the text goes to its first part, the last one from right to left. -/
theorem segs_append_letter (acc u : Bytes) {c : UInt8} (hc : c ≠ dot) :
    (segs acc (u ++ [c])).reverse = (segs acc u).reverse.modifyHead (c :: ·) := by
  induction u generalizing acc with
  | nil => simp [segs, hc]
  | cons d u ih =>
    rw [List.cons_append, segs, segs]
    by_cases hd : d = dot
    · rw [if_pos hd, if_pos hd, List.reverse_cons, List.reverse_cons, ih]
      obtain ⟨l, ls, hls⟩ := List.exists_cons_of_ne_nil
        (show (segs [] u).reverse ≠ [] by simpa using segs_ne_nil [] u)
      rw [hls]
      rfl
    · rw [if_neg hd, if_neg hd, ih]

theorem splitOn_eq_segs (s : Bytes) : s.splitOn dot = (segs [] s.reverse).reverse := by
  induction s with
  | nil => rfl
  | cons c s ih =>
    rw [List.splitOn, List.splitOnP_cons_eq_if_modifyHead, List.reverse_cons]
    by_cases hc : c = dot
    · rw [if_pos (by simp [hc]), hc, show s.reverse ++ [dot] = s.reverse ++ dot :: [] from rfl,
        segs_append, List.reverse_append, ← ih]
      rfl
    · rw [if_neg (by simp [hc]), segs_append_letter _ _ hc, ← ih]
      rfl

theorem labels_eq_dotLabels (s : Bytes) : labels s = dotLabels s := by
  unfold dotLabels
  rw [splitOn_eq_segs, List.reverse_reverse]
  cases s with
  | nil => rfl
  | cons c s =>
    rw [List.reverse_cons]
    by_cases hc : c = dot
    · have hparts : segs [] (s.reverse ++ [c]) = segs [] s.reverse ++ [[]] := by
        rw [hc, show s.reverse ++ [dot] = s.reverse ++ dot :: [] from rfl, segs_append]
        rfl
      rw [hparts, List.getLast?_concat, if_pos rfl, List.dropLast_concat, hc, labels_dot_cons]
    · have hlast : (segs [] (s.reverse ++ [c])).getLast? ≠ some [] := by
        rw [← List.head?_reverse, segs_append_letter _ _ hc]
        cases (segs [] s.reverse).reverse <;> simp
      rw [if_neg hlast, labels_of_head_ne (List.cons_ne_nil _ _) (by simpa using hc),
        List.reverse_cons]

/-- The trie decides whether the labels of some rule begin those of the name; the empty rule stands
for the empty name and those that end with a dot. -/
theorem nsTrie_exact (rs : List Bytes) (d : Bytes) :
    nsTrieMatch (rs.foldl nsTrieInsert ⟨.nil, false⟩) d = true ↔
      (∃ r ∈ rs, r ≠ [] ∧ dotLabels r <+: dotLabels d) ∨
        ([] ∈ rs ∧ (d = [] ∨ d.getLast? = some dot)) := by
  rw [nsTrieMatch_labels, List.length_eq_zero_iff]
  simp only [labels_eq_dotLabels]

end MagiTrickle.Rules
