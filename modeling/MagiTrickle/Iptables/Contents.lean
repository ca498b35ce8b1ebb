import MagiTrickle.Iptables.Tables

/-!
# Contents as lists

`chainOf` reads tables as a map. As lists they are their `shape`, the names in
order, and that map (`eq_of_shape`). `Within` says that tables are part of
others: the same tables, with some of the chains in the order they had.
-/

namespace MagiTrickle.Iptables

open MagiTrickle.Lib

def shape (ts : Tables) : List (Bytes × List Bytes) :=
  ts.map fun t => (t.name, t.chains.map ChainRules.name)

section Shape

variable {ts ts' : Tables} {t : TableRules}

theorem chainOf_of_mem (h : ts.WF) (ht : t ∈ ts) {c : ChainRules} (hc : c ∈ t.chains) :
    chainOf ts t.name c.name = some c.rules := by
  rw [chainOf, Upsert.find?_of_nodup h.nodup ht, Option.bind_some,
    Upsert.find?_of_nodup (h.tables t ht).nodup hc]
  rfl

theorem isSome_chainOf_iff (h : ts.WF) (ht : t ∈ ts) (n : Bytes) :
    (chainOf ts t.name n).isSome ↔ n ∈ t.chains.map ChainRules.name := by
  constructor
  · intro hsome
    rw [chainOf, Upsert.find?_of_nodup h.nodup ht, Option.bind_some, Option.isSome_map] at hsome
    obtain ⟨c, hc⟩ := Option.isSome_iff_exists.mp hsome
    exact List.mem_map.mpr ⟨c, List.mem_of_find?_eq_some hc, by simpa using List.find?_some hc⟩
  · intro hn
    obtain ⟨c, hc, rfl⟩ := List.mem_map.mp hn
    rw [chainOf_of_mem h ht hc]
    rfl

theorem find?_of_isSome {n c : Bytes} (h : (chainOf ts n c).isSome) :
    ∃ t, ts.find? (fun t => t.name = n) = some t ∧ c ∈ t.chains.map ChainRules.name := by
  obtain ⟨rules, hrules⟩ := Option.isSome_iff_exists.mp h
  obtain ⟨t, ht, hrules⟩ := Option.bind_eq_some_iff.mp hrules
  obtain ⟨cr, hc, -⟩ := Option.map_eq_some_iff.mp hrules
  exact ⟨t, ht, List.mem_map.mpr ⟨cr, List.mem_of_find?_eq_some hc,
    by simpa using List.find?_some hc⟩⟩

theorem mem_names_of_isSome {n c : Bytes} (h : (chainOf ts n c).isSome) :
    n ∈ ts.map TableRules.name := by
  obtain ⟨t, ht, -⟩ := find?_of_isSome h
  exact List.mem_map.mpr ⟨t, List.mem_of_find?_eq_some ht, by simpa using List.find?_some ht⟩

theorem eq_of_shape (h : ts.WF) : ts = (shape ts).map fun s =>
    ⟨s.1, s.2.map fun n => ⟨n, (chainOf ts s.1 n).getD []⟩⟩ := by
  rw [shape, List.map_map]
  refine (List.map_id ts).symm.trans (List.map_congr_left fun t ht => ?_)
  have hchains : t.chains = (t.chains.map ChainRules.name).map
      fun n => ⟨n, (chainOf ts t.name n).getD []⟩ := by
    rw [List.map_map]
    refine (List.map_id t.chains).symm.trans (List.map_congr_left fun c hc => ?_)
    rw [Function.comp_apply, chainOf_of_mem h ht hc]
    rfl
  show t = ⟨t.name, _⟩
  rw [← hchains]

theorem ext_of_shape (h : ts.WF) (h' : ts'.WF) (hshape : shape ts' = shape ts)
    (hview : ∀ t c, chainOf ts' t c = chainOf ts t c) : ts' = ts := by
  rw [eq_of_shape h, eq_of_shape h', hshape]
  refine List.map_congr_left fun s _ => ?_
  simp only [hview]

end Shape

/-! ## Parts of the contents -/

/-- The same tables, with some of the chains in the order they had. -/
def Within (ts' ts : Tables) : Prop :=
  List.Forall₂ (fun s' s => s'.1 = s.1 ∧ s'.2.Sublist s.2) (shape ts') (shape ts)

section Within

variable {ts ts' ts'' : Tables}

theorem Within.refl (ts : Tables) : Within ts ts :=
  List.forall₂_same.mpr fun _ _ => ⟨rfl, .refl _⟩

theorem Within.trans (h : Within ts'' ts') (h' : Within ts' ts) : Within ts'' ts := by
  unfold Within at h h' ⊢
  generalize shape ts = k at h' ⊢
  generalize shape ts' = k' at h h'
  generalize shape ts'' = k'' at h ⊢
  induction h generalizing k with
  | nil => exact h'
  | cons hs _ ih =>
    cases h' with
    | cons hs' hrest => exact .cons ⟨hs.1.trans hs'.1, hs.2.trans hs'.2⟩ (ih _ hrest)

theorem Within.names (h : Within ts' ts) :
    ts'.map TableRules.name = ts.map TableRules.name := by
  have hnames : ∀ us : Tables, us.map TableRules.name = (shape us).map Prod.fst := by
    intro us
    rw [shape, List.map_map]
    rfl
  rw [hnames, hnames]
  unfold Within at h
  generalize shape ts = k at h ⊢
  generalize shape ts' = k' at h ⊢
  induction h with
  | nil => rfl
  | cons hs _ ih => rw [List.map_cons, List.map_cons, hs.1, ih]

theorem within_upsert {n : Bytes} {new : TableRules} {upd : TableRules → TableRules}
    (hex : n ∈ ts.map TableRules.name)
    (hupd : ∀ t, ts.find? (fun t => t.name = n) = some t → (upd t).name = t.name ∧
      ((upd t).chains.map ChainRules.name).Sublist (t.chains.map ChainRules.name)) :
    Within (upsert TableRules.name n new upd ts) ts := by
  induction ts with
  | nil => exact absurd hex List.not_mem_nil
  | cons t ts ih =>
    unfold upsert
    by_cases ht : t.name = n
    · rw [if_pos ht]
      exact .cons (hupd t (List.find?_cons_of_pos (by simpa using ht))) (Within.refl ts)
    · rw [if_neg ht]
      refine .cons ⟨rfl, .refl _⟩ (ih ?_ fun x hx => hupd x ?_)
      · exact (List.mem_cons.mp hex).resolve_left (Ne.symm ht)
      · rw [List.find?_cons_of_neg (by simpa using ht)]
        exact hx

theorem within_openTable {n : Bytes} (hex : n ∈ ts.map TableRules.name) :
    Within (openTable ts n) ts :=
  within_upsert hex fun _ _ => ⟨rfl, .refl _⟩

theorem within_setChain {n c : Bytes} (hex : (chainOf ts n c).isSome)
    (f : List Rule → List Rule) : Within (setChain ts n c f) ts := by
  refine within_upsert (mem_names_of_isSome hex) fun t ht => ⟨rfl, ?_⟩
  obtain ⟨t', ht', hc⟩ := find?_of_isSome hex
  obtain rfl : t' = t := Option.some.inj (ht'.symm.trans ht)
  have hnames := Upsert.map_upsert (keyed_chain c f) t'.chains
  rw [if_pos hc] at hnames
  show ((updateChain t'.chains c f).map ChainRules.name).Sublist _
  rw [updateChain, hnames]

theorem within_dropChain {n c : Bytes} (hex : (chainOf ts n c).isSome) :
    Within (dropChain ts n c) ts :=
  within_upsert (mem_names_of_isSome hex) fun _ _ => ⟨rfl, List.eraseP_sublist.map _⟩

theorem eq_filter_of_sublist {l l' : List Bytes} (h : l'.Sublist l) (hnd : l.Nodup) {p : Bytes → Bool}
    (hmem : ∀ x ∈ l, x ∈ l' ↔ p x = true) : l' = l.filter p := by
  induction h with
  | slnil => rfl
  | cons x h ih =>
    rw [List.nodup_cons] at hnd
    have hx : ¬ p x = true := fun hp => hnd.1 (h.subset ((hmem x (List.mem_cons_self ..)).mpr hp))
    rw [List.filter_cons_of_neg hx]
    exact ih hnd.2 fun y hy => hmem y (List.mem_cons_of_mem _ hy)
  | cons_cons x h ih =>
    rw [List.nodup_cons] at hnd
    have hx : p x = true := (hmem x (List.mem_cons_self ..)).mp (List.mem_cons_self ..)
    rw [List.filter_cons_of_pos hx]
    congr 1
    refine ih hnd.2 fun y hy => ?_
    have hne : y ≠ x := fun he => hnd.1 (he ▸ hy)
    rw [← hmem y (List.mem_cons_of_mem _ hy), List.mem_cons, or_iff_right hne]

/-- Part of the contents, by the chains that are left. -/
theorem shape_of_within (hw : Within ts' ts) (h : ts.WF) (h' : ts'.WF) {p : Bytes → Bool}
    (hleft : ∀ t c, (chainOf ts' t c).isSome ↔ (chainOf ts t c).isSome ∧ p c = true) :
    shape ts' = (shape ts).map fun s => (s.1, s.2.filter p) := by
  have hmem : ∀ {us : Tables}, us.WF → ∀ s ∈ shape us, s.2.Nodup ∧
      ∀ n, n ∈ s.2 ↔ (chainOf us s.1 n).isSome := by
    intro us hus s hs
    obtain ⟨t, ht, rfl⟩ := List.mem_map.mp hs
    exact ⟨(hus.tables t ht).nodup, fun n => (isSome_chainOf_iff hus ht n).symm⟩
  have hmem' := hmem h'
  have hmem := hmem h
  unfold Within at hw
  generalize shape ts = k at hw hmem ⊢
  generalize shape ts' = k' at hw hmem' ⊢
  induction hw with
  | nil => rfl
  | @cons s' s _ _ hs _ ih =>
    obtain ⟨-, hmems'⟩ := hmem' s' (List.mem_cons_self ..)
    obtain ⟨hnd, hmems⟩ := hmem s (List.mem_cons_self ..)
    rw [List.map_cons, ih (fun x hx => hmem x (List.mem_cons_of_mem _ hx))
      fun x hx => hmem' x (List.mem_cons_of_mem _ hx)]
    congr 1
    refine Prod.ext hs.1 (eq_filter_of_sublist hs.2 hnd fun n hn => ?_)
    rw [hmems', hs.1, hleft, ← hmems, and_iff_right hn]

end Within

end MagiTrickle.Iptables
