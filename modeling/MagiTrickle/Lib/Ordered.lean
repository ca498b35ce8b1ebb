import Mathlib.Data.List.Basic
import Mathlib.Data.List.Forall2
import Mathlib.Data.Set.Basic

/-!
# Comparisons that order some elements

A comparison that is written by hand is often a total preorder on the elements
that occur, but not on its type (`OrderedOn`). On these elements it sorts: the
result is in order, and up to elements that compare equal it is the only one.
Where three elements compare in a circle nothing is in order.
-/

namespace MagiTrickle.Lib.Ordered

open Std

variable {α β : Type} {cmp cmp₁ cmp₂ : α → α → Ordering} {S T : Set α}

/-- On the elements of `S`, `cmp` is a total preorder. -/
structure OrderedOn (cmp : α → α → Ordering) (S : Set α) : Prop where
  swap : ∀ a ∈ S, ∀ b ∈ S, cmp a b = (cmp b a).swap
  isLE_trans : ∀ a ∈ S, ∀ b ∈ S, ∀ c ∈ S, (cmp a b).isLE → (cmp b c).isLE → (cmp a c).isLE

theorem orderedOn_of_transCmp [TransCmp cmp] : OrderedOn cmp S where
  swap _ _ _ _ := OrientedCmp.eq_swap
  isLE_trans _ _ _ _ _ _ := TransCmp.isLE_trans

theorem transCmp_on [TransCmp cmp] (f : β → α) : TransCmp fun a b => cmp (f a) (f b) where
  eq_swap := OrientedCmp.eq_swap
  isLE_trans := TransCmp.isLE_trans

namespace OrderedOn

theorem mono (h : OrderedOn cmp S) (hsub : T ⊆ S) : OrderedOn cmp T where
  swap a ha b hb := h.swap a (hsub ha) b (hsub hb)
  isLE_trans a ha b hb c hc := h.isLE_trans a (hsub ha) b (hsub hb) c (hsub hc)

theorem congr (h : OrderedOn cmp₁ S) (heq : ∀ a ∈ S, ∀ b ∈ S, cmp₂ a b = cmp₁ a b) :
    OrderedOn cmp₂ S where
  swap a ha b hb := by
    rw [heq a ha b hb, heq b hb a ha]
    exact h.swap a ha b hb
  isLE_trans a ha b hb c hc := by
    rw [heq a ha b hb, heq b hb c hc, heq a ha c hc]
    exact h.isLE_trans a ha b hb c hc

theorem transCmp (h : OrderedOn cmp S) : TransCmp fun a b : S => cmp a b where
  eq_swap {a b} := h.swap a a.2 b b.2
  isLE_trans {a b c} := h.isLE_trans a a.2 b b.2 c c.2

variable {a b c : α}

theorem lt_trans (h : OrderedOn cmp S) (ha : a ∈ S) (hb : b ∈ S) (hc : c ∈ S)
    (hab : cmp a b = .lt) (hbc : cmp b c = .lt) : cmp a c = .lt :=
  have := h.transCmp
  @TransCmp.lt_trans S (fun a b => cmp a b) _ ⟨a, ha⟩ ⟨b, hb⟩ ⟨c, hc⟩ hab hbc

theorem eq_iff (h : OrderedOn cmp S) (ha : a ∈ S) (hb : b ∈ S) (hc : c ∈ S) (hab : cmp a b = .eq) :
    cmp a c = .eq ↔ cmp b c = .eq := by
  have := h.transCmp
  have hcongr := @TransCmp.congr_left S (fun a b => cmp a b) _ ⟨a, ha⟩ ⟨b, hb⟩ ⟨c, hc⟩ hab
  exact hcongr ▸ Iff.rfl

/-- A comparison goes first, and the second one orders what the first one does not tell apart. -/
theorem lex [TransCmp cmp₁] (h : ∀ x ∈ S, OrderedOn cmp₂ {y ∈ S | cmp₁ x y = .eq}) :
    OrderedOn (fun a b => (cmp₁ a b).then (cmp₂ a b)) S where
  swap a ha b hb := by
    rw [Ordering.swap_then, ← OrientedCmp.eq_swap]
    rcases hab : cmp₁ a b with _ | _ | _
    · rfl
    · exact (h a ha).swap a ⟨ha, ReflCmp.compare_self⟩ b ⟨hb, hab⟩
    · rfl
  isLE_trans a ha b hb c hc hab hbc := by
    rw [Ordering.isLE_then_iff_and] at hab hbc ⊢
    refine ⟨TransCmp.isLE_trans hab.1 hbc.1, ?_⟩
    rcases hab.2 with hab' | hab'
    · exact .inl (TransCmp.lt_of_lt_of_isLE hab' hbc.1)
    rcases hbc.2 with hbc' | hbc'
    · exact .inl (TransCmp.lt_of_isLE_of_lt hab.1 hbc')
    have hac : (cmp₁ a c).isLE := TransCmp.isLE_trans hab.1 hbc.1
    rcases Ordering.isLE_iff_eq_lt_or_eq_eq.mp hac with hlt | heq
    · exact .inl hlt
    -- all three are equal for the first comparison
    have hca : (cmp₁ c a).isLE := Ordering.isLE_of_eq_eq (OrientedCmp.eq_symm heq)
    have hba : cmp₁ a b = .eq :=
      OrientedCmp.isLE_antisymm hab.1 (TransCmp.isLE_trans hbc.1 hca)
    exact .inr ((h a ha).isLE_trans a ⟨ha, ReflCmp.compare_self⟩ b ⟨hb, hba⟩ c ⟨hc, heq⟩ hab' hbc')

/-- Blocks of elements are compared by `outer`, and those in one block by `inner`. This is an order
where a block is as a whole before or after every other element. -/
theorem blocks {γ : Type} [DecidableEq γ] {f : α → γ} {inner outer : α → α → Ordering}
    [TransCmp inner] [TransCmp outer] (heq : ∀ a b, outer a b = .eq → f a = f b)
    (h : ∀ a ∈ S, ∀ b ∈ S, ∀ c ∈ S, f a = f b → f b ≠ f c → (inner a b).isLE →
      outer b c = .lt → outer a c = .lt) :
    OrderedOn (fun a b => if f a ≠ f b then outer a b else inner a b) S where
  swap a _ b _ := by
    by_cases hab : f a = f b
    · rw [if_neg (not_not.mpr hab), if_neg (not_not.mpr hab.symm)]
      exact OrientedCmp.eq_swap
    · rw [if_pos hab, if_pos (Ne.symm hab)]
      exact OrientedCmp.eq_swap
  isLE_trans a ha b hb c hc hab hbc := by
    have hlt : ∀ {x y}, f x ≠ f y → (outer x y).isLE → outer x y = .lt := fun hne hle =>
      (Ordering.isLE_iff_eq_lt_or_eq_eq.mp hle).resolve_right fun h => hne (heq _ _ h)
    by_cases hfab : f a = f b
    · rw [if_neg (not_not.mpr hfab)] at hab
      by_cases hfbc : f b = f c
      · rw [if_neg (not_not.mpr hfbc)] at hbc
        rw [if_neg (not_not.mpr (hfab.trans hfbc))]
        exact TransCmp.isLE_trans hab hbc
      · rw [if_pos hfbc] at hbc
        rw [if_pos (hfab ▸ hfbc)]
        exact Ordering.isLE_of_eq_lt (h a ha b hb c hc hfab hfbc hab (hlt hfbc hbc))
    rw [if_pos hfab] at hab
    have hab := hlt hfab hab
    by_cases hfbc : f b = f c
    · rw [if_neg (not_not.mpr hfbc)] at hbc
      rw [if_pos (hfbc ▸ hfab)]
      -- otherwise `c` would be before `a`, and `b` with it
      by_contra hac
      have hca := OrientedCmp.lt_of_not_isLE hac
      have hba := h b hb c hc a ha hfbc (hfbc ▸ Ne.symm hfab) hbc hca
      exact OrientedCmp.not_lt_of_lt hab hba
    · rw [if_pos hfbc] at hbc
      have hbc := hlt hfbc hbc
      by_cases hfac : f a = f c
      · rw [if_neg (not_not.mpr hfac)]
        -- otherwise `c` would be before `b`, as `a` is
        by_contra hac
        have hca := Ordering.isLE_of_eq_lt (OrientedCmp.lt_of_not_isLE hac)
        have hcb := h c hc a ha b hb hfac.symm hfab hca hab
        exact OrientedCmp.not_lt_of_lt hbc hcb
      · rw [if_pos hfac]
        exact Ordering.isLE_of_eq_lt (TransCmp.lt_trans hab hbc)

end OrderedOn

/-! ## Sorting -/

/-- A stable sort. -/
def sort (cmp : α → α → Ordering) (l : List α) : List α := l.mergeSort fun a b => (cmp a b).isLE

theorem sort_perm (l : List α) : (sort cmp l).Perm l := List.mergeSort_perm l _

theorem pairwise_sort {l : List α} (h : OrderedOn cmp {a | a ∈ l}) :
    (sort cmp l).Pairwise fun a b => (cmp a b).isLE := by
  have htrans := h.transCmp
  have hsorted := @List.pairwise_mergeSort {a | a ∈ l} (fun a b => (cmp a b).isLE)
    (fun _ _ _ => htrans.isLE_trans) (fun a b => ?_) l.attach
  · have hmap := @List.map_mergeSort _ _ (fun a b : {a | a ∈ l} => (cmp a b).isLE)
      (fun a b => (cmp a b).isLE) Subtype.val l.attach (fun _ _ _ _ => rfl)
    rw [List.attach_map_subtype_val] at hmap
    rw [sort, ← hmap]
    exact List.pairwise_map.mpr hsorted
  · rw [Bool.or_eq_true, h.swap b b.2 a a.2]
    cases cmp a b
    · exact .inl rfl
    · exact .inl rfl
    · exact .inr rfl

/-- How many elements compare equal to one. -/
def countEq (cmp : α → α → Ordering) (a : α) (l : List α) : Nat := l.countP (cmp · a = .eq)

theorem countEq_cons (a b : α) (l : List α) :
    countEq cmp a (b :: l) = countEq cmp a l + if cmp b a = .eq then 1 else 0 := by
  rw [countEq, List.countP_cons, ← countEq]
  simp only [decide_eq_true_eq]

theorem head_isLE {a b : α} {l : List α} (h : OrderedOn cmp S) (hS : ∀ x ∈ a :: l, x ∈ S)
    (hsorted : (a :: l).Pairwise fun a b => (cmp a b).isLE) (hb : b ∈ S)
    (hcount : 0 < countEq cmp b (a :: l)) : (cmp a b).isLE := by
  obtain ⟨x, hx, hxb⟩ := List.countP_pos_iff.mp hcount
  have hxb := Ordering.isLE_of_eq_eq (of_decide_eq_true hxb)
  rcases List.mem_cons.mp hx with rfl | hmem
  · exact hxb
  · have ha := hS a List.mem_cons_self
    exact h.isLE_trans a ha x (hS x hx) b hb (List.rel_of_pairwise_cons hsorted hmem) hxb

/-- In order, elements are determined up to those that compare equal. -/
theorem forall₂_of_countEq {l₁ l₂ : List α} (h : OrderedOn cmp S) (h₁ : ∀ x ∈ l₁, x ∈ S)
    (h₂ : ∀ x ∈ l₂, x ∈ S) (hcount : ∀ x ∈ S, countEq cmp x l₁ = countEq cmp x l₂)
    (hsorted₁ : l₁.Pairwise fun a b => (cmp a b).isLE)
    (hsorted₂ : l₂.Pairwise fun a b => (cmp a b).isLE) :
    List.Forall₂ (fun a b => cmp a b = .eq) l₁ l₂ := by
  have hrefl : ∀ x ∈ S, cmp x x = .eq := by
    intro x hx
    have hswap := h.swap x hx x hx
    revert hswap
    cases cmp x x <;> decide
  induction l₁ generalizing l₂ with
  | nil =>
    cases l₂ with
    | nil => exact .nil
    | cons b l₂ =>
      have hb := h₂ b List.mem_cons_self
      have := hcount b hb
      rw [countEq_cons, if_pos (hrefl b hb)] at this
      exact absurd this (Nat.succ_ne_zero _).symm
  | cons a l₁ ih =>
    have ha := h₁ a List.mem_cons_self
    have hcount_a := hcount a ha
    rw [countEq_cons, if_pos (hrefl a ha)] at hcount_a
    cases l₂ with
    | nil => exact absurd hcount_a (Nat.succ_ne_zero _)
    | cons b l₂ =>
      have hb := h₂ b List.mem_cons_self
      have hcount_b := hcount b hb
      rw [@countEq_cons _ _ b b, if_pos (hrefl b hb)] at hcount_b
      have hba : (cmp b a).isLE := head_isLE h h₂ hsorted₂ ha (by omega)
      have hab : (cmp a b).isLE := head_isLE h h₁ hsorted₁ hb (by omega)
      have heq : cmp a b = .eq := by
        rw [h.swap b hb a ha] at hba
        exact Ordering.eq_eq_of_isLE_of_isLE_swap hab hba
      refine .cons heq (ih (fun x hx => h₁ x (List.mem_cons_of_mem a hx))
        (fun x hx => h₂ x (List.mem_cons_of_mem b hx)) (fun x hx => ?_) hsorted₁.of_cons
        hsorted₂.of_cons)
      have := hcount x hx
      rw [countEq_cons, countEq_cons] at this
      simp only [h.eq_iff ha hb hx heq] at this
      omega

theorem forall₂_sort {l l' : List α} (h : OrderedOn cmp {a | a ∈ l}) (hperm : l'.Perm l) :
    List.Forall₂ (fun a b => cmp a b = .eq) (sort cmp l) (sort cmp l') := by
  have h' : OrderedOn cmp {a | a ∈ l'} := h.mono fun a ha => hperm.mem_iff.mp ha
  exact forall₂_of_countEq h (fun x hx => (sort_perm l).mem_iff.mp hx)
    (fun x hx => hperm.mem_iff.mp ((sort_perm l').mem_iff.mp hx))
    (fun x _ => ((sort_perm l).trans (hperm.symm.trans (sort_perm l').symm)).countP_eq _)
    (pairwise_sort h) (pairwise_sort h')

/-! ## Circles -/

def Circle (cmp : α → α → Ordering) (l : List α) : Prop :=
  ∃ a ∈ l, ∃ b ∈ l, ∃ c ∈ l, cmp a b = .lt ∧ cmp b c = .lt ∧ cmp c a = .lt

theorem getElem_lt {l : List α} {i j : Nat} (hself : ∀ a ∈ l, cmp a a ≠ .lt)
    (h : l.Pairwise fun a b => cmp b a ≠ .lt) (hi : i < l.length) (hj : j < l.length)
    (hlt : cmp l[i] l[j] = .lt) : i < j := by
  rcases Nat.lt_trichotomy i j with hij | rfl | hij
  · exact hij
  · exact absurd hlt (hself _ (List.getElem_mem hi))
  · exact absurd hlt (List.pairwise_iff_getElem.mp h j i hj hi hij)

/-- No arrangement of a circle is in order. -/
theorem Circle.not_pairwise {l l' : List α} (hcircle : Circle cmp l)
    (hself : ∀ a ∈ l, cmp a a ≠ .lt) (hperm : l'.Perm l) :
    ¬l'.Pairwise fun a b => cmp b a ≠ .lt := by
  intro h
  have hself' : ∀ a ∈ l', cmp a a ≠ .lt := fun a ha => hself a (hperm.mem_iff.mp ha)
  obtain ⟨a, ha, b, hb, c, hc, hab, hbc, hca⟩ := hcircle
  obtain ⟨i, hi, rfl⟩ := List.getElem_of_mem (hperm.mem_iff.mpr ha)
  obtain ⟨j, hj, rfl⟩ := List.getElem_of_mem (hperm.mem_iff.mpr hb)
  obtain ⟨k, hk, rfl⟩ := List.getElem_of_mem (hperm.mem_iff.mpr hc)
  have hij := getElem_lt hself' h hi hj hab
  have hjk := getElem_lt hself' h hj hk hbc
  have hki := getElem_lt hself' h hk hi hca
  omega

end MagiTrickle.Lib.Ordered
