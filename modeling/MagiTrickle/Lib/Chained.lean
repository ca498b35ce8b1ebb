import Mathlib.Data.List.FinRange
import Mathlib.Data.List.Nodup
import Mathlib.Logic.Function.Basic

/-!
# Chained hash tables

A table is one chain of nodes for each bucket. A node is looked up by its key in
the bucket of its hash, pushed at the head of that chain, written over or
unlinked there. `WF`: every node is in the bucket of its own key and no chain
has a key twice. Then the table is a map from keys to nodes, and `nodes` lists
each of them once, bucket after bucket.
-/

namespace MagiTrickle.Lib.Chained

variable {n : Nat} {κ α : Type} [DecidableEq κ]

/-- The chain of each bucket. -/
abbrev Table (n : Nat) (α : Type) := Fin n → List α

section Defs

variable (hash : κ → Fin n) (key : α → κ)

def find (t : Table n α) (k : κ) : Option α := (t (hash k)).find? fun a => key a = k

def push (t : Table n α) (a : α) : Table n α :=
  Function.update t (hash (key a)) (a :: t (hash (key a)))

/-- The first node of a chain with the key of `a` becomes `a`. -/
def overwrite (a : α) : List α → List α
  | [] => []
  | b :: l => if key b = key a then a :: l else b :: overwrite a l

def store (t : Table n α) (a : α) : Table n α :=
  Function.update t (hash (key a)) (overwrite key a (t (hash (key a))))

def erase (t : Table n α) (k : κ) : Table n α :=
  Function.update t (hash k) ((t (hash k)).eraseP fun a => key a = k)

structure WF (t : Table n α) : Prop where
  home : ∀ i, ∀ a ∈ t i, hash (key a) = i
  nodup : ∀ i, ((t i).map key).Nodup

end Defs

def nodes (t : Table n α) : List α := (List.finRange n).flatMap t

/-! ## One chain -/

section Chain

variable {key : α → κ} {a : α} {l : List α} {k : κ}

theorem map_overwrite : (overwrite key a l).map key = l.map key := by
  induction l with
  | nil => rfl
  | cons b l ih =>
    unfold overwrite
    split
    · next h => simp [h]
    · simp [ih]

theorem mem_overwrite {b : α} (h : b ∈ overwrite key a l) : b = a ∨ b ∈ l := by
  induction l with
  | nil => cases h
  | cons c l ih =>
    unfold overwrite at h
    split at h
    · exact (List.mem_cons.mp h).imp_right (List.mem_cons_of_mem _)
    · rcases List.mem_cons.mp h with rfl | h
      · exact .inr (List.mem_cons_self ..)
      · exact (ih h).imp_right (List.mem_cons_of_mem _)

theorem find?_overwrite : (overwrite key a l).find? (fun b => key b = k) =
    if k = key a ∧ key a ∈ l.map key then some a else l.find? fun b => key b = k := by
  induction l with
  | nil => simp [overwrite]
  | cons b l ih =>
    unfold overwrite
    by_cases hb : key b = key a
    · rw [if_pos hb]
      by_cases hk : k = key a
      · simp [hk, hb]
      · have hka : key a ≠ k := fun h => hk h.symm
        have hkb : key b ≠ k := hb ▸ hka
        simp [hk, hka, hkb]
    · rw [if_neg hb]
      by_cases hkb : key b = k
      · have hk : k ≠ key a := fun h => hb (hkb.trans h)
        simp [hkb, hk]
      · rw [List.find?_cons_of_neg (by simpa using hkb), ih,
          List.find?_cons_of_neg (by simpa using hkb)]
        simp only [List.map_cons, List.mem_cons, Ne.symm hb, false_or]

theorem overwrite_self (h : l.find? (fun b => key b = key a) = some a) : overwrite key a l = l := by
  induction l with
  | nil => rfl
  | cons b l ih =>
    unfold overwrite
    by_cases hb : key b = key a
    · rw [List.find?_cons_of_pos (by simpa using hb)] at h
      cases h
      rw [if_pos rfl]
    · rw [List.find?_cons_of_neg (by simpa using hb)] at h
      rw [if_neg hb, ih h]

theorem find?_eraseP (hnd : (l.map key).Nodup) {k' : κ} :
    (l.eraseP fun b => key b = k).find? (fun b => key b = k') =
      if k' = k then none else l.find? fun b => key b = k' := by
  induction l with
  | nil => simp
  | cons b l ih =>
    rw [List.map_cons, List.nodup_cons] at hnd
    by_cases hb : key b = k
    · rw [List.eraseP_cons_of_pos (by simpa using hb)]
      split
      · next h =>
        rw [List.find?_eq_none]
        intro c hc
        have hcb : key c ≠ key b := fun h' => hnd.1 (h' ▸ List.mem_map_of_mem hc)
        simpa [h, ← hb] using hcb
      · next h => rw [List.find?_cons_of_neg (by simpa [hb] using Ne.symm h)]
    · rw [List.eraseP_cons_of_neg (by simpa using hb)]
      by_cases hk' : key b = k'
      · have : k' ≠ k := hk' ▸ hb
        simp [hk', this]
      · rw [List.find?_cons_of_neg (by simpa using hk'), ih hnd.2,
          List.find?_cons_of_neg (by simpa using hk')]

end Chain

/-! ## Tables -/

section Table

variable {hash : κ → Fin n} {key : α → κ} {t : Table n α} {a : α} {k : κ}

theorem find_key (h : find hash key t k = some a) : key a = k := by
  simpa using List.find?_some h

theorem find_mem (h : find hash key t k = some a) : a ∈ t (hash k) := List.mem_of_find?_eq_some h

theorem find_push {k' : κ} :
    find hash key (push hash key t a) k' = if k' = key a then some a else find hash key t k' := by
  unfold find push
  by_cases hh : hash k' = hash (key a)
  · rw [hh, Function.update_self]
    by_cases hk : k' = key a
    · simp [hk]
    · rw [List.find?_cons_of_neg (by simpa using Ne.symm hk), if_neg hk]
  · rw [Function.update_of_ne hh, if_neg fun h : k' = key a => hh (congrArg hash h)]

theorem find_store (hf : (find hash key t (key a)).isSome) {k' : κ} :
    find hash key (store hash key t a) k' = if k' = key a then some a else find hash key t k' := by
  unfold find store
  by_cases hh : hash k' = hash (key a)
  · rw [hh, Function.update_self, find?_overwrite]
    have hmem : key a ∈ (t (hash (key a))).map key := by
      obtain ⟨b, hb⟩ := Option.isSome_iff_exists.mp hf
      have hmem := List.mem_map_of_mem (f := key) (find_mem hb)
      rwa [find_key hb] at hmem
    by_cases hk : k' = key a
    · rw [if_pos ⟨hk, hmem⟩, if_pos hk]
    · rw [if_neg fun h => hk h.1, if_neg hk]
  · rw [Function.update_of_ne hh, if_neg fun h : k' = key a => hh (congrArg hash h)]

theorem store_self (hf : find hash key t (key a) = some a) : store hash key t a = t := by
  unfold store
  rw [overwrite_self hf, Function.update_eq_self]

theorem find_erase (hwf : WF hash key t) {k' : κ} :
    find hash key (erase hash key t k) k' = if k' = k then none else find hash key t k' := by
  unfold find erase
  by_cases hh : hash k' = hash k
  · rw [hh, Function.update_self, find?_eraseP (hwf.nodup _)]
  · rw [Function.update_of_ne hh, if_neg fun h : k' = k => hh (congrArg hash h)]

omit [DecidableEq κ] in
theorem WF.empty : WF hash key fun _ => [] where
  home := fun _ _ h => absurd h List.not_mem_nil
  nodup := fun _ => List.nodup_nil

theorem WF.push (hwf : WF hash key t) (hf : find hash key t (key a) = none) :
    WF hash key (push hash key t a) := by
  refine ⟨fun i b hb => ?_, fun i => ?_⟩
  · unfold Chained.push at hb
    by_cases hi : i = hash (key a)
    · rw [hi, Function.update_self] at hb
      rcases List.mem_cons.mp hb with rfl | hb
      · exact hi.symm
      · exact (hwf.home _ b hb).trans hi.symm
    · rw [Function.update_of_ne hi] at hb
      exact hwf.home i b hb
  · unfold Chained.push
    by_cases hi : i = hash (key a)
    · rw [hi, Function.update_self, List.map_cons, List.nodup_cons]
      refine ⟨fun hmem => ?_, hwf.nodup _⟩
      obtain ⟨b, hb, hkb⟩ := List.mem_map.mp hmem
      exact List.find?_eq_none.mp hf b hb (by simpa using hkb)
    · rw [Function.update_of_ne hi]
      exact hwf.nodup i

theorem WF.store (hwf : WF hash key t) : WF hash key (store hash key t a) := by
  refine ⟨fun i b hb => ?_, fun i => ?_⟩
  · unfold Chained.store at hb
    by_cases hi : i = hash (key a)
    · rw [hi, Function.update_self] at hb
      rcases mem_overwrite hb with rfl | hb
      · exact hi.symm
      · exact (hwf.home _ b hb).trans hi.symm
    · rw [Function.update_of_ne hi] at hb
      exact hwf.home i b hb
  · unfold Chained.store
    by_cases hi : i = hash (key a)
    · rw [hi, Function.update_self, map_overwrite]
      exact hwf.nodup _
    · rw [Function.update_of_ne hi]
      exact hwf.nodup i

theorem WF.erase (hwf : WF hash key t) : WF hash key (erase hash key t k) := by
  refine ⟨fun i b hb => ?_, fun i => ?_⟩
  · unfold Chained.erase at hb
    by_cases hi : i = hash k
    · rw [hi, Function.update_self] at hb
      exact (hwf.home _ b (List.mem_of_mem_eraseP hb)).trans hi.symm
    · rw [Function.update_of_ne hi] at hb
      exact hwf.home i b hb
  · unfold Chained.erase
    by_cases hi : i = hash k
    · rw [hi, Function.update_self]
      exact (hwf.nodup _).sublist (List.eraseP_sublist.map _)
    · rw [Function.update_of_ne hi]
      exact hwf.nodup i

end Table

/-! ## All nodes -/

section Nodes

variable {hash : κ → Fin n} {key : α → κ} {t : Table n α} {a : α} {k : κ}

theorem mem_nodes : a ∈ nodes t ↔ ∃ i, a ∈ t i := by simp [nodes]

theorem WF.mem_nodes_iff (hwf : WF hash key t) :
    a ∈ nodes t ↔ find hash key t (key a) = some a := by
  refine mem_nodes.trans ⟨fun ⟨i, hi⟩ => ?_, fun h => ⟨_, find_mem h⟩⟩
  unfold find
  rw [hwf.home i a hi]
  have hnd := hwf.nodup i
  generalize t i = l at hi hnd
  induction l with
  | nil => cases hi
  | cons b l ih =>
    rw [List.map_cons, List.nodup_cons] at hnd
    rcases List.mem_cons.mp hi with rfl | hi
    · simp
    · have hb : key b ≠ key a := fun h => hnd.1 (h ▸ List.mem_map_of_mem hi)
      rw [List.find?_cons_of_neg (by simpa using hb)]
      exact ih hi hnd.2

omit [DecidableEq κ] in
theorem WF.nodup_nodes (hwf : WF hash key t) : ((nodes t).map key).Nodup := by
  unfold nodes
  rw [List.map_flatMap, List.nodup_flatMap]
  refine ⟨fun i _ => hwf.nodup i, (List.nodup_finRange n).imp fun {i j} hij => ?_⟩
  -- the hash of a key says which bucket it is from
  refine List.disjoint_left.mpr fun k hi hj => ?_
  obtain ⟨a, ha, rfl⟩ := List.mem_map.mp hi
  obtain ⟨b, hb, hab⟩ := List.mem_map.mp hj
  exact hij ((hwf.home i a ha).symm.trans ((hab ▸ rfl : hash (key a) = hash (key b)).trans
    (hwf.home j b hb)))

theorem WF.find_nodes (hwf : WF hash key t) (k : κ) :
    (nodes t).find? (fun a => key a = k) = find hash key t k := by
  cases hf : find hash key t k with
  | none =>
    rw [List.find?_eq_none]
    intro a ha hk
    have hk : key a = k := by simpa using hk
    rw [hwf.mem_nodes_iff, hk, hf] at ha
    cases ha
  | some a =>
    cases hn : (nodes t).find? (fun a => key a = k) with
    | none =>
      have := List.find?_eq_none.mp hn a (mem_nodes.mpr ⟨_, find_mem hf⟩)
      exact absurd (find_key hf) (by simpa using this)
    | some b =>
      have hb := hwf.mem_nodes_iff.mp (List.mem_of_find?_eq_some hn)
      have hkb : key b = k := by simpa using List.find?_some hn
      rw [hkb, hf] at hb
      exact hb.symm

theorem length_nodes_update (i : Fin n) (l : List α) :
    (nodes (Function.update t i l)).length + (t i).length = (nodes t).length + l.length := by
  have h : ∀ is : List (Fin n), is.Nodup → i ∈ is →
      (is.flatMap (Function.update t i l)).length + (t i).length =
        (is.flatMap t).length + l.length := by
    intro is hnd hi
    induction is with
    | nil => cases hi
    | cons j is ih =>
      rw [List.nodup_cons] at hnd
      rw [List.flatMap_cons, List.flatMap_cons, List.length_append, List.length_append]
      rcases List.mem_cons.mp hi with rfl | hi
      · rw [Function.update_self]
        have hrest : is.flatMap (Function.update t i l) = is.flatMap t := by
          refine List.flatMap_congr fun j hj => Function.update_of_ne ?_ ..
          rintro rfl
          exact hnd.1 hj
        rw [hrest]
        omega
      · have hji : j ≠ i := by
          rintro rfl
          exact hnd.1 hi
        have := ih hnd.2 hi
        rw [Function.update_of_ne hji]
        omega
  exact h _ (List.nodup_finRange n) (List.mem_finRange i)

omit [DecidableEq κ] in
theorem length_nodes_push : (nodes (push hash key t a)).length = (nodes t).length + 1 := by
  have := length_nodes_update (t := t) (hash (key a)) (a :: t (hash (key a)))
  rw [List.length_cons] at this
  unfold push
  omega

theorem length_nodes_store : (nodes (store hash key t a)).length = (nodes t).length := by
  have := length_nodes_update (t := t) (hash (key a)) (overwrite key a (t (hash (key a))))
  have hlen := congrArg List.length
    (show (overwrite key a (t (hash (key a)))).map key = _ from map_overwrite)
  rw [List.length_map, List.length_map] at hlen
  unfold store
  omega

theorem length_nodes_erase (h : (find hash key t k).isSome) :
    (nodes (erase hash key t k)).length + 1 = (nodes t).length := by
  have := length_nodes_update (t := t) (hash k) ((t (hash k)).eraseP fun a => key a = k)
  obtain ⟨a, ha⟩ := Option.isSome_iff_exists.mp h
  have hlen := List.length_eraseP_of_mem (p := fun a => decide (key a = k)) (find_mem ha)
    (by simpa using find_key ha)
  have hpos := List.length_pos_of_mem (find_mem ha)
  unfold erase
  omega

end Nodes

end MagiTrickle.Lib.Chained
