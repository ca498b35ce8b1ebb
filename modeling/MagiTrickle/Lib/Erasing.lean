import Mathlib.Data.List.Nodup
import Mathlib.Data.List.Perm.Basic

/-!
# The first entry of a key

A list whose entries have keys is searched and shortened by key: `eraseP` takes
the first entry away that has it. Where a part of every entry is read, the same
entry goes there; and where no key is there twice, what is left are the entries
of other keys.
-/

namespace MagiTrickle.Lib.Erasing

section Read

variable {α β : Type} {l : List α} {f : α → Option β} {p : α → Bool} {q : β → Bool}

theorem filterMap_eraseP (h : ∀ a, p a = (f a).any q) :
    (l.eraseP p).filterMap f = (l.filterMap f).eraseP q := by
  induction l with
  | nil => rfl
  | cons a l ih =>
    have ha := h a
    cases hb : f a with
    | none =>
      rw [hb] at ha
      rw [List.eraseP_cons_of_neg (by simp [ha]), List.filterMap_cons_none hb,
        List.filterMap_cons_none hb, ih]
    | some b =>
      rw [hb] at ha
      have ha : p a = q b := ha
      by_cases hq : q b = true
      · rw [List.eraseP_cons_of_pos (ha.trans hq), List.filterMap_cons_some hb,
          List.eraseP_cons_of_pos hq]
      · rw [List.eraseP_cons_of_neg (ha ▸ hq), List.filterMap_cons_some hb,
          List.filterMap_cons_some hb, List.eraseP_cons_of_neg hq, ih]

/-- An entry that is not read. -/
theorem filterMap_eraseP_of_none (h : ∀ a, p a = true → f a = none) :
    (l.eraseP p).filterMap f = l.filterMap f := by
  induction l with
  | nil => rfl
  | cons a l ih =>
    by_cases hp : p a = true
    · rw [List.eraseP_cons_of_pos hp, List.filterMap_cons_none (h a hp)]
    · rw [List.eraseP_cons_of_neg hp, List.filterMap_cons, List.filterMap_cons, ih]

end Read

section Keys

variable {κ ν : Type} [DecidableEq κ] {xs : List (κ × ν)}

theorem eraseP_key (h : (xs.map Prod.fst).Nodup) (k : κ) :
    (xs.eraseP fun x => decide (x.1 = k)) = xs.filter fun x => x.1 ≠ k := by
  induction xs with
  | nil => rfl
  | cons x xs ih =>
    rw [List.map_cons, List.nodup_cons] at h
    by_cases hk : x.1 = k
    · have hall : xs.filter (fun x => x.1 ≠ k) = xs := List.filter_eq_self.mpr fun y hy =>
        decide_eq_true fun hyk => h.1 (List.mem_map.mpr ⟨y, hy, hyk.trans hk.symm⟩)
      rw [List.eraseP_cons_of_pos (by simpa using hk), List.filter_cons_of_neg (by simpa using hk),
        hall]
    · rw [List.eraseP_cons_of_neg (by simpa using hk), List.filter_cons_of_pos (by simpa using hk),
        ih h.2]

theorem perm_filter_key (h : (xs.map Prod.fst).Nodup) {x : κ × ν} (hx : x ∈ xs) :
    xs.Perm (x :: xs.filter fun y => y.1 ≠ x.1) := by
  rw [← eraseP_key h]
  obtain ⟨a, l₁, l₂, -, ha, hxs, herase⟩ :=
    List.exists_of_eraseP (p := fun y => decide (y.1 = x.1)) hx (decide_eq_true rfl)
  have hax : a = x := by
    refine List.inj_on_of_nodup_map h ?_ hx (of_decide_eq_true ha)
    rw [hxs]
    exact List.mem_append_right _ List.mem_cons_self
  rw [herase, hxs, hax]
  exact List.perm_middle

end Keys

end MagiTrickle.Lib.Erasing
