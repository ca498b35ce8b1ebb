import Mathlib.Algebra.GroupWithZero.Nat
import Mathlib.Algebra.Order.BigOperators.Group.List
import Mathlib.Algebra.Order.Group.Nat
import Mathlib.Data.List.Basic
import Mathlib.Data.List.TakeWhile

/-!
# Lines and words

Texts over an alphabet with separators. `fields` are the maximal runs without
separators; it recovers the words of a line printed with single separators
between them. A text made of terminated lines splits into those lines and an
empty rest.
-/

namespace MagiTrickle.Lib.Words

variable {α : Type}

def fields (sep : α → Bool) (line : List α) : List (List α) :=
  (line.splitOnP sep).filter fun w => !w.isEmpty

def IsWord (sep : α → Bool) (w : List α) : Prop := w ≠ [] ∧ ∀ c ∈ w, sep c = false

instance [DecidableEq α] (sep : α → Bool) (w : List α) : Decidable (IsWord sep w) :=
  inferInstanceAs (Decidable (w ≠ [] ∧ ∀ c ∈ w, sep c = false))

theorem fields_word {sep : α → Bool} {w : List α} (h : IsWord sep w) : fields sep w = [w] := by
  rw [fields, List.splitOnP_eq_singleton h.2, List.filter_cons_of_pos]
  · rfl
  · simpa using h.1

theorem fields_append_sep {sep : α → Bool} {w : List α} (h : IsWord sep w) {s : α}
    (hs : sep s = true) (rest : List α) : fields sep (w ++ s :: rest) = w :: fields sep rest := by
  rw [fields, List.splitOnP_append_cons_of_forall_mem h.2 s hs, List.filter_cons_of_pos]
  · rfl
  · simpa using h.1

theorem not_sep_of_mem_splitOnP {sep : α → Bool} {line w : List α} (h : w ∈ line.splitOnP sep) :
    ∀ c ∈ w, sep c = false := by
  induction line generalizing w with
  | nil =>
    rw [List.splitOnP_nil, List.mem_singleton] at h
    simp [h]
  | cons x xs ih =>
    rw [List.splitOnP_cons_eq_if_modifyHead] at h
    split at h
    · rcases List.mem_cons.mp h with rfl | h
      · simp
      · exact ih h
    · next hx =>
      obtain ⟨v, vs, hsplit⟩ := List.exists_cons_of_ne_nil (List.splitOnP_ne_nil sep xs)
      rw [hsplit, List.modifyHead_cons] at h
      rcases List.mem_cons.mp h with rfl | h
      · intro c hc
        rcases List.mem_cons.mp hc with rfl | hc
        · simpa using hx
        · exact ih (hsplit ▸ List.mem_cons_self ..) c hc
      · exact ih (hsplit ▸ List.mem_cons_of_mem _ h)

theorem mem_of_mem_splitOnP {sep : α → Bool} {line w : List α} (h : w ∈ line.splitOnP sep) :
    ∀ c ∈ w, c ∈ line := by
  induction line generalizing w with
  | nil =>
    rw [List.splitOnP_nil, List.mem_singleton] at h
    simp [h]
  | cons x xs ih =>
    rw [List.splitOnP_cons_eq_if_modifyHead] at h
    split at h
    · rcases List.mem_cons.mp h with rfl | h
      · simp
      · exact fun c hc => List.mem_cons_of_mem _ (ih h c hc)
    · obtain ⟨v, vs, hsplit⟩ := List.exists_cons_of_ne_nil (List.splitOnP_ne_nil sep xs)
      rw [hsplit, List.modifyHead_cons] at h
      rcases List.mem_cons.mp h with rfl | h
      · intro c hc
        rcases List.mem_cons.mp hc with rfl | hc
        · exact List.mem_cons_self ..
        · exact List.mem_cons_of_mem _ (ih (hsplit ▸ List.mem_cons_self ..) c hc)
      · exact fun c hc => List.mem_cons_of_mem _ (ih (hsplit ▸ List.mem_cons_of_mem _ h) c hc)

theorem mem_of_mem_fields {sep : α → Bool} {line w : List α} (h : w ∈ fields sep line) :
    ∀ c ∈ w, c ∈ line := mem_of_mem_splitOnP (List.mem_filter.mp h).1

theorem isWord_of_mem_fields {sep : α → Bool} {line w : List α} (h : w ∈ fields sep line) :
    IsWord sep w := by
  obtain ⟨hmem, hne⟩ := List.mem_filter.mp h
  exact ⟨by simpa using hne, not_sep_of_mem_splitOnP hmem⟩

theorem fields_cons_sep {sep : α → Bool} {s : α} (hs : sep s = true) (rest : List α) :
    fields sep (s :: rest) = fields sep rest := by
  rw [fields, List.splitOnP_cons_eq_if_modifyHead, if_pos hs, List.filter_cons_of_neg (by simp)]
  rfl

theorem fields_append_cons {sep : α → Bool} {s : α} (hs : sep s = true) (a b : List α) :
    fields sep (a ++ s :: b) = fields sep a ++ fields sep b := by
  rw [fields, fields, fields, List.splitOnP_append_cons a b hs, List.filter_append]

/-- Every separator of a line is counted with the run before it. -/
theorem sum_splitOnP (sep : α → Bool) (line : List α) :
    ((line.splitOnP sep).map fun w => w.length + 1).sum = line.length + 1 := by
  induction line with
  | nil => rfl
  | cons x xs ih =>
    rw [List.splitOnP_cons_eq_if_modifyHead]
    split
    · rw [List.map_cons, List.sum_cons, ih, List.length_nil, List.length_cons]
      omega
    · obtain ⟨v, vs, hsplit⟩ := List.exists_cons_of_ne_nil (List.splitOnP_ne_nil sep xs)
      rw [hsplit] at ih ⊢
      rw [List.modifyHead_cons, List.map_cons, List.sum_cons, List.length_cons, List.length_cons]
      rw [List.map_cons, List.sum_cons] at ih
      omega

theorem sum_fields_le (sep : α → Bool) (line : List α) :
    ((fields sep line).map fun w => w.length + 1).sum ≤ line.length + 1 := by
  rw [← sum_splitOnP sep line]
  exact (List.filter_sublist.map _).sum_le_sum fun _ _ => Nat.zero_le _

theorem eq_of_fields {sep : α → Bool} {line w v : List α} {ws : List (List α)}
    (hhead : ∀ c ∈ line.head?, sep c = false) (h : fields sep line = w :: v :: ws) :
    ∃ s tail, sep s = true ∧ line = w ++ s :: tail := by
  have hline : line = line.takeWhile (fun c => !sep c) ++ line.dropWhile (fun c => !sep c) :=
    (List.takeWhile_append_dropWhile ..).symm
  have hfront : ∀ c ∈ line.takeWhile (fun c => !sep c), sep c = false := by
    intro c hc
    simpa using List.mem_takeWhile_imp hc
  cases hrest : line.dropWhile (fun c => !sep c) with
  | nil =>
    rw [hrest, List.append_nil] at hline
    rw [hline, fields, List.splitOnP_eq_singleton hfront] at h
    have hlen := congrArg List.length h
    have hle := List.length_filter_le (fun w => !List.isEmpty w)
      [line.takeWhile fun c => !sep c]
    simp only [List.length_cons, List.length_nil] at hlen hle
    omega
  | cons s tail =>
    have hs : sep s = true := by
      have hne : line.dropWhile (fun c => !sep c) ≠ [] := by simp [hrest]
      have hnot := List.head_dropWhile_not (fun c => !sep c) hne
      simpa [hrest] using hnot
    rw [hrest] at hline
    have hne : line.takeWhile (fun c => !sep c) ≠ [] := by
      intro hnil
      rw [hnil, List.nil_append] at hline
      have := hhead s (by rw [hline]; rfl)
      rw [hs] at this
      cases this
    refine ⟨s, tail, hs, ?_⟩
    have hw := fields_append_sep ⟨hne, hfront⟩ hs tail
    rw [← hline, h] at hw
    rw [(List.cons.inj hw).1]
    exact hline

def unwords (s : α) (ws : List (List α)) : List α := List.intercalate [s] ws

@[simp] theorem unwords_nil (s : α) : unwords s [] = [] := by simp [unwords]

@[simp] theorem unwords_singleton (s : α) (w : List α) : unwords s [w] = w := by simp [unwords]

theorem unwords_cons_cons (s : α) (w v : List α) (ws : List (List α)) :
    unwords s (w :: v :: ws) = w ++ s :: unwords s (v :: ws) := by
  simp [unwords, List.intercalate_cons_cons]

theorem mem_unwords {s c : α} {ws : List (List α)} (h : c ∈ unwords s ws) :
    c = s ∨ ∃ w ∈ ws, c ∈ w := by
  induction ws with
  | nil => simp at h
  | cons w ws ih =>
    cases ws with
    | nil => exact .inr ⟨w, List.mem_cons_self .., by simpa using h⟩
    | cons v ws =>
      rw [unwords_cons_cons, List.mem_append, List.mem_cons] at h
      rcases h with h | h | h
      · exact .inr ⟨w, List.mem_cons_self .., h⟩
      · exact .inl h
      · rcases ih h with h | ⟨u, hu, hc⟩
        · exact .inl h
        · exact .inr ⟨u, List.mem_cons_of_mem _ hu, hc⟩

theorem fields_unwords {sep : α → Bool} {s : α} (hs : sep s = true) (ws : List (List α))
    (h : ∀ w ∈ ws, IsWord sep w) : fields sep (unwords s ws) = ws := by
  induction ws with
  | nil => simp [fields]
  | cons w ws ih =>
    have hw := h w (List.mem_cons_self ..)
    have hws := ih fun v hv => h v (List.mem_cons_of_mem _ hv)
    cases ws with
    | nil => rw [unwords_singleton, fields_word hw]
    | cons v ws => rw [unwords_cons_cons, fields_append_sep hw hs, hws]

theorem splitOn_terminated [BEq α] [LawfulBEq α] (nl : α) (ls : List (List α))
    (h : ∀ l ∈ ls, nl ∉ l) : (ls.flatMap (· ++ [nl])).splitOn nl = ls ++ [[]] := by
  induction ls with
  | nil => simp
  | cons l ls ih =>
    rw [List.flatMap_cons, List.append_assoc, List.singleton_append,
      List.splitOn_append_cons_self_of_not_mem (h l (List.mem_cons_self ..)),
      ih fun m hm => h m (List.mem_cons_of_mem _ hm), List.cons_append]

end MagiTrickle.Lib.Words
