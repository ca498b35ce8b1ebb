import Mathlib.Logic.Function.Basic
import Mathlib.Data.List.Basic

/-!
# Commands on independent cells

A state is read through a view, one cell for each key. Each command names a key
and acts on that cell alone, and may fail. A run of commands then succeeds as
soon as the commands of every key succeed on their own cell, and leaves in each
cell what those commands leave there: commands of different keys do not
interfere, whatever their order.
-/

namespace MagiTrickle.Lib.Keyed

variable {σ κ ν γ ε : Type} [DecidableEq κ]

/-- How commands run on states: what each does to its own cell. -/
structure Machine (σ κ ν γ ε : Type) [DecidableEq κ] where
  /-- The cell of a key. -/
  view : σ → κ → ν
  /-- The states considered. -/
  Inv : σ → Prop
  /-- The commands considered. -/
  Good : γ → Prop
  exec : σ → γ → Except ε σ
  key : γ → κ
  act : γ → ν → Except ε ν
  /-- Where the action on the cell succeeds the command succeeds, with that effect only. -/
  exec_ok : ∀ s c v, Inv s → Good c → act c (view s (key c)) = .ok v →
    ∃ s', exec s c = .ok s' ∧ Inv s' ∧ ∀ k, view s' k = if k = key c then v else view s k

def Machine.cell (M : Machine σ κ ν γ ε) (cs : List γ) (k : κ) (v : ν) :
    Except ε ν :=
  (cs.filter fun c => M.key c = k).foldlM (fun v c => M.act c v) v

/-- A run succeeds when the commands of each key do, and does to each cell what they do. -/
theorem Machine.run_ok (M : Machine σ κ ν γ ε) (cs : List γ) (s : σ) (hs : M.Inv s)
    (hcs : ∀ c ∈ cs, M.Good c) (g : κ → ν) (h : ∀ k, M.cell cs k (M.view s k) = .ok (g k)) :
    ∃ s', cs.foldlM M.exec s = .ok s' ∧ M.Inv s' ∧ ∀ k, M.view s' k = g k := by
  induction cs generalizing s with
  | nil =>
    refine ⟨s, rfl, hs, fun k => ?_⟩
    have := h k
    simp only [cell, List.filter_nil, List.foldlM_nil] at this
    exact Except.ok.inj this
  | cons c cs ih =>
    -- the first command succeeds since the commands of its own key do
    have hc := h (M.key c)
    rw [cell, List.filter_cons_of_pos (by simp), List.foldlM_cons] at hc
    obtain ⟨v, hv, hrest⟩ : ∃ v, M.act c (M.view s (M.key c)) = .ok v ∧
        M.cell cs (M.key c) v = .ok (g (M.key c)) := by
      cases hv : M.act c (M.view s (M.key c)) with
      | error e =>
        rw [hv] at hc
        cases hc
      | ok v =>
        rw [hv] at hc
        exact ⟨v, rfl, hc⟩
    obtain ⟨s₁, hexec, hinv, hview⟩ := M.exec_ok s c v hs (hcs c (List.mem_cons_self ..)) hv
    obtain ⟨s', hrun, hinv', hview'⟩ := ih s₁ hinv (fun c hc => hcs c (List.mem_cons_of_mem _ hc)) fun k => by
      rw [hview k]
      by_cases hk : k = M.key c
      · rw [if_pos hk, hk]
        exact hrest
      · have := h k
        rw [cell, List.filter_cons_of_neg (by simpa using Ne.symm hk)] at this
        rw [if_neg hk]
        exact this
    refine ⟨s', ?_, hinv', hview'⟩
    rw [List.foldlM_cons, hexec]
    exact hrun

theorem Machine.run_part (M : Machine σ κ ν γ ε) (xs ys : List γ) (s : σ) (hs : M.Inv s)
    (hcs : ∀ c ∈ xs, M.Good c) (h : ∀ k, ∃ v, M.cell (xs ++ ys) k (M.view s k) = .ok v) :
    ∃ s₁, xs.foldlM M.exec s = .ok s₁ ∧ M.Inv s₁ ∧
      ∀ k, M.cell xs k (M.view s k) = .ok (M.view s₁ k) := by
  have hpart : ∀ k, ∃ v, M.cell xs k (M.view s k) = .ok v := by
    intro k
    obtain ⟨v, hv⟩ := h k
    rw [cell, List.filter_append, List.foldlM_append] at hv
    rw [cell]
    cases hx : (xs.filter fun c => M.key c = k).foldlM (fun v c => M.act c v) (M.view s k) with
    | error e =>
      rw [hx] at hv
      cases hv
    | ok w => exact ⟨w, rfl⟩
  choose g hg using hpart
  obtain ⟨s₁, hrun, hinv, hview⟩ := M.run_ok xs s hs hcs g hg
  exact ⟨s₁, hrun, hinv, fun k => (hg k).trans (by rw [hview k])⟩

/-! ## The commands of one key in a script -/

section Script

variable {α : Type} {name : α → κ} {xs : List α} {x : α} {f : α → List γ} {p : γ → Bool}

omit [DecidableEq κ] in
/-- Only the part of the script under the key's own name matters. -/
theorem filter_flatMap_of_mem (hnd : (xs.map name).Nodup) (hx : x ∈ xs)
    (h : ∀ y ∈ xs, name y ≠ name x → ∀ c ∈ f y, p c = false) :
    (xs.flatMap f).filter p = (f x).filter p := by
  induction xs with
  | nil => exact absurd hx List.not_mem_nil
  | cons y ys ih =>
    simp only [List.map_cons, List.nodup_cons] at hnd
    rw [List.flatMap_cons, List.filter_append]
    rcases List.mem_cons.mp hx with rfl | hx
    · have hnil : (ys.flatMap f).filter p = [] := by
        rw [List.filter_eq_nil_iff]
        intro c hc
        obtain ⟨y, hy, hc⟩ := List.mem_flatMap.mp hc
        have hne : name y ≠ name x := fun he => hnd.1 (he ▸ List.mem_map_of_mem hy)
        simp [h y (List.mem_cons_of_mem _ hy) hne c hc]
      rw [hnil, List.append_nil]
    · have hnil : (f y).filter p = [] := by
        rw [List.filter_eq_nil_iff]
        intro c hc
        have hne : name y ≠ name x := fun he => hnd.1 (he ▸ List.mem_map_of_mem hx)
        simp [h y (List.mem_cons_self ..) hne c hc]
      rw [hnil, List.nil_append, ih hnd.2 hx fun y hy => h y (List.mem_cons_of_mem _ hy)]

theorem filter_flatMap_eq_nil (h : ∀ y ∈ xs, ∀ c ∈ f y, p c = false) :
    (xs.flatMap f).filter p = [] := by
  rw [List.filter_eq_nil_iff]
  intro c hc
  obtain ⟨y, hy, hc⟩ := List.mem_flatMap.mp hc
  simp [h y hy c hc]

end Script

/-- A fold of steps that each change one cell, over a list that names no cell twice. -/
theorem view_foldl {σ κ ν γ : Type} [DecidableEq κ] {v : σ → κ → ν} {f : σ → γ → σ}
    {key : γ → κ} {u : γ → ν → ν} {xs : List γ}
    (hf : ∀ s, ∀ x ∈ xs, ∀ k, v (f s x) k = if k = key x then u x (v s k) else v s k)
    (hnd : (xs.map key).Nodup) (s : σ) (k : κ) :
    v (xs.foldl f s) k = (xs.find? fun x => key x = k).elim (v s k) fun x => u x (v s k) := by
  induction xs generalizing s with
  | nil => rfl
  | cons x xs ih =>
    rw [List.map_cons, List.nodup_cons] at hnd
    rw [List.foldl_cons, ih (fun s y hy => hf s y (List.mem_cons_of_mem _ hy)) hnd.2,
      hf s x (List.mem_cons_self ..)]
    by_cases hk : k = key x
    · subst hk
      have hnone : xs.find? (fun y => key y = key x) = none := by
        rw [List.find?_eq_none]
        intro y hy hyx
        exact hnd.1 (List.mem_map.mpr ⟨y, hy, of_decide_eq_true hyx⟩)
      rw [if_pos rfl, hnone, List.find?_cons_of_pos (by simp)]
      rfl
    · rw [if_neg hk, List.find?_cons_of_neg (by simpa using Ne.symm hk)]

end MagiTrickle.Lib.Keyed
