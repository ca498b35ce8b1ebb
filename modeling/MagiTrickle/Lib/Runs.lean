import Mathlib.Data.List.Basic

/-!
# Runs

A run folds a step function over a list of inputs. For steps that may fail a run
fails exactly at its first failing step (`foldlM_error_iff`), and a property
that is lost along a run is lost at one of its steps (`exists_lost`). For total
steps `Guarded` says that every step of a run meets a guard in the state it is
taken in; an invariant that guarded steps keep holds in every state of a
guarded run (`Guarded.inv`). `untilErr` is the loop of code that works on a
state in place and gives up at the first error, with what was done so far kept.
-/

namespace MagiTrickle.Lib.Runs

section Fail

variable {σ α ε : Type} {step : σ → α → Except ε σ}

theorem foldlM_cons_ok {x : α} {xs : List α} {s s' : σ} :
    (x :: xs).foldlM step s = .ok s' ↔ ∃ s₁, step s x = .ok s₁ ∧ xs.foldlM step s₁ = .ok s' := by
  rw [List.foldlM_cons]
  cases h : step s x with
  | error e =>
    refine ⟨fun h' => ?_, ?_⟩
    · cases h'
    · rintro ⟨s₁, h₁, -⟩
      cases h₁
  | ok s₁ =>
    refine ⟨fun h' => ⟨s₁, rfl, h'⟩, ?_⟩
    rintro ⟨s₂, h₂, h'⟩
    cases h₂
    exact h'

theorem foldlM_append_ok {xs ys : List α} {s s' : σ} :
    (xs ++ ys).foldlM step s = .ok s' ↔
      ∃ s₁, xs.foldlM step s = .ok s₁ ∧ ys.foldlM step s₁ = .ok s' := by
  induction xs generalizing s with
  | nil =>
    refine ⟨fun h => ⟨s, rfl, h⟩, ?_⟩
    rintro ⟨s₁, h₁, h⟩
    cases h₁
    exact h
  | cons x xs ih =>
    rw [List.cons_append, foldlM_cons_ok]
    simp only [ih, foldlM_cons_ok]
    refine ⟨?_, ?_⟩
    · rintro ⟨s₁, hx, s₂, hxs, hys⟩
      exact ⟨s₂, ⟨s₁, hx, hxs⟩, hys⟩
    · rintro ⟨s₂, ⟨s₁, hx, hxs⟩, hys⟩
      exact ⟨s₁, hx, s₂, hxs, hys⟩

/-- A run fails at its first failing step. -/
theorem foldlM_error_iff (xs : List α) (s : σ) :
    (∃ e, xs.foldlM step s = .error e) ↔
      ∃ pre x post s', xs = pre ++ x :: post ∧ pre.foldlM step s = .ok s' ∧
        ∃ e, step s' x = .error e := by
  induction xs generalizing s with
  | nil =>
    refine ⟨?_, ?_⟩
    · rintro ⟨e, h⟩
      cases h
    · rintro ⟨pre, x, post, s', h, -⟩
      exact absurd h.symm (by simp)
  | cons y ys ih =>
    cases hy : step s y with
    | error e =>
      refine ⟨fun _ => ⟨[], y, ys, s, rfl, rfl, e, hy⟩, fun _ => ⟨e, ?_⟩⟩
      rw [List.foldlM_cons, hy]
      rfl
    | ok s₁ =>
      have hrun : ∀ zs : List α, (y :: zs).foldlM step s = zs.foldlM step s₁ := by
        intro zs
        rw [List.foldlM_cons, hy]
        rfl
      rw [hrun, ih]
      refine ⟨?_, ?_⟩
      · rintro ⟨pre, x, post, s', rfl, hpre, he⟩
        exact ⟨y :: pre, x, post, s', rfl, (hrun pre).trans hpre, he⟩
      · rintro ⟨pre, x, post, s', heq, hpre, e, he⟩
        cases pre with
        | nil =>
          cases heq
          cases hpre
          rw [hy] at he
          cases he
        | cons z pre =>
          cases heq
          exact ⟨pre, x, post, s', rfl, (hrun pre).symm.trans hpre, e, he⟩

/-- A property that holds before a run and not after it is lost at one step. -/
theorem exists_lost {P : σ → Prop} {xs : List α} {s s' : σ} (h : xs.foldlM step s = .ok s')
    (hs : P s) (hs' : ¬ P s') :
    ∃ pre x post s₁ s₂, xs = pre ++ x :: post ∧ pre.foldlM step s = .ok s₁ ∧
      step s₁ x = .ok s₂ ∧ post.foldlM step s₂ = .ok s' ∧ P s₁ ∧ ¬ P s₂ := by
  induction xs generalizing s with
  | nil =>
    cases h
    exact absurd hs hs'
  | cons x xs ih =>
    obtain ⟨s₁, hx, hxs⟩ := foldlM_cons_ok.mp h
    by_cases hs₁ : P s₁
    · obtain ⟨pre, y, post, s₂, s₃, rfl, hpre, hy, hpost, h₂, h₃⟩ := ih hxs hs₁
      exact ⟨x :: pre, y, post, s₂, s₃, rfl, foldlM_cons_ok.mpr ⟨s₁, hx, hpre⟩, hy, hpost, h₂, h₃⟩
    · exact ⟨[], x, xs, s, s₁, rfl, rfl, hx, hxs, hs, hs₁⟩

/-- What every step keeps a run keeps. -/
theorem foldlM_inv {I : σ → Prop} (hstep : ∀ s x s', I s → step s x = .ok s' → I s')
    {xs : List α} {s s' : σ} (h : xs.foldlM step s = .ok s') (hs : I s) : I s' := by
  by_contra hs'
  obtain ⟨-, x, -, s₁, s₂, -, -, hx, -, h₁, h₂⟩ := exists_lost h hs hs'
  exact h₂ (hstep s₁ x s₂ h₁ hx)

end Fail

section Guarded

variable {σ α : Type} {step : σ → α → σ} {G : σ → α → Prop}

/-- Every step of the run is taken in a state that meets the guard. -/
def Guarded (G : σ → α → Prop) (step : σ → α → σ) : σ → List α → Prop
  | _, [] => True
  | s, x :: xs => G s x ∧ Guarded G step (step s x) xs

theorem Guarded.append {s : σ} {xs ys : List α} :
    Guarded G step s (xs ++ ys) ↔ Guarded G step s xs ∧ Guarded G step (xs.foldl step s) ys := by
  induction xs generalizing s with
  | nil => simp [Guarded]
  | cons x xs ih => simp only [List.cons_append, Guarded, ih, List.foldl_cons, and_assoc]

/-- An invariant of guarded steps holds after a guarded run. -/
theorem Guarded.inv {I : σ → Prop} (hstep : ∀ s x, I s → G s x → I (step s x)) {s : σ}
    {xs : List α} (h : Guarded G step s xs) (hs : I s) : I (xs.foldl step s) := by
  induction xs generalizing s with
  | nil => exact hs
  | cons x xs ih => exact ih h.2 (hstep s x hs h.1)

end Guarded

section Until

variable {σ α ε : Type}

/-- Steps are taken until one reports an error; its state is the last one. -/
def untilErr (f : σ → α → σ × Option ε) : σ → List α → σ × Option ε
  | s, [] => (s, none)
  | s, x :: xs =>
    match f s x with
    | (s, some e) => (s, some e)
    | (s, none) => untilErr f s xs

variable {f : σ → α → σ × Option ε}

theorem untilErr_eq_foldl {g : σ → α → σ} (h : ∀ s x, f s x = (g s x, none)) (s : σ) (xs : List α) :
    untilErr f s xs = (xs.foldl g s, none) := by
  induction xs generalizing s with
  | nil => rfl
  | cons x xs ih =>
    rw [untilErr, h]
    exact ih (g s x)

theorem untilErr_ok {g : σ → α → σ} (h : ∀ s x s', f s x = (s', none) → s' = g s x) {s s' : σ}
    {xs : List α} (hr : untilErr f s xs = (s', none)) : s' = xs.foldl g s := by
  induction xs generalizing s with
  | nil => exact (Prod.mk.inj hr).1.symm
  | cons x xs ih =>
    rw [untilErr] at hr
    split at hr
    · cases (Prod.mk.inj hr).2
    · next s₁ hx =>
      rw [ih hr, h s x s₁ hx]
      rfl

/-- What every step keeps the loop keeps, also one that gives up. -/
theorem untilErr_inv {I : σ → Prop} {xs : List α} (h : ∀ s, ∀ x ∈ xs, I s → I (f s x).1) {s : σ}
    (hs : I s) : I (untilErr f s xs).1 := by
  induction xs generalizing s with
  | nil => exact hs
  | cons x xs ih =>
    have hx := h s x (List.mem_cons_self ..) hs
    rw [untilErr]
    split
    · next hf => rwa [hf] at hx
    · next hf =>
      rw [hf] at hx
      exact ih (fun s y hy => h s y (List.mem_cons_of_mem _ hy)) hx

/-- Two loops whose steps agree go through the list alike. -/
theorem untilErr_sim {τ : Type} {R : σ → τ → Prop} {g : τ → α → τ × Option ε}
    (h : ∀ s t x, R s t → R (f s x).1 (g t x).1 ∧ (f s x).2 = (g t x).2) {s : σ} {t : τ}
    (hst : R s t) (xs : List α) : R (untilErr f s xs).1 (untilErr g t xs).1 ∧
      (untilErr f s xs).2 = (untilErr g t xs).2 := by
  induction xs generalizing s t with
  | nil => exact ⟨hst, rfl⟩
  | cons x xs ih =>
    have hx := h s t x hst
    rw [untilErr, untilErr]
    cases hf : f s x with
    | mk s' e =>
      cases hg : g t x with
      | mk t' e' =>
        rw [hf, hg] at hx
        obtain ⟨hr, rfl⟩ := hx
        cases e with
        | some e => exact ⟨hr, rfl⟩
        | none => exact ih hr

end Until

end MagiTrickle.Lib.Runs
