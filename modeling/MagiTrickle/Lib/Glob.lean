import Mathlib.Data.List.Basic

/-!
# Patterns with gaps

A pattern is a list of tokens: a letter, any letter, any letter or none, any run
of letters. `Derives` is its language. For patterns of letters and single
wildcards the words have the length of the pattern, and so the first of several
runs may be taken as short as it can be (`Derives.later`): a matcher has to come
back to its last run only.
-/

namespace MagiTrickle.Lib.Glob

inductive Token (α : Type) where
  | lit (a : α)
  | any
  | opt
  | run
  deriving DecidableEq, Repr

/-- A token for exactly one letter. -/
def Token.Single {α : Type} : Token α → Prop
  | lit _ | any => True
  | opt | run => False

/-- The words of a pattern. -/
inductive Derives {α : Type} : List (Token α) → List α → Prop where
  | nil : Derives [] []
  | lit {a : α} {ps : List (Token α)} {xs : List α} :
      Derives ps xs → Derives (.lit a :: ps) (a :: xs)
  | any {a : α} {ps : List (Token α)} {xs : List α} : Derives ps xs → Derives (.any :: ps) (a :: xs)
  | skip {ps : List (Token α)} {xs : List α} : Derives ps xs → Derives (.opt :: ps) xs
  | take {a : α} {ps : List (Token α)} {xs : List α} : Derives ps xs → Derives (.opt :: ps) (a :: xs)
  | run {ps : List (Token α)} (ys : List α) {xs : List α} :
      Derives ps xs → Derives (.run :: ps) (ys ++ xs)

variable {α : Type} {ps qs : List (Token α)} {xs ys : List α} {a : α}

theorem Derives.append (h : Derives ps xs) (h' : Derives qs ys) :
    Derives (ps ++ qs) (xs ++ ys) := by
  induction h with
  | nil => exact h'
  | lit _ ih => exact .lit ih
  | any _ ih => exact .any ih
  | skip _ ih => exact .skip ih
  | take _ ih => exact .take ih
  | run zs _ ih =>
    rw [List.append_assoc]
    exact .run zs ih

@[simp] theorem derives_nil : Derives ([] : List (Token α)) xs ↔ xs = [] := by
  refine ⟨fun h => ?_, ?_⟩
  · cases h
    rfl
  · rintro rfl
    exact .nil

theorem derives_lit : Derives (.lit a :: ps) xs ↔ ∃ ys, xs = a :: ys ∧ Derives ps ys := by
  refine ⟨fun h => ?_, ?_⟩
  · cases h with
    | lit h => exact ⟨_, rfl, h⟩
  · rintro ⟨ys, rfl, h⟩
    exact .lit h

theorem derives_any : Derives (.any :: ps) xs ↔ ∃ b ys, xs = b :: ys ∧ Derives ps ys := by
  refine ⟨fun h => ?_, ?_⟩
  · cases h with
    | any h => exact ⟨_, _, rfl, h⟩
  · rintro ⟨b, ys, rfl, h⟩
    exact .any h

theorem derives_run : Derives (.run :: ps) xs ↔ ∃ n, Derives ps (xs.drop n) := by
  refine ⟨fun h => ?_, ?_⟩
  · cases h with
    | run ys h => exact ⟨ys.length, by rwa [List.drop_left]⟩
  · rintro ⟨n, h⟩
    have hrun := Derives.run (xs.take n) h
    rwa [List.take_append_drop] at hrun

theorem derives_of_gaps (h : ∀ t ∈ ps, t = .opt ∨ t = .run) : Derives ps ([] : List α) := by
  induction ps with
  | nil => exact .nil
  | cons t ps ih =>
    obtain ⟨ht, hps⟩ := List.forall_mem_cons.mp h
    rcases ht with rfl | rfl
    · exact .skip (ih hps)
    · exact .run [] (ih hps)

theorem Derives.drop (hs : ∀ t ∈ ps, t.Single) (h : Derives (ps ++ qs) xs) :
    ps.length ≤ xs.length ∧ Derives qs (xs.drop ps.length) := by
  induction ps generalizing xs with
  | nil => exact ⟨Nat.zero_le _, h⟩
  | cons t ps ih =>
    obtain ⟨ht, hps⟩ := List.forall_mem_cons.mp hs
    obtain ⟨b, ys, rfl, hrest⟩ : ∃ b ys, xs = b :: ys ∧ Derives (ps ++ qs) ys := by
      cases t with
      | lit a =>
        obtain ⟨ys, rfl, hrest⟩ := derives_lit.mp h
        exact ⟨a, ys, rfl, hrest⟩
      | any => exact derives_any.mp h
      | opt => exact ht.elim
      | run => exact ht.elim
    obtain ⟨hlen, hq⟩ := ih hps hrest
    exact ⟨Nat.succ_le_succ hlen, hq⟩

/-- A word of single tokens and a run, found further on, leaves a word of the rest further on than
the single tokens reach from here. -/
theorem Derives.later {n m : Nat} (hs : ∀ t ∈ ps, t.Single)
    (h : Derives (ps ++ .run :: qs) (xs.drop m)) (hnm : n ≤ m) :
    ∃ j, n + ps.length + (m - n) ≤ j ∧ Derives qs (xs.drop j) := by
  obtain ⟨-, hrun⟩ := h.drop hs
  rw [List.drop_drop] at hrun
  obtain ⟨k, hk⟩ := derives_run.mp hrun
  rw [List.drop_drop] at hk
  exact ⟨_, by omega, hk⟩

end MagiTrickle.Lib.Glob
