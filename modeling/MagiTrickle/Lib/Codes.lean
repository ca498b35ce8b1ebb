import Mathlib.Data.List.Basic

/-!
# Codes read from the left

A code over an alphabet is uniquely readable when what follows a code word does
not decide where it ends. Such codes compose: words that end in a mark which
starts no code word are again uniquely readable.
-/

namespace MagiTrickle.Lib.Codes

variable {α β : Type} {code : α → List β}

/-- A code word is read from the left in one way, whatever follows it. -/
def Readable (code : α → List β) : Prop :=
  ∀ a b x y, code a ++ x = code b ++ y → a = b ∧ x = y

/-- A function that reads a code word back makes a code readable. -/
theorem readable_of_decode {decode : List β → Option (α × List β)}
    (h : ∀ a x, decode (code a ++ x) = some (a, x)) : Readable code := by
  intro a b x y hxy
  have hsome : some (a, x) = some (b, y) := by rw [← h a x, hxy, h b y]
  exact Prod.mk.inj (Option.some.inj hsome)

theorem Readable.marked (h : Readable code) {mark : β} (hmark : ∀ a x y, code a ++ x ≠ mark :: y) :
    Readable fun as : List α => as.flatMap code ++ [mark] := by
  intro as
  induction as with
  | nil =>
    intro bs x y hxy
    cases bs with
    | nil => exact ⟨rfl, (List.cons.inj hxy).2⟩
    | cons b bs =>
      simp only [List.flatMap_cons, List.append_assoc] at hxy
      exact absurd hxy.symm (hmark b _ _)
  | cons a as ih =>
    intro bs x y hxy
    cases bs with
    | nil =>
      simp only [List.flatMap_cons, List.append_assoc] at hxy
      exact absurd hxy (hmark a _ _)
    | cons b bs =>
      simp only [List.flatMap_cons, List.append_assoc] at hxy
      obtain ⟨rfl, hrest⟩ := h a b _ _ hxy
      rw [← List.append_assoc, ← List.append_assoc] at hrest
      obtain ⟨rfl, htail⟩ := ih bs x y hrest
      exact ⟨rfl, htail⟩

theorem Readable.flatMap_injective (h : Readable code) (hne : ∀ a, code a ≠ []) :
    Function.Injective fun as : List α => as.flatMap code := by
  intro as
  induction as with
  | nil =>
    intro bs hbs
    cases bs with
    | nil => rfl
    | cons b bs =>
      dsimp only at hbs
      rw [List.flatMap_cons, List.flatMap_nil] at hbs
      exact absurd (List.append_eq_nil_iff.mp hbs.symm).1 (hne b)
  | cons a as ih =>
    intro bs hbs
    cases bs with
    | nil =>
      dsimp only at hbs
      rw [List.flatMap_cons, List.flatMap_nil] at hbs
      exact absurd (List.append_eq_nil_iff.mp hbs).1 (hne a)
    | cons b bs =>
      dsimp only at hbs
      rw [List.flatMap_cons, List.flatMap_cons] at hbs
      obtain ⟨rfl, hrest⟩ := h a b _ _ hbs
      rw [ih hrest]

end MagiTrickle.Lib.Codes
