import Mathlib.Data.List.Basic

/-!
# Label forests

A trie over words of labels, kept as the ordered children of its root. A child
has a label, a mark saying that some inserted word ends there, and its own
children; a new child goes to the end. `walk` follows a query label by label
and stops at the first marked child it enters, so it decides whether some
inserted word is a prefix of the query.
-/

namespace MagiTrickle.Lib

variable {α : Type} [DecidableEq α]

/-- The children of a trie node, in insertion order. -/
inductive Forest (α : Type) where
  | nil
  | cons (label : α) (terminal : Bool) (sub rest : Forest α)
  deriving DecidableEq, Repr

namespace Forest

/-- A single branch: the children created for a word none of whose labels exists. -/
def branch : List α → Forest α
  | [] => nil
  | l :: ls => cons l ls.isEmpty (branch ls) nil

/-- Follow `word`, creating the children that are missing, and mark its end. -/
def insert : Forest α → List α → Forest α
  | f, [] => f
  | nil, l :: ls => branch (l :: ls)
  | cons l' t sub rest, l :: ls =>
    if l' = l then cons l' (t || ls.isEmpty) (insert sub ls) rest
    else cons l' t sub (insert rest (l :: ls))

def walk : Forest α → List α → Bool
  | _, [] => false
  | nil, _ :: _ => false
  | cons l t sub rest, x :: xs => if l = x then t || walk sub xs else walk rest (x :: xs)

/-- `word` ends at a marked child. -/
def Holds : Forest α → List α → Prop
  | _, [] => False
  | nil, _ :: _ => False
  | cons l t sub rest, x :: xs =>
    if l = x then (xs = [] ∧ t = true) ∨ Holds sub xs else Holds rest (x :: xs)

@[simp] theorem not_holds_nil (f : Forest α) : ¬ Holds f [] := by
  cases f <;> simp [Holds]

@[simp] theorem not_holds_empty (w : List α) : ¬ Holds nil w := by
  cases w <;> simp [Holds]

theorem holds_branch (w v : List α) : Holds (branch w) v ↔ v = w ∧ w ≠ [] := by
  induction w generalizing v with
  | nil => simp [branch]
  | cons l ls ih =>
    cases v with
    | nil => simp
    | cons x xs =>
      simp only [branch, Holds, ih]
      by_cases hx : l = x
      · subst hx
        cases ls <;> simp
      · simp [hx, Ne.symm hx]

theorem holds_insert (f : Forest α) (w v : List α) :
    Holds (insert f w) v ↔ (v = w ∧ w ≠ []) ∨ Holds f v := by
  induction f, w using insert.induct generalizing v with
  | case1 f => simp [insert]
  | case2 l ls => simp [insert, holds_branch]
  | case3 t sub rest l ls ih =>
    cases v with
    | nil => simp
    | cons x xs =>
      simp only [insert, if_true, Holds, ih]
      by_cases hx : l = x
      · subst hx
        cases ls <;> cases t <;> (simp; try tauto)
      · simp [hx, Ne.symm hx]
  | case4 l' t sub rest l ls hne ih =>
    cases v with
    | nil => simp
    | cons x xs =>
      simp only [insert, if_neg hne, Holds]
      by_cases hx : l' = x
      · subst hx
        simp [hne]
      · simp only [if_neg hx, ih]

/-- A walk succeeds exactly when some marked word is a prefix of the query. -/
theorem walk_iff (f : Forest α) (q : List α) : walk f q = true ↔ ∃ w, Holds f w ∧ w <+: q := by
  induction f, q using walk.induct with
  | case1 f =>
    simp only [walk, Bool.false_eq_true, List.prefix_nil, false_iff, not_exists, not_and]
    rintro w hw rfl
    exact not_holds_nil f hw
  | case2 x xs => simp [walk]
  | case3 t sub rest l xs ih =>
    simp only [walk, if_true, Bool.or_eq_true, ih]
    constructor
    · rintro (ht | ⟨w, hw, hp⟩)
      · exact ⟨[l], by simp [Holds, ht], by simp⟩
      · exact ⟨l :: w, by simp [Holds, hw], by simpa using hp⟩
    · rintro ⟨w, hw, hp⟩
      cases w with
      | nil => simp at hw
      | cons y ys =>
        obtain ⟨rfl, hys⟩ := List.cons_prefix_cons.mp hp
        rcases (by simpa [Holds] using hw : _ ∨ _) with ⟨-, ht⟩ | hs
        · exact .inl ht
        · exact .inr ⟨ys, hs, hys⟩
  | case4 l t sub rest x xs hne ih =>
    simp only [walk, if_neg hne, ih]
    constructor
    · rintro ⟨w, hw, hp⟩
      cases w with
      | nil => simp at hw
      | cons y ys =>
        obtain ⟨rfl, -⟩ := List.cons_prefix_cons.mp hp
        exact ⟨y :: ys, by simpa [Holds, hne] using hw, hp⟩
    · rintro ⟨w, hw, hp⟩
      cases w with
      | nil => simp at hw
      | cons y ys =>
        obtain ⟨rfl, -⟩ := List.cons_prefix_cons.mp hp
        exact ⟨y :: ys, by simpa [Holds, hne] using hw, hp⟩

theorem holds_foldl_insert (ws : List (List α)) (f : Forest α) (v : List α) :
    Holds (ws.foldl insert f) v ↔ (v ∈ ws ∧ v ≠ []) ∨ Holds f v := by
  induction ws generalizing f with
  | nil => simp
  | cons w ws ih =>
    rw [List.foldl_cons, ih, holds_insert, List.mem_cons]
    constructor
    · rintro (⟨h, hv⟩ | ⟨rfl, hv⟩ | h)
      · exact .inl ⟨.inr h, hv⟩
      · exact .inl ⟨.inl rfl, hv⟩
      · exact .inr h
    · rintro (⟨rfl | h, hv⟩ | h)
      · exact .inr (.inl ⟨rfl, hv⟩)
      · exact .inl ⟨h, hv⟩
      · exact .inr (.inr h)

end Forest

end MagiTrickle.Lib
