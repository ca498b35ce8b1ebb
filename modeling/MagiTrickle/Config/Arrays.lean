import MagiTrickle.Config.Models

/-!
# Growing arrays (`grow_array` in `config/models.c`)

The capacity of an array is inferred from its count: eight elements at first,
twice the count whenever the count is a power of two from eight on. An append
stores at the index of the count; `store` records that index with the size of
the block at that moment. Blocks of a power of two from eight on always have
room (`Grown`). A block that was filled exactly when it was installed has none,
unless its size happens to be such a power (`inBounds_store_iff`).
-/

namespace MagiTrickle.Config

/-- `grow_array`: the size of the block after it has been asked to hold one more than `n`. -/
def growArray (alloc : Option Nat) (n : Nat) : Option Nat :=
  if n &&& (n - 1) = 0 ∧ n ≥ 8 then some (n * 2)
  else if n < 8 then
    match alloc with
    | none => some 8
    | some m => some m
  else alloc

/-- A store into an array: the index, and the number of elements allocated. -/
structure Store where
  index : Nat
  size : Nat
  deriving DecidableEq, Repr

def Store.InBounds (s : Store) : Prop := s.index < s.size

instance (s : Store) : Decidable s.InBounds := inferInstanceAs (Decidable (s.index < s.size))

namespace CArray

variable {α : Type}

/-- The common body of `mt_group_add_rule`, `mt_config_add_group`, `mt_subscription_add_rule` and
`mt_config_add_subscription`. -/
def push (a : CArray α) (x : α) : CArray α :=
  ⟨a.items ++ [x], growArray a.alloc a.items.length⟩

/-- The store that `push` makes. -/
def store (a : CArray α) : Store :=
  ⟨a.items.length, (growArray a.alloc a.items.length).getD 0⟩

def pushAll (a : CArray α) (xs : List α) : CArray α := xs.foldl push a

/-- The stores of `pushAll`. -/
def stores (a : CArray α) : List α → List Store
  | [] => []
  | x :: xs => a.store :: stores (a.push x) xs

/-- Elements moved down over the one at `i`; the block stays. -/
def eraseIdx (a : CArray α) (i : Nat) : CArray α := { a with items := a.items.eraseIdx i }

def mapItems (f : List α → List α) (a : CArray α) : CArray α := { a with items := f a.items }

@[simp] theorem items_push (a : CArray α) (x : α) : (a.push x).items = a.items ++ [x] := rfl

@[simp] theorem items_pushAll (a : CArray α) (xs : List α) :
    (a.pushAll xs).items = a.items ++ xs := by
  induction xs generalizing a with
  | nil => simp [pushAll]
  | cons x xs ih =>
    show ((a.push x).pushAll xs).items = _
    rw [ih, items_push, List.append_assoc, List.singleton_append]

/-! ## Room for the next element -/

/-- The elements lie in the block. -/
def Fits (a : CArray α) : Prop :=
  match a.alloc with
  | none => a.items = []
  | some m => a.items.length ≤ m

/-- A block as `grow_array` makes it: a power of two from eight on, or none yet. -/
def Grown (a : CArray α) : Prop :=
  match a.alloc with
  | none => a.items = []
  | some m => a.items.length ≤ m ∧ 8 ≤ m ∧ m.isPowerOfTwo

/-- The block is full and `grow_array` does not notice it. -/
def Stuck (a : CArray α) : Prop :=
  a.alloc = some a.items.length ∧ ¬ (8 ≤ a.items.length ∧ a.items.length.isPowerOfTwo)

instance (a : CArray α) : Decidable a.Stuck :=
  inferInstanceAs (Decidable (_ ∧ ¬ (_ ∧ _)))

theorem Grown.fits {a : CArray α} (h : a.Grown) : a.Fits := by
  unfold Grown at h
  unfold Fits
  cases ha : a.alloc with
  | none =>
    rw [ha] at h
    exact h
  | some m =>
    rw [ha] at h
    exact h.1

theorem Grown.not_stuck {a : CArray α} (h : a.Grown) : ¬ a.Stuck := by
  rintro ⟨ha, hn⟩
  rw [Grown, ha] at h
  exact hn h.2

theorem grown_empty : (empty : CArray α).Grown := rfl

theorem fits_exact (l : List α) : (exact l).Fits := by
  unfold exact Fits
  split
  · next h =>
    simp only at h
    split at h
    · next hl => exact hl
    · cases h
  · next m h =>
    simp only at h
    split at h
    · cases h
    · cases h
      exact Nat.le_refl _

theorem growArray_cases (alloc : Option Nat) (n : Nat) :
    (8 ≤ n ∧ n.isPowerOfTwo ∧ growArray alloc n = some (n * 2)) ∨
      (n < 8 ∧ alloc = none ∧ growArray alloc n = some 8) ∨
      (n < 8 ∧ ∃ m, alloc = some m ∧ growArray alloc n = some m) ∨
      (8 ≤ n ∧ ¬ n.isPowerOfTwo ∧ growArray alloc n = alloc) := by
  unfold growArray
  by_cases hn : n < 8
  · rw [if_neg (by omega), if_pos hn]
    cases alloc with
    | none => exact .inr (.inl ⟨hn, rfl, rfl⟩)
    | some m => exact .inr (.inr (.inl ⟨hn, m, rfl, rfl⟩))
  · have hiff := Nat.and_sub_one_eq_zero_iff_isPowerOfTwo (n := n) (by omega)
    by_cases hp : n.isPowerOfTwo
    · rw [if_pos ⟨hiff.mpr hp, by omega⟩]
      exact .inl ⟨by omega, hp, rfl⟩
    · rw [if_neg (fun h => hp (hiff.mp h.1)), if_neg hn]
      exact .inr (.inr (.inr ⟨by omega, hp, rfl⟩))

theorem inBounds_store_iff {a : CArray α} (h : a.Fits) : a.store.InBounds ↔ ¬ a.Stuck := by
  -- where the block stays as it is, the question is whether it is full
  have hfull : ∀ m, a.alloc = some m → growArray a.alloc a.items.length = some m →
      ¬ (8 ≤ a.items.length ∧ a.items.length.isPowerOfTwo) → (a.store.InBounds ↔ ¬ a.Stuck) := by
    intro m ha hg hp
    rw [Fits, ha] at h
    unfold Store.InBounds store Stuck
    rw [hg, ha, Option.some.injEq]
    refine ⟨fun hlt hs => ?_, fun hs => ?_⟩
    · have : a.items.length < m := hlt
      exact absurd hs.1 (by omega)
    · show a.items.length < m
      by_contra hge
      have h : a.items.length ≤ m := h
      exact hs ⟨by omega, hp⟩
  rcases growArray_cases a.alloc a.items.length with ⟨h8, hp, hg⟩ | ⟨h8, ha, hg⟩ |
    ⟨h8, m, ha, hg⟩ | ⟨h8, hp, hg⟩
  · unfold Store.InBounds store Stuck
    rw [hg]
    refine ⟨fun _ hs => hs.2 ⟨h8, hp⟩, fun _ => ?_⟩
    show a.items.length < a.items.length * 2
    omega
  · unfold Store.InBounds store Stuck
    rw [hg, ha]
    refine ⟨fun _ hs => ?_, fun _ => h8⟩
    cases hs.1
  · exact hfull m ha hg fun hc => by omega
  · cases ha : a.alloc with
    | none =>
      rw [Fits, ha] at h
      have h : a.items = [] := h
      rw [h] at h8
      exact absurd h8 (by simp)
    | some m => exact hfull m ha (hg.trans ha) fun hc => hp hc.2

theorem Fits.push {a : CArray α} (h : a.Fits) (hs : ¬ a.Stuck) (x : α) : (a.push x).Fits := by
  have hb := (inBounds_store_iff h).mpr hs
  unfold Store.InBounds store at hb
  unfold Fits CArray.push
  cases hg : growArray a.alloc a.items.length with
  | none =>
    rw [hg] at hb
    exact absurd hb (Nat.not_lt_zero _)
  | some m =>
    rw [hg] at hb
    show (a.items ++ [x]).length ≤ m
    rw [List.length_append, List.length_singleton]
    exact hb

theorem Grown.push {a : CArray α} (h : a.Grown) (x : α) : (a.push x).Grown := by
  have hfits : (a.push x).Fits := h.fits.push h.not_stuck x
  have hpow : ∀ m, growArray a.alloc a.items.length = some m → 8 ≤ m ∧ m.isPowerOfTwo := by
    intro m hm
    rcases growArray_cases a.alloc a.items.length with ⟨h8, hp, hg⟩ | ⟨-, -, hg⟩ |
      ⟨-, k, ha, hg⟩ | ⟨-, -, hg⟩
    · rw [hg] at hm
      cases hm
      exact ⟨by omega, Nat.isPowerOfTwo_mul_two_of_isPowerOfTwo hp⟩
    · rw [hg] at hm
      cases hm
      exact ⟨by decide, 3, rfl⟩
    · rw [hg] at hm
      cases hm
      rw [Grown, ha] at h
      exact h.2
    · rw [hg] at hm
      rw [Grown, hm] at h
      exact h.2
  unfold Fits at hfits
  unfold Grown
  cases hm : (a.push x).alloc with
  | none =>
    rw [hm] at hfits
    exact hfits
  | some m =>
    rw [hm] at hfits
    exact ⟨hfits, hpow m hm⟩

theorem Grown.pushAll {a : CArray α} (h : a.Grown) (xs : List α) : (a.pushAll xs).Grown := by
  induction xs generalizing a with
  | nil => exact h
  | cons x xs ih => exact ih (h.push x)

theorem Grown.inBounds_stores {a : CArray α} (h : a.Grown) (xs : List α) :
    ∀ s ∈ a.stores xs, s.InBounds := by
  induction xs generalizing a with
  | nil => simp [stores]
  | cons x xs ih =>
    intro s hs
    rcases List.mem_cons.mp hs with rfl | hs
    · exact (inBounds_store_iff h.fits).mpr h.not_stuck
    · exact ih (h.push x) s hs

theorem Fits.of_le {a b : CArray α} (h : a.Fits) (halloc : b.alloc = a.alloc)
    (hlen : b.items.length ≤ a.items.length) : b.Fits := by
  unfold Fits at h ⊢
  rw [halloc]
  cases ha : a.alloc with
  | none =>
    rw [ha] at h
    rw [h] at hlen
    exact List.eq_nil_of_length_eq_zero (Nat.le_zero.mp hlen)
  | some m =>
    rw [ha] at h
    exact Nat.le_trans hlen h

theorem Grown.of_le {a b : CArray α} (h : a.Grown) (halloc : b.alloc = a.alloc)
    (hlen : b.items.length ≤ a.items.length) : b.Grown := by
  have hfits := h.fits.of_le halloc hlen
  unfold Fits at hfits
  unfold Grown at h ⊢
  cases ha : b.alloc with
  | none =>
    rw [ha] at hfits
    exact hfits
  | some m =>
    rw [ha] at hfits
    rw [← halloc, ha] at h
    exact ⟨hfits, h.2⟩

end CArray

end MagiTrickle.Config
