import Mathlib.Algebra.Group.Nat.Defs
import Mathlib.Data.List.Basic
import Mathlib.Tactic.Common

/-!
# Functions of a message block by block

A message is cut into blocks of one size (`chunks`); it is padded first so that
its length is a multiple of the size and ends with a field for the length
(`pad`). A run of blocks that make up the message is the only one
(`chunks_flatten`).
-/

namespace MagiTrickle.Lib.Blocks

variable {α : Type}

/-- The blocks of `n` elements at the beginning of a list. -/
def chunks (n : Nat) (xs : List α) : List (List α) :=
  (List.range (xs.length / n)).map fun i => (xs.drop (i * n)).take n

theorem length_flatten {n : Nat} {bs : List (List α)} (h : ∀ b ∈ bs, b.length = n) :
    bs.flatten.length = bs.length * n := by
  induction bs with
  | nil => simp
  | cons b bs ih =>
    rw [List.flatten_cons, List.length_append, h b List.mem_cons_self,
      ih fun b' hb' => h b' (List.mem_cons_of_mem _ hb'), List.length_cons, Nat.succ_mul, Nat.add_comm]

theorem chunks_flatten {n : Nat} (hn : 0 < n) {bs : List (List α)} (h : ∀ b ∈ bs, b.length = n) :
    chunks n bs.flatten = bs := by
  rw [chunks, length_flatten h, Nat.mul_div_cancel _ hn]
  induction bs with
  | nil => rfl
  | cons b bs ih =>
    have hb : b.length = n := h b List.mem_cons_self
    have hdrop (i : Nat) : (b ++ bs.flatten).drop ((i + 1) * n) = bs.flatten.drop (i * n) := by
      rw [Nat.succ_mul, Nat.add_comm, ← hb, List.drop_append]
      simp
    rw [List.length_cons, List.range_succ_eq_map, List.map_cons, List.map_map, List.flatten_cons,
      Nat.zero_mul, List.drop_zero, ← hb, List.take_left, hb]
    refine congrArg (b :: ·) ((List.map_congr_left fun i _ => ?_).trans
      (ih fun b' hb' => h b' (List.mem_cons_of_mem _ hb')))
    show ((b ++ bs.flatten).drop ((i + 1) * n)).take n = _
    rw [hdrop]

/-! ## Padding -/

/-- The number of zeros after `n` elements that are followed by a field at `pos` of a block. -/
def zeros (size pos n : Nat) : Nat := (pos + size - n % size) % size

theorem zeros_eq {size pos : Nat} (h : pos < size) (n : Nat) :
    zeros size pos n = if n % size ≤ pos then pos - n % size else pos + size - n % size := by
  have hmod := Nat.mod_lt n (Nat.zero_lt_of_lt h)
  unfold zeros
  split
  · rw [show pos + size - n % size = pos - n % size + size by omega, Nat.add_mod_right,
      Nat.mod_eq_of_lt (by omega)]
  · rw [Nat.mod_eq_of_lt (by omega)]

theorem zeros_succ {size pos n : Nat} (h : pos < size) (hn : n % size ≠ pos) :
    zeros size pos n = zeros size pos (n + 1) + 1 := by
  have hmod := Nat.mod_lt n (Nat.zero_lt_of_lt h)
  have hsucc : (n + 1) % size = if n % size + 1 = size then 0 else n % size + 1 := by
    rw [← Nat.mod_add_mod]
    split
    · rename_i heq
      rw [heq, Nat.mod_self]
    · exact Nat.mod_eq_of_lt (by omega)
  rw [zeros_eq h, zeros_eq h, hsucc]
  split_ifs <;> omega

theorem zeros_of_mod {size pos n : Nat} (h : pos < size) (hn : n % size = pos) :
    zeros size pos n = 0 := by
  rw [zeros_eq h, hn, if_pos (Nat.le_refl pos), Nat.sub_self]

/-- A message, a mark, zeros, and a field for the length. -/
def pad (size pos : Nat) (mark zero : α) (field : List α) (msg : List α) : List α :=
  msg ++ [mark] ++ List.replicate (zeros size pos (msg.length + 1)) zero ++ field

/-! ## Numbers as bytes -/

/-- The last `k` bytes of a number, the lowest first. -/
def littleEndian (k m : Nat) : List UInt8 := (List.range k).map fun i => UInt8.ofNat (m / 256 ^ i)

/-- The last `k` bytes of a number, the highest first. -/
def bigEndian (k m : Nat) : List UInt8 := (littleEndian k m).reverse

@[simp] theorem length_littleEndian (k m : Nat) : (littleEndian k m).length = k := by
  rw [littleEndian, List.length_map, List.length_range]

@[simp] theorem length_bigEndian (k m : Nat) : (bigEndian k m).length = k := by
  rw [bigEndian, List.length_reverse, length_littleEndian]

theorem littleEndian_add {k m : Nat} (j : Nat) (h : m < 256 ^ k) :
    littleEndian (k + j) m = littleEndian k m ++ List.replicate j 0 := by
  rw [littleEndian, littleEndian, List.range_add, List.map_append, List.map_map]
  refine congrArg (_ ++ ·) ?_
  rw [List.eq_replicate_iff]
  refine ⟨by simp, fun b hb => ?_⟩
  obtain ⟨i, -, rfl⟩ := List.mem_map.mp hb
  show UInt8.ofNat (m / 256 ^ (k + i)) = 0
  have hlt : m < 256 ^ (k + i) :=
    Nat.lt_of_lt_of_le h (Nat.pow_le_pow_right (by decide : 256 > 0) (Nat.le_add_right k i))
  rw [Nat.div_eq_of_lt hlt]
  rfl

theorem bigEndian_add {k m : Nat} (j : Nat) (h : m < 256 ^ k) :
    bigEndian (k + j) m = List.replicate j 0 ++ bigEndian k m := by
  rw [bigEndian, littleEndian_add j h, List.reverse_append, List.reverse_replicate, bigEndian]

end MagiTrickle.Lib.Blocks
