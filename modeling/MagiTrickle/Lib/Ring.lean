import Mathlib.Data.List.Range
import Mathlib.Data.Nat.ModEq

/-!
# Ring buffers

A ring buffer of fixed capacity: the items lie one after the other from `head`
on, around the end of the memory. `contents` is the list of them, first in
first; appending and taking the first are what they are on lists
(`contents_append`, `contents_eq_cons`).
-/

namespace MagiTrickle.Lib

/-- A ring buffer in `n` places. -/
structure Ring (α : Type*) (n : Nat) where
  items : Vector α n
  head : Nat
  len : Nat
  head_lt : head < n
  len_le : len ≤ n

namespace Ring

variable {α : Type*} {n : Nat}

theorem capacity_pos (r : Ring α n) : 0 < n := Nat.zero_lt_of_lt r.head_lt

/-- The place `i` after the head. -/
def slot (r : Ring α n) (i : Nat) : Fin n := ⟨(r.head + i) % n, Nat.mod_lt _ r.capacity_pos⟩

def contents (r : Ring α n) : List α := (List.range r.len).map fun i => r.items[r.slot i]

@[simp] theorem length_contents (r : Ring α n) : r.contents.length = r.len := by
  simp [contents]

def empty (items : Vector α n) (h : 0 < n) : Ring α n := ⟨items, 0, 0, h, Nat.zero_le n⟩

@[simp] theorem contents_empty (items : Vector α n) (h : 0 < n) : (empty items h).contents = [] :=
  rfl

def append (r : Ring α n) (x : α) (h : r.len < n) : Ring α n where
  items := r.items.set (r.slot r.len) x
  head := r.head
  len := r.len + 1
  head_lt := r.head_lt
  len_le := h

def first (r : Ring α n) : α := r.items[r.slot 0]

def advance (r : Ring α n) : Ring α n where
  items := r.items
  head := (r.head + 1) % n
  len := r.len - 1
  head_lt := Nat.mod_lt _ r.capacity_pos
  len_le := (Nat.sub_le ..).trans r.len_le

theorem len_advance_lt (r : Ring α n) : r.advance.len < n := by
  have hpos := r.capacity_pos
  have hle := r.len_le
  show r.len - 1 < n
  omega

theorem slot_ne (r : Ring α n) {i j : Nat} (hij : i < j) (hj : j < n) : r.slot i ≠ r.slot j := by
  intro h
  have hmod : r.head + i ≡ r.head + j [MOD n] := congrArg Fin.val h
  have hmod := Nat.ModEq.add_left_cancel' r.head hmod
  rw [Nat.ModEq, Nat.mod_eq_of_lt (hij.trans hj), Nat.mod_eq_of_lt hj] at hmod
  omega

theorem contents_append (r : Ring α n) (x : α) (h : r.len < n) :
    (r.append x h).contents = r.contents ++ [x] := by
  show (List.range (r.len + 1)).map (fun i => (r.append x h).items[r.slot i]) = _
  rw [List.range_succ, List.map_append, List.map_singleton]
  congr 1
  · refine List.map_congr_left fun i hi => ?_
    have hne : (r.slot r.len : Nat) ≠ r.slot i := fun heq =>
      r.slot_ne (List.mem_range.mp hi) h (Fin.ext heq.symm)
    exact Vector.getElem_set_ne (r.slot r.len).isLt (r.slot i).isLt hne
  · exact congrArg (fun y => [y]) (Vector.getElem_set_self (r.slot r.len).isLt)

theorem slot_advance (r : Ring α n) (i : Nat) : r.advance.slot i = r.slot (i + 1) := by
  apply Fin.ext
  show ((r.head + 1) % n + i) % n = (r.head + (i + 1)) % n
  rw [Nat.mod_add_mod, Nat.add_right_comm, Nat.add_assoc]

theorem contents_eq_cons (r : Ring α n) (h : r.len ≠ 0) :
    r.contents = r.first :: r.advance.contents := by
  obtain ⟨k, hk⟩ := Nat.exists_eq_succ_of_ne_zero h
  have hlen : r.advance.len = k := by simp [advance, hk]
  unfold contents
  rw [hlen, hk, List.range_succ_eq_map, List.map_cons, List.map_map]
  refine congrArg _ (List.map_congr_left fun i _ => ?_)
  simp only [Function.comp, Nat.succ_eq_add_one, slot_advance]
  rfl

theorem contents_eq_nil {r : Ring α n} : r.contents = [] ↔ r.len = 0 := by
  rw [← List.length_eq_zero_iff, length_contents]

end Ring

end MagiTrickle.Lib
