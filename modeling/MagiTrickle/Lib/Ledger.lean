import Mathlib.Data.List.Range

/-!
# Descriptors

Descriptors are numbered in the order in which they are opened. Each is held by
someone, parked in a pool of bounded size, or closed. `Balanced` says that this
accounts for every descriptor exactly once, with the descriptors that are held
given by the user: what opens and takes adds to them, what closes and parks uses
them up.
-/

namespace MagiTrickle.Lib

structure Ledger where
  /-- The descriptors opened so far. -/
  next : Nat
  poolCap : Nat
  pool : List Nat
  closed : List Nat
  deriving DecidableEq, Repr

namespace Ledger

def empty (poolCap : Nat) : Ledger := ⟨0, poolCap, [], []⟩

/-- Opens the descriptor `l.next`. -/
def opened (l : Ledger) : Ledger := { l with next := l.next + 1 }

def close (l : Ledger) (fd : Nat) : Ledger := { l with closed := fd :: l.closed }

def park (l : Ledger) (fd : Nat) : Ledger :=
  if l.pool.length < l.poolCap then { l with pool := l.pool ++ [fd] } else l.close fd

def take (l : Ledger) : Option (Nat × Ledger) :=
  l.pool.getLast?.map fun fd => (fd, { l with pool := l.pool.dropLast })

/-- Every descriptor is held, parked or closed, and only once. -/
def Balanced (l : Ledger) (held : List Nat) : Prop :=
  (held ++ (l.pool ++ l.closed)).Perm (List.range l.next)

variable {l : Ledger} {held held' : List Nat} {fd : Nat}

theorem balanced_empty (poolCap : Nat) : (empty poolCap).Balanced [] := .nil

theorem Balanced.perm (h : l.Balanced held) (hp : held'.Perm held) : l.Balanced held' :=
  (hp.append_right _).trans h

theorem Balanced.opened (h : l.Balanced held) : l.opened.Balanced (l.next :: held) := by
  unfold Balanced Ledger.opened
  rw [List.range_succ]
  exact ((List.Perm.cons l.next h).trans (List.perm_append_singleton ..).symm)

theorem Balanced.close (h : l.Balanced (fd :: held)) : (l.close fd).Balanced held := by
  have hmid : (held ++ (l.pool ++ fd :: l.closed)).Perm (fd :: held ++ (l.pool ++ l.closed)) := by
    rw [← List.append_assoc, ← List.append_assoc]
    exact List.perm_middle
  exact hmid.trans h

theorem Balanced.park (h : l.Balanced (fd :: held)) : (l.park fd).Balanced held := by
  unfold Ledger.park
  split
  · have hmid : (held ++ (l.pool ++ [fd] ++ l.closed)).Perm
        (fd :: held ++ (l.pool ++ l.closed)) := by
      rw [List.append_assoc, List.singleton_append, ← List.append_assoc, ← List.append_assoc]
      exact List.perm_middle
    exact hmid.trans h
  · exact h.close

theorem Balanced.take (h : l.Balanced held) {l' : Ledger} (ht : l.take = some (fd, l')) :
    l'.Balanced (fd :: held) := by
  obtain ⟨x, hx, he⟩ := Option.map_eq_some_iff.mp ht
  cases he
  have hpool : l.pool = l.pool.dropLast ++ [fd] :=
    (List.dropLast_append_getLast? fd hx).symm
  unfold Balanced at h ⊢
  rw [hpool, List.append_assoc, List.singleton_append, ← List.append_assoc] at h
  dsimp only
  rw [List.cons_append, ← List.append_assoc]
  exact List.perm_middle.symm.trans h

theorem Balanced.nodup (h : l.Balanced held) : (held ++ (l.pool ++ l.closed)).Nodup :=
  h.nodup_iff.mpr List.nodup_range

theorem Balanced.nodup_held (h : l.Balanced held) : held.Nodup :=
  (List.nodup_append.mp h.nodup).1

theorem Balanced.lt (h : l.Balanced held) (hfd : fd ∈ held) : fd < l.next :=
  List.mem_range.mp (h.mem_iff.mp (List.mem_append_left _ hfd))

theorem Balanced.not_mem_pool (h : l.Balanced held) (hfd : fd ∈ held) : fd ∉ l.pool :=
  fun hp => (List.nodup_append.mp h.nodup).2.2 fd hfd fd (List.mem_append_left _ hp) rfl

theorem Balanced.eq_nil_of_append {more : List Nat} (h : l.Balanced (held ++ more))
    (h' : l.Balanced held) : more = [] := by
  have h1 := h.length_eq
  have h2 := h'.length_eq
  simp only [List.length_append] at h1 h2
  exact List.eq_nil_of_length_eq_zero (by omega)

end Ledger

end MagiTrickle.Lib
