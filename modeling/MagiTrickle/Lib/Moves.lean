import Mathlib.Data.List.Basic
import Mathlib.Data.List.InsertIdx
import Mathlib.Data.List.Nodup
import Mathlib.Data.List.Perm.Basic

/-!
# Moves in a list

An element is taken out of a list and put in again beside another one, in the
same list or in a different one. `lands_move_iff` and `lands_insert_iff` say at
which index it has to be put in.
-/

namespace MagiTrickle.Lib.Moves

inductive Side where
  | before
  | after
  deriving DecidableEq, Repr

def Side.offset : Side → Nat
  | before => 0
  | after => 1

variable {α : Type} {side : Side} {l : List α} {a b : α} {c i p : Nat}

/-- `a` is directly before or after `b`. -/
def Beside (side : Side) (a b : α) (l : List α) : Prop :=
  match side with
  | .before => ∃ k, l[k]? = some a ∧ l[k + 1]? = some b
  | .after => ∃ k, l[k]? = some b ∧ l[k + 1]? = some a

/-- Moved beside `b`, a list is `l'`; what is moved beside itself stays where it is. -/
def Lands (side : Side) (l l' : List α) (a b : α) : Prop :=
  (a = b → l' = l) ∧ (a ≠ b → Beside side a b l')

theorem getElem?_insertIdx_iff {k : Nat} (ha : a ∉ l) (hc : c ≤ l.length) :
    (l.insertIdx c a)[k]? = some a ↔ k = c := by
  refine ⟨fun h => ?_, ?_⟩
  · rcases Nat.lt_trichotomy k c with hk | hk | hk
    · rw [List.getElem?_insertIdx_of_lt hk] at h
      exact absurd (List.mem_of_getElem? h) ha
    · exact hk
    · rw [List.getElem?_insertIdx_of_gt hk] at h
      exact absurd (List.mem_of_getElem? h) ha
  · rintro rfl
    rw [List.getElem?_insertIdx_self, if_pos hc]

theorem eq_of_getElem? {k : Nat} (hl : l.Nodup) (hk : l[k]? = some b) (hp : l[p]? = some b) :
    k = p := by
  obtain ⟨hk', hkb⟩ := List.getElem?_eq_some_iff.mp hk
  obtain ⟨hp', hpb⟩ := List.getElem?_eq_some_iff.mp hp
  exact (hl.getElem_inj_iff).mp (hkb.trans hpb.symm)

theorem beside_insertIdx_iff (hl : l.Nodup) (ha : a ∉ l) (hb : l[p]? = some b)
    (hc : c ≤ l.length) : Beside side a b (l.insertIdx c a) ↔ c = p + side.offset := by
  cases side with
  | before =>
    refine ⟨?_, ?_⟩
    · rintro ⟨k, hk, hkb⟩
      obtain rfl := (getElem?_insertIdx_iff ha hc).mp hk
      rw [List.getElem?_insertIdx_of_gt (Nat.lt_succ_self k)] at hkb
      exact eq_of_getElem? hl hkb hb
    · intro hcp
      refine ⟨p, (getElem?_insertIdx_iff ha hc).mpr hcp.symm, ?_⟩
      rw [List.getElem?_insertIdx_of_gt (by rw [hcp]; exact Nat.lt_succ_self p)]
      exact hb
  | after =>
    refine ⟨?_, ?_⟩
    · rintro ⟨k, hkb, hk⟩
      obtain rfl := (getElem?_insertIdx_iff ha hc).mp hk
      rw [List.getElem?_insertIdx_of_lt (Nat.lt_succ_self k)] at hkb
      exact congrArg (· + 1) (eq_of_getElem? hl hkb hb)
    · intro hcp
      refine ⟨p, ?_, (getElem?_insertIdx_iff ha hc).mpr hcp.symm⟩
      rw [List.getElem?_insertIdx_of_lt (by rw [hcp]; exact Nat.lt_succ_self p)]
      exact hb

theorem insertIdx_eraseIdx_of_getElem? (h : l[i]? = some a) : (l.eraseIdx i).insertIdx i a = l := by
  obtain ⟨hi, rfl⟩ := List.getElem?_eq_some_iff.mp h
  exact List.insertIdx_eraseIdx_getElem hi

theorem set_eq_of_getElem? (h : l[i]? = some a) : l.set i a = l := by
  obtain ⟨hi, rfl⟩ := List.getElem?_eq_some_iff.mp h
  exact List.set_getElem_self hi

theorem not_mem_eraseIdx (hl : l.Nodup) (h : l[i]? = some a) : a ∉ l.eraseIdx i := by
  intro hmem
  obtain ⟨k, hk, hka⟩ := List.mem_eraseIdx_iff_getElem?.mp hmem
  exact hk (eq_of_getElem? hl hka h)

theorem length_eraseIdx_of_getElem? (h : l[i]? = some a) :
    (l.eraseIdx i).length = l.length - 1 :=
  List.length_eraseIdx_of_lt (List.getElem?_eq_some_iff.mp h).1

theorem perm_move (h : l[i]? = some a) (hc : c ≤ (l.eraseIdx i).length) :
    ((l.eraseIdx i).insertIdx c a).Perm l := by
  obtain ⟨hi, rfl⟩ := List.getElem?_eq_some_iff.mp h
  exact (List.perm_insertIdx _ _ hc).trans (List.getElem_cons_eraseIdx_perm hi)

theorem getElem?_eraseIdx_of_ne (hp : l[p]? = some b) (hne : p ≠ i) :
    (l.eraseIdx i)[if p < i then p else p - 1]? = some b := by
  split_ifs with hlt
  · rwa [List.getElem?_eraseIdx_of_lt hlt]
  · rw [List.getElem?_eraseIdx_of_ge (by omega), Nat.sub_add_cancel (by omega)]
    exact hp

theorem erase_insertIdx [BEq α] [LawfulBEq α] (ha : a ∉ l) (hc : c ≤ l.length) :
    (l.insertIdx c a).erase a = l := by
  induction l generalizing c with
  | nil =>
    obtain rfl : c = 0 := Nat.le_zero.mp hc
    exact List.erase_cons_head a []
  | cons x l ih =>
    cases c with
    | zero => exact List.erase_cons_head a (x :: l)
    | succ c =>
      obtain ⟨hx, ha⟩ := not_or.mp (mt List.mem_cons.mpr ha)
      rw [List.insertIdx_succ_cons, List.erase_cons_tail (fun h => hx (eq_of_beq h).symm),
        ih ha (Nat.le_of_succ_le_succ hc)]

theorem erase_eq_eraseIdx_of_getElem? [BEq α] [LawfulBEq α] (hl : l.Nodup) (h : l[i]? = some a) :
    l.erase a = l.eraseIdx i := by
  obtain ⟨hi, rfl⟩ := List.getElem?_eq_some_iff.mp h
  exact hl.erase_getElem i hi

theorem count_flatMap_set {β : Type} [BEq β] {f : α → List β} (h : l[i]? = some a) (b : α) (x : β) :
    ((l.set i b).flatMap f).count x + (f a).count x = (l.flatMap f).count x + (f b).count x := by
  induction l generalizing i with
  | nil => exact absurd h (by simp)
  | cons y l ih =>
    cases i with
    | zero =>
      obtain rfl : y = a := Option.some.inj h
      simp only [List.set_cons_zero, List.flatMap_cons, List.count_append]
      omega
    | succ i =>
      have := ih (i := i) h
      simp only [List.set_cons_succ, List.flatMap_cons, List.count_append]
      omega

section Lists

variable {β : Type} [DecidableEq β] {f : α → List β} {a' b' : α} {x : β} {j : Nat}

theorem perm_flatMap_set (hi : l[i]? = some a) (h : (f a').Perm (f a)) :
    ((l.set i a').flatMap f).Perm (l.flatMap f) := by
  refine List.perm_iff_count.mpr fun y => ?_
  have hset := count_flatMap_set (f := f) hi a' y
  have hcount := h.count_eq y
  omega

theorem perm_flatMap_transfer (hi : l[i]? = some a) (hj : l[j]? = some b) (hne : i ≠ j)
    (ha : (f a).Perm (x :: f a')) (hb : (f b').Perm (x :: f b)) :
    (((l.set i a').set j b').flatMap f).Perm (l.flatMap f) := by
  refine List.perm_iff_count.mpr fun y => ?_
  have hj' : (l.set i a')[j]? = some b := by rwa [List.getElem?_set_ne hne]
  have hset := count_flatMap_set (f := f) hi a' y
  have hset' := count_flatMap_set (f := f) hj' b' y
  have hcount := ha.count_eq y
  have hcount' := hb.count_eq y
  rw [List.count_cons] at hcount hcount'
  omega

end Lists

/-- The index, without the moved element, at which it lands beside the one at `p`. -/
def landing (side : Side) (i p : Nat) : Nat :=
  if p = i then i else (if p < i then p else p - 1) + side.offset

theorem lands_move_iff (hl : l.Nodup) (ha : l[i]? = some a) (hb : l[p]? = some b)
    (hc : c ≤ (l.eraseIdx i).length) :
    Lands side l ((l.eraseIdx i).insertIdx c a) a b ↔ c = landing side i p := by
  have hnot := not_mem_eraseIdx hl ha
  unfold landing
  by_cases hpi : p = i
  · rw [if_pos hpi]
    obtain rfl : a = b := Option.some.inj (ha.symm.trans (hpi ▸ hb))
    refine ⟨fun h => ?_, ?_⟩
    · have hself := (getElem?_insertIdx_iff (k := i) hnot hc).mp (by rw [h.1 rfl]; exact ha)
      exact hself.symm
    · rintro rfl
      exact ⟨fun _ => insertIdx_eraseIdx_of_getElem? ha, fun hne => absurd rfl hne⟩
  · rw [if_neg hpi]
    have hab : a ≠ b := by
      rintro rfl
      exact hpi (eq_of_getElem? hl hb ha)
    have hb' := getElem?_eraseIdx_of_ne (i := i) hb hpi
    have hbeside := @beside_insertIdx_iff _ side _ _ _ _ _ (hl.eraseIdx i) hnot hb' hc
    exact ⟨fun h => hbeside.mp (h.2 hab), fun h => ⟨fun heq => absurd heq hab, fun _ => hbeside.mpr h⟩⟩

theorem lands_insert_iff (hl : l.Nodup) (ha : a ∉ l) (hb : l[p]? = some b) (hc : c ≤ l.length) :
    Lands side l (l.insertIdx c a) a b ↔ c = p + side.offset := by
  have hab : a ≠ b := by
    rintro rfl
    exact ha (List.mem_of_getElem? hb)
  have hbeside := @beside_insertIdx_iff _ side _ _ _ _ _ hl ha hb hc
  exact ⟨fun h => hbeside.mp (h.2 hab), fun h => ⟨fun heq => absurd heq hab, fun _ => hbeside.mpr h⟩⟩

end MagiTrickle.Lib.Moves
