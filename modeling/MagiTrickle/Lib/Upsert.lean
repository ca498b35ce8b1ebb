import Mathlib.Data.List.Basic
import Mathlib.Data.List.Nodup

/-!
# Keyed lists with in-place update

`upsert` changes the first entry of a key, or appends a new one. A list built by
upserts alone has each key once, in the order in which the keys first came, and
restricting the run of upserts to some keys restricts the list
(`filter_foldl_upsert`). So what the list says about a few keys is read off the
upserts of those keys.
-/

namespace MagiTrickle.Lib

variable {κ ε : Type} [DecidableEq κ] (key : ε → κ)

/-- Update the entry of key `k`, or append `new`. -/
def upsert (k : κ) (new : ε) (upd : ε → ε) : List ε → List ε
  | [] => [new]
  | e :: l => if key e = k then upd e :: l else e :: upsert k new upd l

/-- One upsert: the key, the entry to append, and the change to an entry already there. -/
structure Upsert (κ ε : Type) where
  k : κ
  new : ε
  upd : ε → ε

namespace Upsert

structure Keyed (u : Upsert κ ε) : Prop where
  new : key u.new = u.k
  upd : ∀ e, key e = u.k → key (u.upd e) = u.k

variable {key}

def run (key : ε → κ) (us : List (Upsert κ ε)) (l : List ε) : List ε :=
  us.foldl (fun l u => upsert key u.k u.new u.upd l) l

@[simp] theorem run_nil (l : List ε) : run key [] l = l := rfl

@[simp] theorem run_cons (u : Upsert κ ε) (us : List (Upsert κ ε)) (l : List ε) :
    run key (u :: us) l = run key us (upsert key u.k u.new u.upd l) := rfl

theorem run_append (us vs : List (Upsert κ ε)) (l : List ε) :
    run key (us ++ vs) l = run key vs (run key us l) := List.foldl_append ..

theorem map_upsert {u : Upsert κ ε} (hu : u.Keyed key) (l : List ε) :
    (upsert key u.k u.new u.upd l).map key =
      if u.k ∈ l.map key then l.map key else l.map key ++ [u.k] := by
  induction l with
  | nil => simp [upsert, hu.new]
  | cons e l ih =>
    unfold upsert
    by_cases he : key e = u.k
    · simp [he, hu.upd e he]
    · simp only [if_neg he, List.map_cons, ih, List.mem_cons, Ne.symm he, false_or]
      split <;> simp

theorem nodup_upsert {u : Upsert κ ε} (hu : u.Keyed key) {l : List ε} (h : (l.map key).Nodup) :
    ((upsert key u.k u.new u.upd l).map key).Nodup := by
  rw [map_upsert hu]
  split
  · exact h
  · next hk => exact List.nodup_append.mpr ⟨h, by simp, by simpa using hk⟩

theorem mem_upsert {u : Upsert κ ε} {e : ε} {l : List ε}
    (h : e ∈ upsert key u.k u.new u.upd l) :
    e ∈ l ∨ (∃ e' ∈ l, key e' = u.k ∧ e = u.upd e') ∨ e = u.new := by
  induction l with
  | nil => exact .inr (.inr (List.mem_singleton.mp h))
  | cons x l ih =>
    unfold upsert at h
    split at h
    · next hx =>
      rcases List.mem_cons.mp h with rfl | h
      · exact .inr (.inl ⟨x, List.mem_cons_self .., hx, rfl⟩)
      · exact .inl (List.mem_cons_of_mem _ h)
    · rcases List.mem_cons.mp h with rfl | h
      · exact .inl (List.mem_cons_self ..)
      · rcases ih h with h | ⟨e', he', hk, rfl⟩ | rfl
        · exact .inl (List.mem_cons_of_mem _ h)
        · exact .inr (.inl ⟨e', List.mem_cons_of_mem _ he', hk, rfl⟩)
        · exact .inr (.inr rfl)

theorem find?_upsert_self {u : Upsert κ ε} (hu : u.Keyed key) (l : List ε) :
    (upsert key u.k u.new u.upd l).find? (fun e => key e = u.k) =
      some (((l.find? fun e => key e = u.k).map u.upd).getD u.new) := by
  induction l with
  | nil => simp [upsert, hu.new]
  | cons e l ih =>
    unfold upsert
    by_cases he : key e = u.k
    · simp [he, hu.upd e he]
    · simp only [if_neg he]
      rw [List.find?_cons_of_neg (by simpa using he), List.find?_cons_of_neg (by simpa using he), ih]

theorem find?_upsert_ne {u : Upsert κ ε} (hu : u.Keyed key) {k : κ} (hk : k ≠ u.k)
    (l : List ε) :
    (upsert key u.k u.new u.upd l).find? (fun e => key e = k) = l.find? fun e => key e = k := by
  induction l with
  | nil => simp [upsert, hu.new, Ne.symm hk]
  | cons e l ih =>
    unfold upsert
    by_cases he : key e = u.k
    · simp [he, hu.upd e he, Ne.symm hk]
    · simp only [if_neg he]
      by_cases hek : key e = k
      · simp [hek]
      · rw [List.find?_cons_of_neg (by simpa using hek), List.find?_cons_of_neg (by simpa using hek),
          ih]

/-- In a list with each key once an entry is the one found under its key. -/
theorem find?_of_nodup {l : List ε} (hnd : (l.map key).Nodup) {e : ε} (he : e ∈ l) :
    l.find? (fun x => key x = key e) = some e := by
  cases h : l.find? fun x => key x = key e with
  | none => exact absurd (List.find?_eq_none.mp h e he) (by simp)
  | some x =>
    have hx : key x = key e := by simpa using List.find?_some h
    rw [List.inj_on_of_nodup_map hnd (List.mem_of_find?_eq_some h) he hx]

theorem filter_upsert {u : Upsert κ ε} (hu : u.Keyed key) (p : κ → Bool) (l : List ε) :
    (upsert key u.k u.new u.upd l).filter (fun e => p (key e)) =
      if p u.k then upsert key u.k u.new u.upd (l.filter fun e => p (key e))
      else l.filter fun e => p (key e) := by
  induction l with
  | nil => cases hp : p u.k <;> simp [upsert, hu.new, hp]
  | cons e l ih =>
    rw [upsert]
    by_cases he : key e = u.k
    · cases hp : p u.k <;> simp [he, hu.upd e he, hp, upsert]
    · simp only [if_neg he, List.filter_cons, ih]
      cases hpe : p (key e) with
      | false => simp
      | true => cases hp : p u.k <;> simp [upsert, he]

/-- A run of upserts restricted to some keys is the run of the upserts of those keys. -/
theorem filter_run {us : List (Upsert κ ε)} (hus : ∀ u ∈ us, u.Keyed key) (p : κ → Bool)
    (l : List ε) :
    (run key us l).filter (fun e => p (key e)) =
      run key (us.filter fun u => p u.k) (l.filter fun e => p (key e)) := by
  induction us generalizing l with
  | nil => rfl
  | cons u us ih =>
    rw [run_cons, ih (fun v hv => hus v (List.mem_cons_of_mem _ hv)),
      filter_upsert (hus u (List.mem_cons_self ..)), List.filter_cons]
    split <;> simp

end Upsert

/-! ## Keys that are given or drawn -/

/-- Entries carry a key or are given the one drawn for their place. With fresh draws the keys are
distinct exactly if the carried ones are. -/
theorem nodup_mapIdx_getD {α κ : Type} {f : α → Option κ} {xs : List α} {d : Nat → κ}
    (hinj : ∀ i < xs.length, ∀ j < xs.length, d i = d j → i = j)
    (hfresh : ∀ i < xs.length, ∀ x ∈ xs, f x ≠ some (d i)) :
    (xs.mapIdx fun i x => (f x).getD (d i)).Nodup ↔ (xs.filterMap f).Nodup := by
  induction xs generalizing d with
  | nil => simp
  | cons x xs ih =>
    have hih := ih (d := fun i => d (i + 1))
      (fun i hi j hj h => Nat.succ.inj (hinj (i + 1) (Nat.succ_lt_succ hi) (j + 1)
        (Nat.succ_lt_succ hj) h))
      (fun i hi y hy => hfresh (i + 1) (Nat.succ_lt_succ hi) y (List.mem_cons_of_mem _ hy))
    rw [List.mapIdx_cons, List.nodup_cons, hih]
    cases hx : f x with
    | none =>
      rw [List.filterMap_cons_none hx]
      refine and_iff_right fun hmem => ?_
      obtain ⟨i, hi, he⟩ := List.mem_mapIdx.mp hmem
      cases hy : f xs[i] with
      | none =>
        rw [hy] at he
        have := hinj (i + 1) (Nat.succ_lt_succ hi) 0 (Nat.zero_lt_succ _) he
        omega
      | some k =>
        rw [hy] at he
        have he : k = d 0 := he
        exact hfresh 0 (Nat.zero_lt_succ _) _ (List.mem_cons_of_mem _ (List.getElem_mem hi))
          (by rw [hy, he])
    | some k =>
      rw [List.filterMap_cons_some hx, List.nodup_cons]
      refine and_congr_left' (not_congr ⟨fun hmem => ?_, fun hmem => ?_⟩)
      · obtain ⟨i, hi, he⟩ := List.mem_mapIdx.mp hmem
        cases hy : f xs[i] with
        | none =>
          rw [hy] at he
          have he : d (i + 1) = k := he
          exact absurd (hx.trans (congrArg some he.symm))
            (hfresh (i + 1) (Nat.succ_lt_succ hi) x List.mem_cons_self)
        | some k' =>
          rw [hy] at he
          have he : k' = k := he
          exact List.mem_filterMap.mpr ⟨_, List.getElem_mem hi, hy.trans (congrArg some he)⟩
      · obtain ⟨y, hy, hk⟩ := List.mem_filterMap.mp hmem
        obtain ⟨i, hi, rfl⟩ := List.mem_iff_getElem.mp hy
        exact List.mem_mapIdx.mpr ⟨i, hi, by rw [hk]; rfl⟩

end MagiTrickle.Lib
