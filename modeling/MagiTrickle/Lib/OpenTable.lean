import Mathlib.Data.List.Basic
import Mathlib.Data.List.Nodup
import Mathlib.Data.Nat.Bitwise

/-!
# Open addressing with linear probing

A table is a list of slots whose length is a power of two; a free slot is
`none`. `probe` walks from a key's home slot to the first slot that is free or
whose key satisfies `stop`. The invariant is `Found`: probing for a stored key
ends at the slot that holds it. It is kept by storing a new key in the slot its
probe ends at (`found_set`), hence by rehashing (`found_rehash`), and with it a
probe decides membership (`probe_mem_iff`) as long as one slot is free.
-/

namespace MagiTrickle.Lib.OpenTable

variable {κ : Type} (hash : κ → Nat)

/-- The home slot of a key in a table of `cap` slots. -/
def home (cap : Nat) (k : κ) : Nat := hash k &&& (cap - 1)

/-- The slot after `i`, cyclically. -/
def next (cap i : Nat) : Nat := (i + 1) &&& (cap - 1)

/-- The first slot from `i` on that is free or whose key satisfies `stop`. -/
def probe (slots : List (Option κ)) (stop : κ → Bool) : Nat → Nat → Option Nat
  | 0, _ => none
  | fuel + 1, i =>
    match slots[i]? with
    | some (some k) => if stop k then some i else probe slots stop fuel (next slots.length i)
    | _ => some i

/-- Probe from the home slot of `k`, once round the table. -/
def lookup (slots : List (Option κ)) (stop : κ → Bool) (k : κ) : Option Nat :=
  probe slots stop slots.length (home hash slots.length k)

def keys (slots : List (Option κ)) : List κ := slots.filterMap id

/-- Store `k` in the first free slot from its home on. -/
def place (slots : List (Option κ)) (k : κ) : List (Option κ) :=
  match lookup hash slots (fun _ => false) k with
  | some i => slots.set i (some k)
  | none => slots

/-- Every stored key is found at its own slot. -/
def Found [DecidableEq κ] (slots : List (Option κ)) : Prop :=
  ∀ i k, slots[i]? = some (some k) → lookup hash slots (fun x => decide (x = k)) k = some i

/-! ## Indices -/

theorem next_eq {e : Nat} (i : Nat) : next (2 ^ e) i = (i + 1) % 2 ^ e :=
  Nat.and_two_pow_sub_one_eq_mod _ _

theorem home_lt {e : Nat} (k : κ) : home hash (2 ^ e) k < 2 ^ e := by
  rw [home, Nat.and_two_pow_sub_one_eq_mod]
  exact Nat.mod_lt _ (Nat.two_pow_pos _)

section Probe

variable {slots : List (Option κ)} {stop : κ → Bool} {fuel i j l : Nat} {k : κ}

/-- A probe ends at a free slot, or at a key satisfying `stop`. -/
theorem probe_spec (h : probe slots stop fuel i = some j) {k : κ}
    (hk : slots[j]? = some (some k)) : stop k = true := by
  induction fuel generalizing i with
  | zero => simp [probe] at h
  | succ fuel ih =>
    unfold probe at h
    split at h
    · next k' hi =>
      split at h
      · next hs =>
        cases h
        rw [hi] at hk
        cases hk
        exact hs
      · exact ih h
    · next hi =>
      cases h
      exact absurd hk (hi k)

theorem probe_none {e : Nat} (hlen : slots.length = 2 ^ e) (hi : i < 2 ^ e)
    (h : probe slots stop fuel i = none) {t : Nat} (ht : t < fuel) :
    ∃ k, slots[(i + t) % 2 ^ e]? = some (some k) := by
  induction fuel generalizing i t with
  | zero => omega
  | succ fuel ih =>
    unfold probe at h
    split at h
    · next k hk =>
      split at h
      · cases h
      · rw [hlen, next_eq] at h
        rcases t with _ | t
        · exact ⟨k, by simpa [Nat.mod_eq_of_lt hi] using hk⟩
        · obtain ⟨k', hk'⟩ := ih (Nat.mod_lt _ (Nat.two_pow_pos _)) h (t := t) (by omega)
          refine ⟨k', ?_⟩
          rwa [Nat.mod_add_mod, show i + 1 + t = i + (t + 1) by omega] at hk'
    · cases h

/-- With a free slot left, every probe ends. -/
theorem lookup_isSome (hash : κ → Nat) {e : Nat} (hlen : slots.length = 2 ^ e)
    (hf : none ∈ slots) (stop : κ → Bool) (k : κ) : ∃ j, lookup hash slots stop k = some j := by
  by_contra hn
  have hnone : lookup hash slots stop k = none := by
    cases h : lookup hash slots stop k with
    | none => rfl
    | some j => exact absurd ⟨j, h⟩ hn
  obtain ⟨f, hf⟩ := List.mem_iff_getElem?.mp hf
  have hflt : f < 2 ^ e := by
    rw [← hlen]
    exact (List.getElem?_eq_some_iff.mp hf).1
  unfold lookup at hnone
  have hh : home hash slots.length k < 2 ^ e := by rw [hlen]; exact home_lt hash k
  obtain ⟨k', hk'⟩ := probe_none hlen hh hnone
    (t := (f + 2 ^ e - home hash slots.length k) % 2 ^ e)
    (by rw [hlen]; exact Nat.mod_lt _ (Nat.two_pow_pos _))
  rw [Nat.add_mod_mod, show home hash slots.length k + (f + 2 ^ e - home hash slots.length k) =
    f + 2 ^ e by omega, Nat.add_mod_right, Nat.mod_eq_of_lt hflt, hf] at hk'
  cases hk'

theorem probe_set_ne (hi : slots[i]? = some none) (h : probe slots stop fuel j = some l)
    (hne : l ≠ i) : probe (slots.set i (some k)) stop fuel j = some l := by
  induction fuel generalizing j with
  | zero => simp [probe] at h
  | succ fuel ih =>
    unfold probe at h ⊢
    by_cases hji : j = i
    · subst hji
      simp only [hi] at h
      cases h
      exact absurd rfl hne
    · rw [List.getElem?_set_ne (Ne.symm hji), List.length_set]
      split at h
      · split at h
        · next hs => simp_all
        · next hns => simp [hns, ih h]
      · exact h

theorem probe_set_self (hi : slots[i]? = some none) (h : probe slots stop fuel j = some i)
    (hs : stop k = true) : probe (slots.set i (some k)) stop fuel j = some i := by
  induction fuel generalizing j with
  | zero => simp [probe] at h
  | succ fuel ih =>
    unfold probe at h ⊢
    have hlt : i < slots.length := (List.getElem?_eq_some_iff.mp hi).1
    by_cases hji : j = i
    · subst hji
      simp [hlt, hs]
    · rw [List.getElem?_set_ne (Ne.symm hji), List.length_set]
      split at h
      · split at h
        · cases h
          exact absurd rfl hji
        · next hns => simp [hns, ih h]
      · cases h
        exact absurd rfl hji

/-- When no stored key satisfies `stop`, a probe with `stop` is a search for a free slot. -/
theorem probe_eq_of_not_mem (hn : ∀ x ∈ keys slots, stop x = false) (fuel i : Nat) :
    probe slots stop fuel i = probe slots (fun _ => false) fuel i := by
  induction fuel generalizing i with
  | zero => rfl
  | succ fuel ih =>
    unfold probe
    split
    · next k hk =>
      have : stop k = false :=
        hn k (List.mem_filterMap.mpr ⟨some k, List.mem_of_getElem? hk, rfl⟩)
      simp [this, ih]
    · rfl

end Probe

/-! ## Stored keys -/

section Keys

variable {hash} {slots : List (Option κ)} {i : Nat} {k : κ}

theorem mem_keys : k ∈ keys slots ↔ ∃ i : Nat, slots[i]? = some (some k) := by
  rw [keys, List.mem_filterMap]
  constructor
  · rintro ⟨o, ho, rfl⟩
    exact List.mem_iff_getElem?.mp ho
  · rintro ⟨i, hi⟩
    exact ⟨some k, List.mem_of_getElem? hi, rfl⟩

theorem keys_set_perm (hi : slots[i]? = some none) :
    (keys (slots.set i (some k))).Perm (k :: keys slots) := by
  induction slots generalizing i with
  | nil => simp at hi
  | cons o slots ih =>
    cases i with
    | zero =>
      simp only [List.getElem?_cons_zero, Option.some.injEq] at hi
      subst hi
      simp [keys]
    | succ i =>
      rw [List.getElem?_cons_succ] at hi
      cases o with
      | none => simpa [keys] using ih hi
      | some x => simpa [keys] using ((ih hi).cons x).trans (List.Perm.swap k x _)

theorem free_of_length_lt (h : (keys slots).length < slots.length) : none ∈ slots := by
  by_contra hn
  have hall : ∀ o ∈ slots, o.isSome = true := fun o ho => by
    cases o with
    | none => exact absurd ho hn
    | some _ => rfl
  have : (slots.filterMap id).length = slots.length := by
    rw [List.length_filterMap_eq_countP, List.countP_eq_length]
    simpa using hall
  unfold keys at h
  omega

variable [DecidableEq κ]

theorem found_set (hf : Found hash slots)
    (hi : lookup hash slots (fun x => decide (x = k)) k = some i) (hfree : slots[i]? = some none) :
    Found hash (slots.set i (some k)) := by
  intro j x hx
  unfold lookup at hi ⊢
  rw [List.length_set]
  by_cases hji : j = i
  · subst hji
    rw [List.getElem?_set_self (List.getElem?_eq_some_iff.mp hfree).1] at hx
    cases hx
    exact probe_set_self hfree hi (by simp)
  · rw [List.getElem?_set_ne (Ne.symm hji)] at hx
    exact probe_set_ne hfree (hf j x hx) hji

/-- With a free slot left, a probe for `k` ends at a slot holding `k` exactly when `k` is stored. -/
theorem probe_mem_iff (hf : Found hash slots)
    (hi : lookup hash slots (fun x => decide (x = k)) k = some i) :
    slots[i]? = some (some k) ↔ k ∈ keys slots := by
  refine ⟨fun h => mem_keys.mpr ⟨i, h⟩, fun h => ?_⟩
  obtain ⟨j, hj⟩ := mem_keys.mp h
  have := hf j k hj
  rw [hi] at this
  cases this
  exact hj

theorem probe_free {e : Nat} (hlen : slots.length = 2 ^ e) (hk : k ∉ keys slots)
    (hi : lookup hash slots (fun x => decide (x = k)) k = some i) : slots[i]? = some none := by
  have hlt : i < slots.length := by
    have : ∀ {fuel j}, j < slots.length →
        probe slots (fun x => decide (x = k)) fuel j = some i → i < slots.length := by
      intro fuel
      induction fuel with
      | zero => intro j _ h; simp [probe] at h
      | succ fuel ih =>
        intro j hj h
        unfold probe at h
        split at h
        · split at h
          · cases h; exact hj
          · refine ih ?_ h
            rw [hlen, next_eq]
            exact Nat.mod_lt _ (Nat.two_pow_pos _)
        · cases h; exact hj
    refine this ?_ hi
    rw [hlen]
    exact home_lt hash k
  cases hs : slots[i] with
  | none => rw [List.getElem?_eq_getElem hlt, hs]
  | some x =>
    have hx : slots[i]? = some (some x) := by rw [List.getElem?_eq_getElem hlt, hs]
    have : x = k := by simpa using probe_spec hi hx
    subst this
    exact absurd (mem_keys.mpr ⟨i, hx⟩) hk

theorem nodup_keys (hf : Found hash slots) : (keys slots).Nodup := by
  have hinj : ∀ (i j : Nat) x, slots[i]? = some (some x) → slots[j]? = some (some x) → i = j := by
    intro i j x hi hj
    have := hf i x hi
    rw [hf j x hj] at this
    cases this
    rfl
  clear hf
  induction slots with
  | nil => simp [keys]
  | cons o slots ih =>
    have htail := ih fun i j x hi hj => by
      have := hinj (i + 1) (j + 1) x (by simpa using hi) (by simpa using hj)
      omega
    cases o with
    | none => simpa [keys] using htail
    | some x =>
      have hnot : x ∉ keys slots := fun hx => by
        obtain ⟨j, hj⟩ := mem_keys.mp hx
        have := hinj 0 (j + 1) x (by simp) (by simpa using hj)
        omega
      simpa [keys] using And.intro hnot htail

end Keys

/-! ## Rehashing -/

section Rehash

variable [DecidableEq κ] {hash} {slots : List (Option κ)} {k : κ}

/-- `place` on a table that does not hold the key and has a free slot. -/
theorem place_spec {e : Nat} (hlen : slots.length = 2 ^ e) (hfree : none ∈ slots)
    (hf : Found hash slots) (hk : k ∉ keys slots) :
    (place hash slots k).length = slots.length ∧ Found hash (place hash slots k) ∧
      (keys (place hash slots k)).Perm (k :: keys slots) := by
  obtain ⟨i, hi⟩ := lookup_isSome hash hlen hfree (fun x => decide (x = k)) k
  have heq : lookup hash slots (fun _ => false) k = some i := by
    rw [← hi]
    refine (probe_eq_of_not_mem (fun x hx => ?_) _ _).symm
    simpa using fun h : x = k => hk (h ▸ hx)
  have hif := probe_free hlen hk hi
  simp only [place, heq]
  exact ⟨List.length_set, found_set hf hi hif, keys_set_perm hif⟩

/-- Placing distinct new keys one after the other, as long as one slot stays free. -/
theorem foldl_place_spec (slots : List (Option κ)) {e : Nat} (ks : List κ)
    (hlen : slots.length = 2 ^ e) (hf : Found hash slots) (hnd : ks.Nodup) (hnew : ∀ k ∈ ks, k ∉ keys slots)
    (hroom : (keys slots).length + ks.length ≤ slots.length) :
    (ks.foldl (place hash) slots).length = slots.length ∧ Found hash (ks.foldl (place hash) slots) ∧
      (keys (ks.foldl (place hash) slots)).Perm (ks ++ keys slots) := by
  induction ks generalizing slots with
  | nil => exact ⟨rfl, hf, .rfl⟩
  | cons k ks ih =>
    rw [List.nodup_cons] at hnd
    simp only [List.length_cons] at hroom
    obtain ⟨hl, hf', hp⟩ := place_spec hlen (free_of_length_lt (by omega)) hf
      (hnew k (List.mem_cons_self ..))
    have hplen := hp.length_eq
    simp only [List.length_cons] at hplen
    obtain ⟨hl2, hf2, hp2⟩ := ih _ (by rw [hl, hlen]) hf' hnd.2 (fun x hx hmem => by
      rcases List.mem_cons.mp (hp.mem_iff.mp hmem) with rfl | h
      · exact hnd.1 hx
      · exact hnew x (List.mem_cons_of_mem _ hx) h) (by omega)
    refine ⟨hl2.trans hl, hf2, hp2.trans ?_⟩
    exact (List.Perm.append_left ks hp).trans List.perm_middle

omit [DecidableEq κ] in
theorem keys_replicate_none (n : Nat) : keys (List.replicate n (none : Option κ)) = [] := by
  simp [keys]

theorem found_replicate_none (hash : κ → Nat) (n : Nat) :
    Found hash (List.replicate n (none : Option κ)) := by
  intro i k h
  rw [List.getElem?_replicate] at h
  split at h <;> cases h

/-- Rehashing the keys of one table into a larger empty one. -/
theorem found_rehash (e : Nat) (hf : Found hash slots) (hroom : (keys slots).length ≤ 2 ^ e) :
    let t := (keys slots).foldl (place hash) (List.replicate (2 ^ e) none)
    t.length = 2 ^ e ∧ Found hash t ∧ (keys t).Perm (keys slots) := by
  have := foldl_place_spec (List.replicate (2 ^ e) none) (keys slots) List.length_replicate
    (found_replicate_none hash _) (nodup_keys hf)
    (fun k _ => by simp [keys_replicate_none]) (by simpa [keys_replicate_none] using hroom)
  simpa [keys_replicate_none] using this

end Rehash

end MagiTrickle.Lib.OpenTable
