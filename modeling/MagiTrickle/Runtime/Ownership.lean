import MagiTrickle.Runtime.Rollback

/-!
# Who owns the rule arrays

Every rule array belongs to one subscription until it is freed (`Subs.Owned`).
All calls keep it so, except for a sync of all that is due whose rollback frees
an array that a subscription has again. With this invariant the condition under
which a failed call restores the subscriptions is exact
(`run_restored_iff`).
-/

namespace MagiTrickle.Runtime

open Config Api Rules

namespace Subs

variable {m : Subs}

/-! ## New lists -/

theorem owned_empty : Owned ⟨[], 0, []⟩ :=
  ⟨.nil, fun _ hs => absurd hs List.not_mem_nil, fun _ hs => absurd hs List.not_mem_nil,
    fun _ ha => absurd ha List.not_mem_nil, fun _ hs => absurd hs List.not_mem_nil⟩

theorem adopt_apart (m : Subs) (ss : List Subscription) :
    (m.adopt ss).1.Pairwise (fun s t => Apart s.array t.array) ∧
      ∀ s ∈ (m.adopt ss).1, s.array = none ↔ s.config.rules.items = [] := by
  induction ss generalizing m with
  | nil => exact ⟨.nil, fun _ hs => absurd hs List.not_mem_nil⟩
  | cons s ss ih =>
    obtain ⟨hpw, hnone⟩ := ih (m.alloc s.rules.items).2
    obtain ⟨-, -, -, hnew⟩ := adopt_spec (m.alloc s.rules.items).2 ss
    refine ⟨List.pairwise_cons.mpr ⟨fun t ht a ha ha' => ?_, hpw⟩, fun t ht => ?_⟩
    · have hlt := (mem_alloc_toList a (Option.mem_toList.mpr ha)).2
      exact absurd hlt (Nat.not_lt.mpr (hnew t ht a ha').1)
    · rcases List.mem_cons.mp ht with rfl | ht
      · exact alloc_eq_none
      · exact hnone t ht

/-- A new list in place of the old one; what is freed is old. -/
theorem Owned.adopt (h : m.Owned) (ss : List Subscription) (rel : List Ptr)
    (hrel : ∀ a ∈ rel, a < m.next) :
    Owned ⟨(m.adopt ss).1, (m.adopt ss).2.next, m.released ++ rel⟩ := by
  obtain ⟨hpw, hnone⟩ := adopt_apart m ss
  obtain ⟨-, -, hle, hnew⟩ := adopt_spec m ss
  have hold : ∀ a ∈ m.released ++ rel, a < m.next := fun a ha =>
    (List.mem_append.mp ha).elim (h.freed a) (hrel a)
  refine ⟨hpw, fun s hs a ha hr => ?_, fun s hs a ha => (hnew s hs a ha).2,
    fun a ha => Nat.lt_of_lt_of_le (hold a ha) hle, hnone⟩
  exact absurd (hold a hr) (Nat.not_lt.mpr (hnew s hs a ha).1)

/-! ## One subscription more, less or changed -/

theorem Owned.append (h : m.Owned) (s : Subscription) :
    Owned { (m.alloc s.rules.items).2 with list := m.list ++ [⟨s, (m.alloc s.rules.items).1⟩] } := by
  have hrel := released_alloc (m := m) s.rules.items
  have hle := le_next_alloc (m := m) s.rules.items
  have hnew : ∀ a ∈ (m.alloc s.rules.items).1, m.next ≤ a ∧ a < (m.alloc s.rules.items).2.next :=
    fun a ha => mem_alloc_toList a (Option.mem_toList.mpr ha)
  refine ⟨?_, ?_, ?_, ?_, ?_⟩
  · refine List.pairwise_append.mpr ⟨h.apart, List.pairwise_singleton _ _, fun t ht u hu => ?_⟩
    rw [List.mem_singleton.mp hu]
    exact fun a ha ha' => absurd (h.below t ht a ha) (Nat.not_lt.mpr (hnew a ha').1)
  · intro t ht a ha hr
    rw [hrel] at hr
    rcases List.mem_append.mp ht with ht | ht
    · exact h.live t ht a ha hr
    · rw [List.mem_singleton.mp ht] at ha
      exact absurd (h.freed a hr) (Nat.not_lt.mpr (hnew a ha).1)
  · intro t ht a ha
    rcases List.mem_append.mp ht with ht | ht
    · exact Nat.lt_of_lt_of_le (h.below t ht a ha) hle
    · rw [List.mem_singleton.mp ht] at ha
      exact (hnew a ha).2
  · intro a ha
    rw [hrel] at ha
    exact Nat.lt_of_lt_of_le (h.freed a ha) hle
  · intro t ht
    rcases List.mem_append.mp ht with ht | ht
    · exact h.rules t ht
    · rw [List.mem_singleton.mp ht]
      exact alloc_eq_none

theorem Owned.apart_getElem? (h : m.Owned) {i j : Nat} {s t : Sub} (hi : m.list[i]? = some s)
    (hj : m.list[j]? = some t) (hij : i ≠ j) : Apart s.array t.array := by
  obtain ⟨hlt, rfl⟩ := List.getElem?_eq_some_iff.mp hi
  obtain ⟨hlt', rfl⟩ := List.getElem?_eq_some_iff.mp hj
  rcases Nat.lt_or_gt_of_ne hij with hn | hn
  · exact List.pairwise_iff_getElem.mp h.apart i j hlt hlt' hn
  · exact (List.pairwise_iff_getElem.mp h.apart j i hlt' hlt hn).symm

theorem Owned.erase (h : m.Owned) {i : Nat} {s : Sub} (hi : m.list[i]? = some s) :
    Owned { m with list := m.list.eraseIdx i, released := m.released ++ s.array.toList } := by
  have hsub : ∀ t ∈ m.list.eraseIdx i, t ∈ m.list := fun t ht => List.mem_of_mem_eraseIdx ht
  refine ⟨h.apart.sublist (List.eraseIdx_sublist _ _), ?_, fun t ht => h.below t (hsub t ht), ?_,
    fun t ht => h.rules t (hsub t ht)⟩
  · intro t ht a ha hr
    rcases List.mem_append.mp hr with hr | hr
    · exact h.live t (hsub t ht) a ha hr
    · obtain ⟨j, hji, hj⟩ := List.mem_eraseIdx_iff_getElem?.mp ht
      exact h.apart_getElem? hj hi hji a ha (Option.mem_toList.mp hr)
  · intro a ha
    rcases List.mem_append.mp ha with ha | ha
    · exact h.freed a ha
    · exact h.below s (List.mem_of_getElem? hi) a (Option.mem_toList.mp ha)

/-- A subscription overwritten: the arrays it has afterwards and those that are freed are its own
or new. -/
theorem Owned.overwrite (h : m.Owned) {i n : Nat} {s : Sub} (s' : Sub) (rel : List Ptr)
    (hi : m.list[i]? = some s) (hn : m.next ≤ n)
    (hs' : s'.array = none ↔ s'.config.rules.items = [])
    (harr : ∀ a ∈ s'.array, (a ∈ s.array ∨ m.next ≤ a) ∧ a < n)
    (hrel : ∀ a ∈ rel, (a ∈ s.array ∨ m.next ≤ a) ∧ a < n ∧ a ∉ s'.array) :
    Owned ⟨m.list.set i s', n, m.released ++ rel⟩ := by
  have hmem := List.mem_of_getElem? hi
  have hlt := (List.getElem?_eq_some_iff.mp hi).1
  -- arrays of other subscriptions are neither that of `s` nor new
  have hother : ∀ j t, m.list[j]? = some t → i ≠ j → ∀ a ∈ t.array, ¬ (a ∈ s.array ∨ m.next ≤ a) := by
    rintro j t hj hij a ha (hs | hle)
    · exact h.apart_getElem? hi hj hij a hs ha
    · exact absurd (h.below t (List.mem_of_getElem? hj) a ha) (Nat.not_lt.mpr hle)
  have hcases : ∀ j t, (m.list.set i s')[j]? = some t →
      (j = i ∧ t = s') ∨ (i ≠ j ∧ m.list[j]? = some t) := by
    intro j t ht
    by_cases hij : i = j
    · subst hij
      rw [List.getElem?_set_self hlt] at ht
      exact .inl ⟨rfl, (Option.some.inj ht).symm⟩
    · rw [List.getElem?_set_ne hij] at ht
      exact .inr ⟨hij, ht⟩
  have hcases' : ∀ t ∈ m.list.set i s', t = s' ∨ ∃ j, i ≠ j ∧ m.list[j]? = some t := by
    intro t ht
    obtain ⟨j, hj⟩ := List.mem_iff_getElem?.mp ht
    exact (hcases j t hj).imp (fun h => h.2) fun h => ⟨j, h⟩
  refine ⟨?_, ?_, ?_, ?_, ?_⟩
  · refine List.pairwise_iff_getElem.mpr fun j k hj hk hjk => ?_
    rcases hcases j _ (List.getElem?_eq_getElem hj) with ⟨rfl, he⟩ | ⟨hij, hj'⟩
    · rcases hcases k _ (List.getElem?_eq_getElem hk) with ⟨rfl, -⟩ | ⟨hik, hk'⟩
      · exact absurd hjk (Nat.lt_irrefl _)
      · rw [he]
        exact fun a ha ha' => hother k _ hk' hik a ha' (harr a ha).1
    · rcases hcases k _ (List.getElem?_eq_getElem hk) with ⟨rfl, he⟩ | ⟨-, hk'⟩
      · rw [he]
        exact fun a ha ha' => hother j _ hj' hij a ha (harr a ha').1
      · exact h.apart_getElem? hj' hk' (Nat.ne_of_lt hjk)
  · intro t ht a ha hr
    rcases hcases' t ht with rfl | ⟨j, hij, hj⟩
    · rcases List.mem_append.mp hr with hr | hr
      · rcases (harr a ha).1 with hs | hle
        · exact h.live s hmem a hs hr
        · exact absurd (h.freed a hr) (Nat.not_lt.mpr hle)
      · exact (hrel a hr).2.2 ha
    · rcases List.mem_append.mp hr with hr | hr
      · exact h.live t (List.mem_of_getElem? hj) a ha hr
      · exact hother j t hj hij a ha (hrel a hr).1
  · intro t ht a ha
    rcases hcases' t ht with rfl | ⟨j, -, hj⟩
    · exact (harr a ha).2
    · exact Nat.lt_of_lt_of_le (h.below t (List.mem_of_getElem? hj) a ha) hn
  · intro a ha
    rcases List.mem_append.mp ha with ha | ha
    · exact Nat.lt_of_lt_of_le (h.freed a ha) hn
    · exact (hrel a ha).2.1
  · intro t ht
    rcases hcases' t ht with rfl | ⟨j, -, hj⟩
    · exact hs'
    · exact h.rules t (List.mem_of_getElem? hj)

end Subs

namespace Daemon

variable {d b : Daemon}

/-! ## Calls -/

theorem Undone.owned (h : d.Undone b) (ho : d.subs.Owned) : b.subs.Owned := by
  obtain ⟨hl, ⟨ps, hf, hps⟩, hn⟩ := h
  refine ⟨?_, ?_, ?_, ?_, ?_⟩
  · rw [hl]
    exact ho.apart
  · rw [hl, hf]
    intro s hs a ha hr
    rcases List.mem_append.mp hr with hr | hr
    · exact ho.live s hs a ha hr
    · exact absurd (ho.below s hs a ha) (Nat.not_lt.mpr (hps a hr).1)
  · rw [hl]
    exact fun s hs a ha => Nat.lt_of_lt_of_le (ho.below s hs a ha) hn
  · rw [hf]
    intro a ha
    rcases List.mem_append.mp ha with ha | ha
    · exact Nat.lt_of_lt_of_le (ho.freed a ha) hn
    · exact (hps a ha).2
  · rw [hl]
    exact ho.rules

theorem Coherent.owned_addSubscription (hd : d.Coherent) (h : d.subs.Owned) {s : Subscription}
    (he : (d.addSubscription s).2 = none) : (d.addSubscription s).1.subs.Owned := by
  unfold addSubscription at he ⊢
  dsimp only at he ⊢
  split_ifs at he ⊢
  split at he
  · next b hr =>
    have hs := hd.subs_rebuild hr
    show b.subs.Owned
    rw [hs]
    exact h.append s
  · cases he

theorem Coherent.owned_replaceSubscriptions (hd : d.Coherent) (h : d.subs.Owned)
    {subs : List Subscription} (he : (d.replaceSubscriptions subs).2 = none) :
    (d.replaceSubscriptions subs).1.subs.Owned := by
  unfold replaceSubscriptions at he ⊢
  dsimp only at he ⊢
  split at he
  · next b hr =>
    have hs := hd.subs_rebuild hr
    have hold : ∀ a ∈ (d.subs.list.map Sub.array).filterMap id, a < d.subs.next := by
      intro a ha
      obtain ⟨x, hx, hxa⟩ := List.mem_filterMap.mp ha
      obtain ⟨s, hs', rfl⟩ := List.mem_map.mp hx
      exact h.below s hs' a hxa
    have hown := h.adopt subs _ hold
    rw [← (Subs.adopt_spec d.subs subs).1] at hown
    show (b.subs.releaseAll _).Owned
    rw [hs]
    exact hown
  · cases he

theorem Coherent.owned_removeSubscriptionById (hd : d.Coherent) (h : d.subs.Owned) {id : Id}
    (he : (d.removeSubscriptionById id).2.2 = none) :
    (d.removeSubscriptionById id).1.subs.Owned := by
  unfold removeSubscriptionById at he ⊢
  split at he
  · exact h
  · next i s hf =>
    split at he
    · next b hr =>
      have hs := hd.subs_rebuild hr
      show (b.subs.release _).Owned
      rw [hs]
      exact h.erase (Subs.find_spec hf).1
    · cases he

theorem Coherent.owned_syncSubscriptionById (hd : d.Coherent) (h : d.subs.Owned) {fetch : Fetch}
    {id : Id} {now : Nat} {url : Option Bytes} {c : Bool}
    (he : (d.syncSubscriptionById fetch id now url).2 = .ok c) :
    (d.syncSubscriptionById fetch id now url).1.subs.Owned := by
  unfold syncSubscriptionById at he ⊢
  split at he
  · cases he
  · next i s hf =>
    have hi := (Subs.find_spec hf).1
    have hmem := List.mem_of_getElem? hi
    dsimp only at he ⊢
    split_ifs at he ⊢
    split at he
    · cases he
    · next rules _ =>
      -- the new array is freed at once
      have hown := h.overwrite { s with config := { s.config with
          url := (url.filter fun u => u ≠ []).getD s.config.url, lastCheck := now % 2 ^ 32 } }
        (d.subs.alloc rules).1.toList hi (Subs.le_next_alloc rules) (h.rules s hmem)
        (fun a ha => ⟨.inl ha, Nat.lt_of_lt_of_le (h.below s hmem a ha) (Subs.le_next_alloc rules)⟩)
        (fun a ha => ⟨.inr (Subs.mem_alloc_toList a ha).1, (Subs.mem_alloc_toList a ha).2,
          fun ha' => absurd (h.below s hmem a ha') (Nat.not_lt.mpr (Subs.mem_alloc_toList a ha).1)⟩)
      rw [← Subs.released_alloc (m := d.subs) rules, ← Subs.list_alloc (m := d.subs) rules] at hown
      exact hown
    · next rules _ =>
      split at he
      · next b hr =>
        have hs := hd.subs_rebuild hr
        have hnew : ∀ a ∈ (d.subs.alloc rules).1, d.subs.next ≤ a ∧ a < (d.subs.alloc rules).2.next :=
          fun a ha => Subs.mem_alloc_toList a (Option.mem_toList.mpr ha)
        have hown := h.overwrite ⟨{ s.config with
            url := (url.filter fun u => u ≠ []).getD s.config.url, lastCheck := now % 2 ^ 32,
            lastUpdate := now % 2 ^ 32, rules := refreshedArray rules }, (d.subs.alloc rules).1⟩
          s.array.toList hi (Subs.le_next_alloc rules)
          (by rw [Subs.items_refreshedArray]; exact Subs.alloc_eq_none)
          (fun a ha => ⟨.inr (hnew a ha).1, (hnew a ha).2⟩)
          (fun a ha => ⟨.inl (Option.mem_toList.mp ha),
            Nat.lt_of_lt_of_le (h.below s hmem a (Option.mem_toList.mp ha)) (Subs.le_next_alloc rules),
            fun ha' => absurd (h.below s hmem a (Option.mem_toList.mp ha))
              (Nat.not_lt.mpr (hnew a ha').1)⟩)
        rw [← Subs.released_alloc (m := d.subs) rules, ← Subs.list_alloc (m := d.subs) rules] at hown
        show (b.subs.release _).Owned
        rw [hs]
        exact hown
      · cases he

/-! ## The sync of all that is due -/

def duePlans (d : Daemon) (fetch : Nat → Fetch) (now : Nat) : List Plan :=
  (d.subs.duePlans fetch 0 (d.subs.dueIds now)).1

def drawn (d : Daemon) (fetch : Nat → Fetch) (now : Nat) : Subs :=
  (d.subs.duePlans fetch 0 (d.subs.dueIds now)).2

theorem list_drawn (d : Daemon) (fetch : Nat → Fetch) (now : Nat) :
    (d.drawn fetch now).list = d.subs.list :=
  Subs.list_duePlans fetch _ 0

theorem plansAt_drawn (d : Daemon) (fetch : Nat → Fetch) (now : Nat) (ps : List Plan) (i : Nat) :
    (d.drawn fetch now).plansAt ps i = d.subs.plansAt ps i := by
  unfold Subs.plansAt Subs.place
  rw [list_drawn]

theorem Coherent.subs_syncDue_error (hd : d.Coherent) {fetch : Nat → Fetch} {now : Nat}
    (he : (d.syncDueSubscriptions fetch now).2 ≠ none) :
    (d.syncDueSubscriptions fetch now).1.subs =
      Subs.rolledBack now (d.drawn fetch now) (d.duePlans fetch now) := by
  unfold syncDueSubscriptions at he ⊢
  dsimp only at he ⊢
  split_ifs at he ⊢
  · split at he
    · exact absurd rfl he
    · next b e hr =>
      refine (hd.subs_back hr _).trans ?_
      rw [hd.subs_rebuild hr]
      rfl
  · exact absurd rfl he

theorem Coherent.owned_syncDue (hd : d.Coherent) (h : d.subs.Owned) {fetch : Nat → Fetch}
    {now : Nat} (he : (d.syncDueSubscriptions fetch now).2 = none) :
    (d.syncDueSubscriptions fetch now).1.subs.Owned := by
  have hown : ((Subs.applyPlans now (d.drawn fetch now) (d.duePlans fetch now)).1.releaseAll
      (((Subs.applyPlans now (d.drawn fetch now) (d.duePlans fetch now)).2.filter
        Saved.replaced).map fun e => e.old.array)).Owned :=
    (h.drawn fetch 0 (d.subs.dueIds now)).owned_applyPlans
  unfold syncDueSubscriptions at he ⊢
  dsimp only at he ⊢
  split_ifs at he ⊢ with hany
  · split at he
    · next b hr =>
      show (b.subs.releaseAll _).Owned
      rw [hd.subs_rebuild hr]
      exact hown
    · cases he
  · have hnone : (Subs.applyPlans now (d.drawn fetch now) (d.duePlans fetch now)).2.filter
        Saved.replaced = [] := by
      rw [List.filter_eq_nil_iff]
      intro e hmem hrep
      exact hany (List.any_eq_true.mpr ⟨e, hmem, hrep⟩)
    rw [hnone] at hown
    unfold Subs.releaseAll at hown
    rw [List.map_nil, List.filterMap_nil, List.append_nil] at hown
    exact hown

/-- When a failed call restores the subscriptions. Only the sync of all that is due may not: each
subscription must bear having its plans undone from the first to the last. -/
def Reversible (d : Daemon) : SubOp → Prop
  | .syncDue fetch now => ∀ i s, d.subs.list[i]? = some s →
      Subs.Harmless now s (d.subs.plansAt (d.duePlans fetch now) i)
  | _ => True

theorem Undone.restored (h : d.Undone b) (ho : d.subs.Owned) : d.subs.Restored b.subs :=
  ⟨by rw [h.list], (h.owned ho).live⟩

theorem Coherent.restored_iff (hd : d.Coherent) (ho : d.subs.Owned) {o : SubOp}
    (he : (d.call o).2 ≠ none) : d.subs.Restored (d.call o).1.subs ↔ d.Reversible o := by
  cases o with
  | syncDue fetch now =>
    have hdrawn : (d.drawn fetch now).Drawn (d.duePlans fetch now) :=
      ho.drawn fetch 0 (d.subs.dueIds now)
    have hiff := hdrawn.restored_iff now
    simp only [plansAt_drawn, list_drawn] at hiff
    show d.subs.Restored (d.syncDueSubscriptions fetch now).1.subs ↔ _
    rw [hd.subs_syncDue_error he]
    unfold Subs.Restored at hiff ⊢
    rw [list_drawn] at hiff
    exact hiff
  | add s => exact iff_of_true ((hd.undone_call (by simp) he).restored ho) trivial
  | replace subs => exact iff_of_true ((hd.undone_call (by simp) he).restored ho) trivial
  | remove id => exact iff_of_true ((hd.undone_call (by simp) he).restored ho) trivial
  | sync fetch id now url => exact iff_of_true ((hd.undone_call (by simp) he).restored ho) trivial

theorem Coherent.owned_call (hd : d.Coherent) (h : d.subs.Owned) (o : SubOp)
    (hr : (d.call o).2 ≠ none → d.Reversible o) : (d.call o).1.subs.Owned := by
  by_cases he : (d.call o).2 = none
  · cases o with
    | add s => exact hd.owned_addSubscription h he
    | replace subs => exact hd.owned_replaceSubscriptions h he
    | remove id => exact hd.owned_removeSubscriptionById h he
    | sync fetch id now url =>
      cases hc : (d.syncSubscriptionById fetch id now url).2 with
      | ok c => exact hd.owned_syncSubscriptionById h hc
      | error e =>
        have he : errorOf (d.syncSubscriptionById fetch id now url).2 = none := he
        rw [hc] at he
        cases he
    | syncDue fetch now => exact hd.owned_syncDue h he
  · by_cases ho : ∀ fetch now, o ≠ .syncDue fetch now
    · exact (hd.undone_call ho he).owned h
    · have hlive := ((hd.restored_iff h he).mpr (hr he)).2
      simp only [not_forall, not_not] at ho
      obtain ⟨fetch, now, rfl⟩ := ho
      have hsubs : (d.call (.syncDue fetch now)).1.subs = _ := hd.subs_syncDue_error he
      rw [hsubs] at hlive ⊢
      exact (h.drawn fetch 0 (d.subs.dueIds now)).owned_rolledBack hlive

/-! ## Runs -/

/-- In a run, each sync of all that is due that fails does so in a state where `P` holds of it. -/
def FailsOnly (P : Daemon → (Nat → Fetch) → Nat → Prop) (d : Daemon) : List Op → Prop
  | [] => True
  | op :: ops =>
    (∀ fetch now, op = .syncDue fetch now → (d.syncDueSubscriptions fetch now).2 ≠ none →
      P d fetch now) ∧ (d.step op).FailsOnly P ops

/-- The condition for runs. -/
def Reverts (d : Daemon) (ops : List Op) : Prop :=
  d.FailsOnly (fun d fetch now => d.Reversible (.syncDue fetch now)) ops

theorem Coherent.owned_step (hd : d.Coherent) (h : d.subs.Owned) (op : Op)
    (hr : ∀ fetch now, op = .syncDue fetch now → (d.syncDueSubscriptions fetch now).2 ≠ none →
      d.Reversible (.syncDue fetch now)) : (d.step op).subs.Owned := by
  rcases hd.step_cases op with ⟨b, hg, hn | ⟨o, hno, ho⟩⟩ | ⟨fetch, now, hop, he⟩ | ⟨-, hs⟩
  · rw [hn, hg.subs]
    exact h
  · rw [ho]
    refine hg.coherent.owned_call (by rw [hg.subs]; exact h) o fun _ => ?_
    cases o with
    | syncDue fetch now => exact absurd rfl (hno fetch now)
    | _ => trivial
  · rw [he]
    exact hd.owned_call h _ (hr fetch now hop)
  · rw [hs.subs]
    exact h

theorem Coherent.owned_run (hd : d.Coherent) (h : d.subs.Owned) {ops : List Op}
    (hr : d.Reverts ops) : (d.run ops).subs.Owned := by
  induction ops generalizing d with
  | nil => exact h
  | cons op ops ih => exact ih (hd.step op).1 (hd.owned_step h op hr.1) hr.2

theorem launch_subs {k : Deps} {cfg : Config} {answers : List (Option Err)}
    (h : launch k cfg answers = .ok d) : d.subs = (create k cfg answers).subs := by
  unfold launch at h
  dsimp only at h
  split at h
  · cases h
  · split at h
    · cases h
    · cases h
      rfl

theorem owned_launch {k : Deps} {cfg : Config} {answers : List (Option Err)}
    (h : launch k cfg answers = .ok d) : d.subs.Owned := by
  rw [launch_subs h]
  let a := Subs.adopt ⟨[], 0, []⟩ cfg.subscriptions.items
  let d₀ : Daemon :=
    ⟨k, ⟨fun _ => none, 0⟩, .empty, { a.2 with list := a.1 }, .empty, false,
      rulesetSnapshotBuild cfg.groups.items cfg.subscriptions.items, ⟨answers, []⟩⟩
  have hd₀ : d₀.Coherent :=
    ⟨Registry.coherent_empty, Registry.coherent_empty, List.nodup_nil, (fun _ hp => nomatch hp), rfl⟩
  obtain ⟨hc, -, hsubs, -⟩ := hd₀.createRulesets cfg.groups.items
  have hs : (create k cfg answers).subs = { a.2 with list := a.1 } :=
    hc.rebuild.2.1.subs.trans hsubs
  have hown := Subs.owned_empty.adopt cfg.subscriptions.items []
    fun _ ha => absurd ha List.not_mem_nil
  rw [List.append_nil, ← (Subs.adopt_spec ⟨[], 0, []⟩ cfg.subscriptions.items).1] at hown
  rw [hs]
  exact hown

/-- From any configuration, after any run whose own failures were reversible: a call that fails
restores the subscriptions, and leaves none with a freed array, exactly if it is reversible. -/
theorem run_restored_iff {k : Deps} {cfg : Config} {answers : List (Option Err)}
    (h : launch k cfg answers = .ok d) {ops : List Op} (hr : d.Reverts ops) {o : SubOp}
    (he : ((d.run ops).call o).2 ≠ none) :
    (d.run ops).subs.Restored ((d.run ops).call o).1.subs ↔ (d.run ops).Reversible o := by
  obtain ⟨hc, ha, -⟩ := launch_spec h
  exact (hc.run ha ops).1.restored_iff (hc.owned_run (owned_launch h) hr) he

def twin (iface : Bytes) : SubscriptionNode :=
  ⟨⟨0, 0, 0, 1⟩, str "a", iface, true, str "http://a", 1, 0,
    [⟨⟨0, 0, 0, 2⟩, str "a.com", str "domain", true⟩], none⟩

def twins : Doc := ⟨none, .ok none, .ok (some [twin (str "wg0"), twin []])⟩

def twinsConfig : Config :=
  { initDefaults with
    subscriptions := (CArray.empty.push (twin (str "wg0")).subscription).push (twin []).subscription
    subscriptionsPresent := true }

def flapping (i : Nat) : Fetch := fun _ s =>
  if i = 0 then .ok ([⟨⟨0, 0, 0, 3⟩, str "b.com", str "domain", true⟩], true)
  else .ok (s.rules.items, false)

def halfDown (i : Nat) : Fetch := fun _ _ =>
  if i = 0 then .ok ([⟨⟨0, 0, 0, 3⟩, str "b.com", str "domain", true⟩], true)
  else .error .upstream

def rebuildFails : List (Option Err) := List.replicate 12 none ++ [some .sys]

/-- The first of two subscriptions with one id ends with the rules of the failed sync, in an array
that was freed. -/
theorem syncDue_twins_lost :
    (loadBuffer initDefaults twins).2 = .ok twinsConfig ∧
      ∃ d, launch ⟨str "mt_", str "MT_"⟩ twinsConfig rebuildFails = .ok d ∧
        (d.call (.syncDue flapping 100)).2 = some .sys ∧
        (d.call (.syncDue flapping 100)).1.configSubs.map Subs.content ≠
          d.configSubs.map Subs.content ∧
        ∃ a ∈ (d.call (.syncDue flapping 100)).1.subs.released,
          some a ∈ (d.call (.syncDue flapping 100)).1.subs.list.map Sub.array := by
  refine ⟨rfl, _, rfl, ?_, ?_, ?_⟩
  · decide +kernel
  · decide +kernel
  · decide +kernel

/-- With one plan only they are restored. -/
theorem run_restored_iff_halfDown :
    (loadBuffer initDefaults twins).2 = .ok twinsConfig ∧
      ∃ d, launch ⟨str "mt_", str "MT_"⟩ twinsConfig rebuildFails = .ok d ∧
        (d.call (.syncDue halfDown 100)).2 = some .sys ∧
        d.subs.Restored (d.call (.syncDue halfDown 100)).1.subs := by
  refine ⟨rfl, _, rfl, by decide +kernel, ?_⟩
  refine (@run_restored_iff _ ⟨str "mt_", str "MT_"⟩ twinsConfig rebuildFails rfl [] trivial
    (.syncDue halfDown 100) (by decide +kernel)).mpr ?_
  have hall : ∀ x ∈ (create ⟨str "mt_", str "MT_"⟩ twinsConfig rebuildFails).subs.list.zipIdx,
      Subs.Harmless 100 x.1 ((create ⟨str "mt_", str "MT_"⟩ twinsConfig rebuildFails).subs.plansAt
        ((create ⟨str "mt_", str "MT_"⟩ twinsConfig rebuildFails).duePlans halfDown 100) x.2) := by
    decide +kernel
  intro i s hi
  exact hall (s, i) (List.mem_zipIdx_iff_getElem?.mpr hi)

end Daemon

end MagiTrickle.Runtime
