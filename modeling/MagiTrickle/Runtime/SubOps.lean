import Mathlib.Data.List.InsertIdx
import MagiTrickle.Runtime.Registry

/-!
# How a change of the subscriptions ends

The five functions of `api/app.c` that change subscriptions end in one of three
ways: without a rebuild, with a rebuild and a new snapshot, or with a rebuild
that failed and a second one after the rollback (`Ends`). What follows for the
registries is proved once for the three.
-/

namespace MagiTrickle.Runtime

open Config Api Rules

def Subs.runtime (m : Subs) : List Group := m.list.map fun s => Rules.subRuntimeGroup s.config

namespace Daemon

/-- The ends of an operation on the subscriptions: the state and the error it leaves. -/
inductive Ends (d : Daemon) : Daemon → Option Err → Prop
  | plain {m : Subs} {e : Option Err} (hm : m.runtime = d.subs.runtime) :
      Ends d { d with subs := m } e
  | done {m m' : Subs} {b : Daemon} (hr : { d with subs := m }.rebuild = (b, none))
      (hl : m'.list = m.list) : Ends d { b with subs := m' }.republish none
  | back {m m' : Subs} {b : Daemon} {e : Err} (hr : { d with subs := m }.rebuild = (b, some e)) :
      Ends d { b with subs := m' }.rebuild.1 (some e)

variable {d b : Daemon} {e : Option Err}

theorem Coherent.withSubs (h : d.Coherent) (m : Subs) : Coherent { d with subs := m } :=
  h.of_eq rfl rfl rfl rfl rfl

theorem Ends.coherent (h : d.Ends b e) (hd : d.Coherent) : b.Coherent := by
  cases h with
  | plain => exact hd.withSubs _
  | @done m m' b hr hl =>
    have hb := (hd.withSubs m).rebuild.1
    rw [hr] at hb
    exact (hb.withSubs m').republish
  | @back m m' b e hr =>
    have hb := (hd.withSubs m).rebuild.1
    rw [hr] at hb
    exact (hb.withSubs m').rebuild.1

/-- There is one group for every subscription, or none at all after a failed rollback. -/
def Aligned (d : Daemon) : Prop := d.synth = .empty ∨ d.synthGroups = d.subs.runtime

theorem Coherent.aligned_rebuild (hd : d.Coherent) : d.rebuild.1.Aligned := by
  obtain ⟨-, hk, hok, herr⟩ := hd.rebuild
  by_cases hn : d.rebuild.2 = none
  · refine .inr ((hok hn).trans ?_)
    rw [Subs.runtime, hk.subs, configSubs, List.map_map]
    rfl
  · exact .inl (herr hn)

theorem Ends.aligned (h : d.Ends b e) (hd : d.Coherent) (ha : d.Aligned) : b.Aligned := by
  cases h with
  | plain hm => exact ha.imp (fun h => h) fun h => h.trans hm.symm
  | @done m m' b hr hl =>
    have hb := (hd.withSubs m).aligned_rebuild
    have hs := (hd.withSubs m).rebuild.2.1.subs
    rw [hr] at hb hs
    refine hb.imp (fun h => h) fun h => h.trans ?_
    rw [Subs.runtime, hs, Subs.runtime, ← hl]
    rfl
  | @back m m' b e hr =>
    have hb := (hd.withSubs m).rebuild.1
    rw [hr] at hb
    exact (hb.withSubs m').aligned_rebuild

/-! ## The five operations -/

end Daemon

namespace Subs

variable {m : Subs}

theorem find_spec {id : Id} {i : Nat} {s : Sub} (h : m.find id = some (i, s)) :
    m.list[i]? = some s ∧ s.config.id = id := by
  obtain ⟨j, hj, hs⟩ := Option.bind_eq_some_iff.mp h
  obtain ⟨s', hs', he⟩ := Option.map_eq_some_iff.mp hs
  cases he
  obtain ⟨hlt, hid, -⟩ := List.findIdx?_eq_some_iff_getElem.mp hj
  refine ⟨hs', ?_⟩
  rw [List.getElem?_eq_getElem hlt] at hs'
  cases hs'
  simpa using hid

@[simp] theorem list_alloc (rules : List SubRule) : (m.alloc rules).2.list = m.list := by
  unfold alloc
  split_ifs <;> rfl

@[simp] theorem list_release (a : Option Ptr) : (m.release a).list = m.list := rfl

@[simp] theorem list_releaseAll (as : List (Option Ptr)) : (m.releaseAll as).list = m.list := rfl

theorem runtime_of_list {m' : Subs} (h : m'.list = m.list) : m'.runtime = m.runtime := by
  rw [runtime, h, runtime]

theorem runtime_set {i : Nat} {s s' : Sub} (hi : m.list[i]? = some s)
    (hs : Rules.subRuntimeGroup s'.config = Rules.subRuntimeGroup s.config) :
    (m.set i s').runtime = m.runtime := by
  obtain ⟨hlt, rfl⟩ := List.getElem?_eq_some_iff.mp hi
  unfold runtime set
  dsimp only
  rw [List.map_set, hs]
  exact (List.map_set (f := fun s : Sub => Rules.subRuntimeGroup s.config)).symm.trans
    (by rw [List.set_getElem_self])

end Subs

namespace Daemon

variable {d b : Daemon} {e : Option Err}

theorem Coherent.subs_rebuild (hd : d.Coherent) {m : Subs}
    (hr : { d with subs := m }.rebuild = (b, e)) : b.subs = m := by
  have hs := (hd.withSubs m).rebuild.2.1.subs
  rw [hr] at hs
  exact hs

theorem Coherent.subs_back (hd : d.Coherent) {m : Subs}
    (hr : { d with subs := m }.rebuild = (b, e)) (m' : Subs) :
    ({ b with subs := m' }.rebuild.1).subs = m' := by
  have hb := (hd.withSubs m).rebuild.1
  rw [hr] at hb
  exact (hb.withSubs m').rebuild.2.1.subs

theorem Coherent.ends_addSubscription (hd : d.Coherent) (s : Subscription) :
    d.Ends (d.addSubscription s).1 (d.addSubscription s).2 := by
  unfold addSubscription
  dsimp only
  split_ifs
  · exact .plain (Subs.runtime_of_list (by simp))
  · split
    · next b hr => exact .done hr (congrArg Subs.list (hd.subs_rebuild hr))
    · next b e hr => exact .back hr

theorem Coherent.ends_replaceSubscriptions (hd : d.Coherent) (subs : List Subscription) :
    d.Ends (d.replaceSubscriptions subs).1 (d.replaceSubscriptions subs).2 := by
  unfold replaceSubscriptions
  dsimp only
  split
  · next b hr =>
    have hl := congrArg Subs.list (hd.subs_rebuild hr)
    exact .done hr hl
  · next b e hr => exact .back hr

theorem Coherent.ends_removeSubscriptionById (hd : d.Coherent) (id : Id) :
    d.Ends (d.removeSubscriptionById id).1 (d.removeSubscriptionById id).2.2 := by
  unfold removeSubscriptionById
  split
  · exact .plain rfl
  · split
    · next b hr =>
      have hl := congrArg Subs.list (hd.subs_rebuild hr)
      exact .done hr hl
    · next b e hr => exact .back hr

theorem Coherent.ends_syncSubscriptionById (hd : d.Coherent) (fetch : Fetch) (id : Id) (now : Nat)
    (url : Option Bytes) :
    d.Ends (d.syncSubscriptionById fetch id now url).1
      (errorOf (d.syncSubscriptionById fetch id now url).2) := by
  unfold syncSubscriptionById
  split
  · exact .plain rfl
  · next i s hf =>
    dsimp only
    split_ifs
    · exact .plain rfl
    · split
      · exact .plain rfl
      · refine .plain ?_
        refine (Subs.runtime_set (s := s) ?_ ?_).trans (Subs.runtime_of_list (by simp))
        · simpa using (Subs.find_spec hf).1
        · rfl
      · split
        · next b hr =>
          have hl := congrArg Subs.list (hd.subs_rebuild hr)
          exact .done hr hl
        · next b e hr => exact .back hr

end Daemon

/-! ## What a failed call leaves

Four of the operations put the very objects back that were there, and free nothing but arrays made
during the call. -/

namespace Subs

variable {m : Subs}

theorem le_next_alloc (rules : List SubRule) : m.next ≤ (m.alloc rules).2.next := by
  unfold alloc
  split_ifs
  · exact Nat.le_refl _
  · exact Nat.le_succ _

theorem released_alloc (rules : List SubRule) : (m.alloc rules).2.released = m.released := by
  unfold alloc
  split_ifs <;> rfl

theorem mem_alloc {rules : List SubRule} {p : Ptr} (h : (m.alloc rules).1 = some p) :
    p = m.next ∧ (m.alloc rules).2.next = m.next + 1 := by
  unfold alloc at h ⊢
  split_ifs at h ⊢
  exact ⟨(Option.some.inj h).symm, rfl⟩

theorem mem_alloc_toList {rules : List SubRule} :
    ∀ p ∈ (m.alloc rules).1.toList, m.next ≤ p ∧ p < (m.alloc rules).2.next := by
  intro p hp
  obtain ⟨rfl, hn⟩ := mem_alloc (Option.mem_toList.mp hp)
  rw [hn]
  exact ⟨Nat.le_refl _, Nat.lt_succ_self _⟩

theorem adopt_spec (m : Subs) (ss : List Subscription) :
    (m.adopt ss).2.released = m.released ∧ (m.adopt ss).2.list = m.list ∧
      m.next ≤ (m.adopt ss).2.next ∧
      ∀ s ∈ (m.adopt ss).1, ∀ p ∈ s.array, m.next ≤ p ∧ p < (m.adopt ss).2.next := by
  induction ss generalizing m with
  | nil => exact ⟨rfl, rfl, Nat.le_refl _, fun _ hs => absurd hs List.not_mem_nil⟩
  | cons s ss ih =>
    obtain ⟨hr, hl, hn, ha⟩ := ih (m.alloc s.rules.items).2
    have hle := le_next_alloc (m := m) s.rules.items
    refine ⟨hr.trans (released_alloc _), hl.trans (list_alloc _), Nat.le_trans hle hn,
      fun x hx p hp => ?_⟩
    rcases List.mem_cons.mp hx with rfl | hx
    · obtain ⟨rfl, hnext⟩ := mem_alloc hp
      refine ⟨Nat.le_refl _, Nat.lt_of_lt_of_le ?_ hn⟩
      rw [hnext]
      exact Nat.lt_succ_self _
    · exact ⟨Nat.le_trans hle (ha x hx p hp).1, (ha x hx p hp).2⟩

end Subs

namespace Daemon

variable {d b : Daemon}

/-- The list of subscriptions is as it was, object for object, and what was freed is new. -/
structure Undone (d b : Daemon) : Prop where
  list : b.subs.list = d.subs.list
  freed : ∃ ps, b.subs.released = d.subs.released ++ ps ∧
    ∀ p ∈ ps, d.subs.next ≤ p ∧ p < b.subs.next
  next : d.subs.next ≤ b.subs.next

theorem undone_refl (d : Daemon) : d.Undone d :=
  ⟨rfl, ⟨[], (List.append_nil _).symm, fun _ hp => absurd hp List.not_mem_nil⟩, Nat.le_refl _⟩

/-- The rebuild that follows a rollback does not touch the subscriptions. -/
theorem Coherent.undone_back (hd : d.Coherent) {m m' : Subs} {e : Option Err}
    (hr : { d with subs := m }.rebuild = (b, e)) (hu : d.Undone { b with subs := m' }) :
    d.Undone { b with subs := m' }.rebuild.1 := by
  have hs := hd.subs_back hr m'
  obtain ⟨hl, ⟨ps, hf, hps⟩, hn⟩ := hu
  refine ⟨?_, ⟨ps, ?_, ?_⟩, ?_⟩
  · rw [hs]
    exact hl
  · rw [hs]
    exact hf
  · rw [hs]
    exact hps
  · rw [hs]
    exact hn

theorem Coherent.undone_addSubscription (hd : d.Coherent) {s : Subscription}
    (he : (d.addSubscription s).2 ≠ none) : d.Undone (d.addSubscription s).1 := by
  have hnew := @Subs.mem_alloc_toList d.subs s.rules.items
  have hrel := Subs.released_alloc (m := d.subs) s.rules.items
  have hnext := Subs.le_next_alloc (m := d.subs) s.rules.items
  unfold addSubscription at he ⊢
  dsimp only at he ⊢
  split_ifs at he ⊢
  · exact ⟨by simp, ⟨_, by rw [Subs.release, hrel], hnew⟩, hnext⟩
  · split at he
    · exact absurd rfl he
    · next b e hr =>
      have hs := hd.subs_rebuild hr
      refine hd.undone_back hr ⟨?_, ⟨(d.subs.alloc s.rules.items).1.toList, ?_, ?_⟩, ?_⟩
      · rw [hs]
        simp [List.eraseIdx_append_of_length_le]
      · rw [hs]
        exact congrArg (· ++ _) hrel
      · rw [hs]
        exact hnew
      · rw [hs]
        exact hnext

theorem Coherent.undone_replaceSubscriptions (hd : d.Coherent) {subs : List Subscription}
    (he : (d.replaceSubscriptions subs).2 ≠ none) : d.Undone (d.replaceSubscriptions subs).1 := by
  obtain ⟨hrel, -, hnext, harr⟩ := d.subs.adopt_spec subs
  unfold replaceSubscriptions at he ⊢
  dsimp only at he ⊢
  split at he
  · exact absurd rfl he
  · next b e hr =>
    have hs := hd.subs_rebuild hr
    have hnew : ∀ p ∈ ((d.subs.adopt subs).1.map Sub.array).filterMap id,
        d.subs.next ≤ p ∧ p < (d.subs.adopt subs).2.next := by
      intro p hp
      obtain ⟨a, ha, hap⟩ := List.mem_filterMap.mp hp
      obtain ⟨s, hs', rfl⟩ := List.mem_map.mp ha
      exact harr s hs' p hap
    refine hd.undone_back hr
      ⟨rfl, ⟨((d.subs.adopt subs).1.map Sub.array).filterMap id, ?_, ?_⟩, ?_⟩
    · rw [hs]
      exact congrArg (· ++ _) hrel
    · rw [hs]
      exact hnew
    · rw [hs]
      exact hnext

theorem Coherent.undone_removeSubscriptionById (hd : d.Coherent) {id : Id}
    (he : (d.removeSubscriptionById id).2.2 ≠ none) : d.Undone (d.removeSubscriptionById id).1 := by
  unfold removeSubscriptionById at he ⊢
  split at he
  · exact absurd rfl he
  · next i s hf =>
    have hi := (Subs.find_spec hf).1
    split at he
    · exact absurd rfl he
    · next b e hr =>
      have hs := hd.subs_rebuild hr
      refine hd.undone_back hr ⟨?_, ⟨[], ?_, fun _ hp => absurd hp List.not_mem_nil⟩, ?_⟩
      · rw [hs]
        dsimp only
        rw [List.dropLast_concat]
        obtain ⟨hlt, rfl⟩ := List.getElem?_eq_some_iff.mp hi
        exact List.insertIdx_eraseIdx_getElem hlt
      · rw [hs]
        exact (List.append_nil _).symm
      · rw [hs]

theorem Coherent.undone_syncSubscriptionById (hd : d.Coherent) {fetch : Fetch} {id : Id} {now : Nat}
    {url : Option Bytes} {e : Err} (he : (d.syncSubscriptionById fetch id now url).2 = .error e) :
    d.Undone (d.syncSubscriptionById fetch id now url).1 := by
  unfold syncSubscriptionById at he ⊢
  split at he
  · exact d.undone_refl
  · next i s hf =>
    dsimp only at he ⊢
    split_ifs at he ⊢
    · exact d.undone_refl
    · split at he
      · exact d.undone_refl
      · cases he
      · next rules hfe =>
        split at he
        · cases he
        · next b e' hr =>
          have hs := hd.subs_rebuild hr
          have hnew := @Subs.mem_alloc_toList d.subs rules
          refine hd.undone_back hr ⟨?_, ⟨(d.subs.alloc rules).1.toList, ?_, ?_⟩, ?_⟩
          · rw [hs]
            obtain ⟨hlt, rfl⟩ := List.getElem?_eq_some_iff.mp (Subs.find_spec hf).1
            simp [Subs.set]
          · rw [hs]
            exact congrArg (· ++ _) (Subs.released_alloc rules)
          · rw [hs]
            exact hnew
          · rw [hs]
            exact Subs.le_next_alloc rules

end Daemon

/-! ## Plans -/

namespace Subs

variable {m : Subs}

theorem list_duePlans (fetch : Nat → Fetch) (ids : List Id) (i : Nat) :
    (m.duePlans fetch i ids).2.list = m.list := by
  induction ids generalizing m i with
  | nil => rfl
  | cons id ids ih =>
    unfold duePlans
    split
    · exact ih (i + 1)
    · split_ifs
      · exact ih (i + 1)
      · split
        · exact ih (i + 1)
        · next rules changed _ =>
          exact (ih (m := (m.alloc rules).2) (i + 1)).trans (list_alloc rules)

/-- Plans that change no rules leave the groups of the subscriptions as they are. -/
theorem runtime_applyPlans {now : Nat} {ps : List Plan}
    (h : (m.applyPlans now ps).2.any Saved.replaced = false) :
    (m.applyPlans now ps).1.runtime = m.runtime := by
  induction ps generalizing m with
  | nil => rfl
  | cons p ps ih =>
    unfold applyPlans at h ⊢
    split at h
    · exact (ih h).trans rfl
    · next i s hf =>
      simp only [List.any_cons, Bool.or_eq_false_iff] at h
      obtain ⟨hp, hrest⟩ := h
      simp only [hp, Bool.false_eq_true, if_false] at hrest ⊢
      refine (ih hrest).trans (Subs.runtime_set (s := s) (find_spec hf).1 ?_)
      rw [carryOut, hp]
      rfl

end Subs

namespace Daemon

theorem Coherent.ends_syncDueSubscriptions {d : Daemon} (hd : d.Coherent) (fetch : Nat → Fetch) (now : Nat) :
    d.Ends (d.syncDueSubscriptions fetch now).1 (d.syncDueSubscriptions fetch now).2 := by
  unfold syncDueSubscriptions
  dsimp only
  split_ifs with hany
  · split
    · next b hr =>
      have hl := congrArg Subs.list (hd.subs_rebuild hr)
      exact .done hr hl
    · next b e hr => exact .back hr
  · refine .plain ((Subs.runtime_applyPlans (by simpa using hany)).trans ?_)
    exact Subs.runtime_of_list (Subs.list_duePlans fetch _ 0)

theorem Coherent.ends_call {d : Daemon} (hd : d.Coherent) (o : SubOp) :
    d.Ends (d.call o).1 (d.call o).2 := by
  cases o with
  | add s => exact hd.ends_addSubscription s
  | replace subs => exact hd.ends_replaceSubscriptions subs
  | remove id => exact hd.ends_removeSubscriptionById id
  | sync fetch id now url => exact hd.ends_syncSubscriptionById fetch id now url
  | syncDue fetch now => exact hd.ends_syncDueSubscriptions fetch now

theorem Coherent.undone_call {d : Daemon} (hd : d.Coherent) {o : SubOp}
    (ho : ∀ fetch now, o ≠ .syncDue fetch now) (he : (d.call o).2 ≠ none) :
    d.Undone (d.call o).1 := by
  cases o with
  | add s => exact hd.undone_addSubscription he
  | replace subs => exact hd.undone_replaceSubscriptions he
  | remove id => exact hd.undone_removeSubscriptionById he
  | sync fetch id now url =>
    cases hr : (d.syncSubscriptionById fetch id now url).2 with
    | ok c =>
      refine absurd ?_ he
      show errorOf (d.syncSubscriptionById fetch id now url).2 = none
      rw [hr]
      rfl
    | error e => exact hd.undone_syncSubscriptionById hr
  | syncDue fetch now => exact absurd rfl (ho fetch now)

end Daemon

end MagiTrickle.Runtime
