import MagiTrickle.Frontend.AckReplace
import MagiTrickle.Lib.Runs

/-!
# When the reported changes are exact

Every fair step, edit or acknowledgement, keeps what the tracker stores right for
the data and the baseline. So in every run of fair steps the reported changes are
exact (`run_changes_exact`).
-/

namespace MagiTrickle.ChangeTracker

open Lib.Runs (Guarded)

/-! ## Updates -/

theorem Session.Inv.acknowledgeGroup {s : Session} (hs : s.Inv)
    (hmark : ∀ v, (v, "rules") ∉ s.index.dirtyObjectProps) {c : BaseGroup}
    (hc : c ∈ s.heap.read s.root) {p : Persisted} (hbase : s.heap.id c.addr ∈ treeIds s.base)
    (hkeep : s.KeepsId c.addr p) (hfair : ∀ arr ∈ p.rules, s.FairArray c.addr arr)
    (hstale : p.isEmpty ∨ p.rules ≠ none → ∀ g ∈ s.base, g.id = s.heap.id c.addr → ∀ r ∈ g.rules,
      r.id ∈ nestedIds s.nested g.id ∨ r.id ∈ s.ruleIdsAfter c.addr p) :
    Session.Inv { s.acknowledgeUpdate c.addr p with
      base := s.base.map fun g =>
        if g.id = s.heap.id c.addr then g.accept s.heap c.addr p else g } := by
  have hw := hs.whole
  have ht := hs.tracks
  obtain ⟨-, hcaddr, -, hcrules⟩ := mem_read hc
  have hid : s.heap.id c.addr = c.id :=
    id_of_mem hw (mem_treeObjects.mpr ⟨c, hc, List.mem_cons_self⟩)
  rw [hid] at hbase hstale ⊢
  obtain ⟨g, hg, hgid, -⟩ := ht.aligned.group c hc hbase
  have htruthy : c.id.truthy := ht.baseTidy.truthy c.id hbase
  obtain ⟨pre, post, hb, hmap⟩ := map_ite_mid (groupIds_nodup ht.baseTidy.distinct) hg
    fun g => g.accept s.heap c.addr p
  rw [← hgid, hmap]
  unfold Session.acknowledgeUpdate BaseGroup.accept
  rw [hid, if_neg (not_not.mpr htruthy)]
  by_cases hempty : p.isEmpty
  · rw [if_pos hempty, if_pos hempty, readGroup_of_mem hc, Option.getD_some]
    refine hs.updateGroup hc hb hgid.symm fun r hr => ?_
    have hafter : s.ruleIdsAfter c.addr p = c.rules.map BaseRule.id := by
      obtain ⟨-, hnone⟩ := of_decide_eq_true hempty
      rw [Session.ruleIdsAfter, hnone, Option.none_or, hcaddr, Option.elim_some, hcrules]
    exact hafter ▸ hstale (.inl hempty) g hg hgid r hr
  · rw [if_neg hempty, if_neg hempty]
    cases hrules : p.rules with
    | none =>
      have hset := @setsProps_group g (p.assign g.props)
        (treeIds_nodup_mid (hb ▸ ht.baseTidy.distinct)).1
        (Persisted.assign_id (hgid ▸ hid ▸ hkeep) rfl)
      rw [hgid] at hset
      exact hs.updateFields hc List.mem_cons_self hkeep hrules hb hgid.symm List.mem_cons_self hgid
        hset
    | some arr =>
      have hafter : s.ruleIdsAfter c.addr p = (s.heap.readRules arr).map BaseRule.id := by
        rw [Session.ruleIdsAfter, hrules]
        rfl
      refine hs.updateArray hc hb hgid.symm hrules hkeep (hfair arr hrules) (fun r hr => ?_) hmark
      refine hafter ▸ hstale (.inr ?_) g hg hgid r hr
      rw [hrules]
      exact Option.some_ne_none arr

theorem map_rules_mid {base pre post : List BaseGroup} {g : BaseGroup}
    (hb : base = pre ++ g :: post) (hn : (treeIds base).Nodup) {v : Value} (hv : v ∈ g.ids)
    (f : BaseRule → BaseRule) :
    base.map (fun k => { k with rules := k.rules.map fun r => if r.id = v then f r else r }) =
      pre ++ { g with rules := g.rules.map fun r => if r.id = v then f r else r } :: post := by
  have hdis := (treeIds_nodup_mid (hb ▸ hn)).2.2 v hv
  have hmap : ∀ {l : List BaseGroup}, (∀ k ∈ l, k ∈ pre ++ post) → l.map (fun k =>
      { k with rules := k.rules.map fun r => if r.id = v then f r else r }) = l := by
    intro l hl
    refine (List.map_congr_left fun k hk => ?_).trans (List.map_id l)
    have hrules : k.rules.map (fun r => if r.id = v then f r else r) = k.rules := by
      refine @map_ite_of_not_mem _ _ _ BaseRule.id k.rules v (fun hin => hdis ?_) f
      exact mem_treeIds.mpr ⟨k, hl k hk, List.mem_cons_of_mem _ hin⟩
    rw [hrules]
    rfl
  rw [hb, List.map_append, List.map_cons, hmap fun k hk => List.mem_append_left _ hk,
    hmap fun k hk => List.mem_append_right _ hk]

theorem Session.Inv.acknowledgeRule {s : Session} (hs : s.Inv) {c : BaseGroup}
    (hc : c ∈ s.heap.read s.root) {r : BaseRule} (hr : r ∈ c.rules) {p : Persisted}
    (hbase : s.heap.id r.addr ∈ treeIds s.base) (hkeep : s.KeepsId r.addr p)
    (hnone : p.rules = none) :
    Session.Inv { s.acknowledgeUpdate r.addr p with
      base := s.base.map fun g => { g with
        rules := g.rules.map fun r' =>
          if r'.id = s.heap.id r.addr then r'.accept s.heap r.addr p else r' } } := by
  have hw := hs.whole
  have ht := hs.tracks
  have hro : r ∈ treeObjects (s.heap.read s.root) :=
    mem_treeObjects.mpr ⟨c, hc, List.mem_cons_of_mem _ hr⟩
  have hid : s.heap.id r.addr = r.id := id_of_mem hw hro
  have hprops : s.heap.props r.addr = r.props := props_of_mem hw hro
  rw [hid] at hbase ⊢
  obtain ⟨g, hg, hgid, hmem⟩ := ht.aligned.rule c hc r hr hbase
  obtain ⟨b, hbg, hbid⟩ := List.mem_map.mp hmem
  obtain ⟨pre, post, hb⟩ := List.append_of_mem hg
  have hgn : g.ids.Nodup := (treeIds_nodup_mid (hb ▸ ht.baseTidy.distinct)).1
  have htruthy : r.id.truthy := ht.baseTidy.truthy r.id hbase
  rw [map_rules_mid hb ht.baseTidy.distinct (List.mem_cons_of_mem _ hmem)]
  unfold Session.acknowledgeUpdate
  rw [hid, if_neg (not_not.mpr htruthy)]
  by_cases hempty : p.isEmpty
  · rw [if_pos hempty]
    refine hs.updateRule hc hr hb hgid.symm hbg hbid ?_
    refine setsProps_rule hgn hmem (fun r' _ _ => ?_) rfl
    rw [BaseRule.accept, if_pos hempty]
    exact hprops
  · rw [if_neg hempty]
    refine hs.updateFields hc (List.mem_cons_of_mem _ hr) hkeep hnone hb hgid.symm
      (List.mem_cons_of_mem _ hbg) hbid ?_
    refine setsProps_rule hgn hmem (fun r' hr' hrid => ?_) ?_
    · have heq : r' = b := List.inj_on_of_nodup_map (List.nodup_cons.mp hgn).2 hr' hbg
        (hrid.trans hbid.symm)
      rw [BaseRule.accept, if_neg hempty, heq]
    · exact Persisted.assign_id (hid ▸ hkeep) hbid

/-! ## Marks -/

namespace Index

theorem clearId_subset (ix : Index) (v : Value) :
    (ix.clearId v).dirtyObjectProps ⊆ ix.dirtyObjectProps := by
  unfold clearId
  split
  · exact Finset.filter_subset ..
  · exact Finset.Subset.refl _

theorem foldl_subset {α : Type} {f : Index → α → Index}
    (hf : ∀ ix x, (f ix x).dirtyObjectProps ⊆ ix.dirtyObjectProps) (l : List α) (ix : Index) :
    (l.foldl f ix).dirtyObjectProps ⊆ ix.dirtyObjectProps := by
  induction l generalizing ix with
  | nil => exact Finset.Subset.refl _
  | cons x l ih => exact (ih (f ix x)).trans (hf ix x)

theorem clearArray_subset (h : Heap) (ix : Index) (arr : Arr) :
    (ix.clearArray h arr).dirtyObjectProps ⊆ ix.dirtyObjectProps := by
  refine foldl_subset (fun ix e => ?_) _ _
  cases e with
  | none => exact Finset.Subset.refl _
  | some a => exact ix.clearId_subset _

theorem clearObject_subset (h : Heap) (ix : Index) (a : Addr) :
    (ix.clearObject h a).dirtyObjectProps ⊆ ix.dirtyObjectProps := by
  unfold clearObject
  split
  · exact ix.clearId_subset _
  · exact (clearArray_subset h _ _).trans (ix.clearId_subset _)

theorem clearCopy_subset (ix : Index) (copy : Props) (rules : List Props) :
    (ix.clearCopy copy rules).dirtyObjectProps ⊆ ix.dirtyObjectProps := by
  refine (@foldl_subset Props _ (fun ix r => ?_) rules _).trans (ix.clearId_subset _)
  exact ix.clearId_subset (r "id")

theorem linkGroup_marks (h : Heap) (ix : Index) (a : Addr) :
    (ix.linkGroup h a).dirtyObjectProps = ix.dirtyObjectProps := by
  unfold linkGroup
  split
  · rw [indexObject_eq]
  · rw [linkRules_eq, indexObject_eq]

end Index

namespace Session

theorem forgetId_marks (s : Session) (v : Value) :
    (s.forgetId v).index.dirtyObjectProps = s.index.dirtyObjectProps := by
  unfold forgetId
  split <;> rfl

theorem acknowledgeNewItem_subset (s : Session) (arr : Arr) (item : Addr) (start : Bool) :
    (s.acknowledgeNewItem arr item start).index.dirtyObjectProps ⊆ s.index.dirtyObjectProps := by
  cases horig : s.index.originalArrays arr with
  | none =>
    unfold acknowledgeNewItem
    rw [horig]
  | some keys =>
    by_cases ht : (s.heap.id item).truthy
    · rw [acknowledgeNewItem_eq start horig ht]
      dsimp only
      rw [(checkArrayStructure_frame ..).2.2]
      refine (Index.clearCopy_subset ..).trans ?_
      rw [Index.linkGroup_marks]
    · unfold acknowledgeNewItem
      rw [horig]
      dsimp only
      rw [if_pos ht]

theorem acknowledgeDelete_subset (s : Session) (arr : Arr) (v : Value) :
    (s.acknowledgeDelete arr v).index.dirtyObjectProps ⊆ s.index.dirtyObjectProps := by
  unfold acknowledgeDelete forgetItem
  split
  · exact Finset.Subset.refl _
  · dsimp only
    rw [(checkArrayStructure_frame ..).2.2]
    split
    · exact Finset.filter_subset ..
    · exact (Index.clearCopy_subset ..).trans (Finset.filter_subset ..)

theorem acknowledgeObject_subset (s : Session) (a : Addr) :
    (s.acknowledgeObject a).index.dirtyObjectProps ⊆ s.index.dirtyObjectProps := by
  unfold acknowledgeObject link
  dsimp only
  refine (Finset.filter_subset ..).trans ?_
  rw [Index.linkGroup_marks]
  refine (Index.clearObject_subset ..).trans ?_
  split
  · exact Finset.Subset.refl _
  · rw [forgetRules_eq]
    dsimp only
    rw [forgetId_marks]

theorem replaceRules_subset (s : Session) (a : Addr) (arr : Arr) :
    (s.replaceRules a arr).index.dirtyObjectProps ⊆ s.index.dirtyObjectProps := by
  have hclear : ∀ old : Option Arr,
      (old.elim s.index (s.index.clearArray s.heap)).dirtyObjectProps ⊆
        s.index.dirtyObjectProps := by
    intro old
    cases old with
    | none => exact Finset.Subset.refl _
    | some old => exact Index.clearArray_subset ..
  refine Finset.Subset.trans ?_ (hclear (s.heap.rules a))
  unfold replaceRules
  dsimp only
  split
  · rw [forgetRules_eq]
  · exact Finset.Subset.refl _

theorem acknowledgeFields_subset (s : Session) (a : Addr) (p : Persisted) :
    (s.acknowledgeFields a p).index.dirtyObjectProps ⊆ s.index.dirtyObjectProps := by
  cases hrules : p.rules with
  | none =>
    rw [acknowledgeFields_eq hrules]
    exact (Finset.filter_subset ..).trans (Finset.filter_subset ..)
  | some arr =>
    rw [acknowledgeFields_eq' hrules]
    refine (Finset.filter_subset ..).trans ((Finset.filter_subset ..).trans ?_)
    refine (Index.clearArray_subset ..).trans ?_
    rw [linkRules_eq]
    exact s.replaceRules_subset a arr

theorem acknowledgeUpdate_subset (s : Session) (a : Addr) (p : Persisted) :
    (s.acknowledgeUpdate a p).index.dirtyObjectProps ⊆ s.index.dirtyObjectProps := by
  unfold acknowledgeUpdate
  split
  · exact Finset.Subset.refl _
  · split
    · exact s.acknowledgeObject_subset a
    · exact s.acknowledgeFields_subset a p

end Session

/-- Only primitive fields are marked. -/
def State.MarksFields (s : State) : Prop := ∀ v, (v, "rules") ∉ s.index.dirtyObjectProps

theorem State.MarksFields.setField {s : State} (hs : s.MarksFields) (a : Addr) (prop : Field)
    (v : Value) : (s.setField a prop v).MarksFields := by
  intro w
  have hne : (w, "rules") ≠ (s.setField a prop v |>.heap.id a, prop.1) := by
    intro heq
    exact prop.2 (Prod.mk.inj heq).2.symm
  have hindex : (s.setField a prop v).index =
      s.index.checkObjectField (s.setField a prop v).heap a prop := rfl
  rw [hindex]
  unfold Index.checkObjectField
  split
  · exact hs w
  · split
    · exact hs w
    · split
      · exact fun h => (Finset.mem_insert.mp h).elim hne (hs w)
      · exact fun h => hs w (Finset.mem_of_mem_erase h)

theorem State.MarksFields.onArray {s : State} (hs : s.MarksFields) (arr : Arr) (op : ArrayOp) :
    (s.onArray arr op).MarksFields := by
  intro w
  have hindex : (s.onArray arr op).index =
      s.index.checkArrayStructure (s.onArray arr op).heap arr := rfl
  rw [hindex, (checkArrayStructure_frame ..).2.2]
  exact hs w

theorem Index.init_marks (h : Heap) (root : Arr) : (Index.init h root).dirtyObjectProps = ∅ := by
  refine Finset.subset_empty.mp ?_
  refine Index.foldl_subset (fun ix e => ?_) _ _
  cases e with
  | none => exact Finset.Subset.refl _
  | some a => exact (Index.linkGroup_marks h ix a).subset

theorem State.MarksFields.edit {s : State} (hs : s.MarksFields) (e : Edit) :
    (s.step e).MarksFields := by
  cases e with
  | setGroup i prop v =>
    unfold State.step
    dsimp only
    split
    · exact hs
    · exact hs.setField _ prop v
  | setRule i j prop v =>
    unfold State.step
    dsimp only
    split
    · exact hs
    · exact hs.setField _ prop v
  | onGroups op => exact hs.onArray s.root op
  | onRules i op =>
    unfold State.step
    dsimp only
    split
    · exact hs
    · exact hs.onArray _ op
  | reset groups =>
    intro w hw
    have hindex : (s.step (.reset groups)).index =
        Index.init (s.step (.reset groups)).heap s.root := rfl
    rw [hindex, Index.init_marks] at hw
    exact Finset.notMem_empty _ hw

/-- A step marks primitive fields only. -/
theorem State.MarksFields.step {s : Session} (hs : s.MarksFields) (op : Op) :
    (s.step op).MarksFields := by
  cases op with
  | edit e =>
    have hstate : (s.edit e).toState = s.toState.step e := by cases e <;> rfl
    exact hstate ▸ State.MarksFields.edit hs e
  | newGroup item start =>
    exact fun v h => hs v (s.acknowledgeNewItem_subset s.root item start h)
  | newRule i item start =>
    unfold Session.step
    dsimp only
    split
    · exact hs
    · exact fun v h => hs v (s.acknowledgeNewItem_subset _ item start h)
  | deleteGroup v => exact fun w h => hs w (s.acknowledgeDelete_subset s.root v h)
  | deleteRule i v =>
    unfold Session.step
    dsimp only
    split
    · exact hs
    · exact fun w h => hs w (s.acknowledgeDelete_subset _ v h)
  | updateGroup i p =>
    unfold Session.step
    dsimp only
    split
    · exact hs
    · exact fun w h => hs w (s.acknowledgeUpdate_subset _ p h)
  | updateRule i j p =>
    unfold Session.step
    dsimp only
    split
    · exact hs
    · exact fun w h => hs w (s.acknowledgeUpdate_subset _ p h)

/-! ## Runs -/

/-- A fair step keeps the invariant. -/
theorem Session.Inv.step {s : Session} (hs : s.Inv) (hmark : s.MarksFields) {op : Op}
    (hfair : s.Fair op) : (s.step op).Inv := by
  have hw := hs.whole
  cases op with
  | edit e => exact hs.edit hfair
  | newGroup item start => exact hs.newGroup start hfair.1 hfair.2
  | newRule i item start =>
    unfold Session.step
    dsimp only
    split
    · exact hs
    · next arr harr =>
      obtain ⟨c, hc, rfl⟩ := group_of_rulesOf hw harr
      obtain ⟨hmem, hout⟩ := hfair c.arr harr
      exact hs.newRule hc start hmem hout
  | deleteGroup v => exact hs.deleteGroup hfair.1 hfair.2
  | deleteRule i v =>
    unfold Session.step
    dsimp only
    split
    · exact hs
    · next arr harr =>
      obtain ⟨c, hc, rfl⟩ := group_of_rulesOf hw harr
      obtain ⟨hdata, halone⟩ := hfair c.arr harr
      exact hs.deleteRule hc hdata halone
  | updateGroup i p =>
    unfold Session.step
    dsimp only
    split
    · exact hs
    · next a ha =>
      obtain ⟨c, hc, rfl⟩ := group_of_element hw (element_mem ha)
      obtain ⟨hbase, hkeep, harray, hstale⟩ := hfair c.addr ha
      exact hs.acknowledgeGroup hmark hc hbase hkeep harray hstale
  | updateRule i j p =>
    unfold Session.step
    dsimp only
    split
    · exact hs
    · next a ha =>
      obtain ⟨arr, harr, hmem⟩ := Option.bind_eq_some_iff.mp ha
      obtain ⟨c, hc, rfl⟩ := group_of_rulesOf hw harr
      obtain ⟨r, hr, rfl⟩ := rule_of_element hw hc (element_mem hmem)
      obtain ⟨hbase, hkeep, hnone⟩ := hfair r.addr ha
      exact hs.acknowledgeRule hc hr hbase hkeep hnone

/-- In a run of fair edits and acknowledgements the reported changes are exact. -/
theorem run_changes_exact {h : Heap} {root : Arr} (hp : Session.Proper h root) {ops : List Op}
    (hfair : Guarded Session.Fair Session.step (Session.new h root) ops) :
    ((Session.new h root).run ops).Exact := by
  have hstart : (Session.new h root).Inv ∧ (Session.new h root).MarksFields := by
    refine ⟨Session.Inv.new hp, fun v hv => ?_⟩
    have hindex : (Session.new h root).index = Index.init h root := rfl
    rw [hindex, Index.init_marks] at hv
    exact Finset.notMem_empty _ hv
  have hrun := hfair.inv (I := fun s => s.Inv ∧ s.MarksFields)
    (fun s op hs hf => ⟨hs.1.step hs.2 hf, hs.2.step op⟩) hstart
  exact hrun.1.tracks.changes_exact hrun.1.whole

/-- Two groups, the first with a rule, and a rule that is not in the data; `0` is the list of the
page. -/
def treeHeap : Heap where
  props a p :=
    if p = "id" then .str (match a with | 0 => "g1" | 1 => "g2" | 2 => "r1" | _ => "r2")
    else .undefined
  rules a := if a < 2 then some (a + 1) else none
  arrays arr := match arr with | 0 => [some 0, some 1] | 1 => [some 2] | _ => []

theorem treeHeap_proper : Session.Proper treeHeap 0 := by
  refine ⟨?_, by decide, by decide, by decide⟩
  intro e he
  have hmem : e = some 0 ∨ e = some 1 := by simpa [treeHeap] using he
  rcases hmem with rfl | rfl
  · refine ⟨0, 1, rfl, rfl, fun e' he' => ?_⟩
    cases List.mem_singleton.mp he'
    exact ⟨2, rfl, rfl⟩
  · exact ⟨1, 2, rfl, rfl, fun e' he' => absurd he' List.not_mem_nil⟩

/-- A rule is added and saved, another one is removed and the removal saved, then a field is changed
and saved. -/
theorem run_changes_exact_tree :
    ((Session.new treeHeap 0).run
      [.edit (.onRules 0 (.push [3])), .newRule 0 3 false,
        .edit (.onRules 0 .shift), .deleteRule 0 (.str "r1"),
        .edit (.setGroup 1 nameField (.str "z")),
        .updateGroup 1 ⟨[(nameField, .str "z")], none⟩]).Exact := by
  refine run_changes_exact treeHeap_proper ⟨?_, ?_, ?_, ?_, ?_, ?_, trivial⟩
  · intro arr harr
    refine ⟨trivial, fun x hx => ?_, by decide, fun x hx => ?_⟩
    · cases List.mem_singleton.mp hx
      rfl
    · cases List.mem_singleton.mp hx
      exact ⟨by decide, by unfold Session.Known; decide⟩
  · intro arr harr
    cases harr
    exact ⟨by decide, by decide⟩
  · intro arr harr
    exact ⟨trivial, fun x hx => absurd hx List.not_mem_nil, by decide,
      fun x hx => absurd hx List.not_mem_nil⟩
  · intro arr harr
    cases harr
    exact ⟨by decide, by decide⟩
  · intro a _ hname
    exact absurd hname (by decide)
  · intro a ha
    cases ha
    refine ⟨by decide, fun f hf hname => ?_, fun arr harr => ?_, fun h => ?_⟩
    · cases List.mem_singleton.mp hf
      exact absurd hname (by decide)
    · cases harr
    · exact absurd h (by decide)

/-- A group is removed and the removal is saved, and then another change shows its rule as
deleted. -/
theorem deleted_group_leaves_rule :
    Session.Proper treeHeap 0 ∧
      ¬ ((Session.new treeHeap 0).run [.edit (.onGroups .shift), .deleteGroup (.str "g1"),
        .edit (.setGroup 0 nameField (.str "z"))]).Exact := by
  refine ⟨treeHeap_proper, fun h => ?_⟩
  have hsome : (((Session.new treeHeap 0).run [.edit (.onGroups .shift),
      .deleteGroup (.str "g1"), .edit (.setGroup 0 nameField (.str "z"))]).changes.deleted
        (.str "r1")).isSome := by decide
  obtain ⟨ps, hps⟩ := Option.isSome_iff_exists.mp hsome
  obtain ⟨⟨b, hb, hid, -⟩, -⟩ := (h.deleted _ ps).mp hps
  have hmem : Value.str "r1" ∈ treeIds ((Session.new treeHeap 0).run [.edit (.onGroups .shift),
      .deleteGroup (.str "g1"), .edit (.setGroup 0 nameField (.str "z"))]).base :=
    hid ▸ object_mem_treeIds hb
  exact absurd hmem (by decide)

end MagiTrickle.ChangeTracker
