import MagiTrickle.Frontend.Tracks

/-!
# Replacing one group

An edit of a rule list and every acknowledgement below the list of groups changes
one group of the data, one group of the baseline, or both. `Change` says what such
a step has to do to the index, and `Tracks.replace` that nothing else is needed.
-/

namespace MagiTrickle.ChangeTracker

/-- The id belongs to other groups of the data or the baseline. -/
def Foreign (cs gs : List BaseGroup) (nested : Value → List Props) (v : Value) : Prop :=
  v ∈ treeIds cs ∨ v ∈ treeIds gs ∨ ∃ k ∈ gs, v ∈ nestedIds nested k.id

/-- One group of the data and its group of the baseline are replaced; `cs` and `gs` are the
other groups. -/
structure Change (root : Arr) (cs gs : List BaseGroup) (c g c' g' : BaseGroup) (ix ix' : Index)
    (nested nested' : Value → List Props) : Prop where
  dataId : c'.id = g.id
  baseId : g'.id = g.id
  arr : c'.arr = g'.arr
  newArr : c'.arr = c.arr ∨
    (c'.arr ≠ root ∧ ix.originalArrays c'.arr = none ∧ c'.arr ∉ cs.map BaseGroup.arr)
  distinct : c'.ids.Nodup
  truthy : ∀ v ∈ c'.ids, v.truthy
  notForeign : ∀ v ∈ c'.ids, ¬ Foreign cs gs nested v
  baseDistinct : g'.ids.Nodup
  baseIds : ∀ v ∈ g'.ids, v ∈ c'.ids ∨ v ∈ g.ids
  copies : ∀ b ∈ g'.objects, ix'.originalObjects b.id = some b.props
  forgotten : ∀ v ∈ g.ids, v ∉ g'.ids → ix'.originalObjects v = none
  kept : ∀ v, v ∉ g.ids → v ∉ g'.ids → ix'.originalObjects v = ix.originalObjects v
  ruleIds : ix'.originalArrays g'.arr = some (g'.rules.map fun r => .value r.id)
  keptArrays : ∀ arr, arr ≠ g'.arr → ix'.originalArrays arr = ix.originalArrays arr
  fields : ∀ o ∈ c'.objects, ∀ b ∈ g'.objects, o.id = b.id → ∀ p,
    (b.id, p) ∈ ix'.dirtyObjectProps ↔ o.props p ≠ b.props p
  otherFields : ∀ v ∈ treeIds gs, ∀ p,
    (v, p) ∈ ix'.dirtyObjectProps ↔ (v, p) ∈ ix.dirtyObjectProps
  rules : c'.arr ∉ ix'.dirtyArrays → c'.rules.map BaseRule.id = g'.rules.map BaseRule.id
  otherArrays : ∀ arr, arr ≠ c.arr → arr ≠ c'.arr → arr ∈ ix.dirtyArrays → arr ∈ ix'.dirtyArrays
  nestedOwn : ∀ v ∈ nestedIds nested' g.id, v ∈ g'.ids ∨ v ∈ treeIds gs →
    v ∈ g'.rules.map BaseRule.id
  leaf : ∀ r ∈ g'.rules, nested' r.id = []
  otherNested : ∀ v ∈ treeIds gs, nested' v = nested v
  fresh : ∀ v, v ∈ c'.ids ∨ v ∈ treeIds cs → v ∉ g'.ids → v ∉ treeIds gs →
    v ∉ nestedIds nested' g.id

namespace Tracks

variable {root : Arr} {cpre cpost pre post : List BaseGroup} {c g c' g' : BaseGroup}
  {ix ix' : Index} {nested nested' : Value → List Props}

theorem not_foreign (ht : Tracks root (cpre ++ c :: cpost) (pre ++ g :: post) ix nested)
    (hid : c.id = g.id) {v : Value} (hv : v ∈ c.ids ∨ v ∈ g.ids) :
    ¬ Foreign (cpre ++ cpost) (pre ++ post) nested v := by
  have hc : c ∈ cpre ++ c :: cpost := mem_mid.mpr (.inl rfl)
  have hg : g ∈ pre ++ g :: post := mem_mid.mpr (.inl rfl)
  obtain ⟨-, -, hcdis⟩ := treeIds_nodup_mid ht.curTidy.distinct
  obtain ⟨-, -, hgdis⟩ := treeIds_nodup_mid ht.baseTidy.distinct
  -- an id of the baseline among the ids of the data's group is one of the baseline's group
  have hcg : ∀ v ∈ c.ids, v ∈ treeIds (pre ++ g :: post) → v ∈ g.ids := by
    intro v hv hmem
    rcases mem_ids.mp hv with rfl | ⟨r, hr, rfl⟩
    · exact hid ▸ id_mem_ids
    · exact List.mem_cons_of_mem _ (ht.rule_mem hc hg hid hr hmem)
  have hbase : v ∉ treeIds (pre ++ post) := by
    intro hmem
    rcases hv with hv | hv
    · exact hgdis v (hcg v hv (mem_treeIds_mid.mpr (.inr hmem))) hmem
    · exact hgdis v hv hmem
  rintro (hcur | hmem | ⟨k, hk, hnest⟩)
  · rcases hv with hv | hv
    · exact hcdis v hv hcur
    · obtain ⟨c₂, hc₂, hv₂⟩ := mem_treeIds.mp hcur
      have hc₂' : c₂ ∈ cpre ++ c :: cpost := mem_mid.mpr (.inr hc₂)
      have hmem : v ∈ treeIds (pre ++ g :: post) := mem_treeIds.mpr ⟨g, hg, hv⟩
      have hsame : g.id = c₂.id := by
        rcases mem_ids.mp hv₂ with rfl | ⟨r, hr, rfl⟩
        · obtain ⟨g₂, hg₂, hid₂, -⟩ := ht.aligned.group c₂ hc₂' hmem
          rw [eq_of_mem_ids ht.baseTidy.distinct hg hg₂ hv (hid₂ ▸ id_mem_ids)]
          exact hid₂
        · obtain ⟨g₂, hg₂, hid₂, hrule⟩ := ht.aligned.rule c₂ hc₂' r hr hmem
          rw [eq_of_mem_ids ht.baseTidy.distinct hg hg₂ hv (List.mem_cons_of_mem _ hrule)]
          exact hid₂
      exact hcdis c.id id_mem_ids (mem_treeIds.mpr ⟨c₂, hc₂, hid.trans hsame ▸ id_mem_ids⟩)
  · exact hbase hmem
  · have hk' : k ∈ pre ++ g :: post := mem_mid.mpr (.inr hk)
    by_cases hin : v ∈ treeIds (pre ++ g :: post)
    · have hrule := ht.nests.own k hk' v hnest hin
      exact hbase (mem_treeIds.mpr ⟨k, hk, List.mem_cons_of_mem _ hrule⟩)
    · rcases hv with hv | hv
      · exact ht.nests.fresh v (mem_treeIds_mid.mpr (.inl hv)) hin k hk' hnest
      · exact hin (mem_treeIds_mid.mpr (.inl hv))

end Tracks

theorem arrays_nodup_replace {root : Arr} {pre post : List BaseGroup} {g g' : BaseGroup}
    (h : (root :: (pre ++ g :: post).map BaseGroup.arr).Nodup)
    (hnew : g'.arr = g.arr ∨ (g'.arr ≠ root ∧ g'.arr ∉ (pre ++ post).map BaseGroup.arr)) :
    (root :: (pre ++ g' :: post).map BaseGroup.arr).Nodup := by
  rw [List.map_append, List.map_cons, List.nodup_cons, List.nodup_middle, List.nodup_cons,
    ← List.map_append] at h ⊢
  rcases hnew with heq | ⟨hroot, hout⟩
  · rwa [heq]
  · refine ⟨fun hmem => ?_, hout, h.2.2⟩
    rw [List.mem_append, List.mem_cons] at hmem
    rcases hmem with hmem | rfl | hmem
    · exact h.1 (List.mem_append_left _ hmem)
    · exact hroot rfl
    · exact h.1 (List.mem_append_right _ (List.mem_cons_of_mem _ hmem))

theorem Tidy.arr_ne_root {root : Arr} {l : List BaseGroup} (h : Tidy root l) {c : BaseGroup}
    (hc : c ∈ l) : c.arr ≠ root := by
  intro heq
  exact (List.nodup_cons.mp h.arrays).1 (List.mem_map.mpr ⟨c, hc, heq⟩)

theorem Tidy.arr_ne {root : Arr} {pre post : List BaseGroup} {g : BaseGroup}
    (h : Tidy root (pre ++ g :: post)) : g.arr ≠ root ∧ ∀ k ∈ pre ++ post, k.arr ≠ g.arr := by
  have harrays := h.arrays
  rw [List.map_append, List.map_cons, List.nodup_cons, List.nodup_middle, List.nodup_cons,
    ← List.map_append] at harrays
  refine ⟨fun heq => harrays.1 ?_, fun k hk heq => harrays.2.1 (heq ▸ List.mem_map_of_mem hk)⟩
  exact heq ▸ List.mem_append_right _ List.mem_cons_self

section Replace

variable {root : Arr} {cpre cpost pre post : List BaseGroup} {c g c' g' : BaseGroup}
  {ix ix' : Index} {nested nested' : Value → List Props}

theorem Change.base_not_foreign
    (hch : Change root (cpre ++ cpost) (pre ++ post) c g c' g' ix ix' nested nested')
    (ht : Tracks root (cpre ++ c :: cpost) (pre ++ g :: post) ix nested) (hid : c.id = g.id)
    {v : Value} (hv : v ∈ g'.ids) : ¬ Foreign (cpre ++ cpost) (pre ++ post) nested v :=
  (hch.baseIds v hv).elim (hch.notForeign v) fun h => ht.not_foreign hid (.inr h)

/-- An id of the other groups of the data is in the new baseline if it is one of the other groups
of the baseline. -/
theorem Change.mem_base
    (hch : Change root (cpre ++ cpost) (pre ++ post) c g c' g' ix ix' nested nested')
    (ht : Tracks root (cpre ++ c :: cpost) (pre ++ g :: post) ix nested) (hid : c.id = g.id)
    {v : Value} (hv : v ∈ treeIds (cpre ++ cpost)) :
    (v ∈ treeIds (pre ++ g' :: post) ↔ v ∈ treeIds (pre ++ post)) ∧
      (v ∈ treeIds (pre ++ g :: post) ↔ v ∈ treeIds (pre ++ post)) := by
  rw [mem_treeIds_mid, mem_treeIds_mid]
  refine ⟨or_iff_right fun h => ?_, or_iff_right fun h => ?_⟩
  · exact hch.base_not_foreign ht hid h (.inl hv)
  · exact ht.not_foreign hid (.inr h) (.inl hv)

theorem Change.tidy
    (hch : Change root (cpre ++ cpost) (pre ++ post) c g c' g' ix ix' nested nested')
    (ht : Tracks root (cpre ++ c :: cpost) (pre ++ g :: post) ix nested) (hid : c.id = g.id) :
    Tidy root (cpre ++ c' :: cpost) ∧ Tidy root (pre ++ g' :: post) := by
  have hc : c ∈ cpre ++ c :: cpost := mem_mid.mpr (.inl rfl)
  have hg : g ∈ pre ++ g :: post := mem_mid.mpr (.inl rfl)
  refine ⟨⟨?_, ?_, ?_⟩, ?_, ?_, ?_⟩
  · exact treeIds_nodup_replace ht.curTidy.distinct hch.distinct
      fun v hv hmem => hch.notForeign v hv (.inl hmem)
  · intro v hv
    rcases mem_treeIds_mid.mp hv with hv | hv
    · exact hch.truthy v hv
    · exact ht.curTidy.truthy v (mem_treeIds_mid.mpr (.inr hv))
  · exact arrays_nodup_replace ht.curTidy.arrays
      (hch.newArr.imp_right fun h => ⟨h.1, h.2.2⟩)
  · exact treeIds_nodup_replace ht.baseTidy.distinct hch.baseDistinct
      fun v hv hmem => hch.base_not_foreign ht hid hv (.inr (.inl hmem))
  · intro v hv
    rcases mem_treeIds_mid.mp hv with hv | hv
    · rcases hch.baseIds v hv with hv | hv
      · exact hch.truthy v hv
      · exact ht.baseTidy.truthy v (mem_treeIds_mid.mpr (.inl hv))
    · exact ht.baseTidy.truthy v (mem_treeIds_mid.mpr (.inr hv))
  · refine arrays_nodup_replace ht.baseTidy.arrays ?_
    rw [← hch.arr]
    refine hch.newArr.imp (fun heq => heq.trans (ht.arr_eq hc hg hid)) ?_
    rintro ⟨hroot, hnone, -⟩
    refine ⟨hroot, fun hmem => ?_⟩
    obtain ⟨k, hk, heq⟩ := List.mem_map.mp hmem
    rw [← heq, ht.indexed.ruleIds k (mem_mid.mpr (.inr hk))] at hnone
    cases hnone

theorem Change.aligned
    (hch : Change root (cpre ++ cpost) (pre ++ post) c g c' g' ix ix' nested nested')
    (ht : Tracks root (cpre ++ c :: cpost) (pre ++ g :: post) ix nested) (hid : c.id = g.id) :
    Aligned (cpre ++ c' :: cpost) (pre ++ g' :: post) := by
  have hg' : g' ∈ pre ++ g' :: post := mem_mid.mpr (.inl rfl)
  -- the group of the baseline that another group of the data stands for is another one, too
  have hother : ∀ {c₂ k : BaseGroup}, c₂ ∈ cpre ++ cpost → k ∈ pre ++ g :: post → k.id = c₂.id →
      k ∈ pre ++ post := by
    intro c₂ k hc₂ hk hkid
    refine (mem_mid.mp hk).resolve_left ?_
    rintro rfl
    exact ht.not_foreign hid (.inr id_mem_ids) (.inl (hkid ▸ id_mem_treeIds hc₂))
  refine ⟨fun c₂ hc₂ hmem => ?_, fun c₂ hc₂ r hr hmem => ?_⟩
  · rcases mem_mid.mp hc₂ with rfl | hc₂
    · exact ⟨g', hg', hch.baseId.trans hch.dataId.symm, hch.arr.symm⟩
    · obtain ⟨hnew, hold⟩ := hch.mem_base ht hid (id_mem_treeIds hc₂)
      obtain ⟨k, hk, hkid, harr⟩ :=
        ht.aligned.group c₂ (mem_mid.mpr (.inr hc₂)) (hold.mpr (hnew.mp hmem))
      exact ⟨k, mem_mid.mpr (.inr (hother hc₂ hk hkid)), hkid, harr⟩
  · rcases mem_mid.mp hc₂ with rfl | hc₂
    · refine ⟨g', hg', hch.baseId.trans hch.dataId.symm, ?_⟩
      rcases mem_treeIds_mid.mp hmem with hmem | hmem
      · refine (List.mem_cons.mp hmem).resolve_left fun heq => ?_
        have hnodup := hch.distinct
        rw [BaseGroup.ids, List.nodup_cons, hch.dataId, ← hch.baseId, ← heq] at hnodup
        exact hnodup.1 (List.mem_map_of_mem hr)
      · exact absurd (.inr (.inl hmem)) (hch.notForeign _ (rule_mem_ids hr))
    · obtain ⟨hnew, hold⟩ := hch.mem_base ht hid (rule_mem_treeIds hc₂ hr)
      obtain ⟨k, hk, hkid, hrule⟩ :=
        ht.aligned.rule c₂ (mem_mid.mpr (.inr hc₂)) r hr (hold.mpr (hnew.mp hmem))
      exact ⟨k, mem_mid.mpr (.inr (hother hc₂ hk hkid)), hkid, hrule⟩

theorem map_mid_congr {α β : Type} {f : α → β} {pre post : List α} {x y : α} (h : f x = f y) :
    (pre ++ x :: post).map f = (pre ++ y :: post).map f := by
  rw [List.map_append, List.map_append, List.map_cons, List.map_cons, h]

theorem Change.indexed
    (hch : Change root (cpre ++ cpost) (pre ++ post) c g c' g' ix ix' nested nested')
    (ht : Tracks root (cpre ++ c :: cpost) (pre ++ g :: post) ix nested) (hid : c.id = g.id) :
    Indexed root (cpre ++ c' :: cpost) (pre ++ g' :: post) ix' := by
  obtain ⟨hcur, hbase⟩ := hch.tidy ht hid
  have hkept : ∀ v ∈ treeIds (pre ++ post), ix'.originalObjects v = ix.originalObjects v := by
    intro v hv
    refine hch.kept v (fun h => ?_) fun h => ?_
    · exact ht.not_foreign hid (.inr h) (.inr (.inl hv))
    · exact hch.base_not_foreign ht hid h (.inr (.inl hv))
  refine ⟨fun b hb => ?_, fun v hv => ?_, ?_, fun k hk => ?_, fun c₂ hc₂ hout => ?_⟩
  · rcases mem_treeObjects_mid.mp hb with hb | hb
    · exact hch.copies b hb
    · rw [hkept _ (object_mem_treeIds hb)]
      exact ht.indexed.copies b (mem_treeObjects_mid.mpr (.inr hb))
  · obtain ⟨hg', hout⟩ := not_or.mp fun h => hv (mem_treeIds_mid.mpr h)
    by_cases hg : v ∈ g.ids
    · exact hch.forgotten v hg hg'
    · rw [hch.kept v hg hg']
      exact ht.indexed.noCopy v fun h => (mem_treeIds_mid.mp h).elim hg hout
  · rw [hch.keptArrays root (Ne.symm hbase.arr_ne.1), ht.indexed.rootIds]
    exact congrArg some (map_mid_congr (congrArg Key.value hch.baseId.symm))
  · rcases mem_mid.mp hk with rfl | hk
    · exact hch.ruleIds
    · rw [hch.keptArrays k.arr (hbase.arr_ne.2 k hk)]
      exact ht.indexed.ruleIds k (mem_mid.mpr (.inr hk))
  · rcases mem_mid.mp hc₂ with rfl | hc₂
    · refine absurd (mem_treeIds_mid.mpr (.inl ?_)) hout
      rw [hch.dataId, ← hch.baseId]
      exact id_mem_ids
    · obtain ⟨hnew, hold⟩ := hch.mem_base ht hid (id_mem_treeIds hc₂)
      rw [hch.keptArrays c₂.arr (hch.arr ▸ hcur.arr_ne.2 c₂ hc₂)]
      exact ht.indexed.untracked c₂ (mem_mid.mpr (.inr hc₂)) fun h => hout (hnew.mpr (hold.mp h))

theorem Change.marked
    (hch : Change root (cpre ++ cpost) (pre ++ post) c g c' g' ix ix' nested nested')
    (ht : Tracks root (cpre ++ c :: cpost) (pre ++ g :: post) ix nested) (hid : c.id = g.id) :
    Marked root (cpre ++ c' :: cpost) (pre ++ g' :: post) ix' := by
  obtain ⟨hcur, -⟩ := hch.tidy ht hid
  refine ⟨fun o ho b hb hob p => ?_, fun hroot => ?_, fun c₂ hc₂ k hk hck hclean => ?_⟩
  · rcases mem_treeObjects_mid.mp ho with ho | ho <;> rcases mem_treeObjects_mid.mp hb with hb | hb
    · exact hch.fields o ho b hb hob p
    · refine absurd (.inr (.inl ?_)) (hch.notForeign o.id (object_mem_ids ho))
      exact hob ▸ object_mem_treeIds hb
    · refine absurd (.inl ?_) (hch.base_not_foreign ht hid (object_mem_ids hb))
      exact hob ▸ object_mem_treeIds ho
    · rw [hch.otherFields b.id (object_mem_treeIds hb)]
      exact ht.marked.fields o (mem_treeObjects_mid.mpr (.inr ho)) b
        (mem_treeObjects_mid.mpr (.inr hb)) hob p
  · have hold : root ∉ ix.dirtyArrays := fun h => hroot
      (hch.otherArrays root (Ne.symm ht.curTidy.arr_ne.1) (Ne.symm hcur.arr_ne.1) h)
    rw [map_mid_congr (hch.dataId.trans hid.symm), ht.marked.groups hold]
    exact map_mid_congr hch.baseId.symm
  · rcases mem_mid.mp hc₂ with rfl | hc₂ <;> rcases mem_mid.mp hk with rfl | hk
    · exact hch.rules hclean
    · refine absurd (.inr (.inl ?_)) (ht.not_foreign hid (.inr id_mem_ids))
      rw [← hch.dataId, hck]
      exact id_mem_treeIds hk
    · refine absurd (.inl ?_) (ht.not_foreign hid (.inr id_mem_ids))
      rw [← hch.baseId, ← hck]
      exact id_mem_treeIds hc₂
    · refine ht.marked.rules c₂ (mem_mid.mpr (.inr hc₂)) k (mem_mid.mpr (.inr hk)) hck fun h => ?_
      exact hclean (hch.otherArrays c₂.arr (ht.curTidy.arr_ne.2 c₂ hc₂) (hcur.arr_ne.2 c₂ hc₂) h)

theorem Change.nests
    (hch : Change root (cpre ++ cpost) (pre ++ post) c g c' g' ix ix' nested nested')
    (ht : Tracks root (cpre ++ c :: cpost) (pre ++ g :: post) ix nested) (hid : c.id = g.id) :
    Nested (cpre ++ c' :: cpost) (pre ++ g' :: post) nested' := by
  have hsame : ∀ k ∈ pre ++ post, nestedIds nested' k.id = nestedIds nested k.id := by
    intro k hk
    rw [nestedIds, nestedIds, hch.otherNested k.id (id_mem_treeIds hk)]
  refine ⟨fun k hk v hv hmem => ?_, fun k hk r hr => ?_, fun v hv hout k hk => ?_⟩
  · rw [mem_treeIds_mid] at hmem
    rcases mem_mid.mp hk with rfl | hk
    · exact hch.nestedOwn v (hch.baseId ▸ hv) hmem
    · rw [hsame k hk] at hv
      rcases hmem with hmem | hmem
      · exact absurd (.inr (.inr ⟨k, hk, hv⟩)) (hch.base_not_foreign ht hid hmem)
      · exact ht.nests.own k (mem_mid.mpr (.inr hk)) v hv (mem_treeIds_mid.mpr (.inr hmem))
  · rcases mem_mid.mp hk with rfl | hk
    · exact hch.leaf r hr
    · rw [hch.otherNested r.id (rule_mem_treeIds hk hr)]
      exact ht.nests.leaf k (mem_mid.mpr (.inr hk)) r hr
  · obtain ⟨hg', hgs⟩ := not_or.mp fun h => hout (mem_treeIds_mid.mpr h)
    rcases mem_mid.mp hk with rfl | hk
    · rw [hch.baseId]
      exact hch.fresh v (mem_treeIds_mid.mp hv) hg' hgs
    · rw [hsame k hk]
      rcases mem_treeIds_mid.mp hv with hv | hv
      · exact fun h => hch.notForeign v hv (.inr (.inr ⟨k, hk, h⟩))
      · obtain ⟨-, hold⟩ := hch.mem_base ht hid hv
        exact ht.nests.fresh v (mem_treeIds_mid.mpr (.inr hv)) (fun h => hgs (hold.mp h)) k
          (mem_mid.mpr (.inr hk))

/-- A change keeps the relation. -/
theorem Tracks.replace (ht : Tracks root (cpre ++ c :: cpost) (pre ++ g :: post) ix nested)
    (hid : c.id = g.id)
    (hch : Change root (cpre ++ cpost) (pre ++ post) c g c' g' ix ix' nested nested') :
    Tracks root (cpre ++ c' :: cpost) (pre ++ g' :: post) ix' nested' :=
  ⟨(hch.tidy ht hid).1, (hch.tidy ht hid).2, hch.aligned ht hid, hch.indexed ht hid,
    hch.marked ht hid, hch.nests ht hid⟩

/-! ## Fields of one object -/

/-- The object with an id gets other fields; the ids stay. -/
structure SetsProps (c c' : BaseGroup) (v : Value) (ps : Props) : Prop where
  ids : c'.ids = c.ids
  arr : c'.arr = c.arr
  set : ∀ o ∈ c'.objects, o.id = v → o.props = ps
  keep : ∀ o ∈ c'.objects, o.id ≠ v → ∃ o' ∈ c.objects, o'.id = o.id ∧ o'.props = o.props

theorem SetsProps.id_eq {v : Value} {ps : Props} (h : SetsProps c c' v ps) : c'.id = c.id :=
  (List.cons.inj h.ids).1

theorem SetsProps.rules_eq {v : Value} {ps : Props} (h : SetsProps c c' v ps) :
    c'.rules.map BaseRule.id = c.rules.map BaseRule.id :=
  (List.cons.inj h.ids).2

theorem Tracks.setObject (ht : Tracks root (cpre ++ c :: cpost) (pre ++ g :: post) ix nested)
    (hid : c.id = g.id) {v : Value} {ps copy : Props} (hc : SetsProps c c' v ps)
    (hg : SetsProps g g' v copy) (hv : v ∈ g.ids)
    (hobjects : ix'.originalObjects = Function.update ix.originalObjects v (some copy))
    (harrays : ix'.originalArrays = ix.originalArrays)
    (hmarks : ∀ w p, (w, p) ∈ ix'.dirtyObjectProps ↔
      if w = v then ps p ≠ copy p else (w, p) ∈ ix.dirtyObjectProps)
    (hdirty : ix'.dirtyArrays = ix.dirtyArrays) (hnested : ∀ w ∈ treeIds (pre ++ g :: post),
      nested' w = nested w) :
    Tracks root (cpre ++ c' :: cpost) (pre ++ g' :: post) ix' nested' := by
  have hmc : c ∈ cpre ++ c :: cpost := mem_mid.mpr (.inl rfl)
  have hmg : g ∈ pre ++ g :: post := mem_mid.mpr (.inl rfl)
  have harr : c.arr = g.arr := ht.arr_eq hmc hmg hid
  have hgids : ∀ {w}, w ∈ g.ids → w ∈ treeIds (pre ++ g :: post) :=
    fun h => mem_treeIds_mid.mpr (.inl h)
  have hout : ∀ w ∈ treeIds (pre ++ post), w ≠ v := by
    rintro w hw rfl
    exact (treeIds_nodup_mid ht.baseTidy.distinct).2.2 w hv hw
  refine ht.replace hid ⟨hc.id_eq.trans hid, hg.id_eq, ?_, .inl hc.arr, ?_, ?_, ?_, ?_, ?_, ?_, ?_,
    ?_, ?_, ?_, ?_, ?_, ?_, ?_, ?_, ?_, ?_, ?_⟩
  · rw [hc.arr, hg.arr, harr]
  · exact hc.ids ▸ (treeIds_nodup_mid ht.curTidy.distinct).1
  · exact fun w hw => ht.curTidy.truthy w (mem_treeIds_mid.mpr (.inl (hc.ids ▸ hw)))
  · exact fun w hw => ht.not_foreign hid (.inl (hc.ids ▸ hw))
  · exact hg.ids ▸ (treeIds_nodup_mid ht.baseTidy.distinct).1
  · exact fun w hw => .inr (hg.ids ▸ hw)
  · intro b hb
    rw [hobjects, Function.update_apply]
    split
    · next heq => rw [hg.set b hb heq]
    · next hne =>
      obtain ⟨b', hb', hbid, hprops⟩ := hg.keep b hb hne
      rw [← hbid, ← hprops]
      exact ht.indexed.copies b' (mem_treeObjects_mid.mpr (.inl hb'))
  · exact fun w hw hnot => absurd (hg.ids ▸ hw) hnot
  · intro w hw _
    have hne : w ≠ v := fun h => hw (h ▸ hv)
    rw [hobjects, Function.update_of_ne hne]
  · have hkeys := congrArg (List.map Key.value) hg.rules_eq
    rw [List.map_map, List.map_map] at hkeys
    rw [harrays, hg.arr, ht.indexed.ruleIds g hmg]
    exact congrArg some hkeys.symm
  · exact fun arr _ => congrFun harrays arr
  · intro o ho b hb hob p
    rw [hmarks]
    split
    · next heq => rw [hc.set o ho (hob.trans heq), hg.set b hb heq]
    · next hne =>
      obtain ⟨o', ho', hoid, hoprops⟩ := hc.keep o ho (hob ▸ hne)
      obtain ⟨b', hb', hbid, hbprops⟩ := hg.keep b hb hne
      rw [← hoprops, ← hbprops, ← hbid]
      exact ht.marked.fields o' (mem_treeObjects_mid.mpr (.inl ho')) b'
        (mem_treeObjects_mid.mpr (.inl hb')) (by rw [hoid, hob, hbid]) p
  · intro w hw p
    rw [hmarks, if_neg (hout w hw)]
  · intro hclean
    rw [hc.arr, hdirty] at hclean
    rw [hc.rules_eq, hg.rules_eq]
    exact ht.marked.rules c hmc g hmg hid hclean
  · exact fun arr _ _ h => hdirty ▸ h
  · intro w hw hmem
    rw [nestedIds, hnested g.id (hgids id_mem_ids)] at hw
    rw [hg.rules_eq]
    exact ht.nests.own g hmg w hw (mem_treeIds_mid.mpr (hg.ids ▸ hmem))
  · intro r hr
    have hmem : r.id ∈ g.rules.map BaseRule.id := hg.rules_eq ▸ List.mem_map_of_mem hr
    obtain ⟨r', hr', hrid⟩ := List.mem_map.mp hmem
    rw [← hrid, hnested r'.id (hgids (rule_mem_ids hr'))]
    exact ht.nests.leaf g hmg r' hr'
  · exact fun w hw => hnested w (mem_treeIds_mid.mpr (.inr hw))
  · intro w hw hnew hold
    rw [nestedIds, hnested g.id (hgids id_mem_ids)]
    refine ht.nests.fresh w (mem_treeIds_mid.mpr (hc.ids ▸ hw)) (fun h => ?_) g hmg
    exact (mem_treeIds_mid.mp h).elim (hg.ids ▸ hnew) hold

end Replace

end MagiTrickle.ChangeTracker
