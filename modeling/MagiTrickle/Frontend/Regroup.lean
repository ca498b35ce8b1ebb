import MagiTrickle.Frontend.Replace
import Mathlib.Data.List.Flatten

/-!
# Edits of the data, and whole groups

An edit leaves the baseline alone: `Tracks.editGroup` is about one group of the
data, `Tracks.editGroups` about the list of groups. `Tracks.addGroup` and
`Tracks.dropGroup` are about the list of groups of the baseline.
-/

namespace MagiTrickle.ChangeTracker

/-- The id is none that the tracker knows. -/
def Unknown (cur base : List BaseGroup) (nested : Value → List Props) (v : Value) : Prop :=
  v ∉ treeIds cur ∧ v ∉ treeIds base ∧ ∀ k ∈ base, v ∉ nestedIds nested k.id

/-- One group of the data is edited. -/
structure GroupEdit (root : Arr) (cur base : List BaseGroup) (c c' : BaseGroup) (ix ix' : Index)
    (nested : Value → List Props) : Prop where
  arr : c'.arr = c.arr
  distinct : c'.ids.Nodup
  truthy : ∀ v ∈ c'.ids, v.truthy
  ids : ∀ v ∈ c'.ids, v ∈ c.ids ∨ Unknown cur base nested v
  baseId : c'.id = c.id ∨ (c.id ∉ treeIds base ∧ c'.id ∉ treeIds base)
  baseRules : ∀ r ∈ c'.rules, r.id ∈ treeIds base → r.id ∈ c.rules.map BaseRule.id
  fields : ∀ o ∈ c'.objects, o.id ∈ treeIds base →
    ∃ o' ∈ c.objects, o'.id = o.id ∧ o'.props = o.props
  copies : ix'.originalObjects = ix.originalObjects
  arrays : ix'.originalArrays = ix.originalArrays
  marks : ix'.dirtyObjectProps = ix.dirtyObjectProps
  rules : ∀ g ∈ base, c'.id = g.id → c.arr ∉ ix'.dirtyArrays →
    c'.rules.map BaseRule.id = g.rules.map BaseRule.id
  otherArrays : ∀ arr, arr ≠ c.arr → arr ∈ ix.dirtyArrays → arr ∈ ix'.dirtyArrays

section Edit

variable {root : Arr} {cpre cpost base : List BaseGroup} {c c' : BaseGroup} {ix ix' : Index}
  {nested : Value → List Props}

theorem Tracks.editGroup (ht : Tracks root (cpre ++ c :: cpost) base ix nested)
    (he : GroupEdit root (cpre ++ c :: cpost) base c c' ix ix' nested) :
    Tracks root (cpre ++ c' :: cpost) base ix' nested := by
  have hmc : c ∈ cpre ++ c :: cpost := mem_mid.mpr (.inl rfl)
  obtain ⟨-, -, hdis⟩ := treeIds_nodup_mid ht.curTidy.distinct
  have hnew : ∀ v ∈ c'.ids, v ∉ treeIds (cpre ++ cpost) := by
    intro v hv hmem
    rcases he.ids v hv with hv | hv
    · exact hdis v hv hmem
    · exact hv.1 (mem_treeIds_mid.mpr (.inr hmem))
  refine ⟨⟨?_, ?_, ?_⟩, ht.baseTidy, ⟨?_, ?_⟩, ⟨?_, ?_, ?_, ?_, ?_⟩, ⟨?_, ?_, ?_⟩,
    ht.nests.own, ht.nests.leaf, ?_⟩
  · exact treeIds_nodup_replace ht.curTidy.distinct he.distinct hnew
  · intro v hv
    rcases mem_treeIds_mid.mp hv with hv | hv
    · exact he.truthy v hv
    · exact ht.curTidy.truthy v (mem_treeIds_mid.mpr (.inr hv))
  · exact arrays_nodup_replace ht.curTidy.arrays (.inl he.arr)
  · intro c₂ hc₂ hmem
    rcases mem_mid.mp hc₂ with rfl | hc₂
    · have hid : c₂.id = c.id := he.baseId.resolve_right fun h => h.2 hmem
      rw [hid, he.arr]
      exact ht.aligned.group c hmc (hid ▸ hmem)
    · exact ht.aligned.group c₂ (mem_mid.mpr (.inr hc₂)) hmem
  · intro c₂ hc₂ r hr hmem
    rcases mem_mid.mp hc₂ with rfl | hc₂
    · obtain ⟨r', hr', hrid⟩ := List.mem_map.mp (he.baseRules r hr hmem)
      obtain ⟨g, hg, hgid, hrule⟩ := ht.aligned.rule c hmc r' hr' (hrid ▸ hmem)
      -- a rule of the baseline is in a group of the baseline, which keeps its id
      have hid : c₂.id = c.id := he.baseId.resolve_right fun h => h.1 (hgid ▸ id_mem_treeIds hg)
      exact ⟨g, hg, hgid.trans hid.symm, hrid ▸ hrule⟩
    · exact ht.aligned.rule c₂ (mem_mid.mpr (.inr hc₂)) r hr hmem
  · exact he.copies ▸ ht.indexed.copies
  · exact he.copies ▸ ht.indexed.noCopy
  · exact he.arrays ▸ ht.indexed.rootIds
  · exact he.arrays ▸ ht.indexed.ruleIds
  · intro c₂ hc₂ hout
    rw [he.arrays]
    rcases mem_mid.mp hc₂ with rfl | hc₂
    · rw [he.arr]
      refine ht.indexed.untracked c hmc ?_
      rcases he.baseId with hid | hid
      · exact hid ▸ hout
      · exact hid.1
    · exact ht.indexed.untracked c₂ (mem_mid.mpr (.inr hc₂)) hout
  · intro o ho b hb hob p
    rw [he.marks]
    rcases mem_treeObjects_mid.mp ho with ho | ho
    · obtain ⟨o', ho', hoid, hprops⟩ := he.fields o ho (hob ▸ object_mem_treeIds hb)
      rw [← hprops]
      exact ht.marked.fields o' (mem_treeObjects_mid.mpr (.inl ho')) b hb (hoid.trans hob) p
    · exact ht.marked.fields o (mem_treeObjects_mid.mpr (.inr ho)) b hb hob p
  · intro hroot
    have hgroups := ht.marked.groups fun h =>
      hroot (he.otherArrays root (Ne.symm ht.curTidy.arr_ne.1) h)
    have hmem : c.id ∈ treeIds base := by
      have hin : c.id ∈ base.map BaseGroup.id := hgroups ▸ List.mem_map_of_mem hmc
      obtain ⟨g, hg, hgid⟩ := List.mem_map.mp hin
      exact hgid ▸ id_mem_treeIds hg
    rw [map_mid_congr (he.baseId.resolve_right fun h => h.1 hmem), hgroups]
  · intro c₂ hc₂ g hg hcg hclean
    rcases mem_mid.mp hc₂ with rfl | hc₂
    · exact he.rules g hg hcg (he.arr ▸ hclean)
    · exact ht.marked.rules c₂ (mem_mid.mpr (.inr hc₂)) g hg hcg fun h =>
        hclean (he.otherArrays c₂.arr (ht.curTidy.arr_ne.2 c₂ hc₂) h)
  · intro v hv hout
    rcases mem_treeIds_mid.mp hv with hv | hv
    · rcases he.ids v hv with hv | hv
      · exact ht.nests.fresh v (mem_treeIds_mid.mpr (.inl hv)) hout
      · exact hv.2.2
    · exact ht.nests.fresh v (mem_treeIds_mid.mpr (.inr hv)) hout

end Edit

section Groups

variable {root : Arr} {cur cur' news base : List BaseGroup} {ix ix' : Index}
  {nested : Value → List Props}

theorem flatMap_subperm {α β : Type} {l l' : List α} (h : List.Subperm l l') (f : α → List β) :
    List.Subperm (l.flatMap f) (l'.flatMap f) := by
  obtain ⟨m, hperm, hsub⟩ := h
  exact ⟨m.flatMap f, hperm.flatMap_right f, hsub.flatMap f⟩

theorem nodup_of_subperm {α : Type} {l l' : List α} (h : List.Subperm l l') (hn : l'.Nodup) :
    l.Nodup := by
  obtain ⟨m, hperm, hsub⟩ := h
  exact hperm.nodup_iff.mp (hn.sublist hsub)

/-- Groups leave the list, and groups that the tracker does not know enter it. -/
theorem Tracks.editGroups (ht : Tracks root cur base ix nested)
    (hsub : List.Subperm cur' (cur ++ news)) (hdistinct : (treeIds news).Nodup)
    (hnew : ∀ v ∈ treeIds news, v.truthy ∧ Unknown cur base nested v)
    (harrays : ((root :: cur.map BaseGroup.arr) ++ news.map BaseGroup.arr).Nodup)
    (huntracked : ∀ c ∈ news, ix.originalArrays c.arr = none)
    (hobjects : ix'.originalObjects = ix.originalObjects)
    (horiginals : ix'.originalArrays = ix.originalArrays)
    (hmarks : ix'.dirtyObjectProps = ix.dirtyObjectProps)
    (hroot : root ∉ ix'.dirtyArrays → cur'.map BaseGroup.id = base.map BaseGroup.id)
    (hother : ∀ arr, arr ≠ root → arr ∈ ix.dirtyArrays → arr ∈ ix'.dirtyArrays) :
    Tracks root cur' base ix' nested := by
  have hmem : ∀ {c}, c ∈ cur' → c ∈ cur ∨ c ∈ news := fun h => List.mem_append.mp (hsub.subset h)
  have hids : ∀ {v}, v ∈ treeIds cur' → v ∈ treeIds cur ∨ v ∈ treeIds news := by
    intro v hv
    obtain ⟨c, hc, hv⟩ := mem_treeIds.mp hv
    exact (hmem hc).imp (fun h => mem_treeIds.mpr ⟨c, h, hv⟩) fun h => mem_treeIds.mpr ⟨c, h, hv⟩
  -- a group or a rule with an id of the baseline was there before
  have hstay : ∀ {c v}, c ∈ cur' → v ∈ c.ids → v ∈ treeIds base → c ∈ cur := by
    intro c v hc hv hbase
    refine (hmem hc).resolve_right fun h => ?_
    exact (hnew v (mem_treeIds.mpr ⟨c, h, hv⟩)).2.2.1 hbase
  refine ⟨⟨?_, ?_, ?_⟩, ht.baseTidy, ⟨?_, ?_⟩, ⟨?_, ?_, ?_, ?_, ?_⟩, ⟨?_, hroot, ?_⟩,
    ht.nests.own, ht.nests.leaf, ?_⟩
  · have hnodup : (treeIds (cur ++ news)).Nodup := by
      rw [treeIds_append, List.nodup_append']
      exact ⟨ht.curTidy.distinct, hdistinct, fun v hv hv' => (hnew v hv').2.1 hv⟩
    exact nodup_of_subperm (flatMap_subperm hsub BaseGroup.ids) hnodup
  · intro v hv
    exact (hids hv).elim (ht.curTidy.truthy v) fun h => (hnew v h).1
  · have hsub' : List.Subperm (root :: cur'.map BaseGroup.arr)
        ((root :: cur.map BaseGroup.arr) ++ news.map BaseGroup.arr) := by
      obtain ⟨m, hperm, hsub⟩ := hsub
      rw [List.cons_append, ← List.map_append]
      exact (List.subperm_cons root).mpr ⟨m.map BaseGroup.arr, hperm.map _, hsub.map _⟩
    exact nodup_of_subperm hsub' harrays
  · exact fun c hc hbase => ht.aligned.group c (hstay hc id_mem_ids hbase) hbase
  · exact fun c hc r hr hbase => ht.aligned.rule c (hstay hc (rule_mem_ids hr) hbase) r hr hbase
  · exact hobjects ▸ ht.indexed.copies
  · exact hobjects ▸ ht.indexed.noCopy
  · exact horiginals ▸ ht.indexed.rootIds
  · exact horiginals ▸ ht.indexed.ruleIds
  · intro c hc hout
    rw [horiginals]
    exact (hmem hc).elim (fun h => ht.indexed.untracked c h hout) (huntracked c)
  · intro o ho b hb hob p
    obtain ⟨c, hc, ho⟩ := mem_treeObjects.mp ho
    have hold := hstay hc (object_mem_ids ho) (hob ▸ object_mem_treeIds hb)
    rw [hmarks]
    exact ht.marked.fields o (mem_treeObjects.mpr ⟨c, hold, ho⟩) b hb hob p
  · intro c hc g hg hcg hclean
    have hold := hstay hc id_mem_ids (hcg ▸ id_mem_treeIds hg)
    exact ht.marked.rules c hold g hg hcg fun h =>
      hclean (hother c.arr (ht.curTidy.arr_ne_root hold) h)
  · intro v hv hout
    exact (hids hv).elim (fun h => ht.nests.fresh v h hout) fun h => (hnew v h).2.2.2

end Groups

/-! ## A group that enters the baseline -/

/-- A group of the data enters the baseline as it is. -/
structure GroupAdd (root : Arr) (cur base : List BaseGroup) (c : BaseGroup) (start : Bool)
    (ix ix' : Index) (nested nested' : Value → List Props) : Prop where
  mem : c ∈ cur
  out : c.id ∉ treeIds base
  objects : ix'.originalObjects = c.objects.foldl record ix.originalObjects
  rootIds : ix'.originalArrays root = some ((insertAt start c base).map fun g => .value g.id)
  ruleIds : ix'.originalArrays c.arr = some (c.rules.map fun r => .value r.id)
  keptArrays : ∀ arr, arr ≠ root → arr ≠ c.arr → ix'.originalArrays arr = ix.originalArrays arr
  marks : ∀ w p, (w, p) ∈ ix'.dirtyObjectProps ↔ (w, p) ∈ ix.dirtyObjectProps ∧ w ∉ c.ids
  groups : root ∉ ix'.dirtyArrays → cur.map BaseGroup.id = (insertAt start c base).map BaseGroup.id
  otherArrays : ∀ arr, arr ≠ root → arr ∈ ix.dirtyArrays → arr ∈ ix'.dirtyArrays
  nested : ∀ w, nested' w = if w ∈ c.rules.map BaseRule.id then []
    else if w = c.id then c.rules.map BaseRule.props else nested w

section Insert

variable {α β : Type} {start : Bool} {x y : α} {l : List α}

theorem mem_insertAt : y ∈ insertAt start x l ↔ y = x ∨ y ∈ l := by
  unfold insertAt
  cases start with
  | true => exact List.mem_cons
  | false => simp [or_comm]

theorem insertAt_perm (start : Bool) (x : α) (l : List α) :
    List.Perm (insertAt start x l) (x :: l) := by
  unfold insertAt
  cases start with
  | true => exact List.Perm.refl _
  | false => exact List.perm_append_singleton x l

theorem map_insertAt (f : α → β) (start : Bool) (x : α) (l : List α) :
    (insertAt start x l).map f = insertAt start (f x) (l.map f) := by
  unfold insertAt
  cases start with
  | true => rfl
  | false => exact List.map_append

variable {c : BaseGroup} {base : List BaseGroup}

theorem mem_treeIds_insertAt {v : Value} :
    v ∈ treeIds (insertAt start c base) ↔ v ∈ c.ids ∨ v ∈ treeIds base := by
  rw [treeIds, ((insertAt_perm start c base).flatMap_right BaseGroup.ids).mem_iff]
  exact List.mem_append

theorem mem_treeObjects_insertAt {b : BaseRule} :
    b ∈ treeObjects (insertAt start c base) ↔ b ∈ c.objects ∨ b ∈ treeObjects base := by
  rw [treeObjects, ((insertAt_perm start c base).flatMap_right BaseGroup.objects).mem_iff]
  exact List.mem_append

end Insert

namespace GroupAdd

variable {root : Arr} {cur base : List BaseGroup} {c : BaseGroup} {start : Bool} {ix ix' : Index}
  {nested nested' : Value → List Props}

theorem free (ha : GroupAdd root cur base c start ix ix' nested nested')
    (ht : Tracks root cur base ix nested) {v : Value} (hv : v ∈ c.ids) : v ∉ treeIds base := by
  intro hbase
  rcases mem_ids.mp hv with rfl | ⟨r, hr, rfl⟩
  · exact ha.out hbase
  · obtain ⟨g, hg, hgid, -⟩ := ht.aligned.rule c ha.mem r hr hbase
    exact ha.out (hgid ▸ id_mem_treeIds hg)

theorem nodup (ha : GroupAdd root cur base c start ix ix' nested nested')
    (ht : Tracks root cur base ix nested) : c.ids.Nodup := by
  obtain ⟨cpre, cpost, hcur⟩ := List.append_of_mem ha.mem
  have hnodup := ht.curTidy.distinct
  rw [hcur] at hnodup
  exact (treeIds_nodup_mid hnodup).1

theorem truthy (ha : GroupAdd root cur base c start ix ix' nested nested')
    (ht : Tracks root cur base ix nested) : ∀ v ∈ c.ids, v.truthy :=
  fun v hv => ht.curTidy.truthy v (mem_treeIds.mpr ⟨c, ha.mem, hv⟩)

theorem arr_ne (ha : GroupAdd root cur base c start ix ix' nested nested')
    (ht : Tracks root cur base ix nested) {g : BaseGroup} (hg : g ∈ base) : g.arr ≠ c.arr := by
  intro heq
  have hnone := ht.indexed.untracked c ha.mem ha.out
  rw [← heq, ht.indexed.ruleIds g hg] at hnone
  cases hnone

theorem eq_of_mem (ha : GroupAdd root cur base c start ix ix' nested nested')
    (ht : Tracks root cur base ix nested) {c₂ : BaseGroup} {v : Value} (hc₂ : c₂ ∈ cur)
    (hv : v ∈ c₂.ids) (hv' : v ∈ c.ids) : c₂ = c :=
  eq_of_mem_ids ht.curTidy.distinct hc₂ ha.mem hv hv'

theorem tidy (ha : GroupAdd root cur base c start ix ix' nested nested')
    (ht : Tracks root cur base ix nested) : Tidy root (insertAt start c base) := by
  have hperm := insertAt_perm start c base
  refine ⟨?_, ?_, ?_⟩
  · rw [treeIds, (hperm.flatMap_right BaseGroup.ids).nodup_iff, List.flatMap_cons,
      List.nodup_append']
    exact ⟨ha.nodup ht, ht.baseTidy.distinct, fun v hv => ha.free ht hv⟩
  · intro v hv
    exact (mem_treeIds_insertAt.mp hv).elim (ha.truthy ht v) (ht.baseTidy.truthy v)
  · have hnodup : (root :: c.arr :: base.map BaseGroup.arr).Nodup := by
      obtain ⟨hr, hb⟩ := List.nodup_cons.mp ht.baseTidy.arrays
      refine List.nodup_cons.mpr ⟨?_, List.nodup_cons.mpr ⟨?_, hb⟩⟩
      · exact fun h => (List.mem_cons.mp h).elim
          (fun h => ht.curTidy.arr_ne_root ha.mem h.symm) hr
      · intro h
        obtain ⟨g, hg, heq⟩ := List.mem_map.mp h
        exact ha.arr_ne ht hg heq
    exact ((hperm.map BaseGroup.arr).cons root).nodup_iff.mpr hnodup

theorem aligned (ha : GroupAdd root cur base c start ix ix' nested nested')
    (ht : Tracks root cur base ix nested) : Aligned cur (insertAt start c base) := by
  refine ⟨fun c₂ hc₂ hmem => ?_, fun c₂ hc₂ r hr hmem => ?_⟩
  · rcases mem_treeIds_insertAt.mp hmem with hmem | hmem
    · rw [ha.eq_of_mem ht hc₂ id_mem_ids hmem]
      exact ⟨c, mem_insertAt.mpr (.inl rfl), rfl, rfl⟩
    · obtain ⟨g, hg, hgid⟩ := ht.aligned.group c₂ hc₂ hmem
      exact ⟨g, mem_insertAt.mpr (.inr hg), hgid⟩
  · rcases mem_treeIds_insertAt.mp hmem with hmem | hmem
    · have heq := ha.eq_of_mem ht hc₂ (rule_mem_ids hr) hmem
      exact ⟨c, mem_insertAt.mpr (.inl rfl), heq ▸ rfl, List.mem_map_of_mem (heq ▸ hr)⟩
    · obtain ⟨g, hg, hgid⟩ := ht.aligned.rule c₂ hc₂ r hr hmem
      exact ⟨g, mem_insertAt.mpr (.inr hg), hgid⟩

theorem indexed (ha : GroupAdd root cur base c start ix ix' nested nested')
    (ht : Tracks root cur base ix nested) : Indexed root cur (insertAt start c base) ix' := by
  obtain ⟨hcopies, hkept⟩ := foldl_record_objects (ha.nodup ht) (ha.truthy ht) ix.originalObjects
  refine ⟨fun b hb => ?_, fun v hv => ?_, ha.rootIds, fun g hg => ?_, fun c₂ hc₂ hnot => ?_⟩
  · rw [ha.objects]
    rcases mem_treeObjects_insertAt.mp hb with hb | hb
    · exact hcopies b hb
    · rw [hkept _ fun h => ha.free ht h (object_mem_treeIds hb)]
      exact ht.indexed.copies b hb
  · obtain ⟨hv, hv'⟩ := not_or.mp fun h => hv (mem_treeIds_insertAt.mpr h)
    rw [ha.objects, hkept v hv]
    exact ht.indexed.noCopy v hv'
  · rcases mem_insertAt.mp hg with rfl | hg
    · exact ha.ruleIds
    · rw [ha.keptArrays g.arr (ht.baseTidy.arr_ne_root hg) (ha.arr_ne ht hg)]
      exact ht.indexed.ruleIds g hg
  · obtain ⟨hne, hbase⟩ := not_or.mp fun h => hnot (mem_treeIds_insertAt.mpr h)
    have harr : c₂.arr ≠ c.arr := by
      intro heq
      have hinj := List.inj_on_of_nodup_map (List.nodup_cons.mp ht.curTidy.arrays).2 hc₂ ha.mem heq
      exact hne (hinj ▸ id_mem_ids)
    rw [ha.keptArrays c₂.arr (ht.curTidy.arr_ne_root hc₂) harr]
    exact ht.indexed.untracked c₂ hc₂ hbase

theorem marked (ha : GroupAdd root cur base c start ix ix' nested nested')
    (ht : Tracks root cur base ix nested) : Marked root cur (insertAt start c base) ix' := by
  refine ⟨fun o ho b hb hob p => ?_, ha.groups, fun c₂ hc₂ g hg hcg hclean => ?_⟩
  · rw [ha.marks]
    rcases mem_treeObjects_insertAt.mp hb with hb | hb
    · have heq : o = b :=
        eq_of_id ht.curTidy.distinct ho (mem_treeObjects.mpr ⟨c, ha.mem, hb⟩) hob
      rw [heq]
      exact iff_of_false (fun h => h.2 (object_mem_ids hb)) fun h => h rfl
    · rw [and_iff_left fun h => ha.free ht h (object_mem_treeIds hb)]
      exact ht.marked.fields o ho b hb hob p
  · rcases mem_insertAt.mp hg with rfl | hg
    · rw [ha.eq_of_mem ht hc₂ id_mem_ids (hcg ▸ id_mem_ids)]
    · exact ht.marked.rules c₂ hc₂ g hg hcg fun h =>
        hclean (ha.otherArrays c₂.arr (ht.curTidy.arr_ne_root hc₂) h)

theorem nests (ha : GroupAdd root cur base c start ix ix' nested nested')
    (ht : Tracks root cur base ix nested) : Nested cur (insertAt start c base) nested' := by
  have hnestc : nestedIds nested' c.id = c.rules.map BaseRule.id := by
    have hnot : c.id ∉ c.rules.map BaseRule.id := (List.nodup_cons.mp (ha.nodup ht)).1
    rw [nestedIds, ha.nested, if_neg hnot, if_pos rfl, List.map_map]
    rfl
  have hnestBase : ∀ w ∈ treeIds base, nested' w = nested w := by
    intro w hw
    have hw' : w ∉ c.ids := fun h => ha.free ht h hw
    obtain ⟨hne, hnot⟩ := not_or.mp fun h => hw' (List.mem_cons.mpr h)
    rw [ha.nested, if_neg hnot, if_neg hne]
  refine ⟨fun g hg v hv hmem => ?_, fun g hg r hr => ?_, fun v hv hnot g hg => ?_⟩
  · rcases mem_insertAt.mp hg with rfl | hg
    · exact hnestc ▸ hv
    · rw [nestedIds, hnestBase g.id (id_mem_treeIds hg)] at hv
      rcases mem_treeIds_insertAt.mp hmem with hmem | hmem
      · have hcur : v ∈ treeIds cur := mem_treeIds.mpr ⟨c, ha.mem, hmem⟩
        exact absurd hv (ht.nests.fresh v hcur (ha.free ht hmem) g hg)
      · exact ht.nests.own g hg v hv hmem
  · rcases mem_insertAt.mp hg with rfl | hg
    · rw [ha.nested, if_pos (List.mem_map_of_mem hr)]
    · rw [hnestBase r.id (rule_mem_treeIds hg hr)]
      exact ht.nests.leaf g hg r hr
  · obtain ⟨hne, hbase⟩ := not_or.mp fun h => hnot (mem_treeIds_insertAt.mpr h)
    rcases mem_insertAt.mp hg with rfl | hg
    · rw [hnestc]
      exact fun h => hne (List.mem_cons_of_mem _ h)
    · rw [nestedIds, hnestBase g.id (id_mem_treeIds hg)]
      exact ht.nests.fresh v hv hbase g hg

end GroupAdd

section Groups

variable {root : Arr} {cur base : List BaseGroup} {c : BaseGroup} {start : Bool} {ix ix' : Index}
  {nested nested' : Value → List Props}

/-- A group that enters the baseline keeps the relation. -/
theorem Tracks.addGroup (ht : Tracks root cur base ix nested)
    (ha : GroupAdd root cur base c start ix ix' nested nested') :
    Tracks root cur (insertAt start c base) ix' nested' :=
  ⟨ht.curTidy, ha.tidy ht, ha.aligned ht, ha.indexed ht, ha.marked ht, ha.nests ht⟩

/-- A group without rules leaves the baseline; it is not in the data. -/
theorem Tracks.dropGroup (ht : Tracks root cur base ix nested) {v : Value}
    (hout : v ∉ treeIds cur) (halone : ∀ g ∈ base, v ∈ g.ids → g.id = v ∧ g.rules = [])
    (hobjects : ∀ w, ix'.originalObjects w = if w = v then none else ix.originalObjects w)
    (hrootIds : ix'.originalArrays root =
      some ((base.filter fun g => g.id ≠ v).map fun g => .value g.id))
    (hothers : ∀ arr, arr ≠ root → ix'.originalArrays arr = ix.originalArrays arr)
    (hmarks : ∀ w ∈ treeIds base, w ≠ v → ∀ p,
      (w, p) ∈ ix'.dirtyObjectProps ↔ (w, p) ∈ ix.dirtyObjectProps)
    (hroot : root ∉ ix'.dirtyArrays →
      cur.map BaseGroup.id = (base.filter fun g => g.id ≠ v).map BaseGroup.id)
    (hother : ∀ arr, arr ≠ root → arr ∈ ix.dirtyArrays → arr ∈ ix'.dirtyArrays)
    (hnested : ∀ w ∈ treeIds base, w ≠ v → nested' w = nested w) :
    Tracks root cur (base.filter fun g => g.id ≠ v) ix' nested' := by
  have hmem : ∀ {g}, g ∈ base.filter (fun g => g.id ≠ v) ↔ g ∈ base ∧ g.id ≠ v := by
    intro g
    rw [List.mem_filter, decide_eq_true_iff]
  have hids : ∀ {w}, w ∈ treeIds (base.filter fun g => g.id ≠ v) ↔ w ∈ treeIds base ∧ w ≠ v := by
    intro w
    rw [mem_treeIds, mem_treeIds]
    refine ⟨?_, ?_⟩
    · rintro ⟨g, hg, hw⟩
      obtain ⟨hg, hne⟩ := hmem.mp hg
      refine ⟨⟨g, hg, hw⟩, fun heq => ?_⟩
      exact hne (halone g hg (heq ▸ hw)).1
    · rintro ⟨⟨g, hg, hw⟩, hne⟩
      refine ⟨g, hmem.mpr ⟨hg, fun heq => ?_⟩, hw⟩
      obtain ⟨-, hnil⟩ := halone g hg (heq ▸ id_mem_ids)
      rcases mem_ids.mp hw with rfl | ⟨r, hr, -⟩
      · exact hne heq
      · rw [hnil] at hr
        exact absurd hr List.not_mem_nil
  have hsub : (base.filter fun g => g.id ≠ v).Sublist base := List.filter_sublist
  have hobj : ∀ {b}, b ∈ treeObjects (base.filter fun g => g.id ≠ v) →
      b ∈ treeObjects base ∧ b.id ≠ v := by
    intro b hb
    have hne := (hids.mp (object_mem_treeIds hb)).2
    obtain ⟨g, hg, hb⟩ := mem_treeObjects.mp hb
    exact ⟨mem_treeObjects.mpr ⟨g, (hmem.mp hg).1, hb⟩, hne⟩
  have hcur : ∀ {w}, w ∈ treeIds cur → w ≠ v := fun hw heq => hout (heq ▸ hw)
  refine ⟨ht.curTidy, ⟨?_, ?_, ?_⟩, ⟨?_, ?_⟩, ⟨?_, ?_, hrootIds, ?_, ?_⟩, ⟨?_, hroot, ?_⟩,
    ?_, ?_, ?_⟩
  · exact ht.baseTidy.distinct.sublist (hsub.flatMap BaseGroup.ids)
  · exact fun w hw => ht.baseTidy.truthy w (hids.mp hw).1
  · exact ht.baseTidy.arrays.sublist ((hsub.map BaseGroup.arr).cons_cons root)
  · intro c hc hbase
    obtain ⟨g, hg, hgid, harr⟩ := ht.aligned.group c hc (hids.mp hbase).1
    exact ⟨g, hmem.mpr ⟨hg, hgid ▸ hcur (id_mem_treeIds hc)⟩, hgid, harr⟩
  · intro c hc r hr hbase
    obtain ⟨g, hg, hgid, hrule⟩ := ht.aligned.rule c hc r hr (hids.mp hbase).1
    exact ⟨g, hmem.mpr ⟨hg, hgid ▸ hcur (id_mem_treeIds hc)⟩, hgid, hrule⟩
  · intro b hb
    obtain ⟨hb, hne⟩ := hobj hb
    rw [hobjects, if_neg hne]
    exact ht.indexed.copies b hb
  · intro w hw
    rw [hobjects]
    split
    · rfl
    · next hne => exact ht.indexed.noCopy w fun h => hw (hids.mpr ⟨h, hne⟩)
  · intro g hg
    obtain ⟨hg, -⟩ := hmem.mp hg
    rw [hothers g.arr (ht.baseTidy.arr_ne_root hg)]
    exact ht.indexed.ruleIds g hg
  · intro c hc hnot
    rw [hothers c.arr (ht.curTidy.arr_ne_root hc)]
    exact ht.indexed.untracked c hc fun h => hnot (hids.mpr ⟨h, hcur (id_mem_treeIds hc)⟩)
  · intro o ho b hb hob p
    obtain ⟨hb, hne⟩ := hobj hb
    rw [hmarks b.id (object_mem_treeIds hb) hne]
    exact ht.marked.fields o ho b hb hob p
  · intro c hc g hg hcg hclean
    exact ht.marked.rules c hc g (hmem.mp hg).1 hcg fun h =>
      hclean (hother c.arr (ht.curTidy.arr_ne_root hc) h)
  · intro g hg w hw hbase
    obtain ⟨hg, hne⟩ := hmem.mp hg
    rw [nestedIds, hnested g.id (id_mem_treeIds hg) hne] at hw
    exact ht.nests.own g hg w hw (hids.mp hbase).1
  · intro g hg r hr
    have hne := (hids.mp (rule_mem_treeIds hg hr)).2
    obtain ⟨hg, -⟩ := hmem.mp hg
    rw [hnested r.id (rule_mem_treeIds hg hr) hne]
    exact ht.nests.leaf g hg r hr
  · intro w hw hnot g hg
    obtain ⟨hg, hne⟩ := hmem.mp hg
    rw [nestedIds, hnested g.id (id_mem_treeIds hg) hne]
    exact ht.nests.fresh w hw (fun h => hnot (hids.mpr ⟨h, hcur hw⟩)) g hg

end Groups

end MagiTrickle.ChangeTracker
