import MagiTrickle.Frontend.Trees

/-!
# What the tracker keeps of data and baseline

`Tracks` relates the data and the baseline, both as lists of groups, to what the
tracker stores. An id of the baseline stands in the data where it stands in the
baseline (`Aligned`), the copies and the ids of arrays are those of the baseline
(`Indexed`), marks say which fields differ (`Marked`), and the rules inside a
copy belong to no other group (`Nested`). It makes the reported changes exact
(`Tracks.changes_exact`).
-/

namespace MagiTrickle.ChangeTracker

/-- Ids are distinct and not empty, and so are arrays. -/
structure Tidy (root : Arr) (l : List BaseGroup) : Prop where
  distinct : (treeIds l).Nodup
  truthy : ∀ v ∈ treeIds l, v.truthy
  arrays : (root :: l.map BaseGroup.arr).Nodup

/-- An id of the baseline stands in the data where it stands in the baseline. -/
structure Aligned (cur base : List BaseGroup) : Prop where
  group : ∀ c ∈ cur, c.id ∈ treeIds base → ∃ g ∈ base, g.id = c.id ∧ g.arr = c.arr
  rule : ∀ c ∈ cur, ∀ r ∈ c.rules, r.id ∈ treeIds base →
    ∃ g ∈ base, g.id = c.id ∧ r.id ∈ g.rules.map BaseRule.id

/-- The copies and the ids of arrays. -/
structure Indexed (root : Arr) (cur base : List BaseGroup) (ix : Index) : Prop where
  copies : ∀ b ∈ treeObjects base, ix.originalObjects b.id = some b.props
  noCopy : ∀ v ∉ treeIds base, ix.originalObjects v = none
  rootIds : ix.originalArrays root = some (base.map fun g => .value g.id)
  ruleIds : ∀ g ∈ base, ix.originalArrays g.arr = some (g.rules.map fun r => .value r.id)
  untracked : ∀ c ∈ cur, c.id ∉ treeIds base → ix.originalArrays c.arr = none

/-- The fields and arrays of the data that differ. Of what is not in the data nothing is said. -/
structure Marked (root : Arr) (cur base : List BaseGroup) (ix : Index) : Prop where
  fields : ∀ o ∈ treeObjects cur, ∀ b ∈ treeObjects base, o.id = b.id → ∀ p,
    (b.id, p) ∈ ix.dirtyObjectProps ↔ o.props p ≠ b.props p
  groups : root ∉ ix.dirtyArrays → cur.map BaseGroup.id = base.map BaseGroup.id
  rules : ∀ c ∈ cur, ∀ g ∈ base, c.id = g.id → c.arr ∉ ix.dirtyArrays →
    c.rules.map BaseRule.id = g.rules.map BaseRule.id

def nestedIds (nested : Value → List Props) (v : Value) : List Value := (nested v).map (· "id")

structure Nested (cur base : List BaseGroup) (nested : Value → List Props) : Prop where
  own : ∀ g ∈ base, ∀ v ∈ nestedIds nested g.id, v ∈ treeIds base → v ∈ g.rules.map BaseRule.id
  leaf : ∀ g ∈ base, ∀ r ∈ g.rules, nested r.id = []
  fresh : ∀ v ∈ treeIds cur, v ∉ treeIds base → ∀ g ∈ base, v ∉ nestedIds nested g.id

structure Tracks (root : Arr) (cur base : List BaseGroup) (ix : Index)
    (nested : Value → List Props) : Prop where
  curTidy : Tidy root cur
  baseTidy : Tidy root base
  aligned : Aligned cur base
  indexed : Indexed root cur base ix
  marked : Marked root cur base ix
  nests : Nested cur base nested

namespace Tracks

variable {root : Arr} {cur base : List BaseGroup} {ix : Index} {nested : Value → List Props}

theorem arr_eq (ht : Tracks root cur base ix nested) {c g : BaseGroup} (hc : c ∈ cur)
    (hg : g ∈ base) (h : c.id = g.id) : c.arr = g.arr := by
  obtain ⟨g', hg', hid, harr⟩ := ht.aligned.group c hc (h ▸ id_mem_treeIds hg)
  have heq : g' = g := eq_of_mem_ids ht.baseTidy.distinct hg' hg id_mem_ids
    (hid.trans h ▸ id_mem_ids)
  rw [← heq, harr]

theorem rule_mem (ht : Tracks root cur base ix nested) {c g : BaseGroup} (hc : c ∈ cur)
    (hg : g ∈ base) (h : c.id = g.id) {r : BaseRule} (hr : r ∈ c.rules)
    (hid : r.id ∈ treeIds base) : r.id ∈ g.rules.map BaseRule.id := by
  obtain ⟨g', hg', hid', hmem⟩ := ht.aligned.rule c hc r hr hid
  have heq : g' = g := eq_of_mem_ids ht.baseTidy.distinct hg' hg id_mem_ids
    (hid'.trans h ▸ id_mem_ids)
  exact heq ▸ hmem

/-- Without a marked array the data has the ids of the baseline. -/
theorem ids_of_clean (ht : Tracks root cur base ix nested) (hclean : ix.dirtyArrays = ∅)
    (v : Value) : v ∈ treeIds cur ↔ v ∈ treeIds base := by
  have hnot : ∀ arr, arr ∉ ix.dirtyArrays := by
    intro arr
    rw [hclean]
    exact Finset.notMem_empty arr
  have hgroups := ht.marked.groups (hnot root)
  have hpair : ∀ c ∈ cur, ∀ g ∈ base, c.id = g.id → c.ids = g.ids := by
    intro c hc g hg hid
    unfold BaseGroup.ids
    rw [hid, ht.marked.rules c hc g hg hid (hnot c.arr)]
  rw [mem_treeIds, mem_treeIds]
  refine ⟨?_, ?_⟩
  · rintro ⟨c, hc, hv⟩
    have hmem : c.id ∈ base.map BaseGroup.id := hgroups ▸ List.mem_map_of_mem hc
    obtain ⟨g, hg, hid⟩ := List.mem_map.mp hmem
    exact ⟨g, hg, hpair c hc g hg hid.symm ▸ hv⟩
  · rintro ⟨g, hg, hv⟩
    have hmem : g.id ∈ cur.map BaseGroup.id := hgroups ▸ List.mem_map_of_mem hg
    obtain ⟨c, hc, hid⟩ := List.mem_map.mp hmem
    exact ⟨c, hc, hpair c hc g hg hid ▸ hv⟩

end Tracks

/-! ## The reported changes -/

theorem traverse_eq_some_iff {h : Heap} {root : Arr} (hw : h.Whole root)
    (ht : Tidy root (h.read root)) {v : Value} {a : Addr} :
    h.traverse root v = some a ↔ a ∈ h.objects root ∧ h.id a = v := by
  have hfold : ∀ (os : List BaseRule) (m : Value → Option Addr), (os.map BaseRule.id).Nodup →
      (∀ o ∈ os, o.id.truthy ∧ h.id o.addr = o.id) →
      ((os.map BaseRule.addr).foldl (fun m a =>
          if (h.id a).truthy then Function.update m (h.id a) (some a) else m) m v = some a ↔
        (∃ o ∈ os, o.addr = a ∧ o.id = v) ∨ (v ∉ os.map BaseRule.id ∧ m v = some a)) := by
    intro os
    induction os with
    | nil =>
      intro m _ _
      simp
    | cons o os ih =>
      intro m hn hos
      obtain ⟨⟨ho, hid⟩, hos⟩ := List.forall_mem_cons.mp hos
      rw [List.map_cons, List.nodup_cons] at hn
      rw [List.map_cons, List.foldl_cons, hid, if_pos ho, ih _ hn.2 hos, Function.update_apply]
      by_cases hv : v = o.id
      · subst hv
        have hout : ¬ ∃ o' ∈ os, o'.addr = a ∧ o'.id = o.id := by
          rintro ⟨o', ho', -, heq⟩
          exact hn.1 (heq ▸ List.mem_map_of_mem ho')
        simp [hn.1, hout]
      · have hne : o.id ≠ v := Ne.symm hv
        simp [hv, hne]
  rw [objects_eq hw, Heap.traverse, objects_eq hw, hfold]
  · refine ⟨?_, ?_⟩
    · rintro (⟨o, ho, rfl, rfl⟩ | ⟨-, hnone⟩)
      · exact ⟨List.mem_map_of_mem ho, id_of_mem hw ho⟩
      · cases hnone
    · rintro ⟨hmem, rfl⟩
      obtain ⟨o, ho, rfl⟩ := List.mem_map.mp hmem
      exact .inl ⟨o, ho, rfl, (id_of_mem hw ho).symm⟩
  · rw [map_id_treeObjects]
    exact ht.distinct
  · exact fun o ho => ⟨ht.truthy _ (object_mem_treeIds ho), id_of_mem hw ho⟩

def State.dataIds (s : State) : List Value := (s.heap.objects s.root).map s.heap.id

/-- The reported changes are the differences between the data and the baseline. -/
structure State.Exact (s : State) : Prop where
  /-- Added are the objects whose id is in the data and not in the baseline. -/
  added : ∀ v a, s.changes.added v = some a ↔
    a ∈ s.heap.objects s.root ∧ s.heap.id a = v ∧ v ∉ treeIds s.base
  /-- Deleted are the objects of the baseline whose id is not in the data. -/
  deleted : ∀ v ps, s.changes.deleted v = some ps ↔
    (∃ b ∈ treeObjects s.base, b.id = v ∧ b.props = ps) ∧ v ∉ s.dataIds
  /-- Mutated are the objects in both with a field that differs. -/
  mutated : ∀ v a, s.changes.mutated v = some a ↔
    a ∈ s.heap.objects s.root ∧ s.heap.id a = v ∧
      ∃ b ∈ treeObjects s.base, b.id = v ∧ ∃ p, s.heap.props a p ≠ b.props p

section Exact

variable {s : State} {nested : Value → List Props}

theorem dataIds_eq (hw : s.heap.Whole s.root) : s.dataIds = treeIds (s.heap.read s.root) := by
  rw [State.dataIds, objects_eq hw, List.map_map, ← map_id_treeObjects]
  exact List.map_congr_left fun o ho => id_of_mem hw ho

theorem mem_objects (hw : s.heap.Whole s.root) {a : Addr} (ha : a ∈ s.heap.objects s.root) :
    ∃ o ∈ treeObjects (s.heap.read s.root), o.addr = a ∧ s.heap.id a = o.id ∧
      s.heap.props a = o.props := by
  rw [objects_eq hw] at ha
  obtain ⟨o, ho, rfl⟩ := List.mem_map.mp ha
  exact ⟨o, ho, rfl, id_of_mem hw ho, props_of_mem hw ho⟩

theorem originalObjects_isSome_iff
    (ht : Tracks s.root (s.heap.read s.root) s.base s.index nested) (v : Value) :
    (s.index.originalObjects v).isSome ↔ v ∈ treeIds s.base := by
  by_cases hv : v ∈ treeIds s.base
  · obtain ⟨b, hb, rfl⟩ := exists_treeObject hv
    rw [ht.indexed.copies b hb]
    exact iff_of_true rfl hv
  · rw [ht.indexed.noCopy v hv]
    exact iff_of_false nofun hv

/-- A marked id of the baseline that is in the data is one with a field that differs. -/
theorem marked_iff (hw : s.heap.Whole s.root)
    (ht : Tracks s.root (s.heap.read s.root) s.base s.index nested) {a : Addr}
    (ha : a ∈ s.heap.objects s.root) :
    (s.heap.id a ∈ treeIds s.base ∧ ∃ m ∈ s.index.dirtyObjectProps, m.1 = s.heap.id a) ↔
      ∃ b ∈ treeObjects s.base, b.id = s.heap.id a ∧ ∃ p, s.heap.props a p ≠ b.props p := by
  obtain ⟨o, ho, -, hid, hprops⟩ := mem_objects hw ha
  rw [hid, hprops]
  refine ⟨?_, ?_⟩
  · rintro ⟨hmem, ⟨v, p⟩, hm, rfl⟩
    obtain ⟨b, hb, hb'⟩ := exists_treeObject hmem
    have hb' : b.id = o.id := hb'
    refine ⟨b, hb, hb', p, (ht.marked.fields o ho b hb hb'.symm p).mp ?_⟩
    rw [hb']
    exact hm
  · rintro ⟨b, hb, hb', p, hne⟩
    refine ⟨hb' ▸ object_mem_treeIds hb, (b.id, p), ?_, hb'⟩
    exact (ht.marked.fields o ho b hb hb'.symm p).mpr hne

theorem deleted_iff (ht : Tracks s.root (s.heap.read s.root) s.base s.index nested) (v : Value)
    (ps : Props) : s.index.originalObjects v = some ps ↔
      ∃ b ∈ treeObjects s.base, b.id = v ∧ b.props = ps := by
  refine ⟨fun h => ?_, ?_⟩
  · have hmem := (originalObjects_isSome_iff ht v).mp (by rw [h]; rfl)
    obtain ⟨b, hb, rfl⟩ := exists_treeObject hmem
    rw [ht.indexed.copies b hb] at h
    exact ⟨b, hb, rfl, Option.some.inj h⟩
  · rintro ⟨b, hb, rfl, rfl⟩
    exact ht.indexed.copies b hb

/-- The changes of a tracked list are exact. -/
theorem Tracks.changes_exact (hw : s.heap.Whole s.root)
    (ht : Tracks s.root (s.heap.read s.root) s.base s.index nested) : s.Exact := by
  have hcur : ∀ v, s.heap.traverse s.root v = none ↔ v ∉ s.dataIds := by
    intro v
    rw [State.dataIds, List.mem_map]
    refine ⟨?_, fun h => ?_⟩
    · rintro hnone ⟨a, ha, hid⟩
      have hsome := (traverse_eq_some_iff hw ht.curTidy).mpr ⟨ha, hid⟩
      rw [hnone] at hsome
      cases hsome
    · cases hv : s.heap.traverse s.root v with
      | none => rfl
      | some a => exact absurd ⟨a, (traverse_eq_some_iff hw ht.curTidy).mp hv⟩ h
  by_cases hd : s.isDirty
  · refine ⟨fun v a => ?_, fun v ps => ?_, fun v a => ?_⟩
    · rw [State.changes, if_pos hd]
      dsimp only
      split
      · next hsome =>
        have hmem := (originalObjects_isSome_iff ht v).mp hsome
        exact iff_of_false nofun fun h => h.2.2 hmem
      · next hnone =>
        rw [traverse_eq_some_iff hw ht.curTidy, ← and_assoc]
        exact (and_iff_left fun h => hnone ((originalObjects_isSome_iff ht v).mpr h)).symm
    · rw [State.changes, if_pos hd]
      dsimp only
      split
      · next hsome =>
        refine iff_of_false nofun fun h => ?_
        rw [(hcur v).mpr h.2] at hsome
        cases hsome
      · next hnone =>
        rw [deleted_iff ht]
        exact (and_iff_left ((hcur v).mp (Option.not_isSome_iff_eq_none.mp hnone))).symm
    · rw [State.changes, if_pos hd]
      dsimp only
      split
      · next hmarked =>
        rw [traverse_eq_some_iff hw ht.curTidy, ← and_assoc]
        refine (and_iff_left_of_imp ?_).symm
        rintro ⟨ha, rfl⟩
        exact (marked_iff hw ht ha).mp ⟨(originalObjects_isSome_iff ht _).mp hmarked.1, hmarked.2⟩
      · next hclean =>
        refine iff_of_false nofun ?_
        rintro ⟨ha, rfl, hdiff⟩
        obtain ⟨hmem, hmarked⟩ := (marked_iff hw ht ha).mpr hdiff
        exact hclean ⟨(originalObjects_isSome_iff ht _).mpr hmem, hmarked⟩
  · -- without a mark the data has the ids and the fields of the baseline
    have hnone := decide_eq_false_iff_not.mp (Bool.not_eq_true _ ▸ hd)
    obtain ⟨hprops, harrays⟩ := not_or.mp hnone
    have hids := ht.ids_of_clean (not_not.mp harrays)
    rw [← dataIds_eq hw] at hids
    refine ⟨fun v a => ?_, fun v ps => ?_, fun v a => ?_⟩
    · rw [State.changes, if_neg hd]
      refine iff_of_false nofun ?_
      rintro ⟨ha, rfl, hout⟩
      exact hout ((hids _).mp (List.mem_map_of_mem ha))
    · rw [State.changes, if_neg hd]
      refine iff_of_false nofun ?_
      rintro ⟨⟨b, hb, rfl, -⟩, hout⟩
      exact hout ((hids _).mpr (object_mem_treeIds hb))
    · rw [State.changes, if_neg hd]
      refine iff_of_false nofun ?_
      rintro ⟨ha, rfl, hdiff⟩
      obtain ⟨-, m, hm, -⟩ := (marked_iff hw ht ha).mpr hdiff
      rw [not_not.mp hprops] at hm
      exact Finset.notMem_empty m hm

end Exact

end MagiTrickle.ChangeTracker
