import MagiTrickle.Frontend.Replace

/-!
# What an acknowledgement does to the index

Clearing removes the marks of some ids and of an array (`clearArray_eq`,
`clearCopy_eq`), forgetting removes copies (`forgetRules_eq`), linking stores the
copies of a group of the data and the ids of its rules (`linkGroup_eq`), and
pruning keeps the relation between data, baseline and index (`Tracks.prune`).
-/

namespace MagiTrickle.ChangeTracker

/-! ## Clearing -/

namespace Index

theorem foldl_clearId {vs : List Value} (ht : ∀ v ∈ vs, v.truthy) (ix : Index) :
    vs.foldl clearId ix =
      { ix with dirtyObjectProps := ix.dirtyObjectProps.filter (·.1 ∉ vs) } := by
  induction vs generalizing ix with
  | nil =>
    simp
  | cons v vs ih =>
    obtain ⟨hv, hvs⟩ := List.forall_mem_cons.mp ht
    rw [List.foldl_cons, ih hvs, clearId, if_pos hv]
    refine congrArg (fun marks => { ix with dirtyObjectProps := marks }) ?_
    rw [Finset.filter_filter]
    refine Finset.filter_congr fun m _ => ?_
    rw [List.mem_cons, not_or]

theorem clearArray_eq {h : Heap} {arr : Arr} {rules : List BaseRule}
    (harr : h.arrays arr = rules.map fun r => some r.addr)
    (hid : ∀ r ∈ rules, h.id r.addr = r.id) (ht : ∀ r ∈ rules, r.id.truthy) (ix : Index) :
    ix.clearArray h arr = { ix with
      dirtyObjectProps := ix.dirtyObjectProps.filter (·.1 ∉ rules.map BaseRule.id)
      dirtyArrays := ix.dirtyArrays.erase arr } := by
  have hfold : ∀ ix : Index, (rules.map fun r => some r.addr).foldl
      (fun ix e => e.elim ix fun r => ix.clearId (h.id r)) ix =
        (rules.map BaseRule.id).foldl clearId ix := by
    intro ix
    rw [List.foldl_map, List.foldl_map]
    refine List.foldl_ext _ _ _ fun ix r hr => ?_
    rw [Option.elim_some, hid r hr]
  have htruthy : ∀ v ∈ rules.map BaseRule.id, v.truthy := by
    intro v hv
    obtain ⟨r, hr, rfl⟩ := List.mem_map.mp hv
    exact ht r hr
  rw [clearArray, harr, hfold, foldl_clearId htruthy]

theorem clearCopy_eq {copy : Props} {rules : List Props} {v : Value} (hid : copy "id" = v)
    (hv : v.truthy) (ht : ∀ r ∈ rules, (r "id").truthy) (ix : Index) :
    ix.clearCopy copy rules = { ix with
      dirtyObjectProps := ix.dirtyObjectProps.filter (·.1 ∉ v :: rules.map (· "id")) } := by
  have htruthy : ∀ w ∈ v :: rules.map (· "id"), w.truthy := by
    refine List.forall_mem_cons.mpr ⟨hv, fun w hw => ?_⟩
    obtain ⟨r, hr, rfl⟩ := List.mem_map.mp hw
    exact ht r hr
  rw [clearCopy, hid, ← foldl_clearId htruthy, List.foldl_cons, List.foldl_map]

theorem clearCopy_frame (rules : List Props) (copy : Props) (ix : Index) :
    (ix.clearCopy copy rules).originalObjects = ix.originalObjects ∧
      (ix.clearCopy copy rules).originalArrays = ix.originalArrays ∧
      (ix.clearCopy copy rules).dirtyArrays = ix.dirtyArrays ∧
      ∀ w p, w ∉ copy "id" :: rules.map (· "id") →
        ((w, p) ∈ (ix.clearCopy copy rules).dirtyObjectProps ↔ (w, p) ∈ ix.dirtyObjectProps) := by
  have hstep : ∀ (ix : Index) (v : Value),
      (ix.clearId v).originalObjects = ix.originalObjects ∧
        (ix.clearId v).originalArrays = ix.originalArrays ∧
        (ix.clearId v).dirtyArrays = ix.dirtyArrays ∧
        ∀ w p, w ≠ v → ((w, p) ∈ (ix.clearId v).dirtyObjectProps ↔
          (w, p) ∈ ix.dirtyObjectProps) := by
    intro ix v
    unfold clearId
    split
    · exact ⟨rfl, rfl, rfl, fun w p hne =>
        Finset.mem_filter.trans (and_iff_left hne)⟩
    · exact ⟨rfl, rfl, rfl, fun _ _ _ => Iff.rfl⟩
  have hfold : ∀ (vs : List Value) (ix : Index),
      (vs.foldl clearId ix).originalObjects = ix.originalObjects ∧
        (vs.foldl clearId ix).originalArrays = ix.originalArrays ∧
        (vs.foldl clearId ix).dirtyArrays = ix.dirtyArrays ∧
        ∀ w p, w ∉ vs → ((w, p) ∈ (vs.foldl clearId ix).dirtyObjectProps ↔
          (w, p) ∈ ix.dirtyObjectProps) := by
    intro vs
    induction vs with
    | nil => exact fun ix => ⟨rfl, rfl, rfl, fun _ _ _ => Iff.rfl⟩
    | cons v vs ih =>
      intro ix
      obtain ⟨hobjects, horiginals, hdirty, hmarks⟩ := ih (ix.clearId v)
      obtain ⟨hobjects', horiginals', hdirty', hmarks'⟩ := hstep ix v
      refine ⟨hobjects.trans hobjects', horiginals.trans horiginals', hdirty.trans hdirty', ?_⟩
      intro w p hw
      obtain ⟨hne, hnot⟩ := not_or.mp fun h => hw (List.mem_cons.mpr h)
      exact (hmarks w p hnot).trans (hmarks' w p hne)
  have heq : ix.clearCopy copy rules = (copy "id" :: rules.map (· "id")).foldl clearId ix := by
    rw [clearCopy, List.foldl_cons, List.foldl_map]
  rw [heq]
  exact hfold _ ix

end Index

/-! ## Forgetting -/

theorem forget_cons {α : Type} {f : Value → α} {d : α} {w : Value} {vs : List Value}
    (hw : w.truthy) :
    (fun v => if v.truthy ∧ v ∈ vs then d else Function.update f w d v) =
      fun v => if v.truthy ∧ v ∈ w :: vs then d else f v := by
  funext v
  rw [Function.update_apply]
  by_cases hv : v = w
  · subst hv
    rw [if_pos rfl, ite_self, if_pos ⟨hw, List.mem_cons_self⟩]
  · simp only [hv, if_false, List.mem_cons, false_or]

theorem forget_falsy {w : Value} {vs : List Value} (hw : ¬ w.truthy) (v : Value) :
    (v.truthy ∧ v ∈ w :: vs) ↔ v.truthy ∧ v ∈ vs := by
  rw [List.mem_cons]
  refine and_congr_right fun hv => or_iff_right ?_
  rintro rfl
  exact hw hv

theorem forgetRules_eq (s : Session) (rules : List Props) :
    s.forgetRules rules = { s with
      index := { s.index with
        originalObjects := fun v => if v.truthy ∧ v ∈ rules.map (· "id") then none
          else s.index.originalObjects v }
      nested := fun v => if v.truthy ∧ v ∈ rules.map (· "id") then [] else s.nested v } := by
  unfold Session.forgetRules
  induction rules generalizing s with
  | nil => simp
  | cons r rules ih =>
    rw [List.foldl_cons, ih, Session.forgetId, List.map_cons]
    by_cases hr : (r "id").truthy
    · rw [if_pos hr, ← forget_cons hr, ← forget_cons hr]
    · rw [if_neg hr]
      simp only [forget_falsy hr]

/-! ## Storing -/

theorem foldl_nest {rs : List BaseRule} (ht : ∀ r ∈ rs, r.id.truthy) (m : Value → List Props) :
    rs.foldl (fun m r => Session.nest m r.id []) m =
      fun v => if v ∈ rs.map BaseRule.id then [] else m v := by
  induction rs generalizing m with
  | nil => simp
  | cons r rs ih =>
    obtain ⟨hr, hrs⟩ := List.forall_mem_cons.mp ht
    rw [List.foldl_cons, ih hrs, Session.nest, if_pos hr]
    funext v
    rw [List.map_cons, Function.update_apply]
    by_cases hv : v = r.id
    · simp [hv]
    · simp [hv]

section Link

variable {h : Heap} {root : Arr} {c : BaseGroup}

theorem nestObject_eq (hw : h.Whole root) (ht : Tidy root (h.read root)) (hc : c ∈ h.read root)
    (m : Value → List Props) :
    Session.nestObject h m c.addr = fun v => if v ∈ c.rules.map BaseRule.id then []
      else if v = c.id then c.rules.map BaseRule.props else m v := by
  obtain ⟨-, harr, -, hrules⟩ := mem_read hc
  have hid : h.id c.addr = c.id := id_of_mem hw (mem_treeObjects.mpr ⟨c, hc, List.mem_cons_self⟩)
  have htr : ∀ r ∈ c.rules, r.id.truthy := fun r hr => ht.truthy _ (rule_mem_treeIds hc hr)
  have hcopy : h.copyRules c.addr = c.rules.map BaseRule.props := by
    rw [Heap.copyRules, harr, Option.elim_some, hrules]
  unfold Session.nestObject
  rw [harr]
  dsimp only
  rw [Session.nestRules, ← hrules, foldl_nest htr, Session.nest, hid,
    if_pos (ht.truthy _ (id_mem_treeIds hc)), hcopy]
  funext v
  rw [Function.update_apply]

theorem linkGroup_eq (hw : h.Whole root) (ht : Tidy root (h.read root)) (hc : c ∈ h.read root)
    (ix : Index) :
    ix.linkGroup h c.addr = { ix with
      originalObjects := c.objects.foldl record ix.originalObjects
      originalArrays := Function.update ix.originalArrays c.arr
        (some (c.rules.map fun r => .value r.id)) } := by
  obtain ⟨-, harr, hprops, hrules⟩ := mem_read hc
  have hcopies : (h.arrays c.arr).map h.copyKey = c.rules.map fun r => .value r.id := by
    rw [(Reads.of_whole hw).arrays c hc]
    refine map_copyKey (fun r hr => ?_) fun r hr => ht.truthy _ (rule_mem_treeIds hc hr)
    exact id_of_mem hw (mem_treeObjects.mpr ⟨c, hc, List.mem_cons_of_mem _ hr⟩)
  unfold Index.linkGroup
  rw [harr]
  dsimp only
  rw [linkRules_eq, indexObject_eq, hcopies, ← hrules, hprops]
  rfl

end Link

/-! ## Pruning -/

theorem sameKeys_value {us vs : List Value} :
    Index.sameKeys (us.map .value) (vs.map .value) = true ↔ us = vs := by
  rw [sameKeys_iff (by simp)]
  exact (List.map_injective_iff.mpr fun _ _ h => Key.value.inj h).eq_iff

/-- Marks of what is in the data stay, and an array that loses its mark has its ids. -/
theorem Tracks.prune {h : Heap} {root : Arr} {base : List BaseGroup} {ix : Index}
    {nested : Value → List Props} (hw : h.Whole root)
    (ht : Tracks root (h.read root) base ix nested) :
    Tracks root (h.read root) base (ix.pruneDirtyState h root) nested := by
  have hlive := liveArrays_eq hw
  have hclean : ∀ {arr : Arr}, arr ∈ h.liveArrays root →
      arr ∉ (ix.pruneDirtyState h root).dirtyArrays → arr ∉ ix.dirtyArrays ∨
        ∃ originals, ix.originalArrays arr = some originals ∧
          Index.sameKeys originals ((h.arrays arr).map h.key) = true := by
    intro arr harr hout
    by_cases hin : arr ∈ ix.dirtyArrays
    · refine .inr ?_
      have hnot := fun hall => hout (Finset.mem_filter.mpr ⟨hin, harr, hall⟩)
      cases horig : ix.originalArrays arr with
      | none => exact absurd (by rw [horig]; rfl) hnot
      | some originals =>
        refine ⟨originals, rfl, ?_⟩
        by_contra hne
        refine hnot ?_
        rw [horig, Option.all_some]
        exact decide_eq_true hne
    · exact .inl hin
  refine ⟨ht.curTidy, ht.baseTidy, ht.aligned, ?_, ⟨fun o ho b hb hob p => ?_, fun hroot => ?_,
    fun c hc g hg hcg harr => ?_⟩, ht.nests⟩
  · exact ⟨ht.indexed.copies, ht.indexed.noCopy, ht.indexed.rootIds, ht.indexed.ruleIds,
      ht.indexed.untracked⟩
  · rw [← ht.marked.fields o ho b hb hob p]
    refine Finset.mem_filter.trans (and_iff_left ⟨o.addr, ?_, ?_⟩)
    · rw [objects_eq hw]
      exact List.mem_map_of_mem ho
    · rw [id_of_mem hw ho, hob]
  · rcases hclean (hlive ▸ List.mem_cons_self) hroot with hout | ⟨originals, horig, hsame⟩
    · exact ht.marked.groups hout
    · rw [ht.indexed.rootIds] at horig
      cases horig
      rw [keys_root hw ht.curTidy.truthy] at hsame
      have heq := @sameKeys_value (base.map BaseGroup.id) ((h.read root).map BaseGroup.id)
      rw [List.map_map, List.map_map] at heq
      exact (heq.mp hsame).symm
  · have hmem : c.arr ∈ h.liveArrays root :=
      hlive ▸ List.mem_cons_of_mem _ (List.mem_map_of_mem hc)
    rcases hclean hmem harr with hout | ⟨originals, horig, hsame⟩
    · exact ht.marked.rules c hc g hg hcg hout
    · rw [ht.arr_eq hc hg hcg, ht.indexed.ruleIds g hg] at horig
      cases horig
      rw [keys_rules hw ht.curTidy.truthy hc] at hsame
      have heq := @sameKeys_value (g.rules.map BaseRule.id) (c.rules.map BaseRule.id)
      rw [List.map_map, List.map_map] at heq
      exact (heq.mp hsame).symm

end MagiTrickle.ChangeTracker
