import MagiTrickle.Frontend.AckLists

/-!
# Acknowledged updates

An update that was saved stores the object anew, or the fields that were saved.
A fair one keeps the invariant of the tracker.
-/

namespace MagiTrickle.ChangeTracker

/-! ## Saved fields -/

namespace Persisted

variable {p : Persisted}

theorem assign_of_not_mem {q : String} (hq : q ∉ p.fields.map (·.1.1)) (m : Props) :
    p.assign m q = m q := by
  unfold assign
  generalize p.fields = fields at hq ⊢
  induction fields generalizing m with
  | nil => rfl
  | cons f fields ih =>
    obtain ⟨hne, hin⟩ := not_or.mp fun h => hq (List.mem_cons.mpr h)
    rw [List.foldl_cons, ih _ hin, Function.update_of_ne hne]

theorem assign_of_mem {q : String} (hq : q ∈ p.fields.map (·.1.1)) (m m' : Props) :
    p.assign m q = p.assign m' q := by
  unfold assign
  generalize p.fields = fields at hq ⊢
  induction fields generalizing m m' with
  | nil => exact absurd hq List.not_mem_nil
  | cons f fields ih =>
    rw [List.foldl_cons, List.foldl_cons]
    by_cases hin : q ∈ fields.map (·.1.1)
    · exact ih _ _ hin
    · -- the last value that was saved
      have hf : q = f.1.1 := (List.mem_cons.mp hq).resolve_right hin
      have hlast : ∀ m : Props, fields.foldl (fun m f => Function.update m f.1 f.2) m q = m q :=
        @assign_of_not_mem ⟨fields, none⟩ q hin
      rw [hlast, hlast, hf, Function.update_self, Function.update_self]

/-- A field differs if it differed before and was not saved. -/
theorem assign_ne_iff {q : String} {m m' : Props} :
    p.assign m q ≠ p.assign m' q ↔ m q ≠ m' q ∧ q ∉ p.fields.map (·.1.1) := by
  by_cases hq : q ∈ p.fields.map (·.1.1)
  · exact iff_of_false (fun h => h (assign_of_mem hq m m')) fun h => h.2 hq
  · rw [assign_of_not_mem hq, assign_of_not_mem hq]
    exact (and_iff_left hq).symm

theorem assign_id {v : Value} (hkeep : ∀ f ∈ p.fields, f.1.1 = "id" → f.2 = v) {m : Props}
    (hm : m "id" = v) : p.assign m "id" = v := by
  unfold assign
  generalize p.fields = fields at hkeep ⊢
  induction fields generalizing m with
  | nil => exact hm
  | cons f fields ih =>
    obtain ⟨hf, hfields⟩ := List.forall_mem_cons.mp hkeep
    refine ih ?_ hfields
    change Function.update m f.1.1 f.2 "id" = v
    rw [Function.update_apply]
    split
    · next heq => exact hf heq.symm
    · exact hm

end Persisted

/-! ## One object of the baseline -/

section SetsProps

variable {g : BaseGroup} {copy : Props}

theorem setsProps_group (hn : g.ids.Nodup) (hid : copy "id" = g.id) :
    SetsProps g { g with props := copy } g.id copy := by
  have hgid : g.id ∉ g.rules.map BaseRule.id := (List.nodup_cons.mp hn).1
  refine ⟨?_, rfl, fun o ho hv => ?_, fun o ho hv => ?_⟩
  · exact congrArg (· :: g.rules.map BaseRule.id) hid
  · rcases List.mem_cons.mp ho with rfl | ho
    · rfl
    · exact absurd (hv ▸ List.mem_map_of_mem ho) hgid
  · rcases List.mem_cons.mp ho with rfl | ho
    · exact absurd hid hv
    · exact ⟨o, List.mem_cons_of_mem _ ho, rfl, rfl⟩

theorem setsProps_rule (hn : g.ids.Nodup) {v : Value} (hv : v ∈ g.rules.map BaseRule.id)
    {f : BaseRule → BaseRule} (hf : ∀ r ∈ g.rules, r.id = v → (f r).props = copy)
    (hid : copy "id" = v) :
    SetsProps g { g with rules := g.rules.map fun r => if r.id = v then f r else r } v copy := by
  have hgv : g.id ≠ v := by
    rintro rfl
    exact (List.nodup_cons.mp hn).1 hv
  have hrule : ∀ r ∈ g.rules, (if r.id = v then f r else r).id = r.id := by
    intro r hr
    split
    · next heq => rw [BaseRule.id, hf r hr heq, hid, heq]
    · rfl
  refine ⟨?_, rfl, fun o ho hov => ?_, fun o ho hov => ?_⟩
  · refine congrArg (g.id :: ·) ?_
    rw [List.map_map]
    exact List.map_congr_left hrule
  · rcases List.mem_cons.mp ho with rfl | ho
    · exact absurd hov hgv
    · obtain ⟨r, hr, rfl⟩ := List.mem_map.mp ho
      have hrv : r.id = v := (hrule r hr).symm.trans hov
      rw [if_pos hrv, hf r hr hrv]
  · rcases List.mem_cons.mp ho with rfl | ho
    · exact ⟨⟨g.addr, g.props⟩, List.mem_cons_self, rfl, rfl⟩
    · obtain ⟨r, hr, rfl⟩ := List.mem_map.mp ho
      have hrv : r.id ≠ v := fun h => hov ((hrule r hr).trans h)
      rw [if_neg hrv]
      exact ⟨r, List.mem_cons_of_mem _ hr, rfl, rfl⟩

end SetsProps

/-! ## Fields -/

theorem acknowledgeFields_eq {s : Session} {a : Addr} {p : Persisted} (hrules : p.rules = none) :
    s.acknowledgeFields a p =
      let h := s.heap.withProps a (p.assign (s.heap.props a))
      let copy := (s.index.originalObjects (s.heap.id a)).getD fun _ => .undefined
      { s with
        heap := h
        index := Index.pruneDirtyState h s.root { s.index with
          originalObjects := Function.update s.index.originalObjects (h.id a)
            (some (p.assign (Function.update copy "id" (h.id a))))
          dirtyObjectProps := s.index.dirtyObjectProps.filter fun m =>
            ¬ (m.1 = h.id a ∧ m.2 ∈ p.fields.map (·.1.1)) }
        nested := Function.update s.nested (h.id a) (s.nested (s.heap.id a)) } := by
  unfold Session.acknowledgeFields
  rw [hrules]
  simp only [Option.elim_none, List.append_nil]
  rfl

theorem Session.Inv.updateFields {s : Session} (hs : s.Inv) {c : BaseGroup}
    (hc : c ∈ s.heap.read s.root) {o : BaseRule} (ho : o ∈ c.objects) {p : Persisted}
    (hkeep : s.KeepsId o.addr p) (hrules : p.rules = none) {pre post : List BaseGroup}
    {g g' : BaseGroup} (hbase : s.base = pre ++ g :: post) (hcg : c.id = g.id) {b : BaseRule}
    (hb : b ∈ g.objects) (hbid : b.id = o.id)
    (hg' : SetsProps g g' o.id (p.assign b.props)) :
    Session.Inv { s.acknowledgeFields o.addr p with base := pre ++ g' :: post } := by
  have hw := hs.whole
  have ht := hs.tracks
  have hmem : o ∈ treeObjects (s.heap.read s.root) := mem_treeObjects.mpr ⟨c, hc, ho⟩
  have hg : g ∈ s.base := hbase ▸ mem_mid.mpr (.inl rfl)
  obtain ⟨cpre, cpost, hcur⟩ := List.append_of_mem hc
  have hoid : s.heap.id o.addr = o.id := id_of_mem hw hmem
  have hops : s.heap.props o.addr = o.props := props_of_mem hw hmem
  have hcopy : s.index.originalObjects o.id = some b.props := by
    rw [← hbid]
    exact ht.indexed.copies b (mem_treeObjects.mpr ⟨g, hg, hb⟩)
  have hmarked := ht.marked.fields o hmem b (mem_treeObjects.mpr ⟨g, hg, hb⟩) hbid.symm
  have hself : Function.update b.props "id" o.id = b.props := by
    rw [← hbid]
    exact Function.update_eq_self ..
  rw [acknowledgeFields_eq hrules, hops]
  generalize hps : p.assign o.props = ps
  have hpid : ps "id" = o.id := by
    rw [← hps]
    exact Persisted.assign_id (hoid ▸ hkeep) rfl
  have hid' : (s.heap.withProps o.addr ps).id o.addr = o.id := by
    refine Eq.trans ?_ hpid
    exact congrFun (Function.update_self ..) "id"
  have hread : (s.heap.withProps o.addr ps).read s.root =
      cpre ++ c.setProps o.addr ps :: cpost := by
    rw [read_withProps, map_setProps_mid hw ht.curTidy hcur ho]
  dsimp only
  rw [hid', hoid, hcopy, Option.getD_some, hself, Function.update_eq_self]
  refine ⟨hw, Tracks.prune hw ?_⟩
  dsimp only
  rw [hread]
  have hset := setsProps_setProps hw ht.curTidy hc ho hpid
  rw [hcur, hbase] at ht
  refine ht.setObject hcg hset hg' (hbid ▸ object_mem_ids hb) rfl rfl (fun w q => ?_) rfl
    fun _ _ => rfl
  refine Finset.mem_filter.trans ?_
  split
  · next hwo =>
    subst hwo
    rw [hbid] at hmarked
    rw [hmarked q, ← hps, Persisted.assign_ne_iff]
    exact and_congr_right fun _ => not_congr (and_iff_right rfl)
  · next hwo => exact and_iff_left fun h => hwo h.1

/-! ## What the copy of a group holds no longer -/

/-- The ids inside the copy of the group `w` have lost their values. Of `w` nothing is said. -/
def Forgets {α : Type} (nested : Value → List Props) (w : Value) (d : α) (f f' : Value → α) :
    Prop :=
  ∀ v, v ≠ w → f' v = if v.truthy ∧ v ∈ nestedIds nested w then d else f v

section Forgets

theorem forgets_update {α : Type} (nested : Value → List Props) (w : Value) (d e : α)
    (f : Value → α) : Forgets nested w d f fun v =>
      if v.truthy ∧ v ∈ nestedIds nested w then d else Function.update f w e v := by
  intro v hne
  dsimp only
  rw [Function.update_of_ne hne]

variable {root : Arr} {cur base : List BaseGroup} {ix : Index} {nested : Value → List Props}
  {g : BaseGroup}

theorem Tracks.forgets_other {α : Type} {d : α} {f f' : Value → α}
    (ht : Tracks root cur base ix nested) (hg : g ∈ base) (hf : Forgets nested g.id d f f')
    {v : Value} (hv : v ∈ treeIds base) (hout : v ∉ g.ids) : f' v = f v := by
  have hne : v ≠ g.id := fun h => hout (h ▸ id_mem_ids)
  rw [hf v hne, if_neg]
  rintro ⟨-, hin⟩
  exact hout (List.mem_cons_of_mem _ (ht.nests.own g hg v hin hv))

variable {F : Value → Option Props}

/-- Copies are lost in the group only. -/
theorem Tracks.forgets_copy (ht : Tracks root cur base ix nested) (hg : g ∈ base)
    (hF : Forgets nested g.id none ix.originalObjects F) {v : Value} (hv : v ∉ g.ids) :
    F v = ix.originalObjects v := by
  by_cases hin : v ∈ treeIds base
  · exact ht.forgets_other hg hF hin hv
  · have hne : v ≠ g.id := fun h => hv (h ▸ id_mem_ids)
    rw [hF v hne, ht.indexed.noCopy v hin, ite_self]

/-- A rule of the baseline that is in the copy of its group loses its copy. -/
theorem Tracks.forgets_stale (ht : Tracks root cur base ix nested) (hg : g ∈ base)
    (hF : Forgets nested g.id none ix.originalObjects F) {r : BaseRule} (hr : r ∈ g.rules)
    (hin : r.id ∈ nestedIds nested g.id) (hne : r.id ≠ g.id) : F r.id = none := by
  rw [hF _ hne, if_pos ⟨ht.baseTidy.truthy _ (rule_mem_treeIds hg hr), hin⟩]

end Forgets

/-! ## Whole objects -/

theorem Session.Inv.updateRule {s : Session} (hs : s.Inv) {c : BaseGroup}
    (hc : c ∈ s.heap.read s.root) {r : BaseRule} (hr : r ∈ c.rules) {pre post : List BaseGroup}
    {g g' : BaseGroup} (hbase : s.base = pre ++ g :: post) (hcg : c.id = g.id) {b : BaseRule}
    (hb : b ∈ g.rules) (hbid : b.id = r.id) (hg' : SetsProps g g' r.id r.props) :
    Session.Inv { s.acknowledgeObject r.addr with base := pre ++ g' :: post } := by
  have hw := hs.whole
  have ht := hs.tracks
  have hro : r ∈ treeObjects (s.heap.read s.root) :=
    mem_treeObjects.mpr ⟨c, hc, List.mem_cons_of_mem _ hr⟩
  have hg : g ∈ s.base := hbase ▸ mem_mid.mpr (.inl rfl)
  obtain ⟨cpre, cpost, hcur⟩ := List.append_of_mem hc
  have hid : s.heap.id r.addr = r.id := id_of_mem hw hro
  have hprops : s.heap.props r.addr = r.props := props_of_mem hw hro
  have hrules : s.heap.rules r.addr = none := ((Reads.of_whole hw).rules c hc r hr).1
  have htruthy : r.id.truthy := ht.curTidy.truthy r.id (object_mem_treeIds hro)
  have hcopy : s.index.originalObjects r.id = some b.props := by
    rw [← hbid]
    exact ht.indexed.copies b (mem_treeObjects.mpr ⟨g, hg, List.mem_cons_of_mem _ hb⟩)
  have hleaf : s.nested r.id = [] := hbid ▸ ht.nests.leaf g hg b hb
  have hbid' : b.props "id" = r.id := hbid
  have hack : s.acknowledgeObject r.addr = { s with
      index := Index.pruneDirtyState s.heap s.root { s.index with
        originalObjects := Function.update s.index.originalObjects r.id (some r.props)
        dirtyObjectProps := s.index.dirtyObjectProps.filter (·.1 ≠ r.id) }
      nested := Function.update s.nested r.id [] } := by
    unfold Session.acknowledgeObject Session.link Index.clearObject Index.linkGroup
      Session.nestObject
    rw [hid, hcopy, hleaf]
    dsimp only [Session.forgetRules, List.foldl_nil]
    rw [hbid', Session.forgetId, if_pos htruthy]
    dsimp only
    rw [hrules]
    dsimp only
    rw [hid, Index.clearId, if_pos htruthy, Index.indexObject, hid, if_pos htruthy, Session.nest,
      if_pos htruthy, hprops, Function.update_idem, Function.update_idem]
  rw [hack]
  refine ⟨hw, Tracks.prune hw ?_⟩
  dsimp only
  rw [hcur, hbase] at ht
  rw [hcur]
  have hset : SetsProps c c r.id r.props :=
    setsProps_self (treeIds_nodup_mid ht.curTidy.distinct).1 (List.mem_cons_of_mem _ hr)
  refine ht.setObject hcg hset hg' (hbid ▸ rule_mem_ids hb) rfl rfl (fun w q => ?_) rfl
    fun w _ => ?_
  · refine Finset.mem_filter.trans ?_
    split
    · next heq => exact iff_of_false (fun h => h.2 heq) fun h => h rfl
    · next hne => exact and_iff_left hne
  · rw [← hleaf, Function.update_eq_self]

/-- What is stored when a group is acknowledged. -/
theorem acknowledgeObject_group {s : Session} (hs : s.Inv) {c g : BaseGroup}
    (hc : c ∈ s.heap.read s.root) (hg : g ∈ s.base) (hcg : c.id = g.id) :
    s.acknowledgeObject c.addr = { s with
      index := Index.pruneDirtyState s.heap s.root {
        originalObjects := c.objects.foldl record fun v =>
          if v.truthy ∧ v ∈ nestedIds s.nested c.id then none
          else Function.update s.index.originalObjects c.id none v
        originalArrays := Function.update s.index.originalArrays c.arr
          (some (c.rules.map fun r => .value r.id))
        dirtyObjectProps := (s.index.dirtyObjectProps.filter (·.1 ≠ c.id)).filter
          (·.1 ∉ c.rules.map BaseRule.id)
        dirtyArrays := s.index.dirtyArrays.erase c.arr }
      nested := fun v => if v ∈ c.rules.map BaseRule.id then []
        else if v = c.id then c.rules.map BaseRule.props
        else if v.truthy ∧ v ∈ nestedIds s.nested c.id then []
        else Function.update s.nested c.id [] v } := by
  have hw := hs.whole
  have ht := hs.tracks
  obtain ⟨-, hrules, -⟩ := mem_read hc
  have hid : s.heap.id c.addr = c.id :=
    id_of_mem hw (mem_treeObjects.mpr ⟨c, hc, List.mem_cons_self⟩)
  have hrid : ∀ r ∈ c.rules, s.heap.id r.addr = r.id := fun r hr =>
    id_of_mem hw (mem_treeObjects.mpr ⟨c, hc, List.mem_cons_of_mem _ hr⟩)
  have htruthy : ∀ v ∈ c.ids, v.truthy := fun v hv =>
    ht.curTidy.truthy v (mem_treeIds.mpr ⟨c, hc, hv⟩)
  have hcopy : s.index.originalObjects c.id = some g.props := by
    rw [hcg]
    exact ht.indexed.copies ⟨g.addr, g.props⟩ (mem_treeObjects.mpr ⟨g, hg, List.mem_cons_self⟩)
  have hgid : g.props "id" = c.id := hcg.symm
  unfold Session.acknowledgeObject Session.link Index.clearObject
  rw [hid, hcopy]
  dsimp only
  rw [forgetRules_eq, Session.forgetId, hgid, if_pos (htruthy _ id_mem_ids)]
  dsimp only
  rw [hrules]
  dsimp only
  rw [hid, Index.clearId, if_pos (htruthy _ id_mem_ids),
    Index.clearArray_eq ((Reads.of_whole hw).arrays c hc) hrid
      (fun r hr => htruthy _ (rule_mem_ids hr)),
    linkGroup_eq hw ht.curTidy hc, nestObject_eq hw ht.curTidy hc]
  rfl

/-- The acknowledgement of a group: its rules are indexed with it. -/
theorem Session.Inv.updateGroup {s : Session} (hs : s.Inv) {c : BaseGroup}
    (hc : c ∈ s.heap.read s.root) {pre post : List BaseGroup} {g : BaseGroup}
    (hbase : s.base = pre ++ g :: post) (hcg : c.id = g.id)
    (hstale : ∀ r ∈ g.rules, r.id ∈ nestedIds s.nested g.id ∨ r.id ∈ c.rules.map BaseRule.id) :
    Session.Inv { s.acknowledgeObject c.addr with base := pre ++ c :: post } := by
  have hw := hs.whole
  have ht := hs.tracks
  have hg : g ∈ s.base := hbase ▸ mem_mid.mpr (.inl rfl)
  obtain ⟨cpre, cpost, hcur⟩ := List.append_of_mem hc
  have htruthy : ∀ v ∈ c.ids, v.truthy := fun v hv =>
    ht.curTidy.truthy v (mem_treeIds.mpr ⟨c, hc, hv⟩)
  have hcn : c.ids.Nodup := (treeIds_nodup_mid (hcur ▸ ht.curTidy.distinct)).1
  have harr : c.arr = g.arr := ht.arr_eq hc hg hcg
  rw [acknowledgeObject_group hs hc hg hcg]
  refine ⟨hw, Tracks.prune hw ?_⟩
  dsimp only
  generalize hF : (fun v => if v.truthy ∧ v ∈ nestedIds s.nested c.id then none
    else Function.update s.index.originalObjects c.id none v) = F
  have hforgets : Forgets s.nested g.id none s.index.originalObjects F := by
    rw [← hF, hcg]
    exact forgets_update s.nested g.id none none s.index.originalObjects
  obtain ⟨hcopies, hout⟩ := foldl_record_objects hcn htruthy F
  have hstaleF : ∀ r ∈ g.rules, r.id ∉ c.ids → F r.id = none := by
    intro r hr hnot
    have hin := (hstale r hr).resolve_right fun h => hnot (List.mem_cons_of_mem _ h)
    exact ht.forgets_stale hg hforgets hr hin fun h => hnot (h ▸ hcg ▸ id_mem_ids)
  have hkept : ∀ v, v ∉ g.ids → F v = s.index.originalObjects v :=
    fun _ hv => ht.forgets_copy hg hforgets hv
  have hunnest : ∀ v ∈ treeIds s.base, v ∉ g.ids →
      (if v.truthy ∧ v ∈ nestedIds s.nested c.id then []
        else Function.update s.nested c.id [] v) = s.nested v := by
    intro v hv hnot
    rw [hcg]
    exact ht.forgets_other hg (forgets_update s.nested g.id [] [] s.nested) hv hnot
  rw [hcur]
  rw [hcur, hbase] at ht
  rw [hbase] at hunnest
  have hfree : ∀ v ∈ treeIds (pre ++ post), v ∉ c.ids := fun v hv h =>
    ht.not_foreign hcg (.inl h) (.inr (.inl hv))
  have hfree' : ∀ v ∈ treeIds (pre ++ post), v ∉ g.ids := fun v hv h =>
    ht.not_foreign hcg (.inr h) (.inr (.inl hv))
  generalize hN : (fun v => if v ∈ c.rules.map BaseRule.id then []
    else if v = c.id then c.rules.map BaseRule.props
    else if v.truthy ∧ v ∈ nestedIds s.nested c.id then []
    else Function.update s.nested c.id [] v) = N
  have hnestc : nestedIds N g.id = c.rules.map BaseRule.id := by
    rw [nestedIds, ← hcg, ← hN]
    dsimp only
    rw [if_neg (List.nodup_cons.mp hcn).1, if_pos rfl, List.map_map]
    rfl
  refine ht.replace hcg ⟨hcg, hcg, rfl, .inl rfl, hcn, htruthy, ?_, hcn, fun v hv => .inl hv,
    hcopies, ?_, ?_, Function.update_self .., fun arr hne => Function.update_of_ne hne .., ?_, ?_,
    fun _ => rfl, ?_, ?_, fun r hr => ?_, ?_, ?_⟩
  · exact fun v hv => ht.not_foreign hcg (.inl hv)
  · intro v hv hnot
    rcases List.mem_cons.mp hv with rfl | hr
    · exact absurd (hcg ▸ id_mem_ids) hnot
    · obtain ⟨r, hr', rfl⟩ := List.mem_map.mp hr
      exact (hout _ hnot).trans (hstaleF r hr' hnot)
  · exact fun v hv hv' => (hout v hv').trans (hkept v hv)
  · intro o ho b hb hob p
    have heq : o = b := List.inj_on_of_nodup_map (map_id_objects c ▸ hcn) ho hb hob
    refine iff_of_false (fun h => ?_) fun h => h (heq ▸ rfl)
    obtain ⟨h, hnot⟩ := Finset.mem_filter.mp h
    obtain ⟨-, hne⟩ := Finset.mem_filter.mp h
    exact (List.mem_cons.mp (object_mem_ids hb)).elim hne hnot
  · intro v hv p
    obtain ⟨hne, hnot⟩ := not_or.mp fun h => hfree v hv (List.mem_cons.mpr h)
    refine Finset.mem_filter.trans ((and_iff_left hnot).trans ?_)
    exact Finset.mem_filter.trans (and_iff_left hne)
  · exact fun arr hne _ h => Finset.mem_erase.mpr ⟨hne, h⟩
  · intro v hv _
    exact hnestc ▸ hv
  · rw [← hN]
    exact if_pos (List.mem_map_of_mem hr)
  · intro v hv
    obtain ⟨hne, hnot⟩ := not_or.mp fun h => hfree v hv (List.mem_cons.mpr h)
    rw [← hN]
    dsimp only
    rw [if_neg hnot, if_neg hne]
    exact hunnest v (mem_treeIds_mid.mpr (.inr hv)) (hfree' v hv)
  · intro v _ hnot _
    rw [hnestc]
    exact fun h => hnot (List.mem_cons_of_mem _ h)

end MagiTrickle.ChangeTracker
