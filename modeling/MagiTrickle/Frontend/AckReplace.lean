import MagiTrickle.Frontend.AckUpdates

/-!
# Acknowledged lists of rules

A saved list of rules replaces the rules of its group, in the data and in the
baseline. The rules of the baseline that it drops are forgotten if they are in the
copy of the group.
-/

namespace MagiTrickle.ChangeTracker

section Array

variable {s : Session} {c g : BaseGroup} {p : Persisted} {arr : Arr}

theorem readRules_group (hfresh : s.FreshArray arr) {a : Addr} (harr : s.heap.rules a ≠ none)
    (ps : Props) : (s.heap.withProps a ps).readRules arr = s.heap.readRules arr := by
  rw [readRules_withProps]
  refine (List.map_congr_left fun r hr => ?_).trans (List.map_id _)
  have hne : r.addr ≠ a := by
    rintro rfl
    obtain ⟨x, heq, hleaf⟩ := hfresh.leaves _ (mem_readRules hr).1
    exact harr (Option.some.inj heq ▸ hleaf)
  rw [BaseRule.setProps, if_neg hne]
  rfl

theorem arrays_fresh (hfresh : s.FreshArray arr) :
    s.heap.arrays arr = (s.heap.readRules arr).map fun r => some r.addr := by
  have hsome : ∀ e ∈ s.heap.arrays arr, ∃ a, e = some a := by
    intro e he
    obtain ⟨r, rfl, -⟩ := hfresh.leaves e he
    exact ⟨r, rfl⟩
  have hred := map_some_reduceOption hsome
  have hread := @readRules_of_map s.heap arr _ hred.symm
  rw [hread, List.map_map]
  exact hred.symm

theorem read_saved (hs : s.Inv) {cpre cpost : List BaseGroup}
    (hcur : s.heap.read s.root = cpre ++ c :: cpost) (hfresh : s.FreshArray arr) (ps : Props) :
    ((s.heap.withProps c.addr ps).withRules c.addr arr).read s.root =
      cpre ++ ⟨c.addr, ps, arr, s.heap.readRules arr⟩ :: cpost := by
  have hw := hs.whole
  have ht := hs.tracks.curTidy
  have hc : c ∈ s.heap.read s.root := hcur ▸ mem_mid.mpr (.inl rfl)
  have hrules : s.heap.rules c.addr ≠ none := by
    rw [((Reads.of_whole hw).groups c hc).1]
    exact nofun
  have hother : ∀ k ∈ cpre ++ cpost, k.addr ≠ c.addr := by
    intro k hk heq
    have hk' : k ∈ s.heap.read s.root := hcur ▸ mem_mid.mpr (.inr hk)
    have hobj := @eq_of_addr s.heap s.root hw ht ⟨k.addr, k.props⟩ ⟨c.addr, c.props⟩
      (mem_treeObjects.mpr ⟨k, hk', List.mem_cons_self⟩)
      (mem_treeObjects.mpr ⟨c, hc, List.mem_cons_self⟩) heq
    have hid : k.id = c.id := congrArg BaseRule.id hobj
    exact (treeIds_nodup_mid (hcur ▸ ht.distinct)).2.2 c.id id_mem_ids
      (hid ▸ id_mem_treeIds hk)
  have hw' : (s.heap.withProps c.addr ps).Whole s.root := hw
  have hmid := @map_setProps_mid s.heap s.root c ⟨c.addr, c.props⟩ ps hw ht cpre cpost hcur
    List.mem_cons_self
  have hmap : ∀ {l : List BaseGroup}, (∀ k ∈ l, k.addr ≠ c.addr) →
      l.map (fun k => if k.addr = c.addr
        then { k with arr := arr, rules := s.heap.readRules arr } else k) = l := by
    intro l hl
    refine (List.map_congr_left fun k hk => ?_).trans (List.map_id l)
    rw [if_neg (hl k hk)]
    rfl
  rw [read_withRules hw', read_withProps, hmid, readRules_group hfresh hrules, List.map_append,
    List.map_cons, hmap fun k hk => hother k (List.mem_append_left _ hk),
    hmap fun k hk => hother k (List.mem_append_right _ hk)]
  refine congrArg (fun k => cpre ++ k :: cpost) ?_
  have hself : (c.setProps c.addr ps).addr = c.addr := rfl
  rw [if_pos hself, BaseGroup.setProps, if_pos rfl]

def savedIndex (ix : Index) (nested : Value → List Props) (c : BaseGroup) (copy : Props)
    (names : List String) (arr : Arr) (rs : List BaseRule) : Index where
  originalObjects := rs.foldl record (Function.update
    (fun v => if v.truthy ∧ v ∈ nestedIds nested c.id then none else ix.originalObjects v)
    c.id (some copy))
  originalArrays := Function.update ix.originalArrays arr (some (rs.map fun r => .value r.id))
  dirtyObjectProps := ((ix.dirtyObjectProps.filter (·.1 ∉ c.rules.map BaseRule.id)).filter
    (·.1 ∉ rs.map BaseRule.id)).filter fun m => ¬ (m.1 = c.id ∧ m.2 ∈ names ++ ["rules"])
  dirtyArrays := (ix.dirtyArrays.erase c.arr).erase arr

/-- The rules inside the copies, with a list that was saved in the copy of the group `w`. -/
def savedNested (nested : Value → List Props) (w : Value) (rs : List BaseRule) :
    Value → List Props :=
  fun v => if v ∈ rs.map BaseRule.id then [] else Function.update
    (fun v => if v.truthy ∧ v ∈ nestedIds nested w then [] else nested v) w
      (rs.map BaseRule.props) v

theorem acknowledgeFields_eq' {a : Addr} (hrules : p.rules = some arr) :
    s.acknowledgeFields a p =
      let t := s.replaceRules a arr
      let h := t.heap.withProps a (p.assign (t.heap.props a))
      let copy := (s.index.originalObjects (s.heap.id a)).getD fun _ => .undefined
      let ix := (Index.linkRules h { t.index with
        originalObjects := Function.update t.index.originalObjects (h.id a)
          (some (p.assign (Function.update copy "id" (h.id a)))) } arr).clearArray h arr
      { t with
        heap := h
        index := Index.pruneDirtyState h t.root { ix with
          dirtyObjectProps := ix.dirtyObjectProps.filter fun m =>
            ¬ (m.1 = h.id a ∧ m.2 ∈ p.fields.map (·.1.1) ++ ["rules"]) }
        nested := Session.nestRules h
          (Function.update t.nested (h.id a) ((s.heap.readRules arr).map BaseRule.props)) arr } := by
  obtain ⟨fields, rules⟩ := p
  cases hrules
  rfl

/-- What is stored when a list of rules was saved with a group. -/
theorem acknowledgeFields_array (hs : s.Inv) (hc : c ∈ s.heap.read s.root) (hg : g ∈ s.base)
    (hcg : c.id = g.id) (hrules : p.rules = some arr) (hkeep : s.KeepsId c.addr p)
    (hfair : s.FairArray c.addr arr) :
    s.acknowledgeFields c.addr p =
      let ps := p.assign c.props
      let h := (s.heap.withProps c.addr ps).withRules c.addr arr
      let rs := s.heap.readRules arr
      { s with
        heap := h
        index := Index.pruneDirtyState h s.root
          (savedIndex s.index s.nested c (p.assign g.props) (p.fields.map (·.1.1)) arr rs)
        nested := savedNested s.nested c.id rs } := by
  have hw := hs.whole
  have ht := hs.tracks
  have hreads := Reads.of_whole hw
  have hcaddr : s.heap.rules c.addr = some c.arr := (hreads.groups c hc).1
  have hcprops : s.heap.props c.addr = c.props := (hreads.groups c hc).2
  have hid : s.heap.id c.addr = c.id := congrFun hcprops "id"
  have hrid : ∀ r ∈ c.rules, s.heap.id r.addr = r.id := fun r hr =>
    id_of_mem hw (mem_treeObjects.mpr ⟨c, hc, List.mem_cons_of_mem _ hr⟩)
  have htruthy : ∀ r ∈ c.rules, r.id.truthy := fun r hr =>
    ht.curTidy.truthy _ (rule_mem_treeIds hc hr)
  have hcopy : s.index.originalObjects c.id = some g.props := by
    rw [hcg]
    exact ht.indexed.copies ⟨g.addr, g.props⟩ (mem_treeObjects.mpr ⟨g, hg, List.mem_cons_self⟩)
  have hgself : Function.update g.props "id" c.id = g.props := by
    rw [hcg]
    exact Function.update_eq_self ..
  generalize hps : p.assign c.props = ps
  have hpid : ps "id" = c.id := by
    rw [← hps]
    exact Persisted.assign_id (hid ▸ hkeep) rfl
  generalize hh : (s.heap.withProps c.addr ps).withRules c.addr arr = h
  have hread : h.readRules arr = s.heap.readRules arr := by
    rw [← hh]
    exact readRules_group hfair.fresh (hcaddr ▸ nofun) ps
  have harrays : h.arrays arr = (s.heap.readRules arr).map fun r => some r.addr := by
    rw [← hh]
    exact arrays_fresh hfair.fresh
  have hhid : h.id c.addr = c.id := by
    rw [← hh]
    exact (congrFun (Function.update_self ..) "id").trans hpid
  have hrsid : ∀ r ∈ s.heap.readRules arr, h.id r.addr = r.id := by
    intro r hr
    rw [← hread] at hr
    exact congrFun (mem_readRules hr).2 "id"
  have hrstruthy : ∀ r ∈ s.heap.readRules arr, r.id.truthy := fun r hr => (hfair.ids r hr).1
  have hkeys : (h.arrays arr).map h.copyKey =
      (s.heap.readRules arr).map fun r => .value r.id := by
    rw [harrays]
    exact map_copyKey hrsid hrstruthy
  have hreplace : s.replaceRules c.addr arr = { s with
      heap := { s.heap with rules := Function.update s.heap.rules c.addr (some arr) }
      index := { s.index with
        originalObjects := fun v => if v.truthy ∧ v ∈ nestedIds s.nested c.id then none
          else s.index.originalObjects v
        dirtyObjectProps := s.index.dirtyObjectProps.filter (·.1 ∉ c.rules.map BaseRule.id)
        dirtyArrays := s.index.dirtyArrays.erase c.arr }
      nested := fun v => if v.truthy ∧ v ∈ nestedIds s.nested c.id then [] else s.nested v } := by
    unfold Session.replaceRules
    rw [hcaddr, Option.elim_some, Index.clearArray_eq (hreads.arrays c hc) hrid htruthy]
    dsimp only
    rw [hid, hcopy, if_pos Option.isSome_some, forgetRules_eq]
    rfl
  have hwith : ({ s.heap with rules := Function.update s.heap.rules c.addr (some arr) } : Heap).withProps
      c.addr ps = h := hh
  rw [acknowledgeFields_eq' hrules, hreplace, hid, hcopy, Option.getD_some]
  dsimp only
  rw [hcprops, hps, hwith, hhid, hgself, linkRules_eq, hread, hkeys, Session.nestRules, hread,
    foldl_nest hrstruthy, Index.clearArray_eq harrays hrsid hrstruthy]
  dsimp only
  rw [hh]
  rfl

theorem whole_saved (hs : s.Inv) (hc : c ∈ s.heap.read s.root) (hfresh : s.FreshArray arr)
    (ps : Props) : ((s.heap.withProps c.addr ps).withRules c.addr arr).Whole s.root := by
  have hw := hs.whole
  have hcaddr : s.heap.rules c.addr = some c.arr := ((Reads.of_whole hw).groups c hc).1
  have hleaf : ∀ r, s.heap.rules r = none →
      ((s.heap.withProps c.addr ps).withRules c.addr arr).rules r = none := by
    intro r hr
    have hne : r ≠ c.addr := by
      rintro rfl
      rw [hcaddr] at hr
      cases hr
    exact (Function.update_of_ne hne ..).trans hr
  intro e he
  obtain ⟨a, arr', rfl, harr', hall⟩ := hw e he
  by_cases heq : a = c.addr
  · refine ⟨a, arr, rfl, ?_, fun e' he' => ?_⟩
    · rw [heq]
      exact Function.update_self ..
    · obtain ⟨r, rfl, hr⟩ := hfresh.leaves e' he'
      exact ⟨r, rfl, hleaf r hr⟩
  · refine ⟨a, arr', rfl, (Function.update_of_ne heq ..).trans harr', fun e' he' => ?_⟩
    obtain ⟨r, rfl, hr⟩ := hall e' he'
    exact ⟨r, rfl, hleaf r hr⟩

theorem not_foreign_saved {cpre cpost pre post : List BaseGroup} (hs : s.Inv)
    (hcur : s.heap.read s.root = cpre ++ c :: cpost) (hbase : s.base = pre ++ g :: post)
    (hcg : c.id = g.id) {v : Value} (hv : ¬ s.Taken c.id v) :
    ¬ Foreign (cpre ++ cpost) (pre ++ post) s.nested v := by
  have hcdis := (treeIds_nodup_mid (hcur ▸ hs.tracks.curTidy.distinct)).2.2 c.id id_mem_ids
  have hgdis := (treeIds_nodup_mid (hbase ▸ hs.tracks.baseTidy.distinct)).2.2 g.id id_mem_ids
  have hgroup : ∀ k ∈ pre ++ post, k ∈ s.base ∧ k.id ≠ c.id := by
    intro k hk
    refine ⟨hbase ▸ mem_mid.mpr (.inr hk), fun heq => hgdis ?_⟩
    exact hcg ▸ heq ▸ id_mem_treeIds hk
  rintro (hcs | hgs | ⟨k, hk, hin⟩)
  · obtain ⟨k, hk, hvk⟩ := mem_treeIds.mp hcs
    refine hv (.inl ⟨k, hcur ▸ mem_mid.mpr (.inr hk), fun heq => hcdis ?_, hvk⟩)
    exact heq ▸ id_mem_treeIds hk
  · obtain ⟨k, hk, hvk⟩ := mem_treeIds.mp hgs
    exact hv (.inr ⟨k, (hgroup k hk).1, (hgroup k hk).2, .inl hvk⟩)
  · exact hv (.inr ⟨k, (hgroup k hk).1, (hgroup k hk).2, .inr hin⟩)

/-- The saved rules have ids of their own. -/
structure OwnRules (cs gs : List BaseGroup) (nested : Value → List Props) (w : Value)
    (rs : List BaseRule) : Prop where
  distinct : (w :: rs.map BaseRule.id).Nodup
  truthy : ∀ r ∈ rs, r.id.truthy
  notForeign : ∀ r ∈ rs, ¬ Foreign cs gs nested r.id

section Saved

variable {root : Arr} {cpre cpost pre post : List BaseGroup} {ix : Index}
  {nested : Value → List Props} {copy : Props} {names : List String} {rs : List BaseRule}

theorem savedIndex_copies (hrs : OwnRules (cpre ++ cpost) (pre ++ post) nested c.id rs)
    {a : Addr} (hcopy : copy "id" = c.id) :
    ∀ b ∈ (⟨a, copy, arr, rs⟩ : BaseGroup).objects,
      (savedIndex ix nested c copy names arr rs).originalObjects b.id = some b.props := by
  obtain ⟨hcrs, hrsn⟩ := List.nodup_cons.mp hrs.distinct
  obtain ⟨hcopies, hout⟩ := foldl_record hrsn hrs.truthy (Function.update
    (fun v => if v.truthy ∧ v ∈ nestedIds nested c.id then none else ix.originalObjects v)
    c.id (some copy))
  intro b hb
  rcases List.mem_cons.mp hb with rfl | hb
  · have hbid : (⟨a, copy⟩ : BaseRule).id = c.id := hcopy
    rw [hbid]
    exact (hout _ hcrs).trans (Function.update_self ..)
  · exact hcopies b hb

theorem savedIndex_forgets (hrs : OwnRules (cpre ++ cpost) (pre ++ post) nested c.id rs)
    {v : Value} (hv : v ∉ c.id :: rs.map BaseRule.id) :
    (savedIndex ix nested c copy names arr rs).originalObjects v =
      if v.truthy ∧ v ∈ nestedIds nested c.id then none else ix.originalObjects v := by
  obtain ⟨hne, hout⟩ := not_or.mp fun h => hv (List.mem_cons.mpr h)
  obtain ⟨-, hrsn⟩ := List.nodup_cons.mp hrs.distinct
  refine ((foldl_record hrsn hrs.truthy _).2 v hout).trans ?_
  exact Function.update_of_ne hne ..

theorem savedNested_forgets {v : Value} (hv : v ∉ c.id :: rs.map BaseRule.id) :
    savedNested nested c.id rs v =
      if v.truthy ∧ v ∈ nestedIds nested c.id then [] else nested v := by
  obtain ⟨hne, hout⟩ := not_or.mp fun h => hv (List.mem_cons.mpr h)
  rw [savedNested, if_neg hout, Function.update_of_ne hne]

theorem nestedIds_savedNested (hrs : OwnRules (cpre ++ cpost) (pre ++ post) nested c.id rs) :
    nestedIds (savedNested nested c.id rs) c.id = rs.map BaseRule.id := by
  rw [nestedIds, savedNested, if_neg (List.nodup_cons.mp hrs.distinct).1, Function.update_self,
    List.map_map]
  rfl

theorem savedIndex_fields (hrs : OwnRules (cpre ++ cpost) (pre ++ post) nested c.id rs)
    (hn : c.ids.Nodup) (hkeep : p.assign c.props "id" = c.id) (hkeep' : p.assign g.props "id" = c.id)
    (hmarked : ∀ q, (c.id, q) ∈ ix.dirtyObjectProps ↔ c.props q ≠ g.props q)
    (hmark : (c.id, "rules") ∉ ix.dirtyObjectProps) :
    ∀ o ∈ (⟨c.addr, p.assign c.props, arr, rs⟩ : BaseGroup).objects,
      ∀ b ∈ (⟨g.addr, p.assign g.props, arr, rs⟩ : BaseGroup).objects, o.id = b.id → ∀ q,
        (b.id, q) ∈
            (savedIndex ix nested c copy (p.fields.map (·.1.1)) arr rs).dirtyObjectProps ↔
          o.props q ≠ b.props q := by
  obtain ⟨hcrs, hrsn⟩ := List.nodup_cons.mp hrs.distinct
  have hcrules : c.id ∉ c.rules.map BaseRule.id := (List.nodup_cons.mp hn).1
  intro o ho b hb hob q
  rcases List.mem_cons.mp ho with rfl | ho <;> rcases List.mem_cons.mp hb with rfl | hb
  · -- the group itself: a field that was not saved is marked as before
    have hbid : (⟨g.addr, p.assign g.props⟩ : BaseRule).id = c.id := hkeep'
    have hrules : q = "rules" → c.props q = g.props q := by
      rintro rfl
      exact not_ne_iff.mp fun h => hmark ((hmarked "rules").mpr h)
    rw [hbid, Persisted.assign_ne_iff]
    simp only [savedIndex, Finset.mem_filter, hmarked q, hcrs, hcrules, not_false_eq_true,
      and_true, true_and, List.mem_append, List.mem_singleton, not_or]
    exact and_congr_right fun hne => and_iff_left fun h => hne (hrules h)
  · have heq : b.id = c.id := hob.symm.trans hkeep
    exact absurd (List.mem_map.mpr ⟨b, hb, heq⟩) hcrs
  · have heq : o.id = c.id := hob.trans hkeep'
    exact absurd (List.mem_map.mpr ⟨o, ho, heq⟩) hcrs
  · have heq : o = b := List.inj_on_of_nodup_map hrsn ho hb hob
    refine iff_of_false (fun h => ?_) fun h => h (heq ▸ rfl)
    obtain ⟨h, -⟩ := Finset.mem_filter.mp h
    exact (Finset.mem_filter.mp h).2 (List.mem_map_of_mem hb)

/-- A saved list is a change of its group. -/
theorem Tracks.saveRules (ht : Tracks root (cpre ++ c :: cpost) (pre ++ g :: post) ix nested)
    (hcg : c.id = g.id) (hrs : OwnRules (cpre ++ cpost) (pre ++ post) nested c.id rs)
    (hkeep : p.assign c.props "id" = c.id) (hkeep' : p.assign g.props "id" = c.id)
    (hroot : arr ≠ root) (huntracked : ix.originalArrays arr = none)
    (hout : arr ∉ (cpre ++ cpost).map BaseGroup.arr)
    (hstale : ∀ r ∈ g.rules, r.id ∈ nestedIds nested g.id ∨ r.id ∈ rs.map BaseRule.id)
    (hmark : ∀ v, (v, "rules") ∉ ix.dirtyObjectProps) :
    Tracks root (cpre ++ ⟨c.addr, p.assign c.props, arr, rs⟩ :: cpost)
      (pre ++ ⟨g.addr, p.assign g.props, arr, rs⟩ :: post)
      (savedIndex ix nested c (p.assign g.props) (p.fields.map (·.1.1)) arr rs)
      (savedNested nested c.id rs) := by
  have hc : c ∈ cpre ++ c :: cpost := mem_mid.mpr (.inl rfl)
  have hg : g ∈ pre ++ g :: post := mem_mid.mpr (.inl rfl)
  have hcids : (⟨c.addr, p.assign c.props, arr, rs⟩ : BaseGroup).ids =
      c.id :: rs.map BaseRule.id := congrArg (· :: rs.map BaseRule.id) hkeep
  have hgids : (⟨g.addr, p.assign g.props, arr, rs⟩ : BaseGroup).ids =
      c.id :: rs.map BaseRule.id := congrArg (· :: rs.map BaseRule.id) hkeep'
  have hmarked := ht.marked.fields ⟨c.addr, c.props⟩
    (mem_treeObjects.mpr ⟨c, hc, List.mem_cons_self⟩) ⟨g.addr, g.props⟩
    (mem_treeObjects.mpr ⟨g, hg, List.mem_cons_self⟩) hcg
  have hgc : (⟨g.addr, g.props⟩ : BaseRule).id = c.id := hcg.symm
  rw [hgc] at hmarked
  have hnew : ∀ v ∈ c.id :: rs.map BaseRule.id,
      ¬ Foreign (cpre ++ cpost) (pre ++ post) nested v := by
    intro v hv
    rcases List.mem_cons.mp hv with rfl | hv
    · exact ht.not_foreign hcg (.inl id_mem_ids)
    · obtain ⟨r, hr, rfl⟩ := List.mem_map.mp hv
      exact hrs.notForeign r hr
  have hother : ∀ v ∈ treeIds (pre ++ post), v ∉ c.id :: rs.map BaseRule.id :=
    fun v hv h => hnew v h (.inr (.inl hv))
  have hfree : ∀ v ∈ treeIds (pre ++ post), v ∉ c.ids := fun v hv h =>
    ht.not_foreign hcg (.inl h) (.inr (.inl hv))
  have hfree' : ∀ v ∈ treeIds (pre ++ post), v ∉ g.ids := fun v hv h =>
    ht.not_foreign hcg (.inr h) (.inr (.inl hv))
  refine ht.replace hcg ⟨hkeep.trans hcg, hkeep'.trans hcg, rfl, .inr ⟨hroot, huntracked, hout⟩,
    hcids ▸ hrs.distinct, ?_, hcids ▸ hnew, hgids ▸ hrs.distinct, ?_,
    savedIndex_copies hrs hkeep', ?_, ?_, Function.update_self ..,
    fun arr' hne => Function.update_of_ne hne ..,
    savedIndex_fields hrs (treeIds_nodup_mid ht.curTidy.distinct).1 hkeep hkeep' hmarked (hmark _),
    ?_, fun _ => rfl, ?_, ?_, fun r hr => if_pos (List.mem_map_of_mem hr), ?_, ?_⟩
  · rw [hcids]
    refine List.forall_mem_cons.mpr ⟨ht.curTidy.truthy _ (id_mem_treeIds hc), fun v hv => ?_⟩
    obtain ⟨r, hr, rfl⟩ := List.mem_map.mp hv
    exact hrs.truthy r hr
  · rw [hcids, hgids]
    exact fun v hv => .inl hv
  · intro v hv hnot
    rw [hgids] at hnot
    obtain ⟨hne, hnotrs⟩ := not_or.mp fun h => hnot (List.mem_cons.mpr h)
    obtain ⟨r, hr, rfl⟩ := List.mem_map.mp ((List.mem_cons.mp hv).resolve_left (hcg ▸ hne))
    have hin := (hstale r hr).resolve_right hnotrs
    rw [savedIndex_forgets hrs hnot, hcg]
    exact if_pos ⟨ht.baseTidy.truthy _ (rule_mem_treeIds hg hr), hin⟩
  · intro v hv hnot
    rw [hgids] at hnot
    rw [savedIndex_forgets hrs hnot, hcg]
    have hforgets : Forgets nested g.id none ix.originalObjects fun v =>
        if v.truthy ∧ v ∈ nestedIds nested g.id then none else ix.originalObjects v :=
      fun _ _ => rfl
    exact ht.forgets_copy hg hforgets hv
  · intro v hv q
    obtain ⟨hne, hnotc⟩ := not_or.mp fun h => hfree v hv (List.mem_cons.mpr h)
    have hnotrs : v ∉ rs.map BaseRule.id := fun h => hother v hv (List.mem_cons_of_mem _ h)
    simp only [savedIndex, Finset.mem_filter, hne, hnotc, hnotrs, false_and, not_false_eq_true,
      and_true]
  · exact fun arr' hne hne' h => Finset.mem_erase.mpr ⟨hne', Finset.mem_erase.mpr ⟨hne, h⟩⟩
  · intro v hv _
    rw [← hcg, nestedIds_savedNested hrs] at hv
    exact hv
  · intro v hv
    have hforgets : Forgets nested g.id [] nested fun v =>
        if v.truthy ∧ v ∈ nestedIds nested g.id then [] else nested v := fun _ _ => rfl
    rw [savedNested_forgets (hother v hv), hcg]
    exact ht.forgets_other hg hforgets (mem_treeIds_mid.mpr (.inr hv)) (hfree' v hv)
  · intro v _ hnot _ hin
    rw [← hcg, nestedIds_savedNested hrs] at hin
    rw [hgids] at hnot
    exact hnot (List.mem_cons_of_mem _ hin)

end Saved

theorem Session.Inv.updateArray (hs : s.Inv) (hc : c ∈ s.heap.read s.root)
    {pre post : List BaseGroup} (hbase : s.base = pre ++ g :: post) (hcg : c.id = g.id)
    (hrules : p.rules = some arr) (hkeep : s.KeepsId c.addr p) (hfair : s.FairArray c.addr arr)
    (hstale : ∀ r ∈ g.rules, r.id ∈ nestedIds s.nested g.id ∨
      r.id ∈ (s.heap.readRules arr).map BaseRule.id)
    (hmark : ∀ v, (v, "rules") ∉ s.index.dirtyObjectProps) :
    Session.Inv { s.acknowledgeFields c.addr p with
      base := pre ++ ⟨g.addr, p.assign g.props, arr, s.heap.readRules arr⟩ :: post } := by
  have hw := hs.whole
  have ht := hs.tracks
  have hg : g ∈ s.base := hbase ▸ mem_mid.mpr (.inl rfl)
  obtain ⟨cpre, cpost, hcur⟩ := List.append_of_mem hc
  have hid : s.heap.id c.addr = c.id :=
    id_of_mem hw (mem_treeObjects.mpr ⟨c, hc, List.mem_cons_self⟩)
  have hwhole := whole_saved hs hc hfair.fresh (p.assign c.props)
  have hrs : OwnRules (cpre ++ cpost) (pre ++ post) s.nested c.id (s.heap.readRules arr) := by
    refine ⟨hid ▸ hfair.distinct, fun r hr => (hfair.ids r hr).1, fun r hr => ?_⟩
    exact not_foreign_saved hs hcur hbase hcg (hid ▸ (hfair.ids r hr).2)
  -- nobody holds the new array
  have hdead := hfair.fresh.dead
  rw [liveArrays_eq hw, hcur] at hdead
  have hout : arr ∉ (cpre ++ cpost).map BaseGroup.arr := by
    intro hmem
    obtain ⟨k, hk, heq⟩ := List.mem_map.mp hmem
    exact hdead (List.mem_cons_of_mem _ (List.mem_map.mpr ⟨k, mem_mid.mpr (.inr hk), heq⟩))
  rw [acknowledgeFields_array hs hc hg hcg hrules hkeep hfair]
  refine ⟨hwhole, Tracks.prune hwhole ?_⟩
  dsimp only
  rw [read_saved hs hcur hfair.fresh (p.assign c.props)]
  rw [hcur, hbase] at ht
  exact ht.saveRules hcg hrs (Persisted.assign_id (hid ▸ hkeep) rfl)
    (Persisted.assign_id (hid ▸ hkeep) hcg.symm) (fun heq => hdead (heq ▸ List.mem_cons_self))
    hfair.fresh.untracked hout hstale hmark

end Array

end MagiTrickle.ChangeTracker
