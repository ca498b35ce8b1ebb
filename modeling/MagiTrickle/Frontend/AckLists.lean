import MagiTrickle.Frontend.AckEdits

/-!
# Acknowledged insertions and removals

A new item enters the baseline where `acknowledgeNewItem` puts it, a deleted one
leaves it. A fair acknowledgement keeps the invariant of the tracker.
-/

namespace MagiTrickle.ChangeTracker

/-! ## Rules of the baseline -/

section Rules

variable {root : Arr} {cur base : List BaseGroup} {ix ix' : Index} {nested nested' : Value → List Props}

theorem Tracks.group_of_arr (ht : Tracks root cur base ix nested) {c : BaseGroup} (hc : c ∈ cur)
    {keys : List Key} (h : ix.originalArrays c.arr = some keys) :
    ∃ g ∈ base, c.id = g.id ∧ g.arr = c.arr ∧ keys = g.rules.map fun r => .value r.id := by
  by_cases hbase : c.id ∈ treeIds base
  · obtain ⟨g, hg, hid, harr⟩ := ht.aligned.group c hc hbase
    rw [← harr, ht.indexed.ruleIds g hg] at h
    exact ⟨g, hg, hid.symm, harr, (Option.some.inj h).symm⟩
  · rw [ht.indexed.untracked c hc hbase] at h
    cases h

/-- The group of the baseline with the array of the data's group gets other rules: rules it had,
and rules of the data that are not marked. -/
theorem Tracks.setRules {cpre cpost pre post : List BaseGroup} {c g : BaseGroup}
    (ht : Tracks root (cpre ++ c :: cpost) (pre ++ g :: post) ix nested) (hid : c.id = g.id)
    {rs : List BaseRule} (hdistinct : (g.id :: rs.map BaseRule.id).Nodup)
    (hrs : ∀ r ∈ rs, r ∈ g.rules ∨ (r ∈ c.rules ∧
      ix'.originalObjects r.id = some r.props ∧ (∀ p, (r.id, p) ∉ ix'.dirtyObjectProps) ∧
      nested' r.id = []))
    (hgone : ∀ v ∈ g.rules.map BaseRule.id, v ∉ rs.map BaseRule.id →
      v ∉ treeIds (cpre ++ c :: cpost) ∧ ix'.originalObjects v = none)
    (hobjects : ∀ v, (v ∈ g.rules.map BaseRule.id ↔ v ∈ rs.map BaseRule.id) →
      ix'.originalObjects v = ix.originalObjects v)
    (hkeys : ix'.originalArrays = Function.update ix.originalArrays g.arr
      (some (rs.map fun r => .value r.id)))
    (hmarks : ∀ v ∈ treeIds (pre ++ g :: post),
      (v ∈ g.rules.map BaseRule.id → v ∈ rs.map BaseRule.id) → ∀ p,
        (v, p) ∈ ix'.dirtyObjectProps ↔ (v, p) ∈ ix.dirtyObjectProps)
    (hclean : g.arr ∉ ix'.dirtyArrays → c.rules.map BaseRule.id = rs.map BaseRule.id)
    (hother : ∀ arr, arr ≠ g.arr → arr ∈ ix.dirtyArrays → arr ∈ ix'.dirtyArrays)
    (hnested : ∀ v ∈ treeIds (pre ++ g :: post),
      (v ∈ g.rules.map BaseRule.id → v ∈ rs.map BaseRule.id) → nested' v = nested v) :
    Tracks root (cpre ++ c :: cpost) (pre ++ { g with rules := rs } :: post) ix' nested' := by
  have hmc : c ∈ cpre ++ c :: cpost := mem_mid.mpr (.inl rfl)
  have hmg : g ∈ pre ++ g :: post := mem_mid.mpr (.inl rfl)
  have harr : c.arr = g.arr := ht.arr_eq hmc hmg hid
  obtain ⟨hgn, -, hgdis⟩ := treeIds_nodup_mid ht.baseTidy.distinct
  have hgid : g.id ∉ g.rules.map BaseRule.id := (List.nodup_cons.mp hgn).1
  have hbase : ∀ {v}, v ∈ g.ids → v ∈ treeIds (pre ++ g :: post) :=
    fun h => mem_treeIds_mid.mpr (.inl h)
  -- an id of another group of the baseline is none of the rules
  have hother' : ∀ v ∈ treeIds (pre ++ post), v ∉ g.rules.map BaseRule.id :=
    fun v hv h => hgdis v (List.mem_cons_of_mem _ h) hv
  have hnestg : nested' g.id = nested g.id := hnested g.id (hbase id_mem_ids) fun h => absurd h hgid
  have hnestOwn : ∀ v ∈ nestedIds nested' g.id, v ∈ treeIds (pre ++ g :: post) →
      v ∈ g.rules.map BaseRule.id := by
    intro v hv
    rw [nestedIds, hnestg] at hv
    exact ht.nests.own g hmg v hv
  refine ht.replace hid ⟨hid, rfl, harr, .inl rfl, ?_, ?_, ?_, hdistinct, ?_, ?_, ?_, ?_, ?_,
    ?_, ?_, ?_, ?_, ?_, ?_, ?_, ?_, ?_⟩
  · exact (treeIds_nodup_mid ht.curTidy.distinct).1
  · exact fun v hv => ht.curTidy.truthy v (mem_treeIds_mid.mpr (.inl hv))
  · exact fun v hv => ht.not_foreign hid (.inl hv)
  · intro v hv
    rcases mem_ids.mp hv with rfl | ⟨r, hr, rfl⟩
    · exact .inr id_mem_ids
    · rcases hrs r hr with hr | ⟨hr, -⟩
      · exact .inr (rule_mem_ids hr)
      · exact .inl (rule_mem_ids hr)
  · intro b hb
    rcases List.mem_cons.mp hb with rfl | hr
    · have hself : ix'.originalObjects g.id = some g.props := by
        rw [hobjects _ (iff_of_false hgid (List.nodup_cons.mp hdistinct).1)]
        exact ht.indexed.copies ⟨g.addr, g.props⟩
          (mem_treeObjects_mid.mpr (.inl List.mem_cons_self))
      exact hself
    · rcases hrs b hr with hin | ⟨-, hnew, -⟩
      · rw [hobjects _ (iff_of_true (List.mem_map_of_mem hin) (List.mem_map_of_mem hr))]
        exact ht.indexed.copies b (mem_treeObjects_mid.mpr (.inl (List.mem_cons_of_mem _ hin)))
      · exact hnew
  · intro v hv hnot
    obtain ⟨hne, hout⟩ := not_or.mp fun h => hnot (List.mem_cons.mpr h)
    exact (hgone v ((List.mem_cons.mp hv).resolve_left hne) hout).2
  · intro v hv hv'
    exact hobjects v (iff_of_false (fun h => hv (List.mem_cons_of_mem _ h))
      fun h => hv' (List.mem_cons_of_mem _ h))
  · rw [hkeys, Function.update_self]
  · intro arr hne
    rw [hkeys, Function.update_of_ne hne]
  · intro o ho b hb hob p
    have hfields : ∀ b ∈ g.objects, o.id = b.id →
        (b.id ∈ g.rules.map BaseRule.id → b.id ∈ rs.map BaseRule.id) →
        ((b.id, p) ∈ ix'.dirtyObjectProps ↔ o.props p ≠ b.props p) := by
      intro b hb hob hstay
      rw [hmarks b.id (hbase (object_mem_ids hb)) hstay]
      exact ht.marked.fields o (mem_treeObjects_mid.mpr (.inl ho)) b
        (mem_treeObjects_mid.mpr (.inl hb)) hob p
    rcases List.mem_cons.mp hb with rfl | hr
    · exact hfields _ List.mem_cons_self hob fun h => absurd h hgid
    · rcases hrs b hr with hin | ⟨hin, -, hclear, -⟩
      · exact hfields b (List.mem_cons_of_mem _ hin) hob fun _ => List.mem_map_of_mem hr
      · have heq : o = b := eq_of_id ht.curTidy.distinct (mem_treeObjects_mid.mpr (.inl ho))
          (mem_treeObjects_mid.mpr (.inl (List.mem_cons_of_mem _ hin))) hob
        exact iff_of_false (hclear p) fun h => h (heq ▸ rfl)
  · intro v hv p
    exact hmarks v (mem_treeIds_mid.mpr (.inr hv)) (fun h => absurd h (hother' v hv)) p
  · exact fun h => hclean (harr ▸ h)
  · exact fun arr hne _ h => hother arr (harr ▸ hne) h
  · intro v hv hmem
    rcases hmem with hmem | hmem
    · refine (List.mem_cons.mp hmem).resolve_left ?_
      rintro rfl
      exact hgid (hnestOwn _ hv (hbase id_mem_ids))
    · have hrule := hnestOwn v hv (mem_treeIds_mid.mpr (.inr hmem))
      exact absurd hrule (hother' v hmem)
  · intro r hr
    rcases hrs r hr with hin | ⟨-, -, -, hleaf⟩
    · rw [hnested r.id (hbase (rule_mem_ids hin)) fun _ => List.mem_map_of_mem hr]
      exact ht.nests.leaf g hmg r hin
    · exact hleaf
  · exact fun v hv => hnested v (mem_treeIds_mid.mpr (.inr hv)) fun h => absurd h (hother' v hv)
  · intro v hv hnot hgs hin
    obtain ⟨hne, hout⟩ := not_or.mp fun h => hnot (List.mem_cons.mpr h)
    have hcur : v ∈ treeIds (cpre ++ c :: cpost) := mem_treeIds_mid.mpr hv
    have hfree : v ∉ g.ids := by
      intro h
      exact (hgone v ((List.mem_cons.mp h).resolve_left hne) hout).1 hcur
    have hnb : v ∉ treeIds (pre ++ g :: post) := fun h =>
      (mem_treeIds_mid.mp h).elim hfree hgs
    rw [nestedIds, hnestg] at hin
    exact ht.nests.fresh v hcur hnb g hmg hin

theorem onRulesOf_eq (hb : Tidy root base) {g : BaseGroup} (hg : g ∈ base)
    (f : List BaseRule → List BaseRule) : ∃ pre post, base = pre ++ g :: post ∧
      onRulesOf base g.arr f = pre ++ { g with rules := f g.rules } :: post :=
  map_ite_mid (List.nodup_cons.mp hb.arrays).2 hg fun g => { g with rules := f g.rules }

/-- Of an array that is not tracked, no group of the baseline is changed. -/
theorem onRulesOf_of_none (ht : Indexed root cur base ix) {arr : Arr}
    (h : ix.originalArrays arr = none) (f : List BaseRule → List BaseRule) :
    onRulesOf base arr f = base := by
  refine @map_ite_of_not_mem _ _ _ BaseGroup.arr base arr (fun hmem => ?_) fun g =>
    { g with rules := f g.rules }
  obtain ⟨g, hg, rfl⟩ := List.mem_map.mp hmem
  rw [ht.ruleIds g hg] at h
  cases h

end Rules

/-! ## New items -/

theorem acknowledgeNewItem_eq {s : Session} {arr : Arr} {item : Addr} (start : Bool)
    {keys : List Key} (horig : s.index.originalArrays arr = some keys)
    (ht : (s.heap.id item).truthy) :
    s.acknowledgeNewItem arr item start = { s with
      index := Index.checkArrayStructure s.heap
        ({ s.index.linkGroup s.heap item with
          originalArrays := Function.update (s.index.linkGroup s.heap item).originalArrays arr
            (some (insertAt start (.value (s.heap.id item)) keys)) }.clearCopy
          (s.heap.props item) (s.heap.copyRules item)) arr
      nested := Session.nestObject s.heap s.nested item } := by
  unfold Session.acknowledgeNewItem
  rw [horig]
  dsimp only
  rw [if_neg (not_not.mpr ht)]
  rfl

theorem Session.Inv.newGroup {s : Session} (hs : s.Inv) {item : Addr} (start : Bool)
    (hmem : some item ∈ s.heap.arrays s.root) (hout : s.heap.id item ∉ treeIds s.base) :
    (s.step (.newGroup item start)).Inv := by
  have hw := hs.whole
  have ht := hs.tracks
  obtain ⟨c, hc, rfl⟩ := group_of_element hw hmem
  have hid : s.heap.id c.addr = c.id :=
    id_of_mem hw (mem_treeObjects.mpr ⟨c, hc, List.mem_cons_self⟩)
  have htruthy : ∀ v ∈ c.ids, v.truthy := fun v hv =>
    ht.curTidy.truthy v (mem_treeIds.mpr ⟨c, hc, hv⟩)
  have hcopy : s.heap.copyRules c.addr = c.rules.map BaseRule.props := by
    obtain ⟨-, harr, -, hrules⟩ := mem_read hc
    rw [Heap.copyRules, harr, Option.elim_some, hrules]
  have hmarks : ∀ ix : Index, ix.clearCopy (s.heap.props c.addr) (s.heap.copyRules c.addr) =
      { ix with dirtyObjectProps := ix.dirtyObjectProps.filter (·.1 ∉ c.ids) } := by
    intro ix
    rw [Index.clearCopy_eq hid (htruthy _ id_mem_ids), hcopy, List.map_map]
    · rfl
    · intro r hr
      obtain ⟨r', hr', rfl⟩ := List.mem_map.mp (hcopy ▸ hr)
      exact htruthy _ (rule_mem_ids hr')
  rw [hid] at hout
  change Session.Inv { s.acknowledgeNewItem s.root c.addr start with
    base := (s.heap.readGroup c.addr).elim s.base fun g => insertAt start g s.base }
  rw [acknowledgeNewItem_eq start ht.indexed.rootIds (hid ▸ htruthy _ id_mem_ids),
    readGroup_of_mem hc, Option.elim_some, hmarks, linkGroup_eq hw ht.curTidy hc, hid]
  refine ⟨hw, ?_⟩
  dsimp only
  generalize hix : Index.mk _ _ _ _ = ix
  have hrootIds : ix.originalArrays s.root =
      some ((insertAt start c s.base).map fun g => .value g.id) := by
    rw [← hix, map_insertAt]
    exact Function.update_self ..
  obtain ⟨hobjects, horiginals, hprops⟩ := checkArrayStructure_frame ix s.heap s.root
  refine ht.addGroup ⟨hc, hout, ?_, horiginals ▸ hrootIds, ?_, fun arr hne hne' => ?_,
    fun w p => ?_, fun hclean => ?_, fun arr hne harr => ?_, fun w => ?_⟩
  · rw [hobjects, ← hix]
  · rw [horiginals, ← hix]
    dsimp only
    rw [Function.update_of_ne (ht.curTidy.arr_ne_root hc), Function.update_self]
  · rw [horiginals, ← hix]
    dsimp only
    rw [Function.update_of_ne hne, Function.update_of_ne hne']
  · rw [hprops, ← hix]
    exact Finset.mem_filter
  · refine @check_self ix s.heap s.root _ _ ?_ ?_ hclean
    · rw [hrootIds, List.map_map]
      rfl
    · rw [keys_root hw ht.curTidy.truthy, List.map_map]
      rfl
  · refine (check_other hne).mpr ?_
    rw [← hix]
    exact harr
  · rw [nestObject_eq hw ht.curTidy hc]

theorem acknowledgeNewRule_eq {s : Session} (hs : s.Inv) {c : BaseGroup}
    (hc : c ∈ s.heap.read s.root) {r : BaseRule} (hr : r ∈ c.rules) {arr : Arr} (start : Bool)
    {keys : List Key} (horig : s.index.originalArrays arr = some keys) :
    s.acknowledgeNewItem arr r.addr start = { s with
      index := Index.checkArrayStructure s.heap { s.index with
        originalObjects := Function.update s.index.originalObjects r.id (some r.props)
        originalArrays := Function.update s.index.originalArrays arr
          (some (insertAt start (.value r.id) keys))
        dirtyObjectProps := s.index.dirtyObjectProps.filter (·.1 ≠ r.id) } arr
      nested := Function.update s.nested r.id [] } := by
  have hro : r ∈ treeObjects (s.heap.read s.root) :=
    mem_treeObjects.mpr ⟨c, hc, List.mem_cons_of_mem _ hr⟩
  have hid : s.heap.id r.addr = r.id := id_of_mem hs.whole hro
  have hprops : s.heap.props r.addr = r.props := props_of_mem hs.whole hro
  have hleaf : s.heap.rules r.addr = none := ((Reads.of_whole hs.whole).rules c hc r hr).1
  have htruthy : r.id.truthy := hs.tracks.curTidy.truthy r.id (object_mem_treeIds hro)
  have hlink : s.index.linkGroup s.heap r.addr = { s.index with
      originalObjects := Function.update s.index.originalObjects r.id (some r.props) } := by
    unfold Index.linkGroup
    rw [hleaf]
    dsimp only
    rw [Index.indexObject, hid, if_pos htruthy, hprops]
  have hnest : Session.nestObject s.heap s.nested r.addr = Function.update s.nested r.id [] := by
    unfold Session.nestObject
    rw [hleaf]
    dsimp only
    rw [hid, Session.nest, if_pos htruthy]
  have hmarks : ∀ ix : Index, ix.clearCopy (s.heap.props r.addr) (s.heap.copyRules r.addr) =
      { ix with dirtyObjectProps := ix.dirtyObjectProps.filter (·.1 ≠ r.id) } := by
    intro ix
    rw [Heap.copyRules, hleaf, hprops]
    exact if_pos htruthy
  rw [acknowledgeNewItem_eq start horig (hid ▸ htruthy), hmarks, hlink, hnest, hid]

theorem Session.Inv.newRule {s : Session} (hs : s.Inv) {c : BaseGroup}
    (hc : c ∈ s.heap.read s.root) {item : Addr} (start : Bool)
    (hmem : some item ∈ s.heap.arrays c.arr) (hout : s.heap.id item ∉ treeIds s.base) :
    Session.Inv { s.acknowledgeNewItem c.arr item start with
      base := onRulesOf s.base c.arr (insertAt start ⟨item, s.heap.props item⟩) } := by
  have hw := hs.whole
  have ht := hs.tracks
  obtain ⟨r, hr, rfl⟩ := rule_of_element hw hc hmem
  have hro : r ∈ treeObjects (s.heap.read s.root) :=
    mem_treeObjects.mpr ⟨c, hc, List.mem_cons_of_mem _ hr⟩
  have hid : s.heap.id r.addr = r.id := id_of_mem hw hro
  rw [hid] at hout
  rw [props_of_mem hw hro]
  cases horig : s.index.originalArrays c.arr with
  | none =>
    have hsame : s.acknowledgeNewItem c.arr r.addr start = s := by
      unfold Session.acknowledgeNewItem
      rw [horig]
    rw [hsame, onRulesOf_of_none ht.indexed horig]
    exact hs
  | some keys =>
    obtain ⟨g, hg, hcg, harr, rfl⟩ := ht.group_of_arr hc horig
    rw [← harr] at horig ⊢
    obtain ⟨pre, post, hbase, hnew⟩ := onRulesOf_eq ht.baseTidy hg (insertAt start r)
    obtain ⟨cpre, cpost, hcur⟩ := List.append_of_mem hc
    rw [acknowledgeNewRule_eq hs hc hr start horig]
    refine ⟨hw, ?_⟩
    dsimp only
    generalize hix : Index.mk _ _ _ _ = ix
    obtain ⟨hobjects, horiginals, hprops'⟩ := checkArrayStructure_frame ix s.heap g.arr
    rw [hbase] at hout
    have hne : ∀ v ∈ treeIds (pre ++ g :: post), v ≠ r.id := fun v hv heq => hout (heq ▸ hv)
    have hrg : r.id ∉ g.rules.map BaseRule.id := fun h =>
      hout (mem_treeIds_mid.mpr (.inl (List.mem_cons_of_mem _ h)))
    have hmem : ∀ v, v ∈ (insertAt start r g.rules).map BaseRule.id ↔
        v = r.id ∨ v ∈ g.rules.map BaseRule.id := by
      intro v
      rw [map_insertAt]
      exact mem_insertAt
    have hkeys : ix.originalArrays g.arr =
        some ((insertAt start r g.rules).map fun r => .value r.id) := by
      rw [← hix, map_insertAt]
      exact Function.update_self ..
    have hclean : g.arr ∉ (ix.checkArrayStructure s.heap g.arr).dirtyArrays →
        c.rules.map BaseRule.id = (insertAt start r g.rules).map BaseRule.id := by
      refine @check_self ix s.heap g.arr _ _ ?_ ?_
      · rw [hkeys, List.map_map]
        rfl
      · rw [harr, keys_rules hw ht.curTidy.truthy hc, List.map_map]
        rfl
    rw [hcur, hbase] at ht
    rw [hnew, hcur]
    refine ht.setRules hcg ?_ (fun x hx => ?_) (fun v hv hnot => ?_) (fun v hv => ?_) ?_
      (fun v hv _ p => ?_) hclean (fun arr hne' harr' => ?_) fun v hv _ => ?_
    · have hperm := (insertAt_perm start r g.rules).map BaseRule.id
      obtain ⟨hgid, hgrules⟩ := List.nodup_cons.mp (treeIds_nodup_mid ht.baseTidy.distinct).1
      refine List.nodup_cons.mpr ⟨fun h => ?_, ?_⟩
      · rcases (hmem g.id).mp h with heq | h
        · exact hne g.id (mem_treeIds_mid.mpr (.inl id_mem_ids)) heq
        · exact hgid h
      · exact hperm.nodup_iff.mpr (List.nodup_cons.mpr ⟨hrg, hgrules⟩)
    · rcases mem_insertAt.mp hx with rfl | hx
      · refine .inr ⟨hr, ?_, fun p h => ?_, Function.update_self ..⟩
        · rw [hobjects, ← hix]
          exact Function.update_self ..
        · rw [hprops', ← hix] at h
          exact (Finset.mem_filter.mp h).2 rfl
      · exact .inl hx
    · exact absurd ((hmem v).mpr (.inr hv)) hnot
    · rw [hobjects, ← hix]
      refine Function.update_of_ne ?_ ..
      rintro rfl
      exact hrg (hv.mpr ((hmem r.id).mpr (.inl rfl)))
    · rw [horiginals, ← hix, map_insertAt]
    · rw [hprops', ← hix]
      exact Finset.mem_filter.trans (and_iff_left (hne v hv))
    · refine (check_other hne').mpr ?_
      rw [← hix]
      exact harr'
    · exact Function.update_of_ne (hne v hv) ..

/-! ## Deleted items -/

theorem erase_keys {α : Type} {idOf : α → Value} {l : List α} (hn : (l.map idOf).Nodup)
    (v : Value) : (l.map fun x => Key.value (idOf x)).erase (.value v) =
      (l.filter fun x => idOf x ≠ v).map fun x => .value (idOf x) := by
  have hinj : Function.Injective Key.value := fun _ _ h => Key.value.inj h
  have hkeys : (l.map fun x => Key.value (idOf x)).Nodup := by
    have hmap := hn.map hinj
    rwa [List.map_map] at hmap
  rw [hkeys.erase_eq_filter, List.filter_map]
  refine congrArg (List.map _) (List.filter_congr fun x _ => ?_)
  rw [Function.comp_apply, Bool.eq_iff_iff, bne_iff_ne, decide_eq_true_iff]
  exact hinj.ne_iff

theorem forgetItem_eq {s : Session} {v : Value}
    (hcopy : ∀ copy, s.index.originalObjects v = some copy → copy "id" = v) :
    ∃ (ix : Index) (nested : Value → List Props), s.forgetItem v = { s with index := ix, nested := nested } ∧
      (∀ w, ix.originalObjects w = if w = v then none else s.index.originalObjects w) ∧
      ix.originalArrays = s.index.originalArrays ∧ ix.dirtyArrays = s.index.dirtyArrays ∧
      (∀ w p, w ≠ v → ((s.index.originalObjects v).isSome → w ∉ nestedIds s.nested v) →
        ((w, p) ∈ ix.dirtyObjectProps ↔ (w, p) ∈ s.index.dirtyObjectProps)) ∧
      ∀ w, w ≠ v → nested w = s.nested w := by
  unfold Session.forgetItem
  cases hv : s.index.originalObjects v with
  | none =>
    refine ⟨s.index, s.nested, rfl, fun w => ?_, rfl, rfl, fun _ _ _ _ => Iff.rfl, fun _ _ => rfl⟩
    rw [eq_comm, ite_eq_right_iff]
    exact fun heq => heq ▸ hv.symm
  | some copy =>
    obtain ⟨hobjects, horiginals, hdirty, hmarks⟩ :=
      s.index.clearCopy_frame (s.nested v) copy
    refine ⟨_, _, rfl, fun w => ?_, horiginals, hdirty, fun w p hne hout => hmarks w p ?_,
      fun w hne => Function.update_of_ne hne ..⟩
    · dsimp only
      rw [hobjects, Function.update_apply]
    · rw [hcopy copy hv]
      exact fun h => (List.mem_cons.mp h).elim hne (hout rfl)

theorem acknowledgeDelete_eq {s : Session} {arr : Arr} {v : Value} {keys : List Key}
    (horig : s.index.originalArrays arr = some keys)
    (hcopy : ∀ copy, s.index.originalObjects v = some copy → copy "id" = v) :
    ∃ (ix : Index) (nested : Value → List Props), s.acknowledgeDelete arr v =
        { s with index := ix.checkArrayStructure s.heap arr, nested := nested } ∧
      (∀ w, ix.originalObjects w = if w = v then none else s.index.originalObjects w) ∧
      ix.originalArrays =
        Function.update s.index.originalArrays arr (some (keys.erase (.value v))) ∧
      ix.dirtyArrays = s.index.dirtyArrays ∧
      (∀ w p, w ≠ v → ((s.index.originalObjects v).isSome → w ∉ nestedIds s.nested v) →
        ((w, p) ∈ ix.dirtyObjectProps ↔ (w, p) ∈ s.index.dirtyObjectProps)) ∧
      ∀ w, w ≠ v → nested w = s.nested w := by
  obtain ⟨ix, nested, hforget, hobjects, horiginals, hdirty, hmarks, hnested⟩ :=
    @forgetItem_eq { s with
      index := { s.index with
        originalArrays :=
          Function.update s.index.originalArrays arr (some (keys.erase (.value v)))
        dirtyObjectProps := s.index.dirtyObjectProps.filter (·.1 ≠ v) } } v hcopy
  refine ⟨ix, nested, ?_, hobjects, horiginals, hdirty, fun w p hne hout => ?_, hnested⟩
  · unfold Session.acknowledgeDelete
    rw [horig]
    dsimp only
    rw [hforget]
  · exact (hmarks w p hne hout).trans (Finset.mem_filter.trans (and_iff_left hne))

theorem Tracks.copy_id {root : Arr} {cur base : List BaseGroup} {ix : Index}
    {nested : Value → List Props} (ht : Tracks root cur base ix nested) (v : Value) (copy : Props)
    (h : ix.originalObjects v = some copy) : copy "id" = v := by
  by_cases hv : v ∈ treeIds base
  · obtain ⟨b, hb, rfl⟩ := exists_treeObject hv
    rw [ht.indexed.copies b hb] at h
    rw [← Option.some.inj h]
    rfl
  · rw [ht.indexed.noCopy v hv] at h
    cases h

theorem groupIds_nodup {l : List BaseGroup} (h : (treeIds l).Nodup) :
    (l.map BaseGroup.id).Nodup := by
  refine h.sublist ?_
  induction l with
  | nil => exact List.Sublist.refl _
  | cons g l ih =>
    have ih := ih (List.nodup_append'.mp h).2.1
    exact (ih.trans (List.sublist_append_right _ _)).cons_cons g.id

theorem Session.Inv.deleteGroup {s : Session} (hs : s.Inv) {v : Value} (hdata : v ∉ s.dataIds)
    (halone : ∀ g ∈ s.base, v ∈ g.ids → g.id = v ∧ g.rules = []) :
    (s.step (.deleteGroup v)).Inv := by
  have hw := hs.whole
  have ht := hs.tracks
  rw [dataIds_eq hw] at hdata
  obtain ⟨ix, nested, hdelete, hobjects, horiginals, hdirty, hmarks, hnested⟩ :=
    acknowledgeDelete_eq ht.indexed.rootIds (ht.copy_id v)
  obtain ⟨hobjects', horiginals', hprops'⟩ := checkArrayStructure_frame ix s.heap s.root
  change Session.Inv { s.acknowledgeDelete s.root v with
    base := s.base.filter fun g => g.id ≠ v }
  rw [hdelete]
  refine ⟨hw, ?_⟩
  dsimp only
  have hrootIds : ix.originalArrays s.root =
      some ((s.base.filter fun g => g.id ≠ v).map fun g => .value g.id) := by
    rw [horiginals, Function.update_self, erase_keys (groupIds_nodup ht.baseTidy.distinct)]
  refine ht.dropGroup hdata halone (hobjects' ▸ hobjects) (horiginals' ▸ hrootIds)
    (fun arr hne => ?_) (fun w hw hne p => ?_) (fun hclean => ?_)
    (fun arr hne harr => (check_other hne).mpr (hdirty ▸ harr)) fun w _ hne => hnested w hne
  · rw [horiginals', horiginals, Function.update_of_ne hne]
  · rw [hprops']
    refine hmarks w p hne fun hsome hnest => ?_
    obtain ⟨g, hg, hv⟩ := mem_treeIds.mp ((originalObjects_isSome_iff ht v).mp hsome)
    obtain ⟨rfl, hnil⟩ := halone g hg hv
    have hrule := ht.nests.own g hg w hnest hw
    rw [hnil] at hrule
    exact List.not_mem_nil hrule
  · refine @check_self ix s.heap s.root _ _ ?_ ?_ hclean
    · rw [hrootIds, List.map_map]
      rfl
    · rw [keys_root hw ht.curTidy.truthy, List.map_map]
      rfl

theorem Session.Inv.deleteRule {s : Session} (hs : s.Inv) {c : BaseGroup}
    (hc : c ∈ s.heap.read s.root) {v : Value} (hdata : v ∉ s.dataIds)
    (halone : ∀ g ∈ s.base, v ∈ g.ids → g.arr = c.arr ∧ g.id ≠ v) :
    Session.Inv { s.acknowledgeDelete c.arr v with
      base := onRulesOf s.base c.arr fun rules => rules.filter fun r => r.id ≠ v } := by
  have hw := hs.whole
  have ht := hs.tracks
  rw [dataIds_eq hw] at hdata
  cases horig : s.index.originalArrays c.arr with
  | none =>
    have hsame : s.acknowledgeDelete c.arr v = s := by
      unfold Session.acknowledgeDelete
      rw [horig]
    rw [hsame, onRulesOf_of_none ht.indexed horig]
    exact hs
  | some keys =>
    obtain ⟨g, hg, hcg, harr, rfl⟩ := ht.group_of_arr hc horig
    obtain ⟨pre, post, hbase, hnew⟩ :=
      onRulesOf_eq ht.baseTidy hg fun rules => rules.filter fun r => r.id ≠ v
    obtain ⟨cpre, cpost, hcur⟩ := List.append_of_mem hc
    rw [← harr] at horig halone ⊢
    obtain ⟨ix, nested, hdelete, hobjects, horiginals, hdirty, hmarks, hnested⟩ :=
      acknowledgeDelete_eq horig (ht.copy_id v)
    obtain ⟨hobjects', horiginals', hprops'⟩ := checkArrayStructure_frame ix s.heap g.arr
    rw [hdelete]
    refine ⟨hw, ?_⟩
    dsimp only
    have hgn : g.ids.Nodup := (treeIds_nodup_mid (hbase ▸ ht.baseTidy.distinct)).1
    have hgrules : (g.rules.map BaseRule.id).Nodup := (List.nodup_cons.mp hgn).2
    have hmem : ∀ w, w ∈ (g.rules.filter fun r => r.id ≠ v).map BaseRule.id ↔
        w ∈ g.rules.map BaseRule.id ∧ w ≠ v := by
      intro w
      simp only [List.mem_map, List.mem_filter, decide_eq_true_iff]
      refine ⟨?_, ?_⟩
      · rintro ⟨r, ⟨hr, hne⟩, rfl⟩
        exact ⟨⟨r, hr, rfl⟩, hne⟩
      · rintro ⟨⟨r, hr, rfl⟩, hne⟩
        exact ⟨r, ⟨hr, hne⟩, rfl⟩
    -- in the baseline the id is one of the group's rules, if at all
    have hrule : v ∈ treeIds s.base → v ∈ g.rules.map BaseRule.id := by
      intro hv
      obtain ⟨k, hk, hvk⟩ := mem_treeIds.mp hv
      obtain ⟨hkarr, hkid⟩ := halone k hk hvk
      have heq : k = g :=
        List.inj_on_of_nodup_map (List.nodup_cons.mp ht.baseTidy.arrays).2 hk hg hkarr
      rw [heq] at hkid hvk
      exact (List.mem_cons.mp hvk).resolve_left (Ne.symm hkid)
    have hne : ∀ w ∈ treeIds s.base, (w ∈ g.rules.map BaseRule.id →
        w ∈ (g.rules.filter fun r => r.id ≠ v).map BaseRule.id) → w ≠ v := by
      rintro w hw hstay rfl
      exact ((hmem w).mp (hstay (hrule hw))).2 rfl
    have hkeys : ix.originalArrays g.arr =
        some ((g.rules.filter fun r => r.id ≠ v).map fun r => .value r.id) := by
      rw [horiginals, Function.update_self, erase_keys hgrules]
    have hclean : g.arr ∉ (ix.checkArrayStructure s.heap g.arr).dirtyArrays →
        c.rules.map BaseRule.id = (g.rules.filter fun r => r.id ≠ v).map BaseRule.id := by
      refine @check_self ix s.heap g.arr _ _ ?_ ?_
      · rw [hkeys, List.map_map]
        rfl
      · rw [harr, keys_rules hw ht.curTidy.truthy hc, List.map_map]
        rfl
    have hnone : v ∉ g.rules.map BaseRule.id → s.index.originalObjects v = none :=
      fun h => ht.indexed.noCopy v fun hv => h (hrule hv)
    have hleaf : (s.index.originalObjects v).isSome → nestedIds s.nested v = [] := by
      intro hsome
      have hv := hrule ((originalObjects_isSome_iff ht v).mp hsome)
      obtain ⟨r, hr, rfl⟩ := List.mem_map.mp hv
      rw [nestedIds, ht.nests.leaf g hg r hr]
      rfl
    rw [hbase] at hne
    rw [hcur] at hdata
    rw [hcur, hbase] at ht
    rw [hnew, hcur]
    refine ht.setRules hcg ?_ (fun r hr => .inl (List.mem_of_mem_filter hr))
      (fun w hw hnot => ?_) (fun w hw => ?_) ?_ (fun w hw hstay p => ?_) hclean
      (fun arr hne' h => (check_other hne').mpr (hdirty ▸ h))
      fun w hw hstay => hnested w (hne w hw hstay)
    · exact hgn.sublist ((List.filter_sublist.map BaseRule.id).cons_cons g.id)
    · have heq : w = v := by
        by_contra hwv
        exact hnot ((hmem w).mpr ⟨hw, hwv⟩)
      rw [hobjects', hobjects, heq, if_pos rfl]
      exact ⟨hdata, rfl⟩
    · rw [hobjects', hobjects]
      split
      · next heq =>
        rw [heq] at hw ⊢
        exact (hnone fun h => ((hmem v).mp (hw.mp h)).2 rfl).symm
      · rfl
    · rw [horiginals', horiginals, erase_keys hgrules]
    · rw [hprops']
      refine hmarks w p (hne w hw hstay) fun hsome hin => ?_
      rw [hleaf hsome] at hin
      exact List.not_mem_nil hin

end MagiTrickle.ChangeTracker
