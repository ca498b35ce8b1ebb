import MagiTrickle.Frontend.AckIndex
import MagiTrickle.Frontend.Regroup
import MagiTrickle.Frontend.TrackerExact

/-!
# Edits between acknowledgements

The invariant of a tracker with acknowledgements (`Session.Inv`), which edits and
acknowledgements have to meet (`Session.Fair`), and that edits keep the invariant.
-/

namespace MagiTrickle.ChangeTracker

/-! ## The statement -/

namespace Session

variable (s : Session)

/-- The id is in the data, in the baseline or in a copy. -/
def Known (v : Value) : Prop :=
  v ∈ s.dataIds ∨ v ∈ treeIds s.base ∨ ∃ g ∈ s.base, v ∈ nestedIds s.nested g.id

/-- The array is one that the tracker does not know, and holds rules. -/
structure FreshArray (arr : Arr) : Prop where
  dead : arr ∉ s.heap.liveArrays s.root
  untracked : s.index.originalArrays arr = none
  leaves : ∀ e ∈ s.heap.arrays arr, ∃ r, e = some r ∧ s.heap.rules r = none

/-- Rules that the tracker does not know. -/
structure FreshRules (xs : List Addr) : Prop where
  leaf : ∀ x ∈ xs, s.heap.rules x = none
  distinct : (xs.map s.heap.id).Nodup
  ids : ∀ x ∈ xs, (s.heap.id x).truthy ∧ ¬ s.Known (s.heap.id x)

/-- Groups that the tracker does not know, with rules that it does not know. -/
structure FreshGroups (xs : List Addr) : Prop where
  groups : ∀ x ∈ xs, ∃ arr, s.heap.rules x = some arr ∧ s.FreshArray arr
  arrays : (xs.filterMap s.heap.rules).Nodup
  distinct : (treeIds (xs.filterMap s.heap.readGroup)).Nodup
  ids : ∀ v ∈ treeIds (xs.filterMap s.heap.readGroup), v.truthy ∧ ¬ s.Known v

/-- An id stays as it is, or an id that is not of the baseline changes to one that the tracker
does not know. -/
def FairSet (a : Addr) (prop : String) (v : Value) : Prop :=
  prop = "id" → v = s.heap.id a ∨
    (s.heap.id a ∉ treeIds s.base ∧ v.truthy ∧ ¬ s.Known v)

/-- The list of groups is a tree, with ids that are distinct and not empty. -/
structure Proper (h : Heap) (root : Arr) : Prop where
  whole : h.Whole root
  tidy : Tidy root (h.read root)

/-- Field edits keep the ids of the baseline, and what an edit inserts is fresh. -/
def FairEdit : Edit → Prop
  | .setGroup i prop v => ∀ a, s.element s.root i = some a → s.FairSet a prop v
  | .setRule i j prop v => ∀ a, (s.rulesOf i).bind (fun arr => s.element arr j) = some a →
      s.FairSet a prop v
  | .onGroups op => op.Dense (s.heap.arrays s.root).length ∧ s.FreshGroups op.inserted
  | .onRules i op => ∀ arr, s.rulesOf i = some arr →
      op.Dense (s.heap.arrays arr).length ∧ s.FreshRules op.inserted
  | .reset groups => Proper (s.heap.withArray s.root (groups.map some)) s.root

/-- The id belongs to another group of the data or the baseline than the one with id `w`. -/
def Taken (w v : Value) : Prop :=
  (∃ c ∈ s.heap.read s.root, c.id ≠ w ∧ v ∈ c.ids) ∨
    ∃ g ∈ s.base, g.id ≠ w ∧ (v ∈ g.ids ∨ v ∈ nestedIds s.nested g.id)

def ruleIdsAfter (a : Addr) (p : Persisted) : List Value :=
  ((p.rules.or (s.heap.rules a)).elim [] s.heap.readRules).map BaseRule.id

def KeepsId (a : Addr) (p : Persisted) : Prop :=
  ∀ f ∈ p.fields, f.1.1 = "id" → f.2 = s.heap.id a

/-- The array of an update is fresh, and its ids belong to no other group. -/
structure FairArray (a : Addr) (arr : Arr) : Prop where
  fresh : s.FreshArray arr
  distinct : (s.heap.id a :: (s.heap.readRules arr).map BaseRule.id).Nodup
  ids : ∀ r ∈ s.heap.readRules arr, r.id.truthy ∧ ¬ s.Taken (s.heap.id a) r.id

/-- What is acknowledged is a change of the baseline that the tracker can follow: a rule of the
baseline that the update of a group drops is in the copy of the group, and a group that was
deleted has no rules in the baseline. -/
def Fair : Op → Prop
  | .edit e => s.FairEdit e
  | .newGroup item _ => some item ∈ s.heap.arrays s.root ∧ s.heap.id item ∉ treeIds s.base
  | .newRule i item _ => ∀ arr, s.rulesOf i = some arr →
      some item ∈ s.heap.arrays arr ∧ s.heap.id item ∉ treeIds s.base
  | .deleteGroup itemId => itemId ∉ s.dataIds ∧
      ∀ g ∈ s.base, itemId ∈ g.ids → g.id = itemId ∧ g.rules = []
  | .deleteRule i itemId => ∀ arr, s.rulesOf i = some arr → itemId ∉ s.dataIds ∧
      ∀ g ∈ s.base, itemId ∈ g.ids → g.arr = arr ∧ g.id ≠ itemId
  | .updateGroup i p => ∀ a, s.element s.root i = some a →
      s.heap.id a ∈ treeIds s.base ∧ s.KeepsId a p ∧ (∀ arr ∈ p.rules, s.FairArray a arr) ∧
        (p.isEmpty ∨ p.rules ≠ none → ∀ g ∈ s.base, g.id = s.heap.id a → ∀ r ∈ g.rules,
          r.id ∈ nestedIds s.nested g.id ∨ r.id ∈ s.ruleIdsAfter a p)
  | .updateRule i j p => ∀ a, (s.rulesOf i).bind (fun arr => s.element arr j) = some a →
      s.heap.id a ∈ treeIds s.base ∧ s.KeepsId a p ∧ p.rules = none

structure Inv : Prop where
  whole : s.heap.Whole s.root
  tracks : Tracks s.root (s.heap.read s.root) s.base s.index s.nested

end Session

/-! ## Places in the data -/

section Places

variable {h : Heap} {root : Arr}

theorem group_of_element (hw : h.Whole root) {a : Addr} (ha : some a ∈ h.arrays root) :
    ∃ c ∈ h.read root, c.addr = a := by
  rw [(Reads.of_whole hw).root] at ha
  obtain ⟨c, hc, heq⟩ := List.mem_map.mp ha
  exact ⟨c, hc, Option.some.inj heq⟩

theorem rule_of_element (hw : h.Whole root) {c : BaseGroup} (hc : c ∈ h.read root) {a : Addr}
    (ha : some a ∈ h.arrays c.arr) : ∃ r ∈ c.rules, r.addr = a := by
  rw [(Reads.of_whole hw).arrays c hc] at ha
  obtain ⟨r, hr, heq⟩ := List.mem_map.mp ha
  exact ⟨r, hr, Option.some.inj heq⟩

theorem group_of_rulesOf {s : Session} (hw : s.heap.Whole s.root) {i : Nat} {arr : Arr}
    (harr : s.rulesOf i = some arr) : ∃ c ∈ s.heap.read s.root, c.arr = arr := by
  obtain ⟨a, ha, hrules⟩ := Option.bind_eq_some_iff.mp harr
  obtain ⟨c, hc, rfl⟩ := group_of_element hw (element_mem ha)
  refine ⟨c, hc, ?_⟩
  obtain ⟨-, hrules', -⟩ := mem_read hc
  exact Option.some.inj (hrules'.symm.trans hrules)

theorem eq_of_addr (hw : h.Whole root) (ht : Tidy root (h.read root)) {o o' : BaseRule}
    (ho : o ∈ treeObjects (h.read root)) (ho' : o' ∈ treeObjects (h.read root))
    (heq : o.addr = o'.addr) : o = o' := by
  refine eq_of_id ht.distinct ho ho' ?_
  rw [← id_of_mem hw ho, ← id_of_mem hw ho', heq]

end Places

/-! ## Fields -/

section SetProps

variable {h : Heap} {root : Arr} {c : BaseGroup} {o : BaseRule} {ps : Props}

theorem objects_setProps (c : BaseGroup) (a : Addr) (ps : Props) :
    (c.setProps a ps).objects = c.objects.map (BaseRule.setProps a ps) := rfl

theorem id_setProps (a : Addr) (ps : Props) (x : BaseRule) :
    (x.setProps a ps).id = if x.addr = a then ps "id" else x.id := by
  unfold BaseRule.setProps BaseRule.id
  dsimp only
  split <;> rfl

theorem ids_setProps (c : BaseGroup) (a : Addr) (ps : Props) :
    (c.setProps a ps).ids = c.objects.map fun x => if x.addr = a then ps "id" else x.id := by
  rw [← map_id_objects, objects_setProps, List.map_map]
  exact List.map_congr_left fun x _ => id_setProps a ps x

/-- The ids stay distinct if the object gets its own id again or one that no object has. -/
theorem nodup_setProps (hw : h.Whole root) (ht : Tidy root (h.read root))
    (hc : c ∈ h.read root) (ho : o ∈ c.objects)
    (hps : ps "id" = o.id ∨ ps "id" ∉ treeIds (h.read root)) :
    (c.setProps o.addr ps).ids.Nodup := by
  have hmem : ∀ {x}, x ∈ c.objects → x ∈ treeObjects (h.read root) :=
    fun hx => mem_treeObjects.mpr ⟨c, hc, hx⟩
  have hself : ∀ {x}, x ∈ c.objects → x.addr = o.addr → x = o :=
    fun hx heq => eq_of_addr hw ht (hmem hx) (hmem ho) heq
  have hfree : ∀ {z}, z ∈ c.objects → ps "id" = z.id → z = o := by
    intro z hz hpz
    rcases hps with hps | hps
    · exact eq_of_id ht.distinct (hmem hz) (hmem ho) (hpz.symm.trans hps)
    · exact absurd (hpz ▸ object_mem_treeIds (hmem hz)) hps
  have hnodup : c.ids.Nodup := by
    obtain ⟨pre, post, heq⟩ := List.append_of_mem hc
    exact (treeIds_nodup_mid (heq ▸ ht.distinct)).1
  rw [← map_id_objects] at hnodup
  rw [ids_setProps]
  refine (List.Nodup.of_map _ hnodup).map_on fun x hx y hy heq => ?_
  by_cases hxa : x.addr = o.addr <;> by_cases hya : y.addr = o.addr
  · exact (hself hx hxa).trans (hself hy hya).symm
  · rw [if_pos hxa, if_neg hya] at heq
    exact (hself hx hxa).trans (hfree hy heq).symm
  · rw [if_neg hxa, if_pos hya] at heq
    exact (hfree hx heq.symm).trans (hself hy hya).symm
  · rw [if_neg hxa, if_neg hya] at heq
    exact eq_of_id ht.distinct (hmem hx) (hmem hy) heq

theorem setProps_of_not_mem {a : Addr} (hc : ∀ o ∈ c.objects, o.addr ≠ a) :
    c.setProps a ps = c := by
  have hrules : c.rules.map (BaseRule.setProps a ps) = c.rules := by
    refine (List.map_congr_left fun r hr => ?_).trans (List.map_id c.rules)
    rw [BaseRule.setProps, if_neg (hc r (List.mem_cons_of_mem _ hr))]
    rfl
  have haddr : c.addr ≠ a := hc ⟨c.addr, c.props⟩ List.mem_cons_self
  rw [BaseGroup.setProps, if_neg haddr, hrules]

theorem map_setProps_mid (hw : h.Whole root) (ht : Tidy root (h.read root))
    {cpre cpost : List BaseGroup} (hcur : h.read root = cpre ++ c :: cpost) (ho : o ∈ c.objects) :
    (h.read root).map (BaseGroup.setProps o.addr ps) =
      cpre ++ c.setProps o.addr ps :: cpost := by
  have hout : ∀ k ∈ cpre ++ cpost, k.setProps o.addr ps = k := by
    intro k hk
    refine setProps_of_not_mem fun x hx heq => ?_
    have hk' : k ∈ h.read root := hcur ▸ mem_mid.mpr (.inr hk)
    have hc' : c ∈ h.read root := hcur ▸ mem_mid.mpr (.inl rfl)
    have hxo : x = o := eq_of_addr hw ht (mem_treeObjects.mpr ⟨k, hk', hx⟩)
      (mem_treeObjects.mpr ⟨c, hc', ho⟩) heq
    have hdis := (treeIds_nodup_mid (hcur ▸ ht.distinct)).2.2
    exact hdis o.id (object_mem_ids ho) (mem_treeIds.mpr ⟨k, hk, hxo ▸ object_mem_ids hx⟩)
  have hmap : ∀ {l : List BaseGroup}, (∀ k ∈ l, k.setProps o.addr ps = k) →
      l.map (BaseGroup.setProps o.addr ps) = l := fun hl =>
    (List.map_congr_left hl).trans (List.map_id _)
  rw [hcur, List.map_append, List.map_cons, hmap fun k hk => hout k (List.mem_append_left _ hk),
    hmap fun k hk => hout k (List.mem_append_right _ hk)]

theorem setsProps_setProps (hw : h.Whole root) (ht : Tidy root (h.read root))
    (hc : c ∈ h.read root) (ho : o ∈ c.objects) (hid : ps "id" = o.id) :
    SetsProps c (c.setProps o.addr ps) o.id ps := by
  have hmem : ∀ {x}, x ∈ c.objects → x ∈ treeObjects (h.read root) :=
    fun hx => mem_treeObjects.mpr ⟨c, hc, hx⟩
  have hids : ∀ x ∈ c.objects, (x.setProps o.addr ps).id = x.id := by
    intro x hx
    rw [id_setProps]
    split
    · next heq => rw [hid, ← eq_of_addr hw ht (hmem hx) (hmem ho) heq]
    · rfl
  refine ⟨?_, rfl, fun x hx hv => ?_, fun x hx hv => ?_⟩
  · rw [← map_id_objects, ← map_id_objects, objects_setProps, List.map_map]
    exact List.map_congr_left hids
  · obtain ⟨y, hy, rfl⟩ := List.mem_map.mp (objects_setProps c o.addr ps ▸ hx)
    have heq : y = o := eq_of_id ht.distinct (hmem hy) (hmem ho) ((hids y hy).symm.trans hv)
    rw [heq, BaseRule.setProps, if_pos rfl]
  · obtain ⟨y, hy, rfl⟩ := List.mem_map.mp (objects_setProps c o.addr ps ▸ hx)
    refine ⟨y, hy, (hids y hy).symm, ?_⟩
    have hne : y.addr ≠ o.addr := by
      intro heq
      rw [hids y hy, eq_of_addr hw ht (hmem hy) (hmem ho) heq] at hv
      exact hv rfl
    rw [BaseRule.setProps, if_neg hne]

end SetProps

theorem Tracks.group_of_object {root : Arr} {cur base : List BaseGroup} {ix : Index}
    {nested : Value → List Props} (ht : Tracks root cur base ix nested) {c : BaseGroup}
    (hc : c ∈ cur) {o : BaseRule} (ho : o ∈ c.objects) (hbase : o.id ∈ treeIds base) :
    ∃ g ∈ base, g.id = c.id ∧ o.id ∈ g.ids := by
  rcases List.mem_cons.mp ho with rfl | hr
  · obtain ⟨g, hg, hgid, -⟩ := ht.aligned.group c hc hbase
    have hmem : c.id ∈ g.ids := hgid ▸ id_mem_ids
    exact ⟨g, hg, hgid, hmem⟩
  · obtain ⟨g, hg, hgid, hrule⟩ := ht.aligned.rule c hc o hr hbase
    exact ⟨g, hg, hgid, List.mem_cons_of_mem _ hrule⟩

theorem setsProps_self {g : BaseGroup} (hn : g.ids.Nodup) {b : BaseRule} (hb : b ∈ g.objects) :
    SetsProps g g b.id b.props := by
  rw [← map_id_objects] at hn
  refine ⟨rfl, rfl, fun x hx hid => ?_, fun x hx _ => ⟨x, hx, rfl, rfl⟩⟩
  rw [List.inj_on_of_nodup_map hn hx hb hid]

theorem groupEdit_setProps {h : Heap} {root : Arr} {base : List BaseGroup} {ix : Index}
    {nested : Value → List Props} (hw : h.Whole root)
    (ht : Tracks root (h.read root) base ix nested) {c : BaseGroup} (hc : c ∈ h.read root)
    {o : BaseRule} (ho : o ∈ c.objects) (hout : o.id ∉ treeIds base) {ps : Props}
    (hps : ps "id" = o.id ∨
      ((ps "id").truthy ∧ Unknown (h.read root) base nested (ps "id"))) :
    GroupEdit root (h.read root) base c (c.setProps o.addr ps) ix ix nested := by
  have hmem : ∀ {x}, x ∈ c.objects → x ∈ treeObjects (h.read root) :=
    fun hx => mem_treeObjects.mpr ⟨c, hc, hx⟩
  have hnew : ps "id" ∉ treeIds base := hps.elim (fun h => h ▸ hout) fun h => h.2.2.1
  have hself : ∀ {x}, x ∈ c.objects → x.addr = o.addr → x = o :=
    fun hx heq => eq_of_addr hw ht.curTidy (hmem hx) (hmem ho) heq
  -- an object that has an id of the baseline is another one
  have hother : ∀ {x}, x ∈ c.objects → (x.setProps o.addr ps).id ∈ treeIds base →
      x.setProps o.addr ps = x := by
    intro x hx hbase
    rw [id_setProps] at hbase
    have hne : x.addr ≠ o.addr := by
      intro heq
      rw [if_pos heq] at hbase
      exact hnew hbase
    rw [BaseRule.setProps, if_neg hne]
  have hbaseId : (c.setProps o.addr ps).id = c.id ∨
      (c.id ∉ treeIds base ∧ (c.setProps o.addr ps).id ∉ treeIds base) := by
    by_cases haddr : c.addr = o.addr
    · have heq : ⟨c.addr, c.props⟩ = o := hself List.mem_cons_self haddr
      have hoid : o.id = c.id := heq ▸ rfl
      have hcid : (c.setProps o.addr ps).id = ps "id" := by
        rw [BaseGroup.id, BaseGroup.setProps, if_pos haddr]
      exact .inr ⟨hoid ▸ hout, hcid ▸ hnew⟩
    · refine .inl ?_
      rw [BaseGroup.id, BaseGroup.setProps, if_neg haddr]
      rfl
  refine ⟨rfl, ?_, ?_, ?_, ?_, ?_, ?_, rfl, rfl, rfl, ?_, fun arr _ harr => harr⟩
  · exact nodup_setProps hw ht.curTidy hc ho (hps.imp_right fun h => h.2.1)
  · intro v hv
    rw [ids_setProps] at hv
    obtain ⟨x, hx, rfl⟩ := List.mem_map.mp hv
    split
    · rcases hps with hps | hps
      · rw [hps]
        exact ht.curTidy.truthy _ (object_mem_treeIds (hmem ho))
      · exact hps.1
    · exact ht.curTidy.truthy _ (object_mem_treeIds (hmem hx))
  · intro v hv
    rw [ids_setProps] at hv
    obtain ⟨x, hx, rfl⟩ := List.mem_map.mp hv
    split
    · rcases hps with hps | hps
      · rw [hps]
        exact .inl (object_mem_ids ho)
      · exact .inr hps.2
    · exact .inl (object_mem_ids hx)
  · exact hbaseId
  · intro r hr hbase
    obtain ⟨x, hx, rfl⟩ := List.mem_map.mp hr
    rw [hother (List.mem_cons_of_mem _ hx) hbase]
    exact List.mem_map_of_mem hx
  · intro x hx hbase
    obtain ⟨y, hy, rfl⟩ := List.mem_map.mp (objects_setProps c o.addr ps ▸ hx)
    refine ⟨y, hy, ?_⟩
    rw [hother hy hbase]
    exact ⟨rfl, rfl⟩
  · intro g hg hcg hclean
    have hcid := hbaseId.resolve_right fun h => h.2 (hcg ▸ id_mem_treeIds hg)
    have hrules := ht.marked.rules c hc g hg (hcid.symm.trans hcg) hclean
    rw [← hrules, BaseGroup.setProps, List.map_map]
    refine List.map_congr_left fun r hr => ?_
    have hbase : r.id ∈ treeIds base := by
      have hin : r.id ∈ g.rules.map BaseRule.id := hrules ▸ List.mem_map_of_mem hr
      obtain ⟨b, hb, hbid⟩ := List.mem_map.mp hin
      exact hbid ▸ rule_mem_treeIds hg hb
    refine (id_setProps _ _ r).trans (if_neg fun heq => hout ?_)
    exact hself (List.mem_cons_of_mem _ hr) heq ▸ hbase

theorem unknown_of_not_known {s : Session} (hw : s.heap.Whole s.root) {v : Value}
    (h : ¬ s.Known v) : Unknown (s.heap.read s.root) s.base s.nested v := by
  obtain ⟨hdata, hrest⟩ := not_or.mp h
  obtain ⟨hbase, hnested⟩ := not_or.mp hrest
  exact ⟨dataIds_eq hw ▸ hdata, hbase, fun k hk hv => hnested ⟨k, hk, hv⟩⟩

theorem Session.Inv.setField {s : Session} (hs : s.Inv) {o : BaseRule}
    (ho : o ∈ treeObjects (s.heap.read s.root)) {p : String} {v : Value}
    (hfair : s.FairSet o.addr p v) : Session.Inv ⟨s.toState.setField o.addr p v, s.nested⟩ := by
  have hw := hs.whole
  have ht := hs.tracks
  obtain ⟨c, hc, hoc⟩ := mem_treeObjects.mp ho
  obtain ⟨cpre, cpost, hcur⟩ := List.append_of_mem hc
  have hoid : s.heap.id o.addr = o.id := id_of_mem hw ho
  have hops : s.heap.props o.addr = o.props := props_of_mem hw ho
  generalize hps : Function.update (s.heap.props o.addr) p v = ps
  have hidps : ps "id" = if p = "id" then v else o.id := by
    rw [← hps, Function.update_apply]
    by_cases hp : p = "id"
    · rw [if_pos hp, if_pos hp.symm]
    · rw [if_neg hp, if_neg (Ne.symm hp)]
      exact hoid
  have hstate : s.toState.setField o.addr p v = { s.toState with
      heap := s.heap.withProps o.addr ps
      index := s.index.checkObjectField (s.heap.withProps o.addr ps) o.addr p } := by
    rw [← hps]
    rfl
  have hread : (s.heap.withProps o.addr ps).read s.root = cpre ++ c.setProps o.addr ps :: cpost := by
    rw [read_withProps, map_setProps_mid hw ht.curTidy hcur hoc]
  have hself : (s.heap.withProps o.addr ps).props o.addr = ps := Function.update_self ..
  have hid' : (s.heap.withProps o.addr ps).id o.addr = ps "id" := congrFun hself "id"
  obtain ⟨hobjects, harrays, hdirty⟩ :=
    checkObjectField_frame s.index (s.heap.withProps o.addr ps) o.addr p
  rw [hstate]
  refine ⟨hw, ?_⟩
  dsimp only
  rw [hread]
  by_cases hbase : o.id ∈ treeIds s.base
  · obtain ⟨g, hg, hgid, hog⟩ := ht.group_of_object hc hoc hbase
    obtain ⟨pre, post, hb⟩ := List.append_of_mem hg
    obtain ⟨b, hbg, hbid⟩ := exists_object hog
    have hpid : ps "id" = o.id := by
      rw [hidps]
      split
      · next hp =>
        rcases hfair hp with heq | ⟨hout, -⟩
        · exact heq.trans hoid
        · exact absurd (hoid ▸ hbase) hout
      · rfl
    have hcopy : s.index.originalObjects o.id = some b.props := by
      rw [← hbid]
      exact ht.indexed.copies b (mem_treeObjects.mpr ⟨g, hg, hbg⟩)
    have hgn : g.ids.Nodup := (treeIds_nodup_mid (hb ▸ ht.baseTidy.distinct)).1
    have htruthy : o.id.truthy := ht.baseTidy.truthy o.id hbase
    rw [hcur, hb] at ht
    rw [hb]
    refine ht.setObject hgid.symm
      (setsProps_setProps hw hs.tracks.curTidy hc hoc hpid) (hbid ▸ setsProps_self hgn hbg) hog
      ?_ harrays (fun w q => ?_) hdirty fun _ _ => rfl
    · rw [hobjects, ← hcopy, Function.update_eq_self]
    · rw [mem_checkObjectField p (by rw [hid', hpid]; exact htruthy)
        (by rw [hid', hpid]; exact hcopy), hid', hpid, hself]
      by_cases hwo : w = o.id
      · subst hwo
        rw [if_pos rfl]
        by_cases hq : q = p
        · rw [if_pos ⟨rfl, hq⟩, hq]
        · have hfields := ht.marked.fields o (hcur ▸ ho) b
            (mem_treeObjects_mid.mpr (.inl hbg)) hbid.symm q
          rw [if_neg fun h => hq h.2, ← hps, Function.update_of_ne hq, hops, ← hfields, hbid]
      · rw [if_neg fun h => hwo h.1, if_neg hwo]
  · have hnew : ps "id" = o.id ∨ ((ps "id").truthy ∧
        Unknown (s.heap.read s.root) s.base s.nested (ps "id")) := by
      rw [hidps]
      split
      · next hp =>
        rcases hfair hp with heq | ⟨-, htruthy, hknown⟩
        · exact .inl (heq.trans hoid)
        · exact .inr ⟨htruthy, unknown_of_not_known hw hknown⟩
      · exact .inl rfl
    have hnone : s.index.originalObjects ((s.heap.withProps o.addr ps).id o.addr) = none := by
      rw [hid']
      exact ht.indexed.noCopy _ (hnew.elim (fun h => h ▸ hbase) fun h => h.2.2.1)
    rw [checkObjectField_none p hnone]
    have hedit := groupEdit_setProps hw ht hc hoc hbase hnew
    rw [hcur] at ht hedit
    exact ht.editGroup hedit

/-! ## Array operations -/

theorem check_other {ix : Index} {h : Heap} {arr arr' : Arr} (hne : arr' ≠ arr) :
    arr' ∈ (ix.checkArrayStructure h arr).dirtyArrays ↔ arr' ∈ ix.dirtyArrays := by
  unfold Index.checkArrayStructure
  split
  · rfl
  · split
    · exact Finset.mem_erase.trans (and_iff_right hne)
    · exact Finset.mem_insert.trans (or_iff_right hne)

theorem check_self {ix : Index} {h : Heap} {arr : Arr} {us vs : List Value}
    (horig : ix.originalArrays arr = some (us.map .value))
    (hkeys : (h.arrays arr).map h.key = vs.map .value)
    (hclean : arr ∉ (ix.checkArrayStructure h arr).dirtyArrays) : vs = us := by
  unfold Index.checkArrayStructure at hclean
  rw [horig] at hclean
  dsimp only at hclean
  rw [hkeys] at hclean
  split at hclean
  · next hsame => exact (sameKeys_value.mp hsame).symm
  · exact absurd (Finset.mem_insert_self _ _) hclean

theorem readGroup_of_mem {h : Heap} {root : Arr} {c : BaseGroup} (hc : c ∈ h.read root) :
    h.readGroup c.addr = some c := by
  obtain ⟨-, harr, hprops, hrules⟩ := mem_read hc
  rw [Heap.readGroup, harr, Option.map_some, hprops, ← hrules]

theorem filterMap_subperm {α β : Type} {l l' : List α} (h : List.Subperm l l') (f : α → Option β) :
    List.Subperm (l.filterMap f) (l'.filterMap f) := by
  obtain ⟨m, hperm, hsub⟩ := h
  exact ⟨m.filterMap f, hperm.filterMap f, hsub.filterMap f⟩

/-- Groups of the data, in any order, and groups with rules of their own are whole. -/
theorem whole_withRoot {h : Heap} {root : Arr} (hw : h.Whole root) {ys : List Addr}
    (hne : ∀ a ∈ ys, h.rules a ≠ some root)
    (hys : ∀ a ∈ ys, (∃ c ∈ h.read root, c.addr = a) ∨ ∃ arr, h.rules a = some arr ∧
      ∀ e ∈ h.arrays arr, ∃ r, e = some r ∧ h.rules r = none) :
    (h.withArray root (ys.map some)).Whole root := by
  intro e he
  have hself : (h.withArray root (ys.map some)).arrays root = ys.map some :=
    Function.update_self ..
  rw [hself] at he
  obtain ⟨a, ha, rfl⟩ := List.mem_map.mp he
  have hsame : ∀ {arr}, h.rules a = some arr →
      (h.withArray root (ys.map some)).arrays arr = h.arrays arr := by
    intro arr harr
    have hout : arr ≠ root := fun heq => hne a ha (heq ▸ harr)
    exact Function.update_of_ne hout ..
  rcases hys a ha with ⟨c, hc, rfl⟩ | ⟨arr, harr, hall⟩
  · obtain ⟨a', arr, heq, harr, hall⟩ := hw (some c.addr) (mem_read hc).1
    cases heq
    exact ⟨_, arr, rfl, harr, hsame harr ▸ hall⟩
  · exact ⟨a, arr, rfl, harr, hsame harr ▸ hall⟩

theorem Session.Inv.onGroups {s : Session} (hs : s.Inv) {op : ArrayOp}
    (hdense : op.Dense (s.heap.arrays s.root).length) (hfresh : s.FreshGroups op.inserted) :
    Session.Inv ⟨s.toState.onArray s.root op, s.nested⟩ := by
  have hw := hs.whole
  have ht := hs.tracks
  have hreads := Reads.of_whole hw
  have hroot : s.heap.arrays s.root = ((s.heap.read s.root).map BaseGroup.addr).map some := by
    rw [hreads.root, List.map_map]
    rfl
  rw [hroot, List.length_map] at hdense
  obtain ⟨ys, hrun, hsub⟩ := ArrayOp.run_dense hdense
  have hys : ∀ a ∈ ys, (∃ c ∈ s.heap.read s.root, c.addr = a) ∨ a ∈ op.inserted := by
    intro a ha
    exact (List.mem_append.mp (hsub.subset ha)).imp_left List.mem_map.mp
  have hlive := liveArrays_eq hw
  have harrNe : ∀ a ∈ ys, s.heap.rules a ≠ some s.root := by
    intro a ha harr
    rcases hys a ha with ⟨c, hc, rfl⟩ | ha
    · rw [(hreads.groups c hc).1] at harr
      exact ht.curTidy.arr_ne_root hc (Option.some.inj harr)
    · obtain ⟨arr, harr', hnew⟩ := hfresh.groups a ha
      rw [harr'] at harr
      refine hnew.dead ?_
      rw [Option.some.inj harr, hlive]
      exact List.mem_cons_self
  have hstate : s.toState.onArray s.root op = { s.toState with
      heap := s.heap.withArray s.root (ys.map some)
      index := s.index.checkArrayStructure (s.heap.withArray s.root (ys.map some)) s.root } := by
    rw [← hrun, ← hroot]
    rfl
  have hread : (s.heap.withArray s.root (ys.map some)).read s.root =
      ys.filterMap s.heap.readGroup := read_withRoot harrNe
  have hcur : ((s.heap.read s.root).map BaseGroup.addr).filterMap s.heap.readGroup =
      s.heap.read s.root := by
    rw [List.filterMap_map]
    exact (List.filterMap_congr fun c hc => readGroup_of_mem hc).trans List.filterMap_some
  have hsub' : List.Subperm (ys.filterMap s.heap.readGroup)
      (s.heap.read s.root ++ op.inserted.filterMap s.heap.readGroup) := by
    have hmap := filterMap_subperm hsub s.heap.readGroup
    rwa [List.filterMap_append, hcur] at hmap
  have hwhole : (s.heap.withArray s.root (ys.map some)).Whole s.root := by
    refine whole_withRoot hw harrNe fun a ha => (hys a ha).imp_right fun hin => ?_
    obtain ⟨arr, harr, hnew⟩ := hfresh.groups a hin
    exact ⟨arr, harr, hnew.leaves⟩
  have hnew : ∀ v ∈ treeIds (op.inserted.filterMap s.heap.readGroup),
      v.truthy ∧ Unknown (s.heap.read s.root) s.base s.nested v := fun v hv =>
    ⟨(hfresh.ids v hv).1, unknown_of_not_known hw (hfresh.ids v hv).2⟩
  have hnews : ∀ c ∈ op.inserted.filterMap s.heap.readGroup, s.FreshArray c.arr := by
    intro c hc
    obtain ⟨a, ha, hread⟩ := List.mem_filterMap.mp hc
    obtain ⟨arr, harr, hnew⟩ := hfresh.groups a ha
    rw [Heap.readGroup, harr] at hread
    cases hread
    exact hnew
  have htruthy : ∀ v ∈ treeIds (ys.filterMap s.heap.readGroup), v.truthy := by
    intro v hv
    have hmem := (flatMap_subperm hsub' BaseGroup.ids).subset hv
    rw [List.flatMap_append] at hmem
    exact (List.mem_append.mp hmem).elim (ht.curTidy.truthy v) fun h => (hnew v h).1
  obtain ⟨hobjects, horiginals, hmarks⟩ :=
    checkArrayStructure_frame s.index (s.heap.withArray s.root (ys.map some)) s.root
  rw [hstate]
  refine ⟨hwhole, ?_⟩
  dsimp only
  rw [hread]
  refine ht.editGroups hsub' hfresh.distinct hnew ?_ (fun c hc => (hnews c hc).untracked) hobjects
    horiginals hmarks (fun hclean => ?_) fun arr hne harr => (check_other hne).mpr harr
  · have harrs : (op.inserted.filterMap s.heap.readGroup).map BaseGroup.arr =
        op.inserted.filterMap s.heap.rules := by
      rw [List.map_filterMap]
      refine List.filterMap_congr fun a _ => ?_
      rw [Heap.readGroup, Option.map_map]
      exact Option.map_id'
    rw [List.nodup_append', harrs]
    refine ⟨ht.curTidy.arrays, hfresh.arrays, fun arr harr harr' => ?_⟩
    rw [← harrs] at harr'
    obtain ⟨c, hc, rfl⟩ := List.mem_map.mp harr'
    exact (hnews c hc).dead (hlive ▸ harr)
  · have hkeys := keys_root hwhole (hread.symm ▸ htruthy)
    rw [hread] at hkeys
    refine @check_self s.index _ s.root _ _ ?_ ?_ hclean
    · rw [ht.indexed.rootIds, List.map_map]
      rfl
    · rw [hkeys, List.map_map]
      rfl

theorem readRules_of_map {h : Heap} {arr : Arr} {ys : List Addr}
    (harr : h.arrays arr = ys.map some) :
    h.readRules arr = ys.map fun y => ⟨y, h.props y⟩ := by
  unfold Heap.readRules
  rw [harr, List.filterMap_map, ← List.filterMap_eq_map]
  rfl

section Rules

variable {h : Heap} {root : Arr} {base : List BaseGroup} {ix : Index}
  {nested : Value → List Props} {c : BaseGroup} {ys : List Addr}

theorem whole_withArray (hw : h.Whole root) {arr : Arr} (hne : arr ≠ root)
    (hleaf : ∀ y ∈ ys, h.rules y = none) : (h.withArray arr (ys.map some)).Whole root := by
  have hsame : (h.withArray arr (ys.map some)).arrays root = h.arrays root :=
    Function.update_of_ne (Ne.symm hne) ..
  have hself : (h.withArray arr (ys.map some)).arrays arr = ys.map some :=
    Function.update_self ..
  intro e he
  rw [hsame] at he
  obtain ⟨a, arr', rfl, harr, hall⟩ := hw e he
  refine ⟨a, arr', rfl, harr, fun e' he' => ?_⟩
  by_cases heq : arr' = arr
  · rw [heq, hself] at he'
    obtain ⟨y, hy, rfl⟩ := List.mem_map.mp he'
    exact ⟨y, rfl, hleaf y hy⟩
  · have hother : (h.withArray arr (ys.map some)).arrays arr' = h.arrays arr' :=
      Function.update_of_ne heq ..
    exact hall e' (hother ▸ he')

/-- The data after the rules of the group `c` became `ys`. -/
theorem read_rules (ht : Tidy root (h.read root)) (hc : c ∈ h.read root) :
    ∃ cpre cpost, h.read root = cpre ++ c :: cpost ∧
      (h.withArray c.arr (ys.map some)).read root =
        cpre ++ { c with rules := ys.map fun y => ⟨y, h.props y⟩ } :: cpost := by
  have hread : (h.withArray c.arr (ys.map some)).readRules c.arr =
      ys.map fun y => ⟨y, h.props y⟩ := readRules_of_map (Function.update_self ..)
  obtain ⟨cpre, cpost, hcur, hmap⟩ := map_ite_mid (List.nodup_cons.mp ht.arrays).2 hc
    fun k => { k with rules := ys.map fun y => ⟨y, h.props y⟩ }
  refine ⟨cpre, cpost, hcur, ?_⟩
  rw [read_withArray (ht.arr_ne_root hc), hread, hmap]

theorem ruleIds_of_fresh (hw : h.Whole root) (hc : c ∈ h.read root)
    (hys : ∀ y ∈ ys, (∃ r ∈ c.rules, r.addr = y) ∨
      ((h.id y).truthy ∧ Unknown (h.read root) base nested (h.id y))) {v : Value}
    (hv : v ∈ ys.map h.id) : v ∈ c.rules.map BaseRule.id ∨
      (v.truthy ∧ Unknown (h.read root) base nested v) := by
  obtain ⟨y, hy, rfl⟩ := List.mem_map.mp hv
  refine (hys y hy).imp_left ?_
  rintro ⟨r, hr, rfl⟩
  have hid := id_of_mem hw (mem_treeObjects.mpr ⟨c, hc, List.mem_cons_of_mem _ hr⟩)
  exact List.mem_map.mpr ⟨r, hr, hid.symm⟩

/-- The rules of a group are replaced by some of them and by rules that the tracker does not
know. -/
theorem groupEdit_rules (hw : h.Whole root) (ht : Tracks root (h.read root) base ix nested)
    (hc : c ∈ h.read root)
    (hys : ∀ y ∈ ys, (∃ r ∈ c.rules, r.addr = y) ∨
      ((h.id y).truthy ∧ Unknown (h.read root) base nested (h.id y)))
    (hn : (ys.map h.id).Nodup) :
    GroupEdit root (h.read root) base c { c with rules := ys.map fun y => ⟨y, h.props y⟩ } ix
      (ix.checkArrayStructure (h.withArray c.arr (ys.map some)) c.arr) nested := by
  have hmem := fun v (hv : v ∈ ys.map h.id) => ruleIds_of_fresh hw hc hys hv
  have hids : (ys.map fun y => (⟨y, h.props y⟩ : BaseRule)).map BaseRule.id = ys.map h.id := by
    rw [List.map_map]
    rfl
  have hcnodup : c.ids.Nodup := by
    obtain ⟨pre, post, heq⟩ := List.append_of_mem hc
    exact (treeIds_nodup_mid (heq ▸ ht.curTidy.distinct)).1
  have hctruthy : ∀ v ∈ c.ids, v.truthy := fun v hv =>
    ht.curTidy.truthy v (mem_treeIds.mpr ⟨c, hc, hv⟩)
  obtain ⟨hobjects, horiginals, hmarks⟩ :=
    checkArrayStructure_frame ix (h.withArray c.arr (ys.map some)) c.arr
  refine ⟨rfl, ?_, ?_, ?_, .inl rfl, ?_, ?_, hobjects, horiginals, hmarks, ?_,
    fun arr hne harr => (check_other hne).mpr harr⟩
  · rw [BaseGroup.ids, hids]
    refine List.nodup_cons.mpr ⟨fun hin => ?_, hn⟩
    rcases hmem _ hin with hin | ⟨-, hout, -⟩
    · exact (List.nodup_cons.mp hcnodup).1 hin
    · have hin : c.id ∈ treeIds (h.read root) := id_mem_treeIds hc
      exact hout hin
  · intro v hv
    rw [BaseGroup.ids, hids] at hv
    rcases List.mem_cons.mp hv with rfl | hv
    · exact hctruthy _ id_mem_ids
    · exact (hmem v hv).elim (fun h => hctruthy v (List.mem_cons_of_mem _ h)) fun h => h.1
  · intro v hv
    rw [BaseGroup.ids, hids] at hv
    rcases List.mem_cons.mp hv with rfl | hv
    · exact .inl id_mem_ids
    · exact (hmem v hv).imp (List.mem_cons_of_mem _) fun h => h.2
  · intro r hr hbase
    have hv : r.id ∈ ys.map h.id := hids ▸ List.mem_map_of_mem hr
    exact (hmem r.id hv).resolve_right fun h => h.2.2.1 hbase
  · intro o ho hbase
    rcases List.mem_cons.mp ho with rfl | ho
    · exact ⟨⟨c.addr, c.props⟩, List.mem_cons_self, rfl, rfl⟩
    · obtain ⟨y, hy, rfl⟩ := List.mem_map.mp ho
      rcases hys y hy with ⟨r, hr, rfl⟩ | hy
      · have hprops := ((Reads.of_whole hw).rules c hc r hr).2
        exact ⟨r, List.mem_cons_of_mem _ hr, (congrFun hprops "id").symm, hprops.symm⟩
      · exact absurd hbase hy.2.2.1
  · intro g hg hcg hclean
    have hself : (h.withArray c.arr (ys.map some)).arrays c.arr = ys.map some :=
      Function.update_self ..
    rw [hids]
    refine @check_self ix _ c.arr _ _ ?_ ?_ hclean
    · rw [ht.arr_eq hc hg hcg, ht.indexed.ruleIds g hg, List.map_map]
      rfl
    · rw [hself, List.map_map, List.map_map]
      refine List.map_congr_left fun y hy => key_of_truthy ?_
      rcases hmem _ (List.mem_map_of_mem hy) with hin | hin
      · exact hctruthy _ (List.mem_cons_of_mem _ hin)
      · exact hin.1

end Rules

theorem Session.Inv.onRules {s : Session} (hs : s.Inv) {c : BaseGroup}
    (hc : c ∈ s.heap.read s.root) {op : ArrayOp}
    (hdense : op.Dense (s.heap.arrays c.arr).length) (hfresh : s.FreshRules op.inserted) :
    Session.Inv ⟨s.toState.onArray c.arr op, s.nested⟩ := by
  have hw := hs.whole
  have ht := hs.tracks
  have hreads := Reads.of_whole hw
  have hrules : s.heap.arrays c.arr = (c.rules.map BaseRule.addr).map some := by
    rw [hreads.arrays c hc, List.map_map]
    rfl
  rw [hrules, List.length_map] at hdense
  obtain ⟨ys, hrun, hsub⟩ := ArrayOp.run_dense hdense
  have hfrom : ∀ a ∈ ys, (∃ r ∈ c.rules, r.addr = a) ∨ a ∈ op.inserted := by
    intro a ha
    exact (List.mem_append.mp (hsub.subset ha)).imp_left List.mem_map.mp
  have hunknown : ∀ y ∈ op.inserted, (s.heap.id y).truthy ∧
      Unknown (s.heap.read s.root) s.base s.nested (s.heap.id y) := fun y hy =>
    ⟨(hfresh.ids y hy).1, unknown_of_not_known hw (hfresh.ids y hy).2⟩
  have hleaf : ∀ y ∈ ys, s.heap.rules y = none := by
    intro y hy
    rcases hfrom y hy with ⟨r, hr, rfl⟩ | hy
    · exact (hreads.rules c hc r hr).1
    · exact hfresh.leaf y hy
  have hsubIds : List.Subperm (ys.map s.heap.id)
      (c.rules.map BaseRule.id ++ op.inserted.map s.heap.id) := by
    obtain ⟨m, hperm, hm⟩ := hsub
    have hm := hm.map s.heap.id
    have hrid : (c.rules.map BaseRule.addr).map s.heap.id = c.rules.map BaseRule.id := by
      rw [List.map_map]
      exact List.map_congr_left fun r hr =>
        id_of_mem hw (mem_treeObjects.mpr ⟨c, hc, List.mem_cons_of_mem _ hr⟩)
    rw [List.map_append, hrid] at hm
    exact ⟨m.map s.heap.id, hperm.map _, hm⟩
  obtain ⟨cpre, cpost, hcur, hread⟩ := @read_rules s.heap s.root c ys ht.curTidy hc
  have hcnodup : c.ids.Nodup := (treeIds_nodup_mid (hcur ▸ ht.curTidy.distinct)).1
  have hn : (ys.map s.heap.id).Nodup := by
    refine nodup_of_subperm hsubIds (List.nodup_append'.mpr
      ⟨(List.nodup_cons.mp hcnodup).2, hfresh.distinct, fun v hv hv' => ?_⟩)
    obtain ⟨y, hy, rfl⟩ := List.mem_map.mp hv'
    exact (hunknown y hy).2.1 (mem_treeIds.mpr ⟨c, hc, List.mem_cons_of_mem _ hv⟩)
  have hedit := groupEdit_rules hw ht hc (fun y hy => (hfrom y hy).imp_right (hunknown y)) hn
  have hstate : s.toState.onArray c.arr op = { s.toState with
      heap := s.heap.withArray c.arr (ys.map some)
      index := s.index.checkArrayStructure (s.heap.withArray c.arr (ys.map some)) c.arr } := by
    rw [← hrun, ← hrules]
    rfl
  rw [hstate]
  refine ⟨whole_withArray hw (ht.curTidy.arr_ne_root hc) hleaf, ?_⟩
  dsimp only
  rw [hread]
  rw [hcur] at ht hedit
  exact ht.editGroup hedit

/-! ## The start -/

theorem foldl_nestObject {h : Heap} {root : Arr} (hw : h.Whole root)
    (ht : Tidy root (h.read root)) {l : List BaseGroup} (hl : ∀ c ∈ l, c ∈ h.read root)
    (hn : (treeIds l).Nodup) (m : Value → List Props) :
    (∀ c ∈ l, l.foldl (fun m c => Session.nestObject h m c.addr) m c.id =
        c.rules.map BaseRule.props) ∧
      (∀ c ∈ l, ∀ r ∈ c.rules, l.foldl (fun m c => Session.nestObject h m c.addr) m r.id = []) ∧
      ∀ v ∉ treeIds l, l.foldl (fun m c => Session.nestObject h m c.addr) m v = m v := by
  induction l generalizing m with
  | nil =>
    exact ⟨fun c hc => absurd hc List.not_mem_nil, fun c hc => absurd hc List.not_mem_nil,
      fun v _ => rfl⟩
  | cons c l ih =>
    obtain ⟨hc, hl⟩ := List.forall_mem_cons.mp hl
    rw [treeIds_cons, List.nodup_append'] at hn
    obtain ⟨hcn, hln, hdis⟩ := hn
    obtain ⟨hgroups, hrules, hout⟩ := ih hl hln (Session.nestObject h m c.addr)
    have hstep := nestObject_eq hw ht hc m
    simp only [List.foldl_cons]
    refine ⟨fun k hk => ?_, fun k hk r hr => ?_, fun v hv => ?_⟩
    · rcases List.mem_cons.mp hk with rfl | hk
      · rw [hout _ fun h => hdis id_mem_ids h, hstep]
        dsimp only
        rw [if_neg (List.nodup_cons.mp hcn).1, if_pos rfl]
      · exact hgroups k hk
    · rcases List.mem_cons.mp hk with rfl | hk
      · rw [hout _ fun h => hdis (rule_mem_ids hr) h, hstep]
        exact if_pos (List.mem_map_of_mem hr)
      · exact hrules k hk r hr
    · obtain ⟨hvc, hvl⟩ := not_or.mp fun h => hv (List.mem_append.mpr h)
      obtain ⟨hne, hnot⟩ := not_or.mp fun h => hvc (List.mem_cons.mpr h)
      rw [hout v hvl, hstep]
      dsimp only
      rw [if_neg hnot, if_neg hne]

theorem Session.Inv.new {h : Heap} {root : Arr} (hp : Session.Proper h root) :
    (Session.new h root).Inv := by
  have hw := hp.whole
  have ht := hp.tidy
  have hreads := Reads.of_whole hw
  have hindex : (Session.new h root).index = _ := init_eq hw
  have hnested : (Session.new h root).nested =
      (h.read root).foldl (fun m c => Session.nestObject h m c.addr) fun _ => [] := by
    unfold Session.new Session.nestGroups
    rw [hreads.root, List.foldl_map]
    rfl
  obtain ⟨hcopies, hnone⟩ := @foldl_record (treeObjects (h.read root))
    (map_id_treeObjects _ ▸ ht.distinct) (fun b hb => ht.truthy _ (object_mem_treeIds hb))
    fun _ => none
  rw [map_id_treeObjects] at hnone
  have harrays : ∀ arr, (Session.new h root).index.originalArrays arr =
      if arr ∈ root :: (h.read root).map BaseGroup.arr
        then some ((h.arrays arr).map h.copyKey) else none := by
    intro arr
    rw [hindex]
    exact foldl_link h _ _ arr
  have hgid : ∀ g ∈ h.read root, h.id g.addr = g.id := fun g hg =>
    id_of_mem hw (mem_treeObjects.mpr ⟨g, hg, List.mem_cons_self⟩)
  have hrid : ∀ g ∈ h.read root, ∀ r ∈ g.rules, h.id r.addr = r.id := fun g hg r hr =>
    id_of_mem hw (mem_treeObjects.mpr ⟨g, hg, List.mem_cons_of_mem _ hr⟩)
  obtain ⟨hgroups, hrules, -⟩ :=
    foldl_nestObject hw ht (fun c hc => hc) ht.distinct fun _ => []
  refine ⟨hw, ht, ht, ⟨fun c hc _ => ⟨c, hc, rfl, rfl⟩,
    fun c hc r hr _ => ⟨c, hc, rfl, List.mem_map_of_mem hr⟩⟩,
    ⟨fun b hb => ?_, fun v hv => ?_, ?_, fun g hg => ?_, fun c hc hout => ?_⟩,
    ⟨fun o ho b hb hob p => ?_, fun _ => rfl, fun c hc g hg hcg _ => ?_⟩,
    fun g hg v hv _ => ?_, fun g hg r hr => ?_, fun v hv hout => ?_⟩
  · rw [hindex]
    exact hcopies b hb
  · rw [hindex]
    exact hnone v hv
  · refine (harrays root).trans ?_
    rw [if_pos List.mem_cons_self, hreads.root,
      map_copyKey hgid fun g hg => ht.truthy _ (id_mem_treeIds hg)]
    rfl
  · have hin : g.arr ∈ root :: (h.read root).map BaseGroup.arr :=
      List.mem_cons_of_mem _ (List.mem_map_of_mem hg)
    rw [harrays, if_pos hin, hreads.arrays g hg,
      map_copyKey (hrid g hg) fun r hr => ht.truthy _ (rule_mem_treeIds hg hr)]
  · exact absurd (id_mem_treeIds hc) hout
  · have heq : o = b := eq_of_id ht.distinct ho hb hob
    rw [heq, hindex]
    exact iff_of_false (Finset.notMem_empty _) fun h => h rfl
  · rw [eq_of_mem_ids ht.distinct hc hg id_mem_ids (hcg ▸ id_mem_ids)]
  · rw [nestedIds, hnested, hgroups g hg, List.map_map] at hv
    exact hv
  · rw [hnested]
    exact hrules g hg r hr
  · exact absurd hv hout

/-- A fair edit keeps the invariant. -/
theorem Session.Inv.edit {s : Session} (hs : s.Inv) {e : Edit} (hfair : s.FairEdit e) :
    (s.edit e).Inv := by
  have hreads := Reads.of_whole hs.whole
  cases e with
  | setGroup i prop v =>
    unfold Session.edit State.step
    dsimp only
    split
    · exact hs
    · next a ha =>
      obtain ⟨c, hc, rfl⟩ := group_of_element hs.whole (element_mem ha)
      exact hs.setField (o := ⟨c.addr, c.props⟩)
        (mem_treeObjects.mpr ⟨c, hc, List.mem_cons_self⟩) (hfair c.addr ha)
  | setRule i j prop v =>
    unfold Session.edit State.step
    dsimp only
    split
    · exact hs
    · next a ha =>
      obtain ⟨arr, harr, hmem⟩ := Option.bind_eq_some_iff.mp ha
      obtain ⟨c, hc, rfl⟩ := group_of_rulesOf hs.whole harr
      obtain ⟨r, hr, rfl⟩ := rule_of_element hs.whole hc (element_mem hmem)
      exact hs.setField (mem_treeObjects.mpr ⟨c, hc, List.mem_cons_of_mem _ hr⟩)
        (hfair r.addr ha)
  | onGroups op => exact hs.onGroups hfair.1 hfair.2
  | onRules i op =>
    unfold Session.edit State.step
    dsimp only
    split
    · exact hs
    · next arr harr =>
      obtain ⟨c, hc, rfl⟩ := group_of_rulesOf hs.whole harr
      exact hs.onRules hc (hfair c.arr harr).1 (hfair c.arr harr).2
  | reset groups => exact Session.Inv.new hfair

end MagiTrickle.ChangeTracker
