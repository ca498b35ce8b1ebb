import MagiTrickle.Frontend.TrackerBase
import MagiTrickle.Lib.Runs

/-!
# When the unsaved-changes flag is exact

Changed fields are kept under the id of an object and arrays under their
identity. Both agree with a comparison of the whole data as long as an object of
the data that carries an id of the baseline is the baseline's own object
(`Admissible`): then there is one object for every id, and what is kept for the
id is what that object has (`Inv`).
-/

namespace MagiTrickle.ChangeTracker

open Lib.Runs (Guarded)

/-! ## The statement -/

def State.baseObjects (s : State) : List BaseRule := s.base.flatMap BaseGroup.objects

def State.baseIds (s : State) : List Value := s.baseObjects.map BaseRule.id

def RuleIs (h : Heap) (e : Option Addr) (r : BaseRule) : Prop :=
  ∃ a, e = some a ∧ h.rules a = none ∧ h.props a = r.props

def GroupIs (h : Heap) (e : Option Addr) (g : BaseGroup) : Prop :=
  ∃ a arr, e = some a ∧ h.rules a = some arr ∧ h.props a = g.props ∧
    List.Forall₂ (RuleIs h) (h.arrays arr) g.rules

/-- The data equals the baseline in order, ids and field values. -/
def State.Unchanged (s : State) : Prop :=
  List.Forall₂ (GroupIs s.heap) (s.heap.arrays s.root) s.base

/-- The list is fit for a baseline: groups with rules, all ids distinct and none of them empty. -/
structure Proper (h : Heap) (root : Arr) : Prop where
  whole : h.Whole root
  distinct : (State.new h root).baseIds.Nodup
  truthy : ∀ v ∈ (State.new h root).baseIds, v.truthy

/-- The object is one of those the tracker was given. -/
def State.Own (s : State) (a : Addr) : Prop := a ∈ s.baseObjects.map BaseRule.addr

/-- An object with an id of the baseline is the baseline's own. -/
def State.Admissible (s : State) (a : Addr) : Prop := s.Own a ∨ s.heap.id a ∉ s.baseIds

/-- The object is admissible, and so are the rules it brings along. -/
def State.Brings (s : State) (x : Addr) : Prop :=
  s.Admissible x ∧ ∀ arr, s.heap.rules x = some arr →
    ∀ r, some r ∈ s.heap.arrays arr → s.Admissible r

/-- An id stays as it is, or is none of the baseline before and after. -/
def State.FairSet (s : State) (a : Addr) (prop : String) (v : Value) : Prop :=
  prop = "id" → v = s.heap.id a ∨ (¬ s.Own a ∧ v ∉ s.baseIds)

/-- The edit does not confuse the ids of the baseline. -/
def State.Fair (s : State) : Edit → Prop
  | .setGroup i prop v => ∀ a, s.element s.root i = some a → s.FairSet a prop v
  | .setRule i j prop v => ∀ a, (s.rulesOf i).bind (fun arr => s.element arr j) = some a →
      s.FairSet a prop v
  | .onGroups op | .onRules _ op => ∀ x ∈ op.inserted, s.Brings x
  | .reset groups =>
    Proper { s.heap with arrays := Function.update s.heap.arrays s.root (groups.map some) } s.root

/-! ## The invariant -/

/-- What the tracker keeps, in terms of the baseline and the data. -/
structure State.Inv (s : State) : Prop where
  distinct : s.baseIds.Nodup
  truthy : ∀ v ∈ s.baseIds, v.truthy
  /-- The copies are those of the baseline. -/
  copies : ∀ b ∈ s.baseObjects, s.index.originalObjects b.id = some b.props
  noCopy : ∀ v ∉ s.baseIds, s.index.originalObjects v = none
  /-- The objects of the baseline have kept their ids and their arrays. -/
  ids : ∀ b ∈ s.baseObjects, s.heap.id b.addr = b.id
  groups : ∀ g ∈ s.base, s.heap.rules g.addr = some g.arr
  leaves : ∀ g ∈ s.base, ∀ r ∈ g.rules, s.heap.rules r.addr = none
  rootIds : s.index.originalArrays s.root = some (s.base.map fun g => .value g.id)
  ruleIds : ∀ g ∈ s.base, s.index.originalArrays g.arr = some (g.rules.map fun r => .value r.id)
  tracked : ∀ arr, s.index.originalArrays arr ≠ none → arr = s.root ∨ ∃ g ∈ s.base, g.arr = arr
  /-- The two sets say where the data differs. -/
  dirtyProps : ∀ v p, (v, p) ∈ s.index.dirtyObjectProps ↔
    ∃ b ∈ s.baseObjects, b.id = v ∧ s.heap.props b.addr p ≠ b.props p
  dirtyArrays : ∀ arr, arr ∈ s.index.dirtyArrays ↔
    ∃ keys, s.index.originalArrays arr = some keys ∧ (s.heap.arrays arr).map s.heap.key ≠ keys
  /-- An id of the baseline is found on its own object only. -/
  okRoot : ∀ a, some a ∈ s.heap.arrays s.root → s.Admissible a
  okRules : ∀ x arr r, s.Own x ∨ some x ∈ s.heap.arrays s.root → s.heap.rules x = some arr →
    some r ∈ s.heap.arrays arr → s.Admissible r

section Base

variable {s : State} {g : BaseGroup} {r b : BaseRule}

theorem group_mem_baseObjects (hg : g ∈ s.base) : ⟨g.addr, g.props⟩ ∈ s.baseObjects :=
  List.mem_flatMap.mpr ⟨g, hg, List.mem_cons_self⟩

theorem rule_mem_baseObjects (hg : g ∈ s.base) (hr : r ∈ g.rules) : r ∈ s.baseObjects :=
  List.mem_flatMap.mpr ⟨g, hg, List.mem_cons_of_mem _ hr⟩

theorem mem_baseObjects (hb : b ∈ s.baseObjects) :
    (∃ g ∈ s.base, b = ⟨g.addr, g.props⟩) ∨ ∃ g ∈ s.base, b ∈ g.rules := by
  obtain ⟨g, hg, hb⟩ := List.mem_flatMap.mp hb
  rcases List.mem_cons.mp hb with rfl | hb
  · exact .inl ⟨g, hg, rfl⟩
  · exact .inr ⟨g, hg, hb⟩

theorem id_mem_baseIds (hb : b ∈ s.baseObjects) : b.id ∈ s.baseIds := List.mem_map_of_mem hb

theorem own_of_mem (hb : b ∈ s.baseObjects) : s.Own b.addr := List.mem_map_of_mem hb

end Base

/-- The tracker starts from its data. -/
theorem State.Inv.new {h : Heap} {root : Arr} (hp : Proper h root) : (State.new h root).Inv := by
  have hreads : Reads h root (State.new h root).base := Reads.of_whole hp.whole
  have hindex : (State.new h root).index = _ := init_eq hp.whole
  have ht : ∀ b ∈ (State.new h root).baseObjects, b.id.truthy :=
    fun b hb => hp.truthy b.id (id_mem_baseIds hb)
  obtain ⟨hcopies, hnone⟩ := foldl_record hp.distinct ht fun _ => none
  have hprops : ∀ b ∈ (State.new h root).baseObjects, h.props b.addr = b.props := by
    intro b hb
    rcases mem_baseObjects hb with ⟨g, hg, rfl⟩ | ⟨g, hg, hr⟩
    · exact (hreads.groups g hg).2
    · exact (hreads.rules g hg b hr).2
  have hids : ∀ b ∈ (State.new h root).baseObjects, h.id b.addr = b.id :=
    fun b hb => congrFun (hprops b hb) "id"
  have harrays : ∀ arr, (State.new h root).index.originalArrays arr =
      if arr ∈ root :: (State.new h root).base.map BaseGroup.arr
        then some ((h.arrays arr).map h.copyKey) else none := by
    intro arr
    rw [hindex]
    exact foldl_link h _ _ arr
  have hgid : ∀ g ∈ (State.new h root).base, h.id g.addr = g.id :=
    fun g hg => hids _ (group_mem_baseObjects hg)
  have hgt : ∀ g ∈ (State.new h root).base, g.id.truthy :=
    fun g hg => ht _ (group_mem_baseObjects hg)
  have hrid : ∀ g ∈ (State.new h root).base, ∀ r ∈ g.rules, h.id r.addr = r.id :=
    fun g hg r hr => hids r (rule_mem_baseObjects hg hr)
  have hrt : ∀ g ∈ (State.new h root).base, ∀ r ∈ g.rules, r.id.truthy :=
    fun g hg r hr => ht r (rule_mem_baseObjects hg hr)
  -- an array of the baseline has the same keys in the heap and in the snapshot
  have hkeys : ∀ arr ∈ root :: (State.new h root).base.map BaseGroup.arr,
      (h.arrays arr).map h.key = (h.arrays arr).map h.copyKey := by
    intro arr harr
    rcases List.mem_cons.mp harr with rfl | harr
    · rw [hreads.root, map_key hgid hgt, map_copyKey hgid hgt]
    · obtain ⟨g, hg, rfl⟩ := List.mem_map.mp harr
      rw [hreads.arrays g hg, map_key (hrid g hg) (hrt g hg), map_copyKey (hrid g hg) (hrt g hg)]
  have hroot : ∀ a, some a ∈ h.arrays root → (State.new h root).Own a := by
    intro a ha
    rw [hreads.root] at ha
    obtain ⟨g, hg, heq⟩ := List.mem_map.mp ha
    cases heq
    exact own_of_mem (group_mem_baseObjects hg)
  refine ⟨hp.distinct, hp.truthy, fun b hb => ?_, fun v hv => ?_, hids,
    fun g hg => (hreads.groups g hg).1, fun g hg r hr => (hreads.rules g hg r hr).1, ?_,
    fun g hg => ?_, fun arr harr => ?_, fun v p => ?_, fun arr => ?_,
    fun a ha => .inl (hroot a ha), fun x arr r hx harr hr => ?_⟩
  · rw [hindex]
    exact hcopies b hb
  · rw [hindex]
    exact hnone v hv
  · refine (harrays root).trans ?_
    rw [if_pos List.mem_cons_self, hreads.root, map_copyKey hgid hgt]
  · rw [harrays, if_pos (List.mem_cons_of_mem _ (List.mem_map_of_mem hg)), hreads.arrays g hg,
      map_copyKey (hrid g hg) (hrt g hg)]
  · rw [harrays] at harr
    split at harr
    · next hmem => exact (List.mem_cons.mp hmem).imp_right List.mem_map.mp
    · exact absurd rfl harr
  · refine ⟨fun hmem => ?_, ?_⟩
    · rw [hindex] at hmem
      exact absurd hmem (Finset.notMem_empty _)
    · rintro ⟨b, hb, -, hne⟩
      exact absurd (congrFun (hprops b hb) p) hne
  · refine ⟨fun hmem => ?_, ?_⟩
    · rw [hindex] at hmem
      exact absurd hmem (Finset.notMem_empty _)
    · rintro ⟨keys, hsome, hne⟩
      rw [harrays] at hsome
      split at hsome
      · next hmem =>
        cases hsome
        exact absurd (hkeys arr hmem) hne
      · cases hsome
  · -- only a group of the baseline has rules, and these are the baseline's
    obtain ⟨b, hb, rfl⟩ := List.mem_map.mp (hx.elim id (hroot x))
    rcases mem_baseObjects hb with ⟨g, hg, rfl⟩ | ⟨g, hg, hb⟩
    · cases (hreads.groups g hg).1.symm.trans harr
      have hr : some r ∈ h.arrays g.arr := hr
      rw [hreads.arrays g hg] at hr
      obtain ⟨r', hr', heq⟩ := List.mem_map.mp hr
      cases heq
      exact .inl (own_of_mem (rule_mem_baseObjects hg hr'))
    · cases (hreads.rules g hg b hb).1.symm.trans harr

namespace State.Inv

variable {s : State}

theorem eq_of_id (hs : s.Inv) {b b' : BaseRule} (hb : b ∈ s.baseObjects) (hb' : b' ∈ s.baseObjects)
    (h : b.id = b'.id) : b = b' :=
  List.inj_on_of_nodup_map hs.distinct hb hb' h

theorem eq_of_addr (hs : s.Inv) {b b' : BaseRule} (hb : b ∈ s.baseObjects)
    (hb' : b' ∈ s.baseObjects) (h : b.addr = b'.addr) : b = b' := by
  refine hs.eq_of_id hb hb' ?_
  rw [← hs.ids b hb, ← hs.ids b' hb', h]

/-- An admissible object with an id of the baseline is the baseline's. -/
theorem addr_of_id (hs : s.Inv) {a : Addr} {b : BaseRule} (ha : s.Admissible a)
    (hb : b ∈ s.baseObjects) (h : s.heap.id a = b.id) : a = b.addr := by
  rcases ha with ha | ha
  · obtain ⟨b', hb', rfl⟩ := List.mem_map.mp ha
    rw [hs.ids b' hb'] at h
    rw [hs.eq_of_id hb' hb h]
  · rw [h] at ha
    exact absurd (id_mem_baseIds hb) ha

theorem keys_of_tracked (hs : s.Inv) {arr : Arr} {keys : List Key}
    (h : s.index.originalArrays arr = some keys) :
    ∃ vs : List Value, (∀ v ∈ vs, v ∈ s.baseIds) ∧ keys = vs.map .value := by
  have hsome : s.index.originalArrays arr ≠ none := by
    rw [h]
    exact Option.some_ne_none _
  rcases hs.tracked arr hsome with rfl | ⟨g, hg, rfl⟩
  · cases h.symm.trans hs.rootIds
    refine ⟨s.base.map BaseGroup.id, fun v hv => ?_, by rw [List.map_map]; rfl⟩
    obtain ⟨g, hg, rfl⟩ := List.mem_map.mp hv
    exact id_mem_baseIds (group_mem_baseObjects hg)
  · cases h.symm.trans (hs.ruleIds g hg)
    refine ⟨g.rules.map BaseRule.id, fun v hv => ?_, by rw [List.map_map]; rfl⟩
    obtain ⟨r, hr, rfl⟩ := List.mem_map.mp hv
    exact id_mem_baseIds (rule_mem_baseObjects hg hr)

theorem sameKeys_tracked (hs : s.Inv) {arr : Arr} {keys : List Key}
    (h : s.index.originalArrays arr = some keys) (current : List Key) :
    Index.sameKeys keys current = true ↔ current = keys := by
  obtain ⟨vs, -, rfl⟩ := hs.keys_of_tracked h
  rw [sameKeys_iff (by simp), eq_comm]

end State.Inv

/-! ## Array operations keep the invariant -/

theorem mem_checkArrayStructure {s : State} (hs : s.Inv) (h : Heap) (arr arr' : Arr) :
    arr' ∈ (s.index.checkArrayStructure h arr).dirtyArrays ↔
      if arr' = arr then ∃ keys, s.index.originalArrays arr = some keys ∧
        (h.arrays arr).map h.key ≠ keys
      else arr' ∈ s.index.dirtyArrays := by
  unfold Index.checkArrayStructure
  cases horig : s.index.originalArrays arr with
  | none =>
    dsimp only
    split
    · next heq =>
      rw [heq, hs.dirtyArrays, horig]
      simp
    · rfl
  | some keys =>
    dsimp only
    have hsame := hs.sameKeys_tracked horig ((h.arrays arr).map h.key)
    by_cases hk : (h.arrays arr).map h.key = keys
    · rw [if_pos (hsame.mpr hk)]
      dsimp only
      rw [Finset.mem_erase]
      split
      · next heq => simp [heq, hk]
      · next hne => simp [hne]
    · rw [if_neg (fun h => hk (hsame.mp h))]
      dsimp only
      rw [Finset.mem_insert]
      split
      · next heq => simp [heq, hk]
      · next hne => simp [hne]

theorem checkArrayStructure_frame (ix : Index) (h : Heap) (arr : Arr) :
    (ix.checkArrayStructure h arr).originalObjects = ix.originalObjects ∧
      (ix.checkArrayStructure h arr).originalArrays = ix.originalArrays ∧
      (ix.checkArrayStructure h arr).dirtyObjectProps = ix.dirtyObjectProps := by
  unfold Index.checkArrayStructure
  split
  · exact ⟨rfl, rfl, rfl⟩
  · split <;> exact ⟨rfl, rfl, rfl⟩

theorem State.Inv.onArray {s : State} (hs : s.Inv) (arr : Arr) {op : ArrayOp}
    (hop : ∀ x ∈ op.inserted, s.Brings x) : (s.onArray arr op).Inv := by
  obtain ⟨hobjects, horiginal, hprops⟩ := checkArrayStructure_frame s.index (s.onArray arr op).heap arr
  have hindex : (s.onArray arr op).index =
      s.index.checkArrayStructure (s.onArray arr op).heap arr := rfl
  have hself : (s.onArray arr op).heap.arrays arr = op.run (s.heap.arrays arr) :=
    Function.update_self ..
  have hother : ∀ arr', arr' ≠ arr →
      (s.onArray arr op).heap.arrays arr' = s.heap.arrays arr' :=
    fun arr' hne => Function.update_of_ne hne ..
  -- an array holds what it held, or what was inserted
  have hmem : ∀ arr' a, some a ∈ (s.onArray arr op).heap.arrays arr' →
      some a ∈ s.heap.arrays arr' ∨ s.Brings a := by
    intro arr' a ha
    by_cases heq : arr' = arr
    · rw [heq, hself] at ha
      rw [heq]
      exact (ArrayOp.mem_run ha).imp_right (hop a)
    · rw [hother arr' heq] at ha
      exact .inl ha
  refine ⟨hs.distinct, hs.truthy, ?_, ?_, hs.ids, hs.groups, hs.leaves, ?_, ?_, ?_, ?_, ?_, ?_, ?_⟩
  · rw [hindex, hobjects]
    exact hs.copies
  · rw [hindex, hobjects]
    exact hs.noCopy
  · rw [hindex, horiginal]
    exact hs.rootIds
  · rw [hindex, horiginal]
    exact hs.ruleIds
  · rw [hindex, horiginal]
    exact hs.tracked
  · rw [hindex, hprops]
    exact hs.dirtyProps
  · intro arr'
    rw [hindex, mem_checkArrayStructure hs, horiginal]
    split
    · next heq => rw [heq]
    · next hne =>
      rw [hs.dirtyArrays, hother arr' hne]
      rfl
  · intro a ha
    exact (hmem s.root a ha).elim (hs.okRoot a) fun h => h.1
  · intro x arr' r hx harr' hr
    rcases hmem arr' r hr with hr | hr
    · rcases hx with hx | hx
      · exact hs.okRules x arr' r (.inl hx) harr' hr
      · rcases hmem s.root x hx with hx | hx
        · exact hs.okRules x arr' r (.inr hx) harr' hr
        · exact hx.2 arr' harr' r hr
    · exact hr.1

/-! ## Setting a field keeps the invariant -/

theorem checkObjectField_frame (ix : Index) (h : Heap) (a : Addr) (p : String) :
    (ix.checkObjectField h a p).originalObjects = ix.originalObjects ∧
      (ix.checkObjectField h a p).originalArrays = ix.originalArrays ∧
      (ix.checkObjectField h a p).dirtyArrays = ix.dirtyArrays := by
  unfold Index.checkObjectField
  split
  · exact ⟨rfl, rfl, rfl⟩
  · split
    · exact ⟨rfl, rfl, rfl⟩
    · split <;> exact ⟨rfl, rfl, rfl⟩

theorem checkObjectField_none {ix : Index} {h : Heap} {a : Addr} (p : String)
    (horig : ix.originalObjects (h.id a) = none) : ix.checkObjectField h a p = ix := by
  rw [Index.checkObjectField, horig]
  split <;> rfl

theorem mem_checkObjectField {ix : Index} {h : Heap} {a : Addr} {original : Props} (p : String)
    (ht : (h.id a).truthy) (horig : ix.originalObjects (h.id a) = some original) (v : Value)
    (q : String) :
    (v, q) ∈ (ix.checkObjectField h a p).dirtyObjectProps ↔
      if v = h.id a ∧ q = p then h.props a p ≠ original p else (v, q) ∈ ix.dirtyObjectProps := by
  rw [Index.checkObjectField, if_neg (not_not.mpr ht), horig]
  dsimp only
  by_cases hp : h.props a p = original p
  · rw [if_neg (not_not.mpr hp)]
    dsimp only
    rw [Finset.mem_erase, ne_eq, Prod.mk.injEq]
    split
    · next heq => simp [heq, hp]
    · next hne => simp [hne]
  · rw [if_pos hp]
    dsimp only
    rw [Finset.mem_insert, Prod.mk.injEq]
    split
    · next heq => simp [heq, hp]
    · next hne => simp [hne]

theorem setField_props_of_ne {s : State} {a x : Addr} (p : String) (v : Value) (h : x ≠ a) :
    (s.setField a p v).heap.props x = s.heap.props x :=
  Function.update_of_ne h ..

theorem setField_props_self (s : State) (a : Addr) (p : String) (v : Value) :
    (s.setField a p v).heap.props a = Function.update (s.heap.props a) p v :=
  Function.update_self ..

theorem setField_id {s : State} {a x : Addr} {p : String} {v : Value} (ha : s.Admissible a)
    (hfair : s.FairSet a p v)
    (hx : s.heap.id x ∈ s.baseIds ∨ (s.setField a p v).heap.id x ∈ s.baseIds) :
    (s.setField a p v).heap.id x = s.heap.id x := by
  by_cases hxa : x = a
  · subst hxa
    unfold Heap.id at hx ⊢
    rw [setField_props_self] at hx ⊢
    by_cases hp : p = "id"
    · subst hp
      rw [Function.update_self] at hx ⊢
      rcases hfair rfl with heq | ⟨hown, hv⟩
      · exact heq
      · rcases hx with hx | hx
        · exact absurd hx (ha.resolve_left hown)
        · exact absurd hx hv
    · rw [Function.update_of_ne (Ne.symm hp)]
  · unfold Heap.id
    rw [setField_props_of_ne p v hxa]

theorem State.Inv.setField {s : State} (hs : s.Inv) {a : Addr} {p : String} {v : Value}
    (ha : s.Admissible a) (hfair : s.FairSet a p v) : (s.setField a p v).Inv := by
  have hid : ∀ x, s.heap.id x ∈ s.baseIds ∨ (s.setField a p v).heap.id x ∈ s.baseIds →
      (s.setField a p v).heap.id x = s.heap.id x := fun x => setField_id ha hfair
  have hbase : ∀ b ∈ s.baseObjects, (s.setField a p v).heap.id b.addr = b.id := by
    intro b hb
    rw [hid b.addr (.inl (by rw [hs.ids b hb]; exact id_mem_baseIds hb)), hs.ids b hb]
  have hadm : ∀ x, s.Admissible x → (s.setField a p v).Admissible x := by
    intro x hx
    refine hx.imp_right fun hx hmem => ?_
    have heq := hid x (.inr hmem)
    exact hx (heq ▸ hmem)
  obtain ⟨hobjects, horiginal, harrays⟩ :=
    checkObjectField_frame s.index (s.setField a p v).heap a p
  have hindex : (s.setField a p v).index =
      s.index.checkObjectField (s.setField a p v).heap a p := rfl
  refine ⟨hs.distinct, hs.truthy, ?_, ?_, hbase, hs.groups, hs.leaves, ?_, ?_, ?_, ?_, ?_,
    fun x hx => hadm x (hs.okRoot x hx),
    fun x arr r hx harr hr => hadm r (hs.okRules x arr r hx harr hr)⟩
  · rw [hindex, hobjects]
    exact hs.copies
  · rw [hindex, hobjects]
    exact hs.noCopy
  · rw [hindex, horiginal]
    exact hs.rootIds
  · rw [hindex, horiginal]
    exact hs.ruleIds
  · rw [hindex, horiginal]
    exact hs.tracked
  · intro w q
    rw [hindex]
    by_cases hown : s.Own a
    · obtain ⟨b, hb, rfl⟩ := List.mem_map.mp hown
      have hb' : b ∈ (s.setField b.addr p v).baseObjects := hb
      rw [mem_checkObjectField p (by rw [hbase b hb]; exact hs.truthy _ (id_mem_baseIds hb))
        (by rw [hbase b hb]; exact hs.copies b hb), hbase b hb]
      split
      · next heq =>
        obtain ⟨rfl, rfl⟩ := heq
        refine ⟨fun hne => ⟨b, hb, rfl, hne⟩, ?_⟩
        rintro ⟨c, hc, hcb, hne⟩
        cases hs.eq_of_id hc hb hcb
        exact hne
      · next hne =>
        rw [hs.dirtyProps]
        refine exists_congr fun c => and_congr_right fun hc => and_congr_right fun hcw => ?_
        by_cases hcb : c.addr = b.addr
        · cases hs.eq_of_addr hc hb hcb
          have hqp : q ≠ p := fun h => hne ⟨hcw.symm, h⟩
          rw [setField_props_self, Function.update_of_ne hqp]
        · rw [setField_props_of_ne p v hcb]
    · have hout : (s.setField a p v).heap.id a ∉ s.baseIds :=
        (hadm a ha).resolve_left hown
      rw [checkObjectField_none p (hs.noCopy _ hout), hs.dirtyProps]
      refine exists_congr fun c => and_congr_right fun hc => and_congr_right fun hcw => ?_
      have hne : c.addr ≠ a := fun h => hown (h ▸ own_of_mem hc)
      rw [setField_props_of_ne p v hne]
  · intro arr
    rw [hindex, harrays, hs.dirtyArrays, horiginal]
    refine exists_congr fun keys => and_congr_right fun hkeys => not_congr ?_
    obtain ⟨vs, hvs, rfl⟩ := hs.keys_of_tracked hkeys
    exact map_key_congr hs.truthy hid _ hvs

/-! ## Runs -/

theorem element_mem {s : State} {arr : Arr} {i : Nat} {a : Addr} (h : s.element arr i = some a) :
    some a ∈ s.heap.arrays arr := by
  unfold State.element at h
  exact List.mem_of_getElem? (Option.join_eq_some_iff.mp h)

/-- A fair edit keeps the invariant. -/
theorem State.Inv.step {s : State} (hs : s.Inv) {edit : Edit} (hfair : s.Fair edit) :
    (s.step edit).Inv := by
  cases edit with
  | setGroup i prop v =>
    rw [State.step]
    split
    · exact hs
    · next a ha => exact hs.setField (hs.okRoot a (element_mem ha)) (hfair a ha)
  | setRule i j prop v =>
    rw [State.step]
    split
    · exact hs
    · next r hr =>
      obtain ⟨arr, harr, hmem⟩ := Option.bind_eq_some_iff.mp hr
      obtain ⟨x, hx, hrules⟩ := Option.bind_eq_some_iff.mp harr
      exact hs.setField (hs.okRules x arr r (.inr (element_mem hx)) hrules (element_mem hmem))
        (hfair r hr)
  | onGroups op => exact hs.onArray s.root hfair
  | onRules i op =>
    rw [State.step]
    split
    · exact hs
    · next arr _ => exact hs.onArray arr hfair
  | reset groups => exact State.Inv.new hfair

/-! ## The flag -/

theorem forall₂_imp_mem {α β : Type} {R S : α → β → Prop} {l : List α} {u : List β}
    (h : List.Forall₂ R l u) (himp : ∀ x ∈ l, ∀ y ∈ u, R x y → S x y) : List.Forall₂ S l u := by
  induction h with
  | nil => exact .nil
  | cons hxy _ ih =>
    exact .cons (himp _ List.mem_cons_self _ List.mem_cons_self hxy)
      (ih fun x hx y hy => himp x (List.mem_cons_of_mem _ hx) y (List.mem_cons_of_mem _ hy))

theorem exists_of_forall₂ {α β : Type} {R : α → β → Prop} {l : List α} {u : List β}
    (h : List.Forall₂ R l u) {y : β} (hy : y ∈ u) : ∃ x ∈ l, R x y := by
  induction h with
  | nil => exact absurd hy List.not_mem_nil
  | cons hxy _ ih =>
    rcases List.mem_cons.mp hy with rfl | hy
    · exact ⟨_, List.mem_cons_self, hxy⟩
    · obtain ⟨x, hx, hxy⟩ := ih hy
      exact ⟨x, List.mem_cons_of_mem _ hx, hxy⟩

theorem map_eq_map_iff_forall₂ {α β γ : Type} {f : α → γ} {k : β → γ} {l : List α} {u : List β} :
    l.map f = u.map k ↔ List.Forall₂ (fun x y => f x = k y) l u := by
  rw [← List.forall₂_eq_eq_eq, List.forall₂_map_left_iff, List.forall₂_map_right_iff]

namespace State.Inv

variable {s : State}

/-- The flag is off if no field and no array differs. -/
theorem isDirty_false_iff (hs : s.Inv) :
    s.isDirty = false ↔
      (∀ b ∈ s.baseObjects, s.heap.props b.addr = b.props) ∧
        (s.heap.arrays s.root).map s.heap.key = s.base.map (fun g => .value g.id) ∧
        ∀ g ∈ s.base, (s.heap.arrays g.arr).map s.heap.key = g.rules.map fun r => .value r.id := by
  unfold State.isDirty
  rw [decide_eq_false_iff_not, not_or, not_not, not_not]
  refine ⟨?_, ?_⟩
  · rintro ⟨hprops, harrays⟩
    refine ⟨fun b hb => funext fun p => ?_, ?_, fun g hg => ?_⟩
    · by_contra hne
      have hmem := (hs.dirtyProps b.id p).mpr ⟨b, hb, rfl, hne⟩
      rw [hprops] at hmem
      exact Finset.notMem_empty _ hmem
    · by_contra hne
      have hmem := (hs.dirtyArrays s.root).mpr ⟨_, hs.rootIds, hne⟩
      rw [harrays] at hmem
      exact Finset.notMem_empty _ hmem
    · by_contra hne
      have hmem := (hs.dirtyArrays g.arr).mpr ⟨_, hs.ruleIds g hg, hne⟩
      rw [harrays] at hmem
      exact Finset.notMem_empty _ hmem
  · rintro ⟨hprops, hroot, hrules⟩
    refine ⟨Finset.eq_empty_of_forall_notMem fun vp hmem => ?_,
      Finset.eq_empty_of_forall_notMem fun arr hmem => ?_⟩
    · obtain ⟨b, hb, -, hne⟩ := (hs.dirtyProps vp.1 vp.2).mp hmem
      exact hne (congrFun (hprops b hb) vp.2)
    · obtain ⟨keys, hkeys, hne⟩ := (hs.dirtyArrays arr).mp hmem
      have hsome : s.index.originalArrays arr ≠ none := by
        rw [hkeys]
        exact Option.some_ne_none _
      rcases hs.tracked arr hsome with rfl | ⟨g, hg, rfl⟩
      · cases hkeys.symm.trans hs.rootIds
        exact hne hroot
      · cases hkeys.symm.trans (hs.ruleIds g hg)
        exact hne (hrules g hg)

/-- An element under the id of an object of the baseline is that object. -/
theorem addr_of_key (hs : s.Inv) {e : Option Addr} {b : BaseRule}
    (hadm : ∀ a, e = some a → s.Admissible a) (hb : b ∈ s.baseObjects)
    (hk : s.heap.key e = .value b.id) : e = some b.addr := by
  obtain ⟨a, rfl, ha⟩ := id_of_key (hs.truthy _ (id_mem_baseIds hb)) hk
  rw [hs.addr_of_id (hadm a rfl) hb ha]

theorem key_of_addr (hs : s.Inv) {b : BaseRule} (hb : b ∈ s.baseObjects) :
    s.heap.key (some b.addr) = .value b.id := by
  rw [key_of_truthy (by rw [hs.ids b hb]; exact hs.truthy _ (id_mem_baseIds hb)), hs.ids b hb]

/-- The flag is off if and only if the data is the baseline. -/
theorem isDirty_exact (hs : s.Inv) : s.isDirty = false ↔ s.Unchanged := by
  rw [hs.isDirty_false_iff, map_eq_map_iff_forall₂]
  have hown : ∀ g ∈ s.base, s.Own g.addr := fun g hg => own_of_mem (group_mem_baseObjects hg)
  refine ⟨?_, fun h => ?_⟩
  · rintro ⟨hprops, hroot, hrules⟩
    refine forall₂_imp_mem hroot fun e he g hg hk => ?_
    have hgb := group_mem_baseObjects hg
    have heq : e = some g.addr := hs.addr_of_key (fun a ha => hs.okRoot a (ha ▸ he)) hgb hk
    refine ⟨g.addr, g.arr, heq, hs.groups g hg, hprops _ hgb, ?_⟩
    refine forall₂_imp_mem (map_eq_map_iff_forall₂.mp (hrules g hg)) fun e he r hr hk => ?_
    have hrb := rule_mem_baseObjects hg hr
    have heq : e = some r.addr := hs.addr_of_key
      (fun a ha => hs.okRules g.addr g.arr a (.inl (hown g hg)) (hs.groups g hg) (ha ▸ he)) hrb hk
    exact ⟨r.addr, heq, hs.leaves g hg r hr, hprops r hrb⟩
  · -- an object with the fields of a baseline object has its id
    have haddr : ∀ {a : Addr} {b : BaseRule}, s.Admissible a → b ∈ s.baseObjects →
        s.heap.props a = b.props → a = b.addr :=
      fun ha hb hprops => hs.addr_of_id ha hb (congrFun hprops "id")
    have hgroups : List.Forall₂ (fun e g => e = some g.addr ∧
        s.heap.props g.addr = g.props ∧ List.Forall₂ (RuleIs s.heap) (s.heap.arrays g.arr) g.rules)
        (s.heap.arrays s.root) s.base := by
      refine forall₂_imp_mem h ?_
      rintro _ he g hg ⟨a, arr, rfl, harr, hprops, hrules⟩
      have heq : a = g.addr := haddr (hs.okRoot a he) (group_mem_baseObjects hg) hprops
      subst heq
      cases harr.symm.trans (hs.groups g hg)
      exact ⟨rfl, hprops, hrules⟩
    have hof : ∀ g ∈ s.base, s.heap.props g.addr = g.props ∧
        List.Forall₂ (fun e r => e = some r.addr ∧ s.heap.props r.addr = r.props)
          (s.heap.arrays g.arr) g.rules := by
      intro g hg
      obtain ⟨e, -, -, hprops, hrules⟩ := exists_of_forall₂ hgroups hg
      refine ⟨hprops, forall₂_imp_mem hrules ?_⟩
      rintro _ he r hr ⟨a, rfl, -, hprops⟩
      have hadm := hs.okRules g.addr g.arr a (.inl (hown g hg)) (hs.groups g hg) he
      have heq : a = r.addr := haddr hadm (rule_mem_baseObjects hg hr) hprops
      subst heq
      exact ⟨rfl, hprops⟩
    refine ⟨fun b hb => ?_, ?_, fun g hg => ?_⟩
    · rcases mem_baseObjects hb with ⟨g, hg, rfl⟩ | ⟨g, hg, hb⟩
      · exact (hof g hg).1
      · obtain ⟨e, -, -, hprops⟩ := exists_of_forall₂ (hof g hg).2 hb
        exact hprops
    · refine forall₂_imp_mem hgroups ?_
      rintro _ _ g hg ⟨rfl, -⟩
      exact hs.key_of_addr (group_mem_baseObjects hg)
    · rw [map_eq_map_iff_forall₂]
      refine forall₂_imp_mem (hof g hg).2 ?_
      rintro _ _ r hr ⟨rfl, -⟩
      exact hs.key_of_addr (rule_mem_baseObjects hg hr)

end State.Inv

/-- In a run of fair edits the flag is off exactly when the data is the baseline. -/
theorem run_isDirty_exact {h : Heap} {root : Arr} (hp : Proper h root) {edits : List Edit}
    (hfair : Guarded State.Fair State.step (State.new h root) edits) :
    ((State.new h root).run edits).isDirty = false ↔ ((State.new h root).run edits).Unchanged :=
  (hfair.inv (fun _ _ hs hf => hs.step hf) (State.Inv.new hp)).isDirty_exact

/-- Two groups with an empty list of rules; `0` is the list of the page. -/
def pageHeap : Heap where
  props a p :=
    if p = "id" then .str (if a = 1 then "g2" else "g1")
    else if p = "name" then .str (if a = 0 then "a" else "b") else .undefined
  rules a := some (a + 1)
  arrays arr := if arr = 0 then [some 0] else []

def nameField : Field := ⟨"name", by decide⟩

theorem pageHeap_proper : Proper pageHeap 0 := by
  refine ⟨?_, by decide, by decide⟩
  intro e he
  cases List.mem_singleton.mp he
  refine ⟨0, 1, rfl, rfl, fun e' he' => ?_⟩
  exact absurd he' List.not_mem_nil

/-- A field is changed, another group comes and goes, and the field is changed back. -/
theorem run_isDirty_exact_page :
    ((State.new pageHeap 0).run
      [.setGroup 0 nameField (.str "c"), .onGroups (.unshift [1]), .onGroups .shift,
        .setGroup 0 nameField (.str "a")]).Unchanged := by
  refine (run_isDirty_exact pageHeap_proper ?_).mp (by decide)
  refine ⟨?_, ?_, ?_, ?_, trivial⟩
  · rintro a - hname
    exact absurd hname (by decide)
  · intro x hx
    cases List.mem_singleton.mp hx
    refine ⟨.inr (by decide), fun arr harr r hr => ?_⟩
    cases harr
    exact absurd hr List.not_mem_nil
  · intro x hx
    exact absurd hx List.not_mem_nil
  · rintro a - hname
    exact absurd hname (by decide)

/-- A group is replaced by another one with its id, and the flag stays off. -/
theorem replaced_group_unnoticed :
    ((State.new pageHeap 0).run [.onGroups (.assign 0 2)]).isDirty = false ∧
      ¬ ((State.new pageHeap 0).run [.onGroups (.assign 0 2)]).Unchanged := by
  refine ⟨by decide, fun h => ?_⟩
  obtain ⟨g, hg⟩ : ∃ g, ((State.new pageHeap 0).run [.onGroups (.assign 0 2)]).base = [g] ∧
      g.props "name" = .str "a" := ⟨_, rfl, rfl⟩
  unfold State.Unchanged at h
  rw [hg.1] at h
  obtain ⟨e, he, a, arr, rfl, -, hprops, -⟩ := exists_of_forall₂ h List.mem_cons_self
  have ha : a = 2 := by
    have he : some a ∈ [some 2] := he
    exact Option.some.inj (List.mem_singleton.mp he)
  subst ha
  have hname := congrFun hprops "name"
  rw [hg.2] at hname
  exact absurd hname (by decide)

end MagiTrickle.ChangeTracker
