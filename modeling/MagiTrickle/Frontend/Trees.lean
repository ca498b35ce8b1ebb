import MagiTrickle.Frontend.Acknowledge
import Mathlib.Data.List.ReduceOption

/-!
# Lists of groups

The data and the baseline are lists of groups with rules. An edit or an
acknowledgement adds or removes whole groups, or replaces one group by another
one (`nodup_replace`). What the tracker reads from the page is such a list
(`Reads`), and each kind of edit turns it into the list it should
(`Reads.setProps`, `Reads.setRules`).
-/

namespace MagiTrickle.ChangeTracker

/-! ## Objects and ids -/

def BaseGroup.ids (g : BaseGroup) : List Value := g.id :: g.rules.map BaseRule.id

def treeObjects (l : List BaseGroup) : List BaseRule := l.flatMap BaseGroup.objects

def treeIds (l : List BaseGroup) : List Value := l.flatMap BaseGroup.ids

section Members

variable {l : List BaseGroup} {g : BaseGroup} {o r : BaseRule} {v : Value}

theorem mem_treeIds : v ∈ treeIds l ↔ ∃ g ∈ l, v ∈ g.ids := List.mem_flatMap

theorem mem_treeObjects : o ∈ treeObjects l ↔ ∃ g ∈ l, o ∈ g.objects := List.mem_flatMap

theorem mem_ids : v ∈ g.ids ↔ v = g.id ∨ ∃ r ∈ g.rules, r.id = v := by
  rw [BaseGroup.ids, List.mem_cons, List.mem_map]

theorem id_mem_ids : g.id ∈ g.ids := List.mem_cons_self

theorem rule_mem_ids (hr : r ∈ g.rules) : r.id ∈ g.ids :=
  List.mem_cons_of_mem _ (List.mem_map_of_mem hr)

theorem id_mem_treeIds (hg : g ∈ l) : g.id ∈ treeIds l := mem_treeIds.mpr ⟨g, hg, id_mem_ids⟩

theorem rule_mem_treeIds (hg : g ∈ l) (hr : r ∈ g.rules) : r.id ∈ treeIds l :=
  mem_treeIds.mpr ⟨g, hg, rule_mem_ids hr⟩

theorem map_id_objects (g : BaseGroup) : g.objects.map BaseRule.id = g.ids := rfl

theorem object_mem_ids (ho : o ∈ g.objects) : o.id ∈ g.ids := List.mem_map_of_mem ho

theorem object_mem_treeIds (ho : o ∈ treeObjects l) : o.id ∈ treeIds l := by
  obtain ⟨g, hg, ho⟩ := mem_treeObjects.mp ho
  exact mem_treeIds.mpr ⟨g, hg, object_mem_ids ho⟩

theorem exists_object (hv : v ∈ g.ids) : ∃ o ∈ g.objects, o.id = v := List.mem_map.mp hv

theorem exists_treeObject (hv : v ∈ treeIds l) : ∃ o ∈ treeObjects l, o.id = v := by
  obtain ⟨g, hg, hv⟩ := mem_treeIds.mp hv
  obtain ⟨o, ho, rfl⟩ := exists_object hv
  exact ⟨o, mem_treeObjects.mpr ⟨g, hg, ho⟩, rfl⟩

theorem map_id_treeObjects (l : List BaseGroup) : (treeObjects l).map BaseRule.id = treeIds l := by
  rw [treeObjects, List.map_flatMap]
  rfl

theorem treeIds_append (l l' : List BaseGroup) : treeIds (l ++ l') = treeIds l ++ treeIds l' :=
  List.flatMap_append

theorem treeIds_cons (g : BaseGroup) (l : List BaseGroup) : treeIds (g :: l) = g.ids ++ treeIds l :=
  List.flatMap_cons

theorem mem_treeIds_mid {pre post : List BaseGroup} :
    v ∈ treeIds (pre ++ g :: post) ↔ v ∈ g.ids ∨ v ∈ treeIds (pre ++ post) := by
  rw [treeIds_append, treeIds_cons, treeIds_append, List.mem_append, List.mem_append,
    List.mem_append, or_left_comm]

theorem mem_mid {α : Type} {x y : α} {pre post : List α} :
    x ∈ pre ++ y :: post ↔ x = y ∨ x ∈ pre ++ post := by
  rw [List.mem_append, List.mem_cons, List.mem_append, or_left_comm]

theorem mem_treeObjects_mid {pre post : List BaseGroup} :
    o ∈ treeObjects (pre ++ g :: post) ↔ o ∈ g.objects ∨ o ∈ treeObjects (pre ++ post) := by
  simp only [treeObjects, List.flatMap_append, List.flatMap_cons, List.mem_append]
  rw [or_left_comm]

end Members

/-! ## Lists without repetitions -/

theorem nodup_mid {α β : Type} {f : α → List β} {pre post : List α} {x : α} :
    ((pre ++ x :: post).flatMap f).Nodup ↔
      (f x).Nodup ∧ ((pre ++ post).flatMap f).Nodup ∧
        ∀ v ∈ f x, v ∉ (pre ++ post).flatMap f := by
  have hperm : List.Perm ((pre ++ x :: post).flatMap f) ((x :: (pre ++ post)).flatMap f) :=
    List.Perm.flatMap_right f List.perm_middle
  rw [hperm.nodup_iff, List.flatMap_cons, List.nodup_append']
  rfl

theorem treeIds_nodup_mid {pre post : List BaseGroup} {g : BaseGroup}
    (h : (treeIds (pre ++ g :: post)).Nodup) :
    g.ids.Nodup ∧ (treeIds (pre ++ post)).Nodup ∧ ∀ v ∈ g.ids, v ∉ treeIds (pre ++ post) :=
  nodup_mid.mp h

theorem treeIds_nodup_replace {pre post : List BaseGroup} {g g' : BaseGroup}
    (h : (treeIds (pre ++ g :: post)).Nodup) (hg' : g'.ids.Nodup)
    (hnew : ∀ v ∈ g'.ids, v ∉ treeIds (pre ++ post)) : (treeIds (pre ++ g' :: post)).Nodup :=
  nodup_mid.mpr ⟨hg', (treeIds_nodup_mid h).2.1, hnew⟩

theorem eq_of_mem_ids {l : List BaseGroup} (h : (treeIds l).Nodup) {g g' : BaseGroup} (hg : g ∈ l)
    (hg' : g' ∈ l) {v : Value} (hv : v ∈ g.ids) (hv' : v ∈ g'.ids) : g = g' := by
  obtain ⟨pre, post, rfl⟩ := List.append_of_mem hg
  rcases mem_mid.mp hg' with rfl | hg'
  · rfl
  · exact absurd (mem_treeIds.mpr ⟨g', hg', hv'⟩) ((treeIds_nodup_mid h).2.2 v hv)

theorem eq_of_id {l : List BaseGroup} (h : (treeIds l).Nodup) {o o' : BaseRule}
    (ho : o ∈ treeObjects l) (ho' : o' ∈ treeObjects l) (hid : o.id = o'.id) : o = o' := by
  rw [← map_id_treeObjects] at h
  exact List.inj_on_of_nodup_map h ho ho' hid

theorem map_ite_mid {α κ : Type} [DecidableEq κ] {key : α → κ} {l : List α} {x : α}
    (h : (l.map key).Nodup) (hx : x ∈ l) (f : α → α) :
    ∃ pre post, l = pre ++ x :: post ∧
      l.map (fun y => if key y = key x then f y else y) = pre ++ f x :: post := by
  obtain ⟨pre, post, rfl⟩ := List.append_of_mem hx
  refine ⟨pre, post, rfl, ?_⟩
  rw [List.map_append, List.map_cons, List.nodup_append', List.nodup_cons] at h
  obtain ⟨-, ⟨hpost, -⟩, hpre⟩ := h
  have hout : ∀ {u : List α}, (∀ y ∈ u, key y ≠ key x) →
      u.map (fun y => if key y = key x then f y else y) = u := by
    intro u hu
    refine (List.map_congr_left fun y hy => ?_).trans (List.map_id u)
    rw [if_neg (hu y hy)]
    rfl
  rw [List.map_append, List.map_cons, if_pos rfl, hout, hout]
  · exact fun y hy heq => hpost (heq ▸ List.mem_map_of_mem hy)
  · exact fun y hy heq => hpre (List.mem_map_of_mem hy) (heq ▸ List.mem_cons_self)

theorem map_ite_of_not_mem {α κ : Type} [DecidableEq κ] {key : α → κ} {l : List α} {k : κ}
    (h : k ∉ l.map key) (f : α → α) : l.map (fun y => if key y = k then f y else y) = l := by
  refine (List.map_congr_left fun y hy => ?_).trans (List.map_id l)
  have hne : key y ≠ k := fun heq => h (heq ▸ List.mem_map_of_mem hy)
  rw [if_neg hne]
  rfl

theorem foldl_record_objects {g : BaseGroup} (hn : g.ids.Nodup) (ht : ∀ v ∈ g.ids, v.truthy)
    (m : Value → Option Props) :
    (∀ b ∈ g.objects, g.objects.foldl record m b.id = some b.props) ∧
      ∀ v ∉ g.ids, g.objects.foldl record m v = m v := by
  rw [← map_id_objects] at hn ⊢
  exact foldl_record hn (fun _ hb => ht _ (object_mem_ids hb)) m

/-! ## Array operations -/

/-- The operation leaves no empty slot. -/
def ArrayOp.Dense (op : ArrayOp) (len : Nat) : Prop :=
  match op with
  | .assign i _ => i ≤ len
  | _ => True

theorem splice_subperm {α : Type} (xs zs : List α) (i n : Nat) :
    List.Subperm (xs.take i ++ zs ++ xs.drop (i + n)) (xs ++ zs) := by
  have hsub : (xs.take i ++ xs.drop (i + n)).Sublist xs := by
    have happ := (List.Sublist.refl (xs.take i)).append
      (List.drop_sublist_drop_left xs (Nat.le_add_right i n))
    rwa [List.take_append_drop] at happ
  have hperm : List.Perm (xs.take i ++ zs ++ xs.drop (i + n))
      (xs.take i ++ xs.drop (i + n) ++ zs) := by
    rw [List.append_assoc, List.append_assoc]
    exact List.perm_append_comm.append_left _
  exact hperm.subperm.trans (hsub.append_right zs).subperm

theorem reduceOption_map {α β : Type} (f : α → β) (l : List α) :
    (l.map fun x => some (f x)).reduceOption = l.map f := by
  rw [List.reduceOption, List.filterMap_map, ← List.filterMap_eq_map]
  rfl

theorem map_some_reduceOption {α : Type} {l : List (Option α)} (h : ∀ e ∈ l, ∃ a, e = some a) :
    l.reduceOption.map some = l := by
  induction l with
  | nil => rfl
  | cons e l ih =>
    obtain ⟨⟨a, rfl⟩, hl⟩ := List.forall_mem_cons.mp h
    rw [List.reduceOption_cons_of_some, List.map_cons, ih hl]

/-- A dense array stays dense, and holds nothing twice that it did not. -/
theorem ArrayOp.run_dense {op : ArrayOp} {xs : List Addr} (h : op.Dense xs.length) :
    ∃ ys, op.run (xs.map some) = ys.map some ∧ List.Subperm ys (xs ++ op.inserted) := by
  have hnil : xs ++ [] = xs := List.append_nil xs
  cases op with
  | push zs =>
    exact ⟨xs ++ zs, by rw [run, List.map_append], List.Subperm.refl _⟩
  | pop =>
    refine ⟨xs.dropLast, List.map_dropLast.symm, ?_⟩
    exact hnil.symm ▸ (List.dropLast_sublist xs).subperm
  | shift =>
    refine ⟨xs.tail, List.map_tail.symm, ?_⟩
    exact hnil.symm ▸ (List.tail_sublist xs).subperm
  | unshift zs =>
    refine ⟨zs ++ xs, by rw [run, List.map_append], ?_⟩
    exact List.perm_append_comm.subperm
  | splice start deleteCount zs =>
    rw [run, List.length_map]
    generalize spliceRange xs.length start deleteCount = range
    obtain ⟨i, n⟩ := range
    refine ⟨xs.take i ++ zs ++ xs.drop (i + n), ?_, ?_⟩
    · simp only [List.map_append, List.map_take, List.map_drop]
    · exact splice_subperm xs zs i n
  | sort sorted =>
    rw [run]
    split
    · next hperm =>
      have hperm := List.isPerm_iff.mp hperm
      refine ⟨sorted.reduceOption, (map_some_reduceOption fun e he => ?_).symm, ?_⟩
      · obtain ⟨a, -, rfl⟩ := List.mem_map.mp (hperm.mem_iff.mp he)
        exact ⟨a, rfl⟩
      · have hperm : List.Perm sorted.reduceOption (xs.map some).reduceOption := hperm.filterMap id
        have hxs : (xs.map some).reduceOption = xs :=
          (reduceOption_map id xs).trans (List.map_id xs)
        rw [hxs] at hperm
        exact hnil.symm ▸ hperm.subperm
    · exact ⟨xs, rfl, hnil.symm ▸ List.Subperm.refl xs⟩
  | reverse =>
    refine ⟨xs.reverse, List.map_reverse.symm, ?_⟩
    exact hnil.symm ▸ (List.reverse_perm xs).subperm
  | assign i x =>
    have hle : i ≤ xs.length := h
    rw [run, List.length_map]
    split
    · next hlt =>
      refine ⟨xs.set i x, List.map_set.symm, ?_⟩
      rw [List.set_eq_take_append_cons_drop, if_pos hlt]
      have hsub := splice_subperm xs [x] i 1
      rwa [List.append_assoc] at hsub
    · next hge =>
      have hlen : i - xs.length = 0 := by omega
      refine ⟨xs ++ [x], ?_, List.Subperm.refl _⟩
      rw [hlen, List.replicate_zero, List.append_nil, List.map_append]
      rfl

/-! ## The data of the page -/

def BaseRule.setProps (a : Addr) (ps : Props) (r : BaseRule) : BaseRule :=
  { r with props := if r.addr = a then ps else r.props }

def BaseGroup.setProps (a : Addr) (ps : Props) (g : BaseGroup) : BaseGroup :=
  { g with
    props := if g.addr = a then ps else g.props
    rules := g.rules.map (BaseRule.setProps a ps) }

namespace Heap

def withProps (h : Heap) (a : Addr) (ps : Props) : Heap :=
  { h with props := Function.update h.props a ps }

def withArray (h : Heap) (arr : Arr) (l : List (Option Addr)) : Heap :=
  { h with arrays := Function.update h.arrays arr l }

def withRules (h : Heap) (a : Addr) (arr : Arr) : Heap :=
  { h with rules := Function.update h.rules a (some arr) }

end Heap

theorem readRules_withProps (h : Heap) (a : Addr) (ps : Props) (arr : Arr) :
    (h.withProps a ps).readRules arr = (h.readRules arr).map (BaseRule.setProps a ps) := by
  unfold Heap.readRules
  rw [List.map_filterMap]
  refine List.filterMap_congr fun e _ => ?_
  rw [Option.map_map]
  refine congrArg (fun f => e.map f) (funext fun r => ?_)
  exact congrArg (BaseRule.mk r) (Function.update_apply ..)

theorem read_withProps (h : Heap) (root : Arr) (a : Addr) (ps : Props) :
    (h.withProps a ps).read root = (h.read root).map (BaseGroup.setProps a ps) := by
  unfold Heap.read
  rw [List.map_filterMap]
  refine List.filterMap_congr fun e _ => ?_
  rw [Option.map_bind]
  refine congrArg (fun f => e.bind f) (funext fun x => ?_)
  have hprops : (h.withProps a ps).props x = if x = a then ps else h.props x :=
    Function.update_apply ..
  have hrules : (h.withProps a ps).rules x = h.rules x := rfl
  unfold Heap.readGroup
  dsimp only [Function.comp_apply]
  rw [Option.map_map, hrules]
  refine congrArg (fun f => (h.rules x).map f) (funext fun arr => ?_)
  rw [readRules_withProps, hprops]
  rfl

theorem read_withArray {h : Heap} {root arr : Arr} (hne : arr ≠ root) (l : List (Option Addr)) :
    (h.withArray arr l).read root = (h.read root).map fun c =>
      if c.arr = arr then { c with rules := (h.withArray arr l).readRules arr } else c := by
  have hroot : (h.withArray arr l).arrays root = h.arrays root :=
    Function.update_of_ne (Ne.symm hne) ..
  unfold Heap.read
  rw [hroot, List.map_filterMap]
  refine List.filterMap_congr fun e _ => ?_
  rw [Option.map_bind]
  refine congrArg (fun f => e.bind f) (funext fun x => ?_)
  have hrules : (h.withArray arr l).rules x = h.rules x := rfl
  unfold Heap.readGroup
  dsimp only [Function.comp_apply]
  rw [Option.map_map, hrules]
  refine congrArg (fun f => (h.rules x).map f) (funext fun arr' => ?_)
  dsimp only [Function.comp_apply]
  split
  · next heq => rw [heq]; rfl
  · next hother =>
    have harr : (h.withArray arr l).arrays arr' = h.arrays arr' :=
      Function.update_of_ne hother ..
    rw [Heap.readRules, Heap.readRules, harr]
    rfl

theorem readGroup_withArray {h : Heap} {arr : Arr} {a : Addr} (hne : h.rules a ≠ some arr)
    (l : List (Option Addr)) : (h.withArray arr l).readGroup a = h.readGroup a := by
  have hrules : (h.withArray arr l).rules a = h.rules a := rfl
  unfold Heap.readGroup
  rw [hrules]
  cases harr : h.rules a with
  | none => rfl
  | some arr' =>
    have hother : arr' ≠ arr := fun heq => hne (heq ▸ harr)
    have hsame : (h.withArray arr l).arrays arr' = h.arrays arr' :=
      Function.update_of_ne hother ..
    rw [Option.map_some, Option.map_some, Heap.readRules, Heap.readRules, hsame]
    rfl

theorem read_withRules {h : Heap} {root : Arr} (hw : h.Whole root) (a : Addr) (arr : Arr) :
    (h.withRules a arr).read root = (h.read root).map fun c =>
      if c.addr = a then { c with arr := arr, rules := h.readRules arr } else c := by
  have hroot : (h.withRules a arr).arrays root = h.arrays root := rfl
  unfold Heap.read
  rw [hroot, List.map_filterMap]
  refine List.filterMap_congr fun e he => ?_
  obtain ⟨x, arr', rfl, harr', -⟩ := hw e he
  rw [Option.bind_some, Option.bind_some, Heap.readGroup, Heap.readGroup, harr', Option.map_some,
    Option.map_some]
  dsimp only
  split
  · next heq =>
    have hself : (h.withRules a arr).rules x = some arr := by
      rw [heq]
      exact Function.update_self ..
    rw [hself]
    rfl
  · next hne =>
    have hother : (h.withRules a arr).rules x = some arr' := by
      rw [← harr']
      exact Function.update_of_ne hne ..
    rw [hother]
    rfl

theorem read_withRoot {h : Heap} {root : Arr} {ys : List Addr}
    (hne : ∀ a ∈ ys, h.rules a ≠ some root) :
    (h.withArray root (ys.map some)).read root = ys.filterMap h.readGroup := by
  have hroot : (h.withArray root (ys.map some)).arrays root = ys.map some :=
    Function.update_self ..
  unfold Heap.read
  rw [hroot, List.filterMap_map]
  refine List.filterMap_congr fun a ha => ?_
  exact readGroup_withArray (hne a ha) _

section Whole

variable {h : Heap} {root : Arr}

theorem objects_eq (hw : h.Whole root) :
    h.objects root = (treeObjects (h.read root)).map BaseRule.addr := by
  have hreads := Reads.of_whole hw
  unfold Heap.objects treeObjects
  rw [hreads.root, List.map_flatMap, reduceOption_map, List.flatMap_map]
  refine List.flatMap_congr fun g hg => ?_
  rw [(hreads.groups g hg).1, Option.elim_some, hreads.arrays g hg, reduceOption_map]
  rfl

theorem liveArrays_eq (hw : h.Whole root) :
    h.liveArrays root = root :: (h.read root).map BaseGroup.arr := by
  have hreads := Reads.of_whole hw
  unfold Heap.liveArrays
  rw [hreads.root, reduceOption_map, List.filterMap_map]
  refine congrArg (root :: ·) ?_
  rw [← List.filterMap_eq_map]
  refine List.filterMap_congr fun g hg => ?_
  exact (hreads.groups g hg).1

theorem props_of_mem (hw : h.Whole root) {o : BaseRule} (ho : o ∈ treeObjects (h.read root)) :
    h.props o.addr = o.props := by
  have hreads := Reads.of_whole hw
  obtain ⟨g, hg, ho⟩ := mem_treeObjects.mp ho
  rcases List.mem_cons.mp ho with rfl | ho
  · exact (hreads.groups g hg).2
  · exact (hreads.rules g hg o ho).2

theorem id_of_mem (hw : h.Whole root) {o : BaseRule} (ho : o ∈ treeObjects (h.read root)) :
    h.id o.addr = o.id := congrFun (props_of_mem hw ho) "id"

theorem keys_root (hw : h.Whole root) (ht : ∀ v ∈ treeIds (h.read root), v.truthy) :
    (h.arrays root).map h.key = (h.read root).map fun g => .value g.id := by
  rw [(Reads.of_whole hw).root]
  refine map_key (fun g hg => ?_) fun g hg => ht _ (id_mem_treeIds hg)
  exact id_of_mem hw (mem_treeObjects.mpr ⟨g, hg, List.mem_cons_self⟩)

theorem keys_rules (hw : h.Whole root) (ht : ∀ v ∈ treeIds (h.read root), v.truthy)
    {c : BaseGroup} (hc : c ∈ h.read root) :
    (h.arrays c.arr).map h.key = c.rules.map fun r => .value r.id := by
  rw [(Reads.of_whole hw).arrays c hc]
  refine map_key (fun r hr => ?_) fun r hr => ht _ (rule_mem_treeIds hc hr)
  exact id_of_mem hw (mem_treeObjects.mpr ⟨c, hc, List.mem_cons_of_mem _ hr⟩)

end Whole

end MagiTrickle.ChangeTracker
