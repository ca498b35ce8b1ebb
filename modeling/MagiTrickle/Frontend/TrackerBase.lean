import MagiTrickle.Frontend.ChangeTracker

/-!
# What the tracker keeps of its baseline

Array operations put nothing into an array but what they insert. Indexing a list
of groups with distinct ids that are not empty (`init_eq`) keeps a copy of every
object under its id (`foldl_record`), and for every array the ids of its elements
(`foldl_link`, `map_copyKey`).
-/

namespace MagiTrickle.ChangeTracker

def BaseRule.id (b : BaseRule) : Value := b.props "id"

def BaseGroup.id (g : BaseGroup) : Value := g.props "id"

def BaseGroup.objects (g : BaseGroup) : List BaseRule := ⟨g.addr, g.props⟩ :: g.rules

/-- The array is a list of groups with rules. -/
def Heap.Whole (h : Heap) (root : Arr) : Prop :=
  ∀ e ∈ h.arrays root, ∃ a arr, e = some a ∧ h.rules a = some arr ∧
    ∀ e' ∈ h.arrays arr, ∃ r, e' = some r ∧ h.rules r = none

/-! ## Array operations -/

theorem ArrayOp.mem_run {op : ArrayOp} {l : List (Option Addr)} {a : Addr}
    (h : some a ∈ op.run l) : some a ∈ l ∨ a ∈ op.inserted := by
  have hmap : ∀ xs : List Addr, some a ∈ xs.map some → a ∈ xs := by
    intro xs hx
    simpa using hx
  cases op with
  | push xs => exact (List.mem_append.mp h).imp_right (hmap xs)
  | pop => exact .inl (List.mem_of_mem_dropLast h)
  | shift => exact .inl (List.mem_of_mem_tail h)
  | unshift xs => exact (List.mem_append.mp h).symm.imp_right (hmap xs)
  | splice start deleteCount xs =>
    rw [run] at h
    dsimp only at h
    rcases List.mem_append.mp h with h | h
    · rcases List.mem_append.mp h with h | h
      · exact .inl (List.mem_of_mem_take h)
      · exact .inr (hmap xs h)
    · exact .inl (List.mem_of_mem_drop h)
  | sort sorted =>
    rw [run] at h
    split at h
    · next hperm => exact .inl ((List.isPerm_iff.mp hperm).mem_iff.mp h)
    · exact .inl h
  | reverse => exact .inl (List.mem_reverse.mp h)
  | assign i x =>
    rw [run] at h
    split at h
    · rcases List.mem_or_eq_of_mem_set h with h | h
      · exact .inl h
      · exact .inr (List.mem_singleton.mpr (Option.some.inj h))
    · rcases List.mem_append.mp h with h | h
      · rcases List.mem_append.mp h with h | h
        · exact .inl h
        · exact absurd (List.eq_of_mem_replicate h) (by simp)
      · exact .inr (List.mem_singleton.mpr (Option.some.inj (List.mem_singleton.mp h)))

/-! ## Keys -/

theorem key_of_truthy {h : Heap} {a : Addr} (ht : (h.id a).truthy) :
    h.key (some a) = .value (h.id a) := by
  rw [Heap.key]
  split
  · next hid =>
    rw [hid] at ht
    cases ht
  · next hid =>
    rw [hid] at ht
    cases ht
  · rfl

theorem copyKey_of_truthy {h : Heap} {a : Addr} (ht : (h.id a).truthy) :
    h.copyKey (some a) = .value (h.id a) := by
  rw [Heap.copyKey, key_of_truthy ht]

/-- An element whose key is a true value is an object with that id. -/
theorem id_of_key {h : Heap} {e : Option Addr} {v : Value} (hv : v.truthy)
    (hk : h.key e = .value v) : ∃ a, e = some a ∧ h.id a = v := by
  cases e with
  | none =>
    cases hk
    cases hv
  | some a =>
    refine ⟨a, rfl, ?_⟩
    unfold Heap.key at hk
    dsimp only at hk
    split at hk
    · cases hk
    · cases hk
    · exact Key.value.inj hk

theorem same_iff {k k' : Key} : k.same k' = true ↔ k = k' ∧ k ≠ .copy := by
  cases k <;> cases k' <;> simp [Key.same]

theorem sameKeys_iff {originals current : List Key} (hcopy : Key.copy ∉ originals) :
    Index.sameKeys originals current = true ↔ originals = current := by
  unfold Index.sameKeys
  rw [decide_eq_true_iff]
  induction originals generalizing current with
  | nil =>
    cases current with
    | nil => simp
    | cons k current => simp
  | cons k originals ih =>
    cases current with
    | nil => simp
    | cons k' current =>
      rw [List.mem_cons, not_or] at hcopy
      have hrest := @ih current hcopy.2
      rw [List.zip_cons_cons, List.all_cons, List.length_cons, List.length_cons, Nat.add_right_cancel_iff,
        Bool.and_eq_true, same_iff, List.cons.injEq, ← hrest]
      constructor
      · rintro ⟨hlen, ⟨heq, -⟩, hall⟩
        exact ⟨heq, hlen, hall⟩
      · rintro ⟨rfl, hlen, hall⟩
        exact ⟨hlen, ⟨rfl, Ne.symm hcopy.1⟩, hall⟩

theorem map_key_congr {h h' : Heap} {ids : List Value} (ht : ∀ v ∈ ids, v.truthy)
    (hid : ∀ a, h.id a ∈ ids ∨ h'.id a ∈ ids → h'.id a = h.id a) (l : List (Option Addr))
    {vs : List Value} (hvs : ∀ v ∈ vs, v ∈ ids) :
    l.map h.key = vs.map .value ↔ l.map h'.key = vs.map .value := by
  induction l generalizing vs with
  | nil => simp
  | cons e l ih =>
    cases vs with
    | nil => simp
    | cons v vs =>
      have hv : v ∈ ids := hvs v List.mem_cons_self
      have hhead : h.key e = .value v ↔ h'.key e = .value v := by
        refine ⟨fun hk => ?_, fun hk => ?_⟩
        · obtain ⟨a, rfl, rfl⟩ := id_of_key (ht v hv) hk
          have heq := hid a (.inl hv)
          rw [key_of_truthy (heq ▸ ht _ hv), heq]
        · obtain ⟨a, rfl, rfl⟩ := id_of_key (ht v hv) hk
          have heq := hid a (.inr hv)
          rw [key_of_truthy (heq ▸ ht _ hv), heq]
      rw [List.map_cons, List.map_cons, List.map_cons, List.cons.injEq, List.cons.injEq, hhead,
        ih fun v hv => hvs v (List.mem_cons_of_mem _ hv)]

section Map

variable {α : Type} {h : Heap} {l : List α} {addr : α → Addr} {idOf : α → Value}

theorem map_key (hid : ∀ x ∈ l, h.id (addr x) = idOf x) (ht : ∀ x ∈ l, (idOf x).truthy) :
    (l.map fun x => some (addr x)).map h.key = l.map fun x => .value (idOf x) := by
  rw [List.map_map]
  refine List.map_congr_left fun x hx => ?_
  rw [← hid x hx]
  exact key_of_truthy (hid x hx ▸ ht x hx)

theorem map_copyKey (hid : ∀ x ∈ l, h.id (addr x) = idOf x) (ht : ∀ x ∈ l, (idOf x).truthy) :
    (l.map fun x => some (addr x)).map h.copyKey = l.map fun x => .value (idOf x) := by
  rw [List.map_map]
  refine List.map_congr_left fun x hx => ?_
  rw [← hid x hx]
  exact copyKey_of_truthy (hid x hx ▸ ht x hx)

end Map

/-! ## The baseline -/

structure Reads (h : Heap) (root : Arr) (base : List BaseGroup) : Prop where
  root : h.arrays root = base.map fun g => some g.addr
  groups : ∀ g ∈ base, h.rules g.addr = some g.arr ∧ h.props g.addr = g.props
  arrays : ∀ g ∈ base, h.arrays g.arr = g.rules.map fun r => some r.addr
  rules : ∀ g ∈ base, ∀ r ∈ g.rules, h.rules r.addr = none ∧ h.props r.addr = r.props

theorem mem_read {h : Heap} {root : Arr} {g : BaseGroup} (hg : g ∈ h.read root) :
    some g.addr ∈ h.arrays root ∧ h.rules g.addr = some g.arr ∧ h.props g.addr = g.props ∧
      g.rules = h.readRules g.arr := by
  obtain ⟨e, he, hread⟩ := List.mem_filterMap.mp hg
  obtain ⟨a, rfl, hread⟩ := Option.bind_eq_some_iff.mp hread
  obtain ⟨arr, harr, rfl⟩ := Option.map_eq_some_iff.mp hread
  exact ⟨he, harr, rfl, rfl⟩

theorem mem_readRules {h : Heap} {arr : Arr} {r : BaseRule} (hr : r ∈ h.readRules arr) :
    some r.addr ∈ h.arrays arr ∧ h.props r.addr = r.props := by
  obtain ⟨e, he, hread⟩ := List.mem_filterMap.mp hr
  obtain ⟨a, rfl, rfl⟩ := Option.map_eq_some_iff.mp hread
  exact ⟨he, rfl⟩

theorem Reads.of_whole {h : Heap} {root : Arr} (hw : h.Whole root) :
    Reads h root (h.read root) := by
  have hrules : ∀ g ∈ h.read root, ∀ e ∈ h.arrays g.arr, ∃ r, e = some r ∧ h.rules r = none := by
    intro g hg
    obtain ⟨hmem, harr, -⟩ := mem_read hg
    obtain ⟨a, arr, ha, harr', hall⟩ := hw _ hmem
    cases ha
    cases harr.symm.trans harr'
    exact hall
  refine ⟨?_, ?_, ?_, ?_⟩
  · rw [Heap.read, List.map_filterMap]
    symm
    refine (List.filterMap_congr ?_).trans List.filterMap_some
    intro e he
    obtain ⟨a, arr, rfl, harr, -⟩ := hw e he
    rw [Option.bind_some, Heap.readGroup, harr]
    rfl
  · intro g hg
    obtain ⟨-, harr, hprops, -⟩ := mem_read hg
    exact ⟨harr, hprops⟩
  · intro g hg
    obtain ⟨-, -, -, hread⟩ := mem_read hg
    rw [hread, Heap.readRules, List.map_filterMap]
    symm
    refine (List.filterMap_congr ?_).trans List.filterMap_some
    intro e he
    obtain ⟨r, rfl, -⟩ := hrules g hg e he
    rfl
  · intro g hg r hr
    obtain ⟨-, -, -, hread⟩ := mem_read hg
    rw [hread] at hr
    obtain ⟨hmem, hprops⟩ := mem_readRules hr
    obtain ⟨a, ha, hleaf⟩ := hrules g hg _ hmem
    cases ha
    exact ⟨hleaf, hprops⟩

/-! ## Indexing -/

/-- The copy of an object goes under its id. -/
def record (m : Value → Option Props) (b : BaseRule) : Value → Option Props :=
  if b.id.truthy then Function.update m b.id (some b.props) else m

theorem indexObject_eq (h : Heap) (ix : Index) (a : Addr) :
    ix.indexObject h a = { ix with originalObjects := record ix.originalObjects ⟨a, h.props a⟩ } := by
  unfold Index.indexObject record
  split
  · next ht => rw [if_pos (by exact ht)]; rfl
  · next ht => rw [if_neg (by exact ht)]

theorem linkRules_eq (h : Heap) (ix : Index) (arr : Arr) :
    ix.linkRules h arr = { ix with
      originalObjects := (h.readRules arr).foldl record ix.originalObjects
      originalArrays :=
        Function.update ix.originalArrays arr (some ((h.arrays arr).map h.copyKey)) } := by
  have hfold : ∀ (l : List (Option Addr)) (ix : Index),
      l.foldl (fun ix e => e.elim ix (Index.indexObject h ix)) ix = { ix with
        originalObjects := (l.filterMap fun e =>
          e.map fun r => (⟨r, h.props r⟩ : BaseRule)).foldl record ix.originalObjects } := by
    intro l
    induction l with
    | nil => intro ix; rfl
    | cons e l ih =>
      intro ix
      rw [List.foldl_cons, ih]
      cases e with
      | none => rfl
      | some a =>
        rw [Option.elim_some, indexObject_eq]
        rfl
  exact hfold _ _

theorem init_eq {h : Heap} {root : Arr} (hw : h.Whole root) :
    Index.init h root =
      ⟨((h.read root).flatMap BaseGroup.objects).foldl record fun _ => none,
        (root :: (h.read root).map BaseGroup.arr).foldl
          (fun m arr => Function.update m arr (some ((h.arrays arr).map h.copyKey))) fun _ => none,
        ∅, ∅⟩ := by
  unfold Heap.Whole at hw
  unfold Index.init Heap.read
  rw [List.foldl_cons, Index.linkIds]
  dsimp only
  generalize Function.update (fun _ => none) root (some ((h.arrays root).map h.copyKey)) = m
  generalize (fun _ : Value => (none : Option Props)) = objects
  generalize h.arrays root = l at hw
  induction l generalizing m objects with
  | nil => rfl
  | cons e l ih =>
    obtain ⟨a, arr, rfl, harr, -⟩ := hw e List.mem_cons_self
    have hread : h.readGroup a = some ⟨a, h.props a, arr, h.readRules arr⟩ := by
      rw [Heap.readGroup, harr]
      rfl
    rw [List.foldl_cons, Option.elim_some, Index.linkGroup, harr]
    dsimp only
    rw [linkRules_eq, indexObject_eq]
    dsimp only
    rw [ih _ _ fun e he => hw e (List.mem_cons_of_mem _ he), List.filterMap_cons, Option.bind_some,
      hread, List.flatMap_cons, List.foldl_append, List.map_cons, List.foldl_cons]
    rfl

theorem foldl_record {bs : List BaseRule} (hn : (bs.map BaseRule.id).Nodup)
    (ht : ∀ b ∈ bs, b.id.truthy) (m : Value → Option Props) :
    (∀ b ∈ bs, bs.foldl record m b.id = some b.props) ∧
      ∀ v ∉ bs.map BaseRule.id, bs.foldl record m v = m v := by
  induction bs generalizing m with
  | nil => exact ⟨fun b hb => absurd hb List.not_mem_nil, fun v _ => rfl⟩
  | cons b bs ih =>
    rw [List.map_cons, List.nodup_cons] at hn
    obtain ⟨hin, hout⟩ := ih hn.2 (fun b hb => ht b (List.mem_cons_of_mem _ hb)) (record m b)
    have hrecord : record m b = Function.update m b.id (some b.props) :=
      if_pos (ht b List.mem_cons_self)
    refine ⟨fun b' hb' => ?_, fun v hv => ?_⟩
    · rcases List.mem_cons.mp hb' with rfl | hb'
      · rw [List.foldl_cons, hout _ hn.1, hrecord, Function.update_self]
      · exact hin b' hb'
    · rw [List.map_cons, List.mem_cons, not_or] at hv
      rw [List.foldl_cons, hout v hv.2, hrecord, Function.update_of_ne hv.1]

theorem foldl_link (h : Heap) (arrs : List Arr) (m : Arr → Option (List Key)) (arr : Arr) :
    arrs.foldl (fun m arr => Function.update m arr (some ((h.arrays arr).map h.copyKey))) m arr =
      if arr ∈ arrs then some ((h.arrays arr).map h.copyKey) else m arr := by
  induction arrs generalizing m with
  | nil => rfl
  | cons arr' arrs ih =>
    rw [List.foldl_cons, ih]
    by_cases hmem : arr ∈ arrs
    · rw [if_pos hmem, if_pos (List.mem_cons_of_mem _ hmem)]
    · rw [if_neg hmem]
      by_cases heq : arr = arr'
      · rw [heq, Function.update_self, if_pos List.mem_cons_self]
      · rw [Function.update_of_ne heq, if_neg fun hm => (List.mem_cons.mp hm).elim heq hmem]

end MagiTrickle.ChangeTracker
