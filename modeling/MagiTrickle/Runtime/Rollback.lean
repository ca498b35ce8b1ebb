import MagiTrickle.Lib.UndoLog
import MagiTrickle.Runtime.Coherent

/-!
# Rollback of the subscriptions

When the rulesets cannot be rebuilt, the call puts the subscriptions back. Four
of the five operations do so exactly (`Undone`). The sync of all that is due
keeps an undo log and replays it from the front (`Lib/UndoLog`), and finds each
subscription again by its id. An id that is planned more than once is therefore
put back to what it was before its last plan, and the replay frees arrays in the
wrong order. `Harmless` says when this does no damage.
-/

namespace MagiTrickle.Runtime

open Config Api Lib

/-! ## The log of a sync -/

namespace Subs

variable {m : Subs} {now : Nat}

/-- The place of the subscription that `find_subscription_mut` returns. -/
def place (m : Subs) (id : Id) : Option Nat := m.list.findIdx? fun s => s.config.id = id

theorem find_eq (m : Subs) (id : Id) :
    m.find id = (m.place id).bind fun i => m.list[i]?.map fun s => (i, s) := rfl

theorem place_of_find {id : Id} {i : Nat} {s : Sub} (h : m.find id = some (i, s)) :
    m.place id = some i := by
  rw [find_eq] at h
  obtain ⟨j, hj, hs⟩ := Option.bind_eq_some_iff.mp h
  obtain ⟨s', -, he⟩ := Option.map_eq_some_iff.mp hs
  cases he
  exact hj

theorem place_of_find_none {id : Id} (h : m.find id = none) : m.place id = none := by
  rw [find_eq] at h
  cases hp : m.place id with
  | none => rfl
  | some i =>
    obtain ⟨hlt, -⟩ := List.findIdx?_eq_some_iff_getElem.mp hp
    rw [hp, Option.bind_some, List.getElem?_eq_getElem hlt] at h
    cases h

theorem place_set {i : Nat} {s s' : Sub} (hi : m.list[i]? = some s)
    (hid : s'.config.id = s.config.id) (id : Id) : (m.set i s').place id = m.place id := by
  have hplace : ∀ m : Subs, m.place id = (m.list.map fun s => s.config.id).findIdx? (· = id) := by
    intro m
    rw [List.findIdx?_map]
    rfl
  obtain ⟨hlt, rfl⟩ := List.getElem?_eq_some_iff.mp hi
  rw [hplace, hplace, set]
  dsimp only
  rw [List.map_set, hid]
  congr 1
  exact (List.map_set (f := fun s : Sub => s.config.id)).symm.trans (by rw [List.set_getElem_self])

@[simp] theorem id_carryOut (p : Plan) (s : Sub) : (carryOut now p s).config.id = s.config.id := by
  unfold carryOut
  split <;> rfl

def change (now : Nat) (i : Nat) (p : Plan) : UndoLog.Change Sub := ⟨i, carryOut now p, p.changed⟩

def changes (m : Subs) (now : Nat) (ps : List Plan) : List (UndoLog.Change Sub) :=
  ps.filterMap fun p => (m.place p.id).map fun i => change now i p

def entry (e : Saved) : UndoLog.Entry Sub := ⟨e.index, e.old, e.replaced⟩

/-- The arrays freed while plans are carried out: those of the plans that change nothing. -/
def spared (m : Subs) (ps : List Plan) : List Ptr :=
  (ps.filter fun p => (m.place p.id).isNone || !p.changed).flatMap fun p => p.array.toList

theorem applyPlans_record (now : Nat) (ps : List Plan) (m : Subs) :
    (m.applyPlans now ps).1.list = (UndoLog.record m.list (m.changes now ps)).1 ∧
      (m.applyPlans now ps).2.map entry = (UndoLog.record m.list (m.changes now ps)).2 ∧
      (m.applyPlans now ps).1.released = m.released ++ m.spared ps ∧
      (m.applyPlans now ps).1.next = m.next := by
  induction ps generalizing m with
  | nil => exact ⟨rfl, rfl, (List.append_nil _).symm, rfl⟩
  | cons p ps ih =>
    cases hf : m.find p.id with
    | none =>
      have hp := place_of_find_none hf
      obtain ⟨hl, hs, hr, hn⟩ := ih (m.release p.array)
      have hc : m.changes now (p :: ps) = (m.release p.array).changes now ps := by
        rw [changes, List.filterMap_cons, hp]
        rfl
      have hsp : m.spared (p :: ps) = p.array.toList ++ (m.release p.array).spared ps := by
        simp only [spared, List.filter_cons, hp, Option.isNone_none, Bool.true_or, if_true,
          List.flatMap_cons]
        rfl
      rw [applyPlans, hf, hc, hsp]
      refine ⟨hl, hs, ?_, hn⟩
      rw [hr, release, List.append_assoc]
    | some x =>
      obtain ⟨i, s⟩ := x
      have hp := place_of_find hf
      have hi := (find_spec hf).1
      let b := if p.changed then m else m.release p.array
      have hbl : b.list = m.list := by
        show (if p.changed then m else m.release p.array).list = m.list
        split_ifs <;> rfl
      have hset : (b.set i (carryOut now p s)).list = m.list.set i (carryOut now p s) := by
        rw [set, hbl]
      have hplace : ∀ id, (b.set i (carryOut now p s)).place id = m.place id := by
        intro id
        rw [place_set (s := s) (by rw [hbl]; exact hi) (id_carryOut p s), place, hbl, place]
      obtain ⟨hl, hs, hr, hn⟩ := ih (b.set i (carryOut now p s))
      have hch : (b.set i (carryOut now p s)).changes now ps = m.changes now ps := by
        unfold changes
        exact List.filterMap_congr fun q _ => by rw [hplace]
      have hsp : (b.set i (carryOut now p s)).spared ps = m.spared ps := by
        unfold spared
        rw [List.filter_congr fun q _ => by rw [hplace]]
      rw [hch, hset] at hl hs
      have hc : m.changes now (p :: ps) = change now i p :: m.changes now ps := by
        rw [changes, List.filterMap_cons, hp]
        rfl
      have hrec : UndoLog.record m.list (change now i p :: m.changes now ps) =
          let r := UndoLog.record (m.list.set i (carryOut now p s)) (m.changes now ps)
          (r.1, ⟨i, s, p.changed⟩ :: r.2) := by
        rw [UndoLog.record, show (change now i p).place = i from rfl, hi]
        rfl
      rw [applyPlans, hf, hc, hrec]
      refine ⟨hl, congrArg _ hs, ?_, hn.trans ?_⟩
      · refine hr.trans ?_
        rw [hsp]
        have hcons : m.spared (p :: ps) =
            (if p.changed then [] else p.array.toList) ++ m.spared ps := by
          simp only [spared, List.filter_cons, hp, Option.isNone_some, Bool.false_or]
          cases p.changed <;> rfl
        have hrel : b.released = m.released ++ if p.changed then [] else p.array.toList := by
          show (if p.changed then m else m.release p.array).released = _
          split_ifs
          · exact (List.append_nil _).symm
          · rfl
        rw [hcons, ← List.append_assoc, ← hrel]
        rfl
      · show b.next = m.next
        show (if p.changed then m else m.release p.array).next = m.next
        split_ifs <;> rfl

/-- The plans made for the subscription at a place. -/
def plansAt (m : Subs) (ps : List Plan) (i : Nat) : List Plan :=
  ps.filter fun p => m.place p.id = some i

theorem mem_plansAt {ps : List Plan} {i : Nat} {p : Plan} :
    p ∈ m.plansAt ps i ↔ p ∈ ps ∧ m.place p.id = some i := by
  simp [plansAt]

def planned (now : Nat) (s : Sub) (qs : List Plan) : Sub := qs.foldl (fun s p => carryOut now p s) s

theorem planned_concat (s : Sub) (qs : List Plan) (q : Plan) :
    planned now s (qs ++ [q]) = carryOut now q (planned now s qs) := by
  rw [planned, List.foldl_append]
  rfl

theorem changesAt_changes (now : Nat) (ps : List Plan) (i : Nat) :
    UndoLog.changesAt (m.changes now ps) i = (m.plansAt ps i).map (change now i) := by
  induction ps with
  | nil => rfl
  | cons p ps ih =>
    have hcons : m.changes now (p :: ps) =
        ((m.place p.id).map fun j => change now j p).toList ++ m.changes now ps := by
      rw [changes, List.filterMap_cons]
      cases m.place p.id <;> rfl
    rw [hcons, UndoLog.changesAt, List.filter_append, plansAt, List.filter_cons]
    cases hp : m.place p.id with
    | none => simpa [UndoLog.changesAt, plansAt] using ih
    | some j =>
      by_cases hj : j = i
      · subst hj
        simp only [Option.map_some, Option.toList_some, List.filter_cons, List.filter_nil]
        rw [if_pos (by simp [change]), if_pos (by simp), List.map_cons]
        exact congrArg _ ih
      · simp only [Option.map_some, Option.toList_some, List.filter_cons, List.filter_nil]
        rw [if_neg (by simp [change, hj]), if_neg (by simp [hj])]
        exact ih

theorem after_change (i : Nat) (s : Sub) (qs : List Plan) :
    UndoLog.after s (qs.map (change now i)) = planned now s qs := by
  rw [UndoLog.after, List.foldl_map]
  rfl

theorem undo_replay (es : List Saved) (m : Subs) :
    (m.undo es).list = (UndoLog.replay m.list (es.map entry)).1 ∧
      (m.undo es).released =
        m.released ++ (UndoLog.replay m.list (es.map entry)).2.filterMap Sub.array ∧
      (m.undo es).next = m.next := by
  induction es generalizing m with
  | nil => exact ⟨rfl, (List.append_nil _).symm, rfl⟩
  | cons e es ih =>
    let b := if e.replaced then m.release (m.list[e.index]?.bind Sub.array) else m
    have hb : b.list = m.list ∧ b.next = m.next := by
      show (if e.replaced then m.release _ else m).list = _ ∧
        (if e.replaced then m.release _ else m).next = _
      split_ifs <;> exact ⟨rfl, rfl⟩
    have hr : b.released =
        m.released ++ (if e.replaced then m.list[e.index]?.toList else []).filterMap Sub.array := by
      show (if e.replaced then m.release _ else m).released = _
      split_ifs
      · cases m.list[e.index]? with
        | none => rfl
        | some s =>
          show m.released ++ s.array.toList = m.released ++ List.filterMap Sub.array [s]
          cases ha : s.array <;> simp [ha]
      · exact (List.append_nil _).symm
    obtain ⟨h1, h2, h3⟩ := ih (b.set e.index e.old)
    have hset : (b.set e.index e.old).list = m.list.set e.index e.old := by rw [set, hb.1]
    rw [hset] at h1 h2
    refine ⟨h1, h2.trans ?_, h3.trans hb.2⟩
    rw [List.map_cons, UndoLog.replay, List.filterMap_append, ← List.append_assoc]
    exact congrArg (· ++ _) hr

/-! ## One subscription -/

/-- Two arrays that are not the same one. -/
def Apart (a b : Option Ptr) : Prop := ∀ p ∈ a, p ∉ b

theorem Apart.symm {a b : Option Ptr} (h : Apart a b) : Apart b a := fun p hb ha => h p ha hb

theorem array_carryOut (p : Plan) (s : Sub) :
    (carryOut now p s).array = if p.changed then p.array else s.array := by
  unfold carryOut
  split_ifs <;> rfl

theorem array_planned_concat (s : Sub) (qs : List Plan) (q : Plan) :
    (planned now s (qs ++ [q])).array =
      if q.changed then q.array else (planned now s qs).array := by
  rw [planned_concat, array_carryOut]

theorem array_planned (now : Nat) (s : Sub) (qs : List Plan) :
    (planned now s qs).array = s.array ∨
      ∃ q ∈ qs, q.changed = true ∧ (planned now s qs).array = q.array := by
  induction qs using List.reverseRecOn with
  | nil => exact .inl rfl
  | append_singleton qs q ih =>
    rw [array_planned_concat]
    split_ifs with hq
    · exact .inr ⟨q, by simp, hq, rfl⟩
    · refine ih.imp_right ?_
      rintro ⟨q', hq', hc, he⟩
      exact ⟨q', by simp [hq'], hc, he⟩

/-- The arrays of a subscription and of plans are all different. -/
structure CellApart (s : Sub) (qs : List Plan) : Prop where
  own : ∀ q ∈ qs, Apart s.array q.array
  plans : qs.Pairwise fun p q => Apart p.array q.array

theorem CellApart.left {s : Sub} {as bs : List Plan} (h : CellApart s (as ++ bs)) :
    CellApart s as :=
  ⟨fun q hq => h.own q (List.mem_append_left _ hq), (List.pairwise_append.mp h.plans).1⟩

/-- A later plan brings in an array that the subscription did not have before. -/
theorem CellApart.apart_planned {s : Sub} {as bs : List Plan} (h : CellApart s (as ++ bs))
    {q : Plan} (hq : q ∈ bs) : Apart (planned now s as).array q.array := by
  rcases array_planned now s as with he | ⟨p, hp, -, he⟩
  · rw [he]
    exact h.own q (List.mem_append_right _ hq)
  · rw [he]
    exact (List.pairwise_append.mp h.plans).2.2 p hp q hq

/-- So if it has one array before and after some plans, none of them changed the rules. -/
theorem CellApart.unchanged {s : Sub} {as bs : List Plan} (h : CellApart s (as ++ bs)) {a : Ptr}
    (h1 : (planned now s as).array = some a) (h2 : (planned now s (as ++ bs)).array = some a) :
    ∀ q ∈ bs, q.changed = false := by
  induction bs using List.reverseRecOn with
  | nil => exact fun _ hq => absurd hq List.not_mem_nil
  | append_singleton bs q ih =>
    rw [← List.append_assoc, array_planned_concat] at h2
    cases hc : q.changed with
    | true =>
      rw [hc, if_pos rfl] at h2
      exact absurd h2 (h.apart_planned (by simp) a h1)
    | false =>
      rw [hc] at h2
      rw [← List.append_assoc] at h
      intro q' hq'
      rcases List.mem_append.mp hq' with hq' | hq'
      · exact ih h.left h2 q' hq'
      · rw [List.mem_singleton.mp hq', hc]

/-- When the replay frees the array it has just put back, in terms of which of the plans changed
the rules: the first did and the last did not, or the last did and the one before did not. -/
def Lost (changed : List Bool) : Prop :=
  (changed.head? = some true ∧ changed.getLast? = some false) ∨
    (changed.dropLast.getLast? = some false ∧ changed.getLast? = some true)

instance (changed : List Bool) : Decidable (Lost changed) := by
  unfold Lost
  infer_instance

theorem mem_discards (i : Nat) (s y : Sub) (qs : List Plan) :
    y ∈ UndoLog.discards (planned now s qs) (UndoLog.trail s (qs.map (change now i))) ↔
      (∃ q, qs.head? = some q ∧ q.changed = true ∧ y = planned now s qs) ∨
        ∃ as q q' bs, qs = as ++ q :: q' :: bs ∧ q'.changed = true ∧ y = planned now s as := by
  rw [UndoLog.mem_discards_trail]
  refine or_congr ⟨?_, ?_⟩ ⟨?_, ?_⟩
  · rintro ⟨c, hc, hf, rfl⟩
    obtain ⟨q, hq, rfl⟩ := Option.map_eq_some_iff.mp (List.head?_map.symm.trans hc)
    exact ⟨q, hq, hf, rfl⟩
  · rintro ⟨q, hq, hf, rfl⟩
    exact ⟨change now i q, by rw [List.head?_map, hq]; rfl, hf, rfl⟩
  · rintro ⟨as, c, c', bs, he, hf, rfl⟩
    obtain ⟨as', r, rfl, rfl, hr⟩ := List.map_eq_append_iff.mp he
    obtain ⟨q, r', rfl, rfl, hr'⟩ := List.map_eq_cons_iff.mp hr
    obtain ⟨q', bs', rfl, rfl, rfl⟩ := List.map_eq_cons_iff.mp hr'
    exact ⟨as', q, q', bs', rfl, hf, after_change i s as'⟩
  · rintro ⟨as, q, q', bs, rfl, hf, rfl⟩
    refine ⟨as.map (change now i), change now i q, change now i q', bs.map (change now i), ?_, hf,
      (after_change i s as).symm⟩
    simp

theorem CellApart.lost_iff {s : Sub} {qs : List Plan} (h : CellApart s qs) (i : Nat) {a : Ptr}
    (ha : (planned now s qs.dropLast).array = some a) :
    (∃ y ∈ UndoLog.discards (planned now s qs) (UndoLog.trail s (qs.map (change now i))),
      y.array = some a) ↔ Lost (qs.map Plan.changed) := by
  simp only [mem_discards]
  induction qs using List.reverseRecOn with
  | nil => simp [Lost]
  | append_singleton ds q _ =>
    rw [List.dropLast_concat] at ha
    constructor
    · rintro ⟨y, ⟨p, hp, hf, rfl⟩ | ⟨as, p, p', bs, he, hf, rfl⟩, hy⟩
      · -- the value found first is the one after all plans
        have hq : q.changed = false := h.unchanged ha hy q (by simp)
        exact .inl ⟨by rw [List.head?_map, hp]; exact congrArg some hf, by simp [hq]⟩
      · -- a value put back and discarded again is the last one put back only if this is the
        -- last entry
        cases bs using List.reverseRecOn with
        | nil =>
          obtain ⟨rfl, rfl⟩ : ds = as ++ [p] ∧ q = p' := by
            have he : ds ++ [q] = (as ++ [p]) ++ [p'] := by simpa using he
            exact ⟨List.append_inj_left' he rfl, by simpa using List.append_inj_right' he rfl⟩
          have hp : p.changed = false := h.left.unchanged hy ha p (by simp)
          exact .inr ⟨by simp [hp], by simp [hf]⟩
        | append_singleton bs b _ =>
          obtain rfl : ds = as ++ p :: p' :: bs := by
            have he : ds ++ [q] = (as ++ p :: p' :: bs) ++ [b] := by simpa using he
            exact List.append_inj_left' he rfl
          have hp' : p'.changed = false := h.left.unchanged hy ha p' (by simp)
          rw [hp'] at hf
          cases hf
    · rintro (⟨hf, hl⟩ | ⟨hp, hl⟩)
      · have hq : q.changed = false := by simpa using hl
        rw [List.head?_map] at hf
        obtain ⟨p, hp, hf⟩ := Option.map_eq_some_iff.mp hf
        refine ⟨_, .inl ⟨p, hp, hf, rfl⟩, ?_⟩
        rw [array_planned_concat, hq]
        exact ha
      · have hq : q.changed = true := by simpa using hl
        cases ds using List.reverseRecOn with
        | nil => simp at hp
        | append_singleton ds p _ =>
          have hp : p.changed = false := by simpa using hp
          refine ⟨_, .inr ⟨ds, p, q, [], by simp, hq, rfl⟩, ?_⟩
          rw [array_planned_concat, hp] at ha
          exact ha

/-! ## All subscriptions -/

/-- Every subscription has an array of its own that is not freed, or none if it has no rules. -/
structure Owned (m : Subs) : Prop where
  apart : m.list.Pairwise fun s t => Apart s.array t.array
  live : ∀ s ∈ m.list, ∀ a ∈ s.array, a ∉ m.released
  below : ∀ s ∈ m.list, ∀ a ∈ s.array, a < m.next
  freed : ∀ a ∈ m.released, a < m.next
  rules : ∀ s ∈ m.list, s.array = none ↔ s.config.rules.items = []

structure Drawn (m : Subs) (ps : List Plan) : Prop extends Owned m where
  plans : ps.Pairwise fun p q => Apart p.array q.array
  cross : ∀ s ∈ m.list, ∀ p ∈ ps, Apart s.array p.array
  fresh : ∀ p ∈ ps, ∀ a ∈ p.array, a ∉ m.released ∧ a < m.next
  empty : ∀ p ∈ ps, p.array = none ↔ p.refreshed = []

theorem alloc_eq_none {rules : List SubRule} : (m.alloc rules).1 = none ↔ rules = [] := by
  unfold alloc
  split_ifs with h <;> simp [h]

theorem duePlans_spec (fetch : Nat → Fetch) (ids : List Id) (m : Subs) (i : Nat) :
    (m.duePlans fetch i ids).2.released = m.released ∧
      m.next ≤ (m.duePlans fetch i ids).2.next ∧
      (m.duePlans fetch i ids).1.Pairwise (fun p q => Apart p.array q.array) ∧
      ∀ p ∈ (m.duePlans fetch i ids).1, (p.array = none ↔ p.refreshed = []) ∧
        ∀ a ∈ p.array, m.next ≤ a ∧ a < (m.duePlans fetch i ids).2.next := by
  induction ids generalizing m i with
  | nil => exact ⟨rfl, Nat.le_refl _, .nil, fun _ hp => absurd hp List.not_mem_nil⟩
  | cons id ids ih =>
    unfold duePlans
    split
    · exact ih m (i + 1)
    · split_ifs
      · exact ih m (i + 1)
      · split
        · exact ih m (i + 1)
        · next rules changed _ =>
          obtain ⟨hr, hn, hpw, hall⟩ := ih (m.alloc rules).2 (i + 1)
          have hle := le_next_alloc (m := m) rules
          have hfresh : ∀ a ∈ (m.alloc rules).1, m.next ≤ a ∧ a < (m.alloc rules).2.next :=
            fun a ha => mem_alloc_toList a (Option.mem_toList.mpr ha)
          refine ⟨hr.trans (released_alloc rules), Nat.le_trans hle hn, ?_, ?_⟩
          · refine List.pairwise_cons.mpr ⟨fun q hq a ha ha' => ?_, hpw⟩
            exact absurd (hfresh a ha).2 (Nat.not_lt.mpr ((hall q hq).2 a ha').1)
          · intro p hp
            rcases List.mem_cons.mp hp with rfl | hp
            · refine ⟨alloc_eq_none, fun a ha => ?_⟩
              exact ⟨(hfresh a ha).1, Nat.lt_of_lt_of_le (hfresh a ha).2 hn⟩
            · refine ⟨(hall p hp).1, fun a ha => ?_⟩
              exact ⟨Nat.le_trans hle ((hall p hp).2 a ha).1, ((hall p hp).2 a ha).2⟩

theorem Owned.drawn (h : m.Owned) (fetch : Nat → Fetch) (i : Nat) (ids : List Id) :
    (m.duePlans fetch i ids).2.Drawn (m.duePlans fetch i ids).1 := by
  obtain ⟨hr, hn, hpw, hall⟩ := duePlans_spec fetch ids m i
  have hl := list_duePlans (m := m) fetch ids i
  refine ⟨⟨?_, ?_, ?_, ?_, ?_⟩, hpw, ?_, ?_, fun p hp => (hall p hp).1⟩
  · rw [hl]
    exact h.apart
  · rw [hl, hr]
    exact h.live
  · rw [hl]
    exact fun s hs a ha => Nat.lt_of_lt_of_le (h.below s hs a ha) hn
  · rw [hr]
    exact fun a ha => Nat.lt_of_lt_of_le (h.freed a ha) hn
  · rw [hl]
    exact h.rules
  · rw [hl]
    intro s hs p hp a ha ha'
    exact absurd (h.below s hs a ha) (Nat.not_lt.mpr ((hall p hp).2 a ha').1)
  · rw [hr]
    intro p hp a ha
    refine ⟨fun hrel => ?_, ((hall p hp).2 a ha).2⟩
    exact absurd (h.freed a hrel) (Nat.not_lt.mpr ((hall p hp).2 a ha).1)

/-- The array is that of the subscription at a place, or of a plan for it. -/
def FromCell (m : Subs) (ps : List Plan) (i : Nat) (x : Option Ptr) : Prop :=
  (∃ s, m.list[i]? = some s ∧ x = s.array) ∨ ∃ q ∈ m.plansAt ps i, x = q.array

variable {ps : List Plan} {i j : Nat} {s : Sub}

theorem fromCell_planned (hi : m.list[i]? = some s) {qs : List Plan}
    (hqs : ∀ q ∈ qs, q ∈ m.plansAt ps i) : m.FromCell ps i (planned now s qs).array := by
  rcases array_planned now s qs with he | ⟨q, hq, -, he⟩
  · exact .inl ⟨s, hi, he⟩
  · exact .inr ⟨q, hqs q hq, he⟩

theorem Drawn.cell (h : m.Drawn ps) (hi : m.list[i]? = some s) : CellApart s (m.plansAt ps i) where
  own q hq := h.cross s (List.mem_of_getElem? hi) q (mem_plansAt.mp hq).1
  plans := h.plans.filter _

theorem Drawn.apart_plans (h : m.Drawn ps) {p q : Plan} (hp : p ∈ ps) (hq : q ∈ ps) (hne : p ≠ q) :
    Apart p.array q.array := by
  have hsymm : Std.Symm fun p q : Plan => Apart p.array q.array := ⟨fun _ _ ha => ha.symm⟩
  exact h.plans.forall hp hq hne

theorem Drawn.apart_cells (h : m.Drawn ps) (hij : i ≠ j) {x y : Option Ptr}
    (hx : m.FromCell ps i x) (hy : m.FromCell ps j y) : Apart x y := by
  rcases hx with ⟨s, hs, rfl⟩ | ⟨p, hp, rfl⟩ <;> rcases hy with ⟨t, ht, rfl⟩ | ⟨q, hq, rfl⟩
  · obtain ⟨hi, rfl⟩ := List.getElem?_eq_some_iff.mp hs
    obtain ⟨hj, rfl⟩ := List.getElem?_eq_some_iff.mp ht
    rcases Nat.lt_or_gt_of_ne hij with hlt | hlt
    · exact List.pairwise_iff_getElem.mp h.apart i j hi hj hlt
    · exact (List.pairwise_iff_getElem.mp h.apart j i hj hi hlt).symm
  · exact h.cross s (List.mem_of_getElem? hs) q (mem_plansAt.mp hq).1
  · exact (h.cross t (List.mem_of_getElem? ht) p (mem_plansAt.mp hp).1).symm
  · refine h.apart_plans (mem_plansAt.mp hp).1 (mem_plansAt.mp hq).1 fun he => hij ?_
    have hpi := (mem_plansAt.mp hp).2
    rw [he, (mem_plansAt.mp hq).2] at hpi
    exact (Option.some.inj hpi).symm

theorem Drawn.fromCell (h : m.Drawn ps) {x : Option Ptr} (hx : m.FromCell ps i x) :
    ∀ a ∈ x, a ∉ m.released ∧ a < m.next := by
  rcases hx with ⟨s, hs, rfl⟩ | ⟨q, hq, rfl⟩
  · exact fun a ha => ⟨h.live s (List.mem_of_getElem? hs) a ha,
      h.below s (List.mem_of_getElem? hs) a ha⟩
  · exact h.fresh q (mem_plansAt.mp hq).1

/-- The array a subscription has after plans is not one that carrying out the plans freed. -/
theorem Drawn.planned_notMem_spared (h : m.Drawn ps) (hi : m.list[i]? = some s) {qs : List Plan}
    (hqs : ∀ q ∈ qs, q ∈ m.plansAt ps i) :
    ∀ a ∈ (planned now s qs).array, a ∉ m.spared ps := by
  intro a ha hsp
  obtain ⟨p, hp, hap⟩ := List.mem_flatMap.mp hsp
  obtain ⟨hp, hfree⟩ := List.mem_filter.mp hp
  have hap : a ∈ p.array := Option.mem_toList.mp hap
  rcases array_planned now s qs with he | ⟨q, hq, hc, he⟩
  · rw [he] at ha
    exact h.cross s (List.mem_of_getElem? hi) p hp a ha hap
  · obtain ⟨hqps, hplace⟩ := mem_plansAt.mp (hqs q hq)
    rw [he] at ha
    refine h.apart_plans hqps hp (fun heq => ?_) a ha hap
    subst heq
    rw [hplace, hc] at hfree
    cases hfree

/-! ## Plans carried out and undone -/

/-- The subscriptions after plans were carried out and undone. -/
def rolledBack (now : Nat) (m : Subs) (ps : List Plan) : Subs :=
  (m.applyPlans now ps).1.undo (m.applyPlans now ps).2

theorem getElem?_applyPlans (now : Nat) (ps : List Plan) (hi : m.list[i]? = some s) :
    (m.applyPlans now ps).1.list[i]? = some (planned now s (m.plansAt ps i)) := by
  rw [(applyPlans_record now ps m).1, (UndoLog.record_place hi _).1, changesAt_changes, after_change]

theorem getElem?_rolledBack (now : Nat) (ps : List Plan) (hi : m.list[i]? = some s) :
    (rolledBack now m ps).list[i]? = some (planned now s (m.plansAt ps i).dropLast) := by
  obtain ⟨hl, he, -⟩ := applyPlans_record now ps m
  rw [rolledBack, (undo_replay _ _).1, hl, he, UndoLog.getElem?_replay_record hi,
    changesAt_changes, ← List.map_dropLast, after_change]

theorem length_rolledBack (now : Nat) (m : Subs) (ps : List Plan) :
    (rolledBack now m ps).list.length = m.list.length := by
  obtain ⟨hl, he, -⟩ := applyPlans_record now ps m
  rw [rolledBack, (undo_replay _ _).1, UndoLog.length_replay, hl, UndoLog.length_record]

theorem next_rolledBack (now : Nat) (m : Subs) (ps : List Plan) :
    (rolledBack now m ps).next = m.next :=
  (undo_replay _ _).2.2.trans (applyPlans_record now ps m).2.2.2

theorem mem_released_rolledBack (now : Nat) (m : Subs) (ps : List Plan) (a : Ptr) :
    a ∈ (rolledBack now m ps).released ↔
      a ∈ m.released ∨ a ∈ m.spared ps ∨
        ∃ i s, m.list[i]? = some s ∧
          ∃ y ∈ UndoLog.discards (planned now s (m.plansAt ps i))
            (UndoLog.trail s ((m.plansAt ps i).map (change now i))), y.array = some a := by
  obtain ⟨hl, he, hr, -⟩ := applyPlans_record now ps m
  rw [rolledBack, (undo_replay _ _).2.1, hl, he, hr]
  simp only [List.mem_append, List.mem_filterMap, UndoLog.mem_replay_record, changesAt_changes,
    after_change, or_assoc]
  refine or_congr_right (or_congr_right ⟨?_, ?_⟩)
  · rintro ⟨y, ⟨i, s, hi, hy⟩, ha⟩
    exact ⟨i, s, hi, y, hy, ha⟩
  · rintro ⟨i, s, hi, y, hy, ha⟩
    exact ⟨y, ⟨i, s, hi, hy⟩, ha⟩

theorem fromCell_discards (hi : m.list[i]? = some s) {y : Sub}
    (hy : y ∈ UndoLog.discards (planned now s (m.plansAt ps i))
      (UndoLog.trail s ((m.plansAt ps i).map (change now i)))) : m.FromCell ps i y.array := by
  rcases (mem_discards i s y _).mp hy with ⟨q, -, -, rfl⟩ | ⟨as, q, q', bs, he, -, rfl⟩
  · exact fromCell_planned hi fun _ hq => hq
  · exact fromCell_planned hi fun _ hq => he ▸ List.mem_append_left _ hq

/-- The array that a subscription has in the end was freed only by the replay of its own plans. -/
theorem Drawn.mem_released_iff (h : m.Drawn ps) (hi : m.list[i]? = some s) {a : Ptr}
    (ha : (planned now s (m.plansAt ps i).dropLast).array = some a) :
    a ∈ (rolledBack now m ps).released ↔ Lost ((m.plansAt ps i).map Plan.changed) := by
  have hdrop : ∀ q ∈ (m.plansAt ps i).dropLast, q ∈ m.plansAt ps i :=
    fun _ hq => List.mem_of_mem_dropLast hq
  have hfrom : m.FromCell ps i (planned now s (m.plansAt ps i).dropLast).array :=
    fromCell_planned hi hdrop
  rw [← (h.cell hi).lost_iff i ha, mem_released_rolledBack]
  constructor
  · rintro (hr | hsp | ⟨j, t, hj, y, hy, hya⟩)
    · exact absurd hr (h.fromCell hfrom a ha).1
    · exact absurd hsp (h.planned_notMem_spared hi hdrop a ha)
    · by_cases hij : i = j
      · subst hij
        cases hi.symm.trans hj
        exact ⟨y, hy, hya⟩
      · exact absurd hya (h.apart_cells hij hfrom (fromCell_discards hj hy) a ha)
  · rintro ⟨y, hy, hya⟩
    exact .inr (.inr ⟨i, s, hi, y, hy, hya⟩)

/-! ## When the rollback is exact -/

/-- What a subscription says; the room that its array has left does not count. -/
def content (s : Subscription) : Subscription := { s with rules := .exact s.rules.items }

/-- Plans for a subscription do no harm when they are undone: what it says before the last of them
is what it said at first, and it has no array that could be lost or does not lose it. -/
def Harmless (now : Nat) (s : Sub) (qs : List Plan) : Prop :=
  content (planned now s qs.dropLast).config = content s.config ∧
    (s.config.rules.items = [] ∨ ¬ Lost (qs.map Plan.changed))

instance (now : Nat) (s : Sub) (qs : List Plan) : Decidable (Harmless now s qs) := by
  unfold Harmless
  infer_instance

/-- The subscriptions say what they said before, and none has an array that was freed. -/
def Restored (m u : Subs) : Prop :=
  u.list.map (fun s => content s.config) = m.list.map (fun s => content s.config) ∧
    ∀ s ∈ u.list, ∀ a ∈ s.array, a ∉ u.released

theorem items_foldl_parsePush (rules : List SubRule) (a : CArray SubRule) :
    (rules.foldl parsePush a).items = a.items ++ rules := by
  induction rules generalizing a with
  | nil => exact (List.append_nil _).symm
  | cons r rules ih =>
    rw [List.foldl_cons, ih]
    simp [parsePush]

theorem items_refreshedArray (rules : List SubRule) : (refreshedArray rules).items = rules :=
  items_foldl_parsePush rules .empty

theorem array_planned_eq_none {qs : List Plan} (hs : s.array = none ↔ s.config.rules.items = [])
    (hq : ∀ q ∈ qs, q.array = none ↔ q.refreshed = []) :
    (planned now s qs).array = none ↔ (planned now s qs).config.rules.items = [] := by
  induction qs using List.reverseRecOn with
  | nil => exact hs
  | append_singleton qs q ih =>
    rw [planned_concat]
    unfold carryOut
    split_ifs
    · rw [hq q (by simp), items_refreshedArray]
    · exact ih fun q' hq' => hq q' (by simp [hq'])

theorem mem_rolledBack {t : Sub} :
    t ∈ (rolledBack now m ps).list ↔
      ∃ i s, m.list[i]? = some s ∧ t = planned now s (m.plansAt ps i).dropLast := by
  rw [List.mem_iff_getElem?]
  constructor
  · rintro ⟨i, hi⟩
    have hlt : i < m.list.length := by
      have hlt := (List.getElem?_eq_some_iff.mp hi).1
      rwa [length_rolledBack] at hlt
    have hs := List.getElem?_eq_getElem hlt
    rw [getElem?_rolledBack now ps hs] at hi
    exact ⟨i, _, hs, (Option.some.inj hi).symm⟩
  · rintro ⟨i, s, hs, rfl⟩
    exact ⟨i, getElem?_rolledBack now ps hs⟩

theorem map_rolledBack {β : Type} (f : Sub → β) :
    (rolledBack now m ps).list.map f = m.list.map f ↔
      ∀ i s, m.list[i]? = some s → f (planned now s (m.plansAt ps i).dropLast) = f s := by
  constructor
  · intro he i s hi
    have hget : (rolledBack now m ps).list[i]?.map f = m.list[i]?.map f := by
      rw [← List.getElem?_map, ← List.getElem?_map, he]
    rw [getElem?_rolledBack now ps hi, hi] at hget
    exact Option.some.inj hget
  · intro hall
    refine List.ext_getElem? fun i => ?_
    rw [List.getElem?_map, List.getElem?_map]
    cases hi : m.list[i]? with
    | none =>
      have hlen : (rolledBack now m ps).list[i]? = none := by
        rw [List.getElem?_eq_none_iff, length_rolledBack]
        exact List.getElem?_eq_none_iff.mp hi
      rw [hlen]
    | some s =>
      rw [getElem?_rolledBack now ps hi]
      exact congrArg some (hall i s hi)

theorem Drawn.array_rolledBack (h : m.Drawn ps) (now : Nat) (hi : m.list[i]? = some s) :
    (planned now s (m.plansAt ps i).dropLast).array = none ↔
      (planned now s (m.plansAt ps i).dropLast).config.rules.items = [] :=
  array_planned_eq_none (h.rules s (List.mem_of_getElem? hi)) fun q hq =>
    h.empty q (mem_plansAt.mp (List.mem_of_mem_dropLast hq)).1

theorem Drawn.restored_iff (h : m.Drawn ps) (now : Nat) :
    m.Restored (rolledBack now m ps) ↔
      ∀ i s, m.list[i]? = some s → Harmless now s (m.plansAt ps i) := by
  unfold Restored
  rw [map_rolledBack]
  -- where a subscription says what it said, it has an array exactly if it has rules
  have hiff : ∀ i s, m.list[i]? = some s →
      content (planned now s (m.plansAt ps i).dropLast).config = content s.config →
      ((∀ a ∈ (planned now s (m.plansAt ps i).dropLast).array,
          a ∉ (rolledBack now m ps).released) ↔
        (s.config.rules.items = [] ∨ ¬ Lost ((m.plansAt ps i).map Plan.changed))) := by
    intro i s hi hc
    have hrules : (planned now s (m.plansAt ps i).dropLast).config.rules.items =
        s.config.rules.items := congrArg (fun c => c.rules.items) hc
    have hnone := h.array_rolledBack now hi
    rw [hrules] at hnone
    cases ha : (planned now s (m.plansAt ps i).dropLast).array with
    | none =>
      refine ⟨fun _ => .inl (hnone.mp ha), fun _ _ ha' => ?_⟩
      cases ha'
    | some a =>
      have hne : s.config.rules.items ≠ [] := fun he => by
        rw [hnone.mpr he] at ha
        cases ha
      rw [← h.mem_released_iff hi ha]
      refine ⟨fun hall => .inr (hall a rfl), fun hor a' ha' => ?_⟩
      cases ha'
      exact hor.resolve_left hne
  constructor
  · rintro ⟨hc, hfree⟩ i s hi
    exact ⟨hc i s hi, (hiff i s hi (hc i s hi)).mp (hfree _ (mem_rolledBack.mpr ⟨i, s, hi, rfl⟩))⟩
  · intro hall
    refine ⟨fun i s hi => (hall i s hi).1, fun t ht => ?_⟩
    obtain ⟨i, s, hi, rfl⟩ := mem_rolledBack.mp ht
    exact (hiff i s hi (hall i s hi).1).mpr (hall i s hi).2

/-! ## Ownership after a sync -/

theorem Drawn.mem_spared (h : m.Drawn ps) {a : Ptr} (ha : a ∈ m.spared ps) : a < m.next := by
  obtain ⟨p, hp, hap⟩ := List.mem_flatMap.mp ha
  exact (h.fresh p (List.mem_filter.mp hp).1 a (Option.mem_toList.mp hap)).2

theorem Drawn.owned_rolledBack (h : m.Drawn ps)
    (hlive : ∀ s ∈ (rolledBack now m ps).list, ∀ a ∈ s.array, a ∉ (rolledBack now m ps).released) :
    (rolledBack now m ps).Owned := by
  have hdrop : ∀ i, ∀ q ∈ (m.plansAt ps i).dropLast, q ∈ m.plansAt ps i :=
    fun _ _ hq => List.mem_of_mem_dropLast hq
  have hmem : ∀ i t, (rolledBack now m ps).list[i]? = some t → m.FromCell ps i t.array := by
    intro i t ht
    have hlt := (List.getElem?_eq_some_iff.mp ht).1
    rw [length_rolledBack] at hlt
    have hs := List.getElem?_eq_getElem hlt
    rw [getElem?_rolledBack now ps hs] at ht
    cases ht
    exact fromCell_planned hs (hdrop i)
  refine ⟨?_, hlive, ?_, ?_, ?_⟩
  · refine List.pairwise_iff_getElem.mpr fun i j hi hj hij => ?_
    exact h.apart_cells (Nat.ne_of_lt hij) (hmem i _ (List.getElem?_eq_getElem hi))
      (hmem j _ (List.getElem?_eq_getElem hj))
  · intro t ht a ha
    obtain ⟨i, hi⟩ := List.mem_iff_getElem?.mp ht
    rw [next_rolledBack]
    exact (h.fromCell (hmem i t hi) a ha).2
  · intro a ha
    rw [next_rolledBack]
    rcases (mem_released_rolledBack now m ps a).mp ha with hr | hsp | ⟨i, s, hi, y, hy, hya⟩
    · exact h.freed a hr
    · exact h.mem_spared hsp
    · exact (h.fromCell (fromCell_discards hi hy) a hya).2
  · intro t ht
    obtain ⟨i, s, hi, rfl⟩ := mem_rolledBack.mp ht
    exact h.array_rolledBack now hi

theorem mem_saved {e : Saved} (he : e ∈ (m.applyPlans now ps).2) :
    ∃ s as q bs, m.list[e.index]? = some s ∧ m.plansAt ps e.index = as ++ q :: bs ∧
      e.old = planned now s as ∧ e.replaced = q.changed := by
  have hmem : entry e ∈ (UndoLog.record m.list (m.changes now ps)).2 := by
    rw [← (applyPlans_record now ps m).2.1]
    exact List.mem_map_of_mem he
  obtain ⟨s, as, c, bs, hs, hat, hold, hf⟩ := UndoLog.mem_record hmem
  rw [changesAt_changes] at hat
  obtain ⟨as', r, hps, rfl, hr⟩ := List.map_eq_append_iff.mp hat
  obtain ⟨q, bs', rfl, rfl, -⟩ := List.map_eq_cons_iff.mp hr
  exact ⟨s, as', q, bs', hs, hps, hold.trans (after_change _ s as'), hf⟩

/-- A sync that succeeds frees the arrays that were replaced, and no others that matter. -/
theorem Drawn.owned_applyPlans (h : m.Drawn ps) :
    ((m.applyPlans now ps).1.releaseAll
      (((m.applyPlans now ps).2.filter Saved.replaced).map fun e => e.old.array)).Owned := by
  obtain ⟨hl, -, hr, hn⟩ := applyPlans_record now ps m
  have hcell : ∀ i t, (m.applyPlans now ps).1.list[i]? = some t →
      ∃ s, m.list[i]? = some s ∧ t = planned now s (m.plansAt ps i) := by
    intro i t ht
    have hlt := (List.getElem?_eq_some_iff.mp ht).1
    rw [hl, UndoLog.length_record] at hlt
    have hs := List.getElem?_eq_getElem hlt
    rw [getElem?_applyPlans now ps hs] at ht
    exact ⟨_, hs, (Option.some.inj ht).symm⟩
  have hfrom : ∀ i t, (m.applyPlans now ps).1.list[i]? = some t → m.FromCell ps i t.array := by
    intro i t ht
    obtain ⟨s, hs, rfl⟩ := hcell i t ht
    exact fromCell_planned hs fun _ hq => hq
  have hold : ∀ a ∈ (((m.applyPlans now ps).2.filter Saved.replaced).map fun e => e.old.array
      ).filterMap id, ∃ i s as q bs, m.list[i]? = some s ∧ m.plansAt ps i = as ++ q :: bs ∧
        q.changed = true ∧ (planned now s as).array = some a := by
    intro a ha
    obtain ⟨x, hx, hxa⟩ := List.mem_filterMap.mp ha
    obtain ⟨e, he, rfl⟩ := List.mem_map.mp hx
    obtain ⟨he, hrep⟩ := List.mem_filter.mp he
    obtain ⟨s, as, q, bs, hs, hat, hold, hf⟩ := mem_saved he
    exact ⟨_, s, as, q, bs, hs, hat, hf.symm.trans hrep, hold ▸ hxa⟩
  have hfront : ∀ {i : Nat} {as bs : List Plan} {q : Plan}, m.plansAt ps i = as ++ q :: bs →
      ∀ p ∈ as, p ∈ m.plansAt ps i := fun hat _ hp => hat ▸ List.mem_append_left _ hp
  refine ⟨?_, ?_, ?_, ?_, ?_⟩
  · refine List.pairwise_iff_getElem.mpr fun i j hi hj hij => ?_
    exact h.apart_cells (Nat.ne_of_lt hij) (hfrom i _ (List.getElem?_eq_getElem hi))
      (hfrom j _ (List.getElem?_eq_getElem hj))
  · intro t ht a ha hrel
    obtain ⟨i, hi⟩ := List.mem_iff_getElem?.mp ht
    obtain ⟨s, hs, rfl⟩ := hcell i t hi
    rcases List.mem_append.mp hrel with hrel | hrel
    · rw [hr] at hrel
      rcases List.mem_append.mp hrel with hrel | hrel
      · exact (h.fromCell (hfrom i _ hi) a ha).1 hrel
      · exact h.planned_notMem_spared hs (fun _ hq => hq) a ha hrel
    · obtain ⟨j, s', as, q, bs, hs', hat, hq, ha'⟩ := hold a hrel
      by_cases hij : i = j
      · -- the array was there before the plan that replaced it, so it is not there at the end
        subst hij
        cases hs.symm.trans hs'
        have hcell := h.cell hs
        rw [hat] at hcell ha
        rw [hcell.unchanged ha' ha q (by simp)] at hq
        cases hq
      · exact h.apart_cells hij (hfrom i _ hi) (fromCell_planned hs' (hfront hat)) a ha ha'
  · intro t ht a ha
    obtain ⟨i, hi⟩ := List.mem_iff_getElem?.mp ht
    show a < (m.applyPlans now ps).1.next
    rw [hn]
    exact (h.fromCell (hfrom i t hi) a ha).2
  · intro a ha
    show a < (m.applyPlans now ps).1.next
    rw [hn]
    rcases List.mem_append.mp ha with ha | ha
    · rw [hr] at ha
      rcases List.mem_append.mp ha with ha | ha
      · exact h.freed a ha
      · exact h.mem_spared ha
    · obtain ⟨j, s', as, q, bs, hs', hat, -, ha'⟩ := hold a ha
      exact (h.fromCell (fromCell_planned hs' (hfront hat)) a ha').2
  · intro t ht
    obtain ⟨i, hi⟩ := List.mem_iff_getElem?.mp ht
    obtain ⟨s, hs, rfl⟩ := hcell i t hi
    exact array_planned_eq_none (h.rules s (List.mem_of_getElem? hs)) fun q hq =>
      h.empty q (mem_plansAt.mp hq).1

end Subs

end MagiTrickle.Runtime
