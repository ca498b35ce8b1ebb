import Mathlib.Data.List.Basic

/-!
# Undo logs replayed from the front

Changes are made to the places of a list, each logged with the value that was
there before. The log is then replayed from its oldest entry on: each entry puts
its value back, and discards the value it finds if it had brought in a new one.

A place that was changed once is restored. One that was changed more often ends
with the value before its last change (`getElem?_replay_record`), not before its
first. What is discarded at a place depends on the changes there alone
(`mem_replay_record`).
-/

namespace MagiTrickle.Lib.UndoLog

variable {α : Type}

/-- A change: its place, what it does, and whether it brings in something new. -/
structure Change (α : Type) where
  place : Nat
  act : α → α
  fresh : Bool

structure Entry (α : Type) where
  place : Nat
  before : α
  fresh : Bool

def record (l : List α) : List (Change α) → List α × List (Entry α)
  | [] => (l, [])
  | c :: cs =>
    match l[c.place]? with
    | none => record l cs
    | some x =>
      let r := record (l.set c.place (c.act x)) cs
      (r.1, ⟨c.place, x, c.fresh⟩ :: r.2)

/-- The log played back from the front, and what it discards. -/
def replay (l : List α) : List (Entry α) → List α × List α
  | [] => (l, [])
  | e :: es =>
    let r := replay (l.set e.place e.before) es
    (r.1, (if e.fresh then l[e.place]?.toList else []) ++ r.2)

/-! ## One place -/

def after (x : α) (cs : List (Change α)) : α := cs.foldl (fun x c => c.act x) x

def trail (x : α) : List (Change α) → List (Entry α)
  | [] => []
  | c :: cs => ⟨c.place, x, c.fresh⟩ :: trail (c.act x) cs

/-- What a replay over one place discards, the value there being `x`. -/
def discards (x : α) : List (Entry α) → List α
  | [] => []
  | e :: es => (if e.fresh then [x] else []) ++ discards e.before es

def changesAt (cs : List (Change α)) (i : Nat) : List (Change α) := cs.filter fun c => c.place = i

def entriesAt (es : List (Entry α)) (i : Nat) : List (Entry α) := es.filter fun e => e.place = i

@[simp] theorem after_nil (x : α) : after x [] = x := rfl

@[simp] theorem after_cons (x : α) (c : Change α) (cs : List (Change α)) :
    after x (c :: cs) = after (c.act x) cs := rfl

/-- The value a log puts back last, `y` if it is empty. -/
def lastBefore (y : α) (es : List (Entry α)) : α := (es.getLast?.map Entry.before).getD y

theorem lastBefore_cons (y : α) (e : Entry α) (es : List (Entry α)) :
    lastBefore y (e :: es) = lastBefore e.before es := by
  rw [lastBefore, lastBefore, List.getLast?_cons]
  cases es.getLast? <;> rfl

theorem lastBefore_trail (x y : α) {cs : List (Change α)} (hne : cs ≠ []) :
    lastBefore y (trail x cs) = after x cs.dropLast := by
  induction cs generalizing x y with
  | nil => exact absurd rfl hne
  | cons c cs ih =>
    rw [trail, lastBefore_cons]
    cases cs with
    | nil => rfl
    | cons c' cs =>
      rw [List.dropLast_cons_cons, after_cons]
      exact ih (c.act x) x (List.cons_ne_nil c' cs)

/-- The first entry discards the value it finds; each later one the value put back just before,
which is the one before the change that came two earlier. -/
theorem mem_discards_trail (x y z : α) (cs : List (Change α)) :
    y ∈ discards z (trail x cs) ↔
      (∃ c, cs.head? = some c ∧ c.fresh = true ∧ y = z) ∨
        ∃ as c c' bs, cs = as ++ c :: c' :: bs ∧ c'.fresh = true ∧ y = after x as := by
  induction cs generalizing x z with
  | nil => simp [trail, discards]
  | cons c cs ih =>
    have hfirst : y ∈ (if c.fresh then [z] else []) ↔ c.fresh = true ∧ y = z := by
      split_ifs with hf <;> simp [hf]
    rw [trail, discards, List.mem_append, ih, hfirst]
    constructor
    · rintro (⟨hf, rfl⟩ | ⟨c', hc', hf, rfl⟩ | ⟨as, c', c'', bs, rfl, hf, rfl⟩)
      · exact .inl ⟨c, rfl, hf, rfl⟩
      · obtain ⟨bs, rfl⟩ := List.head?_eq_some_iff.mp hc'
        exact .inr ⟨[], c, c', bs, rfl, hf, rfl⟩
      · exact .inr ⟨c :: as, c', c'', bs, rfl, hf, rfl⟩
    · rintro (⟨c', hc', hf, rfl⟩ | ⟨as, c', c'', bs, he, hf, rfl⟩)
      · cases hc'
        exact .inl ⟨hf, rfl⟩
      · cases as with
        | nil =>
          obtain ⟨rfl, rfl⟩ := List.cons.inj he
          exact .inr (.inl ⟨c'', rfl, hf, rfl⟩)
        | cons a as =>
          obtain ⟨rfl, rfl⟩ := List.cons.inj he
          exact .inr (.inr ⟨as, c', c'', bs, rfl, hf, rfl⟩)

theorem mem_trail {x : α} {cs : List (Change α)} {e : Entry α} (h : e ∈ trail x cs) :
    ∃ as c bs, cs = as ++ c :: bs ∧ e = ⟨c.place, after x as, c.fresh⟩ := by
  induction cs generalizing x with
  | nil => exact absurd h List.not_mem_nil
  | cons c cs ih =>
    rcases List.mem_cons.mp h with rfl | h
    · exact ⟨[], c, cs, rfl, rfl⟩
    · obtain ⟨as, c', bs, rfl, rfl⟩ := ih h
      exact ⟨c :: as, c', bs, rfl, rfl⟩

/-! ## All places -/

theorem length_record (l : List α) (cs : List (Change α)) :
    (record l cs).1.length = l.length := by
  induction cs generalizing l with
  | nil => rfl
  | cons c cs ih =>
    unfold record
    split
    · exact ih l
    · exact (ih _).trans List.length_set

theorem length_replay (l : List α) (es : List (Entry α)) :
    (replay l es).1.length = l.length := by
  induction es generalizing l with
  | nil => rfl
  | cons e es ih => exact (ih _).trans List.length_set

theorem record_place {l : List α} {i : Nat} {x : α} (hx : l[i]? = some x) (cs : List (Change α)) :
    (record l cs).1[i]? = some (after x (changesAt cs i)) ∧
      entriesAt (record l cs).2 i = trail x (changesAt cs i) := by
  induction cs generalizing l x with
  | nil => exact ⟨hx, rfl⟩
  | cons c cs ih =>
    unfold record
    split
    · next hn =>
      -- a change out of range is not one of place `i`
      have hne : c.place ≠ i := fun he => by
        rw [he, hx] at hn
        cases hn
      have hat : changesAt (c :: cs) i = changesAt cs i := by
        simp [changesAt, hne]
      rw [hat]
      exact ih hx
    · next y hy =>
      by_cases he : c.place = i
      · have hxy : y = x := by
          rw [he, hx] at hy
          exact (Option.some.inj hy).symm
        have hlt : i < l.length := (List.getElem?_eq_some_iff.mp hx).1
        have hat : changesAt (c :: cs) i = c :: changesAt cs i := by
          simp [changesAt, he]
        subst hxy
        have hset : (l.set c.place (c.act y))[i]? = some (c.act y) := by
          rw [he]
          exact List.getElem?_set_self hlt
        obtain ⟨h1, h2⟩ := ih hset
        rw [hat]
        refine ⟨h1, ?_⟩
        dsimp only
        rw [entriesAt, List.filter_cons_of_pos (by simpa using he)]
        exact congrArg _ h2
      · have hat : changesAt (c :: cs) i = changesAt cs i := by
          simp [changesAt, he]
        have hset : (l.set c.place (c.act y))[i]? = some x := by
          rw [List.getElem?_set_ne he]
          exact hx
        obtain ⟨h1, h2⟩ := ih hset
        rw [hat]
        refine ⟨h1, ?_⟩
        dsimp only
        rw [entriesAt, List.filter_cons_of_neg (by simpa using he)]
        exact h2

theorem place_lt_of_mem_record {l : List α} {cs : List (Change α)} {e : Entry α}
    (h : e ∈ (record l cs).2) : e.place < l.length := by
  induction cs generalizing l with
  | nil => exact absurd h List.not_mem_nil
  | cons c cs ih =>
    unfold record at h
    split at h
    · exact ih h
    · next y hy =>
      rcases List.mem_cons.mp h with rfl | h
      · exact (List.getElem?_eq_some_iff.mp hy).1
      · have hlt := ih h
        rwa [List.length_set] at hlt

theorem mem_record {l : List α} {cs : List (Change α)} {e : Entry α} (h : e ∈ (record l cs).2) :
    ∃ x as c bs, l[e.place]? = some x ∧ changesAt cs e.place = as ++ c :: bs ∧
      e.before = after x as ∧ e.fresh = c.fresh := by
  have hx := List.getElem?_eq_getElem (place_lt_of_mem_record h)
  have hat : e ∈ entriesAt (record l cs).2 e.place := List.mem_filter.mpr ⟨h, by simp⟩
  rw [(record_place hx cs).2] at hat
  obtain ⟨as, c, bs, hcs, he⟩ := mem_trail hat
  exact ⟨_, as, c, bs, hx, hcs, congrArg Entry.before he, congrArg Entry.fresh he⟩

theorem getElem?_replay {l : List α} {i : Nat} {x : α} (hx : l[i]? = some x)
    (es : List (Entry α)) :
    (replay l es).1[i]? = some (lastBefore x (entriesAt es i)) := by
  induction es generalizing l x with
  | nil => exact hx
  | cons e es ih =>
    by_cases he : e.place = i
    · have hlt : i < l.length := (List.getElem?_eq_some_iff.mp hx).1
      have hset : (l.set e.place e.before)[i]? = some e.before := by
        rw [he]
        exact List.getElem?_set_self hlt
      have hat : entriesAt (e :: es) i = e :: entriesAt es i := by
        simp [entriesAt, he]
      rw [replay, hat, ih hset, lastBefore_cons]
    · have hset : (l.set e.place e.before)[i]? = some x := by
        rw [List.getElem?_set_ne he]
        exact hx
      have hat : entriesAt (e :: es) i = entriesAt es i := by
        simp [entriesAt, he]
      rw [replay, hat, ih hset]

theorem mem_replay {l : List α} (es : List (Entry α)) (y : α) :
    y ∈ (replay l es).2 ↔ ∃ i x, l[i]? = some x ∧ y ∈ discards x (entriesAt es i) := by
  induction es generalizing l with
  | nil => simp [replay, entriesAt, discards]
  | cons e es ih =>
    rw [replay, List.mem_append, ih]
    constructor
    · rintro (hy | ⟨i, x, hx, hy⟩)
      · split_ifs at hy with hf
        · have hx : l[e.place]? = some y := Option.mem_toList.mp hy
          refine ⟨e.place, y, hx, ?_⟩
          simp [entriesAt, discards, hf]
        · exact absurd hy List.not_mem_nil
      · by_cases he : e.place = i
        · have hlt : i < l.length := by
            have := (List.getElem?_eq_some_iff.mp hx).1
            rwa [List.length_set] at this
          rw [he, List.getElem?_set_self hlt] at hx
          cases hx
          refine ⟨i, l[i], List.getElem?_eq_getElem hlt, ?_⟩
          simp only [entriesAt, List.filter_cons_of_pos (p := fun e : Entry α => e.place = i)
            (by simpa using he), discards, List.mem_append]
          exact .inr hy
        · rw [List.getElem?_set_ne he] at hx
          refine ⟨i, x, hx, ?_⟩
          simpa only [entriesAt, List.filter_cons_of_neg (p := fun e : Entry α => e.place = i)
            (by simpa using he)] using hy
    · rintro ⟨i, x, hx, hy⟩
      by_cases he : e.place = i
      · have hlt : i < l.length := (List.getElem?_eq_some_iff.mp hx).1
        simp only [entriesAt, List.filter_cons_of_pos (p := fun e : Entry α => e.place = i)
          (by simpa using he), discards, List.mem_append] at hy
        rcases hy with hy | hy
        · refine .inl ?_
          split_ifs at hy ⊢
          · rw [List.mem_singleton.mp hy, he, hx]
            simp
          · exact absurd hy List.not_mem_nil
        · refine .inr ⟨i, e.before, ?_, hy⟩
          rw [he]
          exact List.getElem?_set_self hlt
      · refine .inr ⟨i, x, ?_, ?_⟩
        · rw [List.getElem?_set_ne he]
          exact hx
        · simpa only [entriesAt, List.filter_cons_of_neg (p := fun e : Entry α => e.place = i)
            (by simpa using he)] using hy

/-! ## Recording, then replaying -/

/-- Each place ends with the value before its last change. -/
theorem getElem?_replay_record {l : List α} {i : Nat} {x : α} (hx : l[i]? = some x)
    (cs : List (Change α)) :
    (replay (record l cs).1 (record l cs).2).1[i]? = some (after x (changesAt cs i).dropLast) := by
  obtain ⟨h1, h2⟩ := record_place hx cs
  rw [getElem?_replay h1, h2]
  -- a place that was not changed has no entry, and its value is still `x`
  cases hcs : changesAt cs i with
  | nil => rfl
  | cons c cs' => rw [lastBefore_trail _ _ (List.cons_ne_nil c cs')]

theorem mem_replay_record {l : List α} (cs : List (Change α)) (y : α) :
    y ∈ (replay (record l cs).1 (record l cs).2).2 ↔
      ∃ i x, l[i]? = some x ∧
        y ∈ discards (after x (changesAt cs i)) (trail x (changesAt cs i)) := by
  rw [mem_replay]
  constructor
  · rintro ⟨i, z, hz, hy⟩
    have hlt : i < l.length := by
      have := (List.getElem?_eq_some_iff.mp hz).1
      rwa [length_record] at this
    obtain ⟨h1, h2⟩ := record_place (List.getElem?_eq_getElem hlt) cs
    rw [h1] at hz
    cases hz
    rw [h2] at hy
    exact ⟨i, _, List.getElem?_eq_getElem hlt, hy⟩
  · rintro ⟨i, x, hx, hy⟩
    obtain ⟨h1, h2⟩ := record_place hx cs
    exact ⟨i, _, h1, by rw [h2]; exact hy⟩

end MagiTrickle.Lib.UndoLog
