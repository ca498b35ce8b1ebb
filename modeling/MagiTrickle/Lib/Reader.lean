import Mathlib.Data.List.Basic

/-!
# Readers over a buffer

A reader looks at a whole buffer from a position on and returns a value and the
position behind what it read, or fails. `Reads m bs a`: wherever `bs` stands in
a buffer, the reader reads it as `a` and stops behind it; `ReadsWithin` is the
same for a reader with a limit. What a writer writes piece by piece is read back
piece by piece (`bind`, `times`).
-/

namespace MagiTrickle.Lib

/-- A reader of values `α` from a buffer of elements `β`. -/
def Reader (β α : Type) := List β → Nat → Option (α × Nat)

namespace Reader

variable {β α γ : Type}

instance : Monad (Reader β) where
  pure a := fun _ pos => some (a, pos)
  bind m f := fun buf pos => (m buf pos).bind fun r => f r.1 buf r.2

def pos : Reader β Nat := fun _ p => some (p, p)

def size : Reader β Nat := fun buf p => some (buf.length, p)

/-- Fails unless `b`. -/
def ensure (b : Prop) [Decidable b] : Reader β Unit := fun _ p => if b then some ((), p) else none

/-- The next `n` elements, if the buffer has them. -/
def take (n : Nat) : Reader β (List β) := fun buf p =>
  if p + n > buf.length then none else some ((buf.drop p).take n, p + n)

/-- `n` values in a row. -/
def times (m : Reader β α) : Nat → Reader β (List α)
  | 0 => pure []
  | n + 1 => do
    let a ← m
    let as ← times m n
    return a :: as

theorem bind_eq_some {m : Reader β α} {f : α → Reader β γ} {buf : List β} {p q : Nat} {c : γ} :
    (m >>= f) buf p = some (c, q) ↔
      ∃ a p', m buf p = some (a, p') ∧ f a buf p' = some (c, q) := by
  show (m buf p).bind _ = _ ↔ _
  rw [Option.bind_eq_some_iff]
  exact ⟨fun ⟨r, h₁, h₂⟩ => ⟨r.1, r.2, h₁, h₂⟩, fun ⟨a, p', h₁, h₂⟩ => ⟨(a, p'), h₁, h₂⟩⟩

theorem pure_eq_some {buf : List β} {p q : Nat} {a c : α} :
    (pure a : Reader β α) buf p = some (c, q) ↔ a = c ∧ p = q := by
  show some (a, p) = some (c, q) ↔ _
  rw [Option.some.injEq, Prod.mk.injEq]

theorem ensure_eq_some {b : Prop} [Decidable b] {buf : List β} {p q : Nat} {u : Unit} :
    (ensure b : Reader β Unit) buf p = some (u, q) ↔ b ∧ p = q := by
  unfold ensure
  split
  · next h => simp [h]
  · next h => simp [h]

theorem take_eq_some {n : Nat} {buf bs : List β} {p q : Nat} :
    take n buf p = some (bs, q) ↔ p + n ≤ buf.length ∧ bs = (buf.drop p).take n ∧ q = p + n := by
  unfold take
  split
  · next h => simp only [reduceCtorEq, false_iff, not_and]; omega
  · next h =>
    rw [Option.some.injEq, Prod.mk.injEq]
    exact ⟨fun ⟨h₁, h₂⟩ => ⟨by omega, h₁.symm, h₂.symm⟩, fun ⟨_, h₁, h₂⟩ => ⟨h₁.symm, h₂.symm⟩⟩

theorem forall_of_times {m : Reader β α} {P : α → Prop}
    (hm : ∀ buf p a q, m buf p = some (a, q) → P a) {n : Nat} {buf : List β} {p q : Nat}
    {as : List α} (h : times m n buf p = some (as, q)) : as.length = n ∧ ∀ a ∈ as, P a := by
  induction n generalizing p q as with
  | zero =>
    obtain ⟨rfl, -⟩ := pure_eq_some.mp h
    exact ⟨rfl, fun a ha => absurd ha List.not_mem_nil⟩
  | succ n ih =>
    obtain ⟨a, p₁, ha, h⟩ := bind_eq_some.mp h
    obtain ⟨as', p₂, has, h⟩ := bind_eq_some.mp h
    obtain ⟨rfl, -⟩ := pure_eq_some.mp h
    obtain ⟨hlen, hall⟩ := ih has
    refine ⟨by rw [List.length_cons, hlen], fun x hx => ?_⟩
    rcases List.mem_cons.mp hx with rfl | hx
    · exact hm _ _ _ _ ha
    · exact hall x hx

/-! ## Reading back -/

/-- Wherever `bs` stands and ends at `e` or before, `m` reads it as `a`. -/
def ReadsWithin (e : Nat) (m : Reader β α) (bs : List β) (a : α) : Prop :=
  ∀ pre post, pre.length + bs.length ≤ e →
    m (pre ++ (bs ++ post)) pre.length = some (a, pre.length + bs.length)

/-- Wherever `bs` stands, `m` reads it as `a`. -/
def Reads (m : Reader β α) (bs : List β) (a : α) : Prop := ∀ e, ReadsWithin e m bs a

theorem ReadsWithin.pure (e : Nat) (a : α) : ReadsWithin e (pure a : Reader β α) [] a :=
  fun _ _ _ => rfl

theorem ReadsWithin.bind {e : Nat} {m : Reader β α} {f : α → Reader β γ} {bs cs : List β} {a : α}
    {c : γ} (hm : ReadsWithin e m bs a) (hf : ReadsWithin e (f a) cs c) :
    ReadsWithin e (m >>= f) (bs ++ cs) c := by
  intro pre post he
  rw [List.length_append] at he
  rw [bind_eq_some]
  refine ⟨a, pre.length + bs.length, ?_, ?_⟩
  · rw [List.append_assoc]
    exact hm pre (cs ++ post) (by omega)
  · have hrest := hf (pre ++ bs) post (by rw [List.length_append]; omega)
    simpa only [List.append_assoc, List.length_append, Nat.add_assoc] using hrest

/-- A row of values, each written by `w`. -/
theorem ReadsWithin.times {e : Nat} {m : Reader β α} {w : α → List β} (as : List α)
    (h : ∀ a ∈ as, ReadsWithin e m (w a) a) :
    ReadsWithin e (times m as.length) (as.flatMap w) as := by
  induction as with
  | nil => exact ReadsWithin.pure e []
  | cons a as ih =>
    have hrest := ih fun b hb => h b (List.mem_cons_of_mem _ hb)
    rw [List.flatMap_cons, ← List.append_nil (as.flatMap w)]
    exact (h a (List.mem_cons_self ..)).bind (hrest.bind (ReadsWithin.pure e _))

theorem Reads.pure (a : α) : Reads (pure a : Reader β α) [] a := fun e => .pure e a

theorem Reads.bind {m : Reader β α} {f : α → Reader β γ} {bs cs : List β} {a : α} {c : γ}
    (hm : Reads m bs a) (hf : Reads (f a) cs c) : Reads (m >>= f) (bs ++ cs) c :=
  fun e => (hm e).bind (hf e)

theorem Reads.times {m : Reader β α} {w : α → List β} (as : List α)
    (h : ∀ a ∈ as, Reads m (w a) a) : Reads (times m as.length) (as.flatMap w) as :=
  fun e => .times as fun a ha => h a ha e

theorem Reads.take {n : Nat} {bs : List β} (h : bs.length = n) : Reads (take n) bs bs := by
  intro e pre post _
  rw [take_eq_some, List.length_append, List.length_append, List.drop_left, h]
  exact ⟨by omega, by rw [← h, List.take_left], rfl⟩

end Reader

end MagiTrickle.Lib
