import MagiTrickle.Core.Basic
import MagiTrickle.Lib.Ring

/-!
# The bounded queue (`util/queue.c`)

A ring buffer under a mutex: every call is one section, so that what the threads
do to a queue is a list of calls. `queue_fifo` is about every such list: the
items leave in the order in which they were accepted, each once, and the counter
knows what was turned away or thrown out. Waiting for an item is left out.
-/

namespace MagiTrickle.Platform

open Lib (Ring)

/-- `mt_queue_policy_t`. -/
inductive Policy where
  | reject
  | dropOldest
  deriving DecidableEq, Repr

/-- `struct mt_queue`. -/
structure Queue (α : Type) (capacity : Nat) where
  ring : Ring α capacity
  dropped : UInt64
  policy : Policy
  closed : Bool

inductive Result (α : Type) where
  | pushed (evicted : Option α)
  | popped (x : α)
  | closed
  | failed (err : Err)
  deriving DecidableEq, Repr

namespace Queue

variable {α : Type} {capacity : Nat}

/-- `mt_queue_create`; `items` is the memory as it is allocated. -/
def create (items : Vector α capacity) (policy : Policy) (h : 0 < capacity) : Queue α capacity :=
  ⟨.empty items h, 0, policy, false⟩

def contents (q : Queue α capacity) : List α := q.ring.contents

/-- `mt_queue_push`. -/
def push (q : Queue α capacity) (x : α) : Queue α capacity × Result α :=
  if q.closed then (q, .failed .closed)
  else if h : q.ring.len = capacity then
    match q.policy with
    | .reject => ({ q with dropped := q.dropped + 1 }, .failed .limit)
    | .dropOldest =>
      ({ q with
          ring := q.ring.advance.append x q.ring.len_advance_lt
          dropped := q.dropped + 1 }, .pushed (some q.ring.first))
  else
    ({ q with ring := q.ring.append x (Nat.lt_of_le_of_ne q.ring.len_le h) }, .pushed none)

/-- `pop_locked`. -/
def tryPop (q : Queue α capacity) : Queue α capacity × Result α :=
  if q.ring.len = 0 then (q, .failed (if q.closed then .closed else .again))
  else ({ q with ring := q.ring.advance }, .popped q.ring.first)

/-- `mt_queue_close`. -/
def close (q : Queue α capacity) : Queue α capacity := { q with closed := true }

/-! ## Calls -/

inductive Call (α : Type) where
  | push (x : α)
  | tryPop
  | close
  deriving DecidableEq, Repr

def call (q : Queue α capacity) : Call α → Queue α capacity × Result α
  | .push x => q.push x
  | .tryPop => q.tryPop
  | .close => (q.close, .closed)

def run (q : Queue α capacity) : List (Call α) → Queue α capacity × List (Call α × Result α)
  | [] => (q, [])
  | c :: cs =>
    let r := q.call c
    let rest := r.1.run cs
    (rest.1, (c, r.2) :: rest.2)

def accepted : Call α × Result α → Option α
  | (.push x, .pushed _) => some x
  | _ => none

def taken : Call α × Result α → Option α
  | (_, .pushed evicted) => evicted
  | (_, .popped x) => some x
  | _ => none

/-- A call that threw an item out, or found no place for its own. -/
def isDrop : Call α × Result α → Bool
  | (_, .pushed (some _)) => true
  | (_, .failed .limit) => true
  | _ => false

end Queue

/-! ## The queue as a list -/

/-- What the queue is for: a list of at most `capacity` items. -/
structure Bounded (α : Type) where
  items : List α
  dropped : UInt64
  policy : Policy
  closed : Bool

namespace Bounded

variable {α : Type}

def push (capacity : Nat) (b : Bounded α) (x : α) : Bounded α × Result α :=
  if b.closed then (b, .failed .closed)
  else if b.items.length = capacity then
    match b.policy, b.items with
    | .dropOldest, y :: ys =>
      ({ b with items := ys ++ [x], dropped := b.dropped + 1 }, .pushed (some y))
    | _, _ => ({ b with dropped := b.dropped + 1 }, .failed .limit)
  else ({ b with items := b.items ++ [x] }, .pushed none)

def tryPop (b : Bounded α) : Bounded α × Result α :=
  match b.items with
  | [] => (b, .failed (if b.closed then .closed else .again))
  | x :: xs => ({ b with items := xs }, .popped x)

def call (capacity : Nat) (b : Bounded α) : Queue.Call α → Bounded α × Result α
  | .push x => b.push capacity x
  | .tryPop => b.tryPop
  | .close => ({ b with closed := true }, .closed)

end Bounded

namespace Queue

variable {α : Type} {capacity : Nat}

def abs (q : Queue α capacity) : Bounded α := ⟨q.contents, q.dropped, q.policy, q.closed⟩

@[simp] theorem abs_closed (q : Queue α capacity) : q.abs.closed = q.closed := rfl

@[simp] theorem abs_policy (q : Queue α capacity) : q.abs.policy = q.policy := rfl

@[simp] theorem length_abs (q : Queue α capacity) : q.abs.items.length = q.ring.len :=
  q.ring.length_contents

theorem push_refines (q : Queue α capacity) (x : α) :
    q.abs.push capacity x = ((q.push x).1.abs, (q.push x).2) := by
  unfold push Bounded.push
  simp only [abs_closed, abs_policy, length_abs]
  by_cases hclosed : q.closed = true
  · simp only [if_pos hclosed]
  · simp only [if_neg hclosed]
    by_cases hfull : q.ring.len = capacity
    · have hpos := q.ring.capacity_pos
      have hitems : q.abs.items = q.ring.first :: q.ring.advance.contents :=
        q.ring.contents_eq_cons (by omega)
      rw [dif_pos hfull, if_pos hfull, hitems]
      cases hpolicy : q.policy with
      | reject =>
        simp only [abs, hpolicy, Prod.mk.injEq, Bounded.mk.injEq, and_self, and_true]
        exact hitems.symm
      | dropOldest => simp [abs, contents, Ring.contents_append, hpolicy]
    · rw [dif_neg hfull, if_neg hfull]
      simp [abs, contents, Ring.contents_append]

theorem tryPop_refines (q : Queue α capacity) :
    q.abs.tryPop = (q.tryPop.1.abs, q.tryPop.2) := by
  unfold tryPop Bounded.tryPop
  by_cases hempty : q.ring.len = 0
  · have hnil : q.abs.items = [] := Ring.contents_eq_nil.mpr hempty
    rw [hnil, if_pos hempty]
    rfl
  · have hcons : q.abs.items = q.ring.first :: q.ring.advance.contents :=
      q.ring.contents_eq_cons hempty
    rw [hcons, if_neg hempty]
    rfl

/-- The ring buffer does what the list does. -/
theorem call_refines (q : Queue α capacity) (c : Call α) :
    q.abs.call capacity c = ((q.call c).1.abs, (q.call c).2) := by
  cases c with
  | push x => exact push_refines q x
  | tryPop => exact tryPop_refines q
  | close => rfl

/-- A push to an open queue that turns away what has no place. -/
theorem push_cases {q : Queue α capacity} (hpolicy : q.policy = .reject)
    (hclosed : q.closed = false) (x : α) :
    (q.contents.length = capacity ∧
        q.push x = ({ q with dropped := q.dropped + 1 }, .failed .limit)) ∨
      ∃ q', q.push x = (q', .pushed none) ∧ q'.contents = q.contents ++ [x] ∧
        q'.policy = .reject ∧ q'.closed = false := by
  unfold push
  rw [if_neg (by simp [hclosed])]
  by_cases hfull : q.ring.len = capacity
  · rw [dif_pos hfull, hpolicy]
    exact .inl ⟨q.ring.length_contents.trans hfull, rfl⟩
  · rw [dif_neg hfull]
    exact .inr ⟨_, rfl, Ring.contents_append .., hpolicy, hclosed⟩

theorem tryPop_cases (q : Queue α capacity) :
    (q.contents = [] ∧ ∃ e, q.tryPop = (q, .failed e)) ∨
      ∃ x q', q.tryPop = (q', .popped x) ∧ q.contents = x :: q'.contents ∧
        q'.policy = q.policy ∧ q'.closed = q.closed := by
  unfold tryPop
  by_cases hempty : q.ring.len = 0
  · rw [if_pos hempty]
    exact .inl ⟨Ring.contents_eq_nil.mpr hempty, _, rfl⟩
  · rw [if_neg hempty]
    exact .inr ⟨_, _, rfl, Ring.contents_eq_cons _ hempty, rfl, rfl⟩

end Queue

/-! ## Calls in every order -/

namespace Bounded

variable {α : Type} {capacity : Nat}

theorem items_call (b : Bounded α) (c : Queue.Call α) :
    b.items ++ (Queue.accepted (c, (b.call capacity c).2)).toList =
      (Queue.taken (c, (b.call capacity c).2)).toList ++ (b.call capacity c).1.items := by
  obtain ⟨items, dropped, policy, closed⟩ := b
  cases c with
  | push x =>
    simp only [call, push]
    cases closed with
    | true => simp [Queue.accepted, Queue.taken]
    | false =>
      by_cases hfull : items.length = capacity
      · cases policy <;> cases items <;> simp_all [Queue.accepted, Queue.taken]
      · simp [hfull, Queue.accepted, Queue.taken]
  | tryPop => cases items <;> simp [call, tryPop, Queue.accepted, Queue.taken]
  | close => simp [call, Queue.accepted, Queue.taken]

theorem rest_call (b : Bounded α) (c : Queue.Call α) :
    (b.call capacity c).1.dropped =
        b.dropped + (if Queue.isDrop (c, (b.call capacity c).2) then 1 else 0) ∧
      (b.call capacity c).1.policy = b.policy ∧
      (b.closed = true → (b.call capacity c).1.closed = true ∧
        Queue.accepted (c, (b.call capacity c).2) = none) ∧
      (b.policy = .reject → ∀ y, (b.call capacity c).2 ≠ .pushed (some y)) := by
  obtain ⟨items, dropped, policy, closed⟩ := b
  cases c with
  | push x =>
    simp only [call, push]
    cases closed with
    | true => simp [Queue.isDrop, Queue.accepted]
    | false =>
      by_cases hfull : items.length = capacity
      · cases policy <;> cases items <;> simp_all [Queue.isDrop]
      · simp [hfull, Queue.isDrop]
  | tryPop => cases items <;> cases closed <;> simp [call, tryPop, Queue.isDrop, Queue.accepted]
  | close => simp [call, Queue.isDrop, Queue.accepted]

end Bounded

namespace Queue

variable {α : Type} {capacity : Nat}

theorem run_append (q : Queue α capacity) (cs cs' : List (Call α)) :
    q.run (cs ++ cs') = (((q.run cs).1.run cs').1, (q.run cs).2 ++ ((q.run cs).1.run cs').2) := by
  induction cs generalizing q with
  | nil => rfl
  | cons c cs ih => simp only [List.cons_append, run, ih]

theorem run_items (q : Queue α capacity) (cs : List (Call α)) :
    q.contents ++ (q.run cs).2.filterMap accepted =
      (q.run cs).2.filterMap taken ++ (q.run cs).1.contents := by
  induction cs generalizing q with
  | nil => simp [run]
  | cons c cs ih =>
    have hstep := @Bounded.items_call α capacity q.abs c
    rw [call_refines] at hstep
    have hstep : q.contents ++ (accepted (c, (q.call c).2)).toList =
        (taken (c, (q.call c).2)).toList ++ (q.call c).1.contents := hstep
    have hcons : ∀ f : Call α × Result α → Option α, (q.run (c :: cs)).2.filterMap f =
        (f (c, (q.call c).2)).toList ++ ((q.call c).1.run cs).2.filterMap f := by
      intro f
      simp only [run, List.filterMap_cons]
      cases f (c, (q.call c).2) <;> rfl
    rw [hcons, hcons, ← List.append_assoc, hstep, List.append_assoc, ih, List.append_assoc]
    rfl

theorem rest_call (q : Queue α capacity) (c : Call α) :
    (q.call c).1.dropped = q.dropped + (if isDrop (c, (q.call c).2) then 1 else 0) ∧
      (q.call c).1.policy = q.policy ∧
      (q.closed = true → (q.call c).1.closed = true ∧ accepted (c, (q.call c).2) = none) ∧
      (q.policy = .reject → ∀ y, (q.call c).2 ≠ .pushed (some y)) := by
  have h := @Bounded.rest_call α capacity q.abs c
  rw [call_refines] at h
  exact h

theorem run_rest (q : Queue α capacity) (cs : List (Call α)) :
    (q.run cs).1.dropped = q.dropped + .ofNat ((q.run cs).2.countP isDrop) ∧
      (q.policy = .reject → ∀ c y, (c, Result.pushed (some y)) ∉ (q.run cs).2) := by
  induction cs generalizing q with
  | nil => simp [run]
  | cons c cs ih =>
    obtain ⟨hdropped, hpolicy, -, hreject⟩ := q.rest_call c
    obtain ⟨ihdropped, ihreject⟩ := ih (q.call c).1
    refine ⟨?_, fun hp c' y hmem => ?_⟩
    · show ((q.call c).1.run cs).1.dropped =
        q.dropped + .ofNat (((c, (q.call c).2) :: ((q.call c).1.run cs).2).countP isDrop)
      rw [ihdropped, hdropped, List.countP_cons]
      cases isDrop (c, (q.call c).2) with
      | false => simp
      | true =>
        simp only [if_true, UInt64.ofNat_add]
        rw [UInt64.add_assoc, UInt64.add_comm 1]
        rfl
    · rcases List.mem_cons.mp hmem with heq | hmem
      · exact hreject hp y (congrArg Prod.snd heq).symm
      · exact ihreject (hpolicy.trans hp) c' y hmem

theorem run_closed (q : Queue α capacity) (h : q.closed = true) (cs : List (Call α)) :
    (q.run cs).2.filterMap accepted = [] := by
  induction cs generalizing q with
  | nil => rfl
  | cons c cs ih =>
    obtain ⟨hclosed, hnone⟩ := (q.rest_call c).2.2.1 h
    show ((c, (q.call c).2) :: ((q.call c).1.run cs).2).filterMap accepted = []
    rw [List.filterMap_cons, hnone]
    exact ih (q.call c).1 hclosed

/-- In whatever order the threads make their calls: the items that were accepted left in that order
or are still there, the counter has those that were turned away or thrown out, only the other policy
throws out, and after `close` nothing is accepted. -/
theorem queue_fifo (items : Vector α capacity) (policy : Policy) (h : 0 < capacity)
    (cs : List (Call α)) :
    ((create items policy h).run cs).2.filterMap accepted =
        ((create items policy h).run cs).2.filterMap taken ++
          ((create items policy h).run cs).1.contents ∧
      ((create items policy h).run cs).1.contents.length ≤ capacity ∧
      ((create items policy h).run cs).1.dropped =
        .ofNat (((create items policy h).run cs).2.countP isDrop) ∧
      (policy = .reject →
        ∀ c y, (c, Result.pushed (some y)) ∉ ((create items policy h).run cs).2) ∧
      ∀ cs', ((create items policy h).run (cs ++ .close :: cs')).2.filterMap accepted =
        ((create items policy h).run cs).2.filterMap accepted := by
  generalize hq : create items policy h = q
  have hempty : q.contents = [] := by
    rw [← hq]
    rfl
  have hitems := q.run_items cs
  obtain ⟨hdropped, hreject⟩ := q.run_rest cs
  rw [hempty, List.nil_append] at hitems
  refine ⟨hitems, ?_, ?_, fun hp => hreject ?_, fun cs' => ?_⟩
  · exact (Ring.length_contents _).trans_le (q.run cs).1.ring.len_le
  · rw [hdropped, ← hq]
    exact UInt64.zero_add _
  · rw [← hq]
    exact hp
  · rw [run_append, List.filterMap_append]
    have hclosed := ((q.run cs).1.close).run_closed rfl cs'
    show _ ++ ((Call.close, Result.closed) :: ((q.run cs).1.close.run cs').2).filterMap accepted = _
    rw [List.filterMap_cons, hclosed]
    exact List.append_nil _

def threeInTwo (policy : Policy) : Queue Nat 2 × List (Call Nat × Result Nat) :=
  (create #v[0, 0] policy (by decide)).run [.push 1, .push 2, .push 3, .tryPop]

theorem queue_fifo_threeInTwo :
    (threeInTwo .dropOldest).2.filterMap accepted =
        (threeInTwo .dropOldest).2.filterMap taken ++ (threeInTwo .dropOldest).1.contents ∧
      (threeInTwo .dropOldest).1.contents = [3] ∧ (threeInTwo .reject).1.contents = [2] :=
  ⟨(queue_fifo #v[0, 0] .dropOldest (by decide) _).1, by decide, by decide⟩

end Queue

end MagiTrickle.Platform
