import MagiTrickle.Core.Basic

/-!
# The cancellation token (`util/cancel.c`)

A flag and a pipe that a thread in `poll` can watch. Raising and clearing change
first the flag and then the pipe, each under one mutex; anyone may look at the
flag or the pipe in between. `token_run` says what can be seen in every order of
the steps.
-/

namespace MagiTrickle.Platform

inductive Section where
  | raising
  | clearing
  deriving DecidableEq, Repr

/-- `struct mt_cancel`, with the bytes in the pipe. -/
structure Token where
  raised : Bool
  bytes : Nat
  holder : Option Section
  deriving DecidableEq, Repr

namespace Token

/-- `mt_cancel_new`. -/
def new : Token := ⟨false, 0, none⟩

inductive Step where
  /-- `mt_cancel_raise`, up to the flag. -/
  | raise
  /-- `write`, interrupted or not, in a pipe that holds `cap` bytes. -/
  | write (eintr : Bool)
  /-- `mt_cancel_clear`, up to the flag. -/
  | clear
  /-- `read` of at most eight bytes. -/
  | read (eintr : Bool)
  deriving DecidableEq, Repr

def step (cap : Nat) (t : Token) : Step → Token
  | .raise =>
    if t.holder.isSome || t.raised then t else { t with raised := true, holder := some .raising }
  | .write eintr =>
    if t.holder ≠ some .raising || eintr then t
    else { t with bytes := if t.bytes < cap then t.bytes + 1 else t.bytes, holder := none }
  | .clear => if t.holder.isSome then t else { t with raised := false, holder := some .clearing }
  | .read eintr =>
    if t.holder ≠ some .clearing || eintr then t
    else if t.bytes = 0 then { t with holder := none }
    else { t with bytes := t.bytes - 8 }

def Ok (t : Token) : Prop :=
  match t.holder with
  | none => t.bytes = if t.raised then 1 else 0
  | some .raising => t.raised = true ∧ t.bytes = 0
  | some .clearing => t.raised = false ∧ t.bytes ≤ 1

theorem ok_new : new.Ok := rfl

theorem Ok.step {cap : Nat} (hcap : 0 < cap) {t : Token} (h : t.Ok) (s : Step) :
    (t.step cap s).Ok := by
  obtain ⟨raised, bytes, holder⟩ := t
  cases s with
  | raise =>
    rcases holder with _ | _ | _
    · cases raised
      · exact ⟨rfl, h⟩
      · exact h
    · exact h
    · exact h
  | write eintr =>
    rcases holder with _ | _ | _
    · exact h
    · obtain ⟨rfl, rfl⟩ : raised = true ∧ bytes = 0 := h
      cases eintr
      · simp [Token.step, Ok, hcap]
      · exact ⟨rfl, rfl⟩
    · exact h
  | clear =>
    rcases holder with _ | _ | _
    · have hb : bytes ≤ 1 := by
        have : bytes = if raised then 1 else 0 := h
        split at this <;> omega
      exact ⟨rfl, hb⟩
    · exact h
    · exact h
  | read eintr =>
    rcases holder with _ | _ | _
    · exact h
    · exact h
    · obtain ⟨rfl, hb⟩ : raised = false ∧ bytes ≤ 1 := h
      cases eintr
      · by_cases h0 : bytes = 0
        · subst h0
          rfl
        · simp only [Token.step, Ok, h0]
          simp
          omega
      · exact ⟨rfl, hb⟩

theorem Ok.run {cap : Nat} (hcap : 0 < cap) (steps : List Step) :
    ∀ {t : Token}, t.Ok → (steps.foldl (Token.step cap) t).Ok := by
  induction steps with
  | nil => exact id
  | cons s steps ih => exact fun h => ih (h.step hcap s)

theorem Ok.bytes_le {t : Token} (h : t.Ok) : t.bytes ≤ 1 := by
  obtain ⟨raised, bytes, _ | _ | _⟩ := t
  · have : bytes = if raised then 1 else 0 := h
    show bytes ≤ 1
    split at this <;> omega
  · have : bytes = 0 := h.2
    show bytes ≤ 1
    omega
  · exact h.2

theorem Ok.settled {t : Token} (h : t.Ok) (hfree : t.holder = none) :
    0 < t.bytes ↔ t.raised = true := by
  obtain ⟨raised, bytes, holder⟩ := t
  subst hfree
  have hb : bytes = if raised then 1 else 0 := h
  subst hb
  cases raised <;> simp

/-- A raised token without its byte is being raised just now. -/
theorem Ok.raising {t : Token} (h : t.Ok) (hr : t.raised = true) (hb : t.bytes = 0) :
    t.holder = some .raising := by
  obtain ⟨raised, bytes, _ | _ | _⟩ := t
  · have h1 : bytes = if raised then 1 else 0 := h
    subst hr hb
    exact absurd h1 (by decide)
  · rfl
  · exact absurd (hr.symm.trans h.1) (by decide)

/-- In every order of the steps of all threads: there is at most one byte in the pipe; where no
thread is between the flag and the pipe it is there exactly while the token is raised; and a token
that is raised without it has a thread about to write it. -/
theorem token_run (cap : Nat) (hcap : 0 < cap) (steps : List Step) :
    (steps.foldl (step cap) new).bytes ≤ 1 ∧
      ((steps.foldl (step cap) new).holder = none →
        (0 < (steps.foldl (step cap) new).bytes ↔
          (steps.foldl (step cap) new).raised = true)) ∧
      ((steps.foldl (step cap) new).raised = true → (steps.foldl (step cap) new).bytes = 0 →
        (steps.foldl (step cap) new).holder = some .raising ∧
          0 < ((steps.foldl (step cap) new).step cap (.write false)).bytes) := by
  have h : (steps.foldl (step cap) new).Ok := ok_new.run hcap steps
  generalize steps.foldl (step cap) new = t at h ⊢
  refine ⟨h.bytes_le, h.settled, fun hr hb => ?_⟩
  have hh := h.raising hr hb
  exact ⟨hh, by simp [step, hh, hb, hcap]⟩

/-- A clear comes between the flag and the byte of a raise, and waits. -/
theorem token_run_clearWaits :
    ([Step.raise, .clear, .write false, .clear, .read false].foldl (step 4096) new).bytes ≤ 1 ∧
      ([Step.raise, .clear, .write false].foldl (step 4096) new).bytes = 1 :=
  ⟨(token_run 4096 (by decide) _).1, rfl⟩

end Token

end MagiTrickle.Platform
