import MagiTrickle.Netfilter.Committer

/-!
# The committer loses no request

A request that no later pass has served is owed (`Owed`): the pending flag is
set, or a pass that started after it is not finished, or the thread ends. A pass
that failed is followed by another one: the thread is on its way to it
(`Restarting`) and every step forward brings it nearer.
-/

namespace MagiTrickle.Netfilter.Committer

theorem run_cons {c c' : Nfcommit} {e : Ev} {evs : List Ev} :
    run c (e :: evs) = some c' ↔ ∃ c₁, step c e = some c₁ ∧ run c₁ evs = some c' := by
  unfold run
  rw [List.foldlM_cons]
  exact Option.bind_eq_some_iff

theorem run_append {c c' : Nfcommit} {evs evs' : List Ev} :
    run c (evs ++ evs') = some c' ↔ ∃ c₁, run c evs = some c₁ ∧ run c₁ evs' = some c' := by
  unfold run
  rw [List.foldlM_append]
  exact Option.bind_eq_some_iff

/-! ## The thread and its wait -/

/-- The thread is there while it is said to be, and a request finds it on its way. -/
structure Inv (c : Nfcommit) : Prop where
  thread : c.started = false → c.worker = .absent
  /-- No wakeup is lost. -/
  signal : c.worker = .waiting → c.pending = true ∨ c.stopping = true → c.signaled = true

theorem inv_new (delayMs maxDelayMs : UInt32) : Inv (new delayMs maxDelayMs) where
  thread := fun _ => rfl
  signal := fun h => nomatch h

theorem await_frame (c : Nfcommit) : (await c).passes = c.passes ∧ (await c).pending = c.pending ∧
    (await c).stopping = c.stopping := by
  unfold await
  split
  · exact ⟨rfl, rfl, rfl⟩
  · split <;> exact ⟨rfl, rfl, rfl⟩

theorem Inv.of_started {c : Nfcommit} (hs : c.started = true) (hw : c.worker ≠ .waiting) :
    Inv c where
  thread := fun h => by
    rw [hs] at h
    cases h
  signal := fun h => absurd h hw

theorem Inv.await {c : Nfcommit} (hs : c.started = true) : Inv (await c) := by
  unfold Committer.await
  split
  · exact .of_started hs (by simp)
  · next hstop =>
    split
    · exact .of_started hs (by simp)
    · next hpend =>
      refine ⟨fun h => ?_, fun _ h => absurd h (not_or.mpr ⟨hpend, hstop⟩)⟩
      rw [show c.started = false from h] at hs
      cases hs

theorem Inv.signaled {c : Nfcommit} (h : c.started = false → c.worker = .absent) :
    Inv (Committer.signal c) := by
  unfold Committer.signal
  split
  · exact ⟨h, fun _ _ => rfl⟩
  · next hw => exact ⟨h, fun hw' => absurd hw' hw⟩

theorem Inv.started_of_worker {c : Nfcommit} (h : Inv c) (hw : c.worker ≠ .absent) :
    c.started = true := by
  cases hs : c.started with
  | true => rfl
  | false => exact absurd (h.thread hs) hw

theorem Inv.work {c c' : Nfcommit} (h : Inv c) (hc : work c = some c') : Inv c' := by
  unfold Committer.work at hc
  have hs := h.started_of_worker
  split at hc
  · next hw =>
    cases hc
    exact .await (hs (by simp [hw]))
  · next hw =>
    cases hc
    refine .of_started (hs (by simp [hw])) ?_
    show (if c.stopping then Worker.exited else .settling) ≠ _
    split <;> simp
  · next hw =>
    cases hc
    split
    · exact .of_started (hs (by simp [hw])) (by simp)
    · exact .of_started (hs (by simp [hw])) (by simp)
  · next hw =>
    cases hc
    exact .of_started (hs (by simp [hw])) (by simp)
  · next err hw =>
    cases hc
    unfold finish
    split
    · exact .of_started (hs (by simp [hw])) (by simp)
    · refine .of_started (hs (by simp [hw])) ?_
      show (if err = none then Worker.top else .rearm) ≠ _
      split <;> simp
  · next hw =>
    cases hc
    exact .of_started (hs (by simp [hw])) (by simp)
  all_goals cases hc

theorem Inv.wake {c c' : Nfcommit} (h : Inv c) {timedOut : Bool} (hc : wake c timedOut = some c') :
    Inv c' := by
  unfold Committer.wake at hc
  split at hc
  · next hw =>
    cases hc
    exact .await (h.started_of_worker (by simp [hw]))
  · next hw =>
    cases hc
    refine .of_started (h.started_of_worker (by simp [hw])) ?_
    show (if c.stopping then Worker.exited else if timedOut then .begin else .settling) ≠ _
    split
    · simp
    · split <;> simp
  · cases hc

theorem Inv.step {c c' : Nfcommit} (h : Inv c) {e : Ev} (hc : step c e = some c') : Inv c' := by
  cases e with
  | start =>
    cases hc
    split
    · exact h
    · exact .of_started rfl (by simp)
  | request =>
    cases hc
    exact .signaled h.thread
  | interrupt =>
    cases hc
    exact ⟨h.thread, h.signal⟩
  | stop =>
    cases hc
    show Inv (stop c)
    unfold stop
    split
    · exact h
    · exact .signaled h.thread
  | raise =>
    simp only [Committer.step] at hc
    split at hc
    · cases hc
      exact ⟨h.thread, h.signal⟩
    · cases hc
  | join =>
    simp only [Committer.step] at hc
    split at hc
    · cases hc
      exact ⟨fun _ => rfl, fun hw => nomatch hw⟩
    · cases hc
  | work => exact h.work hc
  | wake timedOut => exact h.wake hc
  | returned err =>
    simp only [Committer.step] at hc
    split at hc
    · next hw =>
      cases hc
      exact .of_started (h.started_of_worker (by simp [hw])) (by simp)
    · cases hc

theorem Inv.run {c c' : Nfcommit} (h : Inv c) {evs : List Ev} (hc : run c evs = some c') :
    Inv c' := by
  induction evs generalizing c with
  | nil =>
    cases hc
    exact h
  | cons e evs ih =>
    obtain ⟨c₁, h₁, h₂⟩ := run_cons.mp hc
    exact ih (h.step h₁) h₂

/-! ## What a step can do -/

def Forward : Ev → Bool
  | .work => true
  | .wake timedOut => timedOut
  | _ => false

/-- A step beside the thread: it stands where it stood, and nothing owed is forgotten. -/
structure Beside (c c' : Nfcommit) : Prop where
  worker : c'.worker = c.worker
  passes : c'.passes = c.passes
  pending : c.pending = true → c'.pending = true
  stopping : c.stopping = true → c'.stopping = true

theorem beside_signal {c c' : Nfcommit} (h : Beside c c') : Beside c (signal c') := by
  unfold signal
  split
  · exact ⟨h.worker, h.passes, h.pending, h.stopping⟩
  · exact h

/-- Callers take steps beside the thread, apart from those that create and join it. -/
theorem step_cases {c c' : Nfcommit} {e : Ev} (h : Inv c) (hc : step c e = some c') :
    Forward e = false ∧ Beside c c' ∨
    (c.worker = .absent ∨ c.worker = .exited) ∧ c'.passes = c.passes ∧ c'.pending = c.pending ∧
      c'.stopping = c.stopping ∧ (c'.worker = .top ∨ c'.worker = .absent) ∨
    e = .work ∧ work c = some c' ∨
    (∃ timedOut, e = .wake timedOut ∧ wake c timedOut = some c') ∨
    ∃ err, e = .returned err ∧ c.worker = .rebuild ∧ c' = { c with worker := .finish err } := by
  cases e with
  | start =>
    cases hc
    split
    · exact .inl ⟨rfl, rfl, rfl, id, id⟩
    · next hs =>
      have := h.thread (Bool.not_eq_true _ ▸ hs)
      exact .inr (.inl ⟨.inl this, rfl, rfl, rfl, .inl rfl⟩)
  | request =>
    cases hc
    exact .inl ⟨rfl, beside_signal ⟨rfl, rfl, fun _ => rfl, id⟩⟩
  | interrupt =>
    cases hc
    exact .inl ⟨rfl, rfl, rfl, id, id⟩
  | stop =>
    cases hc
    show Forward .stop = false ∧ Beside c (stop c) ∨ _
    unfold stop
    split
    · exact .inl ⟨rfl, rfl, rfl, id, id⟩
    · exact .inl ⟨rfl, beside_signal ⟨rfl, rfl, id, fun _ => rfl⟩⟩
  | raise =>
    simp only [step] at hc
    split at hc
    · cases hc
      exact .inl ⟨rfl, rfl, rfl, id, id⟩
    · cases hc
  | join =>
    simp only [step] at hc
    split at hc
    · next hw =>
      cases hc
      exact .inr (.inl ⟨.inr hw, rfl, rfl, rfl, .inr rfl⟩)
    · cases hc
  | work => exact .inr (.inr (.inl ⟨rfl, hc⟩))
  | wake timedOut => exact .inr (.inr (.inr (.inl ⟨timedOut, rfl, hc⟩)))
  | returned err =>
    simp only [step] at hc
    split at hc
    · next hw =>
      cases hc
      exact .inr (.inr (.inr (.inr ⟨err, rfl, hw, rfl⟩)))
    · cases hc

/-- Passes are counted up, and the end of the thread is not taken back. -/
structure Later (c c' : Nfcommit) : Prop where
  passes : c.passes ≤ c'.passes
  stopping : c.stopping = true → c'.stopping = true

theorem later_await (c : Nfcommit) : Later c (await c) := by
  obtain ⟨hp, -, hs⟩ := await_frame c
  exact ⟨Nat.le_of_eq hp.symm, hs.trans⟩

theorem later_work {c c' : Nfcommit} (hc : work c = some c') : Later c c' := by
  unfold work at hc
  split at hc
  · cases hc
    exact later_await c
  · cases hc
    exact ⟨Nat.le_refl _, id⟩
  · cases hc
    split
    · exact ⟨Nat.le_refl _, id⟩
    · exact ⟨Nat.le_succ _, id⟩
  · cases hc
    exact ⟨Nat.le_refl _, id⟩
  · cases hc
    unfold finish
    split <;> exact ⟨Nat.le_refl _, id⟩
  · cases hc
    exact ⟨Nat.le_refl _, id⟩
  all_goals cases hc

theorem later_wake {c c' : Nfcommit} {timedOut : Bool} (hc : wake c timedOut = some c') :
    Later c c' := by
  unfold wake at hc
  split at hc
  · cases hc
    exact later_await c
  · cases hc
    exact ⟨Nat.le_refl _, id⟩
  · cases hc

theorem later_step {c c' : Nfcommit} {e : Ev} (hi : Inv c) (hc : step c e = some c') :
    Later c c' := by
  rcases step_cases hi hc with ⟨-, hb⟩ | ⟨-, hp, -, hs, -⟩ | ⟨-, hc⟩ | ⟨_, -, hc⟩ | ⟨_, -, -, rfl⟩
  · exact ⟨Nat.le_of_eq hb.passes.symm, hb.stopping⟩
  · exact ⟨Nat.le_of_eq hp.symm, hs.trans⟩
  · exact later_work hc
  · exact later_wake hc
  · exact ⟨Nat.le_refl _, id⟩

/-! ## Requests -/

/-- A pass is under way, or has ended unsuccessfully and will be owed again. -/
def Worker.Unfinished : Worker → Prop
  | .clear | .rebuild | .rearm | .finish (some _) => True
  | _ => False

/-- What stands for a request made when `p` passes had started: the pending flag, a pass that
started since then, or the end of the thread. -/
def Owed (p : Nat) (c : Nfcommit) : Prop :=
  c.pending = true ∨ (p < c.passes ∧ c.worker.Unfinished) ∨ c.stopping = true

/-- A pass that started after the first `p` ones returns `MT_OK` in the course of the events. -/
def Served (p : Nat) (c : Nfcommit) (evs : List Ev) : Prop :=
  ∃ pre post c₁, evs = pre ++ .returned none :: post ∧ run c pre = some c₁ ∧ p < c₁.passes

theorem Owed.beside {p : Nat} {c c' : Nfcommit} (h : Owed p c) (hb : Beside c c') : Owed p c' := by
  rcases h with hp | ⟨hlt, hw⟩ | hs
  · exact .inl (hb.pending hp)
  · exact .inr (.inl ⟨hb.passes.symm ▸ hlt, hb.worker.symm ▸ hw⟩)
  · exact .inr (.inr (hb.stopping hs))

theorem Owed.of_not_unfinished {p : Nat} {c : Nfcommit} (h : Owed p c)
    (hw : ¬ c.worker.Unfinished) : c.pending = true ∨ c.stopping = true := by
  rcases h with hp | ⟨-, hu⟩ | hs
  · exact .inl hp
  · exact absurd hu hw
  · exact .inr hs

theorem Owed.of_flags {p : Nat} {c : Nfcommit} (h : c.pending = true ∨ c.stopping = true) :
    Owed p c := by
  rcases h with hp | hs
  · exact .inl hp
  · exact .inr (.inr hs)

theorem Owed.await {p : Nat} {c : Nfcommit} (h : c.pending = true ∨ c.stopping = true) :
    Owed p (await c) := by
  obtain ⟨-, hp, hs⟩ := await_frame c
  refine .of_flags ?_
  rw [hp, hs]
  exact h

theorem Owed.work {p : Nat} {c c' : Nfcommit} (h : Owed p c) (hle : p ≤ c.passes)
    (hc : work c = some c') : Owed p c' := by
  unfold Committer.work at hc
  split at hc
  · next hw =>
    cases hc
    exact .await (h.of_not_unfinished (by simp [hw, Worker.Unfinished]))
  · next hw =>
    cases hc
    exact .of_flags (h.of_not_unfinished (by simp [hw, Worker.Unfinished]))
  · next hw =>
    cases hc
    split
    · next hs => exact .inr (.inr hs)
    · exact .inr (.inl ⟨Nat.lt_succ_of_le hle, trivial⟩)
  · next hw =>
    cases hc
    rcases h with hp | ⟨hlt, -⟩ | hs
    · exact .inl hp
    · exact .inr (.inl ⟨hlt, trivial⟩)
    · exact .inr (.inr hs)
  · next err hw =>
    cases hc
    unfold finish
    split
    · next hs => exact .inr (.inr hs)
    · rcases h with hp | ⟨hlt, hu⟩ | hs
      · exact .inl hp
      · cases err with
        | none => simp [hw, Worker.Unfinished] at hu
        | some err => exact .inr (.inl ⟨hlt, trivial⟩)
      · exact .inr (.inr hs)
  · cases hc
    exact .inl rfl
  all_goals cases hc

theorem Owed.wake {p : Nat} {c c' : Nfcommit} (h : Owed p c) {timedOut : Bool}
    (hc : wake c timedOut = some c') : Owed p c' := by
  unfold Committer.wake at hc
  split at hc
  · next hw =>
    cases hc
    exact .await (h.of_not_unfinished (by simp [hw, Worker.Unfinished]))
  · next hw =>
    cases hc
    exact .of_flags (h.of_not_unfinished (by simp [hw, Worker.Unfinished]))
  · cases hc

/-- **A step forgets no request**, unless a pass that started after it returns `MT_OK`. -/
theorem Owed.step {p : Nat} {c c' : Nfcommit} {e : Ev} (hi : Inv c) (h : Owed p c)
    (hle : p ≤ c.passes) (hc : step c e = some c') (hno : e = .returned none → c.passes ≤ p) :
    Owed p c' := by
  rcases step_cases hi hc with ⟨hf, hb⟩ | ⟨hw, -, hp, hs, -⟩ | ⟨-, hc⟩ | ⟨_, -, hc⟩ | ⟨err, he, hw, rfl⟩
  · exact h.beside hb
  · have hu : ¬ c.worker.Unfinished := by
      rcases hw with hw | hw <;> simp [hw, Worker.Unfinished]
    refine .of_flags ?_
    rw [hp, hs]
    exact h.of_not_unfinished hu
  · exact h.work hle hc
  · exact h.wake hc
  · rcases h with hp | ⟨hlt, -⟩ | hs
    · exact .inl hp
    · cases err with
      | none => exact absurd (hno he) (by omega)
      | some err => exact .inr (.inl ⟨hlt, trivial⟩)
    · exact .inr (.inr hs)

/-- **Nor does a run.** -/
theorem Owed.run {p : Nat} {c c' : Nfcommit} {evs : List Ev} (hi : Inv c) (h : Owed p c)
    (hle : p ≤ c.passes) (hc : run c evs = some c') (hno : ¬ Served p c evs) : Owed p c' := by
  induction evs generalizing c with
  | nil =>
    cases hc
    exact h
  | cons e evs ih =>
    obtain ⟨c₁, h₁, h₂⟩ := run_cons.mp hc
    have hstep := h.step hi hle h₁ fun he => by
      by_contra hlt
      exact hno ⟨[], evs, c, by rw [he]; rfl, rfl, by omega⟩
    refine ih (hi.step h₁) hstep (Nat.le_trans hle (later_step hi h₁).passes) h₂ ?_
    rintro ⟨pre, post, c₂, rfl, hpre, hlt⟩
    exact hno ⟨e :: pre, post, c₂, rfl, run_cons.mpr ⟨c₁, h₁, hpre⟩, hlt⟩

/-! ## Passes that fail -/

/-- The sections and waits of the thread from the end of a failed pass to the next pass. -/
def Worker.toGo : Worker → Nat
  | .finish (some _) => 6
  | .rearm => 5
  | .top => 4
  | .settle => 3
  | .settling => 2
  | .begin => 1
  | _ => 0

/-- The thread is on its way to the next pass, and does not stop for a request. -/
structure Restarting (c : Nfcommit) : Prop where
  way : 0 < c.worker.toGo
  pending : c.worker = .top → c.pending = true

theorem Restarting.enabled {c : Nfcommit} (h : Restarting c) :
    ∃ e, Forward e = true ∧ (step c e).isSome = true := by
  have hway := h.way
  cases hw : c.worker with
  | top => exact ⟨.work, rfl, by simp [step, work, hw]⟩
  | settle => exact ⟨.work, rfl, by simp [step, work, hw]⟩
  | settling => exact ⟨.wake true, rfl, by simp [step, wake, hw]⟩
  | begin => exact ⟨.work, rfl, by simp [step, work, hw]⟩
  | rearm => exact ⟨.work, rfl, by simp [step, work, hw]⟩
  | finish err => exact ⟨.work, rfl, by simp [step, work, hw]⟩
  | _ => simp [hw, Worker.toGo] at hway

/-- A section brings the thread to the next pass or nearer to it. -/
theorem Restarting.work {c c' : Nfcommit} (h : Restarting c) (hc : work c = some c') :
    c'.stopping = true ∨ c.passes < c'.passes ∨
      Restarting c' ∧ c'.worker.toGo < c.worker.toGo := by
  have hway := h.way
  unfold Committer.work at hc
  split at hc
  · next hw =>
    cases hc
    unfold await
    rw [if_pos (h.pending hw), hw]
    split
    · next hs => exact .inl hs
    · exact .inr (.inr ⟨⟨Nat.succ_pos _, fun h => nomatch h⟩, Nat.lt_succ_self _⟩)
  · next hw =>
    cases hc
    rw [hw]
    dsimp only
    split
    · next hs => exact .inl hs
    · exact .inr (.inr ⟨⟨Nat.succ_pos _, fun h => nomatch h⟩, Nat.lt_succ_self _⟩)
  · next hw =>
    cases hc
    split
    · next hs => exact .inl hs
    · exact .inr (.inl (Nat.lt_succ_self _))
  · next hw => simp [hw, Worker.toGo] at hway
  · next err hw =>
    cases hc
    unfold finish
    split
    · next hs => exact .inl hs
    · cases err with
      | none => simp [hw, Worker.toGo] at hway
      | some err =>
        rw [hw]
        exact .inr (.inr ⟨⟨Nat.succ_pos _, fun h => nomatch h⟩, Nat.lt_succ_self _⟩)
  · next hw =>
    cases hc
    rw [hw]
    exact .inr (.inr ⟨⟨Nat.succ_pos _, fun _ => rfl⟩, Nat.lt_succ_self _⟩)
  all_goals cases hc

theorem Restarting.wake {c c' : Nfcommit} (h : Restarting c) {timedOut : Bool}
    (hc : wake c timedOut = some c') :
    c'.stopping = true ∨
      Restarting c' ∧ c'.worker.toGo + (if timedOut then 1 else 0) ≤ c.worker.toGo := by
  have hway := h.way
  unfold Committer.wake at hc
  split at hc
  · next hw => simp [hw, Worker.toGo] at hway
  · next hw =>
    cases hc
    rw [hw]
    dsimp only
    split
    · next hs => exact .inl hs
    · cases timedOut with
      | true => exact .inr ⟨⟨Nat.succ_pos _, fun h => nomatch h⟩, Nat.le_refl _⟩
      | false => exact .inr ⟨⟨Nat.succ_pos _, fun h => nomatch h⟩, Nat.le_refl _⟩
  · cases hc

/-- **A step** keeps the thread on its way, and nearer to the next pass where it is a step
forward. -/
theorem Restarting.step {c c' : Nfcommit} {e : Ev} (hi : Inv c) (h : Restarting c)
    (hc : step c e = some c') :
    c'.stopping = true ∨ c.passes < c'.passes ∨
      Restarting c' ∧ c'.worker.toGo + (if Forward e then 1 else 0) ≤ c.worker.toGo := by
  rcases step_cases hi hc with ⟨hf, hb⟩ | ⟨hw, -⟩ | ⟨rfl, hc⟩ | ⟨timedOut, rfl, hc⟩ | ⟨err, rfl, hw, rfl⟩
  · rw [hf, hb.worker]
    refine .inr (.inr ⟨⟨hb.worker.symm ▸ h.way, fun hw => ?_⟩, Nat.le_refl _⟩)
    exact hb.pending (h.pending (hb.worker ▸ hw))
  · have hway := h.way
    rcases hw with hw | hw <;> simp [hw, Worker.toGo] at hway
  · exact h.work hc
  · rcases h.wake hc with hs | hr
    · exact .inl hs
    · exact .inr (.inr hr)
  · have hway := h.way
    simp [hw, Worker.toGo] at hway

/-- What holds from a failed pass on: the thread ends, or the next pass has started, or `n` steps
forward have brought the thread so far. -/
def Followed (p n : Nat) (c : Nfcommit) : Prop :=
  c.stopping = true ∨ p < c.passes ∨ p = c.passes ∧ Restarting c ∧ n + c.worker.toGo ≤ 6

theorem Followed.step {p n : Nat} {c c' : Nfcommit} {e : Ev} (hi : Inv c) (h : Followed p n c)
    (hc : step c e = some c') : Followed p (n + if Forward e then 1 else 0) c' := by
  have hle := (later_step hi hc).passes
  rcases h with hs | hlt | ⟨rfl, hr, hn⟩
  · exact .inl ((later_step hi hc).stopping hs)
  · exact .inr (.inl (by omega))
  · rcases hr.step hi hc with hs | hlt | ⟨hr', hgo⟩
    · exact .inl hs
    · exact .inr (.inl hlt)
    · rcases Nat.lt_or_eq_of_le hle with hlt | heq
      · exact .inr (.inl hlt)
      · exact .inr (.inr ⟨heq, hr', by omega⟩)

theorem Followed.run {p n : Nat} {c c' : Nfcommit} {evs : List Ev} (hi : Inv c)
    (h : Followed p n c) (hc : run c evs = some c') :
    Followed p (n + (evs.filter Forward).length) c' := by
  induction evs generalizing c n with
  | nil =>
    cases hc
    exact h
  | cons e evs ih =>
    obtain ⟨c₁, h₁, h₂⟩ := run_cons.mp hc
    have hrest := ih (hi.step h₁) (h.step hi h₁) h₂
    rw [List.filter_cons]
    split
    · next hf =>
      rw [if_pos hf, Nat.add_right_comm, Nat.add_assoc] at hrest
      exact hrest
    · next hf =>
      rw [if_neg hf] at hrest
      exact hrest

/-- **No request is lost.** In every run a request that is not served is owed, and after a pass that
failed the thread ends, or starts another pass, or is on its way to it, not blocked and at most
six steps forward away. -/
theorem run_owed (delayMs maxDelayMs : UInt32) (evs : List Ev) (c : Nfcommit)
    (h : run (new delayMs maxDelayMs) evs = some c) :
    (∀ pre post c₁, evs = pre ++ .request :: post → run (new delayMs maxDelayMs) pre = some c₁ →
      ¬ Served c₁.passes (request c₁) post → Owed c₁.passes c) ∧
    ∀ pre err post c₁, evs = pre ++ .returned (some err) :: post →
      run (new delayMs maxDelayMs) pre = some c₁ →
      c.stopping = true ∨ c₁.passes < c.passes ∨
        Restarting c ∧ (∃ e, Forward e = true ∧ (step c e).isSome = true) ∧
          (post.filter Forward).length + c.worker.toGo ≤ 6 := by
  have hnew := inv_new delayMs maxDelayMs
  refine ⟨fun pre post c₁ he hpre hno => ?_, fun pre err post c₁ he hpre => ?_⟩
  · subst he
    obtain ⟨c₂, hc₂, hrest⟩ := run_append.mp h
    obtain rfl : c₁ = c₂ := Option.some_inj.mp (hpre.symm.trans hc₂)
    obtain ⟨c₃, hreq, hpost⟩ := run_cons.mp hrest
    obtain rfl : request c₁ = c₃ := Option.some_inj.mp hreq
    have hb : Beside { c₁ with pending := true } (request c₁) :=
      beside_signal ⟨rfl, rfl, fun _ => rfl, id⟩
    have hi := hnew.run hpre
    refine Owed.run (hi.step hreq) (.inl (hb.pending rfl)) (Nat.le_of_eq hb.passes.symm) hpost hno
  · subst he
    obtain ⟨c₂, hc₂, hrest⟩ := run_append.mp h
    obtain rfl : c₁ = c₂ := Option.some_inj.mp (hpre.symm.trans hc₂)
    obtain ⟨c₃, hret, hpost⟩ := run_cons.mp hrest
    have hi := hnew.run hpre
    have hstart : Followed c₁.passes 0 c₃ := by
      simp only [step] at hret
      split at hret
      · cases hret
        exact .inr (.inr ⟨rfl, ⟨Nat.succ_pos _, fun h => nomatch h⟩, Nat.le_refl _⟩)
      · cases hret
    rcases hstart.run (hi.step hret) hpost with hs | hlt | ⟨-, hr, hn⟩
    · exact .inl hs
    · exact .inr (.inl hlt)
    · exact .inr (.inr ⟨hr, hr.enabled, by omega⟩)

def abortedPass : List Ev :=
  [.start, .work, .request, .wake false, .work, .wake true, .work, .work, .request, .raise,
    .returned (some .canceled), .work]

/-- The second request is owed, and the thread is on its way to the next pass. -/
theorem run_owed_aborted :
    (run (new defaultDelayMs defaultMaxDelayMs) abortedPass).isSome = true ∧
    ∀ c, run (new defaultDelayMs defaultMaxDelayMs) abortedPass = some c →
      Owed 1 c ∧ (c.stopping = true ∨ 1 < c.passes ∨
        Restarting c ∧ (∃ e, Forward e = true ∧ (step c e).isSome = true) ∧
          1 + c.worker.toGo ≤ 6) := by
  refine ⟨by decide, fun c hc => ?_⟩
  obtain ⟨howed, hfailed⟩ := run_owed defaultDelayMs defaultMaxDelayMs abortedPass c hc
  refine ⟨howed [.start, .work, .request, .wake false, .work, .wake true, .work, .work]
      [.raise, .returned (some .canceled), .work] _ rfl rfl ?_,
    hfailed [.start, .work, .request, .wake false, .work, .wake true, .work, .work, .request,
      .raise] .canceled [.work] _ rfl rfl⟩
  rintro ⟨pre, post, c₁, heq, -⟩
  have hmem : Ev.returned none ∈ [.raise, .returned (some .canceled), .work] :=
    heq ▸ List.mem_append_right _ (List.mem_cons_self ..)
  exact absurd hmem (by decide)

end MagiTrickle.Netfilter.Committer
