import Mathlib.Data.List.Basic
import MagiTrickle.Platform.Loop

/-!
# When the loop uses a freed watch

A batch names watches that were registered when it was collected. The loop comes
to a dangling one exactly when the callback of an earlier event of the batch has
removed it and no callback has stopped the loop in between (`Hazard`). Freed
allocations do not come back, so a watch once removed stays dangling for the
rest of its batch.

Which watches a callback may remove is a relation between callbacks (`may`):
those of one exchange or connection remove the watches of that exchange. Where
no event of a batch may remove the watch of a later one (`Apart`), a run is
safe (`loopRun_ok`).
-/

namespace MagiTrickle.Platform

open MagiTrickle.Lib

variable {γ σ : Type}

def Loop.Live (l : Loop γ) (p : Nat) : Prop := ∃ w ∈ l.watches, w.ptr = p

theorem Loop.Live.lt {l : Loop γ} {p : Nat} (h : l.Live p) : p < l.nextPtr := by
  obtain ⟨w, hw, rfl⟩ := h
  exact l.fresh w hw

theorem Loop.live_iff_find? {l : Loop γ} {p : Nat} :
    l.Live p ↔ l.watches.find? (fun w => w.ptr = p) ≠ none := by
  rw [ne_eq, List.find?_eq_none]
  simp [Loop.Live]

/-! ## Operations on the loop -/

/-- The loop has gone on from `l` to `l'`: allocations are only added, and the earlier ones that are
still registered have kept their callbacks. -/
structure Loop.Later (l l' : Loop γ) : Prop where
  nextPtr : l.nextPtr ≤ l'.nextPtr
  kept : ∀ w' ∈ l'.watches, w'.ptr < l.nextPtr → ∃ w ∈ l.watches, w.ptr = w'.ptr ∧ w.cb = w'.cb

theorem Loop.Later.live {l l' : Loop γ} (h : l.Later l') {p : Nat} (hp : p < l.nextPtr)
    (hl : l'.Live p) : l.Live p := by
  obtain ⟨w', hw', rfl⟩ := hl
  obtain ⟨w, hw, hptr, -⟩ := h.kept w' hw' hp
  exact ⟨w, hw, hptr⟩

theorem Loop.Later.of_subset {l l' : Loop γ} (hptr : l.nextPtr ≤ l'.nextPtr)
    (hsub : ∀ w ∈ l'.watches, w ∈ l.watches) : l.Later l' :=
  ⟨hptr, fun w' hw' _ => ⟨w', hsub w' hw', rfl, rfl⟩⟩

theorem Loop.Later.refl (l : Loop γ) : l.Later l := .of_subset (Nat.le_refl _) fun _ h => h

theorem Loop.Later.trans {l l' l'' : Loop γ} (h : l.Later l') (h' : l'.Later l'') :
    l.Later l'' where
  nextPtr := Nat.le_trans h.nextPtr h'.nextPtr
  kept w'' hw'' hp := by
    obtain ⟨w', hw', hptr', hcb'⟩ := h'.kept w'' hw'' (Nat.lt_of_lt_of_le hp h.nextPtr)
    obtain ⟨w, hw, hptr, hcb⟩ := h.kept w' hw' (hptr' ▸ hp)
    exact ⟨w, hw, hptr.trans hptr', hcb.trans hcb'⟩

section Ops

variable (l : Loop γ)

theorem Loop.later_link (kind : WatchKind) (fd events id : Nat) (cb : γ)
    (answer : Except Err Unit) : l.Later (l.link kind fd events id cb answer).1 := by
  cases answer with
  | error e => exact .of_subset (Nat.le_succ _) fun _ h => h
  | ok _ =>
    refine ⟨Nat.le_succ _, fun w hw hp => ?_⟩
    rcases List.mem_cons.mp hw with rfl | hw
    · exact absurd hp (Nat.lt_irrefl _)
    · exact ⟨w, hw, rfl, rfl⟩

theorem Loop.later_unlink (q : Watch γ → Bool) : l.Later (l.unlink q) :=
  .of_subset (Nat.le_refl _) fun _ hw => List.mem_of_mem_eraseP hw

/-- No operation brings a freed allocation back or changes a callback. -/
theorem Loop.later_apply (op : LoopOp γ) : l.Later (op.apply l) := by
  cases op with
  | addFd fd events cb answer => exact l.later_link ..
  | modFd fd events answer =>
    simp only [LoopOp.apply, Loop.modFd]
    split
    · cases answer with
      | error e => exact .refl l
      | ok _ =>
        refine ⟨Nat.le_refl _, fun w hw _ => ?_⟩
        obtain ⟨w', hw', rfl⟩ := List.mem_map.mp hw
        refine ⟨w', hw', ?_⟩
        split <;> exact ⟨rfl, rfl⟩
    · exact .refl l
  | delFd fd answer =>
    simp only [LoopOp.apply, Loop.delFd]
    split
    · cases answer with
      | error e => exact .refl l
      | ok _ => exact l.later_unlink _
    · exact .refl l
  | addTimer tfd cb answer =>
    cases tfd with
    | error e => exact .refl l
    | ok tfd =>
      have h := Loop.later_link { l with nextTimerId := l.nextTimerId + 1 } .timer tfd 1
        l.nextTimerId cb answer
      exact ⟨h.nextPtr, h.kept⟩
  | delTimer id =>
    simp only [LoopOp.apply, Loop.delTimer]
    split
    · exact l.later_unlink _
    · exact .refl l
  | addSignals sfd cb answer =>
    simp only [LoopOp.apply, Loop.addSignals]
    split
    · exact .refl l
    · cases sfd with
      | error e => exact .refl l
      | ok sfd =>
        have h := l.later_link .signal sfd 1 0 cb answer
        cases answer with
        | error e => exact h
        | ok _ => exact ⟨h.nextPtr, h.kept⟩
  | stop => exact .of_subset (Nat.le_refl _) fun _ h => h

theorem Loop.later_ops (ops : List (LoopOp γ)) : l.Later (ops.foldl LoopOp.apply l) := by
  induction ops generalizing l with
  | nil => exact .refl l
  | cons op ops ih => exact (l.later_apply op).trans (ih _)

/-- The operation may take the watch away. -/
def LoopOp.names (w : Watch γ) : LoopOp γ → Bool
  | .delFd fd _ => Loop.isFdWatch fd w
  | .delTimer id => Loop.isTimerWatch id w
  | _ => false

variable {l}

theorem Loop.mem_link {w : Watch γ} (hw : w ∈ l.watches) (kind : WatchKind) (fd events id : Nat)
    (cb : γ) (answer : Except Err Unit) : w ∈ (l.link kind fd events id cb answer).1.watches := by
  cases answer with
  | error e => exact hw
  | ok _ => exact List.mem_cons_of_mem _ hw

theorem LoopOp.mem_apply {op : LoopOp γ} {w : Watch γ} (hw : w ∈ l.watches) (hop : ¬ op.names w) :
    ∃ events, { w with events := events } ∈ (op.apply l).watches := by
  cases op with
  | addFd fd events cb answer => exact ⟨w.events, Loop.mem_link hw ..⟩
  | modFd fd events answer =>
    simp only [LoopOp.apply, Loop.modFd]
    split
    · cases answer with
      | error e => exact ⟨w.events, hw⟩
      | ok _ =>
        have hmem := List.mem_map_of_mem (f := fun w : Watch γ =>
          if Loop.isFdWatch fd w then { w with events } else w) hw
        split at hmem
        · exact ⟨events, hmem⟩
        · exact ⟨w.events, hmem⟩
    · exact ⟨w.events, hw⟩
  | delFd fd answer =>
    simp only [LoopOp.apply, Loop.delFd]
    split
    · cases answer with
      | error e => exact ⟨w.events, hw⟩
      | ok _ =>
        have hne : ¬ Loop.isFdWatch fd w = true := hop
        exact ⟨w.events, (List.mem_eraseP_of_neg hne).mpr hw⟩
    · exact ⟨w.events, hw⟩
  | addTimer tfd cb answer =>
    cases tfd with
    | error e => exact ⟨w.events, hw⟩
    | ok tfd =>
      have hmem := Loop.mem_link (l := { l with nextTimerId := l.nextTimerId + 1 }) hw .timer tfd 1
        l.nextTimerId cb answer
      exact ⟨w.events, hmem⟩
  | delTimer id =>
    simp only [LoopOp.apply, Loop.delTimer]
    split
    · have hne : ¬ Loop.isTimerWatch id w = true := hop
      exact ⟨w.events, (List.mem_eraseP_of_neg hne).mpr hw⟩
    · exact ⟨w.events, hw⟩
  | addSignals sfd cb answer =>
    simp only [LoopOp.apply, Loop.addSignals]
    split
    · exact ⟨w.events, hw⟩
    · cases sfd with
      | error e => exact ⟨w.events, hw⟩
      | ok sfd =>
        have hmem := Loop.mem_link hw .signal sfd 1 0 cb answer
        cases answer with
        | error e => exact ⟨w.events, hmem⟩
        | ok _ => exact ⟨w.events, hmem⟩
  | stop => exact ⟨w.events, hw⟩

theorem LoopOp.mem_foldl {ops : List (LoopOp γ)} {w : Watch γ} (hw : w ∈ l.watches)
    (hops : ∀ op ∈ ops, ¬ op.names w) :
    ∃ events, { w with events := events } ∈ (ops.foldl LoopOp.apply l).watches := by
  induction ops generalizing l w with
  | nil => exact ⟨w.events, hw⟩
  | cons op ops ih =>
    obtain ⟨hop, hops⟩ := List.forall_mem_cons.mp hops
    obtain ⟨events, hmem⟩ := LoopOp.mem_apply hw hop
    -- what names a watch does not look at its events
    have hrest := @ih _ { w with events := events } hmem
      fun op' hop' hnames => hops op' hop' (by cases op' <;> exact hnames)
    exact hrest

end Ops

/-! ## Dispatching -/

section Dispatch

variable {cbs : Callbacks γ σ} {s s' : Prog γ σ} {e : Event} {p : Nat}

theorem later_dispatch (h : dispatch cbs s e = .ok s') : s.loop.Later s'.loop := by
  unfold dispatch at h
  split at h
  · cases h
    exact .refl _
  · split at h
    · cases h
      exact Loop.later_ops ..
    · split at h
      · cases h
      · cases h
        exact Loop.later_ops ..

/-- The loop fails at an event exactly when it comes to one whose watch is gone. -/
theorem dispatch_error_iff :
    (∃ f, dispatch cbs s e = .error f) ↔
      s.loop.stopping = false ∧ ∃ p, e.data = some p ∧ ¬ s.loop.Live p := by
  unfold dispatch
  cases hstop : s.loop.stopping with
  | true => simp
  | false =>
    cases hdata : e.data with
    | none => simp
    | some p =>
      simp only [Bool.false_eq_true, if_false, true_and, Option.some.injEq, exists_eq_left']
      rw [Loop.live_iff_find?, not_not]
      cases s.loop.watches.find? fun w => w.ptr = p with
      | none => simp
      | some w => simp

theorem later_runBatch {batch : List Event} (h : runBatch cbs s batch = .ok s') :
    s.loop.Later s'.loop :=
  Runs.foldlM_inv (I := fun s' : Prog γ σ => s.loop.Later s'.loop)
    (fun _ _ _ hs hd => hs.trans (later_dispatch hd)) h (.refl _)

/-- Running the event takes the watch `p` away. -/
def Removes (cbs : Callbacks γ σ) (s : Prog γ σ) (e : Event) (p : Nat) (s' : Prog γ σ) : Prop :=
  s.loop.Live p ∧ dispatch cbs s e = .ok s' ∧ ¬ s'.loop.Live p

/-- The callback of an event `e` of the batch removes the watch of a later event `e'`, and the loop
is not stopped before it comes to `e'`. -/
def Hazard (cbs : Callbacks γ σ) (s : Prog γ σ) (batch : List Event) : Prop :=
  ∃ pre e mid e' post p s₁ s₂ s₃, batch = pre ++ e :: (mid ++ e' :: post) ∧ e'.data = some p ∧
    runBatch cbs s pre = .ok s₁ ∧ Removes cbs s₁ e p s₂ ∧
    runBatch cbs s₂ mid = .ok s₃ ∧ s₃.loop.stopping = false

/-- The events name watches that are registered. -/
def Collected (s : Prog γ σ) (batch : List Event) : Prop :=
  ∀ e ∈ batch, ∀ p, e.data = some p → s.loop.Live p

theorem runBatch_error_iff {batch : List Event} (hc : Collected s batch) :
    (∃ f, runBatch cbs s batch = .error f) ↔ Hazard cbs s batch := by
  rw [runBatch, Runs.foldlM_error_iff]
  refine ⟨?_, ?_⟩
  · rintro ⟨pre, e', post, s₃, rfl, hpre, herr⟩
    obtain ⟨hstop, p, hp, hdead⟩ := dispatch_error_iff.mp herr
    have hlive : s.loop.Live p := hc e' (by simp) p hp
    -- the watch was registered at the start, so some callback on the way removed it
    obtain ⟨pre₁, e, mid, s₁, s₂, rfl, hpre₁, he, hmid, hl, hd⟩ :=
      Runs.exists_lost (P := fun s : Prog γ σ => s.loop.Live p) hpre hlive hdead
    exact ⟨pre₁, e, mid, e', post, p, s₁, s₂, s₃, by simp, hp, hpre₁, ⟨hl, he, hd⟩, hmid, hstop⟩
  · rintro ⟨pre, e, mid, e', post, p, s₁, s₂, s₃, rfl, hp, hpre, ⟨hl, he, hd⟩, hmid, hstop⟩
    -- the removed watch lies in an allocation made before, so it does not come back
    have hlt : p < s₂.loop.nextPtr := Nat.lt_of_lt_of_le hl.lt (later_dispatch he).nextPtr
    refine ⟨pre ++ e :: mid, e', post, s₃, by simp, ?_, ?_⟩
    · exact Runs.foldlM_append_ok.mpr ⟨s₁, hpre, Runs.foldlM_cons_ok.mpr ⟨s₂, he, hmid⟩⟩
    · exact dispatch_error_iff.mpr ⟨hstop, p, hp, fun h => hd ((later_runBatch hmid).live hlt h)⟩

/-! ### Who removes what -/

/-- In the states of the program a callback removes only watches with callbacks that it may remove,
`may none` for the posted ones. -/
structure Disciplined (cbs : Callbacks γ σ) (may : Option γ → γ → Prop) (I : Prog γ σ → Prop) :
    Prop where
  run : ∀ s w events, I s → w ∈ s.loop.watches → I (s.perform (cbs.run w events s.loop s.rest)) ∧
    ∀ w' ∈ s.loop.watches,
      ¬ (s.perform (cbs.run w events s.loop s.rest)).loop.Live w'.ptr → may (some w.cb) w'.cb
  posts : ∀ s, I s → I (s.perform (cbs.posts s.loop s.rest)) ∧
    ∀ w' ∈ s.loop.watches, ¬ (s.perform (cbs.posts s.loop s.rest)).loop.Live w'.ptr →
      may none w'.cb

/-- The callback of the event may remove watches with the callback `c`. -/
def MayRemove (may : Option γ → γ → Prop) (s : Prog γ σ) (e : Event) (c : γ) : Prop :=
  match e.data with
  | none => may none c
  | some p => ∃ w ∈ s.loop.watches, w.ptr = p ∧ may (some w.cb) c

/-- No event of the batch may remove the watch of a later one. -/
def Apart (may : Option γ → γ → Prop) (s : Prog γ σ) (batch : List Event) : Prop :=
  batch.Pairwise fun e e' => ∀ w' ∈ s.loop.watches, e'.data = some w'.ptr →
    ¬ MayRemove may s e w'.cb

variable {may : Option γ → γ → Prop} {I : Prog γ σ → Prop}

instance [∀ o c, Decidable (may o c)] (c : γ) : Decidable (MayRemove may s e c) :=
  match h : e.data with
  | none => decidable_of_iff (may none c) (by rw [MayRemove, h])
  | some p => decidable_of_iff (∃ w ∈ s.loop.watches, w.ptr = p ∧ may (some w.cb) c)
      (by rw [MayRemove, h])

instance [∀ o c, Decidable (may o c)] (batch : List Event) : Decidable (Apart may s batch) :=
  inferInstanceAs (Decidable (List.Pairwise _ _))

theorem Disciplined.dispatch (h : Disciplined cbs may I) (hs : I s)
    (hd : dispatch cbs s e = .ok s') :
    I s' ∧ ∀ w' ∈ s.loop.watches, ¬ s'.loop.Live w'.ptr → MayRemove may s e w'.cb := by
  unfold Platform.dispatch at hd
  unfold MayRemove
  split at hd
  · cases hd
    exact ⟨hs, fun w' hw' hno => absurd ⟨w', hw', rfl⟩ hno⟩
  · cases hdata : e.data with
    | none =>
      rw [hdata] at hd
      cases hd
      exact h.posts s hs
    | some p =>
      rw [hdata] at hd
      dsimp only at hd
      cases hfind : s.loop.watches.find? fun w => w.ptr = p with
      | none =>
        rw [hfind] at hd
        cases hd
      | some w =>
        rw [hfind] at hd
        cases hd
        have hw := List.mem_of_find?_eq_some hfind
        have hptr : w.ptr = p := by simpa using List.find?_some hfind
        obtain ⟨hI, honly⟩ := h.run s w e.events hs hw
        exact ⟨hI, fun w' hw' hno => ⟨w, hw, hptr, honly w' hw' hno⟩⟩

theorem Disciplined.runBatch (h : Disciplined cbs may I) {batch : List Event}
    (hd : runBatch cbs s batch = .ok s') (hs : I s) : I s' :=
  Runs.foldlM_inv (fun _ _ _ hs hd => (h.dispatch hs hd).1) hd hs

/-- What may be removed later in a batch may be removed when it is collected. -/
theorem MayRemove.earlier (hl : s.loop.Later s'.loop) {p : Nat} {c : γ}
    (hdata : e.data = none ∨ e.data = some p ∧ p < s.loop.nextPtr) (h : MayRemove may s' e c) :
    MayRemove may s e c := by
  unfold MayRemove at h ⊢
  rcases hdata with hdata | ⟨hdata, hlt⟩
  · rw [hdata] at h ⊢
    exact h
  · rw [hdata] at h ⊢
    obtain ⟨w', hw', rfl, hmay⟩ := h
    obtain ⟨w, hw, hptr, hcb⟩ := hl.kept w' hw' hlt
    exact ⟨w, hw, hptr, hcb ▸ hmay⟩

/-- A batch without such events holds no hazard. -/
theorem Disciplined.not_hazard (h : Disciplined cbs may I) (hs : I s) {batch : List Event}
    (hc : Collected s batch) (hapart : Apart may s batch) : ¬ Hazard cbs s batch := by
  rintro ⟨pre, e, mid, e', post, p, s₁, s₂, s₃, rfl, hp, hpre, ⟨⟨w₁, hw₁, rfl⟩, he, hdead⟩, -, -⟩
  have hlater := later_runBatch hpre
  have hlt : w₁.ptr < s.loop.nextPtr := (hc e' (by simp) _ hp).lt
  obtain ⟨w', hw', hptr, hcb⟩ := hlater.kept w₁ hw₁ hlt
  have hmay := (h.dispatch (h.runBatch hpre hs) he).2 w₁ hw₁ hdead
  have hmay : MayRemove may s e w'.cb := by
    rw [hcb]
    cases hdata : e.data with
    | none => exact hmay.earlier hlater (p := 0) (.inl hdata)
    | some q => exact hmay.earlier hlater (.inr ⟨hdata, (hc e (by simp) q hdata).lt⟩)
  obtain ⟨-, hpair, -⟩ := List.pairwise_append.mp hapart
  exact (List.pairwise_cons.mp hpair).1 e' (by simp) w' hw' (hp.trans (by rw [hptr])) hmay

end Dispatch

/-! ## Whole runs -/

section Run

variable {cbs : Callbacks γ σ} {wait : Nat → Prog γ σ → List Event} {s : Prog γ σ}

theorem loopRound_error_iff {k : Nat} (hc : Collected s (wait k s)) :
    (∃ f, loopRound cbs wait s k = .error f) ↔
      s.loop.stopping = false ∧ Hazard cbs s (wait k s) := by
  unfold loopRound
  cases s.loop.stopping with
  | true => simp
  | false => simpa using runBatch_error_iff hc

theorem loopRun_error_iff (hc : ∀ k s, Collected s (wait k s)) (n : Nat) :
    (∃ f, loopRun cbs wait n s = .error f) ↔
      ∃ k < n, ∃ s', loopRun cbs wait k s = .ok s' ∧ s'.loop.stopping = false ∧
        Hazard cbs s' (wait k s') := by
  induction n with
  | zero =>
    refine ⟨?_, ?_⟩
    · rintro ⟨f, hf⟩
      cases hf
    · rintro ⟨k, hk, -⟩
      exact absurd hk (Nat.not_lt_zero k)
  | succ n ih =>
    rw [loopRun]
    cases hn : loopRun cbs wait n s with
    | error f =>
      -- the run has failed before this round
      obtain ⟨k, hk, hrest⟩ := ih.mp ⟨f, hn⟩
      exact ⟨fun _ => ⟨k, Nat.lt_succ_of_lt hk, hrest⟩, fun _ => ⟨f, rfl⟩⟩
    | ok s₁ =>
      have hnone : ¬ ∃ f, loopRun cbs wait n s = .error f := by
        rintro ⟨f, hf⟩
        rw [hn] at hf
        cases hf
      show (∃ f, loopRound cbs wait s₁ n = .error f) ↔ _
      rw [loopRound_error_iff (hc n s₁)]
      refine ⟨fun h => ⟨n, Nat.lt_succ_self n, s₁, hn, h⟩, ?_⟩
      rintro ⟨k, hk, s', hrun, h⟩
      rcases Nat.lt_succ_iff_lt_or_eq.mp hk with hk | rfl
      · exact absurd (ih.mpr ⟨k, hk, s', hrun, h⟩) hnone
      · rw [hn] at hrun
        cases hrun
        exact h

/-- The loop never uses a freed watch exactly when no batch that it collects holds a hazard. -/
theorem loopRun_ok_iff_no_hazard (cbs : Callbacks γ σ) (wait : Nat → Prog γ σ → List Event)
    (hc : ∀ k s, Collected s (wait k s)) (s : Prog γ σ) :
    (∀ n, ∃ s', loopRun cbs wait n s = .ok s') ↔
      ∀ k s', loopRun cbs wait k s = .ok s' → s'.loop.stopping = false →
        ¬ Hazard cbs s' (wait k s') := by
  refine ⟨fun h k s' hrun hstop hhaz => ?_, fun h n => ?_⟩
  · obtain ⟨f, hf⟩ := (loopRun_error_iff hc (k + 1)).mpr
      ⟨k, Nat.lt_succ_self k, s', hrun, hstop, hhaz⟩
    obtain ⟨s'', hok⟩ := h (k + 1)
    rw [hf] at hok
    cases hok
  · cases hn : loopRun cbs wait n s with
    | ok s' => exact ⟨s', rfl⟩
    | error f =>
      obtain ⟨k, -, s', hrun, hstop, hhaz⟩ := (loopRun_error_iff hc n).mp ⟨f, hn⟩
      exact absurd hhaz (h k s' hrun hstop)

theorem Disciplined.loopRun {may : Option γ → γ → Prop} {I : Prog γ σ → Prop}
    (h : Disciplined cbs may I) (hs : I s) {n : Nat} {s' : Prog γ σ}
    (hrun : loopRun cbs wait n s = .ok s') : I s' := by
  induction n generalizing s' with
  | zero =>
    cases hrun
    exact hs
  | succ n ih =>
    rw [Platform.loopRun] at hrun
    cases hn : Platform.loopRun cbs wait n s with
    | error f =>
      rw [hn] at hrun
      cases hrun
    | ok s₁ =>
      rw [hn] at hrun
      have hround : loopRound cbs wait s₁ n = .ok s' := hrun
      unfold loopRound at hround
      split at hround
      · cases hround
        exact ih hn
      · exact h.runBatch hround (ih hn)

theorem Disciplined.safe {may : Option γ → γ → Prop} {I : Prog γ σ → Prop}
    (h : Disciplined cbs may I) (hc : ∀ k s, Collected s (wait k s)) (hs : I s)
    (hapart : ∀ k s', Platform.loopRun cbs wait k s = .ok s' → Apart may s' (wait k s')) (n : Nat) :
    ∃ s', Platform.loopRun cbs wait n s = .ok s' := by
  refine (loopRun_ok_iff_no_hazard cbs wait hc s).mpr (fun k s' hrun _ => ?_) n
  exact h.not_hazard (h.loopRun hs hrun) (hc k s') (hapart k s' hrun)

/-- **A run in whose batches no event may remove the watch of a later one** never uses a freed
watch. -/
theorem loopRun_ok {may : Option γ → γ → Prop} {I : Prog γ σ → Prop} (h : Disciplined cbs may I)
    (hc : ∀ k s, Collected s (wait k s)) (hs : I s)
    (hapart : ∀ k s', Platform.loopRun cbs wait k s = .ok s' → Apart may s' (wait k s')) (n : Nat) :
    ∃ s', Platform.loopRun cbs wait n s = .ok s' ∧ I s' := by
  obtain ⟨s', hrun⟩ := h.safe hc hs hapart n
  exact ⟨s', hrun, h.loopRun hs hrun⟩

end Run

end MagiTrickle.Platform
