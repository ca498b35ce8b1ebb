import MagiTrickle.Platform.Queue

/-!
# Posting to the event loop (`platform/loop.c`)

Any thread posts a callback: it pushes it into the queue, and then writes to the
descriptor that wakes the loop. These are two steps, and the steps of all threads
and of the loop come in any order. The loop empties the descriptor first and then
the queue. `posts_run` says that no post is lost, run twice or overtaken, and that
the loop does not sleep over one.
-/

namespace MagiTrickle.Platform

/-- `MT_LOOP_POST_CAP`. -/
def postCap : Nat := 1024

/-- `MT_LOOP_MAX_EVENTS`. -/
def maxEvents : Nat := 64

/-- The largest value of an event descriptor. -/
def eventMax : Nat := 2 ^ 64 - 2

inductive Ready where
  | wakeup
  | other
  deriving DecidableEq, Repr

/-- Where the thread of the loop stands. -/
inductive At (α : Type) where
  /-- Before it looks at `stopping`, at the head of `mt_loop_run`. -/
  | top
  /-- In `epoll_wait`. -/
  | waiting
  /-- Before it looks at `stopping`, with the rest of the batch. -/
  | batch (rest : List Ready)
  /-- In the callback of another watch. -/
  | callback (rest : List Ready)
  /-- In the first loop of `handle_wakeup`. -/
  | reading (rest : List Ready)
  /-- In the second loop of `handle_wakeup`. -/
  | draining (rest : List Ready)
  /-- In a posted callback. -/
  | running (x : α) (rest : List Ready)
  | exited
  deriving DecidableEq, Repr

structure Posts (α : Type) where
  queue : Queue α postCap
  /-- The value of the event descriptor. -/
  counter : Nat
  stopping : Bool
  /-- Threads in front of `wakeup`, after a push or after the store to `stopping`. -/
  waking : Nat
  loop : At α
  /-- The posts that were accepted, in order. -/
  accepted : List α
  /-- The posts that were run, in order. -/
  ran : List α

namespace Posts

variable {α : Type}

/-- `mt_loop_create`. -/
def create (items : Vector α postCap) : Posts α where
  queue := .create items .reject (by decide)
  counter := 0
  stopping := false
  waking := 0
  loop := .top
  accepted := []
  ran := []

inductive Step (α : Type) where
  /-- `mt_queue_push` in `mt_loop_post`. -/
  | push (x : α)
  /-- The store in `mt_loop_stop`. -/
  | stop
  /-- `wakeup`. -/
  | wakeup
  /-- The next step of the loop; `ready` is what `epoll_wait` reports if it is called. -/
  | loop (ready : List Ready)
  /-- `epoll_wait` fails, by a signal or otherwise. -/
  | epollError (intr : Bool)
  deriving DecidableEq, Repr

/-- `epoll_wait` reports the wake-up watch only while its descriptor can be read. -/
def collected (counter : Nat) (ready : List Ready) : List Ready :=
  (if counter = 0 then ready.filter (· ≠ .wakeup) else ready).take maxEvents

def loopStep (s : Posts α) (ready : List Ready) : Posts α :=
  match s.loop with
  | .top => { s with loop := if s.stopping then .exited else .waiting }
  | .waiting => { s with loop := match collected s.counter ready with
      | [] => .waiting
      | e :: rest => .batch (e :: rest) }
  | .batch [] => { s with loop := .top }
  | .batch (e :: rest) =>
    { s with loop :=
        if s.stopping then .top
        else match e with
          | .wakeup => .reading rest
          | .other => .callback rest }
  | .callback rest => { s with loop := .batch rest }
  | .reading rest =>
    if s.counter = 0 then { s with loop := .draining rest } else { s with counter := 0 }
  | .draining rest =>
    match s.queue.tryPop with
    | (q, .popped x) => { s with queue := q, loop := .running x rest, ran := s.ran ++ [x] }
    | (q, _) => { s with queue := q, loop := .batch rest }
  | .running _ rest => { s with loop := .draining rest }
  | .exited => s

def step (s : Posts α) : Step α → Posts α
  | .push x =>
    match s.queue.push x with
    | (q, .pushed _) => { s with
        queue := q, waking := s.waking + 1, accepted := s.accepted ++ [x] }
    | (q, _) => { s with queue := q }
  | .stop => { s with stopping := true, waking := s.waking + 1 }
  | .wakeup =>
    if s.waking = 0 then s
    else { s with waking := s.waking - 1, counter := min eventMax (s.counter + 1) }
  | .loop ready => s.loopStep ready
  | .epollError intr =>
    match s.loop with
    | .waiting => { s with loop := if intr then .top else .exited }
    | _ => s

/-! ## What holds in every order -/

/-- The loop has emptied the descriptor and goes on to empty the queue. -/
def Draining : At α → Prop
  | .reading _ | .draining _ | .running _ _ => True
  | _ => False

/-- The queue is open, turns away what has no place, and holds the posts that have not run. Unless
the loop is about to empty it, what is in it can be read from the descriptor, or its thread has yet
to write there; and so it is with the request to stop. -/
structure Ok (s : Posts α) : Prop where
  policy : s.queue.policy = .reject
  closed : s.queue.closed = false
  order : s.accepted = s.ran ++ s.queue.contents
  awake : ¬Draining s.loop → s.counter = 0 → s.queue.contents.length ≤ s.waking
  stop : s.loop = .waiting → s.stopping = true → s.counter ≠ 0 ∨ s.waking ≠ 0

variable {s : Posts α}

theorem ok_create (items : Vector α postCap) : (create items).Ok where
  policy := rfl
  closed := rfl
  order := rfl
  awake _ _ := Nat.zero_le _
  stop _ h := absurd h Bool.false_ne_true

theorem Ok.push (h : s.Ok) (x : α) : (s.step (.push x)).Ok := by
  rcases Queue.push_cases h.policy h.closed x with ⟨-, hq⟩ | ⟨q, hq, hitems, hpolicy, hclosed⟩
  · simp only [step, hq]
    exact ⟨h.policy, h.closed, h.order, h.awake, h.stop⟩
  · simp only [step, hq]
    refine ⟨hpolicy, hclosed, ?_, fun hd hc => ?_, fun hw hs => ?_⟩
    · simp only [hitems, h.order, List.append_assoc]
    · simpa [hitems] using h.awake hd hc
    · exact .inr (Nat.succ_ne_zero _)

theorem Ok.wakeup (h : s.Ok) : (s.step .wakeup).Ok := by
  simp only [step]
  split
  · exact h
  · have hne : min eventMax (s.counter + 1) ≠ 0 := by
      have : eventMax ≠ 0 := by decide
      omega
    exact ⟨h.policy, h.closed, h.order, fun _ hc => absurd hc hne, fun _ _ => .inl hne⟩

theorem Ok.loopStep (h : s.Ok) (ready : List Ready) : (s.loopStep ready).Ok := by
  obtain ⟨queue, counter, stopping, waking, loop, accepted, ran⟩ := s
  obtain ⟨hpolicy, hclosed, horder, hawake, hstop⟩ := h
  cases loop with
  | top =>
    refine ⟨hpolicy, hclosed, horder, fun _ => hawake id, fun hw hs => ?_⟩
    have hs : stopping = true := hs
    simp [Posts.loopStep, hs] at hw
  | waiting => exact ⟨hpolicy, hclosed, horder, fun _ => hawake id, fun _ => hstop rfl⟩
  | batch rest =>
    cases rest with
    | nil => exact ⟨hpolicy, hclosed, horder, fun _ => hawake id, fun hw => by cases hw⟩
    | cons e rest =>
      refine ⟨hpolicy, hclosed, horder, fun _ => hawake id, fun hw => ?_⟩
      simp only [Posts.loopStep] at hw
      cases stopping <;> cases e <;> cases hw
  | callback rest => exact ⟨hpolicy, hclosed, horder, fun _ => hawake id, fun hw => by cases hw⟩
  | reading rest =>
    simp only [Posts.loopStep]
    split
    · exact ⟨hpolicy, hclosed, horder, fun hd => absurd trivial hd, fun hw => by cases hw⟩
    · exact ⟨hpolicy, hclosed, horder, fun hd => absurd trivial hd, fun hw => by cases hw⟩
  | draining rest =>
    simp only [Posts.loopStep]
    rcases queue.tryPop_cases with ⟨hnil, err, hq⟩ | ⟨x, q, hq, hcons, hp, hc⟩
    · -- nothing is left, so nothing has to be announced
      rw [hq]
      refine ⟨hpolicy, hclosed, horder, fun _ _ => ?_, fun hw => by cases hw⟩
      simp [hnil]
    · rw [hq]
      refine ⟨hp.trans hpolicy, hc.trans hclosed, ?_, fun hd => absurd trivial hd,
        fun hw => by cases hw⟩
      have horder : accepted = ran ++ queue.contents := horder
      simp [horder, hcons]
  | running x rest =>
    exact ⟨hpolicy, hclosed, horder, fun hd => absurd trivial hd, fun hw => by cases hw⟩
  | exited => exact ⟨hpolicy, hclosed, horder, hawake, hstop⟩

theorem Ok.step (h : s.Ok) (st : Step α) : (s.step st).Ok := by
  cases st with
  | push x => exact h.push x
  | stop =>
    refine ⟨h.policy, h.closed, h.order, fun hd hc => ?_, fun _ _ => .inr (Nat.succ_ne_zero _)⟩
    exact (h.awake hd hc).trans (Nat.le_succ _)
  | wakeup => exact h.wakeup
  | loop ready => exact h.loopStep ready
  | epollError intr =>
    simp only [Posts.step]
    split
    · next hw =>
      refine ⟨h.policy, h.closed, h.order, fun _ => h.awake (by simp [hw, Draining]), fun hw' => ?_⟩
      cases intr <;> cases hw'
    · exact h

theorem ok_run (items : Vector α postCap) (steps : List (Step α)) :
    (steps.foldl step (create items)).Ok := by
  have hstart := ok_create items
  generalize create items = s at hstart
  induction steps generalizing s with
  | nil => exact hstart
  | cons st steps ih => exact ih _ (hstart.step st)

/-! ## The loop by itself -/

/-- A step of the loop while the threads are still; `epoll_wait` reports events, or is interrupted
by a signal. -/
def alone (s : Posts α) : Option (List Ready) → Posts α
  | some ready => s.loopStep ready
  | none => match s.loop with
    | .waiting => s.step (.epollError true)
    | _ => s.loopStep []

/-- While the wake-up can be read, at most `k` calls of `epoll_wait` come before the one that
reports it. -/
inductive Prompt : Nat → Posts α → List (Option (List Ready)) → Prop where
  | nil {k : Nat} {s : Posts α} : Prompt k s []
  | other {k : Nat} {s : Posts α} {a : Option (List Ready)} {as : List (Option (List Ready))}
      (h : s.loop ≠ .waiting ∨ s.counter = 0) (has : Prompt k (s.alone a) as) : Prompt k s (a :: as)
  | reported {k : Nat} {s : Posts α} {ready : List Ready} {as : List (Option (List Ready))}
      (hl : s.loop = .waiting) (h : .wakeup ∈ collected s.counter ready) :
      Prompt k s (some ready :: as)
  | missed {k : Nat} {s : Posts α} {a : Option (List Ready)} {as : List (Option (List Ready))}
      (hl : s.loop = .waiting) (has : Prompt k (s.alone a) as) : Prompt (k + 1) s (a :: as)

/-- A kernel that reports it at once. -/
theorem prompt_of_reported {answers : List (Option (List Ready))}
    (h : ∀ a ∈ answers, ∃ ready, a = some (.wakeup :: ready)) (s : Posts α) :
    Prompt 0 s answers := by
  induction answers generalizing s with
  | nil => exact .nil
  | cons a as ih =>
    obtain ⟨ready, rfl⟩ := h a (List.mem_cons_self ..)
    by_cases hs : s.loop ≠ .waiting ∨ s.counter = 0
    · exact .other hs (ih (fun b hb => h b (List.mem_cons_of_mem _ hb)) _)
    · obtain ⟨hl, hc⟩ := not_or.mp hs
      refine .reported (not_not.mp hl) ?_
      unfold collected
      rw [if_neg hc]
      exact List.mem_cons_self ..

theorem alone_eq (s : Posts α) (a : Option (List Ready)) :
    (∃ ready, s.alone a = s.loopStep ready ∧ a.getD [] = ready) ∨
      s.loop = .waiting ∧ a = none ∧ s.alone a = { s with loop := .top } := by
  cases a with
  | some ready => exact .inl ⟨ready, rfl, rfl⟩
  | none =>
    cases hl : s.loop with
    | waiting => exact .inr ⟨rfl, rfl, by simp [alone, step, hl]⟩
    | _ => exact .inl ⟨[], by simp [alone, hl], rfl⟩

theorem frame_loopStep (s : Posts α) (ready : List Ready) :
    (s.loopStep ready).accepted = s.accepted ∧ (s.loopStep ready).stopping = s.stopping ∧
      (s.loopStep ready).waking = s.waking := by
  unfold Posts.loopStep
  split
  all_goals first | exact ⟨rfl, rfl, rfl⟩ | (split <;> exact ⟨rfl, rfl, rfl⟩)

theorem frame_alone (s : Posts α) (a : Option (List Ready)) :
    (s.alone a).accepted = s.accepted ∧ (s.alone a).stopping = s.stopping ∧
      (s.alone a).waking = s.waking := by
  rcases alone_eq s a with ⟨ready, h, -⟩ | ⟨-, -, h⟩
  · rw [h]
    exact frame_loopStep s ready
  · rw [h]
    exact ⟨rfl, rfl, rfl⟩

theorem Ok.alone (h : s.Ok) (a : Option (List Ready)) : (s.alone a).Ok := by
  unfold Posts.alone
  split
  · exact h.loopStep _
  · split
    · exact h.step _
    · exact h.loopStep _

theorem contents_alone (h : s.queue.contents = []) (a : Option (List Ready)) :
    (s.alone a).queue.contents = [] := by
  rcases alone_eq s a with ⟨ready, heq, -⟩ | ⟨-, -, heq⟩
  · rw [heq]
    unfold Posts.loopStep
    split <;> try exact h
    · split <;> exact h
    · rcases s.queue.tryPop_cases with ⟨-, err, hq⟩ | ⟨x, q, hq, hcons, -⟩
      · rw [hq]
        exact h
      · rw [h] at hcons
        cases hcons
  · rw [heq]
    exact h

/-- The loop comes to the wake-up without another call of `epoll_wait`. -/
def Announced : At α → Prop
  | .batch rest | .callback rest => .wakeup ∈ rest
  | .reading _ | .draining _ | .running _ _ => True
  | _ => False

/-- Steps of the loop until the queue is empty, if at most `k` calls of `epoll_wait` miss the
wake-up. -/
def cost (k : Nat) (s : Posts α) : Nat :=
  2 * s.queue.contents.length + match s.loop with
    | .top => 131 * k + 134
    | .waiting => 131 * k + 133
    | .batch rest =>
      if .wakeup ∈ rest then 2 * rest.length + 2 else 131 * k + 2 * rest.length + 135
    | .callback rest =>
      if .wakeup ∈ rest then 2 * rest.length + 3 else 131 * k + 2 * rest.length + 136
    | .reading _ => if s.counter = 0 then 2 else 3
    | .draining _ => 1
    | .running _ _ => 2
    | .exited => 0

theorem announced_loopStep (ha : Announced s.loop) (hs : s.stopping = false)
    (hne : s.queue.contents ≠ []) (k : Nat) (ready : List Ready) :
    Announced (s.loopStep ready).loop ∧ cost k (s.loopStep ready) < cost k s := by
  obtain ⟨queue, counter, stopping, waking, loop, accepted, ran⟩ := s
  obtain rfl : stopping = false := hs
  cases loop with
  | top => exact ha.elim
  | waiting => exact ha.elim
  | exited => exact ha.elim
  | batch rest =>
    cases rest with
    | nil => exact absurd ha List.not_mem_nil
    | cons e rest =>
      cases e with
      | wakeup =>
        refine ⟨trivial, ?_⟩
        simp only [cost, Posts.loopStep, List.mem_cons_self, if_true, List.length_cons,
          Bool.false_eq_true, if_false]
        split <;> omega
      | other =>
        have hrest : Ready.wakeup ∈ rest := by
          rcases List.mem_cons.mp ha with h | h
          · cases h
          · exact h
        refine ⟨hrest, ?_⟩
        simp only [cost, Posts.loopStep, List.mem_cons_of_mem _ hrest, hrest, if_true,
          List.length_cons, Bool.false_eq_true, if_false]
        omega
  | callback rest =>
    have hrest : Ready.wakeup ∈ rest := ha
    refine ⟨hrest, ?_⟩
    simp only [cost, Posts.loopStep, hrest, if_true]
    omega
  | reading rest =>
    simp only [Posts.loopStep]
    by_cases hc : counter = 0
    · rw [if_pos hc]
      refine ⟨trivial, ?_⟩
      simp only [cost, hc, if_true]
      omega
    · rw [if_neg hc]
      refine ⟨trivial, ?_⟩
      simp only [cost, if_true, if_neg hc]
      omega
  | draining rest =>
    simp only [Posts.loopStep]
    rcases queue.tryPop_cases with ⟨hnil, -⟩ | ⟨x, q, hq, hcons, -⟩
    · exact absurd hnil hne
    · rw [hq]
      refine ⟨trivial, ?_⟩
      simp only [cost, hcons, List.length_cons]
      omega
  | running x rest =>
    refine ⟨trivial, ?_⟩
    simp only [cost, Posts.loopStep]
    omega

theorem length_collected_le (counter : Nat) (ready : List Ready) :
    (collected counter ready).length ≤ 64 := List.length_take_le _ _

/-- A step that leads to `epoll_wait` again, or away from it. -/
theorem cost_loopStep_of_ne (hl : s.loop ≠ .waiting) (ha : ¬Announced s.loop)
    (hexited : s.loop ≠ .exited) (hs : s.stopping = false) (k : Nat) (ready : List Ready) :
    cost k (s.loopStep ready) < cost k s ∧ (s.loopStep ready).loop ≠ .exited := by
  obtain ⟨queue, counter, stopping, waking, loop, accepted, ran⟩ := s
  obtain rfl : stopping = false := hs
  cases loop with
  | top =>
    refine ⟨?_, nofun⟩
    simp only [cost, Posts.loopStep, Bool.false_eq_true, if_false]
    omega
  | waiting => exact absurd rfl hl
  | exited => exact absurd rfl hexited
  | batch rest =>
    cases rest with
    | nil =>
      refine ⟨?_, nofun⟩
      simp only [cost, Posts.loopStep, List.not_mem_nil, if_false]
      omega
    | cons e rest =>
      have hno : Ready.wakeup ∉ e :: rest := ha
      cases e with
      | wakeup => exact absurd (List.mem_cons_self ..) hno
      | other =>
        have hrest : Ready.wakeup ∉ rest := fun h => hno (List.mem_cons_of_mem _ h)
        refine ⟨?_, nofun⟩
        simp only [cost, Posts.loopStep, hno, hrest, if_false, List.length_cons,
          Bool.false_eq_true]
        omega
  | callback rest =>
    have hrest : Ready.wakeup ∉ rest := ha
    refine ⟨?_, nofun⟩
    simp only [cost, Posts.loopStep, hrest, if_false]
    omega
  | reading rest => exact absurd trivial ha
  | draining rest => exact absurd trivial ha
  | running x rest => exact absurd trivial ha

/-- A call of `epoll_wait` that misses the wake-up, or reports it. -/
theorem cost_waiting (hl : s.loop = .waiting) (k : Nat) (a : Option (List Ready)) :
    cost k (s.alone a) < cost (k + 1) s ∧ (s.alone a).loop ≠ .exited ∧
      ∀ ready, a = some ready → .wakeup ∈ collected s.counter ready →
        Announced (s.alone a).loop ∧ cost k (s.alone a) < cost k s := by
  obtain ⟨queue, counter, stopping, waking, loop, accepted, ran⟩ := s
  obtain rfl : loop = .waiting := hl
  cases a with
  | none =>
    refine ⟨?_, nofun, nofun⟩
    simp only [cost, Posts.alone, Posts.step, if_true]
    omega
  | some ready =>
    have hlen := length_collected_le counter ready
    cases hcol : collected counter ready with
    | nil =>
      refine ⟨?_, ?_, ?_⟩
      · simp only [cost, Posts.alone, Posts.loopStep, hcol]
        omega
      · simp [Posts.alone, Posts.loopStep, hcol]
      · rintro _ ⟨⟩ hmem
        rw [show collected counter ready = [] from hcol] at hmem
        cases hmem
    | cons e rest =>
      rw [hcol, List.length_cons] at hlen
      refine ⟨?_, ?_, ?_⟩
      · simp only [cost, Posts.alone, Posts.loopStep, hcol, List.length_cons]
        split <;> omega
      · simp [Posts.alone, Posts.loopStep, hcol]
      · rintro _ ⟨⟩ hmem
        have hmem : Ready.wakeup ∈ e :: rest := hcol ▸ hmem
        refine ⟨?_, ?_⟩
        · simpa [Posts.alone, Posts.loopStep, hcol, Announced] using hmem
        · simp only [cost, Posts.alone, Posts.loopStep, hcol, List.length_cons, hmem, if_true]
          omega

theorem alone_of_ne (hl : s.loop ≠ .waiting) (a : Option (List Ready)) :
    ∃ ready, s.alone a = s.loopStep ready := by
  rcases alone_eq s a with ⟨ready, h, -⟩ | ⟨hw, -, -⟩
  · exact ⟨ready, h⟩
  · exact absurd hw hl

theorem not_exited_of_announced {l : At α} (h : Announced l) : l ≠ .exited := by
  rintro rfl
  exact h

theorem contents_foldl_alone {answers : List (Option (List Ready))} {k : Nat} (h : s.Ok)
    (hs : s.stopping = false) (hwaking : s.waking = 0) (hexited : s.loop ≠ .exited)
    (hprompt : Announced s.loop ∨ Prompt k s answers) (hlen : cost k s ≤ answers.length) :
    (answers.foldl alone s).queue.contents = [] := by
  induction answers generalizing k s with
  | nil =>
    have hpos : 2 * s.queue.contents.length ≤ cost k s := Nat.le_add_right ..
    rw [List.length_nil, Nat.le_zero] at hlen
    show s.queue.contents = []
    exact List.length_eq_zero_iff.mp (by omega)
  | cons a as ih =>
    rw [List.foldl_cons]
    rw [List.length_cons] at hlen
    obtain ⟨-, hs', hwaking'⟩ := frame_alone s a
    have hs' := hs'.trans hs
    have hwaking' := hwaking'.trans hwaking
    have hok := h.alone a
    by_cases hne : s.queue.contents = []
    · have hstay : ∀ as : List (Option (List Ready)), ∀ s : Posts α, s.queue.contents = [] →
          (as.foldl alone s).queue.contents = [] := fun as => by
        induction as with
        | nil => exact fun _ hs => hs
        | cons a as ih => exact fun s hs => ih _ (contents_alone hs a)
      exact hstay as _ (contents_alone hne a)
    by_cases ha : Announced s.loop
    · obtain ⟨ready, heq⟩ := alone_of_ne (fun hw => by rw [hw] at ha; exact ha) a
      obtain ⟨ha', hcost⟩ := announced_loopStep ha hs hne k ready
      rw [← heq] at ha' hcost
      exact ih (k := k) hok hs' hwaking' (not_exited_of_announced ha') (.inl ha') (by omega)
    -- the descriptor can be read, as nobody has yet to write
    have hcounter : s.counter ≠ 0 := by
      intro hc
      have hdraining : ¬Draining s.loop := by
        intro hd
        cases hl : s.loop <;> rw [hl] at hd ha <;> first | exact hd | exact ha trivial
      have hzero := h.awake hdraining hc
      rw [hwaking, Nat.le_zero, List.length_eq_zero_iff] at hzero
      exact hne hzero
    cases hprompt.resolve_left ha with
    | other hl has =>
      have hl := hl.resolve_right hcounter
      obtain ⟨ready, heq⟩ := alone_of_ne hl a
      obtain ⟨hcost, hexited'⟩ := cost_loopStep_of_ne hl ha hexited hs k ready
      rw [← heq] at hcost hexited'
      exact ih hok hs' hwaking' hexited' (.inr has) (by omega)
    | @reported _ _ ready _ hl hmem =>
      obtain ⟨-, hexited', hreport⟩ := cost_waiting hl k (some ready)
      obtain ⟨ha', hcost⟩ := hreport ready rfl hmem
      exact ih (k := k) hok hs' hwaking' hexited' (.inl ha') (by omega)
    | @missed k _ _ _ hl has =>
      obtain ⟨hcost, hexited', -⟩ := cost_waiting hl k a
      exact ih hok hs' hwaking' hexited' (.inr has) (by omega)

theorem ok_foldl_alone (h : s.Ok) (answers : List (Option (List Ready))) :
    (answers.foldl alone s).Ok ∧ (answers.foldl alone s).accepted = s.accepted := by
  induction answers generalizing s with
  | nil => exact ⟨h, rfl⟩
  | cons a as ih =>
    obtain ⟨hok, hacc⟩ := ih (h.alone a)
    exact ⟨hok, hacc.trans (frame_alone s a).1⟩

/-- In every order of the steps: the posts that were accepted were run in that order, each once, or
are still in the queue, of which there are at most 1024. While the loop sleeps with nothing to wake
it up, the threads of all those posts have yet to write, and so has one that stopped it. And once
all of them have written, the loop by itself runs every post within a number of steps, unless it
was stopped, whatever `epoll_wait` answers, if only it reports the wake-up after at most `k` other
answers. -/
theorem posts_run (items : Vector α postCap) (steps : List (Step α)) :
    (steps.foldl step (create items)).accepted =
        (steps.foldl step (create items)).ran ++ (steps.foldl step (create items)).queue.contents ∧
      (steps.foldl step (create items)).queue.contents.length ≤ postCap ∧
      ((steps.foldl step (create items)).loop = .waiting →
        (steps.foldl step (create items)).counter = 0 →
          (steps.foldl step (create items)).queue.contents.length ≤
              (steps.foldl step (create items)).waking ∧
            ((steps.foldl step (create items)).stopping = true →
              (steps.foldl step (create items)).waking ≠ 0)) ∧
      ((steps.foldl step (create items)).waking = 0 →
        (steps.foldl step (create items)).stopping = false →
          (steps.foldl step (create items)).loop ≠ .exited →
            ∀ k, ∃ n, ∀ answers : List (Option (List Ready)), n ≤ answers.length →
              Prompt k (steps.foldl step (create items)) answers →
                (answers.foldl alone (steps.foldl step (create items))).ran =
                  (steps.foldl step (create items)).accepted) := by
  have h := ok_run items steps
  generalize steps.foldl step (create items) = s at h
  refine ⟨h.order, ?_, fun hw hc => ⟨h.awake (by simp [hw, Draining]) hc, fun hs => ?_⟩, ?_⟩
  · exact (Lib.Ring.length_contents _).trans_le s.queue.ring.len_le
  · exact (h.stop hw hs).resolve_left (not_not_intro hc)
  · intro hwaking hs hexited k
    refine ⟨cost k s, fun answers hlen hprompt => ?_⟩
    have hnil := contents_foldl_alone h hs hwaking hexited (.inr hprompt) hlen
    obtain ⟨hok, hacc⟩ := ok_foldl_alone h answers
    have horder := hok.order
    rw [hnil, List.append_nil, hacc] at horder
    exact horder.symm

end Posts

end MagiTrickle.Platform
