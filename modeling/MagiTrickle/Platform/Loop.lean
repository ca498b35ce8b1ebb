import MagiTrickle.Core.Basic
import MagiTrickle.Lib.Runs

/-!
# The event loop (`platform/loop.c`)

The loop keeps its registrations as a list of watches; the kernel hands back a
pointer to the watch with each ready event. A watch is known here by the
allocation it lives in (`ptr`), and `free` makes a pointer dangle: `dispatch`
fails when it comes to an event whose watch is gone. Callbacks are arbitrary:
each is given by the operations it makes on the loop, in the state it is run in.
The kernel's answers are part of the operations.
-/

namespace MagiTrickle.Platform

open MagiTrickle.Lib

/-- `watch_kind_t`; the wake-up watch is embedded in the loop and never freed. -/
inductive WatchKind where
  | fd | timer | signal
  deriving DecidableEq, Repr

/-- `watch_t`; `cb` stands for the callback with its user data, `events` for the mask that the
kernel holds. -/
structure Watch (γ : Type) where
  ptr : Nat
  kind : WatchKind
  fd : Nat
  events : Nat
  /-- The timer id. -/
  id : Nat
  cb : γ
  deriving DecidableEq, Repr

/-- `mt_loop_t`. Every watch lies in an allocation made before. -/
structure Loop (γ : Type) where
  watches : List (Watch γ)
  nextTimerId : Nat
  /-- Allocations made so far. -/
  nextPtr : Nat
  sigfd : Option Nat
  stopping : Bool
  fresh : ∀ w ∈ watches, w.ptr < nextPtr

variable {γ σ : Type}

namespace Loop

/-- `mt_loop_create`. -/
def create : Loop γ where
  watches := []
  nextTimerId := 1
  nextPtr := 0
  sigfd := none
  stopping := false
  fresh := by simp

/-- `calloc`, `watch_register` and `watch_link`: on failure the new watch is freed at once. -/
def link (l : Loop γ) (kind : WatchKind) (fd events id : Nat) (cb : γ) (answer : Except Err Unit) :
    Loop γ × Except Err Unit :=
  match answer with
  | .error e => ({ l with
      nextPtr := l.nextPtr + 1
      fresh := fun w hw => Nat.lt_succ_of_lt (l.fresh w hw) }, .error e)
  | .ok () => ({ l with
      watches := ⟨l.nextPtr, kind, fd, events, id, cb⟩ :: l.watches
      nextPtr := l.nextPtr + 1
      fresh := by
        intro w hw
        rcases List.mem_cons.mp hw with rfl | hw
        · exact Nat.lt_succ_self _
        · exact Nat.lt_succ_of_lt (l.fresh w hw) }, .ok ())

/-- `watch_unlink` and `free` of the first watch that passes. -/
def unlink (l : Loop γ) (p : Watch γ → Bool) : Loop γ :=
  { l with
    watches := l.watches.eraseP p
    fresh := fun w hw => l.fresh w (List.mem_of_mem_eraseP hw) }

/-- The test of `find_fd_watch`. -/
def isFdWatch (fd : Nat) (w : Watch γ) : Bool := w.kind = .fd ∧ w.fd = fd

def isTimerWatch (id : Nat) (w : Watch γ) : Bool := w.kind = .timer ∧ w.id = id

/-- `mt_loop_add_fd`. -/
def addFd (l : Loop γ) (fd events : Nat) (cb : γ) (answer : Except Err Unit) :
    Loop γ × Except Err Unit :=
  l.link .fd fd events 0 cb answer

/-- `mt_loop_mod_fd`: only the kernel's mask changes. -/
def modFd (l : Loop γ) (fd events : Nat) (answer : Except Err Unit) : Loop γ × Except Err Unit :=
  if l.watches.any (isFdWatch fd) then
    match answer with
    | .error e => (l, .error e)
    | .ok () => ({ l with
        watches := l.watches.map fun w => if isFdWatch fd w then { w with events } else w
        fresh := by
          intro w hw
          obtain ⟨w', hw', rfl⟩ := List.mem_map.mp hw
          split
          · exact l.fresh w' hw'
          · exact l.fresh w' hw' }, .ok ())
  else (l, .error .noent)

/-- `mt_loop_del_fd`. -/
def delFd (l : Loop γ) (fd : Nat) (answer : Except Err Unit) : Loop γ × Except Err Unit :=
  if l.watches.any (isFdWatch fd) then
    match answer with
    | .error e => (l, .error e)
    | .ok () => (l.unlink (isFdWatch fd), .ok ())
  else (l, .error .noent)

/-- `mt_loop_add_timer` with the new timer descriptor or the error that prevents it; the id is taken
before the watch is registered. -/
def addTimer (l : Loop γ) (tfd : Except Err Nat) (cb : γ) (answer : Except Err Unit) :
    Loop γ × Except Err Nat :=
  match tfd with
  | .error e => (l, .error e)
  | .ok tfd =>
    let r := { l with nextTimerId := l.nextTimerId + 1 }.link .timer tfd 1 l.nextTimerId cb answer
    (r.1, r.2.map fun _ => l.nextTimerId)

/-- `mt_loop_del_timer`; the kernel's answer is ignored. -/
def delTimer (l : Loop γ) (id : Nat) : Loop γ × Except Err Unit :=
  if l.watches.any (isTimerWatch id) then (l.unlink (isTimerWatch id), .ok ())
  else (l, .error .noent)

/-- `mt_loop_add_signals`. -/
def addSignals (l : Loop γ) (sfd : Except Err Nat) (cb : γ) (answer : Except Err Unit) :
    Loop γ × Except Err Unit :=
  if l.sigfd.isSome then (l, .error .exist)
  else
    match sfd with
    | .error e => (l, .error e)
    | .ok sfd =>
      let r := l.link .signal sfd 1 0 cb answer
      match r.2 with
      | .error e => (r.1, .error e)
      | .ok () => ({ r.1 with sigfd := some sfd }, .ok ())

/-- `mt_loop_stop`. -/
def stop (l : Loop γ) : Loop γ := { l with stopping := true }

end Loop

/-- One call on the loop with the kernel's answers to it. -/
inductive LoopOp (γ : Type) where
  | addFd (fd events : Nat) (cb : γ) (answer : Except Err Unit)
  | modFd (fd events : Nat) (answer : Except Err Unit)
  | delFd (fd : Nat) (answer : Except Err Unit)
  | addTimer (tfd : Except Err Nat) (cb : γ) (answer : Except Err Unit)
  | delTimer (id : Nat)
  | addSignals (sfd : Except Err Nat) (cb : γ) (answer : Except Err Unit)
  | stop

def LoopOp.apply (l : Loop γ) : LoopOp γ → Loop γ
  | addFd fd events cb answer => (l.addFd fd events cb answer).1
  | modFd fd events answer => (l.modFd fd events answer).1
  | delFd fd answer => (l.delFd fd answer).1
  | addTimer tfd cb answer => (l.addTimer tfd cb answer).1
  | delTimer id => (l.delTimer id).1
  | addSignals sfd cb answer => (l.addSignals sfd cb answer).1
  | stop => l.stop

/-! ## Running -/

/-- What the callbacks of the program do: the calls they make on the loop, and their effect on the
rest of the program. `posts` are the callbacks queued for a wake-up. -/
structure Callbacks (γ σ : Type) where
  run : Watch γ → Nat → Loop γ → σ → List (LoopOp γ) × σ
  posts : Loop γ → σ → List (LoopOp γ) × σ

/-- `struct epoll_event`: the watch, `none` for the embedded wake-up watch, and the ready events. -/
structure Event where
  data : Option Nat
  events : Nat
  deriving DecidableEq, Repr

/-- A use of a freed watch. -/
structure Dangling where
  ptr : Nat
  deriving DecidableEq, Repr

/-- The program: the loop and everything else. -/
structure Prog (γ σ : Type) where
  loop : Loop γ
  rest : σ

def Prog.perform (s : Prog γ σ) (r : List (LoopOp γ) × σ) : Prog γ σ :=
  ⟨r.1.foldl LoopOp.apply s.loop, r.2⟩

/-- The body of the inner loop of `mt_loop_run`. -/
def dispatch (cbs : Callbacks γ σ) (s : Prog γ σ) (e : Event) : Except Dangling (Prog γ σ) :=
  if s.loop.stopping then .ok s
  else
    match e.data with
    | none => .ok (s.perform (cbs.posts s.loop s.rest))
    | some p =>
      match s.loop.watches.find? fun w => w.ptr = p with
      | none => .error ⟨p⟩
      | some w => .ok (s.perform (cbs.run w e.events s.loop s.rest))

/-- The inner loop of `mt_loop_run`. -/
def runBatch (cbs : Callbacks γ σ) (s : Prog γ σ) (batch : List Event) :
    Except Dangling (Prog γ σ) :=
  batch.foldlM (dispatch cbs) s

/-- One round of `mt_loop_run`, with the events that `epoll_wait` collects. -/
def loopRound (cbs : Callbacks γ σ) (wait : Nat → Prog γ σ → List Event) (s : Prog γ σ) (k : Nat) :
    Except Dangling (Prog γ σ) :=
  if s.loop.stopping then .ok s else runBatch cbs s (wait k s)

/-- The first `n` rounds of `mt_loop_run`. -/
def loopRun (cbs : Callbacks γ σ) (wait : Nat → Prog γ σ → List Event) :
    Nat → Prog γ σ → Except Dangling (Prog γ σ)
  | 0, s => .ok s
  | n + 1, s => (loopRun cbs wait n s).bind fun s' => loopRound cbs wait s' n

end MagiTrickle.Platform
