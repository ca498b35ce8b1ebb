import MagiTrickle.Core.Basic

/-!
# The netfilter committer (`netfilter/committer.c`)

A thread that rebuilds the tables when asked to. A section under the mutex of
`mt_nfcommit_t` is one step, and so are raising and clearing the cancellation
token, which happen outside of it. Callers and the thread take their steps in
any order.
-/

namespace MagiTrickle.Netfilter.Committer

/-! ## The machine -/

/-- Where `committer_main` stands. -/
inductive Worker where
  /-- There is no thread. -/
  | absent
  /-- Before the section that waits for a request. -/
  | top
  /-- In `pthread_cond_wait`. -/
  | waiting
  /-- Before the section of `settle`. -/
  | settle
  /-- In `pthread_cond_timedwait`. -/
  | settling
  /-- Before the section that starts a pass. -/
  | begin
  /-- Before `mt_cancel_clear`. -/
  | clear
  /-- In the rebuild callback. -/
  | rebuild
  /-- The callback has returned, `none` for `MT_OK`. -/
  | finish (err : Option Err)
  /-- Before the section that owes another pass. -/
  | rearm
  /-- The thread has ended. -/
  | exited
  deriving DecidableEq, Repr

/-- `struct mt_nfcommit`, with the thread and the callers under way. -/
structure Nfcommit where
  started : Bool
  stopping : Bool
  pending : Bool
  running : Bool
  passes : Nat
  delayMs : UInt32
  maxDelayMs : UInt32
  /-- The token is raised. -/
  cancel : Bool
  worker : Worker
  /-- The `delay_ms` of the thread. -/
  delay : UInt32
  /-- The wait of the thread was signalled. -/
  signaled : Bool
  /-- Callers that are past their section and will raise the token. -/
  raising : Nat
  deriving DecidableEq, Repr

/-- `MT_NFCOMMIT_DELAY_MS` -/
def defaultDelayMs : UInt32 := 150

/-- `MT_NFCOMMIT_MAX_DELAY_MS` -/
def defaultMaxDelayMs : UInt32 := 5000

/-- `mt_nfcommit_new`; the delays are the default ones outside of tests. -/
def new (delayMs maxDelayMs : UInt32) : Nfcommit where
  started := false
  stopping := false
  pending := false
  running := false
  passes := 0
  delayMs
  maxDelayMs
  cancel := false
  worker := .absent
  delay := delayMs
  signaled := false
  raising := 0

inductive Ev where
  | start
  | request
  | interrupt
  | stop
  /-- A caller raises the token. -/
  | raise
  /-- `pthread_join` returns in `mt_nfcommit_stop`. -/
  | join
  /-- The next section of the thread. -/
  | work
  /-- A wait of the thread ends. -/
  | wake (timedOut : Bool)
  /-- The rebuild callback returns. -/
  | returned (err : Option Err)
  deriving DecidableEq, Repr

/-- `pthread_cond_signal`: the thread is the only one that waits. -/
def signal (c : Nfcommit) : Nfcommit :=
  if c.worker = .waiting then { c with signaled := true } else c

/-- The section of `mt_nfcommit_request`. -/
def request (c : Nfcommit) : Nfcommit :=
  signal { c with
    pending := true
    raising := if c.running then c.raising + 1 else c.raising }

/-- The section of `mt_nfcommit_interrupt`. -/
def interrupt (c : Nfcommit) : Nfcommit :=
  { c with raising := if c.running then c.raising + 1 else c.raising }

/-- The section of `mt_nfcommit_stop`. -/
def stop (c : Nfcommit) : Nfcommit :=
  if ¬ c.started then c else signal { c with stopping := true, raising := c.raising + 1 }

/-- The loop around `pthread_cond_wait`, and what follows it. -/
def await (c : Nfcommit) : Nfcommit :=
  if c.stopping then { c with worker := .exited }
  else if c.pending then { c with worker := .settle }
  else { c with worker := .waiting, signaled := false }

/-- The delay after a pass. -/
def nextDelay (c : Nfcommit) : Option Err → UInt32
  | none => c.delayMs
  | some .canceled => c.delayMs
  | some .again => c.delayMs
  | some _ => if c.delay * 2 < c.maxDelayMs then c.delay * 2 else c.maxDelayMs

/-- The section after a pass, up to the next one. -/
def finish (c : Nfcommit) (err : Option Err) : Nfcommit :=
  if c.stopping then { c with running := false, worker := .exited }
  else
    { c with
      running := false
      delay := nextDelay c err
      worker := if err = none then .top else .rearm }

/-- The next section of the thread. -/
def work (c : Nfcommit) : Option Nfcommit :=
  match c.worker with
  | .top => some (await c)
  | .settle => some { c with worker := if c.stopping then .exited else .settling }
  | .begin =>
    some (if c.stopping then { c with worker := .exited }
      else { c with pending := false, running := true, passes := c.passes + 1, worker := .clear })
  | .clear => some { c with cancel := false, worker := .rebuild }
  | .finish err => some (finish c err)
  | .rearm => some { c with pending := true, worker := .top }
  | .absent | .waiting | .settling | .rebuild | .exited => none

/-- The end of a wait, up to the next section. -/
def wake (c : Nfcommit) (timedOut : Bool) : Option Nfcommit :=
  match c.worker with
  | .waiting => some (await c)
  | .settling =>
    some { c with
      worker := if c.stopping then .exited else if timedOut then .begin else .settling }
  | _ => none

def step (c : Nfcommit) : Ev → Option Nfcommit
  | .start =>
    some (if c.started then c
      else { c with started := true, worker := .top, delay := c.delayMs })
  | .request => some (request c)
  | .interrupt => some (interrupt c)
  | .stop => some (stop c)
  | .raise => if 0 < c.raising then some { c with cancel := true, raising := c.raising - 1 } else none
  | .join =>
    if c.worker = .exited then some { c with started := false, worker := .absent } else none
  | .work => work c
  | .wake timedOut => wake c timedOut
  | .returned err => if c.worker = .rebuild then some { c with worker := .finish err } else none

/-- A run, `none` when an event cannot happen. -/
def run (c : Nfcommit) (evs : List Ev) : Option Nfcommit := evs.foldlM step c

end MagiTrickle.Netfilter.Committer
