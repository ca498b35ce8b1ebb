import Mathlib.Data.List.Infix
import MagiTrickle.Platform.ByteBuf

/-!
# The processes behind the engine (`iptables/executable_real.c`)

`real_save` and `real_restore` start a process and serve its three pipes from
one `poll` loop, while the process reads, writes, closes and exits as it likes
and another thread may raise the token. A state is that of both sides and of the
pipes; a step is the next system call of the daemon, or something the process or
the other thread does.
-/

namespace MagiTrickle.Iptables

open Platform (ByteBuf)

/-! ## Pipes -/

structure Pipe where
  bytes : Bytes
  reader : Bool
  writer : Bool

namespace Pipe

/-- `pipe`. -/
def new : Pipe := ⟨[], true, true⟩

def readable (p : Pipe) : Bool := p.bytes ≠ [] || !p.writer

def writable (cap : Nat) (p : Pipe) : Bool := p.bytes.length < cap || !p.reader

end Pipe

/-- What a system call of the daemon answers: a number of bytes or descriptors, `EAGAIN` or
`EINTR`, or some other error. -/
inductive Answer where
  | count (n : Nat)
  | again
  | fail (e : Err)
  deriving DecidableEq, Repr

/-- One output of the process. `written` and `got` are what the process has written and the daemon
has read so far. -/
structure Output where
  pipe : Pipe
  eof : Bool
  written : Bytes
  got : Bytes

namespace Output

def new : Output := ⟨.new, false, [], []⟩

def write (cap : Nat) (o : Output) (bs : Bytes) : Output :=
  if o.pipe.writer && o.pipe.reader && o.pipe.bytes.length + bs.length ≤ cap then
    { o with pipe := { o.pipe with bytes := o.pipe.bytes ++ bs }, written := o.written ++ bs }
  else o

def closeWriter (o : Output) : Output := { o with pipe := { o.pipe with writer := false } }

def closeReader (o : Output) : Output := { o with pipe := { o.pipe with reader := false } }

/-- The number of bytes that a `read` of at most `size` gets, if the kernel hands out `n`. -/
def readSize (o : Output) (size n : Nat) : Nat := max 1 (min n size)

/-- `read` in the loop: the output behind it, and the bytes. -/
def read (o : Output) (size n : Nat) : Output × Bytes :=
  if o.pipe.bytes = [] then (if o.pipe.writer then o else { o with eof := true }, [])
  else
    let bs := o.pipe.bytes.take (o.readSize size n)
    ({ o with
      pipe := { o.pipe with bytes := o.pipe.bytes.drop (o.readSize size n) }
      got := o.got ++ bs }, bs)

end Output

/-! ## The daemon and the process -/

/-- What the two functions differ in: what goes to the process, whether its output is kept, and how
much of it is read at a time. -/
structure Job where
  script : Bytes
  capture : Bool
  chunk : Nat

/-- `real_save`. -/
def realSave : Job := ⟨[], true, 4096⟩

/-- `real_restore`. -/
def realRestore (data : Bytes) : Job := ⟨data, false, 1024⟩

/-- Where the daemon stands. The flags are descriptors that `poll` reported and that are still to be
served; `pollout` is that bit of the pipe to the process. -/
inductive At where
  | poll
  | stdin (pollout out err : Bool)
  | stdout (err : Bool)
  | stderr
  /-- In front of `kill_child`. -/
  | kill
  /-- In `wait_child`. -/
  | wait
  | returned (err : Option Err)
  /-- Killed by `SIGPIPE`. -/
  | dead
  deriving DecidableEq, Repr

/-- The system around the job: the size of a pipe, and whether `SIGPIPE` is ignored. -/
structure Host where
  cap : Nat
  ignore : Bool
  pos : 0 < cap

structure Exec where
  host : Host
  job : Job
  loc : At
  stdin : Pipe
  stdout : Output
  stderr : Output
  /-- Bytes of the script that were written. -/
  written : Nat
  stdinDone : Bool
  outBuf : ByteBuf
  limited : Bool
  errBuf : ByteBuf
  err : Option Err
  canceled : Bool
  /-- The descriptor of the token is readable. -/
  token : Bool
  /-- The status of the process, once it is gone. -/
  exited : Option Nat
  /-- What the process has read. -/
  taken : Bytes

/-- `MT_IPT_STDERR_CAP`. -/
def stderrCap : Nat := 256 * 1024

/-- `k_retryable_messages`. -/
def retryableMessages : List Bytes :=
  [str "No chain/target/match by that name", str "No such file or directory",
    str "Chain already exists", str "does a rule with that number exist",
    str "Resource temporarily unavailable", str "Device or resource busy",
    str "holding the xtables lock", str "doesn't exist", str "does not exist"]

/-- `stderr_is_retryable`. -/
def stderrIsRetryable (b : ByteBuf) : Bool :=
  let scratch := (b.data.take 4095).takeWhile (· ≠ 0)
  b.data ≠ [] && retryableMessages.any fun m => decide (m <:+: scratch)

def sigkill : Nat := 9

namespace Exec

def leave (s : Exec) : Exec :=
  { s with
    stdin := { s.stdin with writer := false }
    stdout := s.stdout.closeReader
    stderr := s.stderr.closeReader
    loc := if s.canceled then .kill else .wait }

def fail (s : Exec) (e : Err) : Exec := leave { s with err := some e }

/-- The process has been started; `nonblock` is the error if `set_nonblock` fails. -/
def start (host : Host) (job : Job) (nonblock : Option Err) : Exec :=
  let s : Exec :=
    { host, job
      loc := .poll
      stdin := { Pipe.new with writer := job.script ≠ [] }
      stdout := .new
      stderr := .new
      written := 0
      stdinDone := job.script = []
      outBuf := .init
      limited := false
      errBuf := .initBounded stderrCap
      err := none
      canceled := false
      token := false
      exited := none
      taken := [] }
  match nonblock with
  | none => s
  | some e => s.fail e

def next (out err : Bool) : At := if out then .stdout err else if err then .stderr else .poll

def inReady (s : Exec) : Bool := !s.stdinDone && s.stdin.writable s.host.cap

def outReady (s : Exec) : Bool := !s.stdout.eof && s.stdout.pipe.readable

def errReady (s : Exec) : Bool := !s.stderr.eof && s.stderr.pipe.readable

def served (s : Exec) : Bool := s.stdinDone && s.stdout.eof && s.stderr.eof

/-- `poll` has nothing to report. -/
def quiet (s : Exec) : Bool := !s.inReady && !s.outReady && !s.errReady && !s.token

def pollStep (s : Exec) (a : Answer) : Exec :=
  if s.served then s.leave
  else match a with
    | .fail e => s.fail e
    | .again => s
    | .count _ =>
      if s.quiet then s
      else if s.token then leave { s with canceled := true }
      else if s.inReady then
        { s with loc := .stdin (s.stdin.bytes.length < s.host.cap) s.outReady s.errReady }
      else { s with loc := next s.outReady s.errReady }

/-- `close(stdin_wr)` in the loop. -/
def closeStdin (s : Exec) : Exec :=
  { s with stdin := { s.stdin with writer := false }, stdinDone := true }

/-- What a `write` of the rest of the script puts into the pipe, if the kernel takes `n` bytes. -/
def writeSize (s : Exec) (n : Nat) : Nat :=
  min n (min (s.job.script.length - s.written) (s.host.cap - s.stdin.bytes.length))

/-- A `write` that succeeds. -/
def wrote (s : Exec) (k : Nat) : Exec :=
  let s' := { s with
    stdin := { s.stdin with bytes := s.stdin.bytes ++ (s.job.script.drop s.written).take k }
    written := s.written + k }
  if s'.written = s'.job.script.length then s'.closeStdin else s'

def stdinStep (s : Exec) (pollout out err : Bool) (a : Answer) : Exec :=
  if !pollout then { s.closeStdin with loc := next out err }
  else if !s.stdin.reader then
    if s.host.ignore then { s.closeStdin with loc := next out err }
    else { s with loc := .dead }
  else match a with
    | .fail e => s.fail e
    | .again => { s with loc := next out err }
    | .count n => { s.wrote (s.writeSize n) with loc := next out err }

def keep (s : Exec) (bs : Bytes) : Exec :=
  if s.job.capture && !s.limited then
    match s.outBuf.append bs with
    | .ok b => { s with outBuf := b }
    | .error _ => { s with limited := true }
  else s

def stdoutStep (s : Exec) (err : Bool) (a : Answer) : Exec :=
  match a with
  | .fail e => s.fail e
  | .again => { s with loc := next false err }
  | .count n =>
    let (o, bs) := s.stdout.read s.job.chunk n
    { keep { s with stdout := o } bs with loc := next false err }

def stderrStep (s : Exec) (a : Answer) : Exec :=
  match a with
  | .fail e => s.fail e
  | .again => { s with loc := .poll }
  | .count n =>
    let (o, bs) := s.stderr.read 1024 n
    { s with
      stderr := o
      errBuf := match s.errBuf.append bs with
        | .ok b => b
        | .error _ => s.errBuf
      loc := .poll }

def exit (s : Exec) (status : Nat) : Exec :=
  match s.exited with
  | some _ => s
  | none =>
    { s with
      stdin := { s.stdin with reader := false }
      stdout := s.stdout.closeWriter
      stderr := s.stderr.closeWriter
      exited := some status }

/-- `kill_child`. -/
def killChild (s : Exec) : Exec := { s.exit sigkill with loc := .returned (some .canceled) }

/-- What `wait_child` returns for a process that has gone. -/
def waitChild (s : Exec) (status : Nat) : Option Err :=
  if status = 0 then none
  else if stderrIsRetryable s.errBuf then some .again
  else some .io

def result (s : Exec) (waitErr : Option Err) : Option Err :=
  match s.err with
  | some e => some e
  | none =>
    match waitErr with
    | some e => some e
    | none => if s.job.capture && s.limited then some .limit else none

def waitStep (s : Exec) (a : Answer) : Exec :=
  match a with
  | .again => s
  | .fail e => { s with loc := .returned (s.result (some e)) }
  | .count _ =>
    match s.exited with
    | none => s
    | some status => { s with loc := .returned (s.result (s.waitChild status)) }

/-- The next system call of the daemon. -/
def daemon (s : Exec) (a : Answer) : Exec :=
  match s.loc with
  | .poll => s.pollStep a
  | .stdin pollout out err => s.stdinStep pollout out err a
  | .stdout err => s.stdoutStep err a
  | .stderr => s.stderrStep a
  | .kill => s.killChild
  | .wait => s.waitStep a
  | .returned _ => s
  | .dead => s

def readStdin (s : Exec) (n : Nat) : Exec :=
  if s.stdin.reader then
    { s with
      stdin := { s.stdin with bytes := s.stdin.bytes.drop n }
      taken := s.taken ++ s.stdin.bytes.take n }
  else s

inductive Step where
  | daemon (a : Answer)
  /-- The process reads at most `n` bytes. -/
  | read (n : Nat)
  | writeOut (bs : Bytes)
  | writeErr (bs : Bytes)
  | closeIn
  | closeOut
  | closeErr
  | exit (status : Nat)
  /-- The token is raised or cleared. -/
  | token (raised : Bool)
  deriving DecidableEq, Repr

def step (s : Exec) : Step → Exec
  | .daemon a => s.daemon a
  | .read n => s.readStdin n
  | .writeOut bs => { s with stdout := s.stdout.write s.host.cap bs }
  | .writeErr bs => { s with stderr := s.stderr.write s.host.cap bs }
  | .closeIn => { s with stdin := { s.stdin with reader := false } }
  | .closeOut => { s with stdout := s.stdout.closeWriter }
  | .closeErr => { s with stderr := s.stderr.closeWriter }
  | .exit status => s.exit status
  | .token raised => { s with token := raised }

/-- The next call of the daemon does not return, as things are. -/
def waits (s : Exec) : Bool :=
  match s.loc with
  | .poll => !s.served && s.quiet
  | .wait => s.exited.isNone
  | _ => false

/-- No read and no write of the process has to wait. -/
def free (s : Exec) : Bool :=
  s.stdin.readable && s.stdout.pipe.writable s.host.cap && s.stderr.pipe.writable s.host.cap

/-- The daemon is through with the job. -/
def final (s : Exec) : Bool :=
  match s.loc with
  | .returned _ => true
  | .dead => true
  | _ => false

def run (host : Host) (job : Job) (nonblock : Option Err) (steps : List Step) : Exec :=
  steps.foldl step (start host job nonblock)

end Exec

end MagiTrickle.Iptables
