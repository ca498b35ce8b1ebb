import MagiTrickle.Core.Basic
import MagiTrickle.Lib.Ledger

/-!
# The exchanges of the DNS proxy (`dns/proxy.c`)

Every request over UDP or TCP is an exchange with its descriptors: a socket to
the upstream, the client's connection, a timer. It is carried on by callbacks of
the event loop until `exchange_finish`, or one of the listeners, frees it. The
kernel, the allocator and the codec answer as the events say (`Env`).

The loop has a callback and an exchange for every registered descriptor
(`watch`), and calls back for these only; which events it waits for does not
matter here. A timer that has fired stays registered until it is deleted.
-/

namespace MagiTrickle.Dns.Transport

open MagiTrickle.Lib

inductive Cb where
  | onTcpClientRead | onClientWritable | onUpstream | onUpstreamWritable
  deriving DecidableEq, Repr

/-- `exchange_t`: buffers are their lengths, `none` for the null pointer; `timer` is the descriptor
behind `timer_id`. -/
structure Exchange where
  /-- Stands for the pointer. -/
  id : Nat
  isTcp : Bool
  upstreamFd : Option Nat
  timer : Option Nat
  connecting : Bool
  req : Option Nat
  reqSent : Nat
  reqGot : Nat
  clientFd : Option Nat
  lenGot : Nat
  resp : Option Nat
  respGot : Nat
  out : Option Nat
  outSent : Nat
  deriving DecidableEq, Repr

/-- `mt_dnsproxy_t` with its registrations in the loop. -/
structure Dnsproxy where
  maxConcurrent : UInt32
  disableFakePtr : Bool
  disableDropAaaa : Bool
  /-- The descriptors, with `udp_pool`. -/
  fds : Ledger
  watch : Nat → Option (Cb × Nat)
  /-- Timers that have fired and are still registered. -/
  fired : List Nat
  inflight : UInt64
  dropped : UInt64
  /-- Exchanges allocated so far. -/
  nextEx : Nat
  /-- Exchanges that have been freed. -/
  finished : List Nat

/-! ## Answers of the kernel, the allocator and the codec -/

/-- `recv` or `send`: bytes moved, nothing for now, or an error; the end of the stream counts as
one. -/
inductive Io where
  | moved (n : Nat)
  | again
  | failed
  deriving DecidableEq, Repr

inductive Connect where
  | ok | inProgress | failed
  deriving DecidableEq, Repr

structure Env where
  /-- `EPOLLERR` or `EPOLLHUP`. -/
  broken : Bool
  /-- `SO_ERROR` after a connect. -/
  sockError : Bool
  lenIo : List Io
  /-- The value of the two bytes of the length. -/
  len : UInt16
  /-- `malloc` of the buffer of that length, or of a request. -/
  mem : Bool
  /-- `calloc` of an exchange. -/
  exMem : Bool
  io : List Io
  /-- `mt_loop_add_fd` for the callback that is switched to. -/
  rearmed : Bool
  parses : Bool
  packs : Bool
  /-- `malloc` of the bytes for the client. -/
  outMem : Bool
  outLen : Nat
  /-- `mt_dns_is_single_ptr_query`. -/
  singlePtr : Bool
  /-- `mt_dns_make_fake_ptr_response`. -/
  fakePtr : Bool
  /-- `malloc` of the framed request. -/
  framed : Bool
  socket : Bool
  connect : Connect
  send : Io
  registered : Bool
  /-- `mt_loop_add_timer`; a descriptor that it could not register it has closed. -/
  timer : Bool
  deriving DecidableEq, Repr

/-- How a loop around `recv` or `send` ends. -/
inductive Status where
  | done | again | failed
  deriving DecidableEq, Repr

/-- The loops that move bytes until there are `want`. -/
def transfer (want : Nat) : Nat → List Io → Nat × Status
  | got, [] => (got, if got < want then .again else .done)
  | got, io :: ios =>
    if want ≤ got then (got, .done)
    else
      match io with
      | .moved n => transfer want (got + min n (want - got)) ios
      | .again => (got, .again)
      | .failed => (got, .failed)

/-! ## The loop -/

namespace Dnsproxy

/-- `mt_loop_add_fd`; a descriptor that is registered is refused. -/
def addFd (p : Dnsproxy) (fd : Nat) (cb : Cb) (ex : Nat) (registered : Bool) : Option Dnsproxy :=
  if registered ∧ p.watch fd = none then
    some { p with watch := Function.update p.watch fd (some (cb, ex)) }
  else none

/-- `mt_loop_del_fd`. -/
def delFd (p : Dnsproxy) (fd : Nat) : Dnsproxy :=
  { p with watch := Function.update p.watch fd none }

def close (p : Dnsproxy) (fd : Nat) : Dnsproxy := { p with fds := p.fds.close fd }

/-- `pool_put`. -/
def poolPut (p : Dnsproxy) (fd : Nat) : Dnsproxy := { p with fds := p.fds.park fd }

/-- `socket`, `accept4` or `timerfd_create`: the descriptor is `p.fds.next`. -/
def opened (p : Dnsproxy) : Dnsproxy := { p with fds := p.fds.opened }

end Dnsproxy

abbrev Result := Dnsproxy × Option Exchange

/-! ## The end of an exchange -/

/-- The part of `exchange_finish` that deletes the timer. -/
def dropTimer (p : Dnsproxy) (ex : Exchange) : Dnsproxy :=
  match ex.timer with
  | none => p
  | some t => p.close t

def dropUpstream (p : Dnsproxy) (ex : Exchange) (poolUpstream : Bool) : Dnsproxy :=
  match ex.upstreamFd with
  | none => p
  | some fd => if poolUpstream ∧ ¬ ex.isTcp then (p.delFd fd).poolPut fd else (p.delFd fd).close fd

def dropClient (p : Dnsproxy) (ex : Exchange) : Dnsproxy :=
  match ex.clientFd with
  | none => p
  | some fd => (p.delFd fd).close fd

/-- The counter is taken down and the exchange freed. -/
def release (p : Dnsproxy) (ex : Exchange) : Dnsproxy :=
  { p with inflight := p.inflight - 1, finished := p.finished ++ [ex.id] }

/-- `exchange_finish`. -/
def exchangeFinish (p : Dnsproxy) (ex : Exchange) (poolUpstream : Bool) : Result :=
  (release (dropClient (dropUpstream (dropTimer p ex) ex poolUpstream) ex) ex, none)

/-- `on_timeout`: the timer's id is forgotten. -/
def onTimeout (p : Dnsproxy) (ex : Exchange) : Result :=
  exchangeFinish { p with fired := ex.timer.toList ++ p.fired } { ex with timer := none } false

/-! ## Responses -/

/-- `deliver_response`. -/
def deliverResponse (p : Dnsproxy) (ex : Exchange) (env : Env) : Result :=
  if ¬ env.parses then exchangeFinish p ex false
  else if ¬ p.disableDropAaaa ∧ ¬ env.packs then exchangeFinish p ex false
  else if ex.isTcp then
    if ¬ env.outMem then exchangeFinish p ex false
    else
      let ex' := { ex with out := some (env.outLen + 2), outSent := 0, upstreamFd := none }
      match ex.upstreamFd with
      | none => (p, some ex')
      | some fd => ((p.delFd fd).close fd, some ex')
  else exchangeFinish p ex true

/-- The end of `on_upstream` for TCP, with the length read. -/
def readResponse (p : Dnsproxy) (ex : Exchange) (env : Env) : Result :=
  let start : Option Exchange :=
    match ex.resp with
    | some _ => some ex
    | none => if env.len = 0 ∨ ¬ env.mem then none else some { ex with resp := some env.len.toNat }
  match start with
  | none => exchangeFinish p ex false
  | some ex =>
    let (got, st) := transfer (ex.resp.getD 0) ex.respGot env.io
    let ex := { ex with respGot := got }
    match st with
    | .again => (p, some ex)
    | .failed => exchangeFinish p ex false
    | .done => deliverResponse p ex env

/-- `on_upstream`. -/
def onUpstream (p : Dnsproxy) (ex : Exchange) (env : Env) : Result :=
  if env.broken then exchangeFinish p ex false
  else if ex.isTcp ∧ ex.connecting then
    if env.sockError then exchangeFinish p ex false else (p, some { ex with connecting := false })
  else if ¬ ex.isTcp then
    match env.io.head? with
    | none | some .again => (p, some ex)
    | some .failed => exchangeFinish p ex false
    | some (.moved _) => deliverResponse p ex env
  else
    let (got, st) := transfer 2 ex.lenGot env.lenIo
    let ex := { ex with lenGot := got }
    match st with
    | .again => (p, some ex)
    | .failed => exchangeFinish p ex false
    | .done => readResponse p ex env

/-- `on_upstream_writable`. -/
def onUpstreamWritable (p : Dnsproxy) (ex : Exchange) (fd : Nat) (env : Env) : Result :=
  if env.broken then exchangeFinish p ex false
  else if ex.isTcp ∧ ex.connecting ∧ env.sockError then exchangeFinish p ex false
  else
    let (sent, st) := transfer (ex.req.getD 0) ex.reqSent env.io
    let ex := { ex with connecting := ex.connecting && !ex.isTcp, reqSent := sent }
    match st with
    | .again => (p, some ex)
    | .failed => exchangeFinish p ex false
    | .done =>
      match (p.delFd fd).addFd fd .onUpstream ex.id env.rearmed with
      | none => exchangeFinish (p.delFd fd) ex false
      | some p => (p, some ex)

/-- `on_client_writable`. -/
def onClientWritable (p : Dnsproxy) (ex : Exchange) (env : Env) : Result :=
  if env.broken then exchangeFinish p ex false
  else
    let (sent, st) := transfer (ex.out.getD 0) ex.outSent env.io
    let ex := { ex with outSent := sent }
    match st with
    | .again => (p, some ex)
    | .failed => exchangeFinish p ex false
    | .done => exchangeFinish p ex false

/-! ## Requests -/

/-- The end of `start_upstream`. -/
def addTimer (p : Dnsproxy) (ex : Exchange) (env : Env) : Result :=
  if env.timer then (p.opened, some { ex with timer := some p.fds.next })
  else exchangeFinish p ex false

/-- `start_upstream` for TCP. -/
def startTcp (p : Dnsproxy) (ex : Exchange) (env : Env) : Result :=
  if ¬ env.framed then exchangeFinish p ex false
  else
    let ex := { ex with req := ex.req.map (· + 2), reqSent := 0 }
    if ¬ env.socket then exchangeFinish p ex false
    else
      let ex := { ex with upstreamFd := some p.fds.next }
      if env.connect = .failed then exchangeFinish p.opened ex false
      else
        let ex := { ex with connecting := env.connect = .inProgress }
        match p.opened.addFd p.fds.next .onUpstreamWritable ex.id env.registered with
        | none => exchangeFinish p.opened ex false
        | some p => addTimer p ex env

/-- The bytes that one `send` has moved. -/
def sentNow (want : Nat) : Io → Nat
  | .moved n => min n want
  | _ => 0

/-- `start_upstream` for UDP, with a socket. -/
def sendUdp (p : Dnsproxy) (ex : Exchange) (fd : Nat) (env : Env) : Result :=
  let ex := { ex with upstreamFd := some fd }
  if env.send = .failed then exchangeFinish p ex false
  else
    let sent := sentNow (ex.req.getD 0) env.send
    let ex := { ex with reqSent := sent }
    let cb := if sent < ex.req.getD 0 then Cb.onUpstreamWritable else .onUpstream
    match p.addFd fd cb ex.id env.registered with
    | none => exchangeFinish p ex false
    | some p => addTimer p ex env

/-- `start_upstream` for UDP. -/
def startUdp (p : Dnsproxy) (ex : Exchange) (env : Env) : Result :=
  match p.fds.take with
  | some (fd, fds) => sendUdp { p with fds } ex fd env
  | none =>
    if ¬ env.socket then exchangeFinish p ex false
    else if env.connect ≠ .ok then exchangeFinish (p.opened.close p.fds.next) ex false
    else sendUdp p.opened ex p.fds.next env

/-- `start_upstream`. -/
def startUpstream (p : Dnsproxy) (ex : Exchange) (env : Env) : Result :=
  let ex := { ex with lenGot := 0, respGot := 0 }
  if ex.isTcp then startTcp p ex env else startUdp p ex env

/-- `request_disp_t`, with the length of what is queued for the client. -/
inductive Disp where
  | drop
  | repliedAsync (out : Nat)
  | forward
  deriving DecidableEq, Repr

/-- `handle_request_common`. -/
def handleRequestCommon (p : Dnsproxy) (ex : Exchange) (env : Env) : Disp :=
  if ¬ env.parses then .drop
  else if ¬ p.disableFakePtr ∧ env.singlePtr then
    if ¬ env.fakePtr then .drop
    else if ex.isTcp then (if env.outMem then .repliedAsync (env.outLen + 2) else .drop)
    else .drop
  else .forward

/-- The end of `on_tcp_client_read`, with the request read. -/
def requestRead (p : Dnsproxy) (ex : Exchange) (fd : Nat) (env : Env) : Result :=
  match (p.delFd fd).addFd fd .onClientWritable ex.id env.rearmed with
  | none => exchangeFinish (p.delFd fd) ex false
  | some p =>
    match handleRequestCommon p ex env with
    | .drop => exchangeFinish p ex false
    | .repliedAsync out => (p, some { ex with out := some out })
    | .forward => startUpstream p ex env

/-- `on_tcp_client_read` with the length read. -/
def readRequest (p : Dnsproxy) (ex : Exchange) (fd : Nat) (env : Env) : Result :=
  let start : Option Exchange :=
    match ex.req with
    | some _ => some ex
    | none =>
      if env.len = 0 ∨ ¬ env.mem then none
      else some { ex with req := some env.len.toNat, reqGot := 0 }
  match start with
  | none => exchangeFinish p ex false
  | some ex =>
    let (got, st) := transfer (ex.req.getD 0) ex.reqGot env.io
    let ex := { ex with reqGot := got }
    match st with
    | .again => (p, some ex)
    | .failed => exchangeFinish p ex false
    | .done => requestRead p ex fd env

/-- `on_tcp_client_read`. -/
def onTcpClientRead (p : Dnsproxy) (ex : Exchange) (fd : Nat) (env : Env) : Result :=
  if env.broken then exchangeFinish p ex false
  else
    let (got, st) := transfer 2 ex.lenGot env.lenIo
    let ex := { ex with lenGot := got }
    match st with
    | .again => (p, some ex)
    | .failed => exchangeFinish p ex false
    | .done => readRequest p ex fd env

/-! ## Listeners -/

/-- An exchange after `calloc`. -/
def newExchange (id : Nat) (isTcp : Bool) (clientFd req : Option Nat) : Exchange where
  id
  isTcp
  upstreamFd := none
  timer := none
  connecting := false
  req
  reqSent := 0
  reqGot := 0
  clientFd
  lenGot := 0
  resp := none
  respGot := 0
  out := none
  outSent := 0

def Dnsproxy.full (p : Dnsproxy) : Bool := p.inflight ≥ p.maxConcurrent.toUInt64

/-- An exchange is allocated and counted. -/
def Dnsproxy.counted (p : Dnsproxy) : Dnsproxy :=
  { p with inflight := p.inflight + 1, nextEx := p.nextEx + 1 }

/-- The body of the loop of `on_udp_readable`, for a datagram of `n` bytes. -/
def onUdpReadable (p : Dnsproxy) (n : Nat) (env : Env) : Result :=
  if p.full then ({ p with dropped := p.dropped + 1 }, none)
  else if ¬ env.exMem ∨ ¬ env.mem then (p, none)
  else
    let ex := newExchange p.nextEx false none (some n)
    match handleRequestCommon p.counted ex env with
    | .forward => startUpstream p.counted ex env
    | _ => (release p.counted ex, none)

/-- The body of the loop of `on_tcp_accept`, for a connection. -/
def onTcpAccept (p : Dnsproxy) (env : Env) : Result :=
  let cfd := p.fds.next
  let p := p.opened
  if p.full then ({ p.close cfd with dropped := p.dropped + 1 }, none)
  else if ¬ env.exMem then (p.close cfd, none)
  else
    let ex := newExchange p.nextEx true (some cfd) none
    match p.counted.addFd cfd .onTcpClientRead ex.id env.registered with
    | none => ((release p.counted ex).close cfd, none)
    | some p => (p, some ex)

/-! ## Runs -/

structure State where
  proxy : Dnsproxy
  live : List Exchange

/-- `mt_dnsproxy_create`. -/
def create (maxConcurrent : UInt32) (maxIdleConns : Nat) (disableFakePtr disableDropAaaa : Bool) :
    State where
  proxy :=
    { maxConcurrent
      disableFakePtr
      disableDropAaaa
      fds := .empty maxIdleConns
      watch := fun _ => none
      fired := []
      inflight := 0
      dropped := 0
      nextEx := 0
      finished := [] }
  live := []

inductive Ev where
  /-- A datagram of a client. -/
  | datagram (n : Nat) (env : Env)
  /-- A connection of a client. -/
  | accept (env : Env)
  /-- A registered descriptor is ready. -/
  | ready (fd : Nat) (env : Env)
  /-- The timer of an exchange fires. -/
  | timeout (id : Nat)
  | setDisableFlags (disableFakePtr disableDropAaaa : Bool)

def callback (p : Dnsproxy) (ex : Exchange) (cb : Cb) (fd : Nat) (env : Env) : Result :=
  match cb with
  | .onTcpClientRead => onTcpClientRead p ex fd env
  | .onClientWritable => onClientWritable p ex env
  | .onUpstream => onUpstream p ex env
  | .onUpstreamWritable => onUpstreamWritable p ex fd env

def pick (live : List Exchange) (id : Nat) : Option (Exchange × List Exchange) :=
  (live.find? fun e => e.id = id).map fun e => (e, live.erase e)

def State.after (r : Result) (others : List Exchange) : State := ⟨r.1, r.2.toList ++ others⟩

/-- The step of an event; `none` for a callback without a registration. -/
def step (s : State) : Ev → Option State
  | .datagram n env => some (.after (onUdpReadable s.proxy n env) s.live)
  | .accept env => some (.after (onTcpAccept s.proxy env) s.live)
  | .ready fd env => do
    let (cb, id) ← s.proxy.watch fd
    let (ex, others) ← pick s.live id
    pure (.after (callback s.proxy ex cb fd env) others)
  | .timeout id => do
    let (ex, others) ← pick s.live id
    let _ ← ex.timer
    pure (.after (onTimeout s.proxy ex) others)
  | .setDisableFlags disableFakePtr disableDropAaaa =>
    some { s with proxy := { s.proxy with disableFakePtr, disableDropAaaa } }

def run (s : State) (evs : List Ev) : Option State := evs.foldlM step s

end MagiTrickle.Dns.Transport
