import MagiTrickle.Dns.Transport
import MagiTrickle.Dns.Wire

/-!
# The bytes of a TCP exchange (`dns/proxy.c`)

One exchange over TCP with the four streams it moves bytes of: the client's
request, the request to the upstream, the reply of the upstream, the reply to
the client. `Dns.Transport` has the same callbacks with lengths for buffers;
here the buffers and the streams have their bytes, and the kernel cuts every
`recv` and `send` as the events say.

The length of the request and the length of the reply are read into the same
two bytes (`lenBuf`, `lenGot`).
-/

namespace MagiTrickle.Dns.Framing

open MagiTrickle.Dns.Wire
open MagiTrickle.Dns.Transport (Io Status Connect)

/-- `TCP_MAX_MSG` -/
def tcpMaxMsg : Nat := 65535

/-- What the client's connection waits for: `on_tcp_client_read`, or `on_client_writable` with no
events or with `EPOLLOUT`. -/
inductive ClientWatch where
  | reading | waiting | writing
  deriving DecidableEq, Repr

inductive UpstreamWatch where
  | onUpstreamWritable | onUpstream
  deriving DecidableEq, Repr

/-- `exchange_t` of a TCP client: `none` is the null pointer, and `req_len` and `out_len` are the
lengths of the buffers. -/
structure Exchange where
  client : ClientWatch
  upstream : Option UpstreamWatch
  timer : Bool
  connecting : Bool
  req : Option Bytes
  reqSent : Nat
  reqGot : Nat
  lenBuf : Bytes
  lenGot : Nat
  respExpected : Nat
  resp : Option Bytes
  respGot : Nat
  out : Option Bytes
  outSent : Nat
  deriving DecidableEq, Repr

/-- An exchange, `none` once it is freed, with its streams: what the peers have sent and is not read
yet, and what has been sent to them. -/
structure Conn where
  ex : Option Exchange
  clientIn : Bytes
  upstreamIn : Bytes
  upstreamOut : Bytes
  clientOut : Bytes
  /-- The messages that `deliver_response` was called with. -/
  processed : List Bytes
  deriving DecidableEq, Repr

structure Config where
  disableFakePtr : Bool
  disableDropAaaa : Bool
  deriving DecidableEq, Repr

structure Env where
  /-- `EPOLLERR` or `EPOLLHUP`. -/
  broken : Bool
  /-- `SO_ERROR` after a connect. -/
  sockError : Bool
  /-- For the bytes of the length. -/
  lenIo : List Io
  /-- For the bytes of the message. -/
  io : List Io
  /-- `malloc` of a buffer for a message. -/
  mem : Bool
  /-- What is in a buffer that has just been allocated. -/
  fresh : Nat → UInt8
  /-- The allocations of the codec. -/
  codecMem : Bool
  /-- `malloc` of the bytes for the client. -/
  outMem : Bool
  /-- `malloc` of the framed request. -/
  framedMem : Bool
  /-- `mt_loop_add_fd` for the callback that is switched to. -/
  rearmed : Bool
  socket : Bool
  connect : Connect
  registered : Bool
  timer : Bool

/-! ## Streams -/

def store (buf : Bytes) (off : Nat) (chunk : Bytes) : Bytes :=
  buf.take off ++ chunk ++ buf.drop (off + chunk.length)

/-- Where a loop around `recv` stands. -/
structure Received where
  buf : Bytes
  got : Nat
  rest : Bytes
  status : Status

/-- The loops around `recv` until there are `want` bytes in the buffer. -/
def recvLoop (want : Nat) : List Io → Bytes → Nat → Bytes → Received
  | [], buf, got, stream => ⟨buf, got, stream, if got < want then .again else .done⟩
  | io :: ios, buf, got, stream =>
    if want ≤ got then ⟨buf, got, stream, .done⟩
    else
      match io with
      | .again => ⟨buf, got, stream, .again⟩
      | .failed => ⟨buf, got, stream, .failed⟩
      | .moved n =>
        let chunk := stream.take (min n (want - got))
        -- the end of the stream
        if chunk = [] then ⟨buf, got, stream, .failed⟩
        else recvLoop want ios (store buf got chunk) (got + chunk.length)
          (stream.drop chunk.length)

/-- Where a loop around `send` stands. -/
structure Sent where
  sent : Nat
  sink : Bytes
  status : Status

/-- The loops around `send`. -/
def sendLoop (data : Bytes) : List Io → Nat → Bytes → Sent
  | [], sent, sink => ⟨sent, sink, if sent < data.length then .again else .done⟩
  | io :: ios, sent, sink =>
    if data.length ≤ sent then ⟨sent, sink, .done⟩
    else
      match io with
      | .again => ⟨sent, sink, .again⟩
      | .failed => ⟨sent, sink, .failed⟩
      | .moved n =>
        let chunk := (data.drop sent).take n
        sendLoop data ios (sent + chunk.length) (sink ++ chunk)

/-- The two bytes of a length and the message, as the source writes them. -/
def frame (msg : Bytes) : Bytes :=
  UInt8.ofNat (msg.length >>> 8) :: UInt8.ofNat msg.length :: msg

/-- The length in `len_buf`. -/
def frameLen (lenBuf : Bytes) : Nat :=
  (lenBuf.getD 0 0).toNat <<< 8 ||| (lenBuf.getD 1 0).toNat

/-- A buffer from `malloc`. -/
def malloc (env : Env) (n : Nat) : Bytes := (List.range n).map env.fresh

/-- `exchange_finish`: the descriptors are closed and the exchange is freed. -/
def Conn.finish (c : Conn) : Conn := { c with ex := none }

def Conn.goOn (c : Conn) (ex : Exchange) : Conn := { c with ex := some ex }

/-! ## Responses -/

/-- The bytes for the client in `deliver_response`, `none` where the message is dropped. -/
def response (cfg : Config) (resp : Bytes) : Option Bytes :=
  match msgParse resp with
  | .error _ => none
  | .ok msg =>
    if cfg.disableDropAaaa then some resp
    else
      match msgPack (msgStripAaaa msg) with
      | .error _ => none
      | .ok packed => some packed

/-- `deliver_response` for TCP. -/
def deliverResponse (cfg : Config) (c : Conn) (ex : Exchange) (env : Env) (resp : Bytes) : Conn :=
  let c := { c with processed := c.processed ++ [resp] }
  match if env.codecMem then response cfg resp else none with
  | none => c.finish
  | some out =>
    if ¬ env.outMem then c.finish
    else c.goOn { ex with out := some (frame out), outSent := 0, upstream := none,
                          client := .writing }

/-- The buffer for the reply, with the length read; `none` where the length is refused. -/
def allocResponse (ex : Exchange) (env : Env) : Option Exchange :=
  match ex.resp with
  | some _ => some ex
  | none =>
    if frameLen ex.lenBuf = 0 ∨ frameLen ex.lenBuf > tcpMaxMsg ∨ ¬ env.mem then none
    else some { ex with respExpected := frameLen ex.lenBuf,
                        resp := some (malloc env (frameLen ex.lenBuf)) }

def fillResponse (cfg : Config) (c : Conn) (ex : Exchange) (env : Env) : Conn :=
  let r := recvLoop ex.respExpected env.io (ex.resp.getD []) ex.respGot c.upstreamIn
  let ex := { ex with resp := some r.buf, respGot := r.got }
  let c := { c with upstreamIn := r.rest }
  match r.status with
  | .again => c.goOn ex
  | .failed => c.finish
  | .done => deliverResponse cfg c ex env (r.buf.take r.got)

/-- The end of `on_upstream`, with the length read. -/
def readResponse (cfg : Config) (c : Conn) (ex : Exchange) (env : Env) : Conn :=
  match allocResponse ex env with
  | none => c.finish
  | some ex => fillResponse cfg c ex env

/-- `on_upstream` for TCP. -/
def onUpstream (cfg : Config) (c : Conn) (ex : Exchange) (env : Env) : Conn :=
  if env.broken then c.finish
  else if ex.connecting then
    if env.sockError then c.finish else c.goOn { ex with connecting := false }
  else
    let r := recvLoop 2 env.lenIo ex.lenBuf ex.lenGot c.upstreamIn
    let ex := { ex with lenBuf := r.buf, lenGot := r.got }
    let c := { c with upstreamIn := r.rest }
    match r.status with
    | .again => c.goOn ex
    | .failed => c.finish
    | .done => readResponse cfg c ex env

/-- `on_upstream_writable` for TCP. -/
def onUpstreamWritable (c : Conn) (ex : Exchange) (env : Env) : Conn :=
  if env.broken then c.finish
  else if ex.connecting ∧ env.sockError then c.finish
  else
    let r := sendLoop (ex.req.getD []) env.io ex.reqSent c.upstreamOut
    let ex := { ex with connecting := false, reqSent := r.sent }
    let c := { c with upstreamOut := r.sink }
    match r.status with
    | .again => c.goOn ex
    | .failed => c.finish
    | .done => if env.rearmed then c.goOn { ex with upstream := some .onUpstream } else c.finish

/-- `on_client_writable`. -/
def onClientWritable (c : Conn) (ex : Exchange) (env : Env) : Conn :=
  if env.broken then c.finish
  else
    let r := sendLoop (ex.out.getD []) env.io ex.outSent c.clientOut
    let c := { c with clientOut := r.sink }
    match r.status with
    | .again => c.goOn { ex with outSent := r.sent }
    | .failed => c.finish
    | .done => c.finish

/-! ## Requests -/

/-- `mt_dns_is_single_ptr_query`. -/
def isSinglePtrQuery (buf : Bytes) : Bool :=
  if buf.length < headerLen then false
  else
    match rdU16 buf 4 with
    | none => false
    | some (qd, _) =>
      if qd ≠ 1 then false
      else
        match rdName buf headerLen with
        | none => false
        | some (_, pos) =>
          match rdU16 buf pos with
          | none => false
          | some (qtype, _) => qtype = typePtr

/-- `mt_dns_make_fake_ptr_response`: a fresh header with `QR`, `RA` and `NXDOMAIN`, and the
questions. -/
def makeFakePtrResponse (req : Bytes) : Option Bytes :=
  if req.length < headerLen then none
  else
    match rdU16 req 0, rdU16 req 4 with
    | some (id, _), some (qd, _) =>
      match Lib.Reader.times parseQuestion qd.toNat req headerLen with
      | none => none
      | some (questions, _) =>
        some (wrU16 id ++ (wrU16 0x8083 ++ (wrU16 qd ++ (wrU16 0 ++ (wrU16 0 ++ (wrU16 0 ++
          questions.flatMap wrQuestion))))))
    | _, _ => none

/-- `request_disp_t`, with the answer for the client. -/
inductive Disp where
  | drop
  | repliedAsync (resp : Bytes)
  | forward
  deriving DecidableEq, Repr

/-- `handle_request_common` on the bytes of a request. -/
def handleRequest (cfg : Config) (req : Bytes) : Disp :=
  match msgParse req with
  | .error _ => .drop
  | .ok _ =>
    if ¬ cfg.disableFakePtr ∧ isSinglePtrQuery req then
      match makeFakePtrResponse req with
      | none => .drop
      | some resp => .repliedAsync resp
    else .forward

/-- `start_upstream` for TCP. The shared state of the lengths is reset. -/
def startUpstream (c : Conn) (ex : Exchange) (env : Env) : Conn :=
  let ex := { ex with lenGot := 0, respExpected := 0, respGot := 0 }
  if ¬ env.framedMem then c.finish
  else
    let ex := { ex with req := ex.req.map frame, reqSent := 0 }
    if ¬ env.socket then c.finish
    else if env.connect = .failed then c.finish
    else
      let ex := { ex with connecting := env.connect = Connect.inProgress }
      if ¬ env.registered then c.finish
      else
        let ex := { ex with upstream := some .onUpstreamWritable }
        if ¬ env.timer then c.finish else c.goOn { ex with timer := true }

/-- The end of `on_tcp_client_read`, with the request read. -/
def requestRead (cfg : Config) (c : Conn) (ex : Exchange) (env : Env) : Conn :=
  if ¬ env.rearmed then c.finish
  else
    let ex := { ex with client := .waiting }
    match if env.codecMem then handleRequest cfg (ex.req.getD []) else .drop with
    | .drop => c.finish
    | .repliedAsync resp =>
      if ¬ env.outMem then c.finish
      else c.goOn { ex with out := some (frame resp), client := .writing }
    | .forward => startUpstream c ex env

/-- The buffer for the request, with the length read; `none` where the length is refused. -/
def allocRequest (ex : Exchange) (env : Env) : Option Exchange :=
  match ex.req with
  | some _ => some ex
  | none =>
    if frameLen ex.lenBuf = 0 ∨ frameLen ex.lenBuf > tcpMaxMsg ∨ ¬ env.mem then none
    else some { ex with req := some (malloc env (frameLen ex.lenBuf)), reqGot := 0 }

def fillRequest (cfg : Config) (c : Conn) (ex : Exchange) (env : Env) : Conn :=
  let r := recvLoop (ex.req.getD []).length env.io (ex.req.getD []) ex.reqGot c.clientIn
  let ex := { ex with req := some r.buf, reqGot := r.got }
  let c := { c with clientIn := r.rest }
  match r.status with
  | .again => c.goOn ex
  | .failed => c.finish
  | .done => requestRead cfg c ex env

/-- `on_tcp_client_read` with the length read. -/
def readRequest (cfg : Config) (c : Conn) (ex : Exchange) (env : Env) : Conn :=
  match allocRequest ex env with
  | none => c.finish
  | some ex => fillRequest cfg c ex env

/-- `on_tcp_client_read`. -/
def onTcpClientRead (cfg : Config) (c : Conn) (ex : Exchange) (env : Env) : Conn :=
  if env.broken then c.finish
  else
    let r := recvLoop 2 env.lenIo ex.lenBuf ex.lenGot c.clientIn
    let ex := { ex with lenBuf := r.buf, lenGot := r.got }
    let c := { c with clientIn := r.rest }
    match r.status with
    | .again => c.goOn ex
    | .failed => c.finish
    | .done => readRequest cfg c ex env

/-! ## Runs -/

/-- The exchange after `on_tcp_accept`, before streams of any bytes. -/
def accepted (clientIn upstreamIn : Bytes) : Conn where
  ex := some
    { client := .reading, upstream := none, timer := false, connecting := false, req := none,
      reqSent := 0, reqGot := 0, lenBuf := [0, 0], lenGot := 0, respExpected := 0, resp := none,
      respGot := 0, out := none, outSent := 0 }
  clientIn
  upstreamIn
  upstreamOut := []
  clientOut := []
  processed := []

/-- The loop calls back for the client's connection, for the upstream's, or for the timer. -/
inductive Ev where
  | client (env : Env)
  | upstream (env : Env)
  | timeout

/-- One callback, `none` where the loop does not wait for the event. Errors of a connection are
reported whatever it waits for. -/
def step (cfg : Config) (c : Conn) (ev : Ev) : Option Conn :=
  match c.ex with
  | none => none
  | some ex =>
    match ev with
    | .client env =>
      match ex.client with
      | .reading => some (onTcpClientRead cfg c ex env)
      | .waiting => if env.broken then some (onClientWritable c ex env) else none
      | .writing => some (onClientWritable c ex env)
    | .upstream env =>
      match ex.upstream with
      | none => none
      | some .onUpstreamWritable => some (onUpstreamWritable c ex env)
      | some .onUpstream => some (onUpstream cfg c ex env)
    | .timeout => if ex.timer then some c.finish else none

def run (cfg : Config) (c : Conn) (evs : List Ev) : Option Conn := evs.foldlM (step cfg) c

end MagiTrickle.Dns.Framing
