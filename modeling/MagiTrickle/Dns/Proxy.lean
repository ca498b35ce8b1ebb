import Mathlib.Data.List.Nodup
import MagiTrickle.Core.Basic
import MagiTrickle.Lib.Runs

/-!
# UDP exchanges of the DNS proxy (`dns/proxy.c`)

The proxy forwards each request on a connected UDP socket, taken from a pool
when the pool has one, and gives the first datagram that it reads there to the
client. The upstream may answer a query it has been asked any number of times
and at any later moment. A socket is known by the `socket` call that made it; a
datagram that comes to a closed socket is lost.
-/

namespace MagiTrickle.Dns

open MagiTrickle.Lib

/-- A client's request; `serial` tells apart the requests of all clients. -/
structure Query where
  serial : Nat
  txid : Nat
  question : Bytes
  deriving DecidableEq, Repr

structure Rr where
  rtype : Nat
  rdata : Bytes
  deriving DecidableEq, Repr

/-- `mt_dns_msg_t`: the parts of a response that matter here. -/
structure Msg where
  id : Nat
  question : Bytes
  answers : List Rr
  deriving DecidableEq, Repr

/-- A response on its way, with the query that the upstream made it for. -/
structure Datagram where
  query : Query
  msg : Msg
  deriving DecidableEq, Repr

structure Delivery where
  client : Query
  answer : Datagram
  reply : Msg
  deriving DecidableEq, Repr

/-- `exchange_t` of a UDP request. -/
structure UdpExchange where
  query : Query
  sock : Nat
  sent : Bool
  deriving DecidableEq, Repr

/-- `mt_dnsproxy_t` with the sockets' receive queues and what the upstream has been asked. -/
structure Proxy where
  maxConcurrent : Nat
  poolCap : Nat
  dropAaaa : Bool
  pool : List Nat
  live : List UdpExchange
  queue : Nat → List Datagram
  asked : List (Nat × Query)
  nextSock : Nat
  nextSerial : Nat
  delivered : List Delivery

namespace Proxy

def start (maxConcurrent poolCap : Nat) (dropAaaa : Bool) : Proxy :=
  ⟨maxConcurrent, poolCap, dropAaaa, [], [], fun _ => [], [], 0, 0, []⟩

/-- `close`: what is queued on the socket is gone. -/
def closeSock (s : Proxy) (k : Nat) : Proxy :=
  { s with queue := fun j => if j = k then [] else s.queue j }

/-- `pool_put`. -/
def poolPut (s : Proxy) (k : Nat) : Proxy :=
  if s.pool.length < s.poolCap then { s with pool := s.pool ++ [k] } else s.closeSock k

/-- `exchange_finish`. -/
def exchangeFinish (s : Proxy) (ex : UdpExchange) (poolUpstream : Bool) : Proxy :=
  let s' := { s with live := s.live.erase ex }
  if poolUpstream then s'.poolPut ex.sock else s'.closeSock ex.sock

end Proxy

/-- `mt_dns_msg_strip_aaaa`. -/
def Msg.stripAaaa (m : Msg) : Msg := { m with answers := m.answers.filter fun r => r.rtype ≠ 28 }

namespace Proxy

/-- `deliver_response`; `parses` and `packs` are the outcomes of the codec. -/
def deliverResponse (s : Proxy) (ex : UdpExchange) (d : Datagram) (parses packs : Bool) : Proxy :=
  if !parses then s.exchangeFinish ex false
  else if s.dropAaaa && !packs then s.exchangeFinish ex false
  else
    let x : Delivery := ⟨ex.query, d, if s.dropAaaa then d.msg.stripAaaa else d.msg⟩
    { s with delivered := s.delivered ++ [x] }.exchangeFinish ex true

/-- `on_upstream` on a readable socket: one datagram is taken off the queue. -/
def onUpstream (s : Proxy) (ex : UdpExchange) (parses packs : Bool) : Proxy :=
  match s.queue ex.sock with
  | [] => s
  | d :: ds => { s with queue := fun j => if j = ex.sock then ds else s.queue j }.deliverResponse
      ex d parses packs

end Proxy

/-- The outcome of `send`. -/
inductive Send where
  | sent | again | failed
  deriving DecidableEq, Repr

namespace Proxy

/-- The rest of `start_upstream` once there is a socket; `registered` tells whether the loop took the
descriptor and the timer. -/
def sendOn (s : Proxy) (q : Query) (k : Nat) (send : Send) (registered : Bool) : Proxy :=
  match send with
  | .failed => s.closeSock k
  | .again =>
    if registered then { s with live := s.live ++ [⟨q, k, false⟩] } else s.closeSock k
  | .sent =>
    let s := { s with asked := s.asked ++ [(k, q)] }
    if registered then { s with live := s.live ++ [⟨q, k, true⟩] } else s.closeSock k

/-- `start_upstream`: `pool_get` takes the socket that was put last. -/
def startUpstream (s : Proxy) (q : Query) (connected : Bool) (send : Send) (registered : Bool) :
    Proxy :=
  match s.pool.getLast? with
  | some k => { s with pool := s.pool.dropLast }.sendOn q k send registered
  | none =>
    if connected then { s with nextSock := s.nextSock + 1 }.sendOn q s.nextSock send registered
    else s

/-- `on_upstream_writable`: the request goes out and the socket is read from then on. -/
def onUpstreamWritable (s : Proxy) (ex : UdpExchange) (send : Send) (registered : Bool) : Proxy :=
  match send with
  | .failed => s.exchangeFinish ex false
  | .again => s
  | .sent =>
    let s := { s with asked := s.asked ++ [(ex.sock, ex.query)] }
    if registered then
      { s with live := s.live.map fun e => if e = ex then { e with sent := true } else e }
    else s.exchangeFinish ex false

/-- The socket is open: it is pooled or an exchange waits on it. -/
def isOpen (s : Proxy) (k : Nat) : Bool := k ∈ s.pool ∨ k ∈ s.live.map UdpExchange.sock

def find (s : Proxy) (serial : Nat) : Option UdpExchange :=
  s.live.find? fun e => e.query.serial = serial

end Proxy

/-- One event of the proxy or of the network. -/
inductive Act where
  /-- A request of a client, with `others` exchanges in flight over TCP; `forward` is the answer of
  `handle_request_common`. -/
  | request (txid : Nat) (question : Bytes) (others : Nat) (forward connected : Bool) (send : Send)
      (registered : Bool)
  | writable (serial : Nat) (send : Send) (registered : Bool)
  /-- A response of the upstream comes to a socket. -/
  | answer (sock : Nat) (q : Query) (answers : List Rr)
  | readable (serial : Nat) (parses packs : Bool)
  /-- `EPOLLERR`, `EPOLLHUP` or a failing `recv`. -/
  | broken (serial : Nat)
  | timeout (serial : Nat)
  deriving DecidableEq, Repr

namespace Proxy

def step (s : Proxy) : Act → Proxy
  | .request txid question others forward connected send registered =>
    if s.live.length + others ≥ s.maxConcurrent then s
    else
      let s' := { s with nextSerial := s.nextSerial + 1 }
      if forward then s'.startUpstream ⟨s.nextSerial, txid, question⟩ connected send registered
      else s'
  | .writable serial send registered =>
    match s.find serial with
    | none => s
    | some ex => if ex.sent then s else s.onUpstreamWritable ex send registered
  | .answer k q answers =>
    if (k, q) ∈ s.asked ∧ s.isOpen k then
      { s with queue := fun j =>
          if j = k then s.queue k ++ [⟨q, ⟨q.txid, q.question, answers⟩⟩] else s.queue j }
    else s
  | .readable serial parses packs =>
    match s.find serial with
    | none => s
    | some ex => if ex.sent then s.onUpstream ex parses packs else s
  | .broken serial =>
    match s.find serial with
    | none => s
    | some ex => s.exchangeFinish ex false
  | .timeout serial =>
    match s.find serial with
    | none => s
    | some ex => s.exchangeFinish ex false

def run (s : Proxy) (acts : List Act) : Proxy := acts.foldl step s

end Proxy

end MagiTrickle.Dns
