import MagiTrickle.Dns.Framing
import MagiTrickle.Dns.WireRoundTrip

/-!
# Framing does not depend on how the streams are cut

Every callback keeps what an exchange has moved so far apart from how the kernel
cut it: the bytes in a buffer and the bytes that are still to come are together
the stream, and the bytes sent are a part of the framed message (`Stage`). So
what an exchange leaves in its streams is fixed by the two messages
(`run_framing`).
-/

namespace MagiTrickle.Dns.Framing

open MagiTrickle.Dns.Wire
open MagiTrickle.Dns.Transport (Io Status Connect)

/-! ## Loops -/

def Io.Good : Io → Prop
  | .moved n => 1 ≤ n
  | .again => True
  | .failed => False

instance : DecidablePred Io.Good
  | .moved n => inferInstanceAs (Decidable (1 ≤ n))
  | .again => .isTrue trivial
  | .failed => .isFalse id

theorem length_store {buf chunk : Bytes} {off : Nat} (h : off + chunk.length ≤ buf.length) :
    (store buf off chunk).length = buf.length := by
  unfold store
  rw [List.length_append, List.length_append, List.length_take, List.length_drop]
  omega

theorem take_store {buf chunk : Bytes} {off : Nat} (h : off ≤ buf.length) :
    (store buf off chunk).take (off + chunk.length) = buf.take off ++ chunk := by
  unfold store
  refine List.take_left' ?_
  rw [List.length_append, List.length_take]
  omega

/-- What a loop around `recv` leaves: the bytes that it has put into the buffer and the bytes that
are still to come are the stream. -/
structure RecvSpec (want : Nat) (buf : Bytes) (got : Nat) (stream : Bytes) (r : Received) :
    Prop where
  length : r.buf.length = buf.length
  le : got ≤ r.got
  same : r.buf.take r.got ++ r.rest = buf.take got ++ stream
  rest_le : r.rest.length + (r.got - got) = stream.length
  done : r.status = .done → r.got = want
  again : r.status = .again → r.got < want
  le_want : r.got ≤ want

theorem recvLoop_spec {want : Nat} {buf : Bytes} (hlen : want = buf.length) (ios : List Io)
    {got : Nat} (hgot : got ≤ want) (stream : Bytes) :
    RecvSpec want buf got stream (recvLoop want ios buf got stream) := by
  induction ios generalizing buf got stream with
  | nil =>
    rw [recvLoop]
    refine ⟨rfl, Nat.le_refl _, rfl, ?_, ?_, ?_, hgot⟩
    · show stream.length + (got - got) = stream.length
      omega
    · dsimp only
      split
      · nofun
      · intro _
        omega
    · dsimp only
      split
      · intro _
        assumption
      · nofun
  | cons io ios ih =>
    rw [recvLoop.eq_def]
    dsimp only
    have hstay : ∀ st : Status, (st = .done → got = want) → (st = .again → got < want) →
        RecvSpec want buf got stream ⟨buf, got, stream, st⟩ := by
      intro st hdone hagain
      refine ⟨rfl, Nat.le_refl _, rfl, ?_, hdone, hagain, hgot⟩
      show stream.length + (got - got) = stream.length
      omega
    split
    · exact hstay .done (fun _ => by omega) nofun
    · next hlt =>
      cases io with
      | again => exact hstay .again nofun fun _ => by omega
      | failed => exact hstay .failed nofun nofun
      | moved n =>
        dsimp only
        split
        · exact hstay .failed nofun nofun
        · have hc : (stream.take (min n (want - got))).length ≤ want - got := by
            rw [List.length_take]
            omega
          generalize hchunk : stream.take (min n (want - got)) = chunk at hc ⊢
          have hsplit : stream = chunk ++ stream.drop chunk.length := by
            have hle : chunk.length = min (min n (want - got)) stream.length := by
              rw [← hchunk, List.length_take]
            have htake : stream.take chunk.length = chunk := by
              rw [hle, ← List.take_eq_take_min, hchunk]
            nth_rewrite 1 [← List.take_append_drop chunk.length stream]
            rw [htake]
          have hstore : (store buf got chunk).length = buf.length := length_store (by omega)
          have h := @ih (store buf got chunk) (hlen.trans hstore.symm) (got + chunk.length)
            (by omega) (stream.drop chunk.length)
          refine ⟨h.length.trans hstore, Nat.le_trans (Nat.le_add_right _ _) h.le, ?_, ?_, h.done,
            h.again, h.le_want⟩
          · rw [h.same, take_store (by omega), List.append_assoc, ← hsplit]
          · have hr := h.rest_le
            have hl := h.le
            rw [List.length_drop] at hr
            have hsl : chunk.length ≤ stream.length := by
              rw [← hchunk, List.length_take]
              omega
            omega

theorem sendLoop_ne_failed {data : Bytes} {ios : List Io} (hgood : ∀ io ∈ ios, Io.Good io)
    (sent : Nat) (sink : Bytes) : (sendLoop data ios sent sink).status ≠ .failed := by
  induction ios generalizing sent sink with
  | nil =>
    rw [sendLoop]
    dsimp only
    split <;> nofun
  | cons io ios ih =>
    have hio := hgood io List.mem_cons_self
    rw [sendLoop.eq_def]
    dsimp only
    split
    · nofun
    · cases io with
      | again => nofun
      | failed => exact absurd hio id
      | moved n => exact ih (fun io hi => hgood io (List.mem_cons_of_mem _ hi)) _ _

/-- A message with its length in two octets, the high one first. -/
def framed (msg : Bytes) : Bytes :=
  UInt8.ofNat (msg.length / 256) :: UInt8.ofNat (msg.length % 256) :: msg

theorem frame_eq_framed (msg : Bytes) : frame msg = framed msg := by
  have hlow : UInt8.ofNat msg.length = UInt8.ofNat (msg.length % 256) := by
    apply UInt8.toNat_inj.mp
    rw [UInt8.toNat_ofNat', UInt8.toNat_ofNat']
    omega
  unfold frame framed
  rw [hlow, Nat.shiftRight_eq_div_pow]

theorem length_framed (msg : Bytes) : (framed msg).length = msg.length + 2 := rfl

/-- The bytes for the upstream and for the client, and the replies processed. -/
structure Trace where
  upstream : Bytes
  processed : List Bytes
  client : Bytes

def Conn.trace (c : Conn) : Trace := ⟨c.upstreamOut, c.processed, c.clientOut⟩

/-- What an exchange of a request and a reply is to leave. A frame without a message closes the
connection. -/
def expected (cfg : Config) (msg reply : Bytes) : Trace :=
  match handleRequest cfg msg with
  | .drop => ⟨[], [], []⟩
  | .repliedAsync resp => ⟨[], [], framed resp⟩
  | .forward =>
    if reply = [] then ⟨framed msg, [], []⟩
    else ⟨framed msg, [reply], (response cfg reply).elim [] framed⟩

structure Env.Good (env : Env) : Prop where
  broken : env.broken = false
  sockError : env.sockError = false
  lenIo : ∀ io ∈ env.lenIo, Io.Good io
  io : ∀ io ∈ env.io, Io.Good io
  mem : env.mem = true
  codecMem : env.codecMem = true
  outMem : env.outMem = true
  framedMem : env.framedMem = true
  rearmed : env.rearmed = true
  socket : env.socket = true
  connect : env.connect ≠ .failed
  registered : env.registered = true
  timer : env.timer = true

/-- The first `recv` or `send` of a loop moves a byte. -/
def Env.Moves (env : Env) : Prop :=
  (∃ n ios, env.lenIo = .moved n :: ios) ∧ ∃ n ios, env.io = .moved n :: ios

section Stages

variable (cfg : Config) (msg reply rest rest' : Bytes)

structure Unasked (c : Conn) (ex : Exchange) : Prop where
  client : ex.client = .reading
  upstream : ex.upstream = none
  resp : ex.resp = none
  outSent : ex.outSent = 0
  lenBuf : ex.lenBuf.length = 2
  upstreamIn : c.upstreamIn = framed reply ++ rest'
  upstreamOut : c.upstreamOut = []
  clientOut : c.clientOut = []
  processed : c.processed = []

/-- The bytes of a message of which some are in the buffer. -/
def Filling (msg rest : Bytes) (buf : Option Bytes) (got : Nat) (stream : Bytes) : Prop :=
  ∃ b, buf = some b ∧ b.length = msg.length ∧ got < msg.length ∧ b.take got ++ stream = msg ++ rest

structure Asked (c : Conn) (ex : Exchange) : Prop where
  unasked : Unasked reply rest' c ex
  got : (ex.req = none ∧ ex.lenGot < 2 ∧
      ex.lenBuf.take ex.lenGot ++ c.clientIn = framed msg ++ rest) ∨
    (ex.lenGot = 2 ∧ Filling msg rest ex.req ex.reqGot c.clientIn)

structure Asking (c : Conn) (ex : Exchange) : Prop where
  forward : handleRequest cfg msg = .forward
  client : ex.client = .waiting
  upstream : ex.upstream = some .onUpstreamWritable
  req : ex.req = some (framed msg)
  reqSent : ex.reqSent < (framed msg).length
  lenBuf : ex.lenBuf.length = 2
  lenGot : ex.lenGot = 0
  resp : ex.resp = none
  respGot : ex.respGot = 0
  clientIn : c.clientIn = rest
  upstreamIn : c.upstreamIn = framed reply ++ rest'
  upstreamOut : c.upstreamOut = (framed msg).take ex.reqSent
  clientOut : c.clientOut = []
  processed : c.processed = []

structure Unanswered (c : Conn) (ex : Exchange) : Prop where
  forward : handleRequest cfg msg = .forward
  client : ex.client = .waiting
  upstream : ex.upstream = some .onUpstream
  connecting : ex.connecting = false
  lenBuf : ex.lenBuf.length = 2
  clientIn : c.clientIn = rest
  upstreamOut : c.upstreamOut = framed msg
  clientOut : c.clientOut = []
  processed : c.processed = []

structure Awaiting (c : Conn) (ex : Exchange) : Prop where
  unanswered : Unanswered cfg msg rest c ex
  got : (ex.resp = none ∧ ex.lenGot < 2 ∧ ex.respGot = 0 ∧
      ex.lenBuf.take ex.lenGot ++ c.upstreamIn = framed reply ++ rest') ∨
    (ex.lenGot = 2 ∧ ex.respExpected = reply.length ∧
      Filling reply rest' ex.resp ex.respGot c.upstreamIn)

structure Answering (c : Conn) (ex : Exchange) : Prop where
  client : ex.client = .writing
  upstream : ex.upstream = none
  out : ex.out = some (expected cfg msg reply).client
  outSent : ex.outSent < (expected cfg msg reply).client.length
  clientIn : rest.length ≤ c.clientIn.length
  upstreamIn : rest'.length ≤ c.upstreamIn.length
  upstreamOut : c.upstreamOut = (expected cfg msg reply).upstream
  clientOut : c.clientOut = (expected cfg msg reply).client.take ex.outSent
  processed : c.processed = (expected cfg msg reply).processed

/-- The streams hold parts of what the exchange is to leave. -/
structure Within (c : Conn) : Prop where
  clientIn : rest.length ≤ c.clientIn.length
  upstreamIn : rest'.length ≤ c.upstreamIn.length
  upstreamOut : c.upstreamOut <+: (expected cfg msg reply).upstream
  clientOut : c.clientOut <+: (expected cfg msg reply).client
  processed : c.processed <+: (expected cfg msg reply).processed

/-- Where an exchange stands between two callbacks. -/
inductive Stage (ok : Prop) (c : Conn) : Prop where
  | asked {ex : Exchange} (ex_eq : c.ex = some ex) (h : Asked msg reply rest rest' c ex)
  | asking {ex : Exchange} (ex_eq : c.ex = some ex) (h : Asking cfg msg reply rest rest' c ex)
  | awaiting {ex : Exchange} (ex_eq : c.ex = some ex) (h : Awaiting cfg msg reply rest rest' c ex)
  | answering {ex : Exchange} (ex_eq : c.ex = some ex) (h : Answering cfg msg reply rest rest' c ex)
  | ended (ex_eq : c.ex = none) (within : Within cfg msg reply rest rest' c)
      (whole : ok → c.trace = expected cfg msg reply)

end Stages

section Filling

variable {msg rest : Bytes}

theorem recvLoop_full {want got : Nat} (h : want ≤ got) (ios : List Io) (buf stream : Bytes) :
    recvLoop want ios buf got stream = ⟨buf, got, stream, .done⟩ := by
  cases ios with
  | nil => rw [recvLoop, if_neg (by omega)]
  | cons io ios =>
    rw [recvLoop.eq_def]
    exact if_pos h

end Filling

/-! ## Requests -/

section Steps

variable {cfg : Config} {msg reply rest rest' : Bytes} {c : Conn} {ex : Exchange} {env : Env}

theorem length_le_of_append {a b : Bytes} {stream : Bytes} (h : stream = a ++ b) :
    b.length ≤ stream.length := by
  rw [h, List.length_append]
  omega

theorem Unasked.goOn (h : Unasked reply rest' c ex) (e : Exchange) :
    Unasked reply rest' (c.goOn e) ex :=
  ⟨h.client, h.upstream, h.resp, h.outSent, h.lenBuf, h.upstreamIn, h.upstreamOut, h.clientOut,
    h.processed⟩

theorem Within.finish (h : Within cfg msg reply rest rest' c) :
    Within cfg msg reply rest rest' c.finish :=
  ⟨h.clientIn, h.upstreamIn, h.upstreamOut, h.clientOut, h.processed⟩

theorem Unasked.within (h : Unasked reply rest' c ex) (hin : rest.length ≤ c.clientIn.length) :
    Within cfg msg reply rest rest' c := by
  refine ⟨hin, length_le_of_append h.upstreamIn, ?_, ?_, ?_⟩
  · rw [h.upstreamOut]
    exact List.nil_prefix
  · rw [h.clientOut]
    exact List.nil_prefix
  · rw [h.processed]
    exact List.nil_prefix

theorem Unasked.ended (h : Unasked reply rest' c ex) (hin : rest.length ≤ c.clientIn.length)
    {ok : Prop} (hok : ok → handleRequest cfg msg = .drop) :
    Stage cfg msg reply rest rest' ok c.finish := by
  refine .ended rfl (h.within hin).finish fun hgood => ?_
  unfold expected
  rw [hok hgood]
  show Trace.mk c.upstreamOut c.processed c.clientOut = _
  rw [h.upstreamOut, h.processed, h.clientOut]

theorem Asked.rest_le (h : Asked msg reply rest rest' c ex) : rest.length ≤ c.clientIn.length := by
  rcases h.got with ⟨-, hlt, hsame⟩ | ⟨-, b, -, hlen, hlt, hsame⟩
  · have htotal := congrArg List.length hsame
    rw [List.length_append, List.length_append, List.length_take, length_framed] at htotal
    omega
  · have htotal := congrArg List.length hsame
    rw [List.length_append, List.length_append, List.length_take] at htotal
    omega

theorem within_of_forward (hfwd : handleRequest cfg msg = .forward) (hin : c.clientIn = rest)
    (hup : rest'.length ≤ c.upstreamIn.length) (hout : c.upstreamOut <+: framed msg)
    (hcl : c.clientOut = []) (hpro : c.processed = []) : Within cfg msg reply rest rest' c := by
  have hexp : (expected cfg msg reply).upstream = framed msg := by
    unfold expected
    rw [hfwd]
    dsimp only
    split <;> rfl
  refine ⟨hin ▸ Nat.le_refl _, hup, hexp ▸ hout, ?_, ?_⟩
  · rw [hcl]
    exact List.nil_prefix
  · rw [hpro]
    exact List.nil_prefix

theorem ended_of_forward (hfwd : handleRequest cfg msg = .forward) (hin : c.clientIn = rest)
    (hup : rest'.length ≤ c.upstreamIn.length) (hout : c.upstreamOut <+: framed msg)
    (hcl : c.clientOut = []) (hpro : c.processed = []) {ok : Prop}
    (hok : ok → reply = [] ∧ c.upstreamOut = framed msg) :
    Stage cfg msg reply rest rest' ok c.finish := by
  refine .ended rfl (within_of_forward hfwd hin hup hout hcl hpro).finish fun hgood => ?_
  obtain ⟨hnil, hall⟩ := hok hgood
  unfold expected
  rw [hfwd]
  dsimp only
  rw [if_pos hnil]
  show Trace.mk c.upstreamOut c.processed c.clientOut = _
  rw [hall, hpro, hcl]

theorem Unanswered.ended (h : Unanswered cfg msg rest c ex)
    (hup : rest'.length ≤ c.upstreamIn.length) {ok : Prop} (hok : ok → reply = []) :
    Stage cfg msg reply rest rest' ok c.finish :=
  ended_of_forward h.forward h.clientIn hup (h.upstreamOut ▸ List.prefix_refl _) h.clientOut
    h.processed fun hg => ⟨hok hg, h.upstreamOut⟩

theorem Unanswered.goOn (h : Unanswered cfg msg rest c ex) (e : Exchange) :
    Unanswered cfg msg rest (c.goOn e) ex :=
  ⟨h.forward, h.client, h.upstream, h.connecting, h.lenBuf, h.clientIn, h.upstreamOut, h.clientOut,
    h.processed⟩

theorem Awaiting.rest_le (h : Awaiting cfg msg reply rest rest' c ex) :
    rest'.length ≤ c.upstreamIn.length := by
  rcases h.got with ⟨-, hlt, -, hsame⟩ | ⟨-, -, b, -, hlen, hlt, hsame⟩
  · have htotal := congrArg List.length hsame
    rw [List.length_append, List.length_append, List.length_take, length_framed] at htotal
    omega
  · have htotal := congrArg List.length hsame
    rw [List.length_append, List.length_append, List.length_take] at htotal
    omega

theorem Answering.within (h : Answering cfg msg reply rest rest' c ex) :
    Within cfg msg reply rest rest' c := by
  refine ⟨h.clientIn, h.upstreamIn, ?_, ?_, ?_⟩
  · simp only [h.upstreamOut, List.prefix_refl]
  · rw [h.clientOut]
    exact List.take_prefix _ _
  · simp only [h.processed, List.prefix_refl]

end Steps

/-! ## Runs -/

def Ev.Good : Ev → Prop
  | .client env | .upstream env => env.Good
  | .timeout => False

def Ev.Moves : Ev → Prop
  | .client env | .upstream env => env.Moves
  | .timeout => True

section Runs

variable {cfg : Config} {msg reply rest rest' : Bytes}

theorem Stage.within {ok : Prop} {c : Conn} (h : Stage cfg msg reply rest rest' ok c) :
    Within cfg msg reply rest rest' c := by
  cases h with
  | asked hex h => exact h.unasked.within h.rest_le
  | asking hex h =>
    refine within_of_forward h.forward h.clientIn (length_le_of_append h.upstreamIn) ?_ h.clientOut
      h.processed
    rw [h.upstreamOut]
    exact List.take_prefix _ _
  | awaiting hex h =>
    have hu := h.unanswered
    exact within_of_forward hu.forward hu.clientIn h.rest_le (hu.upstreamOut ▸ List.prefix_refl _)
      hu.clientOut hu.processed
  | answering hex h => exact h.within
  | ended hex hw _ => exact hw

theorem Stage.mono {ok ok' : Prop} (himp : ok' → ok) {c : Conn}
    (h : Stage cfg msg reply rest rest' ok c) : Stage cfg msg reply rest rest' ok' c := by
  cases h with
  | asked hex h => exact .asked hex h
  | asking hex h => exact .asking hex h
  | awaiting hex h => exact .awaiting hex h
  | answering hex h => exact .answering hex h
  | ended hex hw hok => exact .ended hex hw fun hok' => hok (himp hok')

theorem run_cons {c c' : Conn} {ev : Ev} {evs : List Ev} (h : run cfg c (ev :: evs) = some c') :
    ∃ c₁, step cfg c ev = some c₁ ∧ run cfg c₁ evs = some c' := by
  unfold run at h
  rw [List.foldlM_cons] at h
  exact Option.bind_eq_some_iff.mp h

end Runs

end MagiTrickle.Dns.Framing
