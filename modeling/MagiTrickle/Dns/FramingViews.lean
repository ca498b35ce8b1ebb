import MagiTrickle.Dns.Inflight
import MagiTrickle.Dns.Segments

/-!
# The lengths of a TCP exchange (`dns/proxy.c`)

`Dns.Framing` has the bytes of one exchange over TCP, `Dns.Transport` the lengths
of all of them with their descriptors and registrations. Here the first is seen
as a part of the second: whatever the streams of an exchange hold and however the
kernel cuts them, the proxy with lengths has a run of the same callbacks in which
the exchange has the lengths of these buffers, and its connections wait for the
same callbacks (`run_views`).
-/

namespace MagiTrickle.Dns.Framing

open MagiTrickle.Dns.Wire
open MagiTrickle.Dns.Transport (Io Status Cb Dnsproxy Result)

/-- An exchange with the lengths of its buffers. -/
structure Views (t : Transport.Exchange) (f : Exchange) : Prop where
  isTcp : t.isTcp = true
  timer : t.timer.isSome = f.timer
  connecting : t.connecting = f.connecting
  req : t.req = f.req.map List.length
  reqSent : t.reqSent = f.reqSent
  reqGot : t.reqGot = f.reqGot
  lenGot : t.lenGot = f.lenGot
  resp : t.resp = f.resp.map List.length
  respGot : t.respGot = f.respGot
  out : t.out = f.out.map List.length
  outSent : t.outSent = f.outSent
  reqGot_le : f.reqGot ≤ (f.req.getD []).length
  respGot_le : f.respGot ≤ (f.resp.getD []).length
  respExpected : ∀ b, f.resp = some b → f.respExpected = b.length
  unasked : f.client = .reading → f.upstream = none ∧ f.resp = none

def ClientWatch.cb : ClientWatch → Cb
  | .reading => .onTcpClientRead
  | .waiting | .writing => .onClientWritable

def UpstreamWatch.cb : UpstreamWatch → Cb
  | .onUpstreamWritable => .onUpstreamWritable
  | .onUpstream => .onUpstream

/-- And with its registrations in the loop. -/
structure Held (p : Dnsproxy) (t : Transport.Exchange) (f : Exchange) : Prop where
  views : Views t f
  client : ∃ fd, t.clientFd = some fd ∧ p.watch fd = some (f.client.cb, t.id)
  upstream : match f.upstream with
    | none => t.upstreamFd = none
    | some w => ∃ fd, t.upstreamFd = some fd ∧ p.watch fd = some (w.cb, t.id)

def Flags (cfg : Config) (p : Dnsproxy) : Prop :=
  p.disableFakePtr = cfg.disableFakePtr ∧ p.disableDropAaaa = cfg.disableDropAaaa

/-- What a callback has left of the exchange `id`. -/
structure Left (cfg : Config) (id : Nat) (r : Result) (c : Conn) : Prop where
  flags : Flags cfg r.1
  ex : match c.ex with
    | none => r.2 = none ∧ id ∈ r.1.finished
    | some f => ∃ t, r.2 = some t ∧ t.id = id ∧ Held r.1 t f

/-- The answers with lengths for bytes: `disp` is what the codec makes of the message. -/
def Env.lengths (env : Env) (lenIo io : List Io) (len : UInt16) (disp : Disp) : Transport.Env where
  broken := env.broken
  sockError := env.sockError
  lenIo
  len
  mem := env.mem
  exMem := true
  io
  rearmed := env.rearmed
  parses := disp ≠ .drop
  packs := true
  outMem := env.outMem
  outLen := match disp with
    | .repliedAsync resp => resp.length
    | _ => 0
  singlePtr := match disp with
    | .repliedAsync _ => true
    | _ => false
  fakePtr := true
  framed := env.framedMem
  socket := env.socket
  connect := env.connect
  send := .again
  registered := env.registered
  timer := env.timer

/-! ## Loops -/

/-- A `recv` that finds the stream at its end counts as one that fails. -/
theorem transfer_of_recvLoop (want : Nat) (ios : List Io) (buf : Bytes) (got : Nat)
    (stream : Bytes) : ∃ seen : List Io, Transport.transfer want got seen =
      ((recvLoop want ios buf got stream).got, (recvLoop want ios buf got stream).status) := by
  induction ios generalizing buf got stream with
  | nil => exact ⟨[], rfl⟩
  | cons io ios ih =>
    by_cases hfull : want ≤ got
    · refine ⟨[.again], ?_⟩
      rw [recvLoop_full hfull, Transport.transfer, if_pos hfull]
    · have hrest : got < want := Nat.lt_of_not_le hfull
      rw [recvLoop.eq_def]
      dsimp only
      rw [if_neg hfull]
      cases io with
      | again => exact ⟨[.again], by rw [Transport.transfer, if_neg hfull]⟩
      | failed => exact ⟨[.failed], by rw [Transport.transfer, if_neg hfull]⟩
      | moved n =>
        dsimp only
        split
        · exact ⟨[.failed], by rw [Transport.transfer, if_neg hfull]⟩
        · have hlen : (stream.take (min n (want - got))).length ≤ want - got :=
            (List.length_take_le _ _).trans (Nat.min_le_right _ _)
          obtain ⟨seen, hseen⟩ := ih (store buf got (stream.take (min n (want - got))))
            (got + (stream.take (min n (want - got))).length)
            (stream.drop (stream.take (min n (want - got))).length)
          refine ⟨.moved (stream.take (min n (want - got))).length :: seen, ?_⟩
          rw [Transport.transfer, if_neg hfull, Nat.min_eq_left hlen]
          exact hseen

theorem transfer_of_sendLoop (data : Bytes) (ios : List Io) (sent : Nat) (sink : Bytes) :
    Transport.transfer data.length sent ios =
      ((sendLoop data ios sent sink).sent, (sendLoop data ios sent sink).status) := by
  induction ios generalizing sent sink with
  | nil => rfl
  | cons io ios ih =>
    rw [sendLoop.eq_def, Transport.transfer.eq_def]
    dsimp only
    by_cases hfull : data.length ≤ sent
    · rw [if_pos hfull, if_pos hfull]
    · rw [if_neg hfull, if_neg hfull]
      cases io with
      | again => rfl
      | failed => rfl
      | moved n =>
        dsimp only
        rw [← ih, List.length_take, List.length_drop]

theorem frameLen_lt (lenBuf : Bytes) : frameLen lenBuf < 65536 := by
  unfold frameLen
  have h0 := (lenBuf.getD 0 0).toNat_lt
  have h1 := (lenBuf.getD 1 0).toNat_lt
  have hs : (lenBuf.getD 0 0).toNat <<< 8 < 2 ^ 16 := by
    rw [Nat.shiftLeft_eq]
    omega
  exact Nat.or_lt_two_pow hs (by omega)

theorem toNat_frameLen (lenBuf : Bytes) :
    (UInt16.ofNat (frameLen lenBuf)).toNat = frameLen lenBuf :=
  UInt16.toNat_ofNat_of_lt' (frameLen_lt lenBuf)

theorem frameLen_eq_zero (lenBuf : Bytes) :
    UInt16.ofNat (frameLen lenBuf) = 0 ↔ frameLen lenBuf = 0 := by
  rw [← UInt16.toNat_inj, toNat_frameLen]
  rfl

/-- A length is refused by the bytes and by its value. -/
theorem refused_iff (lenBuf : Bytes) (mem : Bool) :
    (frameLen lenBuf = 0 ∨ frameLen lenBuf > tcpMaxMsg ∨ ¬ mem = true) ↔
      (UInt16.ofNat (frameLen lenBuf) = 0 ∨ ¬ mem = true) := by
  rw [frameLen_eq_zero]
  have hle : ¬ frameLen lenBuf > tcpMaxMsg :=
    Nat.not_lt.mpr (Nat.le_of_lt_succ (frameLen_lt lenBuf))
  rw [or_iff_right hle]

theorem length_malloc (env : Env) (n : Nat) : (malloc env n).length = n := by
  simp [malloc]

theorem getD_lengths (o : Option Bytes) : (o.map List.length).getD 0 = (o.getD []).length := by
  cases o <;> rfl

/-! ## Callbacks -/

section Callbacks

variable {cfg : Config} {p : Dnsproxy} {t : Transport.Exchange} {c : Conn} {f : Exchange}

theorem Flags.finish (hflags : Flags cfg p) :
    Flags cfg (Transport.exchangeFinish p t false).1 := by
  have htimer : Flags cfg (Transport.dropTimer p t) := by
    unfold Transport.dropTimer
    cases t.timer <;> exact hflags
  have hupstream : Flags cfg (Transport.dropUpstream (Transport.dropTimer p t) t false) := by
    unfold Transport.dropUpstream
    cases t.upstreamFd with
    | none => exact htimer
    | some fd =>
      dsimp only
      rw [if_neg nofun]
      exact htimer
  unfold Transport.exchangeFinish Transport.dropClient
  cases t.clientFd <;> exact hupstream

theorem Left.finish (hflags : Flags cfg p) {id : Nat} (hid : t.id = id) (c : Conn) :
    Left cfg id (Transport.exchangeFinish p t false) c.finish where
  flags := hflags.finish
  ex := ⟨rfl, List.mem_append_right _ (hid ▸ List.mem_cons_self)⟩

theorem Left.goOn (hflags : Flags cfg p) (h : Held p t f) (c : Conn) :
    Left cfg t.id (p, some t) (c.goOn f) := ⟨hflags, t, rfl, rfl, h⟩

theorem Left.of_eq {id : Nat} {r r' : Result} (h : r = r') (hl : Left cfg id r' c) :
    Left cfg id r c := h ▸ hl

/-- A step that leaves the registrations alone. -/
theorem Held.modify {t' : Transport.Exchange} {f' : Exchange} (h : Held p t f) (hv : Views t' f')
    (hid : t'.id = t.id) (hc : t'.clientFd = t.clientFd) (hu : t'.upstreamFd = t.upstreamFd)
    (hfc : f'.client.cb = f.client.cb) (hfu : f'.upstream = f.upstream) : Held p t' f' where
  views := hv
  client := by
    rw [hid, hc, hfc]
    exact h.client
  upstream := by
    rw [hid, hu, hfu]
    exact h.upstream

/-- What the callbacks do after a loop around `recv` or `send`. -/
def afterLoop (p : Dnsproxy) (t : Transport.Exchange) (st : Status) (next : Result) : Result :=
  match st with
  | .again => (p, some t)
  | .failed => Transport.exchangeFinish p t false
  | .done => next

def Conn.afterLoop (c : Conn) (f : Exchange) (st : Status) (next : Conn) : Conn :=
  match st with
  | .again => c.goOn f
  | .failed => c.finish
  | .done => next

theorem Left.afterLoop (hflags : Flags cfg p) (h : Held p t f) {st : Status} {next : Result}
    {next' : Conn} (hnext : st = .done → Left cfg t.id next next') :
    Left cfg t.id (afterLoop p t st next) (c.afterLoop f st next') := by
  cases st with
  | again => exact .goOn hflags h c
  | failed => exact .finish hflags rfl c
  | done => exact hnext rfl

theorem cb_of_ne {w : ClientWatch} (h : w ≠ .reading) : w.cb = .onClientWritable := by
  cases w with
  | reading => exact absurd rfl h
  | waiting => rfl
  | writing => rfl

theorem watch_delFd_ne (p : Dnsproxy) {fd fd' : Nat} (hne : fd' ≠ fd) :
    ((p.delFd fd).close fd).watch fd' = p.watch fd' := Function.update_of_ne hne ..

theorem deliverResponse_left (hflags : Flags cfg p) (h : Held p t f) (hf : f.client ≠ .reading)
    (hne : ∀ fd ∈ t.upstreamFd, t.clientFd ≠ some fd) (c : Conn) (env : Env) (resp : Bytes) :
    ∃ disp : Disp, ∀ lenIo io len,
      Left cfg t.id (Transport.deliverResponse p t (env.lengths lenIo io len disp))
        (deliverResponse cfg c f env resp) := by
  unfold deliverResponse
  dsimp only
  cases hr : (if env.codecMem then response cfg resp else none) with
  | none =>
    refine ⟨.drop, fun lenIo io len => ?_⟩
    rw [Transport.deliverResponse, if_pos (by simp [Env.lengths])]
    exact .finish hflags rfl _
  | some out =>
    refine ⟨.repliedAsync out, fun lenIo io len => ?_⟩
    rw [Transport.deliverResponse, if_neg (by simp [Env.lengths]), if_neg (by simp [Env.lengths]),
      if_pos h.views.isTcp]
    dsimp only
    show Left cfg t.id (if ¬ env.outMem = true then _ else _) _
    split
    · exact .finish hflags rfl _
    · have hout : some (out.length + 2) = (some (frame out)).map List.length := by
        rw [Option.map_some, frame_eq_framed, length_framed]
      have hviews : Views { t with out := some (out.length + 2), outSent := 0, upstreamFd := none }
          { f with out := some (frame out), outSent := 0, upstream := none, client := .writing } :=
        { h.views with out := hout, outSent := rfl, unasked := nofun }
      obtain ⟨cfd, hcfd, hwatch⟩ := h.client
      rw [cb_of_ne hf] at hwatch
      cases hu : t.upstreamFd with
      | none => exact ⟨hflags, _, rfl, rfl, hviews, ⟨cfd, hcfd, hwatch⟩, rfl⟩
      | some fd =>
        have hcne : cfd ≠ fd := fun heq => hne fd hu (heq ▸ hcfd)
        exact ⟨hflags, _, rfl, rfl, hviews,
          ⟨cfd, hcfd, (watch_delFd_ne p hcne).trans hwatch⟩, rfl⟩

theorem readResponse_of_resp {n got : Nat} {st : Status} {env : Transport.Env}
    (h : t.resp = some n) (hio : Transport.transfer n t.respGot env.io = (got, st)) :
    Transport.readResponse p t env = afterLoop p { t with respGot := got } st
      (Transport.deliverResponse p { t with respGot := got } env) := by
  unfold Transport.readResponse afterLoop
  cases st <;> simp only [h, Option.getD_some, hio]

theorem readResponse_of_refused {env : Transport.Env} (h : t.resp = none)
    (hno : env.len = 0 ∨ ¬ env.mem = true) :
    Transport.readResponse p t env = Transport.exchangeFinish p t false := by
  unfold Transport.readResponse
  simp only [h, if_pos hno]

theorem readResponse_of_fresh {env : Transport.Env} (h : t.resp = none)
    (hgo : ¬ (env.len = 0 ∨ ¬ env.mem = true)) : Transport.readResponse p t env =
      Transport.readResponse p { t with resp := some env.len.toNat } env := by
  unfold Transport.readResponse
  simp only [h, if_neg hgo]

theorem fillResponse_left (hflags : Flags cfg p) (h : Held p t f) (hf : f.client ≠ .reading)
    (hne : ∀ fd ∈ t.upstreamFd, t.clientFd ≠ some fd) {buf : Bytes} (hbuf : f.resp = some buf)
    (c : Conn) (env : Env) : ∃ (io : List Io) (disp : Disp), ∀ lenIo len,
      Left cfg t.id (Transport.readResponse p t (env.lengths lenIo io len disp))
        (fillResponse cfg c f env) := by
  have hexp : f.respExpected = buf.length := h.views.respExpected buf hbuf
  have hle : f.respGot ≤ buf.length := by
    have h' := h.views.respGot_le
    rwa [hbuf] at h'
  have htresp : t.resp = some buf.length := by rw [h.views.resp, hbuf]; rfl
  have hspec := recvLoop_spec hexp env.io (hexp ▸ hle) c.upstreamIn
  obtain ⟨io, hio⟩ := transfer_of_recvLoop f.respExpected env.io buf f.respGot c.upstreamIn
  unfold fillResponse
  rw [hbuf]
  dsimp only [Option.getD_some]
  generalize recvLoop f.respExpected env.io buf f.respGot c.upstreamIn = r at hspec hio ⊢
  have hheld : Held p { t with respGot := r.got } { f with resp := some r.buf, respGot := r.got } :=
    h.modify
      { h.views with
        resp := by rw [htresp, Option.map_some, hspec.length]
        respGot := rfl
        respGot_le := by
          rw [Option.getD_some, hspec.length, ← hexp]
          exact hspec.le_want
        respExpected := fun b hb => by
          cases hb
          rw [hspec.length, hexp]
        unasked := fun hr => absurd hr hf } rfl rfl rfl rfl rfl
  have hread : ∀ lenIo len disp, Transport.transfer buf.length t.respGot
      (env.lengths lenIo io len disp).io = (r.got, r.status) := by
    intro lenIo len disp
    rw [h.views.respGot, ← hexp]
    exact hio
  obtain ⟨disp, hdisp⟩ := deliverResponse_left hflags hheld hf hne
    { c with upstreamIn := r.rest } env (r.buf.take r.got)
  refine ⟨io, disp, fun lenIo len => ?_⟩
  rw [readResponse_of_resp htresp (hread lenIo len disp)]
  exact .afterLoop hflags hheld fun _ => hdisp lenIo io len

theorem readResponse_left (hflags : Flags cfg p) (h : Held p t f) (hf : f.client ≠ .reading)
    (hne : ∀ fd ∈ t.upstreamFd, t.clientFd ≠ some fd) (c : Conn) (env : Env) :
    ∃ (io : List Io) (disp : Disp), ∀ lenIo,
      Left cfg t.id (Transport.readResponse p t
        (env.lengths lenIo io (UInt16.ofNat (frameLen f.lenBuf)) disp))
        (readResponse cfg c f env) := by
  unfold readResponse allocResponse
  cases hresp : f.resp with
  | some buf =>
    obtain ⟨io, disp, hleft⟩ := fillResponse_left hflags h hf hne hresp c env
    exact ⟨io, disp, fun lenIo => hleft lenIo _⟩
  | none =>
    have hrespT : t.resp = none := by rw [h.views.resp, hresp]; rfl
    dsimp only
    by_cases hbad : frameLen f.lenBuf = 0 ∨ frameLen f.lenBuf > tcpMaxMsg ∨ ¬ env.mem = true
    · refine ⟨[], .drop, fun lenIo => ?_⟩
      rw [if_pos hbad, readResponse_of_refused hrespT ((refused_iff _ _).mp hbad)]
      exact .finish hflags rfl _
    · have hgot : f.respGot = 0 := by
        have hle := h.views.respGot_le
        rw [hresp] at hle
        exact Nat.le_zero.mp hle
      rw [if_neg hbad]
      have hheld : Held p { t with resp := some (UInt16.ofNat (frameLen f.lenBuf)).toNat }
          { f with respExpected := frameLen f.lenBuf,
                   resp := some (malloc env (frameLen f.lenBuf)) } :=
        h.modify
          { h.views with
            resp := by
              rw [toNat_frameLen, Option.map_some, length_malloc]
            respGot_le := by
              rw [hgot]
              exact Nat.zero_le _
            respExpected := fun b hb => by
              cases hb
              exact (length_malloc env _).symm
            unasked := fun hr => absurd hr hf } rfl rfl rfl rfl rfl
      obtain ⟨io, disp, hleft⟩ := fillResponse_left hflags hheld hf hne rfl c env
      refine ⟨io, disp, fun lenIo => ?_⟩
      rw [readResponse_of_fresh hrespT (mt (refused_iff _ _).mpr hbad)]
      exact hleft lenIo _

theorem onUpstream_of_tcp {got : Nat} {st : Status} {env : Transport.Env} (ht : t.isTcp = true)
    (hb : ¬ env.broken = true) (hc : ¬ t.connecting = true)
    (hio : Transport.transfer 2 t.lenGot env.lenIo = (got, st)) :
    Transport.onUpstream p t env = afterLoop p { t with lenGot := got } st
      (Transport.readResponse p { t with lenGot := got } env) := by
  unfold Transport.onUpstream afterLoop
  rw [if_neg hb, if_neg (fun h => hc h.2)]
  cases st <;> simp only [if_neg (not_not_intro ht), hio]

theorem onUpstream_left (hflags : Flags cfg p) (h : Held p t f) (hf : f.client ≠ .reading)
    (hne : ∀ fd ∈ t.upstreamFd, t.clientFd ≠ some fd) (c : Conn) (env : Env) :
    ∃ env', Left cfg t.id (Transport.onUpstream p t env') (onUpstream cfg c f env) := by
  obtain ⟨lenIo, hlenIo⟩ := transfer_of_recvLoop 2 env.lenIo f.lenBuf f.lenGot c.upstreamIn
  unfold onUpstream
  generalize recvLoop 2 env.lenIo f.lenBuf f.lenGot c.upstreamIn = r at hlenIo ⊢
  have hheld : Held p { t with lenGot := r.got } { f with lenBuf := r.buf, lenGot := r.got } :=
    h.modify { h.views with lenGot := rfl } rfl rfl rfl rfl rfl
  obtain ⟨io, disp, hread⟩ :=
    readResponse_left hflags hheld hf hne { c with upstreamIn := r.rest } env
  refine ⟨env.lengths lenIo io (UInt16.ofNat (frameLen r.buf)) disp, ?_⟩
  by_cases hb : env.broken = true
  · rw [if_pos hb]
    exact .of_eq (if_pos hb) (.finish hflags rfl _)
  rw [if_neg hb]
  by_cases hc : f.connecting = true
  · have hcT : t.isTcp = true ∧ t.connecting = true := ⟨h.views.isTcp, h.views.connecting.trans hc⟩
    rw [if_pos hc]
    refine .of_eq ((if_neg hb).trans (if_pos hcT)) ?_
    by_cases hs : env.sockError = true
    · rw [if_pos hs]
      exact .of_eq (if_pos hs) (.finish hflags rfl _)
    · rw [if_neg hs]
      have hup : Held p { t with connecting := false } { f with connecting := false } :=
        h.modify { h.views with connecting := rfl } rfl rfl rfl rfl rfl
      exact .of_eq (if_neg hs) (.goOn hflags hup c)
  · rw [if_neg hc]
    refine .of_eq (onUpstream_of_tcp h.views.isTcp hb (h.views.connecting ▸ hc)
      (h.views.lenGot ▸ hlenIo)) ?_
    exact .afterLoop hflags hheld fun _ => hread lenIo

theorem onClientWritable_of_io {sent : Nat} {st : Status} {env : Transport.Env}
    (hb : ¬ env.broken = true)
    (hio : Transport.transfer (t.out.getD 0) t.outSent env.io = (sent, st)) :
    Transport.onClientWritable p t env = afterLoop p { t with outSent := sent } st
      (Transport.exchangeFinish p { t with outSent := sent } false) := by
  unfold Transport.onClientWritable afterLoop
  cases st <;> simp only [if_neg hb, hio]

theorem onClientWritable_left (hflags : Flags cfg p) (h : Held p t f) (c : Conn) (env : Env) :
    ∃ env', Left cfg t.id (Transport.onClientWritable p t env') (onClientWritable c f env) := by
  refine ⟨env.lengths [] env.io 0 .drop, ?_⟩
  have hio := transfer_of_sendLoop (f.out.getD []) env.io f.outSent c.clientOut
  unfold onClientWritable
  generalize sendLoop (f.out.getD []) env.io f.outSent c.clientOut = r at hio ⊢
  rw [← getD_lengths, ← h.views.out, ← h.views.outSent] at hio
  have hheld : Held p { t with outSent := r.sent } { f with outSent := r.sent } :=
    h.modify { h.views with outSent := rfl } rfl rfl rfl rfl rfl
  by_cases hb : env.broken = true
  · rw [if_pos hb]
    exact .of_eq (if_pos hb) (.finish hflags rfl _)
  · rw [if_neg hb]
    refine .of_eq (onClientWritable_of_io hb hio) ?_
    exact .afterLoop hflags hheld fun _ => .finish hflags rfl _

theorem onUpstreamWritable_of_io {sent : Nat} {st : Status} {env : Transport.Env} {fd : Nat}
    (ht : t.isTcp = true) (hb : ¬ env.broken = true)
    (hs : ¬ (t.connecting = true ∧ env.sockError = true))
    (hio : Transport.transfer (t.req.getD 0) t.reqSent env.io = (sent, st)) :
    Transport.onUpstreamWritable p t fd env =
      afterLoop p { t with connecting := false, reqSent := sent } st
        (if env.rearmed then
          ({ p with watch := Function.update p.watch fd (some (.onUpstream, t.id)) },
            some { t with connecting := false, reqSent := sent })
        else Transport.exchangeFinish (p.delFd fd)
          { t with connecting := false, reqSent := sent } false) := by
  unfold Transport.onUpstreamWritable afterLoop
  rw [if_neg hb, if_neg fun h => hs h.2, hio]
  dsimp only
  rw [ht, Transport.addFd_delFd, Bool.not_true, Bool.and_false]
  cases st with
  | again => rfl
  | failed => rfl
  | done => cases env.rearmed <;> rfl

theorem onUpstreamWritable_left (hflags : Flags cfg p) (h : Held p t f) {fd : Nat}
    (hfd : t.upstreamFd = some fd) (hne : t.clientFd ≠ some fd)
    (hf : f.client ≠ .reading) (c : Conn) (env : Env) :
    ∃ env', Left cfg t.id (Transport.onUpstreamWritable p t fd env')
      (onUpstreamWritable c f env) := by
  refine ⟨env.lengths [] env.io 0 .drop, ?_⟩
  have hio := transfer_of_sendLoop (f.req.getD []) env.io f.reqSent c.upstreamOut
  unfold onUpstreamWritable
  generalize sendLoop (f.req.getD []) env.io f.reqSent c.upstreamOut = r at hio ⊢
  rw [← getD_lengths, ← h.views.req, ← h.views.reqSent] at hio
  have hviews : Views { t with connecting := false, reqSent := r.sent }
      { f with connecting := false, reqSent := r.sent } :=
    { h.views with connecting := rfl, reqSent := rfl }
  by_cases hb : env.broken = true
  · rw [if_pos hb]
    exact .of_eq (if_pos hb) (.finish hflags rfl _)
  rw [if_neg hb]
  by_cases hs : t.connecting = true ∧ env.sockError = true
  · rw [if_pos (h.views.connecting ▸ hs)]
    exact .of_eq ((if_neg hb).trans (if_pos ⟨h.views.isTcp, hs⟩)) (.finish hflags rfl _)
  · rw [if_neg (h.views.connecting ▸ hs)]
    refine .of_eq (onUpstreamWritable_of_io h.views.isTcp hb hs hio) ?_
    refine .afterLoop hflags (h.modify hviews rfl rfl rfl rfl rfl) fun _ => ?_
    by_cases hre : env.rearmed = true
    · rw [if_pos hre]
      obtain ⟨cfd, hcfd, hwatch⟩ := h.client
      have hcne : cfd ≠ fd := fun heq => hne (heq ▸ hcfd)
      refine .of_eq (if_pos hre) ⟨hflags, _, rfl, rfl, ?_, ?_, ?_⟩
      · exact { hviews with unasked := fun hr => absurd hr hf }
      · exact ⟨cfd, hcfd, (Function.update_of_ne hcne ..).trans hwatch⟩
      · exact ⟨fd, hfd, Function.update_self ..⟩
    · rw [if_neg hre]
      exact .of_eq (if_neg hre) (.finish (p := p.delFd fd) hflags rfl _)

/-! ## Requests -/

theorem addTimer_of_none {fd : Nat} (h : p.watch fd = none) (cb : Cb) (env : Transport.Env) :
    (match p.addFd fd cb t.id env.registered with
      | none => Transport.exchangeFinish p t false
      | some p => Transport.addTimer p t env) =
    if env.registered then
      Transport.addTimer { p with watch := Function.update p.watch fd (some (cb, t.id)) } t env
    else Transport.exchangeFinish p t false := by
  rw [Transport.addFd_of_none h]
  cases env.registered <;> rfl

theorem length_le_frame (req : Option Bytes) :
    (req.getD []).length ≤ ((req.map frame).getD []).length := by
  cases req with
  | none => exact Nat.le_refl _
  | some b => exact Nat.le_add_right b.length 2

theorem startUpstream_left (hflags : Flags cfg p) (h : Held p t f) (hf : f.client ≠ .reading)
    (hresp : f.resp = none) (hnext : p.watch p.fds.next = none)
    (hne : t.clientFd ≠ some p.fds.next) (c : Conn) (env : Env) (lenIo io : List Io)
    (len : UInt16) (disp : Disp) :
    Left cfg t.id (Transport.startUpstream p t (env.lengths lenIo io len disp))
      (startUpstream c f env) := by
  have hreq : t.req.map (· + 2) = (f.req.map frame).map List.length := by
    rw [h.views.req]
    cases f.req with
    | none => rfl
    | some b => simp [frame]
  refine .of_eq (if_pos h.views.isTcp) ?_
  unfold startUpstream
  dsimp only
  by_cases hm : env.framedMem = true
  swap
  · rw [if_pos hm]
    exact .of_eq (if_pos hm) (.finish hflags rfl _)
  rw [if_neg (not_not_intro hm)]
  refine .of_eq (if_neg (not_not_intro hm)) ?_
  by_cases hs : env.socket = true
  swap
  · rw [if_pos hs]
    exact .of_eq (if_pos hs) (.finish hflags rfl _)
  rw [if_neg (not_not_intro hs)]
  refine .of_eq (if_neg (not_not_intro hs)) ?_
  by_cases hc : env.connect = .failed
  · rw [if_pos hc]
    exact .of_eq (if_pos hc) (.finish (p := p.opened) hflags (by rfl) c)
  rw [if_neg hc]
  refine .of_eq (if_neg hc) ?_
  have hopened : p.opened.watch p.fds.next = none := hnext
  refine .of_eq (addTimer_of_none hopened _ _) ?_
  by_cases hr : env.registered = true
  swap
  · rw [if_pos hr]
    exact .of_eq (if_neg hr) (.finish (p := p.opened) hflags (by rfl) c)
  rw [if_neg (not_not_intro hr)]
  refine .of_eq (if_pos hr) ?_
  by_cases ht : env.timer = true
  swap
  · rw [if_pos ht]
    refine .of_eq (if_neg ht) (.finish ?_ (by rfl) c)
    exact hflags
  · rw [if_neg (not_not_intro ht)]
    refine .of_eq (if_pos ht) ⟨hflags, _, rfl, rfl, ?_, ?_, ?_⟩
    · have hle : f.reqGot ≤ ((f.req.map frame).getD []).length :=
        h.views.reqGot_le.trans (length_le_frame f.req)
      exact { h.views with
        timer := rfl
        connecting := rfl
        req := hreq
        reqSent := rfl
        lenGot := rfl
        respGot := rfl
        reqGot_le := hle
        respGot_le := Nat.zero_le _
        respExpected := fun b hb => nomatch hresp.symm.trans hb
        unasked := fun hr => absurd hr hf }
    · obtain ⟨cfd, hcfd, hwatch⟩ := h.client
      have hcne : cfd ≠ p.fds.next := fun heq => hne (heq ▸ hcfd)
      exact ⟨cfd, hcfd, (Function.update_of_ne hcne ..).trans hwatch⟩
    · exact ⟨p.fds.next, rfl, Function.update_self ..⟩

theorem enabled_of_repliedAsync {req resp : Bytes}
    (h : handleRequest cfg req = .repliedAsync resp) : cfg.disableFakePtr = false := by
  unfold handleRequest at h
  cases hp : msgParse req with
  | error e => simp only [hp] at h; cases h
  | ok m =>
    simp only [hp] at h
    split at h
    · next hptr => exact eq_false_of_ne_true hptr.1
    · cases h

/-- The proxy with lengths does with a request what the codec makes of its bytes. -/
theorem handleRequestCommon_lengths (ht : t.isTcp = true) {disp : Disp}
    (hon : ∀ resp, disp = .repliedAsync resp → p.disableFakePtr = false) (env : Env)
    (lenIo io : List Io) (len : UInt16) :
    Transport.handleRequestCommon p t (env.lengths lenIo io len disp) =
      match disp with
      | .drop => .drop
      | .repliedAsync resp => if env.outMem then .repliedAsync (resp.length + 2) else .drop
      | .forward => .forward := by
  unfold Transport.handleRequestCommon Env.lengths
  cases disp with
  | drop => rfl
  | repliedAsync resp => simp [hon resp rfl, ht]
  | forward => simp

theorem requestRead_left (hflags : Flags cfg p) (h : Held p t f) (hf : f.client = .reading)
    {fd : Nat} (hfd : t.clientFd = some fd) (hlt : fd < p.fds.next)
    (hnext : p.watch p.fds.next = none) (c : Conn) (env : Env) :
    ∃ disp : Disp, ∀ lenIo io len,
      Left cfg t.id (Transport.requestRead p t fd (env.lengths lenIo io len disp))
        (requestRead cfg c f env) := by
  obtain ⟨hup, hresp⟩ := h.views.unasked hf
  have hupT : t.upstreamFd = none := by
    have hu := h.upstream
    rwa [hup] at hu
  have hon : ∀ resp, (if env.codecMem then handleRequest cfg (f.req.getD []) else .drop) =
      .repliedAsync resp → p.disableFakePtr = false := by
    intro resp hr
    split at hr
    · exact hflags.1.trans (enabled_of_repliedAsync hr)
    · cases hr
  unfold requestRead
  dsimp only
  generalize (if env.codecMem then handleRequest cfg (f.req.getD []) else .drop) = disp at hon ⊢
  refine ⟨disp, fun lenIo io len => ?_⟩
  unfold Transport.requestRead
  rw [Transport.addFd_delFd]
  by_cases hre : env.rearmed = true
  swap
  · rw [if_pos hre]
    have hno : (if (env.lengths lenIo io len disp).rearmed = true then
      some { p with watch := Function.update p.watch fd (some (.onClientWritable, t.id)) }
      else none) = none := if_neg hre
    rw [hno]
    exact .finish (p := p.delFd fd) hflags rfl c
  rw [if_neg (not_not_intro hre)]
  have hyes : (if (env.lengths lenIo io len disp).rearmed = true then
    some { p with watch := Function.update p.watch fd (some (.onClientWritable, t.id)) }
    else none) = some _ := if_pos hre
  rw [hyes]
  dsimp only
  generalize hq : { p with watch := Function.update p.watch fd (some (.onClientWritable, t.id)) } = q
  have hflags' : Flags cfg q := hq ▸ hflags
  have hheld : Held q t { f with client := .waiting } := by
    subst hq
    refine ⟨{ h.views with unasked := nofun }, ⟨fd, hfd, Function.update_self ..⟩, ?_⟩
    rw [hup]
    exact hupT
  rw [handleRequestCommon_lengths h.views.isTcp (hq ▸ hon)]
  cases disp with
  | drop => exact .finish hflags' rfl c
  | repliedAsync resp =>
    by_cases hm : env.outMem = true
    swap
    · simp only [if_neg hm, if_pos hm]
      exact .finish hflags' rfl c
    · have hout : some (resp.length + 2) = (some (frame resp)).map List.length := rfl
      have hviews : Views { t with out := some (resp.length + 2) }
          { f with client := .writing, out := some (frame resp) } :=
        { hheld.views with out := hout, unasked := nofun }
      simp only [if_pos hm, if_neg (not_not_intro hm)]
      exact .goOn hflags' (hheld.modify hviews rfl rfl rfl rfl rfl) c
  | forward =>
    have hqnext : q.watch q.fds.next = none := by
      subst hq
      exact (Function.update_of_ne (Nat.ne_of_gt hlt) ..).trans hnext
    have hqne : t.clientFd ≠ some q.fds.next := by
      subst hq
      rw [hfd]
      exact fun heq => Nat.ne_of_lt hlt (Option.some.inj heq)
    exact startUpstream_left hflags' hheld nofun hresp hqnext hqne c env lenIo io len .forward

theorem readRequest_of_req {n got : Nat} {st : Status} {env : Transport.Env} {fd : Nat}
    (h : t.req = some n) (hio : Transport.transfer n t.reqGot env.io = (got, st)) :
    Transport.readRequest p t fd env = afterLoop p { t with reqGot := got } st
      (Transport.requestRead p { t with reqGot := got } fd env) := by
  unfold Transport.readRequest afterLoop
  cases st <;> simp only [h, Option.getD_some, hio]

theorem readRequest_of_refused {env : Transport.Env} {fd : Nat} (h : t.req = none)
    (hno : env.len = 0 ∨ ¬ env.mem = true) :
    Transport.readRequest p t fd env = Transport.exchangeFinish p t false := by
  unfold Transport.readRequest
  simp only [h, if_pos hno]

theorem readRequest_of_fresh {env : Transport.Env} {fd : Nat} (h : t.req = none)
    (hgo : ¬ (env.len = 0 ∨ ¬ env.mem = true)) : Transport.readRequest p t fd env =
      Transport.readRequest p { t with req := some env.len.toNat, reqGot := 0 } fd env := by
  unfold Transport.readRequest
  simp only [h, if_neg hgo]

theorem fillRequest_left (hflags : Flags cfg p) (h : Held p t f) (hf : f.client = .reading)
    {fd : Nat} (hfd : t.clientFd = some fd) (hlt : fd < p.fds.next)
    (hnext : p.watch p.fds.next = none) {buf : Bytes} (hbuf : f.req = some buf) (c : Conn)
    (env : Env) : ∃ (io : List Io) (disp : Disp), ∀ lenIo len,
      Left cfg t.id (Transport.readRequest p t fd (env.lengths lenIo io len disp))
        (fillRequest cfg c f env) := by
  have hle : f.reqGot ≤ buf.length := by
    have h' := h.views.reqGot_le
    rwa [hbuf] at h'
  have htreq : t.req = some buf.length := by rw [h.views.req, hbuf]; rfl
  have hspec := recvLoop_spec rfl env.io hle c.clientIn
  obtain ⟨io, hio⟩ := transfer_of_recvLoop buf.length env.io buf f.reqGot c.clientIn
  unfold fillRequest
  rw [hbuf]
  dsimp only [Option.getD_some]
  generalize recvLoop buf.length env.io buf f.reqGot c.clientIn = r at hspec hio ⊢
  have hheld : Held p { t with reqGot := r.got } { f with req := some r.buf, reqGot := r.got } :=
    h.modify
      { h.views with
        req := by rw [htreq, Option.map_some, hspec.length]
        reqGot := rfl
        reqGot_le := by
          rw [Option.getD_some, hspec.length]
          exact hspec.le_want } rfl rfl rfl rfl rfl
  have hread : ∀ lenIo len disp, Transport.transfer buf.length t.reqGot
      (env.lengths lenIo io len disp).io = (r.got, r.status) := by
    intro lenIo len disp
    rw [h.views.reqGot]
    exact hio
  obtain ⟨disp, hdisp⟩ := requestRead_left hflags hheld hf hfd hlt hnext
    { c with clientIn := r.rest } env
  refine ⟨io, disp, fun lenIo len => ?_⟩
  rw [readRequest_of_req htreq (hread lenIo len disp)]
  exact .afterLoop hflags hheld fun _ => hdisp lenIo io len

theorem readRequest_left (hflags : Flags cfg p) (h : Held p t f) (hf : f.client = .reading)
    {fd : Nat} (hfd : t.clientFd = some fd) (hlt : fd < p.fds.next)
    (hnext : p.watch p.fds.next = none) (c : Conn) (env : Env) :
    ∃ (io : List Io) (disp : Disp), ∀ lenIo,
      Left cfg t.id (Transport.readRequest p t fd
        (env.lengths lenIo io (UInt16.ofNat (frameLen f.lenBuf)) disp))
        (readRequest cfg c f env) := by
  unfold readRequest allocRequest
  cases hreq : f.req with
  | some buf =>
    obtain ⟨io, disp, hleft⟩ := fillRequest_left hflags h hf hfd hlt hnext hreq c env
    exact ⟨io, disp, fun lenIo => hleft lenIo _⟩
  | none =>
    have hreqT : t.req = none := by rw [h.views.req, hreq]; rfl
    dsimp only
    by_cases hbad : frameLen f.lenBuf = 0 ∨ frameLen f.lenBuf > tcpMaxMsg ∨ ¬ env.mem = true
    · refine ⟨[], .drop, fun lenIo => ?_⟩
      rw [if_pos hbad, readRequest_of_refused hreqT ((refused_iff _ _).mp hbad)]
      exact .finish hflags rfl _
    · rw [if_neg hbad]
      have hheld : Held p
          { t with req := some (UInt16.ofNat (frameLen f.lenBuf)).toNat, reqGot := 0 }
          { f with req := some (malloc env (frameLen f.lenBuf)), reqGot := 0 } :=
        h.modify
          { h.views with
            req := by
              rw [toNat_frameLen, Option.map_some, length_malloc]
            reqGot := rfl
            reqGot_le := Nat.zero_le _ } rfl rfl rfl rfl rfl
      obtain ⟨io, disp, hleft⟩ := fillRequest_left hflags hheld hf hfd hlt hnext rfl c env
      refine ⟨io, disp, fun lenIo => ?_⟩
      rw [readRequest_of_fresh hreqT (mt (refused_iff _ _).mpr hbad)]
      exact hleft lenIo _

theorem onTcpClientRead_of_io {got : Nat} {st : Status} {env : Transport.Env} {fd : Nat}
    (hb : ¬ env.broken = true) (hio : Transport.transfer 2 t.lenGot env.lenIo = (got, st)) :
    Transport.onTcpClientRead p t fd env = afterLoop p { t with lenGot := got } st
      (Transport.readRequest p { t with lenGot := got } fd env) := by
  unfold Transport.onTcpClientRead afterLoop
  cases st <;> simp only [if_neg hb, hio]

theorem onTcpClientRead_left (hflags : Flags cfg p) (h : Held p t f) (hf : f.client = .reading)
    {fd : Nat} (hfd : t.clientFd = some fd) (hlt : fd < p.fds.next)
    (hnext : p.watch p.fds.next = none) (c : Conn) (env : Env) :
    ∃ env', Left cfg t.id (Transport.onTcpClientRead p t fd env')
      (onTcpClientRead cfg c f env) := by
  obtain ⟨lenIo, hlenIo⟩ := transfer_of_recvLoop 2 env.lenIo f.lenBuf f.lenGot c.clientIn
  unfold onTcpClientRead
  generalize recvLoop 2 env.lenIo f.lenBuf f.lenGot c.clientIn = r at hlenIo ⊢
  have hheld : Held p { t with lenGot := r.got } { f with lenBuf := r.buf, lenGot := r.got } :=
    h.modify { h.views with lenGot := rfl } rfl rfl rfl rfl rfl
  obtain ⟨io, disp, hread⟩ :=
    readRequest_left hflags hheld hf hfd hlt hnext { c with clientIn := r.rest } env
  refine ⟨env.lengths lenIo io (UInt16.ofNat (frameLen r.buf)) disp, ?_⟩
  by_cases hb : env.broken = true
  · rw [if_pos hb]
    exact .of_eq (if_pos hb) (.finish hflags rfl c)
  · rw [if_neg hb]
    refine .of_eq (onTcpClientRead_of_io hb (h.views.lenGot ▸ hlenIo)) ?_
    exact .afterLoop hflags hheld fun _ => hread lenIo

end Callbacks

/-! ## Runs -/

/-- The exchange `id` of the proxy with lengths, before the `others`. -/
def Carries (cfg : Config) (id : Nat) (others : List Transport.Exchange) (s : Transport.State)
    (c : Conn) : Prop :=
  ∃ r, s = .after r others ∧ Left cfg id r c

/-- The loop calls back for the same exchange. -/
def Ev.Same (id : Nat) : Ev → Transport.Ev → Prop
  | .client _, e | .upstream _, e => ∃ fd env, e = .ready fd env
  | .timeout, e => e = .timeout id

theorem pick_head (t : Transport.Exchange) (others : List Transport.Exchange) :
    Transport.pick (t :: others) t.id = some (t, others) := by
  have hfind : (t :: others).find? (fun e => e.id = t.id) = some t :=
    List.find?_cons_of_pos (decide_eq_true rfl)
  unfold Transport.pick
  rw [hfind, Option.map_some, List.erase_cons_head]

theorem step_ready {p : Dnsproxy} {t : Transport.Exchange} {others : List Transport.Exchange}
    {fd : Nat} {cb : Cb} (hw : p.watch fd = some (cb, t.id)) (env : Transport.Env) :
    Transport.step (.after (p, some t) others) (.ready fd env) =
      some (.after (Transport.callback p t cb fd env) others) :=
  Transport.step_ready hw (pick_head t others) env

theorem step_timeout {p : Dnsproxy} {t : Transport.Exchange} {others : List Transport.Exchange}
    (ht : t.timer.isSome = true) :
    Transport.step (.after (p, some t) others) (.timeout t.id) =
      some (.after (Transport.onTimeout p t) others) :=
  Transport.step_timeout (pick_head t others) ht

theorem Carries.of_left {cfg : Config} {id : Nat} {others : List Transport.Exchange} {r : Result}
    {c : Conn} (h : Left cfg id r c) : Carries cfg id others (.after r others) c := ⟨r, rfl, h⟩

section Step

variable {cfg : Config} {id n : Nat} {others : List Transport.Exchange} {p : Dnsproxy}
  {t : Transport.Exchange} {f : Exchange} {s : Transport.State} {c c' : Conn}

/-- The proxy with lengths has a callback for `ev` after which it carries `c'`. -/
def Answers (cfg : Config) (id : Nat) (others : List Transport.Exchange) (s : Transport.State)
    (ev : Ev) (c' : Conn) : Prop :=
  ∃ e s', ev.Same id e ∧ Transport.step s e = some s' ∧ Carries cfg id others s' c'

theorem Held.not_reading (h : Held p t f) {w : UpstreamWatch} (hw : f.upstream = some w) :
    f.client ≠ .reading := fun hr => nomatch hw.symm.trans (h.views.unasked hr).1

theorem fd_ne_of_nodup (h : t.fds.Nodup) {fd : Nat} (hu : fd ∈ t.upstreamFd) :
    t.clientFd ≠ some fd := by
  intro hc
  unfold Transport.Exchange.fds at h
  rw [Option.mem_def.mp hu, hc] at h
  exact (List.nodup_append.mp (List.nodup_append.mp h).2.1).2.2 fd
    List.mem_cons_self fd List.mem_cons_self rfl

theorem client_step (hflags : Flags cfg p) (h : Held p t f)
    (hinv : Transport.Inv n p (t :: others)) (hc : c.ex = some f) {env : Env}
    (hs : step cfg c (.client env) = some c') :
    Answers cfg t.id others (.after (p, some t) others) (.client env) c' := by
  obtain ⟨cfd, hcfd, hwatch⟩ := h.client
  have hlt : cfd < p.fds.next := hinv.balanced.lt (hinv.held_of_watch hwatch)
  have hwrite : f.client ≠ .reading → Answers cfg t.id others (.after (p, some t) others)
      (.client env) (onClientWritable c f env) := by
    intro hf
    rw [cb_of_ne hf] at hwatch
    obtain ⟨env', hleft⟩ := onClientWritable_left hflags h c env
    exact ⟨_, _, ⟨cfd, env', rfl⟩, step_ready hwatch env', .of_left hleft⟩
  unfold Framing.step at hs
  rw [hc] at hs
  dsimp only at hs
  cases hf : f.client with
  | reading =>
    rw [hf] at hs hwatch
    cases hs
    obtain ⟨env', hleft⟩ := onTcpClientRead_left hflags h hf hcfd hlt hinv.watch_next c env
    exact ⟨_, _, ⟨cfd, env', rfl⟩, step_ready hwatch env', .of_left hleft⟩
  | waiting =>
    rw [hf] at hs hwrite
    dsimp only at hs
    split at hs
    · cases hs
      exact hwrite nofun
    · cases hs
  | writing =>
    rw [hf] at hs hwrite
    cases hs
    exact hwrite nofun

theorem upstream_step (hflags : Flags cfg p) (h : Held p t f) (hnodup : t.fds.Nodup)
    (hc : c.ex = some f) {env : Env} (hs : step cfg c (.upstream env) = some c') :
    Answers cfg t.id others (.after (p, some t) others) (.upstream env) c' := by
  have hup := h.upstream
  unfold Framing.step at hs
  rw [hc] at hs
  dsimp only at hs
  cases hw : f.upstream with
  | none =>
    rw [hw] at hs
    cases hs
  | some w =>
    rw [hw] at hs hup
    obtain ⟨fd, hfd, hwatch⟩ := hup
    cases w with
    | onUpstreamWritable =>
      cases hs
      obtain ⟨env', hleft⟩ := onUpstreamWritable_left hflags h hfd (fd_ne_of_nodup hnodup hfd)
        (h.not_reading hw) c env
      exact ⟨_, _, ⟨fd, env', rfl⟩, step_ready hwatch env', .of_left hleft⟩
    | onUpstream =>
      cases hs
      obtain ⟨env', hleft⟩ := onUpstream_left hflags h (h.not_reading hw)
        (fun _ => fd_ne_of_nodup hnodup) c env
      exact ⟨_, _, ⟨fd, env', rfl⟩, step_ready hwatch env', .of_left hleft⟩

theorem timeout_step (hflags : Flags cfg p) (h : Held p t f) (hc : c.ex = some f)
    (hs : step cfg c .timeout = some c') :
    Answers cfg t.id others (.after (p, some t) others) .timeout c' := by
  unfold Framing.step at hs
  rw [hc] at hs
  dsimp only at hs
  split at hs
  · next ht =>
    cases hs
    have hfin : Left cfg t.id (Transport.onTimeout p t) c.finish :=
      .finish (p := { p with fired := t.timer.toList ++ p.fired }) hflags (by rfl) c
    exact ⟨_, _, rfl, step_timeout (h.views.timer.trans ht), .of_left hfin⟩
  · cases hs

/-- **One callback** on the bytes is one on the lengths. -/
theorem Carries.step (h : Carries cfg id others s c) (hinv : Transport.Inv n s.proxy s.live)
    {ev : Ev} (hs : step cfg c ev = some c') : Answers cfg id others s ev c' := by
  obtain ⟨⟨p, o⟩, rfl, hflags, hex⟩ := h
  cases hc : c.ex with
  | none =>
    unfold Framing.step at hs
    rw [hc] at hs
    cases hs
  | some f =>
    rw [hc] at hex
    obtain ⟨t, rfl, rfl, hheld⟩ := hex
    have hinv : Transport.Inv n p (t :: others) := hinv
    have hnodup : t.fds.Nodup := (List.nodup_append.mp hinv.held.nodup_held).1
    cases ev with
    | client env => exact client_step hflags hheld hinv hc hs
    | upstream env => exact upstream_step hflags hheld hnodup hc hs
    | timeout => exact timeout_step hflags hheld hc hs

/-- **A run** on the bytes of an exchange is a run on the lengths. -/
theorem Carries.run (h : Carries cfg id others s c) (hinv : Transport.Inv n s.proxy s.live)
    {evs : List Ev} (hrun : run cfg c evs = some c') :
    ∃ es s', List.Forall₂ (Ev.Same id) evs es ∧ Transport.run s es = some s' ∧
      Carries cfg id others s' c' := by
  induction evs generalizing c s n with
  | nil =>
    cases hrun
    exact ⟨[], s, .nil, rfl, h⟩
  | cons ev evs ih =>
    obtain ⟨c₁, hstep, hrun⟩ := run_cons hrun
    obtain ⟨e, s₁, hsame, hs₁, hcar⟩ := h.step hinv hstep
    obtain ⟨es, s', hall, hes, hend⟩ := ih hcar (hinv.step hs₁) hrun
    refine ⟨e :: es, s', .cons hsame hall, ?_, hend⟩
    unfold Transport.run
    rw [List.foldlM_cons]
    exact Option.bind_eq_some_iff.mpr ⟨s₁, hs₁, hes⟩

end Step

/-- The connection of a client that has been accepted, with nothing read yet. -/
theorem carries_accepted {cfg : Config} {s : Transport.State} (hflags : Flags cfg s.proxy)
    {n : Nat} (hinv : Transport.Inv n s.proxy s.live) (hroom : ¬ s.proxy.full = true)
    {env : Transport.Env} (hmem : env.exMem = true) (hreg : env.registered = true)
    (clientIn upstreamIn : Bytes) :
    Carries cfg s.proxy.nextEx s.live (.after (Transport.onTcpAccept s.proxy env) s.live)
      (accepted clientIn upstreamIn) := by
  have hopened : s.proxy.opened.counted.watch s.proxy.fds.next = none := hinv.watch_next
  have haccept : Transport.onTcpAccept s.proxy env =
      ({ s.proxy.opened.counted with
          watch := Function.update s.proxy.watch s.proxy.fds.next
            (some (.onTcpClientRead, s.proxy.nextEx)) },
        some (Transport.newExchange s.proxy.nextEx true (some s.proxy.fds.next) none)) := by
    have hfull : ¬ s.proxy.opened.full = true := hroom
    unfold Transport.onTcpAccept
    dsimp only
    rw [if_neg hfull, if_neg (not_not_intro hmem), Transport.addFd_of_none hopened, if_pos hreg]
    rfl
  rw [haccept]
  refine .of_left ⟨hflags, _, rfl, rfl, ?_, ⟨_, rfl, Function.update_self ..⟩, rfl⟩
  exact ⟨rfl, rfl, rfl, rfl, rfl, rfl, rfl, rfl, rfl, rfl, rfl, Nat.le_refl _, Nat.le_refl _,
    nofun, fun _ => ⟨rfl, rfl⟩⟩

/-- **The bytes of an exchange have their lengths**: in any state of the proxy in which a
connection is accepted, every run on the bytes of that connection is a run of the proxy on their
lengths, and when the exchange is over there it is freed here. -/
theorem run_views (cfg : Config) {s : Transport.State} {n : Nat}
    (hinv : Transport.Inv n s.proxy s.live) (hflags : Flags cfg s.proxy)
    (hroom : ¬ s.proxy.full = true) {env : Transport.Env} (hmem : env.exMem = true)
    (hreg : env.registered = true) {clientIn upstreamIn : Bytes} {evs : List Ev} {c : Conn}
    (hrun : run cfg (accepted clientIn upstreamIn) evs = some c) :
    ∃ es s', List.Forall₂ (Ev.Same s.proxy.nextEx) evs es ∧
      Transport.run s (.accept env :: es) = some s' ∧
      Carries cfg s.proxy.nextEx s.live s' c := by
  have hcar := carries_accepted hflags hinv hroom hmem hreg clientIn upstreamIn
  obtain ⟨es, s', hsame, hes, hend⟩ := hcar.run (hinv.onTcpAccept env) hrun
  refine ⟨es, s', hsame, ?_, hend⟩
  unfold Transport.run
  rw [List.foldlM_cons]
  exact hes

/-- So an exchange that is over on the bytes is freed here, with the other exchanges as they were,
and its descriptors are closed but for the timer that has ended it. -/
theorem over_views (cfg : Config) {s : Transport.State} {n : Nat}
    (hinv : Transport.Inv n s.proxy s.live) (hflags : Flags cfg s.proxy)
    (hroom : ¬ s.proxy.full = true) {env : Transport.Env} (hmem : env.exMem = true)
    (hreg : env.registered = true) {clientIn upstreamIn : Bytes} {evs : List Ev} {c : Conn}
    (hrun : run cfg (accepted clientIn upstreamIn) evs = some c) (hover : c.ex = none) :
    ∃ es s', Transport.run s (.accept env :: es) = some s' ∧ s'.live = s.live ∧
      s.proxy.nextEx ∈ s'.proxy.finished ∧
      s'.proxy.fds.Balanced (s.live.flatMap Transport.Exchange.fds ++ s'.proxy.fired) := by
  obtain ⟨es, s', -, hes, ⟨p, o⟩, rfl, -, hex⟩ :=
    run_views cfg hinv hflags hroom hmem hreg hrun
  rw [hover] at hex
  obtain ⟨rfl, hfinished⟩ := hex
  exact ⟨es, _, hes, rfl, hfinished, (hinv.run hes).balanced⟩

end MagiTrickle.Dns.Framing
