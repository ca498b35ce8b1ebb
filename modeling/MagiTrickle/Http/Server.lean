import MagiTrickle.Http.Dispatch
import MagiTrickle.Platform.Loop

/-!
# Connections of the HTTP server (`api/httpd.c`)

A connection reads one request into its buffer, hands it to the router, writes
the response and starts over. The loop waits for one thing at a time:
`start_write` switches the callback of the descriptor, so that a connection is
read from exactly while it has no response (`wbuf`). Each connection has a timer
in the loop that is set anew whenever something happens.

The kernel and the allocator answer as the events say. An event that they cannot
bring about, such as more bytes than were asked for, has no step.
-/

namespace MagiTrickle.Http

open MagiTrickle.Platform

def maxHeaderBytes : Nat := 8192
def maxBodyBytes : Nat := 1024 * 1024
def maxConns : Nat := 64

/-- `mt_http_conn`; `rbuf` holds the bytes read so far. -/
structure Conn where
  /-- Stands for the pointer. -/
  id : Nat
  fd : Nat
  rbuf : Bytes
  rbufCap : Nat
  headersDone : Bool
  headerEnd : Nat
  contentLength : Nat
  req : Req
  wbuf : Option Bytes
  wbufSent : Nat
  closeAfterWrite : Bool
  http10 : Bool
  /-- Zero for none. -/
  idleTimerId : Nat

/-- `conn_new`. -/
def connNew (id fd : Nat) : Conn where
  id
  fd
  rbuf := []
  rbufCap := 0
  headersDone := false
  headerEnd := 0
  contentLength := 0
  req := .empty
  wbuf := none
  wbufSent := 0
  closeAfterWrite := false
  http10 := false
  idleTimerId := 0

/-- What `recv` returns. -/
inductive Recv where
  | data (bytes : Bytes)
  | again
  /-- Zero bytes: the client has closed. -/
  | eof
  | failed
  deriving DecidableEq, Repr

/-- What `send` returns. -/
inductive Send where
  | sent (n : Nat)
  | again
  | failed
  deriving DecidableEq, Repr

/-- The answers to `mt_loop_add_timer`: the descriptor and its registration. -/
structure NewTimer where
  tfd : Except Err Nat
  registered : Except Err Unit

/-- The answers one callback may get besides those of `recv`. -/
structure Env where
  /-- `realloc` of the read buffer. -/
  mem : Bool
  /-- `malloc` of the response. -/
  wmem : Bool
  sends : List Send
  delFd : Except Err Unit
  addFd : Except Err Unit
  timer : NewTimer
  /-- The timer that is set after the response. -/
  rearm : NewTimer

/-- What connections share; the user data of a timer is its connection. -/
structure World (σ : Type) where
  loop : Loop Nat
  app : σ
  /-- The requests that were handed to the router, each with its connection. -/
  handed : List (Nat × Req)

/-- A callback leaves the connection or has closed it. -/
abbrev After (σ : Type) := World σ × Option Conn

variable {σ : Type}

/-! ## Timers and closing -/

/-- `conn_close`; the list of connections is left to the caller. -/
def connClose (w : World σ) (c : Conn) (env : Env) : After σ :=
  let loop := if c.idleTimerId = 0 then w.loop else (w.loop.delTimer c.idleTimerId).1
  ({ w with loop := (loop.delFd c.fd env.delFd).1 }, none)

/-- `on_idle_timeout`: the id is forgotten. -/
def onIdleTimeout (w : World σ) (c : Conn) (env : Env) : After σ :=
  connClose w { c with idleTimerId := 0 } env

/-- `reset_idle_timer`: where the new timer cannot be had there is none. -/
def resetIdleTimer (w : World σ) (c : Conn) (timer : NewTimer) : World σ × Conn :=
  let loop := if c.idleTimerId = 0 then w.loop else (w.loop.delTimer c.idleTimerId).1
  match loop.addTimer timer.tfd c.id timer.registered with
  | (loop, .ok id) => ({ w with loop }, { c with idleTimerId := id })
  | (loop, .error _) => ({ w with loop }, { c with idleTimerId := 0 })

/-! ## Writing -/

/-- `conn_reset_for_next_request`. -/
def connResetForNextRequest (c : Conn) : Conn :=
  { c with
    rbuf := []
    headersDone := false
    headerEnd := 0
    contentLength := 0
    req := .empty
    wbuf := none
    wbufSent := 0 }

/-- How the loop of `start_write` ends. -/
inductive Written where
  | all
  | again (sent : Nat)
  | failed
  deriving DecidableEq, Repr

/-- The loop of `start_write`; when the answers are used up the socket is full. -/
def sendLoop (len : Nat) : Nat → List Send → Written
  | sent, [] => if sent < len then .again sent else .all
  | sent, a :: rest =>
    if len ≤ sent then .all
    else
      match a with
      | .sent n => sendLoop len (sent + min n (len - sent)) rest
      | .again => .again sent
      | .failed => .failed

theorem sendLoop_again {len sent sent' : Nat} {sends : List Send}
    (h : sendLoop len sent sends = .again sent') : sent' < len := by
  induction sends generalizing sent with
  | nil =>
    unfold sendLoop at h
    split at h
    · next hlt =>
      cases h
      exact hlt
    · cases h
  | cons a rest ih =>
    unfold sendLoop at h
    split at h
    · cases h
    next hlt =>
    cases a with
    | sent n => exact ih h
    | again =>
      cases h
      exact Nat.lt_of_not_le hlt
    | failed => cases h

/-- `mt_loop_del_fd` and `mt_loop_add_fd` with the other callback. -/
def switchFd (w : World σ) (c : Conn) (events : Nat) (env : Env) : World σ × Except Err Unit :=
  let r := (w.loop.delFd c.fd env.delFd).1.addFd c.fd events c.id env.addFd
  ({ w with loop := r.1 }, r.2)

/-- `start_write`. -/
def startWrite (w : World σ) (c : Conn) (env : Env) : After σ :=
  match sendLoop (c.wbuf.getD []).length c.wbufSent env.sends with
  | .failed => connClose w c env
  | .again sent =>
    let c := { c with wbufSent := sent }
    match switchFd w c 4 env with
    | (w, .error _) => connClose w c env
    | (w, .ok _) => (w, some c)
  | .all =>
    if c.closeAfterWrite then connClose w c env
    else
      let c := connResetForNextRequest c
      match switchFd w c 1 env with
      | (w, .error _) => connClose w c env
      | (w, .ok _) =>
        let r := resetIdleTimer w c env.rearm
        (r.1, some r.2)

/-- `on_conn_writable`. -/
def onConnWritable (w : World σ) (c : Conn) (broken : Bool) (env : Env) : After σ :=
  if broken then connClose w c env else startWrite w c env

/-! ## The request -/

/-- `reason_phrase`. -/
def reasonPhrase (status : Nat) : Bytes :=
  str (match status with
    | 200 => "OK"
    | 400 => "Bad Request"
    | 401 => "Unauthorized"
    | 404 => "Not Found"
    | 405 => "Method Not Allowed"
    | 409 => "Conflict"
    | 413 => "Payload Too Large"
    | 431 => "Request Header Fields Too Large"
    | 500 => "Internal Server Error"
    | 502 => "Bad Gateway"
    | _ => "")

/-- The text of `build_response_bytes`, for headers that fit its buffer. -/
def responseBytes (res : Res) (close : Bool) : Bytes :=
  let eol := str "\r\n"
  str "HTTP/1.1 " ++ Libc.digits res.status ++ str " " ++ reasonPhrase res.status ++ eol ++
    res.headers.flatMap (fun h => h.name ++ str ": " ++ h.value ++ eol) ++
    str "Content-Length: " ++ Libc.digits res.body.length ++ eol ++
    str "Connection: " ++ str (if close then "close" else "keep-alive") ++ eol ++ eol ++ res.body

/-- Whether the connection is closed after the response to a request. -/
def wantClose (http10 : Bool) (headers : List Kv) (nConns : Nat) : Bool :=
  let byHeader := match findHeader headers (str "Connection") with
    | some v =>
      if sameText v (str "keep-alive") then false
      else if sameText v (str "close") then true
      else http10
    | none => http10
  if maxConns < nConns then true else byHeader

def Conn.request (c : Conn) : Req :=
  { c.req with body := (c.rbuf.drop c.headerEnd).take c.contentLength }

/-- `handle_complete_request`, with `nConns` connections open. -/
def handleCompleteRequest (site : Site σ) (nConns : Nat) (w : World σ) (c : Conn) (env : Env) :
    After σ :=
  let close := wantClose c.http10 c.req.headers nConns
  let (app, res) := site.answer w.app c.request
  let w := { w with app, handed := w.handed ++ [(c.id, c.request)] }
  let wbuf := if env.wmem then some (responseBytes res close) else none
  startWrite w { c with closeAfterWrite := close, wbuf, wbufSent := 0 } env

/-! ## Reading -/

def blankLine : Bytes → Option Nat
  | [] => none
  | a :: rest =>
    match a, rest with
    | 13, 10 :: 13 :: 10 :: _ => some 4
    | 10, 10 :: _ => some 2
    | _, _ => (blankLine rest).map (· + 1)

/-- `cap_needed`. -/
def Conn.capNeeded (c : Conn) : Nat :=
  if c.headersDone then c.headerEnd + c.contentLength else maxHeaderBytes

/-- The bytes that `recv` is asked for. -/
def Conn.want (c : Conn) : Nat := c.capNeeded - c.rbuf.length

/-- The buffer is made large enough, where there is memory. -/
def Conn.grow (c : Conn) (mem : Bool) : Option Conn :=
  if c.rbufCap < c.capNeeded + 1 then
    if mem then some { c with rbufCap := c.capNeeded + 1 } else none
  else some c

/-- What comes of the bytes read: the connection reads on, is closed with an answer of its own, or
has a request. -/
inductive Fed where
  | more (c : Conn)
  | reject (status : Nat)
  | complete (c : Conn)

/-- The end of the loop's body. -/
def settle (c : Conn) : Fed :=
  if c.headersDone ∧ c.headerEnd + c.contentLength ≤ c.rbuf.length then .complete c else .more c

def bodyLength (headers : List Kv) : Nat :=
  match findHeader headers (str "Content-Length") with
  | some v => Libc.strtoul v
  | none => 0

def readHeaders (c : Conn) (headerEnd : Nat) : Fed :=
  match parseHeaders (c.rbuf.take headerEnd) with
  | none => .reject 400
  | some head =>
    if maxBodyBytes < bodyLength head.req.headers then .reject 413
    else
      settle { c with
        headersDone := true
        headerEnd
        contentLength := bodyLength head.req.headers
        req := head.req
        http10 := c.http10 || head.http10 }

/-- The body of the loop of `on_conn_readable` behind `recv`. -/
def feed (c : Conn) (bytes : Bytes) : Fed :=
  let c := { c with rbuf := c.rbuf ++ bytes }
  if c.headersDone then settle c
  else
    match blankLine c.rbuf with
    | some headerEnd => readHeaders c headerEnd
    | none => if maxHeaderBytes ≤ c.rbuf.length then .reject 431 else .more c

/-- The callback returns, with no answer left over. -/
def returns {α : Type} (rest : List Recv) (r : α) : Option α := if rest = [] then some r else none

/-- The loop of `on_conn_readable`; when the answers are used up there is nothing to read. -/
def readLoop (site : Site σ) (nConns : Nat) (w : World σ) (env : Env) :
    Conn → List Recv → Option (After σ)
  | c, [] =>
    match c.grow env.mem with
    | none => some (connClose w c env)
    | some c => some (w, some c)
  | c, a :: rest =>
    match c.grow env.mem with
    | none => none
    | some c =>
      if c.want = 0 then none
      else
        match a with
        | .again => returns rest (w, some c)
        | .eof => returns rest (connClose w c env)
        | .failed => returns rest (connClose w c env)
        | .data bytes =>
          if bytes = [] ∨ c.want < bytes.length then none
          else
            match feed c bytes with
            | .more c => readLoop site nConns w env c rest
            | .reject _ => returns rest (connClose w c env)
            | .complete c => returns rest (handleCompleteRequest site nConns w c env)

/-- `on_conn_readable`. -/
def onConnReadable (site : Site σ) (nConns : Nat) (w : World σ) (c : Conn) (broken : Bool)
    (answers : List Recv) (env : Env) : Option (After σ) :=
  if broken then returns answers (connClose w c env)
  else
    let r := resetIdleTimer w c env.timer
    readLoop site nConns r.1 env r.2 answers

/-! Reading leaves everything alone that does not belong to the request. -/

/-- The two have the same pointer, descriptor, response and timer. -/
structure Conn.Shell (c c' : Conn) : Prop where
  id : c'.id = c.id
  fd : c'.fd = c.fd
  wbuf : c'.wbuf = c.wbuf
  idleTimerId : c'.idleTimerId = c.idleTimerId

/-- The connection that reads on or has a request. -/
def Fed.conn : Fed → Option Conn
  | .more c => some c
  | .reject _ => none
  | .complete c => some c

theorem conn_settle (c : Conn) : (settle c).conn = some c := by
  unfold settle
  split <;> rfl

theorem Conn.shell_feed {c c' : Conn} {bytes : Bytes} (h : (feed c bytes).conn = some c') :
    c.Shell c' := by
  unfold feed at h
  dsimp only at h
  split at h
  · rw [conn_settle] at h
    cases h
    exact ⟨rfl, rfl, rfl, rfl⟩
  · split at h
    · unfold readHeaders at h
      split at h
      · cases h
      split at h
      · cases h
      · rw [conn_settle] at h
        cases h
        exact ⟨rfl, rfl, rfl, rfl⟩
    · split at h
      · cases h
      · cases h
        exact ⟨rfl, rfl, rfl, rfl⟩

theorem Conn.shell_grow {c c' : Conn} {mem : Bool} (h : c.grow mem = some c') : c.Shell c' := by
  unfold Conn.grow at h
  split at h
  · split at h
    · cases h
      exact ⟨rfl, rfl, rfl, rfl⟩
    · cases h
  · cases h
    exact ⟨rfl, rfl, rfl, rfl⟩

theorem of_returns {α : Type} {rest : List Recv} {x y : α} (h : returns rest x = some y) :
    rest = [] ∧ x = y := by
  unfold returns at h
  split at h
  · next hr => exact ⟨hr, Option.some_inj.mp h⟩
  · cases h

/-! ## The server -/

/-- `mt_httpd_t` with its connections, which `n_conns` counts. -/
structure Httpd (σ : Type) where
  world : World σ
  conns : List Conn
  /-- Connections made so far. -/
  nextConn : Nat
  bound : conns.length ≤ maxConns

/-- `mt_httpd_create`. -/
def Httpd.create (app : σ) : Httpd σ where
  world := ⟨.create, app, []⟩
  conns := []
  nextConn := 0
  bound := Nat.zero_le _

inductive Ev where
  /-- A client has connected; whether `fcntl` and `calloc` succeed. -/
  | accept (fd : Nat) (fcntl mem : Bool) (env : Env)
  /-- A connection is ready to be read from; `broken` for `EPOLLERR` or `EPOLLHUP`. -/
  | readable (id : Nat) (broken : Bool) (answers : List Recv) (env : Env)
  | writable (id : Nat) (broken : Bool) (env : Env)
  /-- The timer of a connection fires. -/
  | idleTimeout (id : Nat) (env : Env)

def pick (conns : List Conn) (id : Nat) : Option (Conn × List Conn) :=
  match conns with
  | [] => none
  | c :: cs => if c.id = id then some (c, cs) else (pick cs id).map fun r => (r.1, c :: r.2)

theorem perm_of_pick {conns others : List Conn} {id : Nat} {c : Conn}
    (h : pick conns id = some (c, others)) : (c :: others).Perm conns ∧ c.id = id := by
  induction conns generalizing others with
  | nil => cases h
  | cons d ds ih =>
    rw [pick] at h
    split at h
    · next hid =>
      cases h
      exact ⟨.refl _, hid⟩
    · obtain ⟨⟨c', others'⟩, hpick, heq⟩ := Option.map_eq_some_iff.mp h
      cases heq
      obtain ⟨hperm, hid⟩ := ih hpick
      exact ⟨(List.Perm.swap ..).trans (hperm.cons d), hid⟩

/-- The body of the loop of `on_accept`. -/
def onAccept (s : Httpd σ) (fd : Nat) (fcntl mem : Bool) (env : Env) : Httpd σ :=
  if hroom : fcntl ∧ s.conns.length < maxConns ∧ mem then
    let c := connNew s.nextConn fd
    match s.world.loop.addFd fd 1 c.id env.addFd with
    | (loop, .error _) => { s with world := { s.world with loop } }
    | (loop, .ok _) =>
      let r := resetIdleTimer { s.world with loop } c env.timer
      { world := r.1
        conns := r.2 :: s.conns
        nextConn := s.nextConn + 1
        bound := hroom.2.1 }
  else s

def Httpd.after (s : Httpd σ) (r : After σ) {others : List Conn}
    (h : others.length + 1 ≤ s.conns.length) : Httpd σ where
  world := r.1
  conns := r.2.toList ++ others
  nextConn := s.nextConn
  bound := by
    have hlen : r.2.toList.length ≤ 1 := by cases r.2 <;> simp
    have := s.bound
    rw [List.length_append]
    omega

theorem length_of_pick {conns others : List Conn} {id : Nat} {c : Conn}
    (h : pick conns id = some (c, others)) : others.length + 1 ≤ conns.length :=
  (perm_of_pick h).1.length_eq.le

/-- The step of an event; `none` for one that cannot happen. -/
def step (site : Site σ) (s : Httpd σ) : Ev → Option (Httpd σ)
  | .accept fd fcntl mem env => some (onAccept s fd fcntl mem env)
  | .readable id broken answers env =>
    match h : pick s.conns id with
    | none => none
    | some (c, _) =>
      if c.wbuf.isSome then none
      else
        (onConnReadable site s.conns.length s.world c broken answers env).map fun r =>
          s.after r (length_of_pick h)
  | .writable id broken env =>
    match h : pick s.conns id with
    | none => none
    | some (c, _) =>
      if c.wbuf.isSome then some (s.after (onConnWritable s.world c broken env) (length_of_pick h))
      else none
  | .idleTimeout id env =>
    match h : pick s.conns id with
    | none => none
    | some (c, _) =>
      if c.idleTimerId = 0 then none
      else some (s.after (onIdleTimeout s.world c env) (length_of_pick h))

def run (site : Site σ) (s : Httpd σ) (evs : List Ev) : Option (Httpd σ) :=
  evs.foldlM (step site) s

/-! ## What a step does -/

def Ev.conn : Ev → Option Nat
  | .accept _ _ _ _ => none
  | .readable id _ _ _ => some id
  | .writable id _ _ => some id
  | .idleTimeout id _ => some id

def Callback (site : Site σ) (nConns : Nat) (w : World σ) (c : Conn) (e : Ev) (r : After σ) : Prop :=
  match e with
  | .accept _ _ _ _ => False
  | .readable _ broken answers env =>
    c.wbuf = none ∧ onConnReadable site nConns w c broken answers env = some r
  | .writable _ broken env => c.wbuf.isSome ∧ onConnWritable w c broken env = r
  | .idleTimeout _ env => c.idleTimerId ≠ 0 ∧ onIdleTimeout w c env = r

theorem step_cases {site : Site σ} {s s' : Httpd σ} {e : Ev} (h : step site s e = some s') :
    (∃ fd fcntl mem env, e = .accept fd fcntl mem env ∧ s' = onAccept s fd fcntl mem env) ∨
      ∃ c others r, (c :: others).Perm s.conns ∧ e.conn = some c.id ∧
        Callback site s.conns.length s.world c e r ∧ s'.world = r.1 ∧
          s'.conns = r.2.toList ++ others ∧ s'.nextConn = s.nextConn := by
  cases e with
  | accept fd fcntl mem env =>
    cases h
    exact .inl ⟨fd, fcntl, mem, env, rfl, rfl⟩
  | readable id broken answers env =>
    rw [step] at h
    split at h
    · cases h
    next c others hpick =>
    split at h
    · cases h
    next hw =>
    obtain ⟨r, hr, rfl⟩ := Option.map_eq_some_iff.mp h
    obtain ⟨hperm, rfl⟩ := perm_of_pick hpick
    exact .inr ⟨c, others, r, hperm, rfl, ⟨by simpa using hw, hr⟩, rfl, rfl, rfl⟩
  | writable id broken env =>
    rw [step] at h
    split at h
    · cases h
    next c others hpick =>
    split at h
    · next hw =>
      cases h
      obtain ⟨hperm, rfl⟩ := perm_of_pick hpick
      exact .inr ⟨c, others, _, hperm, rfl, ⟨hw, rfl⟩, rfl, rfl, rfl⟩
    · cases h
  | idleTimeout id env =>
    rw [step] at h
    split at h
    · cases h
    next c others hpick =>
    split at h
    · cases h
    next h0 =>
    cases h
    obtain ⟨hperm, rfl⟩ := perm_of_pick hpick
    exact .inr ⟨c, others, _, hperm, rfl, ⟨h0, rfl⟩, rfl, rfl, rfl⟩

structure World.Same (w w' : World σ) : Prop where
  app : w'.app = w.app
  handed : w'.handed = w.handed

theorem World.Same.trans {w w' w'' : World σ} (h : w.Same w') (h' : w'.Same w'') : w.Same w'' :=
  ⟨h'.app.trans h.app, h'.handed.trans h.handed⟩

theorem resetIdleTimer_spec (w : World σ) (c : Conn) (timer : NewTimer) :
    w.Same (resetIdleTimer w c timer).1 ∧
      ∃ id, (resetIdleTimer w c timer).2 = { c with idleTimerId := id } := by
  unfold resetIdleTimer
  dsimp only
  split
  · exact ⟨⟨rfl, rfl⟩, _, rfl⟩
  · exact ⟨⟨rfl, rfl⟩, _, rfl⟩

theorem same_switchFd (w : World σ) (c : Conn) (events : Nat) (env : Env) :
    w.Same (switchFd w c events env).1 := ⟨rfl, rfl⟩

/-- What is left of a connection by `start_write`: it is closed, waits for room, or is ready for the
next request. -/
theorem startWrite_spec (w : World σ) (c : Conn) (env : Env) :
    w.Same (startWrite w c env).1 ∧ ∀ c', (startWrite w c env).2 = some c' →
      (∃ sent < (c.wbuf.getD []).length, c' = { c with wbufSent := sent }) ∨
      (c.closeAfterWrite = false ∧
        ∃ id, c' = { connResetForNextRequest c with idleTimerId := id }) := by
  unfold startWrite
  split
  · exact ⟨⟨rfl, rfl⟩, fun c' h => (nomatch h)⟩
  · next sent hsent =>
    have hw := same_switchFd w { c with wbufSent := sent } 4 env
    dsimp only
    split
    · next heq =>
      rw [heq] at hw
      exact ⟨⟨hw.app, hw.handed⟩, fun c' h => (nomatch h)⟩
    · next heq =>
      rw [heq] at hw
      exact ⟨hw, fun c' h => .inl ⟨sent, sendLoop_again hsent, (Option.some_inj.mp h).symm⟩⟩
  · split
    · exact ⟨⟨rfl, rfl⟩, fun c' h => (nomatch h)⟩
    next hclose =>
    have hw := same_switchFd w (connResetForNextRequest c) 1 env
    dsimp only
    split
    · next heq =>
      rw [heq] at hw
      exact ⟨⟨hw.app, hw.handed⟩, fun c' h => (nomatch h)⟩
    · next w' _ heq =>
      rw [heq] at hw
      obtain ⟨hsame, id, hid⟩ := resetIdleTimer_spec w' (connResetForNextRequest c) env.rearm
      refine ⟨hw.trans hsame, fun c' h => .inr ⟨by simpa using hclose, id, ?_⟩⟩
      rw [← hid]
      exact (Option.some_inj.mp h).symm

def allGood : Env where
  mem := true
  wmem := true
  sends := [.sent 1000]
  delFd := .ok ()
  addFd := .ok ()
  timer := ⟨.ok 7, .ok ()⟩
  rearm := ⟨.ok 8, .ok ()⟩

def bareSite : Site Unit := ⟨[], none, none⟩

end MagiTrickle.Http
