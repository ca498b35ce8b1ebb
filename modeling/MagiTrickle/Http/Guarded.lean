import MagiTrickle.Http.Server

/-!
# Handlers of the API run with a token

The middleware looks at the beginning of the path as text, the router at its
segments. For a path that `path_clean` has written the two agree: it has one
slash in front, so that a first segment `api` with another behind it is the text
`/api/`. Hence a route of the API is never reached past the middleware.
-/

namespace MagiTrickle.Http

variable {σ : Type}

/-! ## Clean paths -/

/-- The path of a request that was read: one slash in front. The path of a connection without a
request is empty. -/
def CleanPath (p : Bytes) : Prop := p = [] ∨ ∃ rest, p = slash :: rest ∧ rest.head? ≠ some slash

theorem mem_segments {s seg : Bytes} (h : seg ∈ segments s) : seg ≠ [] ∧ slash ∉ seg := by
  obtain ⟨hne, hsep⟩ := Lib.Words.isWord_of_mem_fields h
  exact ⟨hne, fun hs => absurd (hsep slash hs) (by simp)⟩

theorem mem_keepSegments {segs kept : List Bytes} {P : Bytes → Prop} (hs : ∀ seg ∈ segs, P seg)
    (hk : ∀ seg ∈ kept, P seg) : ∀ seg ∈ segs.foldl keepSegment kept, P seg := by
  induction segs generalizing kept with
  | nil => exact hk
  | cons s segs ih =>
    refine ih (fun seg h => hs seg (List.mem_cons_of_mem _ h)) fun seg h => ?_
    unfold keepSegment at h
    split at h
    · exact hk seg h
    split at h
    · exact hk seg (List.mem_of_mem_dropLast h)
    split at h
    · rcases List.mem_append.mp h with h | h
      · exact hk seg h
      · rw [List.mem_singleton.mp h]
        exact hs s (List.mem_cons_self ..)
    · exact hk seg h

theorem exists_writeSegment (cap : Nat) (out : Bytes) (first : Bool) (seg : Bytes) :
    ∃ more, writeSegment cap out first seg = out ++ more := by
  unfold writeSegment
  dsimp only
  split
  · exact ⟨_, List.append_assoc ..⟩
  · exact ⟨_, rfl⟩

theorem exists_writeSegments (cap : Nat) (out : Bytes) (segs : List Bytes) :
    ∃ more, segs.foldl (writeSegment cap · false) out = out ++ more := by
  induction segs generalizing out with
  | nil => exact ⟨[], (List.append_nil _).symm⟩
  | cons seg segs ih =>
    obtain ⟨m₁, h₁⟩ := exists_writeSegment cap out false seg
    obtain ⟨m₂, h₂⟩ := ih (writeSegment cap out false seg)
    refine ⟨m₁ ++ m₂, ?_⟩
    rw [List.foldl_cons, h₂, h₁, List.append_assoc]

/-- **`path_clean`** writes clean paths. -/
theorem cleanPath_pathClean (text : Bytes) : CleanPath (pathClean text 512) := by
  right
  have hkept : ∀ seg ∈ (segments text).foldl keepSegment [], seg ≠ [] ∧ slash ∉ seg :=
    mem_keepSegments (fun seg h => mem_segments h) (fun seg h => (nomatch h))
  unfold pathClean
  split
  · exact ⟨[], rfl, by simp⟩
  · next seg segs heq =>
    obtain ⟨hne, hslash⟩ := hkept seg (heq ▸ List.mem_cons_self ..)
    obtain ⟨a, as, rfl⟩ := List.exists_cons_of_ne_nil hne
    -- at least the first byte of the first segment fits
    have hfirst : ∃ more, writeSegment 512 [slash] true (a :: as) = slash :: a :: more := by
      unfold writeSegment
      simp only [Bool.not_true, Bool.false_eq_true, false_and, ↓reduceIte, List.length_singleton]
      split
      · exact ⟨_, rfl⟩
      · exact ⟨_, by rw [List.take_length]; rfl⟩
    obtain ⟨m₁, h₁⟩ := hfirst
    obtain ⟨m₂, h₂⟩ := exists_writeSegments 512 (slash :: a :: m₁) segs
    refine ⟨a :: m₁ ++ m₂, ?_, ?_⟩
    · rw [h₁, h₂]
      rfl
    · intro h
      have ha : a = slash := Option.some_inj.mp h
      exact hslash (ha ▸ List.mem_cons_self ..)

theorem cleanPath_parseHeaders {block : Bytes} {head : Head} (h : parseHeaders block = some head) :
    CleanPath head.req.path := by
  unfold parseHeaders at h
  obtain ⟨⟨line, rest⟩, -, h⟩ := Option.bind_eq_some_iff.mp h
  obtain ⟨⟨method, line'⟩, -, h⟩ := Option.bind_eq_some_iff.mp h
  dsimp only at h
  split at h
  · cases h
  · obtain ⟨⟨target, version⟩, -, h⟩ := Option.bind_eq_some_iff.mp h
    cases h
    exact cleanPath_pathClean _

/-- In a clean path the first of several segments stands between the first two slashes. -/
theorem CleanPath.eq_of_segments {p a b : Bytes} {more : List Bytes} (hp : CleanPath p)
    (h : segments p = a :: b :: more) : ∃ tail, p = slash :: (a ++ slash :: tail) := by
  rcases hp with rfl | ⟨rest, rfl, hhead⟩
  · simp [segments, Lib.Words.fields] at h
  · rw [segments, Lib.Words.fields_cons_sep (by simp)] at h
    have hword : ∀ c ∈ rest.head?, decide (c = slash) = false := by
      intro c hc
      rw [decide_eq_false_iff_not]
      rintro rfl
      exact hhead hc
    obtain ⟨s, tail, hs, rfl⟩ := Lib.Words.eq_of_fields hword h
    rw [of_decide_eq_true hs]
    exact ⟨tail, rfl⟩

/-! ## Routes -/

/-- A pattern of the API that needs a token. -/
def Protected (pattern : Bytes) : Prop :=
  str "/api/" <+: pattern ∧ pattern ≠ str "/api/v1/auth"

instance (pattern : Bytes) : Decidable (Protected pattern) :=
  inferInstanceAs (Decidable (str "/api/" <+: pattern ∧ pattern ≠ str "/api/v1/auth"))

/-- The protected patterns start with the segment `api` and go on, and none fits the path of the
login. -/
theorem segments_protected : ∀ r ∈ apiRoutes, Protected r.2 →
    (splitSegments r.2 maxSegments).head? = some (str "api") ∧
      2 ≤ (splitSegments r.2 maxSegments).length ∧
      ((splitSegments r.2 maxSegments).length = 3 → matchSegs
        ((splitSegments r.2 maxSegments).zip [str "api", str "v1", str "auth"]) [] = none) := by
  decide +kernel

/-- A path that a protected route fits is one that the middleware asks a token for. -/
theorem asks_of_params? {r : Bytes × Bytes} (hr : r ∈ apiRoutes) (hp : Protected r.2)
    {fn : Handler σ} {method path : Bytes} (hpath : CleanPath path) {params : List Kv}
    (h : (⟨r.1, r.2, fn⟩ : Route σ).params? method path = some params) :
    str "/api/" <+: path ∧ path ≠ str "/api/v1/auth" := by
  obtain ⟨hhead, hlen, hlogin⟩ := segments_protected r hr hp
  unfold Route.params? at h
  dsimp only at h
  split at h
  · next hsame =>
    constructor
    · -- the first two segments of the path are there, and the first is `api`
      obtain ⟨b, more, hpat⟩ : ∃ b more, splitSegments r.2 maxSegments = str "api" :: b :: more := by
        match splitSegments r.2 maxSegments, hhead, hlen with
        | x :: b :: more, hhead, _ => exact ⟨b, more, by rw [Option.some_inj.mp hhead]⟩
      rw [hpat] at h hsame
      obtain ⟨a, c, more', hsegs⟩ : ∃ a c more', splitSegments path maxSegments = a :: c :: more' := by
        match splitSegments path maxSegments, hsame.2 with
        | a :: c :: more', _ => exact ⟨a, c, more', rfl⟩
      rw [hsegs, List.zip_cons_cons, matchSegs, if_neg (by decide +kernel)] at h
      split at h
      · next ha =>
        subst ha
        have hall : segments path = str "api" :: c :: (more' ++ (segments path).drop maxSegments) := by
          rw [← List.cons_append, ← List.cons_append, ← hsegs]
          exact (List.take_append_drop ..).symm
        obtain ⟨tail, rfl⟩ := hpath.eq_of_segments hall
        exact ⟨tail, rfl⟩
      · cases h
    · rintro rfl
      have hsegs : splitSegments (str "/api/v1/auth") maxSegments =
          [str "api", str "v1", str "auth"] := by decide +kernel
      rw [hsegs] at h hsame
      rw [hlogin hsame.2] at h
      cases h
  · cases h

theorem mem_of_matchRoute {routes : List (Route σ)} {method path : Bytes} {r : Route σ}
    {params : List Kv} (h : matchRoute routes method path = some (r, params)) :
    r ∈ routes ∧ r.params? method path = some params := by
  obtain ⟨r', hmem, hr⟩ := List.exists_of_findSome?_eq_some h
  obtain ⟨params', hp, heq⟩ := Option.map_eq_some_iff.mp hr
  cases heq
  exact ⟨hmem, hp⟩

/-! ## Calls -/

/-- Every call of a protected handler comes right behind an accepted verification of the token of
the same request. -/
def Guarded (calls : List Call) : Prop :=
  ∀ pre pattern req post, calls = pre ++ .handler pattern req :: post → Protected pattern →
    ∃ pre' token, pre = pre' ++ [.verifyToken token true] ∧ bearerToken req.headers = some token

theorem Guarded.snoc {calls : List Call} (h : Guarded calls) {call : Call}
    (hcall : ∀ pattern req, call = .handler pattern req → Protected pattern →
      ∃ pre' token, calls = pre' ++ [.verifyToken token true] ∧
        bearerToken req.headers = some token) : Guarded (calls ++ [call]) := by
  intro pre pattern req post heq hp
  rcases List.eq_nil_or_concat post with rfl | ⟨post', last, rfl⟩
  · obtain ⟨rfl, hlast⟩ := List.append_inj' heq rfl
    exact hcall pattern req (List.singleton_inj.mp hlast) hp
  · rw [List.concat_eq_append, ← List.cons_append, ← List.append_assoc] at heq
    obtain ⟨hcalls, -⟩ := List.append_inj' heq rfl
    exact h pre pattern req post' hcalls hp

/-- What the middleware lets pass was verified, or needs no token. -/
theorem authMiddleware_proceed {b : Backend σ} (hauth : b.authEnabled = true) {s s' : Logged σ}
    {req : Req} {res res' : Res} (h : authMiddleware b s req res = (s', res', true)) :
    (s' = s ∧ ¬ (str "/api/" <+: req.path ∧ req.path ≠ str "/api/v1/auth")) ∨
      ∃ token, bearerToken req.headers = some token ∧
        s'.calls = s.calls ++ [.verifyToken token true] := by
  unfold authMiddleware at h
  split at h
  · next hno =>
    cases h
    exact .inl ⟨rfl, fun hask => hno hask.1⟩
  split at h
  · next hno =>
    cases h
    refine .inl ⟨rfl, fun hask => ?_⟩
    rcases hno with hno | hlogin
    · exact hno hauth
    · exact hask.2 hlogin
  split at h
  · cases h
  · next token htoken =>
    dsimp only at h
    split at h
    · next haccepted =>
      cases h
      exact .inr ⟨token, htoken, by rw [haccepted]⟩
    · cases h

theorem authMiddleware_stop {b : Backend σ} {s s' : Logged σ} {req : Req} {res res' : Res}
    (h : authMiddleware b s req res = (s', res', false)) :
    s' = s ∨ ∃ token, s'.calls = s.calls ++ [.verifyToken token false] := by
  unfold authMiddleware at h
  split at h
  · cases h
  split at h
  · cases h
  split at h
  · cases h
    exact .inl rfl
  · next token htoken =>
    dsimp only at h
    split at h
    · cases h
    · next haccepted =>
      cases h
      exact .inr ⟨token, by rw [Bool.not_eq_true] at haccepted; rw [haccepted]⟩

theorem Guarded.verify {calls : List Call} (h : Guarded calls) (token : Bytes) (accepted : Bool) :
    Guarded (calls ++ [.verifyToken token accepted]) :=
  h.snoc fun _ _ heq => (nomatch heq)

/-- **Answering** a request with a clean path. -/
theorem Guarded.answer {b : Backend σ} (hauth : b.authEnabled = true) {s : Logged σ} {req : Req}
    (h : Guarded s.calls) (hpath : CleanPath req.path) :
    Guarded ((tcpSite b).answer s req).1.calls := by
  unfold Site.answer
  rw [show (tcpSite b).middleware = some (authMiddleware b) from rfl]
  dsimp only
  generalize hm : authMiddleware b s req .start = m
  obtain ⟨s', res', proceed⟩ := m
  cases proceed with
  | false =>
    rw [if_neg (by simp)]
    rcases authMiddleware_stop hm with rfl | ⟨token, hcalls⟩
    · exact h
    · show Guarded s'.calls
      rw [hcalls]
      exact h.verify token false
  | true =>
    have hpass := authMiddleware_proceed hauth hm
    have hs' : Guarded s'.calls := by
      rcases hpass with ⟨rfl, -⟩ | ⟨token, -, hcalls⟩
      · exact h
      · rw [hcalls]
        exact h.verify token true
    rw [if_pos rfl]
    dsimp only
    split
    · next r params hroute =>
      obtain ⟨hmem, hparams⟩ := mem_of_matchRoute hroute
      obtain ⟨⟨method, pattern⟩, hapi, rfl⟩ := List.mem_map.mp hmem
      refine hs'.snoc fun pattern' req' heq hp => ?_
      cases heq
      rcases hpass with ⟨-, hno⟩ | ⟨token, htoken, hcalls⟩
      · exact absurd (asks_of_params? hapi hp hpath hparams) hno
      · exact ⟨s.calls, token, hcalls, htoken⟩
    · exact hs'

/-! ## Runs -/

section Runs

variable {b : Backend σ} {w w' : World (Logged σ)} {c c' : Conn} {r : After (Logged σ)}

/-- The calls so far are guarded, and the connection has a clean path. -/
def Safe (r : After (Logged σ)) : Prop :=
  Guarded r.1.app.calls ∧ ∀ c, r.2 = some c → CleanPath c.req.path

theorem safe_connClose (h : Guarded w.app.calls) (env : Env) : Safe (connClose w c env) :=
  ⟨h, fun _ hc => (nomatch hc)⟩

theorem safe_startWrite (h : Guarded w.app.calls) (hc : CleanPath c.req.path) (env : Env) :
    Safe (startWrite w c env) := by
  obtain ⟨hsame, hconn⟩ := startWrite_spec w c env
  refine ⟨hsame.app ▸ h, fun c' hc' => ?_⟩
  rcases hconn c' hc' with ⟨sent, -, rfl⟩ | ⟨-, id, rfl⟩
  · exact hc
  · exact .inl rfl

/-- The request that is complete has the path that was read. -/
theorem safe_handle (hauth : b.authEnabled = true) {n : Nat} (h : Guarded w.app.calls)
    (hc : CleanPath c.req.path) (env : Env) :
    Safe (handleCompleteRequest (tcpSite b) n w c env) := by
  have hpath : CleanPath c.request.path := hc
  have hanswer := h.answer hauth hpath
  unfold handleCompleteRequest
  generalize (tcpSite b).answer w.app c.request = answer at hanswer
  refine safe_startWrite ?_ ?_ env
  · exact hanswer
  · exact hc

theorem cleanPath_feed {bytes : Bytes} (hc : CleanPath c.req.path)
    (h : (feed c bytes).conn = some c') : CleanPath c'.req.path := by
  unfold feed at h
  dsimp only at h
  split at h
  · rw [conn_settle] at h
    cases h
    exact hc
  · split at h
    · unfold readHeaders at h
      split at h
      · cases h
      next head hhead =>
      split at h
      · cases h
      · rw [conn_settle] at h
        cases h
        exact cleanPath_parseHeaders hhead
    · split at h
      · cases h
      · cases h
        exact hc

theorem req_grow {mem : Bool} (h : c.grow mem = some c') : c'.req = c.req := by
  unfold Conn.grow at h
  split at h
  · split at h
    · cases h
      rfl
    · cases h
  · cases h
    rfl

theorem safe_readLoop (hauth : b.authEnabled = true) {n : Nat} {env : Env} {answers : List Recv}
    (h : Guarded w.app.calls) (hc : CleanPath c.req.path)
    (hr : readLoop (tcpSite b) n w env c answers = some r) : Safe r := by
  induction answers generalizing c with
  | nil =>
    rw [readLoop] at hr
    split at hr
    · cases hr
      exact safe_connClose h env
    · next c₁ hg =>
      cases hr
      refine ⟨h, fun c' hc' => ?_⟩
      cases hc'
      rw [req_grow hg]
      exact hc
  | cons a rest ih =>
    rw [readLoop] at hr
    split at hr
    · cases hr
    next c₁ hg =>
    have hc₁ : CleanPath c₁.req.path := req_grow hg ▸ hc
    split at hr
    · cases hr
    cases a with
    | again =>
      obtain ⟨-, rfl⟩ := of_returns hr
      refine ⟨h, fun c' hc' => ?_⟩
      cases hc'
      exact hc₁
    | eof =>
      obtain ⟨-, rfl⟩ := of_returns hr
      exact safe_connClose h env
    | failed =>
      obtain ⟨-, rfl⟩ := of_returns hr
      exact safe_connClose h env
    | data bytes =>
      have hfeed : ∀ c₂, (feed c₁ bytes).conn = some c₂ → CleanPath c₂.req.path :=
        fun _ => cleanPath_feed hc₁
      dsimp only at hr
      split at hr
      · cases hr
      split at hr
      · next c₂ hf =>
        rw [hf] at hfeed
        exact ih (hfeed c₂ rfl) hr
      · obtain ⟨-, rfl⟩ := of_returns hr
        exact safe_connClose h env
      · next c₂ hf =>
        rw [hf] at hfeed
        obtain ⟨-, rfl⟩ := of_returns hr
        exact safe_handle hauth h (hfeed c₂ rfl) env

theorem safe_callback (hauth : b.authEnabled = true) {n : Nat} {e : Ev} (h : Guarded w.app.calls)
    (hc : CleanPath c.req.path) (hr : Callback (tcpSite b) n w c e r) : Safe r := by
  cases e with
  | accept fd fcntl mem env => exact hr.elim
  | readable id broken answers env =>
    obtain ⟨-, hr⟩ := hr
    unfold onConnReadable at hr
    split at hr
    · obtain ⟨-, rfl⟩ := of_returns hr
      exact safe_connClose h env
    · obtain ⟨hsame, id, hid⟩ := resetIdleTimer_spec w c env.timer
      refine safe_readLoop hauth (hsame.app ▸ h) ?_ hr
      rw [hid]
      exact hc
  | writable id broken env =>
    obtain ⟨-, rfl⟩ := hr
    unfold onConnWritable
    split
    · exact safe_connClose h env
    · exact safe_startWrite h hc env
  | idleTimeout id env =>
    obtain ⟨-, rfl⟩ := hr
    exact safe_connClose h env

end Runs

/-- The calls so far are guarded, and every connection has a clean path. -/
structure SafeServer (s : Httpd (Logged σ)) : Prop where
  calls : Guarded s.world.app.calls
  paths : ∀ c ∈ s.conns, CleanPath c.req.path

theorem SafeServer.onAccept {s : Httpd (Logged σ)} (h : SafeServer s) (fd : Nat) (fcntl mem : Bool)
    (env : Env) : SafeServer (onAccept s fd fcntl mem env) := by
  unfold Http.onAccept
  split
  · dsimp only
    split
    · exact ⟨h.calls, h.paths⟩
    · next loop _ _ =>
      obtain ⟨hsame, id, hid⟩ :=
        resetIdleTimer_spec { s.world with loop } (connNew s.nextConn fd) env.timer
      refine ⟨?_, fun c hc => ?_⟩
      · dsimp only
        rw [hsame.app]
        exact h.calls
      rcases List.mem_cons.mp hc with rfl | hc
      · rw [hid]
        exact .inl rfl
      · exact h.paths c hc
  · exact h

/-- **One event** keeps the server safe. -/
theorem SafeServer.step {b : Backend σ} (hauth : b.authEnabled = true) {s s' : Httpd (Logged σ)}
    (h : SafeServer s) {e : Ev} (hs : step (tcpSite b) s e = some s') : SafeServer s' := by
  rcases step_cases hs with ⟨fd, fcntl, mem, env, rfl, rfl⟩ | ⟨c, others, r, hperm, -, hcb, hw, hconns, -⟩
  · exact h.onAccept fd fcntl mem env
  have hpath := h.paths c (hperm.mem_iff.mp (List.mem_cons_self ..))
  obtain ⟨hcalls, hconn⟩ := safe_callback hauth h.calls hpath hcb
  refine ⟨hw ▸ hcalls, fun d hd => ?_⟩
  rw [hconns] at hd
  rcases List.mem_append.mp hd with hd | hd
  · exact hconn d (Option.mem_toList.mp hd)
  · exact h.paths d (hperm.mem_iff.mp (List.mem_cons_of_mem _ hd))

theorem SafeServer.run {b : Backend σ} (hauth : b.authEnabled = true) {s s' : Httpd (Logged σ)}
    (h : SafeServer s) {evs : List Ev} (hs : run (tcpSite b) s evs = some s') : SafeServer s' := by
  induction evs generalizing s with
  | nil =>
    cases hs
    exact h
  | cons e evs ih =>
    obtain ⟨s₁, h₁, h₂⟩ := Option.bind_eq_some_iff.mp
      ((List.foldlM_cons (f := Http.step (tcpSite b))).symm.trans hs)
    exact ih (h.step hauth h₁) h₂

/-- **No API handler runs unauthenticated**: whatever bytes the clients send, in whatever pieces, a
handler registered under a protected pattern is called only right behind an accepted verification of
the bearer token of its request. -/
theorem run_guarded (b : Backend σ) (hauth : b.authEnabled = true) (app : σ) (evs : List Ev)
    (s : Httpd (Logged σ)) (h : run (tcpSite b) (.create ⟨app, []⟩) evs = some s) :
    Guarded s.world.app.calls := by
  have hcreate : SafeServer (Httpd.create (⟨app, []⟩ : Logged σ)) := by
    refine ⟨fun pre pattern req post heq => ?_, ?_⟩
    · exact absurd heq.symm (by simp [Httpd.create])
    · intro c hc
      cases hc
  exact (hcreate.run hauth h).calls

def oneToken : Backend Unit where
  handler := fun _ _ app _ res => (app, res.write 200 none [])
  verifyToken := fun app token => (app, token = str "abc")
  authEnabled := true
  static := fun app _ res => (app, res.write 200 none [])

def disguised : List Ev :=
  [.accept 5 true true allGood,
    .readable 0 false
      [.data (str "GET /%61pi//x/../v1/./groups HTTP/1.1\r\nAuthorization: Bearer abc\r\n\r\n")]
      allGood]

/-- The token is verified, then the handler runs. -/
theorem run_guarded_disguised :
    (run (tcpSite oneToken) (.create ⟨(), []⟩) disguised).map (fun s => s.world.app.calls) =
      some [.verifyToken (str "abc") true, .handler (str "/api/v1/groups")
        ⟨str "GET", str "/api/v1/groups", [], [], [⟨str "Authorization", str "Bearer abc"⟩], []⟩] ∧
    ∀ s, run (tcpSite oneToken) (.create ⟨(), []⟩) disguised = some s →
      Guarded s.world.app.calls := by
  refine ⟨by decide +kernel, fun s h => ?_⟩
  exact run_guarded oneToken rfl () disguised s h

end MagiTrickle.Http
