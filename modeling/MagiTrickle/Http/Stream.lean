import MagiTrickle.Http.Message

/-!
# Requests on a persistent connection

One request is read to its end before the next one is read: what the server has
of a request (`Reading`) depends on the bytes read so far and not on how they
were cut. A read that brings bytes of two requests is not followed any further:
the bytes behind the first request are dropped with the buffer.
-/

namespace MagiTrickle.Http

variable {σ : Type}

/-! ## One message -/

/-- The connection has read the bytes `p` of a message; `old` tells whether an earlier one was of
HTTP/1.0. -/
structure Reading (m : Message) (old : Bool) (c : Conn) (p : Bytes) : Prop where
  rbuf : c.rbuf = p
  before : p.length < m.head.length → c.headersDone = false ∧ c.http10 = old
  behind : m.head.length ≤ p.length → c.headersDone = true ∧ c.headerEnd = m.head.length ∧
    c.contentLength = m.body.length ∧ c.req = { m.req with body := [] } ∧
      c.http10 = (old || m.http10)

section Feed

variable {m : Message} {old : Bool} {c c' : Conn} {p b t : Bytes}

theorem Message.head_pos (m : Message) : 0 < m.head.length := by
  unfold Message.head
  rw [List.length_append, m.eol_eq, List.length_append, List.length_singleton]
  omega

theorem Message.length_bytes (m : Message) : m.bytes.length = m.head.length + m.body.length :=
  List.length_append

theorem reading_nil (hr : c.rbuf = []) (hd : c.headersDone = false) (ht : c.http10 = old) :
    Reading m old c [] where
  rbuf := hr
  before := fun _ => ⟨hd, ht⟩
  behind := fun h => absurd m.head_pos (Nat.not_lt.mpr h)

theorem settle_spec (h : Reading m old c p) (hhead : m.head.length ≤ p.length)
    (hp : p ++ t = m.bytes) :
    (t = [] → settle c = .complete c ∧ c.request = m.req ∧ c.http10 = (old || m.http10)) ∧
      (t ≠ [] → settle c = .more c) := by
  obtain ⟨hdone, hend, hlength, hreq, hhttp⟩ := h.behind hhead
  have hlen := congrArg List.length hp
  rw [List.length_append, m.length_bytes] at hlen
  unfold settle
  rw [hdone, hend, hlength, h.rbuf]
  constructor
  · rintro rfl
    rw [List.length_nil] at hlen
    refine ⟨if_pos ⟨rfl, by omega⟩, ?_, hhttp⟩
    rw [List.append_nil] at hp
    have hbody : (m.bytes.drop m.head.length).take m.body.length = m.body := by
      rw [Message.bytes, List.drop_left, List.take_length]
    unfold Conn.request
    rw [hend, hlength, h.rbuf, hp, hbody, hreq]
    rfl
  · intro ht
    have hpos : 0 < t.length := List.length_pos_iff.mpr ht
    exact if_neg fun hc => absurd hc.2 (by omega)

/-- **One read** of a message: the connection has the message when it is complete, and reads on
otherwise. -/
theorem feed_spec (hwf : m.WellFormed) (h : Reading m old c p) (hp : p ++ b ++ t = m.bytes) :
    (t = [] → ∃ c', feed c b = .complete c' ∧ c'.request = m.req ∧
        c'.http10 = (old || m.http10)) ∧
      (t ≠ [] → ∃ c', feed c b = .more c' ∧ Reading m old c' (p ++ b)) := by
  have hrbuf : c.rbuf ++ b = p ++ b := by rw [h.rbuf]
  have hlen := congrArg List.length hp
  rw [List.length_append, m.length_bytes] at hlen
  by_cases hbehind : m.head.length ≤ p.length
  · -- the head was read before: only the buffer grows
    obtain ⟨hdone, hend, hlength, hreq, hhttp⟩ := h.behind hbehind
    have hr : Reading m old { c with rbuf := c.rbuf ++ b } (p ++ b) := by
      refine ⟨hrbuf, fun hlt => ?_, fun _ => ⟨hdone, hend, hlength, hreq, hhttp⟩⟩
      rw [List.length_append] at hlt
      omega
    have hfeed : feed c b = settle { c with rbuf := c.rbuf ++ b } := by
      unfold feed
      exact if_pos hdone
    obtain ⟨hall, hmore⟩ := settle_spec hr (by rw [List.length_append]; omega) hp
    rw [hfeed]
    exact ⟨fun ht => ⟨_, hall ht⟩, fun ht => ⟨_, hmore ht, hr⟩⟩
  · obtain ⟨hdone, hhttp⟩ := h.before (Nat.lt_of_not_le hbehind)
    by_cases hhead : m.head.length ≤ (p ++ b).length
    · -- the head is complete with this read
      obtain ⟨u, hu⟩ : ∃ u, p ++ b = m.head ++ u := by
        have := List.prefix_of_prefix_length_le ⟨m.body, rfl⟩ ⟨t, hp⟩ hhead
        obtain ⟨u, hu⟩ := this
        exact ⟨u, hu.symm⟩
      have hblank : blankLine (c.rbuf ++ b) = some m.head.length := by
        rw [hrbuf, hu]
        exact hwf.blankLine u
      have htake : (c.rbuf ++ b).take m.head.length = m.head := by
        rw [hrbuf, hu, List.take_left]
      let d : Conn := { c with
        rbuf := c.rbuf ++ b
        headersDone := true
        headerEnd := m.head.length
        contentLength := m.body.length
        req := { m.req with body := [] }
        http10 := c.http10 || m.http10 }
      have hfeed : feed c b = settle d := by
        unfold feed
        dsimp only
        rw [if_neg (by simp [hdone]), hblank]
        dsimp only
        unfold readHeaders
        dsimp only
        rw [htake, hwf.parseHeaders]
        dsimp only
        rw [show ({ m.req with body := [] } : Req).headers = m.headers from rfl, hwf.bodyLength,
          if_neg (Nat.not_lt.mpr hwf.shortBody)]
        rfl
      have hr : Reading m old d (p ++ b) := by
        refine ⟨hrbuf, fun hlt => absurd hhead (Nat.not_le.mpr hlt), fun _ => ?_⟩
        exact ⟨rfl, rfl, rfl, rfl, by rw [← hhttp]⟩
      obtain ⟨hall, hmore⟩ := settle_spec hr hhead hp
      rw [hfeed]
      exact ⟨fun ht => ⟨_, hall ht⟩, fun ht => ⟨_, hmore ht, hr⟩⟩
    · -- the head goes on
      have hlt := Nat.lt_of_not_le hhead
      have hblank : blankLine (c.rbuf ++ b) = none := by
        rw [hrbuf]
        exact hwf.blankLine_none hp hlt
      have hshort := hwf.shortHead
      have hfeed : feed c b = .more { c with rbuf := c.rbuf ++ b } := by
        unfold feed
        dsimp only
        rw [if_neg (by simp [hdone]), hblank]
        dsimp only
        rw [if_neg (by rw [hrbuf]; omega)]
      refine ⟨fun ht => ?_, fun _ => ⟨_, hfeed, ?_⟩⟩
      · rw [ht, List.length_nil] at hlen
        omega
      · exact ⟨hrbuf, fun _ => ⟨hdone, hhttp⟩, fun hle => absurd hle hhead⟩

end Feed

/-! ## Cuts -/

/-- The chunks are a cut of the message; a read brings at least one byte. -/
def CutOf (m : Message) (chunks : List Bytes) : Prop :=
  chunks.flatten = m.bytes ∧ ∀ b ∈ chunks, b ≠ []

/-- What is left to be read, with the bytes `p` of the first message read: a cut of the rest of that
message, then one of each message behind it. -/
inductive Rest : Bytes → List Bytes → List Message → Prop where
  | nil : Rest [] [] []
  | cons {p : Bytes} {cs : List Bytes} {css : List (List Bytes)} {m : Message} {ms : List Message}
      (hcut : p ++ cs.flatten = m.bytes) (hne : ∀ b ∈ cs, b ≠ [])
      (hshort : p.length < m.bytes.length) (hcss : List.Forall₂ CutOf ms css) : Rest p (cs ++ css.flatten) (m :: ms)

theorem Message.bytes_pos (m : Message) : 0 < m.bytes.length := by
  rw [m.length_bytes]
  exact Nat.lt_of_lt_of_le m.head_pos (Nat.le_add_right ..)

theorem rest_of_cuts {ms : List Message} {cuts : List (List Bytes)}
    (h : List.Forall₂ CutOf ms cuts) : Rest [] cuts.flatten ms := by
  cases h with
  | nil => exact .nil
  | cons hm hms => exact .cons hm.1 hm.2 (Message.bytes_pos _) hms

theorem Rest.eq_nil {p : Bytes} {ms : List Message} (h : Rest p [] ms) : p = [] ∧ ms = [] := by
  generalize hchunks : ([] : List Bytes) = chunks at h
  cases h with
  | nil => exact ⟨rfl, rfl⟩
  | cons hcut _ hshort _ =>
    obtain ⟨rfl, -⟩ := List.append_eq_nil_iff.mp hchunks.symm
    rw [List.flatten_nil, List.append_nil] at hcut
    rw [hcut] at hshort
    exact absurd hshort (Nat.lt_irrefl _)

theorem Rest.step {p b : Bytes} {chunks : List Bytes} {ms : List Message}
    (h : Rest p (b :: chunks) ms) :
    ∃ m ms' t, ms = m :: ms' ∧ p ++ b ++ t = m.bytes ∧
      (t = [] → Rest [] chunks ms') ∧ (t ≠ [] → Rest (p ++ b) chunks ms) := by
  generalize hchunks : b :: chunks = all at h
  cases h with
  | nil => cases hchunks
  | @cons _ cs css m ms' hcut hne hshort hcss =>
    cases cs with
    | nil =>
      rw [List.flatten_nil, List.append_nil] at hcut
      rw [hcut] at hshort
      exact absurd hshort (Nat.lt_irrefl _)
    | cons b' cs =>
      cases hchunks
      rw [List.flatten_cons, ← List.append_assoc] at hcut
      have hne' : ∀ b ∈ cs, b ≠ [] := fun b hb => hne b (List.mem_cons_of_mem _ hb)
      refine ⟨m, ms', cs.flatten, rfl, hcut, fun ht => ?_, fun ht => .cons hcut hne' ?_ hcss⟩
      · have hcs : cs = [] := List.eq_nil_iff_forall_not_mem.mpr fun b hb =>
          hne' b hb (List.flatten_eq_nil_iff.mp ht b hb)
        rw [hcs]
        exact rest_of_cuts hcss
      · have hlen := congrArg List.length hcut
        rw [List.length_append] at hlen
        have hpos := List.length_pos_iff.mpr ht
        omega

/-! ## One connection -/

/-- The data among the answers of `recv`. -/
def dataOf (answers : List Recv) : List Bytes :=
  answers.filterMap fun
    | .data b => some b
    | _ => none

/-- The connection is writing a response, is between two requests, or has read `p` of the first
message left. -/
structure Follow (old : Bool) (c : Conn) (p : Bytes) (ms : List Message) : Prop where
  writing : c.wbuf.isSome → p = [] ∧ c.http10 = old
  between : c.wbuf = none → p = [] → c.rbuf = [] ∧ c.headersDone = false ∧ c.http10 = old
  inside : c.wbuf = none → p ≠ [] → ∀ m ms', ms = m :: ms' → Reading m old c p

theorem Follow.reading {old : Bool} {c : Conn} {p : Bytes} {m : Message} {ms : List Message}
    (h : Follow old c p (m :: ms)) (hw : c.wbuf = none) : Reading m old c p := by
  by_cases hp : p = []
  · obtain ⟨hr, hd, ht⟩ := h.between hw hp
    rw [hp]
    exact reading_nil hr hd ht
  · exact h.inside hw hp m ms rfl

/-- The connection lasts through the messages; once one was of HTTP/1.0 the others ask for it. -/
structure Lasting (old : Bool) (ms : List Message) : Prop where
  keepAlive : ∀ m ∈ ms, m.keepAlive
  mixed : ms.Pairwise fun a b => a.http10 = true → b.saysKeepAlive
  old : old = true → ∀ m ∈ ms, m.saysKeepAlive

theorem Lasting.tail {old : Bool} {m : Message} {ms : List Message} (h : Lasting old (m :: ms)) :
    Lasting (old || m.http10) ms where
  keepAlive := fun a ha => h.keepAlive a (List.mem_cons_of_mem _ ha)
  mixed := (List.pairwise_cons.mp h.mixed).2
  old := by
    intro hor a ha
    rcases Bool.or_eq_true_iff.mp hor with hold | hm
    · exact h.old hold a (List.mem_cons_of_mem _ ha)
    · exact (List.pairwise_cons.mp h.mixed).1 a ha hm

theorem Lasting.wantClose {old : Bool} {m : Message} {ms : List Message}
    (h : Lasting old (m :: ms)) {n : Nat} (hn : n ≤ maxConns) :
    wantClose (old || m.http10) m.headers n = false := by
  have hkeep := h.keepAlive m (List.mem_cons_self ..)
  have hkeepAlive : (old || m.http10) = true → m.saysKeepAlive := by
    intro hor
    rcases Bool.or_eq_true_iff.mp hor with hold | hm
    · exact h.old hold m (List.mem_cons_self ..)
    · rcases hkeep with hkeepAlive | ⟨h11, -⟩
      · exact hkeepAlive
      · rw [hm] at h11
        cases h11
  unfold Http.wantClose
  rw [if_neg (Nat.not_lt.mpr hn)]
  cases hv : findHeader m.headers (str "Connection") with
  | none =>
    dsimp only
    rw [Bool.eq_false_iff]
    intro hor
    obtain ⟨v, hv', -⟩ := hkeepAlive hor
    rw [hv] at hv'
    cases hv'
  | some v =>
    dsimp only
    split
    · rfl
    next hka =>
    have hnot : ¬ m.saysKeepAlive := by
      rintro ⟨v', hv', hsame⟩
      rw [hv] at hv'
      cases hv'
      exact hka hsame
    rcases hkeep with hkeepAlive' | ⟨-, hclose⟩
    · exact absurd hkeepAlive' hnot
    rw [hclose v hv, if_neg (by simp), Bool.eq_false_iff]
    exact fun hor => hnot (hkeepAlive hor)

structure Env.Calm (env : Env) : Prop where
  mem : env.mem = true
  sends : Send.failed ∉ env.sends
  addFd : env.addFd = .ok ()

theorem sendLoop_ne_failed {len sent : Nat} {sends : List Send} (h : Send.failed ∉ sends) :
    sendLoop len sent sends ≠ .failed := by
  induction sends generalizing sent with
  | nil =>
    unfold sendLoop
    split <;> simp
  | cons a rest ih =>
    have hrest : Send.failed ∉ rest := fun hmem => h (List.mem_cons_of_mem _ hmem)
    unfold sendLoop
    split
    · simp
    · cases a with
      | sent n => exact ih hrest
      | again => simp
      | failed => exact absurd (List.mem_cons_self ..) h

theorem switchFd_ok (w : World σ) (c : Conn) (events : Nat) {env : Env} (h : env.addFd = .ok ()) :
    (switchFd w c events env).2 = .ok () := by
  unfold switchFd Platform.Loop.addFd
  rw [h]
  rfl

theorem startWrite_isSome {w : World σ} {c : Conn} {env : Env} (h : env.Calm)
    (hclose : c.closeAfterWrite = false) : (startWrite w c env).2.isSome = true := by
  unfold startWrite
  split
  · next hf => exact absurd hf (sendLoop_ne_failed h.sends)
  · next sent _ =>
    have hok := switchFd_ok w { c with wbufSent := sent } 4 h.addFd
    dsimp only
    split
    · next heq =>
      rw [heq] at hok
      cases hok
    · rfl
  · rw [if_neg (by simp [hclose])]
    have hok := switchFd_ok w (connResetForNextRequest c) 1 h.addFd
    dsimp only
    split
    · next heq =>
      rw [heq] at hok
      cases hok
    · rfl

/-- The connection is not closed after the response it is writing. -/
def Conn.Kept (c : Conn) : Prop := c.wbuf.isSome = true → c.closeAfterWrite = false

/-- What a callback of a connection comes to: some messages are handed on, and the connection
follows the rest; it is kept where it is to last and the callback is calm. -/
def Goes (c : Conn) (old : Bool) (w : World σ) (chunks : List Bytes) (ms : List Message)
    (calm : Prop) (r : After σ) : Prop :=
  ∃ done ms' p old', ms = done ++ ms' ∧
    r.1.handed = w.handed ++ done.map (fun m => (c.id, m.req)) ∧ Rest p chunks ms' ∧
    (∀ c', r.2 = some c' → c'.id = c.id ∧ Follow old' c' p ms') ∧
    (Lasting old ms → c.Kept → Lasting old' ms' ∧ (∀ c', r.2 = some c' → c'.Kept) ∧
      (calm → r.2.isSome = true))

section Conn

variable {old : Bool} {w w' : World σ} {c : Conn} {p : Bytes} {chunks : List Bytes}
  {ms : List Message} {calm : Prop} {r : After σ}

theorem Follow.stays {c' : Conn} (h : Follow old c' p ms) (hid : c'.id = c.id)
    (hkept : c.Kept → c'.Kept) (hrest : Rest p chunks ms) (hw : w'.handed = w.handed) :
    Goes c old w chunks ms calm (w', some c') := by
  refine ⟨[], ms, p, old, rfl, by simpa using hw, hrest, fun d hd => ?_, fun hl hk => ⟨hl, ?_, ?_⟩⟩
  · cases hd
    exact ⟨hid, h⟩
  · rintro d hd
    cases hd
    exact hkept hk
  · exact fun _ => rfl

theorem goes_close {d : Conn} (hrest : Rest p chunks ms) (hw : w'.handed = w.handed)
    (hcalm : ¬ calm) (env : Env) : Goes c old w chunks ms calm (connClose w' d env) :=
  ⟨[], ms, p, old, rfl, by simpa [connClose] using hw, hrest, fun d hd => (nomatch hd),
    fun hl _ => ⟨hl, fun d hd => (nomatch hd), fun hc => absurd hc hcalm⟩⟩

theorem follow_startWrite (ms : List Message) {old : Bool} {c c' : Conn} {env : Env}
    (hhttp : c.http10 = old) (h : (startWrite w c env).2 = some c') :
    c'.id = c.id ∧ Follow old c' [] ms ∧ (c.closeAfterWrite = false → c'.Kept) := by
  rcases (startWrite_spec w c env).2 c' h with ⟨sent, hsent, rfl⟩ | ⟨-, id, rfl⟩
  · refine ⟨rfl, ⟨fun _ => ⟨rfl, hhttp⟩, fun hnone => ?_, fun _ hne => absurd rfl hne⟩,
      fun hclose _ => hclose⟩
    rw [show c.wbuf = none from hnone] at hsent
    exact absurd hsent (Nat.not_lt_zero _)
  · exact ⟨rfl, ⟨fun hsome => (nomatch hsome), fun _ _ => ⟨rfl, rfl, hhttp⟩,
      fun _ hne => absurd rfl hne⟩, fun _ hsome => (nomatch hsome)⟩

theorem goes_handle {m : Message} {site : Site σ} {n : Nat} {env : Env} (hn : n ≤ maxConns)
    {d : Conn} (hid : d.id = c.id) (hreq : d.request = m.req)
    (hhttp : d.http10 = (old || m.http10)) (hrest : Rest [] chunks ms) :
    Goes c old w chunks (m :: ms) (env.Calm) (handleCompleteRequest site n w d env) := by
  have hheaders : d.req.headers = m.headers := congrArg Req.headers hreq
  unfold handleCompleteRequest
  rw [hhttp, hheaders, hreq, hid]
  dsimp only
  refine ⟨[m], ms, [], old || m.http10, rfl, ?_, hrest, fun c' hc' => ?_, fun hl _ => ⟨hl.tail,
    fun c' hc' => ?_, fun hc => ?_⟩⟩
  · rw [(startWrite_spec _ _ _).1.handed]
    rfl
  · obtain ⟨hid', hfollow, -⟩ := follow_startWrite ms rfl hc'
    exact ⟨hid', hfollow⟩
  · obtain ⟨-, -, hkept⟩ := follow_startWrite ms rfl hc'
    exact hkept (hl.wantClose hn)
  · exact startWrite_isSome hc (hl.wantClose hn)

theorem Follow.grow (h : Follow old c p ms) {mem : Bool} {c' : Conn} (hg : c.grow mem = some c') :
    Follow old c' p ms := by
  unfold Conn.grow at hg
  split at hg
  · split at hg
    · cases hg
      exact ⟨h.writing, h.between, fun hw hp m ms' hms =>
        ⟨(h.inside hw hp m ms' hms).rbuf, (h.inside hw hp m ms' hms).before,
          (h.inside hw hp m ms' hms).behind⟩⟩
    · cases hg
  · cases hg
    exact h

theorem Follow.timer (h : Follow old c p ms) (id : Nat) :
    Follow old { c with idleTimerId := id } p ms :=
  ⟨h.writing, h.between, fun hw hp m ms' hms =>
    ⟨(h.inside hw hp m ms' hms).rbuf, (h.inside hw hp m ms' hms).before,
      (h.inside hw hp m ms' hms).behind⟩⟩

structure CalmRead (answers : List Recv) (env : Env) : Prop where
  env : env.Calm
  eof : Recv.eof ∉ answers
  failed : Recv.failed ∉ answers

theorem CalmRead.tail {a : Recv} {answers : List Recv} {env : Env}
    (h : CalmRead (a :: answers) env) : CalmRead answers env :=
  ⟨h.env, fun he => h.eof (List.mem_cons_of_mem _ he), fun hf => h.failed (List.mem_cons_of_mem _ hf)⟩

theorem grow_ne_none {mem : Bool} (h : mem = true) : c.grow mem ≠ none := by
  unfold Conn.grow
  rw [h]
  split <;> simp

theorem Goes.mono {calm' : Prop} (h : Goes c old w chunks ms calm r) (hc : calm' → calm) :
    Goes c old w chunks ms calm' r := by
  obtain ⟨done, ms', p, old', hms, hh, hrest, hconn, hl⟩ := h
  refine ⟨done, ms', p, old', hms, hh, hrest, hconn, fun hlast hk => ?_⟩
  obtain ⟨hlast', hkept, hsome⟩ := hl hlast hk
  exact ⟨hlast', hkept, fun hcalm => hsome (hc hcalm)⟩

theorem Goes.congr {d : Conn} (h : Goes d old w' chunks ms calm r) (hid : d.id = c.id)
    (hk : c.Kept → d.Kept) (hw : w'.handed = w.handed) : Goes c old w chunks ms calm r := by
  obtain ⟨done, ms', p, old', hms, hh, hrest, hconn, hl⟩ := h
  refine ⟨done, ms', p, old', hms, ?_, hrest, ?_, fun hlast hkept => hl hlast (hk hkept)⟩
  · rw [hh, hw, hid]
  · rw [← hid]
    exact hconn

theorem kept_of_none (h : c.wbuf = none) : c.Kept := by
  intro hsome
  rw [h] at hsome
  cases hsome

/-- **The loop of `on_conn_readable`** hands on a message when it has all of it. -/
theorem Follow.readLoop {site : Site σ} {n : Nat} {env : Env} (hn : n ≤ maxConns)
    {answers : List Recv} (h : Follow old c p ms) (hw : c.wbuf = none)
    (hwf : ∀ m ∈ ms, m.WellFormed) (hrest : Rest p (dataOf answers ++ chunks) ms)
    (hr : readLoop site n w env c answers = some r) :
    Goes c old w chunks ms (CalmRead answers env) r := by
  induction answers generalizing c p with
  | nil =>
    rw [Http.readLoop] at hr
    split at hr
    · next hg =>
      cases hr
      exact goes_close hrest rfl (fun hc => grow_ne_none hc.env.mem hg) env
    · next c₁ hg =>
      cases hr
      have hshell := Conn.shell_grow hg
      exact (h.grow hg).stays hshell.id (fun _ => kept_of_none (hshell.wbuf.trans hw)) hrest rfl
  | cons a rest ih =>
    rw [Http.readLoop] at hr
    split at hr
    · cases hr
    next c₁ hg =>
    have h₁ := h.grow hg
    have hshell₁ := Conn.shell_grow hg
    have hw₁ : c₁.wbuf = none := hshell₁.wbuf.trans hw
    split at hr
    · cases hr
    cases a with
    | again =>
      obtain ⟨rfl, rfl⟩ := of_returns hr
      exact h₁.stays hshell₁.id (fun _ => kept_of_none hw₁) hrest rfl
    | eof =>
      obtain ⟨rfl, rfl⟩ := of_returns hr
      exact goes_close hrest rfl (fun hc => hc.eof (List.mem_cons_self ..)) env
    | failed =>
      obtain ⟨rfl, rfl⟩ := of_returns hr
      exact goes_close hrest rfl (fun hc => hc.failed (List.mem_cons_self ..)) env
    | data b =>
      have hnext : Rest p (b :: (dataOf rest ++ chunks)) ms := hrest
      obtain ⟨m, ms', t, rfl, hp, hlast, hmore⟩ := hnext.step
      obtain ⟨hall, hpart⟩ := feed_spec (hwf m (List.mem_cons_self ..)) (h₁.reading hw₁) hp
      have hshell : ∀ c₂, (feed c₁ b).conn = some c₂ → c₁.Shell c₂ := fun _ => Conn.shell_feed
      dsimp only at hr
      split at hr
      · cases hr
      next hb =>
      by_cases ht : t = []
      · obtain ⟨c₂, hf, hreq, hhttp⟩ := hall ht
        rw [hf] at hr hshell
        obtain ⟨rfl, rfl⟩ := of_returns hr
        have hid := (hshell c₂ rfl).id.trans hshell₁.id
        exact (goes_handle hn hid hreq hhttp (hlast ht)).mono CalmRead.env
      · obtain ⟨c₂, hf, hreading⟩ := hpart ht
        rw [hf] at hr hshell
        have hw₂ : c₂.wbuf = none := (hshell c₂ rfl).wbuf.trans hw₁
        have hne : p ++ b ≠ [] := fun hnil => hb (.inl (List.append_eq_nil_iff.mp hnil).2)
        have h₂ : Follow old c₂ (p ++ b) (m :: ms') := by
          refine ⟨fun hsome => ?_, fun _ hnil => absurd hnil hne, fun _ _ m' ms'' hms => ?_⟩
          · rw [hw₂] at hsome
            cases hsome
          · cases hms
            exact hreading
        have hid := (hshell c₂ rfl).id.trans hshell₁.id
        exact ((ih h₂ hw₂ (hmore ht) hr).mono CalmRead.tail).congr hid
          (fun _ => kept_of_none hw₂) rfl

def Ev.Calm : Ev → Prop
  | .accept _ _ _ _ => True
  | .readable _ broken answers env => broken = false ∧ CalmRead answers env
  | .writable _ broken env => broken = false ∧ env.Calm
  | .idleTimeout _ _ => False

def Ev.reads : Ev → List Bytes
  | .readable _ _ answers _ => dataOf answers
  | _ => []

/-- **Every callback** of the connection. -/
theorem Follow.callback {site : Site σ} {n : Nat} (hn : n ≤ maxConns) {e : Ev}
    (h : Follow old c p ms) (hwf : ∀ m ∈ ms, m.WellFormed) (hrest : Rest p (e.reads ++ chunks) ms)
    (hr : Callback site n w c e r) : Goes c old w chunks ms e.Calm r := by
  cases e with
  | accept fd fcntl mem env => exact hr.elim
  | readable id broken answers env =>
    obtain ⟨hw, hr⟩ := hr
    unfold onConnReadable at hr
    split at hr
    · next hbroken =>
      obtain ⟨rfl, rfl⟩ := of_returns hr
      refine goes_close hrest rfl (fun hc => ?_) env
      rw [hbroken] at hc
      cases hc.1
    · obtain ⟨hsame, id', hid⟩ := resetIdleTimer_spec w c env.timer
      dsimp only at hr
      rw [hid] at hr
      have hgoes := (h.timer id').readLoop hn hw hwf hrest hr
      exact (hgoes.mono And.right).congr rfl (fun hk => hk) hsame.handed
  | writable id broken env =>
    obtain ⟨hw, rfl⟩ := hr
    obtain ⟨rfl, hhttp⟩ := h.writing hw
    unfold onConnWritable
    split
    · next hbroken =>
      refine goes_close hrest rfl (fun hc => ?_) env
      rw [hbroken] at hc
      cases hc.1
    · refine ⟨[], ms, [], old, rfl, ?_, hrest, fun c' hc' => ?_, fun hl hk => ⟨hl, fun c' hc' => ?_,
        fun hc => ?_⟩⟩
      · rw [(startWrite_spec w c env).1.handed]
        simp
      · obtain ⟨hid, hfollow, -⟩ := follow_startWrite _ hhttp hc'
        exact ⟨hid, hfollow⟩
      · exact (follow_startWrite ms hhttp hc').2.2 (hk hw)
      · exact startWrite_isSome hc.2 (hk hw)
  | idleTimeout id env =>
    obtain ⟨-, rfl⟩ := hr
    exact goes_close hrest rfl (fun hc : False => hc) env

end Conn

/-! ## The server -/

/-- The connections have pointers of their own. -/
structure Ids (s : Httpd σ) : Prop where
  nodup : (s.conns.map Conn.id).Nodup
  fresh : ∀ c ∈ s.conns, c.id < s.nextConn

/-- A callback acts for its own connection only. -/
structure Own (w : World σ) (c : Conn) (r : After σ) : Prop where
  conn : ∀ c', r.2 = some c' → c'.id = c.id
  handed : ∃ reqs, r.1.handed = w.handed ++ List.map (Prod.mk c.id) reqs

section Own

variable {w w' : World σ} {c d : Conn} {r : After σ}

theorem own_connClose (hw : w'.handed = w.handed) (env : Env) : Own w c (connClose w' d env) :=
  ⟨fun c' h => (nomatch h), [], by simpa [connClose] using hw⟩

theorem own_startWrite (hd : d.id = c.id) (reqs : List Req)
    (hw : w'.handed = w.handed ++ List.map (Prod.mk c.id) reqs) (env : Env) :
    Own w c (startWrite w' d env) := by
  obtain ⟨hsame, hconn⟩ := startWrite_spec w' d env
  refine ⟨fun c' hc' => ?_, reqs, hsame.handed.trans hw⟩
  rcases hconn c' hc' with ⟨sent, -, rfl⟩ | ⟨-, id, rfl⟩
  · exact hd
  · exact hd

theorem own_handle {site : Site σ} {n : Nat} (hd : d.id = c.id) (hw : w'.handed = w.handed)
    (env : Env) : Own w c (handleCompleteRequest site n w' d env) := by
  unfold handleCompleteRequest
  dsimp only
  refine own_startWrite ?_ [d.request] ?_ env
  · exact hd
  · rw [hw, hd]
    rfl

theorem own_readLoop {site : Site σ} {n : Nat} {env : Env} {answers : List Recv}
    (hd : d.id = c.id) (hw : w'.handed = w.handed) (hr : readLoop site n w' env d answers = some r) :
    Own w c r := by
  induction answers generalizing d with
  | nil =>
    rw [readLoop] at hr
    split at hr
    · cases hr
      exact own_connClose hw env
    · next d₁ hg =>
      cases hr
      refine ⟨fun c' hc' => ?_, [], by simpa using hw⟩
      cases hc'
      exact (Conn.shell_grow hg).id.trans hd
  | cons a rest ih =>
    rw [readLoop] at hr
    split at hr
    · cases hr
    next d₁ hg =>
    have hd₁ := (Conn.shell_grow hg).id.trans hd
    split at hr
    · cases hr
    cases a with
    | again =>
      obtain ⟨rfl, rfl⟩ := of_returns hr
      refine ⟨fun c' hc' => ?_, [], by simpa using hw⟩
      cases hc'
      exact hd₁
    | eof =>
      obtain ⟨rfl, rfl⟩ := of_returns hr
      exact own_connClose hw env
    | failed =>
      obtain ⟨rfl, rfl⟩ := of_returns hr
      exact own_connClose hw env
    | data b =>
      have hshell : ∀ d₂, (feed d₁ b).conn = some d₂ → d₁.Shell d₂ := fun _ => Conn.shell_feed
      dsimp only at hr
      split at hr
      · cases hr
      split at hr
      · next d₂ hf =>
        rw [hf] at hshell
        exact ih ((hshell d₂ rfl).id.trans hd₁) hr
      · obtain ⟨rfl, rfl⟩ := of_returns hr
        exact own_connClose hw env
      · next d₂ hf =>
        rw [hf] at hshell
        obtain ⟨rfl, rfl⟩ := of_returns hr
        have hd₂ := (hshell d₂ rfl).id.trans hd₁
        exact own_handle hd₂ hw env

theorem own_callback {site : Site σ} {n : Nat} {e : Ev} (hr : Callback site n w c e r) :
    Own w c r := by
  cases e with
  | accept fd fcntl mem env => exact hr.elim
  | readable id broken answers env =>
    obtain ⟨-, hr⟩ := hr
    unfold onConnReadable at hr
    split at hr
    · obtain ⟨-, rfl⟩ := of_returns hr
      exact own_connClose rfl env
    · obtain ⟨hsame, id', hid⟩ := resetIdleTimer_spec w c env.timer
      refine own_readLoop ?_ hsame.handed hr
      rw [hid]
  | writable id broken env =>
    obtain ⟨-, rfl⟩ := hr
    unfold onConnWritable
    split
    · exact own_connClose rfl env
    · exact own_startWrite rfl [] (by simp) env
  | idleTimeout id env =>
    obtain ⟨-, rfl⟩ := hr
    exact own_connClose rfl env

end Own

/-- What `on_accept` leaves: nothing new, or one connection in front. -/
theorem onAccept_spec (s : Httpd σ) (fd : Nat) (fcntl mem : Bool) (env : Env) :
    (onAccept s fd fcntl mem env).world.handed = s.world.handed ∧
      (((onAccept s fd fcntl mem env).conns = s.conns ∧
          (onAccept s fd fcntl mem env).nextConn = s.nextConn) ∨
        ∃ id, (onAccept s fd fcntl mem env).conns =
            { connNew s.nextConn fd with idleTimerId := id } :: s.conns ∧
          (onAccept s fd fcntl mem env).nextConn = s.nextConn + 1) := by
  unfold onAccept
  split
  · dsimp only
    split
    · exact ⟨rfl, .inl ⟨rfl, rfl⟩⟩
    · next loop _ _ =>
      obtain ⟨hsame, id, hid⟩ :=
        resetIdleTimer_spec { s.world with loop } (connNew s.nextConn fd) env.timer
      refine ⟨hsame.handed, .inr ⟨id, ?_, rfl⟩⟩
      dsimp only
      rw [hid]
  · exact ⟨rfl, .inl ⟨rfl, rfl⟩⟩

theorem Ids.step {site : Site σ} {s s' : Httpd σ} (h : Ids s) {e : Ev}
    (hs : step site s e = some s') : Ids s' := by
  rcases step_cases hs with ⟨fd, fcntl, mem, env, rfl, rfl⟩ | ⟨c, others, r, hperm, -, hcb, -, hconns, hnext⟩
  · obtain ⟨-, ⟨hconns, hnext⟩ | ⟨id, hconns, hnext⟩⟩ := onAccept_spec s fd fcntl mem env
    · exact ⟨hconns ▸ h.nodup, by rw [hconns, hnext]; exact h.fresh⟩
    · refine ⟨?_, fun c hc => ?_⟩
      · rw [hconns, List.map_cons, List.nodup_cons]
        refine ⟨fun hmem => ?_, h.nodup⟩
        obtain ⟨c, hc, hid⟩ := List.mem_map.mp hmem
        exact absurd hid (Nat.ne_of_lt (h.fresh c hc))
      · rw [hconns] at hc
        rw [hnext]
        rcases List.mem_cons.mp hc with rfl | hc
        · exact Nat.lt_succ_self _
        · exact Nat.lt_succ_of_lt (h.fresh c hc)
  · have hown := own_callback hcb
    have hnodup := ((hperm.map Conn.id).nodup_iff).mpr h.nodup
    have hfresh : ∀ d ∈ c :: others, d.id < s.nextConn := fun d hd => h.fresh d (hperm.mem_iff.mp hd)
    rw [List.map_cons, List.nodup_cons] at hnodup
    refine ⟨?_, fun d hd => ?_⟩
    · rw [hconns]
      cases hr : r.2 with
      | none => exact hnodup.2
      | some c' =>
        rw [Option.toList_some, List.singleton_append, List.map_cons, List.nodup_cons,
          hown.conn c' hr]
        exact hnodup
    · rw [hconns] at hd
      rw [hnext]
      rcases List.mem_append.mp hd with hd | hd
      · rw [hown.conn d (Option.mem_toList.mp hd)]
        exact hfresh c (List.mem_cons_self ..)
      · exact hfresh d (List.mem_cons_of_mem _ hd)

def readBy (id : Nat) (evs : List Ev) : List Bytes :=
  evs.flatMap fun e => if e.conn = some id then e.reads else []

def handedBy (id : Nat) (handed : List (Nat × Req)) : List Req :=
  (handed.filter fun h => h.1 = id).map Prod.snd

theorem handedBy_append (id : Nat) (a b : List (Nat × Req)) :
    handedBy id (a ++ b) = handedBy id a ++ handedBy id b := by
  unfold handedBy
  rw [List.filter_append, List.map_append]

theorem handedBy_same (id : Nat) (reqs : List Req) :
    handedBy id (reqs.map (Prod.mk id)) = reqs := by
  unfold handedBy
  rw [List.filter_eq_self.mpr, List.map_map]
  · exact List.map_id reqs
  · intro h hh
    obtain ⟨q, -, rfl⟩ := List.mem_map.mp hh
    exact decide_eq_true rfl

theorem handedBy_other {id id' : Nat} (hne : id' ≠ id) (reqs : List Req) :
    handedBy id (reqs.map (Prod.mk id')) = [] := by
  unfold handedBy
  rw [List.filter_eq_nil_iff.mpr]
  · rfl
  · intro h hh
    obtain ⟨q, -, rfl⟩ := List.mem_map.mp hh
    simpa using hne

/-- The connection, if there is one, follows what is left to be read. -/
def Tracks (id : Nat) (old : Bool) (s : Httpd σ) (chunks : List Bytes) (ms : List Message) : Prop :=
  ∃ p, Rest p chunks ms ∧ (s.nextConn ≤ id → p = [] ∧ old = false) ∧
    ∀ c ∈ s.conns, c.id = id → Follow old c p ms

def Stands (id : Nat) (s : Httpd σ) : Prop :=
  id < s.nextConn → ∃ c ∈ s.conns, c.id = id ∧ c.Kept

/-- **One event** of the server, as one connection sees it. -/
theorem Tracks.step {site : Site σ} {s s' : Httpd σ} (hids : Ids s) {e : Ev} {id : Nat} {old : Bool}
    {chunks : List Bytes} {ms : List Message} (hwf : ∀ m ∈ ms, m.WellFormed)
    (h : Tracks id old s ((if e.conn = some id then e.reads else []) ++ chunks) ms)
    (hs : step site s e = some s') :
    ∃ done ms' old', ms = done ++ ms' ∧
      handedBy id s'.world.handed = handedBy id s.world.handed ++ done.map Message.req ∧
      Tracks id old' s' chunks ms' ∧
      (Lasting old ms → Stands id s → (e.conn = some id → e.Calm) →
        Lasting old' ms' ∧ Stands id s') := by
  obtain ⟨p, hrest, hnew, hfollow⟩ := h
  rcases step_cases hs with ⟨fd, fcntl, mem, env, rfl, rfl⟩ | ⟨c, others, r, hperm, he, hcb, hw, hconns, hnext⟩
  · -- a client connects
    rw [if_neg (by simp [Ev.conn]), List.nil_append] at hrest
    obtain ⟨hhanded, hcase⟩ := onAccept_spec s fd fcntl mem env
    refine ⟨[], ms, old, rfl, by rw [hhanded]; simp, ?_⟩
    rcases hcase with ⟨hconns, hnext⟩ | ⟨id', hconns, hnext⟩
    · refine ⟨⟨p, hrest, hnext ▸ hnew, hconns ▸ hfollow⟩, fun hl hst _ => ⟨hl, fun hlt => ?_⟩⟩
      rw [hconns]
      exact hst (hnext ▸ hlt)
    · refine ⟨⟨p, hrest, fun hle => hnew (by omega), fun c hc hid => ?_⟩,
        fun hl hst _ => ⟨hl, fun hlt => ?_⟩⟩
      · rw [hconns] at hc
        rcases List.mem_cons.mp hc with rfl | hc
        · obtain ⟨rfl, rfl⟩ := hnew (Nat.le_of_eq hid)
          exact ⟨fun hsome => (nomatch hsome), fun _ _ => ⟨rfl, rfl, rfl⟩,
            fun _ hne => absurd rfl hne⟩
        · exact hfollow c hc hid
      · rw [hconns]
        by_cases heq : s.nextConn = id
        · exact ⟨_, List.mem_cons_self .., heq, fun hsome => (nomatch hsome)⟩
        · obtain ⟨c, hc, hid⟩ := hst (by omega)
          exact ⟨c, List.mem_cons_of_mem _ hc, hid⟩
  have hcmem : c ∈ s.conns := hperm.mem_iff.mp (List.mem_cons_self ..)
  have hothers : ∀ d ∈ others, d ∈ s.conns ∧ d.id ≠ c.id := by
    intro d hd
    have hnodup := ((hperm.map Conn.id).nodup_iff).mpr hids.nodup
    rw [List.map_cons, List.nodup_cons] at hnodup
    exact ⟨hperm.mem_iff.mp (List.mem_cons_of_mem _ hd),
      fun heq => hnodup.1 (heq ▸ List.mem_map_of_mem hd)⟩
  by_cases hid : c.id = id
  · -- a callback of the connection
    subst hid
    rw [if_pos he] at hrest
    obtain ⟨done, ms', p', old', rfl, hhanded, hrest', hconn, hlast⟩ :=
      (hfollow c hcmem rfl).callback s.bound hwf hrest hcb
    refine ⟨done, ms', old', rfl, ?_, ⟨p', hrest', fun hle => ?_, fun d hd hdid => ?_⟩,
      fun hl hst hcalm => ?_⟩
    · have hmap : done.map (fun m => (c.id, m.req)) = (done.map Message.req).map (Prod.mk c.id) :=
        (List.map_map ..).symm
      rw [hw, hhanded, handedBy_append, hmap, handedBy_same]
    · rw [hnext] at hle
      exact absurd (hids.fresh c hcmem) (Nat.not_lt.mpr hle)
    · rw [hconns] at hd
      rcases List.mem_append.mp hd with hd | hd
      · exact (hconn d (Option.mem_toList.mp hd)).2
      · exact absurd hdid (hothers d hd).2
    · obtain ⟨d, hd, hdid, hkept⟩ := hst (hids.fresh c hcmem)
      have hdc : d = c := by
        rcases List.mem_cons.mp (hperm.mem_iff.mpr hd) with rfl | hd
        · rfl
        · exact absurd hdid (hothers d hd).2
      obtain ⟨hl', hkept', hsome⟩ := hlast hl (hdc ▸ hkept)
      refine ⟨hl', fun _ => ?_⟩
      obtain ⟨c', hc'⟩ := Option.isSome_iff_exists.mp (hsome (hcalm he))
      exact ⟨c', by rw [hconns, hc']; exact List.mem_cons_self .., (hconn c' hc').1, hkept' c' hc'⟩
  · -- a callback of another one
    have hne : e.conn ≠ some id := fun heq => hid (Option.some_inj.mp (he.symm.trans heq))
    rw [if_neg hne, List.nil_append] at hrest
    have hown := own_callback hcb
    obtain ⟨reqs, hhanded⟩ := hown.handed
    refine ⟨[], ms, old, rfl, ?_, ⟨p, hrest, hnext ▸ hnew, fun d hd hdid => ?_⟩,
      fun hl hst _ => ⟨hl, fun hlt => ?_⟩⟩
    · rw [hw, hhanded, handedBy_append, handedBy_other hid, List.map_nil]
    · rw [hconns] at hd
      rcases List.mem_append.mp hd with hd | hd
      · exact absurd ((hown.conn d (Option.mem_toList.mp hd)).symm.trans hdid) hid
      · exact hfollow d (hothers d hd).1 hdid
    · obtain ⟨d, hd, hdid, hkept⟩ := hst (hnext ▸ hlt)
      refine ⟨d, ?_, hdid, hkept⟩
      rw [hconns]
      rcases List.mem_cons.mp (hperm.mem_iff.mpr hd) with rfl | hd
      · exact absurd hdid hid
      · exact List.mem_append_right _ hd

/-- **A run** of the server, as one connection sees it. -/
theorem Tracks.run {site : Site σ} {evs : List Ev} {s s' : Httpd σ} (hids : Ids s) {id : Nat}
    {old : Bool} {ms : List Message} (hwf : ∀ m ∈ ms, m.WellFormed)
    (h : Tracks id old s (readBy id evs) ms) (hs : run site s evs = some s') :
    handedBy id s'.world.handed = handedBy id s.world.handed ++ ms.map Message.req ∧
      (Lasting old ms → Stands id s → (∀ e ∈ evs, e.conn = some id → e.Calm) → Stands id s') := by
  induction evs generalizing s old ms with
  | nil =>
    cases hs
    obtain ⟨p, hrest, -⟩ := h
    obtain ⟨-, rfl⟩ := hrest.eq_nil
    exact ⟨by simp, fun _ hst _ => hst⟩
  | cons e evs ih =>
    obtain ⟨s₁, h₁, h₂⟩ := Option.bind_eq_some_iff.mp
      ((List.foldlM_cons (f := Http.step site)).symm.trans hs)
    obtain ⟨done, ms', old', rfl, hhanded, htracks, hlast⟩ := h.step hids hwf h₁
    obtain ⟨hrun, hstands⟩ :=
      ih (hids.step h₁) (fun m hm => hwf m (List.mem_append_right _ hm)) htracks h₂
    refine ⟨?_, fun hl hst hcalm => ?_⟩
    · rw [hrun, hhanded, List.map_append, List.append_assoc]
    · obtain ⟨hl', hst'⟩ := hlast hl hst (hcalm e (List.mem_cons_self ..))
      exact hstands hl' hst' fun e' he' => hcalm e' (List.mem_cons_of_mem _ he')

/-- **What is handed to the router depends only on the bytes**, for clients that do not send a request
before the last one is answered: whatever else goes on at the server and however the bytes are cut,
as long as no read brings bytes of two requests, the requests of a connection are handed on exactly
as they were sent, in order; and a connection on which no call fails is there for the next one. -/
theorem run_handed (site : Site σ) (app : σ) (evs : List Ev) (s : Httpd σ)
    (h : run site (.create app) evs = some s) (id : Nat) (ms : List Message)
    (hwf : ∀ m ∈ ms, m.WellFormed) (cuts : List (List Bytes)) (hcuts : List.Forall₂ CutOf ms cuts)
    (hread : readBy id evs = cuts.flatten) :
    handedBy id s.world.handed = ms.map Message.req ∧
      ((∀ m ∈ ms, m.keepAlive) → (ms.Pairwise fun a b => a.http10 = true → b.saysKeepAlive) →
        (∀ e ∈ evs, e.conn = some id → e.Calm) → id < s.nextConn → ∃ c ∈ s.conns, c.id = id) := by
  have hids : Ids (Httpd.create app) := ⟨List.nodup_nil, fun c hc => (nomatch hc)⟩
  have htracks : Tracks id false (Httpd.create app) (readBy id evs) ms := by
    refine ⟨[], ?_, fun _ => ⟨rfl, rfl⟩, fun c hc => (nomatch hc)⟩
    rw [hread]
    exact rest_of_cuts hcuts
  obtain ⟨hhanded, hstands⟩ := htracks.run hids hwf h
  refine ⟨hhanded.trans (List.nil_append _), fun hkeep hmixed hcalm hlt => ?_⟩
  have hlasting : Lasting false ms := ⟨hkeep, hmixed, fun hf => (nomatch hf)⟩
  obtain ⟨c, hc, hid, -⟩ := hstands hlasting (fun hlt => absurd hlt (Nat.not_lt_zero _)) hcalm hlt
  exact ⟨c, hc, hid⟩

def plainly (text : Bytes) : Escaped := ⟨text, text⟩

theorem wellFormed_plainly {text : Bytes} {query : Bool} {marks : List UInt8} {cap : Nat}
    (hline : ∀ c ∈ text, inLine c ∧ c ≠ space ∧ c ∉ marks)
    (hplain : ∀ c ∈ text, c ≠ 0 ∧ c ≠ 37 ∧ c ≠ 43) (hshort : text.length < cap) :
    (plainly text).WellFormed query marks cap where
  escapes := by
    have hall : ∀ {text : Bytes}, (∀ c ∈ text, c ≠ 0 ∧ c ≠ 37 ∧ c ≠ 43) →
        Escapes query text text := by
      intro text h
      induction text with
      | nil => exact .nil
      | cons c text ih =>
        obtain ⟨hc, htext⟩ := List.forall_mem_cons.mp h
        exact .plain hc.2.1 (fun _ => hc.2.2) (ih htext)
    exact hall hplain
  line := hline
  noNul := fun c hc => (hplain c hc).1
  short := hshort

/-- `GET /a%20b?save=true&q=+`. -/
def getA : Message :=
  ⟨str "GET", ⟨⟨str "/a b", str "/a%20b"⟩,
      some [⟨plainly (str "save"), some (plainly (str "true"))⟩,
        ⟨plainly (str "q"), some ⟨str " ", str "+"⟩⟩]⟩,
    false, [⟨str "Host", 1, str "r"⟩], [], true⟩

/-- `POST /b` with a body of two bytes. -/
def postB : Message :=
  ⟨str "POST", ⟨plainly (str "/b"), none⟩, false, [⟨str "Content-Length", 1, str "2"⟩], str "hi",
    true⟩

example : getA.req.path = str "/a b" ∧
    getA.req.query = [⟨str "save", str "true"⟩, ⟨str "q", str " "⟩] := by decide +kernel

theorem wellFormed_getA : getA.WellFormed where
  method := by decide +kernel
  shortMethod := by decide
  target := by
    refine ⟨⟨?_, by decide +kernel, by decide +kernel, by decide⟩, by decide,
      shallow_of_length_eq (by decide +kernel), ?_, by decide⟩
    · have hspace : Escapes false (str " b") (str "%20b") :=
        .escaped (x := 2) (y := 0) rfl rfl (.plain (by decide) nofun .nil)
      exact .plain (by decide) nofun (.plain (by decide) nofun hspace)
    · intro ps hps p hp
      cases hps
      rcases List.mem_cons.mp hp with rfl | hp
      · refine ⟨wellFormed_plainly (by decide +kernel) (by decide +kernel) (by decide), ?_,
          by decide +kernel⟩
        intro v hv
        cases hv
        exact wellFormed_plainly (by decide +kernel) (by decide +kernel) (by decide)
      · obtain rfl := List.mem_singleton.mp hp
        refine ⟨wellFormed_plainly (by decide +kernel) (by decide +kernel) (by decide), ?_,
          by decide +kernel⟩
        intro v hv
        cases hv
        exact ⟨.plus rfl .nil, by decide +kernel, by decide +kernel, by decide⟩
  fields := by
    intro f hf
    rw [List.mem_singleton.mp hf]
    exact ⟨by decide +kernel, by decide +kernel, by decide, by decide,
      by decide⟩
  fewFields := by decide
  shortHead := by decide +kernel
  shortBody := by decide
  length := by
    rw [show findHeader getA.headers (str "Content-Length") = none by decide]
    rfl

theorem wellFormed_postB : postB.WellFormed where
  method := by decide +kernel
  shortMethod := by decide
  target := by
    refine ⟨wellFormed_plainly (by decide +kernel) (by decide +kernel) (by decide), by decide,
      shallow_of_length_eq (by decide +kernel), ?_, by decide⟩
    intro ps hps
    cases hps
  fields := by
    intro f hf
    rw [List.mem_singleton.mp hf]
    exact ⟨by decide +kernel, by decide +kernel, by decide, by decide,
      by decide⟩
  fewFields := by decide
  shortHead := by decide +kernel
  shortBody := by decide
  length := by
    rw [show findHeader postB.headers (str "Content-Length") = some (str "2") by decide]
    exact ⟨by decide, by decide +kernel, by decide⟩

def inTurn : List Ev :=
  [.accept 5 true true allGood,
    .readable 0 false [.data (getA.bytes.take 7), .again] allGood,
    .readable 0 false [.data (getA.bytes.drop 7)] allGood,
    .readable 0 false [.data (postB.bytes.take 39), .data (postB.bytes.drop 39)] allGood]

/-- Both are handed on. -/
theorem run_handed_inTurn :
    (run bareSite (.create ()) inTurn).isSome = true ∧
    ∀ s, run bareSite (.create ()) inTurn = some s →
      handedBy 0 s.world.handed = [getA.req, postB.req] := by
  refine ⟨by decide +kernel, fun s h => ?_⟩
  refine (run_handed bareSite () inTurn s h 0 [getA, postB] ?_
    [[getA.bytes.take 7, getA.bytes.drop 7], [postB.bytes.take 39, postB.bytes.drop 39]] ?_
    (by decide +kernel)).1
  · intro m hm
    rcases List.mem_cons.mp hm with rfl | hm
    · exact wellFormed_getA
    · rw [List.mem_singleton.mp hm]
      exact wellFormed_postB
  · refine .cons ⟨by decide +kernel, by decide +kernel⟩ (.cons ⟨by decide +kernel, by decide +kernel⟩ .nil)

def atOnce : List Ev :=
  [.accept 5 true true allGood, .readable 0 false [.data (getA.bytes ++ postB.bytes)] allGood]

theorem keepAlive_of_none {m : Message} (h10 : m.http10 = false)
    (h : findHeader m.headers (str "Connection") = none) : m.keepAlive := by
  refine .inr ⟨h10, fun v hv => ?_⟩
  rw [h] at hv
  cases hv

/-- The second request is lost, although its bytes were read and the connection stays open. -/
theorem second_request_lost :
    getA.WellFormed ∧ postB.WellFormed ∧ getA.keepAlive ∧ postB.keepAlive ∧
    (readBy 0 atOnce).flatten = getA.bytes ++ postB.bytes ∧
    ((run bareSite (.create ()) atOnce).map fun s => handedBy 0 s.world.handed) = some [getA.req] ∧
    ((run bareSite (.create ()) atOnce).map fun s => s.conns.map Conn.rbuf) = some [[]] :=
  ⟨wellFormed_getA, wellFormed_postB, keepAlive_of_none rfl (by decide),
    keepAlive_of_none rfl (by decide), by decide +kernel, by decide +kernel, by decide +kernel⟩

end MagiTrickle.Http
