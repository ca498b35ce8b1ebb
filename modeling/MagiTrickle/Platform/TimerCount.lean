import MagiTrickle.Dns.Inflight
import MagiTrickle.Http.Server

/-!
# The timers of the DNS proxy and the HTTP server

Both set one-shot timers: one for an exchange, one for a connection that is set
anew with every event. A timer that is deleted goes with its descriptor. One
that fires is not deleted by the loop, and its owner only forgets the id, so
that it stays registered: the timers of the loop are those of the live exchanges
and connections, and one for every time-out so far.
-/

namespace MagiTrickle.Platform

open MagiTrickle.Lib

/-! ## The loop -/

section Loop

variable {γ : Type} (l : Loop γ)

def Loop.timerIds : List Nat := (l.watches.filter fun w => w.kind = .timer).map Watch.id

theorem Loop.timerIds_addFd (fd events : Nat) (cb : γ) (answer : Except Err Unit) :
    (l.addFd fd events cb answer).1.timerIds = l.timerIds := by
  cases answer <;> rfl

theorem Loop.timerIds_delFd (fd : Nat) (answer : Except Err Unit) :
    (l.delFd fd answer).1.timerIds = l.timerIds := by
  unfold Loop.delFd
  split
  · cases answer with
    | error e => rfl
    | ok _ =>
      show ((l.watches.eraseP (Loop.isFdWatch fd)).filter _).map Watch.id = l.timerIds
      unfold Loop.timerIds
      induction l.watches with
      | nil => rfl
      | cons w ws ih =>
        by_cases hw : Loop.isFdWatch fd w = true
        · have hkind : w.kind = .fd := (of_decide_eq_true hw).1
          rw [List.eraseP_cons_of_pos hw, List.filter_cons_of_neg (by simp [hkind])]
        · rw [List.eraseP_cons_of_neg hw, List.filter_cons, List.filter_cons]
          split
          · rw [List.map_cons, List.map_cons, ih]
          · exact ih
  · rfl

theorem Loop.timerIds_addTimer (tfd : Except Err Nat) (cb : γ) (answer : Except Err Unit) :
    ((l.addTimer tfd cb answer).2 = .ok l.nextTimerId ∧
        (l.addTimer tfd cb answer).1.timerIds = l.nextTimerId :: l.timerIds) ∨
      ((∃ e, (l.addTimer tfd cb answer).2 = .error e) ∧
        (l.addTimer tfd cb answer).1.timerIds = l.timerIds) := by
  cases tfd with
  | error e => exact .inr ⟨⟨e, rfl⟩, rfl⟩
  | ok tfd =>
    cases answer with
    | error e => exact .inr ⟨⟨e, rfl⟩, rfl⟩
    | ok _ => exact .inl ⟨rfl, rfl⟩

theorem Loop.timerIds_delTimer (id : Nat) :
    (l.delTimer id).1.timerIds = l.timerIds.erase id := by
  have herase : ((l.watches.eraseP (Loop.isTimerWatch id)).filter fun w => w.kind = .timer).map
      Watch.id = l.timerIds.erase id := by
    unfold Loop.timerIds
    induction l.watches with
    | nil => rfl
    | cons w ws ih =>
      by_cases hkind : w.kind = .timer
      · by_cases hid : w.id = id
        · rw [List.eraseP_cons_of_pos (by simp [Loop.isTimerWatch, hkind, hid]),
            List.filter_cons_of_pos (by simpa using hkind), List.map_cons, hid,
            List.erase_cons_head]
        · rw [List.eraseP_cons_of_neg (by simp [Loop.isTimerWatch, hid]),
            List.filter_cons_of_pos (by simpa using hkind),
            List.filter_cons_of_pos (by simpa using hkind), List.map_cons, List.map_cons,
            List.erase_cons_tail (by simpa using hid), ih]
      · rw [List.eraseP_cons_of_neg (by simp [Loop.isTimerWatch, hkind]),
          List.filter_cons_of_neg (by simpa using hkind),
          List.filter_cons_of_neg (by simpa using hkind), ih]
  unfold Loop.delTimer
  split
  · exact herase
  · next hnone =>
    rw [← herase, List.eraseP_of_forall_not]
    · rfl
    · intro w hw hp
      exact hnone (List.any_eq_true.mpr ⟨w, hw, hp⟩)

theorem Loop.nextTimerId_addFd (fd events : Nat) (cb : γ) (answer : Except Err Unit) :
    (l.addFd fd events cb answer).1.nextTimerId = l.nextTimerId := by
  cases answer <;> rfl

theorem Loop.nextTimerId_delFd (fd : Nat) (answer : Except Err Unit) :
    (l.delFd fd answer).1.nextTimerId = l.nextTimerId := by
  unfold Loop.delFd
  split
  · cases answer <;> rfl
  · rfl

theorem Loop.nextTimerId_delTimer (id : Nat) :
    (l.delTimer id).1.nextTimerId = l.nextTimerId := by
  unfold Loop.delTimer
  split <;> rfl

theorem Loop.le_nextTimerId_addTimer (tfd : Except Err Nat) (cb : γ) (answer : Except Err Unit) :
    l.nextTimerId ≤ (l.addTimer tfd cb answer).1.nextTimerId := by
  cases tfd with
  | error e => exact Nat.le_refl _
  | ok tfd => cases answer <;> exact Nat.le_succ _

end Loop

end MagiTrickle.Platform
namespace MagiTrickle.Http

open MagiTrickle.Platform

variable {σ : Type}

/-! ## The HTTP server -/

def Conn.timers (c : Conn) : List Nat := if c.idleTimerId = 0 then [] else [c.idleTimerId]

/-- The timers of the loop are those of the connections and the ones that have fired. -/
structure Timed (fired : List Nat) (w : World σ) (conns : List Conn) : Prop where
  timers : w.loop.timerIds.Perm (conns.flatMap Conn.timers ++ fired)
  pos : 0 < w.loop.nextTimerId

/-- The same after a callback, beside the other connections. -/
def Keeps (fired : List Nat) (others : List Conn) (r : After σ) : Prop :=
  Timed fired r.1 (r.2.toList ++ others)

section Timed

variable {fired : List Nat} {w w' : World σ} {c c' : Conn} {conns others : List Conn}

theorem Timed.perm (h : Timed fired w conns) {conns' : List Conn} (hp : conns'.Perm conns) :
    Timed fired w conns' :=
  ⟨h.timers.trans ((hp.flatMap_right _).append_right _).symm, h.pos⟩

theorem Timed.modify (h : Timed fired w (c :: others)) (hids : w'.loop.timerIds = w.loop.timerIds)
    (hnext : w'.loop.nextTimerId = w.loop.nextTimerId) (hc : c'.idleTimerId = c.idleTimerId) :
    Timed fired w' (c' :: others) := by
  refine ⟨?_, hnext ▸ h.pos⟩
  have hcons : (c' :: others).flatMap Conn.timers = (c :: others).flatMap Conn.timers := by
    rw [List.flatMap_cons, List.flatMap_cons, Conn.timers, hc, Conn.timers]
  rw [hids, hcons]
  exact h.timers

theorem Timed.drop (h : Timed fired w (c :: others)) :
    (if c.idleTimerId = 0 then w.loop else (w.loop.delTimer c.idleTimerId).1).timerIds.Perm
        (others.flatMap Conn.timers ++ fired) ∧
      0 < (if c.idleTimerId = 0 then w.loop else (w.loop.delTimer c.idleTimerId).1).nextTimerId := by
  have ht := h.timers
  rw [List.flatMap_cons, Conn.timers] at ht
  split
  · next h0 =>
    rw [if_pos h0] at ht
    exact ⟨ht, h.pos⟩
  · next h0 =>
    rw [if_neg h0] at ht
    refine ⟨?_, (w.loop.nextTimerId_delTimer _).symm ▸ h.pos⟩
    rw [Loop.timerIds_delTimer]
    have herase := ht.erase c.idleTimerId
    rwa [List.append_assoc, List.singleton_append, List.erase_cons_head] at herase

theorem Timed.connClose (h : Timed fired w (c :: others)) (env : Env) :
    Keeps fired others (connClose w c env) := by
  obtain ⟨ht, hpos⟩ := h.drop
  refine ⟨?_, ?_⟩
  · show ((if c.idleTimerId = 0 then w.loop else _).delFd c.fd env.delFd).1.timerIds.Perm _
    rw [Loop.timerIds_delFd]
    exact ht
  · show 0 < ((if c.idleTimerId = 0 then w.loop else _).delFd c.fd env.delFd).1.nextTimerId
    rw [Loop.nextTimerId_delFd]
    exact hpos

theorem Timed.resetIdleTimer (h : Timed fired w (c :: others)) (timer : NewTimer) :
    Timed fired (resetIdleTimer w c timer).1 ((resetIdleTimer w c timer).2 :: others) := by
  obtain ⟨ht, hpos⟩ := h.drop
  unfold Http.resetIdleTimer
  generalize (if c.idleTimerId = 0 then w.loop else (w.loop.delTimer c.idleTimerId).1) = l at ht hpos
  have hle := l.le_nextTimerId_addTimer timer.tfd c.id timer.registered
  have hids := l.timerIds_addTimer timer.tfd c.id timer.registered
  dsimp only
  split
  · next l' id heq =>
    rw [heq] at hle hids
    rcases hids with ⟨hok, hids⟩ | ⟨⟨e, herr⟩, -⟩
    · rw [Except.ok.inj hok]
      refine ⟨?_, Nat.lt_of_lt_of_le hpos hle⟩
      show l'.timerIds.Perm _
      rw [show l'.timerIds = _ from hids, List.flatMap_cons, Conn.timers,
        if_neg (Nat.ne_of_gt hpos)]
      exact ht.cons _
    · cases herr
  · next l' e heq =>
    rw [heq] at hle hids
    rcases hids with ⟨hok, -⟩ | ⟨-, hids⟩
    · cases hok
    · refine ⟨?_, Nat.lt_of_lt_of_le hpos hle⟩
      show l'.timerIds.Perm _
      rw [show l'.timerIds = _ from hids]
      exact ht

theorem Timed.switchFd (h : Timed fired w (c :: others)) (events : Nat) (env : Env) :
    Timed fired (switchFd w c events env).1 (c :: others) := by
  refine h.modify ?_ ?_ rfl
  · show ((w.loop.delFd c.fd env.delFd).1.addFd c.fd events c.id env.addFd).1.timerIds = _
    rw [Loop.timerIds_addFd, Loop.timerIds_delFd]
  · show ((w.loop.delFd c.fd env.delFd).1.addFd c.fd events c.id env.addFd).1.nextTimerId = _
    rw [Loop.nextTimerId_addFd, Loop.nextTimerId_delFd]

theorem Timed.startWrite (h : Timed fired w (c :: others)) (env : Env) :
    Keeps fired others (startWrite w c env) := by
  unfold Http.startWrite
  split
  · exact h.connClose env
  · next sent _ =>
    have hs : Timed fired w ({ c with wbufSent := sent } :: others) := h.modify rfl rfl rfl
    have hw := hs.switchFd 4 env
    dsimp only
    split
    · next w' e heq =>
      rw [heq] at hw
      exact hw.connClose env
    · next w' heq =>
      rw [heq] at hw
      exact hw
  · split
    · exact h.connClose env
    · have hs : Timed fired w (connResetForNextRequest c :: others) := h.modify rfl rfl rfl
      have hw := hs.switchFd 1 env
      dsimp only
      split
      · next w' e heq =>
        rw [heq] at hw
        exact hw.connClose env
      · next w' heq =>
        rw [heq] at hw
        exact hw.resetIdleTimer env.rearm

theorem Timed.handleCompleteRequest (h : Timed fired w (c :: others)) (site : Site σ) (n : Nat)
    (env : Env) : Keeps fired others (handleCompleteRequest site n w c env) := by
  refine Timed.startWrite ?_ env
  exact h.modify rfl rfl rfl

theorem Timed.readLoop (site : Site σ) (n : Nat) (env : Env) {answers : List Recv} {r : After σ}
    (h : Timed fired w (c :: others)) (hr : readLoop site n w env c answers = some r) :
    Keeps fired others r := by
  induction answers generalizing c with
  | nil =>
    rw [Http.readLoop] at hr
    split at hr
    · cases hr
      exact h.connClose env
    · next c₁ hg =>
      cases hr
      exact h.modify rfl rfl (Conn.shell_grow hg).idleTimerId
  | cons a rest ih =>
    rw [Http.readLoop] at hr
    split at hr
    · cases hr
    next c₁ hg =>
    have h₁ : Timed fired w (c₁ :: others) := h.modify rfl rfl (Conn.shell_grow hg).idleTimerId
    split at hr
    · cases hr
    cases a with
    | again =>
      obtain ⟨-, rfl⟩ := of_returns hr
      exact h₁
    | eof =>
      obtain ⟨-, rfl⟩ := of_returns hr
      exact h₁.connClose env
    | failed =>
      obtain ⟨-, rfl⟩ := of_returns hr
      exact h₁.connClose env
    | data bytes =>
      have hshell : ∀ c₂, (feed c₁ bytes).conn = some c₂ → c₁.Shell c₂ := fun _ => Conn.shell_feed
      dsimp only at hr
      split at hr
      · cases hr
      split at hr
      · next c₂ hf =>
        rw [hf] at hshell
        exact ih (h₁.modify rfl rfl (hshell c₂ rfl).idleTimerId) hr
      · obtain ⟨-, rfl⟩ := of_returns hr
        exact h₁.connClose env
      · next c₂ hf =>
        rw [hf] at hshell
        obtain ⟨-, rfl⟩ := of_returns hr
        have h₂ : Timed fired w (c₂ :: others) :=
          h₁.modify rfl rfl (hshell c₂ rfl).idleTimerId
        exact h₂.handleCompleteRequest site n env

theorem Timed.onConnReadable (h : Timed fired w (c :: others)) {site : Site σ} {n : Nat}
    {broken : Bool} {answers : List Recv} {env : Env} {r : After σ}
    (hr : onConnReadable site n w c broken answers env = some r) : Keeps fired others r := by
  unfold Http.onConnReadable at hr
  split at hr
  · obtain ⟨-, rfl⟩ := of_returns hr
    exact h.connClose env
  · exact (h.resetIdleTimer env.timer).readLoop site n env hr

theorem Timed.onConnWritable (h : Timed fired w (c :: others)) (broken : Bool) (env : Env) :
    Keeps fired others (onConnWritable w c broken env) := by
  unfold Http.onConnWritable
  split
  · exact h.connClose env
  · exact h.startWrite env

theorem Timed.onIdleTimeout (h : Timed fired w (c :: others)) (h0 : c.idleTimerId ≠ 0) (env : Env) :
    Keeps (c.idleTimerId :: fired) others (onIdleTimeout w c env) := by
  have hforgotten : Timed (c.idleTimerId :: fired) w ({ c with idleTimerId := 0 } :: others) := by
    refine ⟨h.timers.trans ?_, h.pos⟩
    rw [List.flatMap_cons, List.flatMap_cons, Conn.timers, if_neg h0, Conn.timers, if_pos rfl,
      List.nil_append, List.append_assoc, List.singleton_append]
    exact List.perm_middle.symm
  exact hforgotten.connClose env

theorem Timed.onAccept {s : Httpd σ} (h : Timed fired s.world s.conns) (fd : Nat)
    (fcntl mem : Bool) (env : Env) :
    Timed fired (onAccept s fd fcntl mem env).world (onAccept s fd fcntl mem env).conns := by
  unfold Http.onAccept
  split
  · have hids := s.world.loop.timerIds_addFd fd 1 (connNew s.nextConn fd).id env.addFd
    have hnext := s.world.loop.nextTimerId_addFd fd 1 (connNew s.nextConn fd).id env.addFd
    dsimp only
    split
    · next loop e heq =>
      rw [heq] at hids hnext
      refine ⟨?_, ?_⟩
      · show loop.timerIds.Perm _
        rw [hids]
        exact h.timers
      · show 0 < loop.nextTimerId
        rw [hnext]
        exact h.pos
    · next loop _ heq =>
      rw [heq] at hids hnext
      have hnew : Timed fired { s.world with loop } (connNew s.nextConn fd :: s.conns) := by
        refine ⟨?_, ?_⟩
        · show loop.timerIds.Perm _
          rw [hids]
          exact h.timers
        · show 0 < loop.nextTimerId
          rw [hnext]
          exact h.pos
      exact hnew.resetIdleTimer env.timer
  · exact h

end Timed

def Ev.isTimeout : Ev → Bool
  | .idleTimeout _ _ => true
  | _ => false

/-- **One event** of the server; a timer that fires is left behind. -/
theorem Timed.step {fired : List Nat} {site : Site σ} {s s' : Httpd σ}
    (h : Timed fired s.world s.conns) {e : Ev} (hs : step site s e = some s') :
    ∃ fired', fired'.length = fired.length + (if e.isTimeout then 1 else 0) ∧
      Timed fired' s'.world s'.conns := by
  rcases step_cases hs with ⟨fd, fcntl, mem, env, rfl, rfl⟩ | ⟨c, others, r, hperm, -, hcb, hw, hc, -⟩
  · exact ⟨fired, rfl, h.onAccept fd fcntl mem env⟩
  rw [hw, hc]
  have hpicked := h.perm hperm
  cases e with
  | accept fd fcntl mem env => exact hcb.elim
  | readable id broken answers env => exact ⟨fired, rfl, hpicked.onConnReadable hcb.2⟩
  | writable id broken env => exact ⟨fired, rfl, hcb.2 ▸ hpicked.onConnWritable broken env⟩
  | idleTimeout id env =>
    exact ⟨c.idleTimerId :: fired, rfl, hcb.2 ▸ hpicked.onIdleTimeout hcb.1 env⟩

theorem timed_create (app : σ) : Timed [] (Httpd.create app).world (Httpd.create app).conns :=
  ⟨.nil, Nat.zero_lt_one⟩

theorem length_timers_le (conns : List Conn) :
    (conns.flatMap Conn.timers).length ≤ conns.length := by
  induction conns with
  | nil => exact Nat.le_refl _
  | cons c cs ih =>
    rw [List.flatMap_cons, List.length_append, List.length_cons, Conn.timers]
    split
    · exact Nat.le_succ_of_le (by simpa using ih)
    · rw [List.length_singleton]
      omega

end MagiTrickle.Http

namespace MagiTrickle.Dns.Transport

open MagiTrickle.Lib

/-! ## The DNS proxy -/

/-- The open descriptors that are sockets of no exchange and not in the pool: those of timers. -/
def State.openTimers (s : State) : List Nat :=
  (List.range s.proxy.fds.next).filter fun fd =>
    fd ∉ s.proxy.fds.closed ∧ fd ∉ s.proxy.fds.pool ∧
      ∀ ex ∈ s.live, ex.upstreamFd ≠ some fd ∧ ex.clientFd ≠ some fd

theorem Inv.perm_openTimers {n : Nat} {s : State} (h : Inv n s.proxy s.live) :
    s.openTimers.Perm (s.live.flatMap (fun ex => ex.timer.toList) ++ s.proxy.fired) := by
  have hheld : (s.live.flatMap (fun ex => ex.timer.toList) ++ s.proxy.fired ++
      s.live.flatMap (fun ex => ex.upstreamFd.toList ++ ex.clientFd.toList)).Perm
      (s.live.flatMap Exchange.fds ++ s.proxy.fired) := by
    rw [List.append_assoc]
    refine (List.perm_append_comm.append_left _).trans ?_
    rw [← List.append_assoc]
    exact (List.flatMap_append_perm _ _ _).append_right _
  have hbal := h.balanced.perm hheld
  have hnodup := hbal.nodup_held
  refine (List.perm_ext_iff_of_nodup (List.nodup_range.filter _)
    (List.nodup_append.mp hnodup).1).mpr fun fd => ?_
  rw [List.mem_filter, decide_eq_true_eq, ← hbal.mem_iff, List.mem_append,
    List.mem_append (t := s.live.flatMap _), List.mem_append (t := s.proxy.fds.closed)]
  refine ⟨?_, fun hfd => ⟨.inl (.inl hfd), ?_, ?_, fun ex hex => ⟨fun hu => ?_, fun hc => ?_⟩⟩⟩
  · rintro ⟨(hfd | hsock) | hpool | hclosed, hnc, hnp, hns⟩
    · exact hfd
    · obtain ⟨ex, hex, hmem⟩ := List.mem_flatMap.mp hsock
      rcases List.mem_append.mp hmem with hu | hc
      · exact absurd (Option.mem_toList.mp hu) (hns ex hex).1
      · exact absurd (Option.mem_toList.mp hc) (hns ex hex).2
    · exact absurd hpool hnp
    · exact absurd hclosed hnc
  · exact fun hclosed => (List.nodup_append.mp hbal.nodup).2.2 fd
      (List.mem_append_left _ hfd) fd (List.mem_append_right _ hclosed) rfl
  · exact hbal.not_mem_pool (List.mem_append_left _ hfd)
  · exact (List.nodup_append.mp hnodup).2.2 fd hfd fd
      (List.mem_flatMap.mpr ⟨ex, hex, List.mem_append_left _ (Option.mem_toList.mpr hu)⟩) rfl
  · exact (List.nodup_append.mp hnodup).2.2 fd hfd fd
      (List.mem_flatMap.mpr ⟨ex, hex, List.mem_append_right _ (Option.mem_toList.mpr hc)⟩) rfl

theorem length_timers_le (live : List Exchange) :
    (live.flatMap fun ex => ex.timer.toList).length ≤ live.length := by
  induction live with
  | nil => exact Nat.le_refl _
  | cons ex live ih =>
    have hone : ex.timer.toList.length ≤ 1 := by cases ex.timer <;> simp
    rw [List.flatMap_cons, List.length_append, List.length_cons]
    omega

end MagiTrickle.Dns.Transport

namespace MagiTrickle.Platform

/-! ## Both on one loop -/

variable {σ : Type}

structure System (σ : Type) where
  dns : Dns.Transport.State
  http : Http.Httpd σ

inductive SystemEv where
  | dns (e : Dns.Transport.Ev)
  | http (e : Http.Ev)

namespace System

def step (site : Http.Site σ) (s : System σ) : SystemEv → Option (System σ)
  | .dns e => (Dns.Transport.step s.dns e).map fun dns => { s with dns }
  | .http e => (Http.step site s.http e).map fun http => { s with http }

def run (site : Http.Site σ) (s : System σ) (evs : List SystemEv) : Option (System σ) :=
  evs.foldlM (step site) s

def timers (s : System σ) : Nat :=
  s.dns.openTimers.length + s.http.world.loop.timerIds.length

def owners (s : System σ) : Nat := s.dns.live.length + s.http.conns.length

end System

def SystemEv.expires : SystemEv → Bool
  | .dns e => e.isTimeout
  | .http e => e.isTimeout

/-- The timers, with `n` and `m` that have fired. -/
theorem counted_of {n m : Nat} {s : System σ} (hd : Dns.Transport.Inv n s.dns.proxy s.dns.live)
    {fired : List Nat} (hf : fired.length = m)
    (hh : Http.Timed fired s.http.world s.http.conns) :
    ∃ held ≤ s.owners, s.timers = held + (n + m) := by
  have hdns := hd.perm_openTimers.length_eq
  have hhttp := hh.timers.length_eq
  have hdle := Dns.Transport.length_timers_le s.dns.live
  have hhle := Http.length_timers_le s.http.conns
  rw [List.length_append, hd.fired] at hdns
  rw [List.length_append, hf] at hhttp
  exact ⟨_, Nat.add_le_add hdle hhle, by unfold System.timers; omega⟩

/-- Both invariants hold along a run, which leaves one timer behind for each that fires. -/
theorem inv_run {site : Http.Site σ} {evs : List SystemEv} {n : Nat} {fired : List Nat}
    {s s' : System σ} (hd : Dns.Transport.Inv n s.dns.proxy s.dns.live)
    (hh : Http.Timed fired s.http.world s.http.conns) (hs : s.run site evs = some s') :
    ∃ n' fired', n' + fired'.length = n + fired.length + (evs.filter SystemEv.expires).length ∧
      Dns.Transport.Inv n' s'.dns.proxy s'.dns.live ∧
        Http.Timed fired' s'.http.world s'.http.conns := by
  induction evs generalizing n fired s with
  | nil =>
    cases hs
    exact ⟨n, fired, rfl, hd, hh⟩
  | cons e evs ih =>
    obtain ⟨s₁, h₁, h₂⟩ := Option.bind_eq_some_iff.mp
      ((List.foldlM_cons (f := System.step site)).symm.trans hs)
    have hcount : ((e :: evs).filter SystemEv.expires).length =
        (if e.expires then 1 else 0) + (evs.filter SystemEv.expires).length := by
      rw [List.filter_cons]
      split <;> simp [Nat.add_comm]
    cases e with
    | dns e =>
      obtain ⟨dns, hstep, rfl⟩ := Option.map_eq_some_iff.mp h₁
      have hd₁ : Dns.Transport.Inv _ (System.mk dns s.http).dns.proxy dns.live := hd.step hstep
      obtain ⟨n', fired', hsum, hinv⟩ := ih hd₁ hh h₂
      refine ⟨n', fired', ?_, hinv⟩
      rw [hsum, hcount, SystemEv.expires]
      omega
    | http e =>
      obtain ⟨http, hstep, rfl⟩ := Option.map_eq_some_iff.mp h₁
      obtain ⟨fired₁, hlen, hh₁⟩ := hh.step hstep
      have hd₁ : Dns.Transport.Inv n (System.mk s.dns http).dns.proxy s.dns.live := hd
      obtain ⟨n', fired', hsum, hinv⟩ := ih hd₁ hh₁ h₂
      refine ⟨n', fired', ?_, hinv⟩
      rw [hsum, hcount, hlen, SystemEv.expires]
      omega

/-- The daemon after `mt_dnsproxy_create` and `mt_httpd_create`. -/
def System.create (maxConcurrent : UInt32) (maxIdleConns : Nat)
    (disableFakePtr disableDropAaaa : Bool) (app : σ) : System σ :=
  ⟨Dns.Transport.create maxConcurrent maxIdleConns disableFakePtr disableDropAaaa, .create app⟩

/-- **Timers do not accumulate** in a run in which none fires; and where all exchanges and
connections have ended, none is left exactly when none has fired. -/
theorem run_timers (site : Http.Site σ) (maxConcurrent : UInt32) (maxIdleConns : Nat)
    (disableFakePtr disableDropAaaa : Bool) (app : σ) (evs : List SystemEv) (s : System σ)
    (h : (System.create maxConcurrent maxIdleConns disableFakePtr disableDropAaaa app).run site evs =
      some s) :
    ((∀ e ∈ evs, e.expires = false) → s.timers ≤ s.owners) ∧
      (s.owners = 0 → (s.timers = 0 ↔ ∀ e ∈ evs, e.expires = false)) := by
  obtain ⟨n, fired, hsum, hd, hh⟩ := inv_run
    (Dns.Transport.inv_create maxConcurrent maxIdleConns disableFakePtr disableDropAaaa)
    (Http.timed_create app) h
  obtain ⟨held, hle, hcount⟩ := counted_of hd rfl hh
  have hnone : (∀ e ∈ evs, e.expires = false) ↔ n + fired.length = 0 := by
    rw [hsum, List.length_nil, Nat.zero_add, List.length_eq_zero_iff,
      List.filter_eq_nil_iff]
    simp only [Bool.not_eq_true]
  rw [hnone]
  constructor
  · intro h0
    rw [hcount, h0]
    exact hle
  · intro h0
    rw [hcount]
    omega

def answeredAndClosed : List SystemEv :=
  [.dns (.datagram 12 Dns.Transport.allWell), .http (.accept 5 true true Http.allGood),
    .dns (.ready 0 Dns.Transport.allWell), .http (.readable 0 false [.eof] Http.allGood)]

/-- Both have ended without a time-out. -/
theorem run_timers_closed :
    ∃ s, (System.create 10 1 false false ()).run Http.bareSite answeredAndClosed = some s ∧
      s.owners = 0 ∧ s.timers = 0 := by
  refine ⟨_, rfl, rfl, ?_⟩
  refine ((run_timers Http.bareSite 10 1 false false () answeredAndClosed _ rfl).2 rfl).mpr ?_
  intro e he
  simp only [answeredAndClosed, List.mem_cons, List.not_mem_nil, or_false] at he
  rcases he with rfl | rfl | rfl | rfl <;> rfl

/-- A request that is not answered in time and a client that says nothing: both are gone, and both
timers are still registered. -/
theorem timers_left_behind :
    ∃ s, (System.create 10 1 false false ()).run Http.bareSite
        [.dns (.datagram 12 Dns.Transport.allWell), .http (.accept 5 true true Http.allGood),
          .dns (.timeout 0), .http (.idleTimeout 0 Http.allGood)] = some s ∧
      s.owners = 0 ∧ s.timers = 2 ∧ ¬ s.timers ≤ s.owners := by
  refine ⟨_, rfl, rfl, rfl, ?_⟩
  show ¬ 2 ≤ 0
  decide

end MagiTrickle.Platform
