import MagiTrickle.Dns.Exchange
import MagiTrickle.Dns.Inflight
import MagiTrickle.Lib.Erasing

/-!
# The registrations of UDP exchanges (`dns/proxy.c`)

`Dns.Exchange` runs the callbacks of exchanges on the event loop, with its list
of watches; `Dns.Transport` has a callback for each descriptor instead. Here the
watches of the loop are seen as these registrations: what is dispatched is one
callback of the other proxy, or none, and the timers that the loop holds are
those of the live exchanges and those that have fired (`loopRun_views`).
-/

namespace MagiTrickle.Dns

open MagiTrickle.Platform
open MagiTrickle.Lib.Erasing
open MagiTrickle.Dns.Transport (Dnsproxy allWell)

/-- The descriptors that the loop waits for, with the callbacks. -/
def sockets (l : Loop Ctx) : List (Nat × Ctx) :=
  l.watches.filterMap fun w => if w.kind = .fd then some (w.fd, w.cb) else none

/-- The timers by their ids, with their descriptors and callbacks. -/
def timers (l : Loop Ctx) : List (Nat × (Nat × Ctx)) :=
  l.watches.filterMap fun w => if w.kind = .timer then some (w.id, (w.fd, w.cb)) else none

section Ops

variable (l : Loop Ctx)

theorem sockets_delTimer (id : Nat) : sockets (l.delTimer id).1 = sockets l := by
  unfold Loop.delTimer
  split
  · refine filterMap_eraseP_of_none fun w hw => if_neg ?_
    rw [(of_decide_eq_true hw).1]
    nofun
  · rfl

theorem timers_delFd (fd : Nat) : timers (l.delFd fd (.ok ())).1 = timers l := by
  unfold Loop.delFd
  split
  · refine filterMap_eraseP_of_none fun w hw => if_neg ?_
    rw [(of_decide_eq_true hw).1]
    nofun
  · rfl

theorem sockets_delFd (hnodup : ((sockets l).map Prod.fst).Nodup) (fd : Nat) :
    sockets (l.delFd fd (.ok ())).1 = (sockets l).filter fun x => x.1 ≠ fd := by
  have herase : sockets (l.unlink (Loop.isFdWatch fd)) = (sockets l).filter fun x => x.1 ≠ fd := by
    rw [← eraseP_key hnodup]
    refine filterMap_eraseP fun w => ?_
    unfold Loop.isFdWatch
    by_cases hk : w.kind = .fd <;> simp [hk]
  unfold Loop.delFd
  split
  · exact herase
  · next hnone =>
    have hsame : l.watches.eraseP (Loop.isFdWatch fd) = l.watches :=
      List.eraseP_of_forall_not fun w hw hp => hnone (List.any_eq_true.mpr ⟨w, hw, hp⟩)
    rw [← herase]
    exact (congrArg (List.filterMap _) hsame).symm

theorem timers_delTimer (hnodup : ((timers l).map Prod.fst).Nodup) (id : Nat) :
    timers (l.delTimer id).1 = (timers l).filter fun x => x.1 ≠ id := by
  have herase : timers (l.unlink (Loop.isTimerWatch id)) =
      (timers l).filter fun x => x.1 ≠ id := by
    rw [← eraseP_key hnodup]
    refine filterMap_eraseP fun w => ?_
    unfold Loop.isTimerWatch
    by_cases hk : w.kind = .timer <;> simp [hk]
  unfold Loop.delTimer
  split
  · exact herase
  · next hnone =>
    have hsame : l.watches.eraseP (Loop.isTimerWatch id) = l.watches :=
      List.eraseP_of_forall_not fun w hw hp => hnone (List.any_eq_true.mpr ⟨w, hw, hp⟩)
    rw [← herase]
    exact (congrArg (List.filterMap _) hsame).symm

end Ops

/-! ## The exchanges of both -/

/-- A live exchange with its registrations; `tfd` is the descriptor of its timer. -/
structure Same (l : Loop Ctx) (x : Nat × Exchange) (y : Transport.Exchange) : Prop where
  id : y.id = x.1
  udp : y.isTcp = false
  upstream : ∃ fd, x.2.upstreamFd = some fd ∧ y.upstreamFd = some fd ∧
    (fd, ⟨.onUpstream, x.1⟩) ∈ sockets l
  client : x.2.clientFd = none ∧ y.clientFd = none
  timer : 0 < x.2.timerId ∧ ∃ tfd, y.timer = some tfd ∧
    (x.2.timerId, (tfd, ⟨.onTimeout, x.1⟩)) ∈ timers l

/-- The loop's watches are the registrations, with the timers that have fired. -/
structure Views (s : Prog Ctx Exchanges) (t : Transport.State) : Prop where
  socket : ∀ fd w, t.proxy.watch fd = some w ↔
    w.1 = .onUpstream ∧ (fd, ⟨.onUpstream, w.2⟩) ∈ sockets s.loop
  kinds : ∀ w ∈ s.loop.watches, (w.kind = .fd ∧ w.cb.cb = .onUpstream) ∨
    (w.kind = .timer ∧ w.cb.cb = .onTimeout)
  fds : ((sockets s.loop).map Prod.fst).Nodup
  timerIds : ((timers s.loop).map Prod.fst).Nodup
  fresh : ∀ x ∈ timers s.loop, x.1 < s.loop.nextTimerId
  pos : 0 < s.loop.nextTimerId
  ids : (t.live.map Transport.Exchange.id).Perm (s.rest.live.map Prod.fst)
  live : ∀ x ∈ s.rest.live, ∃ y ∈ t.live, Same s.loop x y
  armed : ((timers s.loop).map fun x => x.2.1).Perm
    (t.live.flatMap (fun y => y.timer.toList) ++ t.proxy.fired)

section Views

variable {s : Prog Ctx Exchanges} {t : Transport.State} {n key : Nat} {ex : Exchange}
  {y : Transport.Exchange} {others : List Transport.Exchange}

theorem Views.nodup (h : Views s t) (hinv : Transport.Inv n t.proxy t.live) :
    (s.rest.live.map Prod.fst).Nodup :=
  h.ids.nodup_iff.mp (List.nodup_append.mp (hinv.once.nodup_iff.mpr List.nodup_range)).1

/-- The calls of `exchange_finish` for an exchange over UDP, after which it is freed. -/
theorem foldl_finishOps (l : Loop Ctx) (hfds : ((sockets l).map Prod.fst).Nodup)
    (htimers : ((timers l).map Prod.fst).Nodup) {fd : Nat} (hfd : ex.upstreamFd = some fd)
    (hc : ex.clientFd = none) :
    sockets ((finishOps ex).foldl LoopOp.apply l) = (sockets l).filter (fun x => x.1 ≠ fd) ∧
      timers ((finishOps ex).foldl LoopOp.apply l) =
        (timers l).filter (fun x => 0 < ex.timerId → x.1 ≠ ex.timerId) ∧
      ((finishOps ex).foldl LoopOp.apply l).nextTimerId = l.nextTimerId := by
  have hnext : ∀ l' : Loop Ctx, (l'.delFd fd (.ok ())).1.nextTimerId = l'.nextTimerId := by
    intro l'
    unfold Loop.delFd
    split <;> rfl
  have hnext' : (l.delTimer ex.timerId).1.nextTimerId = l.nextTimerId := by
    unfold Loop.delTimer
    split <;> rfl
  unfold finishOps
  rw [hfd, hc]
  by_cases hpos : 0 < ex.timerId
  · rw [if_pos hpos]
    show sockets ((l.delTimer ex.timerId).1.delFd fd (.ok ())).1 = _ ∧
      timers ((l.delTimer ex.timerId).1.delFd fd (.ok ())).1 = _ ∧
      ((l.delTimer ex.timerId).1.delFd fd (.ok ())).1.nextTimerId = _
    have hsock := sockets_delTimer l ex.timerId
    refine ⟨?_, ?_, (hnext _).trans hnext'⟩
    · rw [sockets_delFd _ (hsock ▸ hfds), hsock]
    · rw [timers_delFd, timers_delTimer l htimers]
      simp only [hpos, true_imp_iff]
  · rw [if_neg hpos]
    show sockets (l.delFd fd (.ok ())).1 = _ ∧ timers (l.delFd fd (.ok ())).1 = _ ∧
      (l.delFd fd (.ok ())).1.nextTimerId = _
    refine ⟨sockets_delFd l hfds fd, ?_, hnext l⟩
    rw [timers_delFd, List.filter_eq_self.mpr fun x _ => by simp [hpos]]

/-- `exchange_finish` on the registrations. -/
theorem watch_exchangeFinish (p : Dnsproxy) {fd : Nat} (hu : y.upstreamFd = some fd)
    (hc : y.clientFd = none) (pool : Bool) :
    (Transport.exchangeFinish p y pool).1.watch = Function.update p.watch fd none ∧
      (Transport.exchangeFinish p y pool).1.fired = p.fired := by
  have hdrop : ∀ q : Dnsproxy, (Transport.dropUpstream q y pool).watch =
      Function.update q.watch fd none ∧ (Transport.dropUpstream q y pool).fired = q.fired := by
    intro q
    unfold Transport.dropUpstream
    rw [hu]
    dsimp only
    split
    · exact ⟨rfl, rfl⟩
    · exact ⟨rfl, rfl⟩
  unfold Transport.exchangeFinish Transport.dropClient Transport.dropTimer
  rw [hc]
  cases y.timer with
  | none => exact hdrop p
  | some tfd => exact hdrop (p.close tfd)

/-- The exchange `key` is gone, with its socket and the timers that are not kept. -/
theorem Views.without (h : Views s t) (hinv : Transport.Inv n t.proxy t.live)
    (hx : (key, ex) ∈ s.rest.live) (hs : Same s.loop (key, ex) y) (hperm : (y :: others).Perm t.live)
    {fd i : Nat} (hfd : ex.upstreamFd = some fd) (hi : 0 < i → i = ex.timerId) {l : Loop Ctx}
    (hsockets : sockets l = (sockets s.loop).filter fun x => x.1 ≠ fd)
    (htimers : timers l = (timers s.loop).filter fun x => 0 < i → x.1 ≠ i)
    (hnext : l.nextTimerId = s.loop.nextTimerId) (hsub : ∀ w ∈ l.watches, w ∈ s.loop.watches)
    {p : Dnsproxy} (hwatch : p.watch = Function.update t.proxy.watch fd none)
    (hleft : ((timers l).map fun x => x.2.1).Perm
      (others.flatMap (fun y => y.timer.toList) ++ p.fired)) :
    Views ⟨l, { s.rest with live := s.rest.live.filter fun x => x.1 ≠ key }⟩ ⟨p, others⟩ where
  socket := fun fd' w => by
    show p.watch fd' = some w ↔ _ ∧ _ ∈ sockets l
    rw [hwatch, hsockets, List.mem_filter]
    by_cases hne : fd' = fd
    · subst hne
      rw [Function.update_self]
      simp
    · rw [Function.update_of_ne hne, h.socket]
      simp [hne]
  kinds := fun w hw => h.kinds w (hsub w hw)
  fds := by
    show ((sockets l).map Prod.fst).Nodup
    rw [hsockets]
    exact h.fds.sublist (List.filter_sublist.map _)
  timerIds := by
    show ((timers l).map Prod.fst).Nodup
    rw [htimers]
    exact h.timerIds.sublist (List.filter_sublist.map _)
  fresh := fun x hx' => by
    have hx' : x ∈ timers l := hx'
    rw [htimers] at hx'
    exact hnext ▸ h.fresh x (List.mem_of_mem_filter hx')
  pos := hnext ▸ h.pos
  ids := by
    have hnodup := h.nodup hinv
    have hleft := ((hperm.map Transport.Exchange.id).trans h.ids).trans
      ((perm_filter_key hnodup hx).map Prod.fst)
    rw [List.map_cons, List.map_cons, hs.id] at hleft
    exact hleft.cons_inv
  live := fun x' hx' => by
    obtain ⟨hmem, hne⟩ := List.mem_filter.mp hx'
    have hne : x'.1 ≠ key := of_decide_eq_true hne
    obtain ⟨y', hy', hs'⟩ := h.live x' hmem
    refine ⟨y', ?_, hs'.id, hs'.udp, ?_, hs'.client, hs'.timer.1, ?_⟩
    · rcases List.mem_cons.mp (hperm.mem_iff.mpr hy') with rfl | hy'
      · exact absurd (hs'.id.symm.trans hs.id) hne
      · exact hy'
    · obtain ⟨fd', hfd', hu', hreg'⟩ := hs'.upstream
      refine ⟨fd', hfd', hu', ?_⟩
      show _ ∈ sockets l
      rw [hsockets, List.mem_filter]
      refine ⟨hreg', decide_eq_true fun heq => hne ?_⟩
      -- one descriptor has one callback
      obtain ⟨fd₀, hfd₀, -, hreg⟩ := hs.upstream
      cases hfd.symm.trans hfd₀
      have hsame := List.inj_on_of_nodup_map h.fds hreg' hreg heq
      exact congrArg (fun x => x.2.ex) hsame
    · obtain ⟨tfd', ht', hreg'⟩ := hs'.timer.2
      refine ⟨tfd', ht', ?_⟩
      show _ ∈ timers l
      rw [htimers, List.mem_filter]
      refine ⟨hreg', decide_eq_true fun hpos heq => hne ?_⟩
      obtain ⟨tfd, -, hreg⟩ := hs.timer.2
      have hsame := List.inj_on_of_nodup_map h.timerIds hreg' hreg (heq.trans (hi hpos))
      exact congrArg (fun x => x.2.2.ex) hsame
  armed := hleft

theorem mem_of_mem_finishOps (l : Loop Ctx) (e : Exchange) {w : Watch Ctx}
    (hw : w ∈ ((finishOps e).foldl LoopOp.apply l).watches) : w ∈ l.watches :=
  mem_of_mem_foldl_finishOps finishOps_del hw

/-- `exchange_finish` on the loop and on the descriptors. -/
theorem Views.finish (h : Views s t) (hinv : Transport.Inv n t.proxy t.live)
    (hx : (key, ex) ∈ s.rest.live) (hs : Same s.loop (key, ex) y) (hperm : (y :: others).Perm t.live)
    (pool : Bool) :
    Views (s.perform (exchangeFinish key ex s.rest))
      (.after (Transport.exchangeFinish t.proxy y pool) others) := by
  obtain ⟨fd, hfd, hu, -⟩ := hs.upstream
  obtain ⟨hpos, tfd, ht, hreg⟩ := hs.timer
  obtain ⟨hsockets, htimers, hnext⟩ := foldl_finishOps s.loop h.fds h.timerIds hfd hs.client.1
  obtain ⟨hwatch, hfired⟩ := watch_exchangeFinish t.proxy hu hs.client.2 pool
  refine h.without hinv hx hs hperm hfd (fun _ => rfl) hsockets htimers hnext
    (fun w => mem_of_mem_finishOps s.loop ex) hwatch ?_
  have hkey := (perm_filter_key h.timerIds hreg).map fun x => x.2.1
  have hlive := (hperm.flatMap_right fun y => y.timer.toList).append_right t.proxy.fired
  have hall := (hkey.symm.trans h.armed).trans hlive.symm
  rw [List.map_cons, List.flatMap_cons, ht] at hall
  rw [htimers, hfired]
  simp only [hpos, true_imp_iff]
  exact hall.cons_inv

/-- `on_timeout` on both: the timer that has fired stays with the loop. -/
theorem Views.timeout (h : Views s t) (hinv : Transport.Inv n t.proxy t.live)
    (hx : (key, ex) ∈ s.rest.live) (hs : Same s.loop (key, ex) y)
    (hperm : (y :: others).Perm t.live) :
    Views (s.perform (onTimeout key ex s.rest))
      (.after (Transport.onTimeout t.proxy y) others) := by
  obtain ⟨fd, hfd, hu, -⟩ := hs.upstream
  have hfd' : ({ ex with timerId := 0 } : Exchange).upstreamFd = some fd := hfd
  obtain ⟨hsockets, htimers, hnext⟩ := foldl_finishOps s.loop h.fds h.timerIds hfd' hs.client.1
  obtain ⟨hwatch, hfired⟩ := watch_exchangeFinish (y := { y with timer := none })
    { t.proxy with fired := y.timer.toList ++ t.proxy.fired } hu hs.client.2 false
  refine h.without hinv hx hs hperm hfd (fun hi => absurd hi (Nat.lt_irrefl 0)) hsockets htimers
    hnext (fun w => mem_of_mem_finishOps s.loop _) hwatch ?_
  have hlive := (hperm.flatMap_right fun y => y.timer.toList).append_right t.proxy.fired
  have hall := h.armed.trans hlive.symm
  rw [htimers, List.filter_eq_self.mpr fun x _ => by simp]
  show (_ : List Nat).Perm (_ ++ (Transport.exchangeFinish _ _ false).1.fired)
  rw [hfired]
  refine hall.trans ?_
  rw [List.flatMap_cons, List.append_assoc]
  exact List.perm_append_comm_assoc ..

/-- The other proxy gets there in `k` callbacks at most. -/
def Reaches (k : Nat) (s' : Prog Ctx Exchanges) (t : Transport.State) : Prop :=
  ∃ evs t', evs.length ≤ k ∧ Transport.run t evs = some t' ∧ Views s' t'

theorem Views.stays (h : Views s t) (k : Nat) : Reaches k s t := ⟨[], t, Nat.zero_le _, rfl, h⟩

theorem Views.after {s' : Prog Ctx Exchanges} {t' : Transport.State} (h : Views s' t')
    {ev : Transport.Ev} (hs : Transport.step t ev = some t') : Reaches 1 s' t := by
  refine ⟨[ev], t', Nat.le_refl _, ?_, h⟩
  unfold Transport.run
  rw [List.foldlM_cons]
  exact Option.bind_eq_some_iff.mpr ⟨t', hs, rfl⟩

theorem Views.pick (h : Views s t) (hinv : Transport.Inv n t.proxy t.live)
    (hx : (key, ex) ∈ s.rest.live) : ∃ y others, Transport.pick t.live key = some (y, others) ∧
      (y :: others).Perm t.live ∧ Same s.loop (key, ex) y := by
  obtain ⟨y, hy, hs⟩ := h.live _ hx
  have hpick := hinv.pick hy
  rw [hs.id] at hpick
  exact ⟨y, _, hpick, (Transport.perm_of_pick hpick).1, hs⟩

/-- `on_upstream`: an error or a datagram ends the exchange. -/
theorem Views.onUpstream (h : Views s t) (hinv : Transport.Inv n t.proxy t.live)
    (hx : (key, ex) ∈ s.rest.live) {fd : Nat} (hreg : (fd, ⟨.onUpstream, key⟩) ∈ sockets s.loop)
    (events : Nat) : Reaches 1 (s.perform (onUpstream key ex events s.rest)) t := by
  obtain ⟨y, others, hpick, hperm, hs⟩ := h.pick hinv hx
  have hwatch : t.proxy.watch fd = some (.onUpstream, key) := (h.socket fd _).mpr ⟨rfl, hreg⟩
  unfold Dns.onUpstream
  split
  · have hstep := Transport.step_ready hwatch hpick { allWell with broken := true }
    exact (h.finish hinv hx hs hperm false).after hstep
  · split
    · exact h.stays _
    · have hcb : Transport.callback t.proxy y .onUpstream fd allWell =
          Transport.exchangeFinish t.proxy y true := by
        simp [Transport.callback, Transport.onUpstream, Transport.deliverResponse, allWell, hs.udp]
      have hstep := Transport.step_ready hwatch hpick allWell
      rw [hcb] at hstep
      exact (h.finish hinv hx hs hperm true).after hstep

theorem Views.onTimeout (h : Views s t) (hinv : Transport.Inv n t.proxy t.live)
    (hx : (key, ex) ∈ s.rest.live) : Reaches 1 (s.perform (onTimeout key ex s.rest)) t := by
  obtain ⟨y, others, hpick, hperm, hs⟩ := h.pick hinv hx
  obtain ⟨-, tfd, htfd, -⟩ := hs.timer
  refine (h.timeout hinv hx hs hperm).after (Transport.step_timeout hpick ?_)
  rw [htfd]
  rfl

/-- **One event** of a batch is one callback of the other proxy, or none. -/
theorem Views.dispatch (h : Views s t) (hinv : Transport.Inv n t.proxy t.live) {e : Event}
    {s' : Prog Ctx Exchanges} (hd : dispatch exchangeCallbacks s e = .ok s') : Reaches 1 s' t := by
  unfold Platform.dispatch at hd
  split at hd
  · cases hd
    exact h.stays _
  split at hd
  · cases hd
    exact h.stays _
  · next p _ =>
    split at hd
    · cases hd
    · next w hfind =>
      cases hd
      have hw : w ∈ s.loop.watches := List.mem_of_find?_eq_some hfind
      unfold exchangeCallbacks
      dsimp only
      cases hlive : s.rest.live.find? fun x => x.1 = w.cb.ex with
      | none => exact h.stays _
      | some x =>
        obtain ⟨key, ex⟩ := x
        have hx : (key, ex) ∈ s.rest.live := List.mem_of_find?_eq_some hlive
        have hkey : key = w.cb.ex := by simpa using List.find?_some hlive
        rcases h.kinds w hw with ⟨hkind, hcb⟩ | ⟨hkind, hcb⟩
        · have hreg : (w.fd, ⟨.onUpstream, key⟩) ∈ sockets s.loop :=
            List.mem_filterMap.mpr ⟨w, hw, by rw [if_pos hkind, hkey, ← hcb]⟩
          dsimp only
          rw [hcb]
          exact h.onUpstream hinv hx hreg e.events
        · dsimp only
          rw [hcb]
          exact h.onTimeout hinv hx

/-! ## New exchanges -/

theorem views_create (again : Bool) (maxConcurrent : UInt32) (maxIdleConns : Nat)
    (disableFakePtr disableDropAaaa : Bool) :
    Views ⟨Loop.create, ⟨[], again⟩⟩
      (Transport.create maxConcurrent maxIdleConns disableFakePtr disableDropAaaa) where
  socket := fun _ _ => ⟨nofun, fun h => nomatch h.2⟩
  kinds := nofun
  fds := .nil
  timerIds := .nil
  fresh := nofun
  pos := Nat.one_pos
  ids := .nil
  live := nofun
  armed := .nil

/-- A datagram of 12 bytes that the kernel takes. -/
theorem sendUdp_sent {p : Dnsproxy} {fd : Nat} (hnew : p.watch fd = none)
    (hreq : y.req = some 12) : Transport.sendUdp p y fd allWell =
      ({ p with watch := Function.update p.watch fd (some (.onUpstream, y.id)) }.opened,
        some { y with upstreamFd := some fd, reqSent := 12, timer := some p.fds.next }) := by
  unfold Transport.sendUdp
  rw [if_neg (by simp [allWell])]
  dsimp only
  rw [hreq, Transport.addFd_of_none hnew]
  rfl

theorem Views.not_mem_sockets (h : Views s t) {fd : Nat} (hnew : t.proxy.watch fd = none)
    (c : Ctx) : (fd, c) ∉ sockets s.loop := by
  intro hc
  have hcb : c.cb = .onUpstream := by
    obtain ⟨w, hw, hread⟩ := List.mem_filterMap.mp hc
    split at hread
    · next hkind =>
      cases hread
      rcases h.kinds w hw with ⟨-, hcb⟩ | ⟨hkind', -⟩
      · exact hcb
      · cases hkind.symm.trans hkind'
    · cases hread
  have hw := (h.socket fd (.onUpstream, c.ex)).mpr ⟨rfl, by rw [← hcb]; exact hc⟩
  cases hnew.symm.trans hw

/-- The registrations of `start_upstream` on both, with the next descriptor for the timer. -/
theorem Views.registered (h : Views s t) {p : Dnsproxy} (hwatch : p.watch = t.proxy.watch)
    (hfired : p.fired = t.proxy.fired) {fd : Nat} (hnew : t.proxy.watch fd = none)
    (hid : y.id = key) (ht : y.isTcp = false) (hc : y.clientFd = none) (hreq : y.req = some 12) :
    Views ⟨(startUpstream s.loop key fd p.fds.next).1,
        { s.rest with live := (key, (startUpstream s.loop key fd p.fds.next).2) :: s.rest.live }⟩
      (.after (Transport.sendUdp p y fd allWell) t.live) := by
  have hsockets : sockets (startUpstream s.loop key fd p.fds.next).1 =
    (fd, ⟨.onUpstream, key⟩) :: sockets s.loop := rfl
  have htimers : timers (startUpstream s.loop key fd p.fds.next).1 =
    (s.loop.nextTimerId, (p.fds.next, ⟨.onTimeout, key⟩)) :: timers s.loop := rfl
  have hfree := h.not_mem_sockets hnew
  rw [sendUdp_sent (hwatch ▸ hnew) hreq]
  refine ⟨fun fd' w => ?_, ?_, ?_, ?_, ?_, Nat.succ_pos _, ?_, ?_, ?_⟩
  · show Function.update p.watch fd _ fd' = some w ↔ _ ∧ _ ∈ sockets _
    rw [hsockets, hwatch, List.mem_cons]
    by_cases hne : fd' = fd
    · subst hne
      rw [Function.update_self, hid]
      constructor
      · rintro ⟨⟩
        exact ⟨rfl, .inl rfl⟩
      · rintro ⟨hcb, heq | hold⟩
        · have hkey : w.2 = key := congrArg (fun x => x.2.ex) heq
          rw [← hkey, ← hcb]
        · exact absurd hold (hfree _)
    · rw [Function.update_of_ne hne, h.socket]
      simp [hne]
  · intro w hw
    rcases List.mem_cons.mp hw with rfl | hw
    · exact .inr ⟨rfl, rfl⟩
    rcases List.mem_cons.mp hw with rfl | hw
    · exact .inl ⟨rfl, rfl⟩
    · exact h.kinds w hw
  · show ((sockets _).map Prod.fst).Nodup
    rw [hsockets, List.map_cons, List.nodup_cons]
    refine ⟨fun hmem => ?_, h.fds⟩
    obtain ⟨⟨fd', c⟩, hc, rfl⟩ := List.mem_map.mp hmem
    exact hfree c hc
  · show ((timers _).map Prod.fst).Nodup
    rw [htimers, List.map_cons, List.nodup_cons]
    refine ⟨fun hmem => ?_, h.timerIds⟩
    obtain ⟨x, hx, hid⟩ := List.mem_map.mp hmem
    exact absurd (h.fresh x hx) (by rw [hid]; exact Nat.lt_irrefl _)
  · intro x hx
    rcases List.mem_cons.mp (htimers ▸ hx) with rfl | hx
    · exact Nat.lt_succ_self _
    · exact Nat.lt_succ_of_lt (h.fresh x hx)
  · exact hid ▸ h.ids.cons y.id
  · intro x hx
    rcases List.mem_cons.mp hx with rfl | hx
    · refine ⟨_, List.mem_cons_self, hid, ht, ⟨fd, rfl, rfl, ?_⟩, ⟨rfl, hc⟩, h.pos, p.fds.next, rfl, ?_⟩
      · exact List.mem_cons_self
      · exact List.mem_cons_self
    · obtain ⟨y', hy', hs⟩ := h.live x hx
      obtain ⟨fd', hfd', hu', hreg'⟩ := hs.upstream
      obtain ⟨hpos, tfd, htfd, hreg⟩ := hs.timer
      exact ⟨y', List.mem_cons_of_mem _ hy', hs.id, hs.udp,
        ⟨fd', hfd', hu', List.mem_cons_of_mem _ hreg'⟩, hs.client, hpos, tfd, htfd,
        List.mem_cons_of_mem _ hreg⟩
  · show ((timers _).map fun x => x.2.1).Perm (p.fds.next :: _ ++ p.fired)
    rw [htimers, hfired]
    exact h.armed.cons _

/-- A request over UDP on both: the socket is one of the pool or the next descriptor. -/
theorem Views.started (h : Views s t) (hinv : Transport.Inv n t.proxy t.live)
    (hroom : ¬ t.proxy.full = true) : ∃ fd tfd,
      Views ⟨(startUpstream s.loop t.proxy.nextEx fd tfd).1,
        { s.rest with live :=
            (t.proxy.nextEx, (startUpstream s.loop t.proxy.nextEx fd tfd).2) :: s.rest.live }⟩
        (.after (Transport.onUdpReadable t.proxy 12 allWell) t.live) := by
  have hudp : Transport.onUdpReadable t.proxy 12 allWell = Transport.startUdp t.proxy.counted
      (Transport.newExchange t.proxy.nextEx false none (some 12)) allWell := by
    unfold Transport.onUdpReadable
    rw [if_neg hroom, if_neg (by simp [allWell])]
    have hforward : Transport.handleRequestCommon t.proxy.counted
        (Transport.newExchange t.proxy.nextEx false none (some 12)) allWell = .forward := by
      simp [Transport.handleRequestCommon, allWell]
    dsimp only
    rw [hforward]
    rfl
  rw [hudp]
  unfold Transport.startUdp
  cases htake : t.proxy.counted.fds.take with
  | some r =>
    obtain ⟨fd, fds⟩ := r
    have htake : t.proxy.fds.take = some (fd, fds) := htake
    have hmem : fd ∈ t.proxy.fds.pool := by
      obtain ⟨fd', hlast, heq⟩ := Option.map_eq_some_iff.mp htake
      cases heq
      exact List.mem_of_getLast? hlast
    refine ⟨fd, fds.next, ?_⟩
    exact h.registered (p := { t.proxy.counted with fds }) rfl rfl (hinv.watch_of_mem_pool hmem)
      rfl rfl rfl rfl
  | none =>
    refine ⟨t.proxy.fds.next, t.proxy.fds.next + 1, ?_⟩
    exact h.registered (p := t.proxy.counted.opened) rfl rfl hinv.watch_next rfl rfl rfl rfl

end Views

/-! ## Runs -/

section Runs

variable {s s' : Prog Ctx Exchanges} {t : Transport.State} {n j k : Nat}

/-- Runs of the other proxy follow each other; its invariant is for the second. -/
theorem Reaches.trans (h : Reaches j s t) (hinv : Transport.Inv n t.proxy t.live)
    (hnext : ∀ t₁ n₁, Views s t₁ → Transport.Inv n₁ t₁.proxy t₁.live → Reaches k s' t₁) :
    Reaches (j + k) s' t := by
  obtain ⟨evs₁, t₁, hlen₁, hrun₁, h₁⟩ := h
  obtain ⟨evs, t', hlen, hrun, h'⟩ := hnext t₁ _ h₁ (hinv.run hrun₁)
  refine ⟨evs₁ ++ evs, t', ?_, ?_, h'⟩
  · rw [List.length_append]
    exact Nat.add_le_add hlen₁ hlen
  · unfold Transport.run at hrun₁ hrun ⊢
    rw [List.foldlM_append]
    exact Option.bind_eq_some_iff.mpr ⟨t₁, hrun₁, hrun⟩

theorem Views.runBatch (h : Views s t) (hinv : Transport.Inv n t.proxy t.live) {batch : List Event}
    (hrun : runBatch exchangeCallbacks s batch = .ok s') : Reaches batch.length s' t := by
  induction batch generalizing s t n with
  | nil =>
    cases hrun
    exact h.stays _
  | cons e batch ih =>
    obtain ⟨s₁, hd, hrest⟩ := Lib.Runs.foldlM_cons_ok.mp hrun
    rw [List.length_cons, Nat.add_comm]
    exact (h.dispatch hinv hd).trans hinv fun t₁ n₁ h₁ hinv₁ => ih h₁ hinv₁ hrest

/-- **The loop runs the exchanges**: rounds of the loop in which no freed watch is used are a run of
the proxy on descriptors, of as many callbacks at most as there were events, whose registrations and
timers are the watches of the loop. -/
theorem loopRun_views (h : Views s t) (hinv : Transport.Inv n t.proxy t.live)
    {wait : Nat → Prog Ctx Exchanges → List Event} {b : Nat}
    (hwait : ∀ k s, (wait k s).length ≤ b) (k : Nat)
    (hrun : loopRun exchangeCallbacks wait k s = .ok s') : Reaches (k * b) s' t := by
  induction k generalizing s' with
  | zero =>
    cases hrun
    exact h.stays _
  | succ k ih =>
    cases hprev : loopRun exchangeCallbacks wait k s with
    | error e =>
      have hrun : (loopRun exchangeCallbacks wait k s).bind _ = .ok s' := hrun
      rw [hprev] at hrun
      cases hrun
    | ok s₁ =>
      have hround : (loopRun exchangeCallbacks wait k s).bind
        (fun s' => loopRound exchangeCallbacks wait s' k) = .ok s' := hrun
      rw [hprev] at hround
      have hround : loopRound exchangeCallbacks wait s₁ k = .ok s' := hround
      rw [Nat.succ_mul]
      refine (ih hprev).trans hinv fun t₁ n₁ h₁ hinv₁ => ?_
      unfold loopRound at hround
      split at hround
      · cases hround
        exact h₁.stays _
      · obtain ⟨evs, t', hlen, hevs, h'⟩ := h₁.runBatch hinv₁ hround
        exact ⟨evs, t', hlen.trans (hwait k s₁), hevs, h'⟩

end Runs

end MagiTrickle.Dns
