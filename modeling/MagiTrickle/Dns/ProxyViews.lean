import MagiTrickle.Dns.Framing
import MagiTrickle.Dns.Inflight
import MagiTrickle.Dns.ProxySafe
import MagiTrickle.Dns.WireRoundTrip

/-!
# The descriptors of UDP exchanges (`dns/proxy.c`)

`Dns.Proxy` has the sockets of the exchanges over UDP with what is queued on
them, `Dns.Transport` the descriptors, timers and registrations of all
exchanges. Every run of the first is one of the second, with one callback for an
event or none (`run_views`), so what holds of descriptors there holds of sockets
here. At the end the messages of `Dns.Proxy` are those of `Dns.Wire`, with the
parts of them that `Dns.Proxy` has.
-/

namespace MagiTrickle.Dns.Proxy

open MagiTrickle.Dns.Transport (Cb Dnsproxy allWell)

/-- An exchange with its descriptors; `fd` has those of the sockets. -/
structure Same (fd : Nat → Nat) (p : Dnsproxy) (e : UdpExchange) (x : Transport.Exchange) :
    Prop where
  id : x.id = e.query.serial
  udp : x.isTcp = false
  upstream : x.upstreamFd = some (fd e.sock)
  client : x.clientFd = none
  timer : x.timer.isSome = true
  watch : p.watch (fd e.sock) =
    some (if e.sent then .onUpstream else .onUpstreamWritable, e.query.serial)
  /-- Of a request that has not gone out nothing has. -/
  unsent : e.sent = false → x.reqSent = 0 ∧ 0 < x.req.getD 0

/-- The proxy with descriptors; it has no exchanges but these. -/
structure Views (fd : Nat → Nat) (s : Proxy) (t : Transport.State) : Prop where
  maxConcurrent : t.proxy.maxConcurrent.toNat = s.maxConcurrent
  poolCap : t.proxy.fds.poolCap = s.poolCap
  dropAaaa : s.dropAaaa = !t.proxy.disableDropAaaa
  pool : t.proxy.fds.pool = s.pool.map fd
  serial : t.proxy.nextEx = s.nextSerial
  ids : (t.live.map Transport.Exchange.id).Perm (s.live.map fun e => e.query.serial)
  live : ∀ e ∈ s.live, ∃ x ∈ t.live, Same fd t.proxy e x
  poolLt : ∀ k ∈ s.pool, k < s.nextSock
  liveLt : ∀ e ∈ s.live, e.sock < s.nextSock

section Views

variable {fd : Nat → Nat} {s s' : Proxy} {t : Transport.State} {n : Nat} {e : UdpExchange}
  {x : Transport.Exchange} {others : List Transport.Exchange} {p q : Dnsproxy}

/-! ## The exchanges beside one -/

theorem Views.nodup (h : Views fd s t) (hinv : Transport.Inv n t.proxy t.live) :
    (s.live.map fun e => e.query.serial).Nodup :=
  h.ids.nodup_iff.mp
    (List.nodup_append.mp (hinv.once.nodup_iff.mpr List.nodup_range)).1

theorem Same.fd_ne (h : Same fd p e x) {e' : UdpExchange} {x' : Transport.Exchange}
    (h' : Same fd p e' x') (hne : e'.query.serial ≠ e.query.serial) : fd e'.sock ≠ fd e.sock := by
  intro heq
  have hw := h'.watch
  rw [heq, h.watch] at hw
  exact hne (congrArg Prod.snd (Option.some.inj hw)).symm

theorem Same.fd_ne_of_none (h : Same fd p e x) {f : Nat} (hnew : p.watch f = none) :
    fd e.sock ≠ f := by
  rintro rfl
  exact nomatch hnew.symm.trans h.watch

/-- What is left of the state when an exchange is taken out. -/
structure Beside (fd : Nat → Nat) (s : Proxy) (t : Transport.State) (e : UdpExchange)
    (others : List Transport.Exchange) : Prop where
  ids : (others.map Transport.Exchange.id).Perm
    ((s.live.erase e).map fun e => e.query.serial)
  live : ∀ e' ∈ s.live.erase e, e' ∈ s.live ∧ e'.query.serial ≠ e.query.serial ∧
    fd e'.sock ≠ fd e.sock ∧ ∃ x ∈ others, Same fd t.proxy e' x

theorem Views.beside (h : Views fd s t) (hinv : Transport.Inv n t.proxy t.live) (he : e ∈ s.live)
    (hs : Same fd t.proxy e x) (hperm : (x :: others).Perm t.live) :
    Beside fd s t e others where
  ids := by
    have hleft : (x.id :: others.map Transport.Exchange.id).Perm
        (e.query.serial :: (s.live.erase e).map fun e => e.query.serial) :=
      ((hperm.map _).trans h.ids).trans ((List.perm_cons_erase he).map _)
    rw [hs.id] at hleft
    exact hleft.cons_inv
  live := fun e' he' => by
    have hmem : e' ∈ s.live := List.mem_of_mem_erase he'
    have hnodup : (e.query.serial :: (s.live.erase e).map fun e => e.query.serial).Nodup :=
      ((List.perm_cons_erase he).map _).nodup_iff.mp (h.nodup hinv)
    have hne : e'.query.serial ≠ e.query.serial := fun heq =>
      (List.nodup_cons.mp hnodup).1 (heq ▸ List.mem_map_of_mem he')
    obtain ⟨x', hx', hs'⟩ := h.live e' hmem
    refine ⟨hmem, hne, hs.fd_ne hs' hne, x', ?_, hs'⟩
    rcases List.mem_cons.mp (hperm.mem_iff.mpr hx') with rfl | hx'
    · exact absurd (hs'.id.symm.trans hs.id) hne
    · exact hx'

/-! ## The end of an exchange -/

/-- Only the registration of one descriptor differs, and what may be parked. -/
structure Settled (p q : Dnsproxy) (f : Nat) (pool : List Nat) : Prop where
  maxConcurrent : q.maxConcurrent = p.maxConcurrent
  disableDropAaaa : q.disableDropAaaa = p.disableDropAaaa
  nextEx : q.nextEx = p.nextEx
  poolCap : q.fds.poolCap = p.fds.poolCap
  pool : q.fds.pool = pool
  watch : ∀ g, g ≠ f → q.watch g = p.watch g

theorem Settled.trans {r : Dnsproxy} {f : Nat} {pool pool' : List Nat} (h : Settled p q f pool)
    (h' : Settled q r f pool') : Settled p r f pool' where
  maxConcurrent := h'.maxConcurrent.trans h.maxConcurrent
  disableDropAaaa := h'.disableDropAaaa.trans h.disableDropAaaa
  nextEx := h'.nextEx.trans h.nextEx
  poolCap := h'.poolCap.trans h.poolCap
  pool := h'.pool
  watch := fun g hg => (h'.watch g hg).trans (h.watch g hg)

/-- `exchange_finish` of an exchange over UDP. -/
theorem settled_finish {f : Nat} (hu : x.upstreamFd = some f) (ht : x.isTcp = false)
    (hc : x.clientFd = none) (pool : Bool) :
    Settled q (Transport.exchangeFinish q x pool).1 f
      (if pool ∧ q.fds.pool.length < q.fds.poolCap then q.fds.pool ++ [f] else q.fds.pool) := by
  have hdrop : ∀ r : Dnsproxy, Settled r (Transport.dropUpstream r x pool) f
      (if pool ∧ r.fds.pool.length < r.fds.poolCap then r.fds.pool ++ [f] else r.fds.pool) := by
    intro r
    have hwatch : ∀ g, g ≠ f → (r.delFd f).watch g = r.watch g := fun g hg =>
      Function.update_of_ne hg ..
    unfold Transport.dropUpstream
    rw [hu]
    dsimp only
    cases pool with
    | false => exact ⟨rfl, rfl, rfl, rfl, rfl, hwatch⟩
    | true =>
      rw [if_pos (by simp [ht])]
      unfold Transport.Dnsproxy.poolPut Lib.Ledger.park
      by_cases hroom : r.fds.pool.length < r.fds.poolCap
      · have hroom' : (r.delFd f).fds.pool.length < (r.delFd f).fds.poolCap := hroom
        rw [if_pos hroom', if_pos ⟨rfl, hroom⟩]
        exact ⟨rfl, rfl, rfl, rfl, rfl, hwatch⟩
      · have hroom' : ¬ (r.delFd f).fds.pool.length < (r.delFd f).fds.poolCap := hroom
        rw [if_neg hroom', if_neg fun h => hroom h.2]
        exact ⟨rfl, rfl, rfl, rfl, rfl, hwatch⟩
  unfold Transport.exchangeFinish Transport.dropClient Transport.dropTimer
  rw [hc]
  cases x.timer with
  | none =>
    obtain ⟨h₁, h₂, h₃, h₄, h₅, h₆⟩ := hdrop q
    exact ⟨h₁, h₂, h₃, h₄, h₅, h₆⟩
  | some tfd =>
    obtain ⟨h₁, h₂, h₃, h₄, h₅, h₆⟩ := hdrop (q.close tfd)
    exact ⟨h₁, h₂, h₃, h₄, h₅, h₆⟩

theorem Views.finish (h : Views fd s t) (hinv : Transport.Inv n t.proxy t.live) (he : e ∈ s.live)
    (hs : Same fd t.proxy e x) (hperm : (x :: others).Perm t.live)
    (hq : Settled t.proxy q (fd e.sock) t.proxy.fds.pool) {y : Transport.Exchange}
    (hu : y.upstreamFd = x.upstreamFd) (ht : y.isTcp = x.isTcp) (hc : y.clientFd = x.clientFd)
    (pool : Bool) :
    Views fd (s.exchangeFinish e pool) (.after (Transport.exchangeFinish q y pool) others) := by
  have hb := h.beside hinv he hs hperm
  have hend := hq.trans (settled_finish (hu.trans hs.upstream) (ht.trans hs.udp)
    (hc.trans hs.client) pool)
  have hlive : ∀ e' ∈ s.live.erase e, ∃ x' ∈ others,
      Same fd (Transport.exchangeFinish q y pool).1 e' x' := by
    intro e' he'
    obtain ⟨-, -, hne, x', hx', hs'⟩ := hb.live e' he'
    exact ⟨x', hx', { hs' with watch := (hend.watch _ hne).trans hs'.watch }⟩
  have hlt : ∀ e' ∈ s.live.erase e, e'.sock < s.nextSock := fun e' he' =>
    h.liveLt e' (hb.live e' he').1
  have hmax := (congrArg UInt32.toNat hend.maxConcurrent).trans h.maxConcurrent
  have hcap := hend.poolCap.trans h.poolCap
  have hdrop : s.dropAaaa = !(Transport.exchangeFinish q y pool).1.disableDropAaaa :=
    h.dropAaaa.trans (congrArg Bool.not hend.disableDropAaaa.symm)
  have hser := hend.nextEx.trans h.serial
  have hpool := hend.pool
  rw [hq.pool, hq.poolCap, h.poolCap, h.pool, List.length_map] at hpool
  unfold Proxy.exchangeFinish
  cases pool with
  | false => exact ⟨hmax, hcap, hdrop, hpool, hser, hb.ids, hlive, h.poolLt, hlt⟩
  | true =>
    unfold Proxy.poolPut
    dsimp only
    rw [if_pos rfl]
    by_cases hroom : s.pool.length < s.poolCap
    · rw [if_pos hroom]
      rw [if_pos ⟨rfl, hroom⟩] at hpool
      have hpool' : _ = (s.pool ++ [e.sock]).map fd :=
        hpool.trans (by rw [List.map_append, List.map_singleton])
      refine ⟨hmax, hcap, hdrop, hpool', hser, hb.ids, hlive, fun k hk => ?_, hlt⟩
      rcases List.mem_append.mp hk with hk | hk
      · exact h.poolLt k hk
      · exact List.mem_singleton.mp hk ▸ h.liveLt e he
    · rw [if_neg hroom]
      rw [if_neg fun h => hroom h.2] at hpool
      exact ⟨hmax, hcap, hdrop, hpool, hser, hb.ids, hlive, h.poolLt, hlt⟩

/-! ## An exchange that goes on -/

/-- An exchange has changed and is still on its socket. -/
theorem Views.replace (h : Views fd s t) (hinv : Transport.Inv n t.proxy t.live) (he : e ∈ s.live)
    (hs : Same fd t.proxy e x) (hperm : (x :: others).Perm t.live) {e' : UdpExchange}
    (hq : Settled t.proxy q (fd e.sock) t.proxy.fds.pool) {y : Transport.Exchange}
    (hid : y.id = x.id) (hquery : e'.query = e.query) (hsock : e'.sock = e.sock)
    (hs' : Same fd q e' y) {live' : List UdpExchange}
    (hlive' : live'.Perm (e' :: s.live.erase e)) :
    Views fd { s with live := live' } (.after (q, some y) others) where
  maxConcurrent := (congrArg UInt32.toNat hq.maxConcurrent).trans h.maxConcurrent
  poolCap := hq.poolCap.trans h.poolCap
  dropAaaa := h.dropAaaa.trans (congrArg Bool.not hq.disableDropAaaa.symm)
  pool := hq.pool.trans h.pool
  serial := hq.nextEx.trans h.serial
  ids := by
    have hrest := ((h.beside hinv he hs hperm).ids).cons y.id
    have hmap : (live'.map fun e => e.query.serial).Perm
        (e'.query.serial :: (s.live.erase e).map fun e => e.query.serial) := hlive'.map _
    refine List.Perm.trans hrest ?_
    rw [hid, hs.id, ← hquery]
    exact hmap.symm
  live := fun e₁ he₁ => by
    rcases List.mem_cons.mp (hlive'.mem_iff.mp he₁) with rfl | he₁
    · exact ⟨y, List.mem_cons_self, hs'⟩
    · obtain ⟨-, -, hne, x₁, hx₁, hs₁⟩ := (h.beside hinv he hs hperm).live e₁ he₁
      exact ⟨x₁, List.mem_cons_of_mem _ hx₁,
        { hs₁ with watch := (hq.watch _ hne).trans hs₁.watch }⟩
  poolLt := h.poolLt
  liveLt := fun e₁ he₁ => by
    rcases List.mem_cons.mp (hlive'.mem_iff.mp he₁) with rfl | he₁
    · exact hsock ▸ h.liveLt e he
    · exact h.liveLt e₁ (List.mem_of_mem_erase he₁)

/-! ## A new exchange -/

/-- A request that does not get to the upstream leaves nothing on the socket `k`. -/
theorem Views.unstarted {live : List Transport.Exchange} (h : Views fd s ⟨p, live⟩) {k : Nat}
    (hnew : p.watch (fd k) = none) (hu : x.upstreamFd = some (fd k)) (ht : x.isTcp = false)
    (hc : x.clientFd = none) :
    Views fd (s.closeSock k) (.after (Transport.exchangeFinish p x false) live) := by
  have hend := settled_finish (q := p) hu ht hc false
  rw [if_neg (by simp)] at hend
  have hlive : ∀ e ∈ s.live, ∃ x' ∈ live, Same fd (Transport.exchangeFinish p x false).1 e x' := by
    intro e he
    obtain ⟨x', hx', hs'⟩ := h.live e he
    have hne : fd e.sock ≠ fd k := hs'.fd_ne_of_none hnew
    exact ⟨x', hx', { hs' with watch := (hend.watch _ hne).trans hs'.watch }⟩
  exact ⟨(congrArg UInt32.toNat hend.maxConcurrent).trans h.maxConcurrent,
    hend.poolCap.trans h.poolCap, h.dropAaaa.trans (congrArg Bool.not hend.disableDropAaaa.symm),
    hend.pool.trans h.pool, hend.nextEx.trans h.serial, h.ids, hlive, h.poolLt, h.liveLt⟩

/-- And one that does is an exchange on it, with the next descriptor for its timer. -/
theorem Views.started {live : List Transport.Exchange} (h : Views fd s ⟨p, live⟩) {k : Nat}
    (hnew : p.watch (fd k) = none) (hk : k < s.nextSock) {q : Query} {sent : Bool}
    (hid : x.id = q.serial) (hu : x.upstreamFd = some (fd k)) (ht : x.isTcp = false)
    (hc : x.clientFd = none) (hunsent : sent = false → x.reqSent = 0 ∧ 0 < x.req.getD 0)
    {cb : Cb} (hcb : cb = if sent then .onUpstream else .onUpstreamWritable)
    {env : Transport.Env} (htimer : env.timer = true) :
    Views fd { s with live := s.live ++ [⟨q, k, sent⟩] }
      (.after (Transport.addTimer
        { p with watch := Function.update p.watch (fd k) (some (cb, x.id)) } x env) live) := by
  have hadd : Transport.addTimer
      { p with watch := Function.update p.watch (fd k) (some (cb, x.id)) } x env = _ :=
    if_pos htimer
  rw [hadd]
  refine ⟨h.maxConcurrent, h.poolCap, h.dropAaaa, h.pool, h.serial, ?_, fun e he => ?_, h.poolLt,
    fun e he => ?_⟩
  · show (x.id :: live.map Transport.Exchange.id).Perm _
    rw [List.map_append, hid]
    exact (h.ids.cons _).trans (List.perm_append_singleton ..).symm
  · rcases List.mem_append.mp he with he | he
    · obtain ⟨x', hx', hs'⟩ := h.live e he
      have hne : fd e.sock ≠ fd k := hs'.fd_ne_of_none hnew
      exact ⟨x', List.mem_cons_of_mem _ hx',
        { hs' with watch := (Function.update_of_ne hne ..).trans hs'.watch }⟩
    · cases List.mem_singleton.mp he
      refine ⟨_, List.mem_cons_self, hid, ht, hu, hc, rfl, ?_, hunsent⟩
      rw [← hid, ← hcb]
      exact Function.update_self ..
  · rcases List.mem_append.mp he with he | he
    · exact h.liveLt e he
    · cases List.mem_singleton.mp he
      exact hk

/-- `send` moves all of a request, nothing, or fails. -/
def io : Send → Transport.Io
  | .sent => .moved 12
  | .again => .again
  | .failed => .failed

/-- The rest of `start_upstream` on the socket `k`, with a request of 12 bytes. -/
theorem Views.sendOn {live : List Transport.Exchange} (h : Views fd s ⟨p, live⟩) {k f : Nat}
    (hf : fd k = f) (hnew : p.watch f = none) (hk : k < s.nextSock) {q : Query}
    (hid : x.id = q.serial) (ht : x.isTcp = false) (hc : x.clientFd = none) (hreq : x.req = some 12) {send : Send}
    {registered : Bool} {env : Transport.Env} (hsend : env.send = io send)
    (hreg : env.registered = registered) (htimer : env.timer = true) :
    Views fd (s.sendOn q k send registered) (.after (Transport.sendUdp p x f env) live) := by
  subst hf
  have hrun : ∀ sent : Bool, env.send ≠ .failed →
      Transport.sentNow 12 env.send = (if sent then 12 else 0) →
      ∀ {s' : Proxy}, Views fd s' ⟨p, live⟩ → s'.nextSock = s.nextSock →
      Views fd (if registered then { s' with live := s'.live ++ [⟨q, k, sent⟩] } else s'.closeSock k)
        (.after (Transport.sendUdp p x (fd k) env) live) := by
    intro sent hok hnow s' h' hnext
    unfold Transport.sendUdp
    rw [if_neg hok]
    dsimp only
    rw [hreq, Option.getD_some, hnow, Transport.addFd_of_none hnew, hreg]
    cases registered with
    | false => exact h'.unstarted hnew rfl ht hc
    | true =>
      have hcb : (if (if sent then 12 else 0) < 12 then Cb.onUpstreamWritable else .onUpstream) =
          if sent then .onUpstream else .onUpstreamWritable := by
        cases sent <;> rfl
      have hunsent : sent = false → (if sent then 12 else 0) = 0 ∧ 0 < (some 12).getD 0 := by
        rintro rfl
        exact ⟨rfl, by decide⟩
      rw [if_pos rfl, if_pos rfl]
      exact h'.started (x := { x with
          upstreamFd := some (fd k)
          req := some 12
          reqSent := if sent then 12 else 0 })
        hnew (hnext ▸ hk) hid rfl ht hc hunsent hcb htimer
  unfold Proxy.sendOn
  cases send with
  | failed =>
    have hfin : Transport.sendUdp p x (fd k) env = _ := if_pos hsend
    rw [hfin]
    exact h.unstarted hnew rfl ht hc
  | again => exact hrun false (by rw [hsend]; nofun) (by rw [hsend]; rfl) h rfl
  | sent =>
    have hasked : Views fd { s with asked := s.asked ++ [(k, q)] } ⟨p, live⟩ :=
      ⟨h.maxConcurrent, h.poolCap, h.dropAaaa, h.pool, h.serial, h.ids, h.live, h.poolLt, h.liveLt⟩
    exact hrun true (by rw [hsend]; nofun) (by rw [hsend]; rfl) hasked rfl

/-! ## Requests -/

theorem Views.not_full (h : Views fd s t) (hinv : Transport.Inv n t.proxy t.live)
    (hroom : s.live.length < s.maxConcurrent) : ¬ t.proxy.full = true := by
  have hlen : t.live.length = s.live.length := by
    have hids := h.ids.length_eq
    rwa [List.length_map, List.length_map] at hids
  have hlt : t.proxy.inflight.toNat < t.proxy.maxConcurrent.toUInt64.toNat := by
    rw [hinv.inflight, hlen, UInt32.toNat_toUInt64, h.maxConcurrent]
    exact hroom
  unfold Transport.Dnsproxy.full
  rw [decide_eq_true_iff]
  exact UInt64.not_le.mpr hlt

/-- The proxy with a request counted. -/
theorem Views.counted (h : Views fd s t) :
    Views fd { s with nextSerial := s.nextSerial + 1 } ⟨t.proxy.counted, t.live⟩ :=
  ⟨h.maxConcurrent, h.poolCap, h.dropAaaa, h.pool, congrArg (· + 1) h.serial, h.ids,
    fun e he => (h.live e he).imp fun _ hx => ⟨hx.1, { hx.2 with watch := hx.2.watch }⟩,
    h.poolLt, h.liveLt⟩

/-- A socket from the pool. -/
theorem Views.taken (h : Views fd s t) {k : Nat} (hk : s.pool.getLast? = some k) :
    ∃ fds, t.proxy.fds.take = some (fd k, fds) ∧
      Views fd { s with pool := s.pool.dropLast } ⟨{ t.proxy with fds }, t.live⟩ := by
  have hlast : t.proxy.fds.pool.getLast? = some (fd k) := by
    rw [h.pool, List.getLast?_map, hk]
    rfl
  refine ⟨{ t.proxy.fds with pool := t.proxy.fds.pool.dropLast }, ?_, ?_⟩
  · unfold Lib.Ledger.take
    rw [hlast]
    rfl
  · refine ⟨h.maxConcurrent, h.poolCap, h.dropAaaa, ?_, h.serial, h.ids,
      fun e he => (h.live e he).imp fun _ hx => ⟨hx.1, { hx.2 with watch := hx.2.watch }⟩,
      fun j hj => h.poolLt j ((List.dropLast_sublist _).subset hj), h.liveLt⟩
    show t.proxy.fds.pool.dropLast = s.pool.dropLast.map fd
    rw [h.pool, List.map_dropLast]

/-- A socket that is opened. -/
theorem Views.opened (h : Views fd s t) :
    Views (Function.update fd s.nextSock t.proxy.fds.next)
      { s with nextSock := s.nextSock + 1 } ⟨t.proxy.opened, t.live⟩ := by
  have hold : ∀ k, k < s.nextSock →
      Function.update fd s.nextSock t.proxy.fds.next k = fd k := fun k hk =>
    Function.update_of_ne (Nat.ne_of_lt hk) ..
  refine ⟨h.maxConcurrent, h.poolCap, h.dropAaaa, ?_, h.serial, h.ids, fun e he => ?_,
    fun k hk => Nat.lt_succ_of_lt (h.poolLt k hk), fun e he => Nat.lt_succ_of_lt (h.liveLt e he)⟩
  · exact h.pool.trans (List.map_congr_left fun k hk => (hold k (h.poolLt k hk)).symm)
  · obtain ⟨x, hx, hs⟩ := h.live e he
    have hfd := hold e.sock (h.liveLt e he)
    exact ⟨x, hx, hs.id, hs.udp, by rw [hfd]; exact hs.upstream, hs.client, hs.timer,
      by rw [hfd]; exact hs.watch, hs.unsent⟩

/-- The proxy with descriptors gets there with one event or none. -/
def Follows (s' : Proxy) (t : Transport.State) : Prop :=
  ∃ fd evs t', evs.length ≤ 1 ∧ Transport.run t evs = some t' ∧ Views fd s' t'

theorem Views.stays (h : Views fd s' t) : Follows s' t := ⟨fd, [], t, Nat.zero_le _, rfl, h⟩

theorem Views.after {t' : Transport.State} (h : Views fd s' t') {ev : Transport.Ev}
    (hs : Transport.step t ev = some t') : Follows s' t := by
  refine ⟨fd, [ev], t', Nat.le_refl _, ?_, h⟩
  unfold Transport.run
  rw [List.foldlM_cons]
  exact Option.bind_eq_some_iff.mpr ⟨t', hs, rfl⟩

/-- The answers to a request. -/
def answers (forward connected : Bool) (send : Send) (registered : Bool) : Transport.Env :=
  { allWell with parses := forward, socket := connected, send := io send, registered }

/-- A datagram of 12 bytes that is forwarded, or dropped by `handle_request_common`. -/
theorem onUdpReadable_answers (hroom : ¬ p.full = true) (forward connected : Bool) (send : Send)
    (registered : Bool) :
    Transport.onUdpReadable p 12 (answers forward connected send registered) =
      if forward then Transport.startUdp p.counted
        (Transport.newExchange p.nextEx false none (some 12))
        (answers forward connected send registered)
      else (Transport.release p.counted
        (Transport.newExchange p.nextEx false none (some 12)), none) := by
  unfold Transport.onUdpReadable
  rw [if_neg hroom, if_neg (by simp [answers, allWell])]
  cases forward with
  | false => rfl
  | true =>
    have hforward : Transport.handleRequestCommon p.counted
        (Transport.newExchange p.nextEx false none (some 12))
        (answers true connected send registered) = .forward := by
      simp [Transport.handleRequestCommon, answers, allWell]
    dsimp only
    rw [hforward]
    rfl

theorem Views.startUdp (h : Views fd s t) (hinv : Transport.Inv n t.proxy t.live)
    (txid : Nat) (question : Bytes) (connected : Bool) (send : Send) (registered : Bool) :
    ∃ fd', Views fd' ({ s with nextSerial := s.nextSerial + 1 }.startUpstream
        ⟨s.nextSerial, txid, question⟩ connected send registered)
      (.after (Transport.startUdp t.proxy.counted
        (Transport.newExchange t.proxy.nextEx false none (some 12))
        (answers true connected send registered)) t.live) := by
  have hcounted := h.counted
  unfold Proxy.startUpstream Transport.startUdp
  cases hlast : s.pool.getLast? with
  | some k =>
    obtain ⟨fds, htake, hv⟩ := hcounted.taken hlast
    have hmem : fd k ∈ t.proxy.fds.pool := by
      rw [h.pool]
      exact List.mem_map_of_mem (List.mem_of_getLast? hlast)
    have htake : t.proxy.counted.fds.take = some (fd k, fds) := htake
    refine ⟨fd, ?_⟩
    dsimp only
    rw [htake]
    exact hv.sendOn rfl (hinv.watch_of_mem_pool hmem)
      (h.poolLt k (List.mem_of_getLast? hlast)) h.serial rfl rfl rfl rfl rfl rfl
  | none =>
    have htake : t.proxy.counted.fds.take = none := by
      have hnil : t.proxy.fds.pool.getLast? = none := by
        rw [h.pool, List.getLast?_map, hlast]
        rfl
      show t.proxy.fds.take = none
      unfold Lib.Ledger.take
      rw [hnil]
      rfl
    dsimp only
    rw [htake]
    cases connected with
    | false =>
      refine ⟨fd, ?_⟩
      exact ⟨hcounted.maxConcurrent, hcounted.poolCap, hcounted.dropAaaa, hcounted.pool,
        hcounted.serial, hcounted.ids,
        fun e he => (h.live e he).imp fun _ hx => ⟨hx.1, { hx.2 with watch := hx.2.watch }⟩,
        hcounted.poolLt, hcounted.liveLt⟩
    | true =>
      refine ⟨Function.update fd s.nextSock t.proxy.fds.next, ?_⟩
      exact hcounted.opened.sendOn (Function.update_self ..) hinv.watch_next (Nat.lt_succ_self _)
        h.serial rfl rfl rfl rfl rfl rfl

theorem Views.request (h : Views fd s t) (hinv : Transport.Inv n t.proxy t.live)
    (hroom : s.live.length < s.maxConcurrent) (txid : Nat) (question : Bytes)
    (forward connected : Bool) (send : Send) (registered : Bool) :
    Follows (if forward then
        { s with nextSerial := s.nextSerial + 1 }.startUpstream ⟨s.nextSerial, txid, question⟩
          connected send registered
      else { s with nextSerial := s.nextSerial + 1 }) t := by
  have hstep : Transport.step t (.datagram 12 (answers forward connected send registered)) =
      some (.after _ t.live) := congrArg (fun r => some (Transport.State.after r t.live))
    (onUdpReadable_answers (h.not_full hinv hroom) forward connected send registered)
  cases forward with
  | false =>
    have hc := h.counted
    have hdropped : Views fd { s with nextSerial := s.nextSerial + 1 }
        (.after (Transport.release t.proxy.counted
          (Transport.newExchange t.proxy.nextEx false none (some 12)), none) t.live) :=
      ⟨hc.maxConcurrent, hc.poolCap, hc.dropAaaa, hc.pool, hc.serial, hc.ids,
      fun e he => (h.live e he).imp fun _ hx => ⟨hx.1, { hx.2 with watch := hx.2.watch }⟩,
      hc.poolLt, hc.liveLt⟩
    exact hdropped.after hstep
  | true =>
    obtain ⟨fd', hv⟩ := h.startUdp hinv txid question connected send registered
    exact hv.after hstep

/-! ## Callbacks -/

theorem Views.pick (h : Views fd s t) (hinv : Transport.Inv n t.proxy t.live) (he : e ∈ s.live) :
    ∃ x others, Transport.pick t.live e.query.serial = some (x, others) ∧
      (x :: others).Perm t.live ∧ Same fd t.proxy e x := by
  obtain ⟨x, hx, hs⟩ := h.live e he
  have hpick := hinv.pick hx
  rw [hs.id] at hpick
  exact ⟨x, _, hpick, (Transport.perm_of_pick hpick).1, hs⟩

theorem Settled.refl (p : Dnsproxy) (f : Nat) : Settled p p f p.fds.pool :=
  ⟨rfl, rfl, rfl, rfl, rfl, fun _ _ => rfl⟩

theorem Views.broken (h : Views fd s t) (hinv : Transport.Inv n t.proxy t.live) (he : e ∈ s.live) :
    Follows (s.exchangeFinish e false) t := by
  obtain ⟨x, others, hpick, hperm, hs⟩ := h.pick hinv he
  have hfin := h.finish hinv he hs hperm (.refl _ _) rfl rfl rfl false
  have hstep := Transport.step_ready hs.watch hpick { allWell with broken := true }
  have hcb : Transport.callback t.proxy x (if e.sent then .onUpstream else .onUpstreamWritable)
      (fd e.sock) { allWell with broken := true } = Transport.exchangeFinish t.proxy x false := by
    cases e.sent <;> rfl
  rw [hcb] at hstep
  exact hfin.after hstep

theorem Views.timeout (h : Views fd s t) (hinv : Transport.Inv n t.proxy t.live)
    (he : e ∈ s.live) : Follows (s.exchangeFinish e false) t := by
  obtain ⟨x, others, hpick, hperm, hs⟩ := h.pick hinv he
  have hq : Settled t.proxy { t.proxy with fired := x.timer.toList ++ t.proxy.fired } (fd e.sock)
      t.proxy.fds.pool := ⟨rfl, rfl, rfl, rfl, rfl, fun _ _ => rfl⟩
  have hfin := h.finish hinv he hs hperm hq (y := { x with timer := none }) rfl rfl rfl false
  exact hfin.after (Transport.step_timeout hpick hs.timer)

/-- The queues and what the upstream has been asked are not seen. -/
theorem Views.same (h : Views fd s t) (queue : Nat → List Datagram) (asked : List (Nat × Query))
    (delivered : List Delivery) : Views fd { s with queue, asked, delivered } t :=
  ⟨h.maxConcurrent, h.poolCap, h.dropAaaa, h.pool, h.serial, h.ids, h.live, h.poolLt, h.liveLt⟩

/-- `send` of a request of which nothing has gone out. -/
theorem transfer_io {want : Nat} (hw : 0 < want) (send : Send) :
    Transport.transfer want 0 [match send with
      | .sent => .moved want
      | .again => .again
      | .failed => .failed] =
    match send with
      | .sent => (want, .done)
      | .again => (0, .again)
      | .failed => (0, .failed) := by
  have hpos : ¬ want ≤ 0 := Nat.not_le.mpr hw
  cases send <;> simp [Transport.transfer, hpos]

theorem perm_map_sent (hnodup : (s.live.map fun e => e.query.serial).Nodup) (he : e ∈ s.live) :
    (s.live.map fun e' => if e' = e then { e' with sent := true } else e').Perm
      ({ e with sent := true } :: s.live.erase e) := by
  refine ((List.perm_cons_erase he).map _).trans ?_
  rw [List.map_cons, if_pos rfl]
  refine .cons _ (.of_eq ?_)
  have hne : ∀ e' ∈ s.live.erase e, e' ≠ e := by
    have hlive : s.live.Nodup := hnodup.of_map _
    rintro _ he' rfl
    exact absurd he' (hlive.not_mem_erase)
  rw [List.map_congr_left fun e' he' => if_neg (hne e' he'), List.map_id']

theorem Views.writable (h : Views fd s t) (hinv : Transport.Inv n t.proxy t.live)
    (he : e ∈ s.live) (hsent : e.sent = false) (send : Send) (registered : Bool) :
    Follows (s.onUpstreamWritable e send registered) t := by
  obtain ⟨x, others, hpick, hperm, hs⟩ := h.pick hinv he
  obtain ⟨hzero, hpos⟩ := hs.unsent hsent
  have hwatch : t.proxy.watch (fd e.sock) = some (.onUpstreamWritable, e.query.serial) := by
    have hw := hs.watch
    rwa [hsent] at hw
  have hstep := Transport.step_ready hwatch hpick { allWell with
    rearmed := registered
    io := [match send with
      | .sent => .moved (x.req.getD 0)
      | .again => .again
      | .failed => .failed] }
  have htransfer := transfer_io hpos send
  unfold Transport.callback Transport.onUpstreamWritable at hstep
  rw [if_neg (by simp [allWell]), if_neg (by simp [hs.udp])] at hstep
  dsimp only at hstep
  rw [hzero, htransfer] at hstep
  cases send with
  | failed =>
    exact (h.finish hinv he hs hperm (.refl _ _) rfl rfl rfl false).after hstep
  | again =>
    have hs' : Same fd t.proxy e { x with connecting := x.connecting && !x.isTcp, reqSent := 0 } :=
      { hs with unsent := fun _ => ⟨rfl, hpos⟩ }
    exact (h.replace hinv he hs hperm (.refl _ _) (by rfl) rfl rfl hs'
      (List.perm_cons_erase he)).after hstep
  | sent =>
    dsimp only at hstep
    rw [Transport.addFd_delFd] at hstep
    have hasked := h.same s.queue (s.asked ++ [(e.sock, e.query)]) s.delivered
    unfold Proxy.onUpstreamWritable
    cases registered with
    | false =>
      have hq : Settled t.proxy (t.proxy.delFd (fd e.sock)) (fd e.sock) t.proxy.fds.pool :=
        ⟨rfl, rfl, rfl, rfl, rfl, fun g hg => Function.update_of_ne hg ..⟩
      exact (hasked.finish hinv he hs hperm hq
        (y := { x with connecting := x.connecting && !x.isTcp, reqSent := x.req.getD 0 })
        rfl rfl rfl false).after hstep
    | true =>
      generalize hw : Function.update t.proxy.watch (fd e.sock) (some (Cb.onUpstream, x.id)) =
        watch at hstep
      have hq : Settled t.proxy { t.proxy with watch } (fd e.sock) t.proxy.fds.pool :=
        ⟨rfl, rfl, rfl, rfl, rfl, fun g hg => hw ▸ Function.update_of_ne hg ..⟩
      have hwatch' : watch (fd e.sock) = some (.onUpstream, e.query.serial) := by
        rw [← hw, ← hs.id]
        exact Function.update_self ..
      have hs' : Same fd { t.proxy with watch } { e with sent := true }
          { x with connecting := x.connecting && !x.isTcp, reqSent := x.req.getD 0 } :=
        { hs with watch := hwatch', unsent := nofun }
      exact (hasked.replace hinv he hs hperm hq (by rfl) (by rfl) (by rfl) hs'
        (perm_map_sent (h.nodup hinv) he)).after hstep

theorem Views.readable (h : Views fd s t) (hinv : Transport.Inv n t.proxy t.live)
    (he : e ∈ s.live) (hsent : e.sent = true) (parses packs : Bool) :
    Follows (s.onUpstream e parses packs) t := by
  obtain ⟨x, others, hpick, hperm, hs⟩ := h.pick hinv he
  have hwatch : t.proxy.watch (fd e.sock) = some (.onUpstream, e.query.serial) := by
    have hw := hs.watch
    rwa [hsent] at hw
  unfold Proxy.onUpstream
  cases s.queue e.sock with
  | nil => exact h.stays
  | cons d ds =>
    have hstep := Transport.step_ready hwatch hpick { allWell with parses, packs }
    unfold Transport.callback Transport.onUpstream at hstep
    rw [if_neg (by simp [allWell]), if_neg (by simp [hs.udp]), if_pos (by simp [hs.udp])] at hstep
    have hdeliver : Transport.step t (.ready (fd e.sock) { allWell with parses, packs }) =
        some (.after (Transport.exchangeFinish t.proxy x
          (parses && (t.proxy.disableDropAaaa || packs))) others) := by
      rw [hstep]
      simp only [allWell, List.head?_cons, Transport.deliverResponse, hs.udp]
      cases parses <;> cases packs <;> cases t.proxy.disableDropAaaa <;> rfl
    have hfin : ∀ delivered pool, Views fd ({ s with
        queue := fun j => if j = e.sock then ds else s.queue j, delivered }.exchangeFinish e pool)
        (.after (Transport.exchangeFinish t.proxy x pool) others) := fun delivered pool =>
      (h.same _ s.asked delivered).finish hinv he hs hperm (.refl _ _) rfl rfl rfl pool
    have hpack : (t.proxy.disableDropAaaa || packs) = !(s.dropAaaa && !packs) := by
      rw [h.dropAaaa]
      cases t.proxy.disableDropAaaa <;> cases packs <;> rfl
    rw [hpack] at hdeliver
    unfold Proxy.deliverResponse
    cases parses with
    | false => exact (hfin s.delivered false).after hdeliver
    | true =>
      dsimp only
      rw [if_neg (by decide)]
      by_cases hno : (s.dropAaaa && !packs) = true
      · rw [hno] at hdeliver
        rw [if_pos hno]
        exact (hfin s.delivered false).after hdeliver
      · rw [eq_false_of_ne_true hno] at hdeliver
        rw [if_neg hno]
        exact (hfin _ true).after hdeliver

/-! ## Runs -/

/-- **One event** of the sockets is one callback on the descriptors, or none. -/
theorem Views.step (h : Views fd s t) (hinv : Transport.Inv n t.proxy t.live) (a : Act) :
    Follows (s.step a) t := by
  have hfind : ∀ serial, (∃ e ∈ s.live, s.find serial = some e) ∨ s.find serial = none := by
    intro serial
    cases hf : s.find serial with
    | none => exact .inr rfl
    | some e => exact .inl ⟨e, List.mem_of_find?_eq_some hf, rfl⟩
  unfold Proxy.step
  cases a with
  | request txid question others forward connected send registered =>
    dsimp only
    split
    · exact h.stays
    · next hroom =>
      exact h.request hinv (by omega) txid question forward connected send registered
  | writable serial send registered =>
    obtain ⟨e, he, hf⟩ | hf := hfind serial
    · dsimp only
      rw [hf]
      dsimp only
      split
      · exact h.stays
      · next hsent => exact h.writable hinv he (eq_false_of_ne_true hsent) send registered
    · dsimp only
      rw [hf]
      exact h.stays
  | answer k q answers =>
    dsimp only
    split
    · exact (h.same _ s.asked s.delivered).stays
    · exact h.stays
  | readable serial parses packs =>
    obtain ⟨e, he, hf⟩ | hf := hfind serial
    · dsimp only
      rw [hf]
      dsimp only
      split
      · next hsent => exact h.readable hinv he hsent parses packs
      · exact h.stays
    · dsimp only
      rw [hf]
      exact h.stays
  | broken serial =>
    obtain ⟨e, he, hf⟩ | hf := hfind serial
    · dsimp only
      rw [hf]
      exact h.broken hinv he
    · dsimp only
      rw [hf]
      exact h.stays
  | timeout serial =>
    obtain ⟨e, he, hf⟩ | hf := hfind serial
    · dsimp only
      rw [hf]
      exact h.timeout hinv he
    · dsimp only
      rw [hf]
      exact h.stays

theorem Views.run (h : Views fd s t) (hinv : Transport.Inv n t.proxy t.live) (acts : List Act) :
    ∃ fd' evs t', evs.length ≤ acts.length ∧ Transport.run t evs = some t' ∧
      Views fd' (s.run acts) t' := by
  induction acts generalizing fd s t n with
  | nil => exact ⟨fd, [], t, Nat.le_refl _, rfl, h⟩
  | cons a acts ih =>
    obtain ⟨fd₁, evs₁, t₁, hlen₁, hrun₁, h₁⟩ := h.step hinv a
    obtain ⟨fd', evs, t', hlen, hrun, h'⟩ := ih h₁ (hinv.run hrun₁)
    refine ⟨fd', evs₁ ++ evs, t', ?_, ?_, h'⟩
    · rw [List.length_append, List.length_cons]
      omega
    · unfold Transport.run at hrun₁ hrun ⊢
      rw [List.foldlM_append]
      exact Option.bind_eq_some_iff.mpr ⟨t₁, hrun₁, hrun⟩

end Views

theorem views_start (maxConcurrent : UInt32) (poolCap : Nat) (disableFakePtr disableDropAaaa : Bool) :
    Views id (start maxConcurrent.toNat poolCap !disableDropAaaa)
      (Transport.create maxConcurrent poolCap disableFakePtr disableDropAaaa) :=
  ⟨rfl, rfl, rfl, rfl, rfl, .nil, nofun, nofun, nofun⟩

/-- **The sockets have descriptors**: every run of the exchanges over UDP on their sockets is a run
of the proxy on descriptors, callback by callback. -/
theorem run_views (maxConcurrent : UInt32) (poolCap : Nat) (disableFakePtr disableDropAaaa : Bool)
    (acts : List Act) :
    ∃ fd evs t, evs.length ≤ acts.length ∧
      Transport.run (Transport.create maxConcurrent poolCap disableFakePtr disableDropAaaa) evs =
        some t ∧
      Views fd ((start maxConcurrent.toNat poolCap !disableDropAaaa).run acts) t :=
  (views_start maxConcurrent poolCap disableFakePtr disableDropAaaa).run
    (Transport.inv_create maxConcurrent poolCap disableFakePtr disableDropAaaa) acts

theorem Views.nodup_socks {fd : Nat → Nat} {s : Proxy} {t : Transport.State} {n : Nat}
    (h : Views fd s t) (hinv : Transport.Inv n t.proxy t.live) : s.socks.Nodup := by
  have hserial := h.nodup hinv
  have hpool : s.pool.Nodup := by
    have hpool := (List.nodup_append.mp (List.nodup_append.mp hinv.balanced.nodup).2.1).1
    rw [h.pool] at hpool
    exact hpool.of_map _
  have hlive : (s.live.map UdpExchange.sock).Nodup := by
    refine List.Nodup.map_on (fun e he e' he' hsock => ?_) (hserial.of_map _)
    refine List.inj_on_of_nodup_map hserial he he' ?_
    obtain ⟨x, -, hs⟩ := h.live e he
    obtain ⟨x', -, hs'⟩ := h.live e' he'
    by_contra hne
    exact hs'.fd_ne hs hne (congrArg fd hsock)
  refine List.nodup_append.mpr ⟨hlive, hpool, ?_⟩
  rintro k hk _ hk' rfl
  obtain ⟨e, he, rfl⟩ := List.mem_map.mp hk
  obtain ⟨x, -, hs⟩ := h.live e he
  have hmem : fd e.sock ∈ t.proxy.fds.pool := by
    rw [h.pool]
    exact List.mem_map_of_mem hk'
  exact hs.fd_ne_of_none (hinv.watch_of_mem_pool hmem) rfl

/-- So a socket is in the pool or with one exchange, and there are no more exchanges than the budget,
whatever the upstream sends. -/
theorem run_socks (maxConcurrent : UInt32) (poolCap : Nat) (dropAaaa : Bool) (acts : List Act)
    {s : Proxy} (hs : (start maxConcurrent.toNat poolCap dropAaaa).run acts = s) :
    s.socks.Nodup ∧ s.live.length ≤ s.maxConcurrent := by
  obtain ⟨fd, evs, t, -, hrun, h⟩ := run_views maxConcurrent poolCap false (!dropAaaa) acts
  rw [Bool.not_not, hs] at h
  have hinv := (Transport.inv_create maxConcurrent poolCap false (!dropAaaa)).run hrun
  have hlen := h.ids.length_eq
  rw [List.length_map, List.length_map] at hlen
  refine ⟨h.nodup_socks hinv, ?_⟩
  rw [← hlen, ← h.maxConcurrent]
  exact hinv.bound

end MagiTrickle.Dns.Proxy

namespace MagiTrickle.Dns

/-! ## Messages -/

def Rr.ofWire (rr : Wire.Rr) : Rr := ⟨rr.rtype.toNat, rr.rdata⟩

/-- The parts of a message that a delivery has; the question is its bytes. -/
def Msg.ofWire (m : Wire.Msg) : Msg where
  id := m.id.toNat
  question := m.questions.flatMap Wire.wrQuestion
  answers := m.answers.map Rr.ofWire

/-- The AAAA records of both are the same. -/
theorem Msg.stripAaaa_ofWire (m : Wire.Msg) :
    (Msg.ofWire m).stripAaaa = Msg.ofWire (Wire.msgStripAaaa m) := by
  have htype : ∀ rr : Wire.Rr, decide ((Rr.ofWire rr).rtype ≠ 28) =
      decide (rr.rtype ≠ Wire.typeAaaa) := by
    intro rr
    refine decide_eq_decide.mpr (not_congr ?_)
    rw [← UInt16.toNat_inj]
    rfl
  rw [Wire.msgStripAaaa_eq]
  unfold Msg.stripAaaa Msg.ofWire
  dsimp only
  rw [List.filter_map]
  congr 2
  exact List.filter_congr fun rr _ => htype rr

/-- The bytes that a client gets are of the reply that a delivery has. -/
theorem response_ofWire (cfg : Framing.Config) {resp out : Bytes} {m : Wire.Msg}
    (hparse : Wire.msgParse resp = .ok m) (h : Framing.response cfg resp = some out) :
    ∃ m', Wire.msgParse out = .ok m' ∧
      Msg.ofWire m' = if !cfg.disableDropAaaa then (Msg.ofWire m).stripAaaa else .ofWire m := by
  unfold Framing.response at h
  rw [hparse] at h
  dsimp only at h
  split at h
  · next hkeep =>
    cases h
    exact ⟨m, hparse, by rw [hkeep]; rfl⟩
  · next hdrop =>
    have hround := (Wire.canonical_of_msgParse hparse).msgStripAaaa.roundTrips.2
    rcases hround with hlimit | ⟨bs, hpack, hback⟩
    · rw [hlimit] at h
      cases h
    · rw [hpack] at h
      cases h
      refine ⟨_, hback, ?_⟩
      rw [eq_false_of_ne_true hdrop, Msg.stripAaaa_ofWire]
      rfl

end MagiTrickle.Dns
