import MagiTrickle.Dns.Proxy

/-!
# Whose answer a client gets

The proxy never looks at what it reads, so a client gets the answer to its own
question only when nothing else can be read on its socket. `Quiet` is that
condition on one event: a pooled socket is taken up only with an empty queue,
and while an exchange waits on a socket only answers to its own request come
there. Runs of quiet events deliver to every client the answer to its own
request; after a duplicate answer the next client gets the last one's.
-/

namespace MagiTrickle.Dns

open MagiTrickle.Lib

/-- The client got what the upstream made for its own request. -/
structure Delivery.Own (x : Delivery) : Prop where
  query : x.answer.query = x.client
  id : x.reply.id = x.client.txid
  question : x.reply.question = x.client.question

namespace Proxy

def socks (s : Proxy) : List Nat := s.live.map UdpExchange.sock ++ s.pool

structure Inv (s : Proxy) : Prop where
  nodup : s.socks.Nodup
  lt : ∀ k ∈ s.socks, k < s.nextSock
  unused : ∀ k, s.nextSock ≤ k → s.queue k = []
  /-- What waits for an exchange answers its request. -/
  own : ∀ e ∈ s.live, ∀ d ∈ s.queue e.sock, d.query = e.query
  honest : ∀ k, ∀ d ∈ s.queue k, d.msg.id = d.query.txid ∧ d.msg.question = d.query.question
  delivered : ∀ x ∈ s.delivered, x.Own

theorem inv_start (maxConcurrent poolCap : Nat) (dropAaaa : Bool) :
    (start maxConcurrent poolCap dropAaaa).Inv := by
  constructor <;> simp [start, socks]

section Inv

variable {s s' : Proxy}

theorem Inv.of_le (h : s.Inv) (hnodup : s'.socks.Nodup) (hsub : ∀ k ∈ s'.socks, k ∈ s.socks)
    (hnext : s'.nextSock = s.nextSock)
    (hlive : ∀ e ∈ s'.live, ∃ e' ∈ s.live, e.sock = e'.sock ∧ e.query = e'.query)
    (hqueue : ∀ k, ∀ d ∈ s'.queue k, d ∈ s.queue k) (hdeliv : s'.delivered = s.delivered) :
    s'.Inv where
  nodup := hnodup
  lt k hk := hnext ▸ h.lt k (hsub k hk)
  unused k hk := by
    rw [List.eq_nil_iff_forall_not_mem]
    intro d hd
    have := hqueue k d hd
    rw [h.unused k (hnext ▸ hk)] at this
    exact absurd this List.not_mem_nil
  own e he d hd := by
    obtain ⟨e', he', hsock, hquery⟩ := hlive e he
    rw [hquery]
    exact h.own e' he' d (hsock ▸ hqueue _ d hd)
  honest k d hd := h.honest k d (hqueue k d hd)
  delivered x hx := h.delivered x (hdeliv ▸ hx)

theorem mem_queue_closeSock {k j : Nat} {d : Datagram} (h : d ∈ (s.closeSock k).queue j) :
    d ∈ s.queue j := by
  simp only [closeSock] at h
  split at h
  · exact absurd h List.not_mem_nil
  · exact h

theorem Inv.closeSock (h : s.Inv) (k : Nat) : (s.closeSock k).Inv :=
  h.of_le h.nodup (fun _ hk => hk) rfl (fun e he => ⟨e, he, rfl, rfl⟩)
    (fun _ _ hd => mem_queue_closeSock hd) rfl

theorem perm_socks {ex : UdpExchange} (hex : ex ∈ s.live) :
    s.socks.Perm (ex.sock :: ((s.live.erase ex).map UdpExchange.sock ++ s.pool)) :=
  ((List.perm_cons_erase hex).map UdpExchange.sock).append_right s.pool

theorem Inv.exchangeFinish (h : s.Inv) {ex : UdpExchange} (hex : ex ∈ s.live) (pool : Bool) :
    (s.exchangeFinish ex pool).Inv := by
  have hperm := perm_socks hex
  have hnodup := hperm.nodup_iff.mp h.nodup
  have hlive : ∀ e ∈ s.live.erase ex, ∃ e' ∈ s.live, e.sock = e'.sock ∧ e.query = e'.query :=
    fun e he => ⟨e, List.mem_of_mem_erase he, rfl, rfl⟩
  have hsub : ∀ k ∈ (s.live.erase ex).map UdpExchange.sock ++ s.pool, k ∈ s.socks :=
    fun k hk => hperm.mem_iff.mpr (List.mem_cons_of_mem _ hk)
  unfold Proxy.exchangeFinish
  cases pool with
  | false =>
    exact h.of_le (List.nodup_cons.mp hnodup).2 hsub rfl hlive
      (fun _ _ hd => mem_queue_closeSock (s := { s with live := s.live.erase ex }) hd) rfl
  | true =>
    simp only [if_true, poolPut]
    split
    · -- the socket moves from the exchange to the pool
      have hput : (ex.sock :: ((s.live.erase ex).map UdpExchange.sock ++ s.pool)).Perm
          ((s.live.erase ex).map UdpExchange.sock ++ (s.pool ++ [ex.sock])) := by
        rw [← List.append_assoc]
        exact (List.perm_append_singleton _ _).symm
      exact h.of_le (hput.nodup_iff.mp hnodup)
        (fun k hk => hperm.mem_iff.mpr (hput.mem_iff.mpr hk)) rfl hlive (fun _ _ hd => hd) rfl
    · exact h.of_le (List.nodup_cons.mp hnodup).2 hsub rfl hlive
        (fun _ _ hd => mem_queue_closeSock (s := { s with live := s.live.erase ex }) hd) rfl

theorem Inv.deliverResponse (h : s.Inv) {ex : UdpExchange} (hex : ex ∈ s.live) {d : Datagram}
    (hd : d.query = ex.query) (hid : d.msg.id = d.query.txid)
    (hquestion : d.msg.question = d.query.question) (parses packs : Bool) :
    (s.deliverResponse ex d parses packs).Inv := by
  unfold Proxy.deliverResponse
  split
  · exact h.exchangeFinish hex false
  · split
    · exact h.exchangeFinish hex false
    · simp only
      refine Inv.exchangeFinish (s := { s with
        delivered := s.delivered ++ [⟨ex.query, d, _⟩] }) ?_ hex true
      refine ⟨h.nodup, h.lt, h.unused, h.own, h.honest, fun x hx => ?_⟩
      rcases List.mem_append.mp hx with hx | hx
      · exact h.delivered x hx
      · rw [List.mem_singleton.mp hx]
        -- stripping changes the answers only
        refine ⟨hd, ?_, ?_⟩
        · rw [← hd, ← hid]
          split <;> rfl
        · rw [← hd, ← hquestion]
          split <;> rfl

theorem Inv.onUpstream (h : s.Inv) {ex : UdpExchange} (hex : ex ∈ s.live) (parses packs : Bool) :
    (s.onUpstream ex parses packs).Inv := by
  unfold Proxy.onUpstream
  cases hq : s.queue ex.sock with
  | nil => exact h
  | cons d ds =>
    have hmem : d ∈ s.queue ex.sock := hq ▸ List.mem_cons_self ..
    have hpop : Inv { s with queue := fun j => if j = ex.sock then ds else s.queue j } := by
      refine h.of_le h.nodup (fun _ hk => hk) rfl (fun e he => ⟨e, he, rfl, rfl⟩) ?_ rfl
      intro k d' hd'
      simp only at hd'
      split at hd'
      · next hk => exact hk ▸ hq ▸ List.mem_cons_of_mem _ hd'
      · exact hd'
    exact hpop.deliverResponse hex (h.own ex hex d hmem) (h.honest _ d hmem).1
      (h.honest _ d hmem).2 parses packs

/-- A request may go out on a socket that nobody uses and on which nothing is queued. -/
theorem Inv.sendOn (h : s.Inv) {k : Nat} (hk : k ∉ s.socks) (hlt : k < s.nextSock)
    (hempty : s.queue k = []) (q : Query) (send : Send) (registered : Bool) :
    (s.sendOn q k send registered).Inv := by
  have hadd : ∀ (asked : List (Nat × Query)) (sent : Bool),
      Inv { s with asked := asked, live := s.live ++ [⟨q, k, sent⟩] } := by
    intro asked sent
    have hperm : (k :: s.socks).Perm
        ((s.live ++ [(⟨q, k, sent⟩ : UdpExchange)]).map UdpExchange.sock ++ s.pool) := by
      rw [List.map_append, List.append_assoc]
      exact List.perm_middle.symm
    refine ⟨hperm.nodup_iff.mp (List.nodup_cons.mpr ⟨hk, h.nodup⟩), fun j hj => ?_, h.unused,
      fun e he d hd => ?_, h.honest, h.delivered⟩
    · rcases List.mem_cons.mp (hperm.mem_iff.mpr hj) with rfl | hj
      · exact hlt
      · exact h.lt j hj
    · rcases List.mem_append.mp he with he | he
      · exact h.own e he d hd
      · obtain rfl := List.mem_singleton.mp he
        rw [show s.queue k = [] from hempty] at hd
        exact absurd hd List.not_mem_nil
  have hask : ∀ asked : List (Nat × Query), Inv { s with asked := asked } := fun _ =>
    ⟨h.nodup, h.lt, h.unused, h.own, h.honest, h.delivered⟩
  unfold Proxy.sendOn
  cases send with
  | failed => exact h.closeSock k
  | again =>
    cases registered with
    | false => exact h.closeSock k
    | true => exact hadd s.asked false
  | sent =>
    cases registered with
    | false => exact (hask _).closeSock k
    | true => exact hadd _ true

theorem Inv.startUpstream (h : s.Inv) (hquiet : ∀ k, s.pool.getLast? = some k → s.queue k = [])
    (q : Query) (connected : Bool) (send : Send) (registered : Bool) :
    (s.startUpstream q connected send registered).Inv := by
  unfold Proxy.startUpstream
  cases hk : s.pool.getLast? with
  | some k =>
    obtain ⟨pool, hpool⟩ := List.getLast?_eq_some_iff.mp hk
    have hdrop : s.pool.dropLast = pool := by rw [hpool, List.dropLast_concat]
    -- the socket leaves the pool
    have hperm : s.socks.Perm (k :: (s.live.map UdpExchange.sock ++ pool)) := by
      rw [socks, hpool, ← List.append_assoc]
      exact List.perm_append_singleton _ _
    have hnodup := List.nodup_cons.mp (hperm.nodup_iff.mp h.nodup)
    have hsub : ∀ j ∈ s.live.map UdpExchange.sock ++ pool, j ∈ s.socks :=
      fun j hj => hperm.mem_iff.mpr (List.mem_cons_of_mem _ hj)
    have htaken : Inv { s with pool := pool } :=
      h.of_le hnodup.2 hsub rfl (fun e he => ⟨e, he, rfl, rfl⟩) (fun _ _ hd => hd) rfl
    simp only [hdrop]
    exact htaken.sendOn hnodup.1 (h.lt k (hperm.mem_iff.mpr (List.mem_cons_self ..)))
      (hquiet k hk) q send registered
  | none =>
    cases connected with
    | false => exact h
    | true =>
      -- a new socket, on which nothing has come yet
      have hnew : Inv { s with nextSock := s.nextSock + 1 } :=
        ⟨h.nodup, fun k hk => Nat.lt_succ_of_lt (h.lt k hk),
          fun k hk => h.unused k (Nat.le_of_succ_le hk), h.own, h.honest, h.delivered⟩
      exact hnew.sendOn (fun hmem => Nat.lt_irrefl _ (h.lt _ hmem)) (Nat.lt_succ_self _)
        (h.unused _ (Nat.le_refl _)) q send registered

theorem Inv.onUpstreamWritable (h : s.Inv) {ex : UdpExchange} (hex : ex ∈ s.live) (send : Send)
    (registered : Bool) : (s.onUpstreamWritable ex send registered).Inv := by
  have hask : Inv { s with asked := s.asked ++ [(ex.sock, ex.query)] } :=
    ⟨h.nodup, h.lt, h.unused, h.own, h.honest, h.delivered⟩
  unfold Proxy.onUpstreamWritable
  cases send with
  | failed => exact h.exchangeFinish hex false
  | again => exact h
  | sent =>
    cases registered with
    | false => exact hask.exchangeFinish hex false
    | true =>
      have hsame : (s.live.map fun e => if e = ex then { e with sent := true } else e).map
          UdpExchange.sock = s.live.map UdpExchange.sock := by
        rw [List.map_map]
        apply List.map_congr_left
        intro e _
        simp only [Function.comp_apply]
        split <;> rfl
      have hsocks : socks { s with
          asked := s.asked ++ [(ex.sock, ex.query)]
          live := s.live.map fun e => if e = ex then { e with sent := true } else e } = s.socks := by
        rw [socks, hsame, socks]
      refine h.of_le (hsocks ▸ h.nodup) (fun k hk => hsocks ▸ hk) rfl ?_ (fun _ _ hd => hd) rfl
      intro e he
      obtain ⟨e', he', rfl⟩ := List.mem_map.mp he
      refine ⟨e', he', ?_⟩
      split <;> exact ⟨rfl, rfl⟩

theorem find_mem {serial : Nat} {ex : UdpExchange} (h : s.find serial = some ex) : ex ∈ s.live :=
  List.mem_of_find?_eq_some h

/-! ## Runs -/

/-- What must not happen: a pooled socket is taken up with something queued on it, or an answer to
another request comes to a socket that an exchange waits on. -/
def Quiet (s : Proxy) : Act → Prop
  | .request _ _ _ true _ _ _ => ∀ k, s.pool.getLast? = some k → s.queue k = []
  | .answer k q _ => ∀ e ∈ s.live, e.sock = k → e.query = q
  | _ => True

theorem Inv.step (h : s.Inv) {a : Act} (ha : s.Quiet a) : (s.step a).Inv := by
  cases a with
  | request txid question others forward connected send registered =>
    simp only [Proxy.step]
    split
    · exact h
    · have hnext : Inv { s with nextSerial := s.nextSerial + 1 } :=
        ⟨h.nodup, h.lt, h.unused, h.own, h.honest, h.delivered⟩
      cases forward with
      | false => exact hnext
      | true => exact hnext.startUpstream ha _ connected send registered
  | writable serial send registered =>
    simp only [Proxy.step]
    cases hf : s.find serial with
    | none => exact h
    | some ex =>
      simp only
      split
      · exact h
      · exact h.onUpstreamWritable (find_mem hf) send registered
  | answer k q answers =>
    simp only [Proxy.step]
    split
    · next hopen =>
      have hk : k ∈ s.socks := by
        have := hopen.2
        simp only [isOpen, decide_eq_true_eq] at this
        exact List.mem_append.mpr this.symm
      refine ⟨h.nodup, h.lt, fun j hj => ?_, fun e he d hd => ?_, fun j d hd => ?_, h.delivered⟩
      · have hne : j ≠ k := fun hjk => absurd (h.lt k hk) (Nat.not_lt.mpr (hjk ▸ hj))
        simp only [if_neg hne]
        exact h.unused j hj
      · simp only at hd
        split at hd
        · next hek =>
          rcases List.mem_append.mp hd with hd | hd
          · exact h.own e he d (hek ▸ hd)
          · rw [List.mem_singleton.mp hd]
            exact (ha e he hek).symm
        · exact h.own e he d hd
      · simp only at hd
        split at hd
        · rcases List.mem_append.mp hd with hd | hd
          · exact h.honest k d hd
          · rw [List.mem_singleton.mp hd]
            exact ⟨rfl, rfl⟩
        · exact h.honest j d hd
    · exact h
  | readable serial parses packs =>
    simp only [Proxy.step]
    cases hf : s.find serial with
    | none => exact h
    | some ex =>
      simp only
      split
      · exact h.onUpstream (find_mem hf) parses packs
      · exact h
  | broken serial =>
    simp only [Proxy.step]
    cases hf : s.find serial with
    | none => exact h
    | some ex => exact h.exchangeFinish (find_mem hf) false
  | timeout serial =>
    simp only [Proxy.step]
    cases hf : s.find serial with
    | none => exact h
    | some ex => exact h.exchangeFinish (find_mem hf) false

end Inv

/-- In every run of quiet events each client gets the answer to its own request. -/
theorem run_delivers_own (maxConcurrent poolCap : Nat) (dropAaaa : Bool) (acts : List Act)
    (h : Runs.Guarded Quiet step (start maxConcurrent poolCap dropAaaa) acts) :
    ∀ x ∈ ((start maxConcurrent poolCap dropAaaa).run acts).delivered, x.Own :=
  (h.inv (fun _ _ hs ha => Inv.step hs ha) (inv_start maxConcurrent poolCap dropAaaa)).delivered

def twoRequests : List Act :=
  [.request 7 (str "a") 0 true true .sent true, .answer 0 ⟨0, 7, str "a"⟩ [⟨1, [1, 2, 3, 4]⟩],
    .readable 0 true true, .request 9 (str "b") 0 true true .sent true,
    .answer 0 ⟨1, 9, str "b"⟩ [⟨28, []⟩], .readable 1 true true]

theorem run_delivers_own_two_requests :
    ((start 10 4 true).run twoRequests).delivered.length = 2 ∧
      ∀ x ∈ ((start 10 4 true).run twoRequests).delivered, x.Own := by
  refine ⟨by decide, run_delivers_own 10 4 true _ ⟨?_, ?_, trivial, ?_, ?_, trivial, trivial⟩⟩
  · intro k hk
    cases hk
  · intro e he _
    rw [List.mem_singleton.mp he]
    rfl
  · intro k hk
    cases hk
    rfl
  · intro e he _
    rw [List.mem_singleton.mp he]
    rfl

/-- The upstream answers the first request twice: the second answer stays on the pooled socket, and
the next client gets it. -/
theorem run_delivers_duplicate :
    ¬ ∀ x ∈ ((start 10 4 true).run
      [.request 7 (str "a") 0 true true .sent true, .answer 0 ⟨0, 7, str "a"⟩ [],
        .answer 0 ⟨0, 7, str "a"⟩ [], .readable 0 true true,
        .request 9 (str "b") 0 true true .sent true, .readable 1 true true]).delivered, x.Own := by
  intro h
  have hown := h ⟨⟨1, 9, str "b"⟩, ⟨⟨0, 7, str "a"⟩, ⟨7, str "a", []⟩⟩, ⟨7, str "a", []⟩⟩ (by decide)
  exact absurd hown.id (by decide)

end Proxy

end MagiTrickle.Dns
