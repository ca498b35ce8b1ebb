import Mathlib.Data.List.Nodup
import MagiTrickle.Dns.Transport

/-!
# Exchanges and descriptors are accounted for

The in-flight counter is the number of exchanges, every exchange is freed once,
and every descriptor is held by one exchange, pooled or closed: `Inv`, kept by
every callback. The descriptors of timers that have fired are the exception:
`on_timeout` forgets the id, and nothing deletes the timer any more.
-/

namespace MagiTrickle.Dns.Transport

open MagiTrickle.Lib

def Exchange.fds (ex : Exchange) : List Nat :=
  ex.timer.toList ++ (ex.upstreamFd.toList ++ ex.clientFd.toList)

/-- The registration belongs to the exchange; the request is read before there is an upstream. -/
def Exchange.Serves (ex : Exchange) (fd : Nat) : Cb → Prop
  | .onTcpClientRead => ex.clientFd = some fd ∧ ex.upstreamFd = none ∧ ex.timer = none
  | .onClientWritable => ex.clientFd = some fd
  | .onUpstream => ex.upstreamFd = some fd
  | .onUpstreamWritable => ex.upstreamFd = some fd

/-- The invariant, with `n` timers fired. -/
structure Inv (n : Nat) (p : Dnsproxy) (live : List Exchange) : Prop where
  balanced : p.fds.Balanced (live.flatMap Exchange.fds ++ p.fired)
  fired : p.fired.length = n
  inflight : p.inflight.toNat = live.length
  bound : live.length ≤ p.maxConcurrent.toNat
  once : (live.map Exchange.id ++ p.finished).Perm (List.range p.nextEx)
  watch : ∀ fd cb id, p.watch fd = some (cb, id) → ∃ ex ∈ live, ex.id = id ∧ ex.Serves fd cb

/-- The invariant after a callback, beside the other exchanges. -/
def Keeps (n : Nat) (others : List Exchange) (r : Result) : Prop :=
  Inv n r.1 (r.2.toList ++ others)

section Inv

variable {n : Nat} {p p' : Dnsproxy} {live others : List Exchange} {ex ex' : Exchange} {fd : Nat}

theorem Inv.perm (h : Inv n p live) {live' : List Exchange} (hp : live'.Perm live) :
    Inv n p live' where
  balanced := h.balanced.perm ((hp.flatMap_right _).append_right _)
  fired := h.fired
  inflight := h.inflight.trans hp.length_eq.symm
  bound := hp.length_eq.trans_le h.bound
  once := ((hp.map _).append_right _).trans h.once
  watch := fun fd cb id hw => by
    obtain ⟨e, he, hs⟩ := h.watch fd cb id hw
    exact ⟨e, hp.mem_iff.mpr he, hs⟩

theorem Exchange.Serves.mem {cb : Cb} (h : ex.Serves fd cb) : fd ∈ ex.fds := by
  unfold Exchange.fds
  cases cb with
  | onTcpClientRead => simp [h.1]
  | onClientWritable => simp [show ex.clientFd = some fd from h]
  | onUpstream => simp [show ex.upstreamFd = some fd from h]
  | onUpstreamWritable => simp [show ex.upstreamFd = some fd from h]

theorem Inv.held_of_watch (h : Inv n p live) {w : Cb × Nat} (hw : p.watch fd = some w) :
    fd ∈ live.flatMap Exchange.fds ++ p.fired := by
  obtain ⟨e, he, -, hs⟩ := h.watch fd w.1 w.2 hw
  exact List.mem_append_left _ (List.mem_flatMap.mpr ⟨e, he, hs.mem⟩)

theorem Inv.watch_next (h : Inv n p live) : p.watch p.fds.next = none := by
  cases hw : p.watch p.fds.next with
  | none => rfl
  | some w => exact absurd (h.balanced.lt (h.held_of_watch hw)) (Nat.lt_irrefl _)

theorem Inv.watch_of_mem_pool (h : Inv n p live) (hfd : fd ∈ p.fds.pool) : p.watch fd = none := by
  cases hw : p.watch fd with
  | none => rfl
  | some w => exact absurd hfd (h.balanced.not_mem_pool (h.held_of_watch hw))

theorem Inv.id_ne (h : Inv n p (ex :: others)) {e : Exchange} (he : e ∈ others) : e.id ≠ ex.id := by
  have hnodup := (h.once.nodup_iff.mpr List.nodup_range)
  rw [List.map_cons, List.cons_append, List.nodup_cons] at hnodup
  intro heq
  exact hnodup.1 (List.mem_append_left _ (heq ▸ List.mem_map_of_mem he))

theorem Inv.serves (h : Inv n p (ex :: others)) {cb : Cb} (hw : p.watch fd = some (cb, ex.id)) :
    ex.Serves fd cb := by
  obtain ⟨e, he, hid, hs⟩ := h.watch fd cb ex.id hw
  rcases List.mem_cons.mp he with rfl | he
  · exact hs
  · exact absurd hid (h.id_ne he)

/-! ## Changes to one exchange -/

/-- Only descriptors and registrations differ. -/
structure Frame (p p' : Dnsproxy) : Prop where
  maxConcurrent : p'.maxConcurrent = p.maxConcurrent
  fired : p'.fired = p.fired
  inflight : p'.inflight = p.inflight
  nextEx : p'.nextEx = p.nextEx
  finished : p'.finished = p.finished

theorem Frame.trans {p'' : Dnsproxy} (h : Frame p p') (h' : Frame p' p'') : Frame p p'' :=
  ⟨h'.1.trans h.1, h'.2.trans h.2, h'.3.trans h.3, h'.4.trans h.4, h'.5.trans h.5⟩

theorem Inv.held (h : Inv n p (ex :: others)) :
    p.fds.Balanced (ex.fds ++ (others.flatMap Exchange.fds ++ p.fired)) := by
  rw [← List.append_assoc, ← List.flatMap_cons]
  exact h.balanced

/-- The exchange in front has changed, its descriptors are settled, and its registrations are its
own or gone. -/
theorem Inv.become (h : Inv n p (ex :: others)) (hf : Frame p p') (hid : ex'.id = ex.id)
    (hheld : p'.fds.Balanced (ex'.fds ++ (others.flatMap Exchange.fds ++ p.fired)))
    (hwatch : ∀ fd w, p'.watch fd = some w → p.watch fd = some w)
    (hserves : ∀ fd cb, p'.watch fd = some (cb, ex.id) → ex'.Serves fd cb) :
    Inv n p' (ex' :: others) where
  balanced := by
    rw [List.flatMap_cons, List.append_assoc, hf.fired]
    exact hheld
  fired := (congrArg _ hf.fired).trans h.fired
  inflight := (congrArg _ hf.inflight).trans h.inflight
  bound := by
    rw [hf.maxConcurrent]
    exact h.bound
  once := by
    rw [List.map_cons, hid, hf.finished, hf.nextEx]
    exact h.once
  watch := fun fd cb id hw => by
    obtain ⟨e, he, rfl, hs⟩ := h.watch fd cb id (hwatch fd _ hw)
    rcases List.mem_cons.mp he with rfl | he
    · exact ⟨ex', List.mem_cons_self .., hid, hserves fd cb hw⟩
    · exact ⟨e, List.mem_cons_of_mem _ he, rfl, hs⟩

theorem Inv.modify (h : Inv n p (ex :: others)) (hid : ex'.id = ex.id) (ht : ex'.timer = ex.timer)
    (hu : ex'.upstreamFd = ex.upstreamFd) (hc : ex'.clientFd = ex.clientFd) :
    Inv n p (ex' :: others) := by
  have hfds : ex'.fds = ex.fds := by
    unfold Exchange.fds
    rw [ht, hu, hc]
  refine h.become ⟨rfl, rfl, rfl, rfl, rfl⟩ hid (hfds ▸ h.held) (fun _ _ => id) fun fd cb hw => ?_
  have hs := h.serves hw
  cases cb with
  | onTcpClientRead => exact ⟨hc.trans hs.1, hu.trans hs.2.1, ht.trans hs.2.2⟩
  | onClientWritable => exact hc.trans hs
  | onUpstream => exact hu.trans hs
  | onUpstreamWritable => exact hu.trans hs

theorem watch_delFd {fd' : Nat} {w : Cb × Nat} (h : (p.delFd fd).watch fd' = some w) :
    fd' ≠ fd ∧ p.watch fd' = some w := by
  change Function.update p.watch fd none fd' = some w at h
  by_cases hfd : fd' = fd
  · rw [hfd, Function.update_self] at h
    cases h
  · rw [Function.update_of_ne hfd] at h
    exact ⟨hfd, h⟩

theorem addFd_of_none (h : p.watch fd = none) (cb : Cb) (id : Nat) (registered : Bool) :
    p.addFd fd cb id registered =
      if registered then some { p with watch := Function.update p.watch fd (some (cb, id)) }
      else none := by
  unfold Dnsproxy.addFd
  simp only [h, and_true]

/-- A descriptor is given to another callback. -/
theorem addFd_delFd (p : Dnsproxy) (fd : Nat) (cb : Cb) (id : Nat) (registered : Bool) :
    (p.delFd fd).addFd fd cb id registered =
      if registered then some { p with watch := Function.update p.watch fd (some (cb, id)) }
      else none := by
  have hnone : (p.delFd fd).watch fd = none := Function.update_self ..
  rw [addFd_of_none hnone]
  unfold Dnsproxy.delFd
  simp only [Function.update_idem]

theorem Inv.delFd (h : Inv n p live) (fd : Nat) : Inv n (p.delFd fd) live :=
  ⟨h.balanced, h.fired, h.inflight, h.bound, h.once, fun fd' cb id hw =>
    h.watch fd' cb id (watch_delFd hw).2⟩

theorem Inv.addFd (h : Inv n p (ex :: others)) {cb : Cb} {registered : Bool}
    (ha : p.addFd fd cb ex.id registered = some p') (hs : ex.Serves fd cb) :
    Inv n p' (ex :: others) := by
  unfold Dnsproxy.addFd at ha
  split at ha
  · cases ha
    refine ⟨h.balanced, h.fired, h.inflight, h.bound, h.once, fun fd' cb' id hw => ?_⟩
    by_cases hfd : fd' = fd
    · dsimp only at hw
      rw [hfd, Function.update_self] at hw
      cases hw
      rw [hfd]
      exact ⟨ex, List.mem_cons_self .., rfl, hs⟩
    · dsimp only at hw
      rw [Function.update_of_ne hfd] at hw
      exact h.watch fd' cb' id hw
  · cases ha

/-! ## The end of an exchange -/

theorem balanced_dropTimer {rest : List Nat} (h : p.fds.Balanced (ex.timer.toList ++ rest)) :
    (dropTimer p ex).fds.Balanced rest := by
  unfold dropTimer
  cases ht : ex.timer with
  | none =>
    rw [ht] at h
    exact h
  | some t =>
    rw [ht] at h
    exact h.close

theorem balanced_dropUpstream {rest : List Nat} (pool : Bool)
    (h : p.fds.Balanced (ex.upstreamFd.toList ++ rest)) :
    (dropUpstream p ex pool).fds.Balanced rest := by
  unfold dropUpstream
  cases hu : ex.upstreamFd with
  | none =>
    rw [hu] at h
    exact h
  | some fd =>
    rw [hu] at h
    dsimp only
    split
    · exact h.park
    · exact h.close

theorem balanced_dropClient {rest : List Nat} (h : p.fds.Balanced (ex.clientFd.toList ++ rest)) :
    (dropClient p ex).fds.Balanced rest := by
  unfold dropClient
  cases hc : ex.clientFd with
  | none =>
    rw [hc] at h
    exact h
  | some fd =>
    rw [hc] at h
    exact h.close

theorem frame_dropTimer (p : Dnsproxy) (ex : Exchange) : Frame p (dropTimer p ex) := by
  unfold dropTimer
  split <;> exact ⟨rfl, rfl, rfl, rfl, rfl⟩

theorem frame_dropUpstream (p : Dnsproxy) (ex : Exchange) (pool : Bool) :
    Frame p (dropUpstream p ex pool) := by
  unfold dropUpstream
  split
  · exact ⟨rfl, rfl, rfl, rfl, rfl⟩
  · split <;> exact ⟨rfl, rfl, rfl, rfl, rfl⟩

theorem frame_dropClient (p : Dnsproxy) (ex : Exchange) : Frame p (dropClient p ex) := by
  unfold dropClient
  split <;> exact ⟨rfl, rfl, rfl, rfl, rfl⟩

theorem watch_dropTimer (p : Dnsproxy) (ex : Exchange) : (dropTimer p ex).watch = p.watch := by
  unfold dropTimer
  split <;> rfl

theorem watch_dropUpstream {pool : Bool} {w : Cb × Nat}
    (h : (dropUpstream p ex pool).watch fd = some w) :
    ex.upstreamFd ≠ some fd ∧ p.watch fd = some w := by
  unfold dropUpstream at h
  cases hu : ex.upstreamFd with
  | none =>
    rw [hu] at h
    exact ⟨fun h => (nomatch h), h⟩
  | some u =>
    rw [hu] at h
    have hw : (p.delFd u).watch fd = some w := by
      dsimp only at h
      split at h <;> exact h
    obtain ⟨hne, hw⟩ := watch_delFd hw
    exact ⟨fun he => hne (Option.some_inj.mp he).symm, hw⟩

theorem watch_dropClient {w : Cb × Nat} (h : (dropClient p ex).watch fd = some w) :
    ex.clientFd ≠ some fd ∧ p.watch fd = some w := by
  unfold dropClient at h
  cases hc : ex.clientFd with
  | none =>
    rw [hc] at h
    exact ⟨fun h => (nomatch h), h⟩
  | some c =>
    rw [hc] at h
    obtain ⟨hne, hw⟩ := watch_delFd (p := p) h
    exact ⟨fun he => hne (Option.some_inj.mp he).symm, hw⟩

theorem Inv.release (h : Inv n p (ex :: others)) (hf : Frame p p')
    (hheld : p'.fds.Balanced (others.flatMap Exchange.fds ++ p.fired))
    (hwatch : ∀ fd w, p'.watch fd = some w → p.watch fd = some w ∧ ∀ cb, ¬ ex.Serves fd cb) :
    Inv n (release p' ex) others where
  balanced := by
    show p'.fds.Balanced (_ ++ p'.fired)
    rw [hf.fired]
    exact hheld
  fired := (congrArg _ hf.fired).trans h.fired
  inflight := by
    have hlen := h.inflight
    rw [List.length_cons] at hlen
    show (p'.inflight - 1).toNat = _
    rw [hf.inflight, UInt64.toNat_sub_of_le]
    · rw [hlen]
      rfl
    · rw [UInt64.le_iff_toNat_le, hlen]
      exact Nat.succ_le_succ (Nat.zero_le _)
  bound := by
    have hb := h.bound
    rw [List.length_cons] at hb
    show _ ≤ p'.maxConcurrent.toNat
    rw [hf.maxConcurrent]
    omega
  once := by
    show (_ ++ (p'.finished ++ [ex.id])).Perm (List.range p'.nextEx)
    rw [hf.finished, hf.nextEx, ← List.append_assoc]
    exact (List.perm_append_singleton ..).trans h.once
  watch := fun fd cb id hw => by
    obtain ⟨hw, hno⟩ := hwatch fd _ hw
    obtain ⟨e, he, hid, hs⟩ := h.watch fd cb id hw
    rcases List.mem_cons.mp he with rfl | he
    · exact absurd hs (hno cb)
    · exact ⟨e, he, hid, hs⟩

/-- **`exchange_finish`** settles the descriptors of an exchange. -/
theorem Inv.finish (h : Inv n p (ex :: others)) (pool : Bool) :
    Keeps n others (exchangeFinish p ex pool) := by
  have hheld := h.held
  unfold Exchange.fds at hheld
  rw [List.append_assoc, List.append_assoc] at hheld
  refine h.release (((frame_dropTimer p ex).trans (frame_dropUpstream _ ex pool)).trans
    (frame_dropClient _ ex)) ?_ fun fd w hw => ?_
  · exact balanced_dropClient (balanced_dropUpstream pool (balanced_dropTimer hheld))
  · obtain ⟨hc, hw⟩ := watch_dropClient hw
    obtain ⟨hu, hw⟩ := watch_dropUpstream hw
    rw [watch_dropTimer] at hw
    refine ⟨hw, fun cb hs => ?_⟩
    cases cb with
    | onTcpClientRead => exact hc hs.1
    | onClientWritable => exact hc hs
    | onUpstream => exact hu hs
    | onUpstreamWritable => exact hu hs

/-! ## Responses -/

theorem Inv.deliverResponse (h : Inv n p (ex :: others)) (env : Env) :
    Keeps n others (deliverResponse p ex env) := by
  unfold Transport.deliverResponse
  split
  · exact h.finish false
  split
  · exact h.finish false
  split
  · split
    · exact h.finish false
    · -- the upstream is closed, the client stays
      have hheld := h.held
      unfold Exchange.fds at hheld
      rw [List.append_assoc, List.append_assoc] at hheld
      cases hu : ex.upstreamFd with
      | none => exact h.modify rfl rfl hu.symm rfl
      | some u =>
        rw [hu] at hheld
        have hclosed : (p.fds.close u).Balanced
            (ex.timer.toList ++ (ex.clientFd.toList ++ (others.flatMap Exchange.fds ++ p.fired))) :=
          (hheld.perm List.perm_middle.symm).close
        refine h.become ⟨rfl, rfl, rfl, rfl, rfl⟩ rfl ?_ (fun fd w hw => (watch_delFd hw).2)
          fun fd cb hw => ?_
        · unfold Exchange.fds
          rw [List.append_assoc, List.append_assoc]
          exact hclosed
        · obtain ⟨hne, hw⟩ := watch_delFd (p := p) hw
          have hs := h.serves hw
          cases cb with
          | onTcpClientRead => exact ⟨hs.1, rfl, hs.2.2⟩
          | onClientWritable => exact hs
          | onUpstream => exact absurd (Option.some_inj.mp (hs.symm.trans hu)) hne
          | onUpstreamWritable => exact absurd (Option.some_inj.mp (hs.symm.trans hu)) hne
  · exact h.finish true

theorem Inv.readResponse (h : Inv n p (ex :: others)) (env : Env) :
    Keeps n others (readResponse p ex env) := by
  unfold Transport.readResponse
  dsimp only
  split
  · exact h.finish false
  · next e he =>
    have hstart : Inv n p (e :: others) := by
      cases hr : ex.resp with
      | some len =>
        rw [hr] at he
        cases he
        exact h
      | none =>
        rw [hr] at he
        dsimp only at he
        split at he
        · cases he
        · cases he
          exact h.modify rfl rfl rfl rfl
    have he' : Inv n p
        ({ e with respGot := (transfer (e.resp.getD 0) e.respGot env.io).1 } :: others) :=
      hstart.modify rfl rfl rfl rfl
    split
    · exact he'
    · exact he'.finish false
    · exact he'.deliverResponse env

theorem Inv.onUpstream (h : Inv n p (ex :: others)) (env : Env) :
    Keeps n others (onUpstream p ex env) := by
  unfold Transport.onUpstream
  split
  · exact h.finish false
  split
  · split
    · exact h.finish false
    · exact h.modify rfl rfl rfl rfl
  split
  · split
    · exact h
    · exact h
    · exact h.finish false
    · exact h.deliverResponse env
  · have h' : Inv n p ({ ex with lenGot := (transfer 2 ex.lenGot env.lenIo).1 } :: others) :=
      h.modify rfl rfl rfl rfl
    dsimp only
    split
    · exact h'
    · exact h'.finish false
    · exact h'.readResponse env

theorem Inv.onUpstreamWritable (h : Inv n p (ex :: others)) (hs : ex.upstreamFd = some fd)
    (env : Env) : Keeps n others (onUpstreamWritable p ex fd env) := by
  unfold Transport.onUpstreamWritable
  split
  · exact h.finish false
  split
  · exact h.finish false
  · have h' : Inv n p ({ ex with
        connecting := ex.connecting && !ex.isTcp
        reqSent := (transfer (ex.req.getD 0) ex.reqSent env.io).1 } :: others) :=
      h.modify rfl rfl rfl rfl
    dsimp only
    split
    · exact h'
    · exact h'.finish false
    · split
      · exact (h'.delFd fd).finish false
      · next ha => exact (h'.delFd fd).addFd ha hs

theorem Inv.onClientWritable (h : Inv n p (ex :: others)) (env : Env) :
    Keeps n others (onClientWritable p ex env) := by
  unfold Transport.onClientWritable
  split
  · exact h.finish false
  · have h' : Inv n p
        ({ ex with outSent := (transfer (ex.out.getD 0) ex.outSent env.io).1 } :: others) :=
      h.modify rfl rfl rfl rfl
    dsimp only
    split
    · exact h'
    · exact h'.finish false
    · exact h'.finish false

/-! ## Requests -/

/-- The exchange has no upstream and no timer yet, and its request is no longer read. -/
structure Starting (p : Dnsproxy) (ex : Exchange) : Prop where
  upstream : ex.upstreamFd = none
  timer : ex.timer = none
  read : ∀ fd, p.watch fd ≠ some (.onTcpClientRead, ex.id)

theorem Inv.addTimer (h : Inv n p (ex :: others)) (ht : ex.timer = none)
    (hread : ∀ fd, p.watch fd ≠ some (.onTcpClientRead, ex.id)) (env : Env) :
    Keeps n others (addTimer p ex env) := by
  unfold Transport.addTimer
  split
  · refine h.become ⟨rfl, rfl, rfl, rfl, rfl⟩ rfl ?_ (fun _ _ => id) fun fd cb hw => ?_
    · have hheld := h.held
      unfold Exchange.fds at hheld ⊢
      rw [ht] at hheld
      exact hheld.opened
    · have hs := h.serves hw
      cases cb with
      | onTcpClientRead => exact absurd hw (hread fd)
      | onClientWritable => exact hs
      | onUpstream => exact hs
      | onUpstreamWritable => exact hs
  · exact h.finish false

theorem Inv.acquire (h : Inv n p (ex :: others)) (hst : Starting p ex) (hf : Frame p p')
    (hw : p'.watch = p.watch)
    (hheld : ∀ rest, p.fds.Balanced rest → p'.fds.Balanced (fd :: rest)) :
    Inv n p' ({ ex with upstreamFd := some fd } :: others) := by
  refine h.become hf rfl ?_ (fun _ _ => by rw [hw]; exact id) fun fd' cb hw' => ?_
  · have hold := hheld _ h.held
    unfold Exchange.fds at hold ⊢
    rw [hst.upstream, hst.timer] at hold
    rw [hst.timer]
    exact hold
  · rw [hw] at hw'
    have hs := h.serves hw'
    cases cb with
    | onTcpClientRead => exact absurd hw' (hst.read fd')
    | onClientWritable => exact hs
    | onUpstream => exact absurd (hst.upstream.symm.trans hs) (by simp)
    | onUpstreamWritable => exact absurd (hst.upstream.symm.trans hs) (by simp)

/-- What is registered for the upstream is not the reading of the request. -/
theorem read_addFd {cb : Cb} {registered : Bool} {id : Nat} (hcb : cb ≠ .onTcpClientRead)
    (ha : p.addFd fd cb id registered = some p')
    (hread : ∀ fd, p.watch fd ≠ some (.onTcpClientRead, id)) :
    ∀ fd, p'.watch fd ≠ some (.onTcpClientRead, id) := by
  unfold Dnsproxy.addFd at ha
  split at ha
  · cases ha
    intro fd' hw
    dsimp only at hw
    by_cases hfd : fd' = fd
    · rw [hfd, Function.update_self] at hw
      cases hw
      exact hcb rfl
    · rw [Function.update_of_ne hfd] at hw
      exact hread fd' hw
  · cases ha

theorem Inv.startTcp (h : Inv n p (ex :: others)) (hst : Starting p ex) (env : Env) :
    Keeps n others (startTcp p ex env) := by
  unfold Transport.startTcp
  split
  · exact h.finish false
  have h' : Inv n p ({ ex with req := ex.req.map (· + 2), reqSent := 0 } :: others) :=
    h.modify rfl rfl rfl rfl
  dsimp only
  split
  · exact h'.finish false
  have hup : Inv n p.opened ({ ex with
      req := ex.req.map (· + 2)
      reqSent := 0
      upstreamFd := some p.fds.next } :: others) :=
    h'.acquire ⟨hst.upstream, hst.timer, hst.read⟩ ⟨rfl, rfl, rfl, rfl, rfl⟩ rfl
      fun _ hb => hb.opened
  split
  · exact hup.finish false
  · have hcon : Inv n p.opened ({ ex with
        req := ex.req.map (· + 2)
        reqSent := 0
        upstreamFd := some p.fds.next
        connecting := decide (env.connect = .inProgress) } :: others) :=
      hup.modify rfl rfl rfl rfl
    split
    · exact hcon.finish false
    · next ha =>
      exact (hcon.addFd ha rfl).addTimer hst.timer (read_addFd (by simp) ha hst.read) env

theorem Inv.sendUdp (h : Inv n p ({ ex with upstreamFd := some fd } :: others))
    (ht : ex.timer = none) (hread : ∀ fd, p.watch fd ≠ some (.onTcpClientRead, ex.id))
    (env : Env) : Keeps n others (sendUdp p ex fd env) := by
  unfold Transport.sendUdp
  dsimp only
  split
  · exact h.finish false
  · generalize sentNow (ex.req.getD 0) env.send = sent
    have h' : Inv n p ({ ex with upstreamFd := some fd, reqSent := sent } :: others) :=
      h.modify rfl rfl rfl rfl
    have hserves : Exchange.Serves { ex with upstreamFd := some fd, reqSent := sent } fd
        (if sent < ex.req.getD 0 then .onUpstreamWritable else .onUpstream) := by
      split <;> exact rfl
    have hcb : (if sent < ex.req.getD 0 then Cb.onUpstreamWritable else .onUpstream) ≠
        .onTcpClientRead := by
      split <;> simp
    split
    · exact h'.finish false
    · next ha => exact (h'.addFd ha hserves).addTimer ht (read_addFd hcb ha hread) env

theorem Inv.startUdp (h : Inv n p (ex :: others)) (hst : Starting p ex) (env : Env) :
    Keeps n others (startUdp p ex env) := by
  unfold Transport.startUdp
  split
  · next fd fds htake =>
    have hup : Inv n { p with fds } ({ ex with upstreamFd := some fd } :: others) :=
      h.acquire hst ⟨rfl, rfl, rfl, rfl, rfl⟩ rfl fun _ hb => hb.take htake
    exact hup.sendUdp hst.timer hst.read env
  · split
    · exact h.finish false
    split
    · have hclosed : Inv n (p.opened.close p.fds.next) (ex :: others) :=
        h.become ⟨rfl, rfl, rfl, rfl, rfl⟩ rfl h.held.opened.close (fun _ _ => id)
          fun fd cb hw => h.serves hw
      exact hclosed.finish false
    · have hup : Inv n p.opened ({ ex with upstreamFd := some p.fds.next } :: others) :=
        h.acquire hst ⟨rfl, rfl, rfl, rfl, rfl⟩ rfl fun _ hb => hb.opened
      exact hup.sendUdp hst.timer hst.read env

theorem Inv.startUpstream (h : Inv n p (ex :: others)) (hst : Starting p ex) (env : Env) :
    Keeps n others (startUpstream p ex env) := by
  unfold Transport.startUpstream
  have h' : Inv n p ({ ex with lenGot := 0, respGot := 0 } :: others) := h.modify rfl rfl rfl rfl
  have hst' : Starting p { ex with lenGot := 0, respGot := 0 } := ⟨hst.upstream, hst.timer, hst.read⟩
  dsimp only
  split
  · exact h'.startTcp hst' env
  · exact h'.startUdp hst' env

/-- When the request is read, the client is registered for the answer only. -/
theorem Inv.requestRead (h : Inv n p (ex :: others)) (hs : ex.Serves fd .onTcpClientRead)
    (env : Env) : Keeps n others (requestRead p ex fd env) := by
  unfold Transport.requestRead
  have hread : ∀ fd', (p.delFd fd).watch fd' ≠ some (.onTcpClientRead, ex.id) := by
    intro fd' hw
    obtain ⟨hne, hw⟩ := watch_delFd hw
    exact hne (Option.some_inj.mp ((h.serves hw).1.symm.trans hs.1))
  split
  · exact (h.delFd fd).finish false
  · next p₁ ha =>
    have h₁ : Inv n p₁ (ex :: others) := (h.delFd fd).addFd ha hs.1
    split
    · exact h₁.finish false
    · exact h₁.modify rfl rfl rfl rfl
    · exact h₁.startUpstream ⟨hs.2.1, hs.2.2, read_addFd (by simp) ha hread⟩ env

theorem Inv.readRequest (h : Inv n p (ex :: others)) (hs : ex.Serves fd .onTcpClientRead)
    (env : Env) : Keeps n others (readRequest p ex fd env) := by
  unfold Transport.readRequest
  dsimp only
  split
  · exact h.finish false
  · next e he =>
    have hstart : Inv n p (e :: others) ∧ e.Serves fd .onTcpClientRead := by
      cases hr : ex.req with
      | some len =>
        rw [hr] at he
        cases he
        exact ⟨h, hs⟩
      | none =>
        rw [hr] at he
        dsimp only at he
        split at he
        · cases he
        · cases he
          exact ⟨h.modify rfl rfl rfl rfl, hs⟩
    obtain ⟨he, hse⟩ := hstart
    have he' : Inv n p
        ({ e with reqGot := (transfer (e.req.getD 0) e.reqGot env.io).1 } :: others) :=
      he.modify rfl rfl rfl rfl
    split
    · exact he'
    · exact he'.finish false
    · exact he'.requestRead hse env

theorem Inv.onTcpClientRead (h : Inv n p (ex :: others)) (hs : ex.Serves fd .onTcpClientRead)
    (env : Env) : Keeps n others (onTcpClientRead p ex fd env) := by
  unfold Transport.onTcpClientRead
  split
  · exact h.finish false
  · have h' : Inv n p ({ ex with lenGot := (transfer 2 ex.lenGot env.lenIo).1 } :: others) :=
      h.modify rfl rfl rfl rfl
    dsimp only
    split
    · exact h'
    · exact h'.finish false
    · exact h'.readRequest hs env

/-- **Every callback** of a registration keeps the invariant. -/
theorem Inv.callback (h : Inv n p (ex :: others)) {cb : Cb} (hs : ex.Serves fd cb) (env : Env) :
    Keeps n others (callback p ex cb fd env) := by
  cases cb with
  | onTcpClientRead => exact h.onTcpClientRead hs env
  | onClientWritable => exact h.onClientWritable env
  | onUpstream => exact h.onUpstream env
  | onUpstreamWritable => exact h.onUpstreamWritable hs env

theorem Inv.onTimeout (h : Inv n p (ex :: others)) {t : Nat} (ht : ex.timer = some t) :
    Keeps (n + 1) others (onTimeout p ex) := by
  unfold Transport.onTimeout
  rw [ht]
  have hheld := h.held
  unfold Exchange.fds at hheld
  rw [ht] at hheld
  have hfired : Inv (n + 1) { p with fired := t :: p.fired }
      ({ ex with timer := none } :: others) := by
    refine ⟨?_, congrArg Nat.succ h.fired, h.inflight, h.bound, h.once, fun fd cb id hw => ?_⟩
    · rw [List.flatMap_cons]
      refine hheld.perm ?_
      show (([] ++ (ex.upstreamFd.toList ++ ex.clientFd.toList) ++ others.flatMap Exchange.fds) ++
        t :: p.fired).Perm _
      rw [List.nil_append, List.append_assoc _ _ (t :: p.fired)]
      simp only [Option.toList_some, List.cons_append]
      rw [← List.append_assoc, ← List.append_assoc]
      exact List.perm_middle
    · obtain ⟨e, he, hid, hs⟩ := h.watch fd cb id hw
      rcases List.mem_cons.mp he with rfl | he
      · refine ⟨_, List.mem_cons_self .., hid, ?_⟩
        cases cb with
        | onTcpClientRead => exact ⟨hs.1, hs.2.1, rfl⟩
        | onClientWritable => exact hs
        | onUpstream => exact hs
        | onUpstreamWritable => exact hs
      · exact ⟨e, List.mem_cons_of_mem _ he, hid, hs⟩
  exact hfired.finish false

/-! ## Listeners -/

theorem lt_of_not_full (h : ¬ p.full = true) : p.inflight.toNat < p.maxConcurrent.toNat := by
  unfold Dnsproxy.full at h
  rw [decide_eq_true_eq, ge_iff_le, UInt64.le_iff_toNat_le, UInt32.toNat_toUInt64] at h
  omega

theorem Inv.counted (h : Inv n p live) (hroom : ¬ p'.full = true) (hf : Frame p p')
    (hw : p'.watch = p.watch) (clientFd : Option Nat)
    (hheld : p'.fds.Balanced (clientFd.toList ++ (live.flatMap Exchange.fds ++ p.fired)))
    (isTcp : Bool) (req : Option Nat) :
    Inv n p'.counted (newExchange p'.nextEx isTcp clientFd req :: live) where
  balanced := by
    rw [List.flatMap_cons, List.append_assoc]
    show p'.fds.Balanced (clientFd.toList ++ (_ ++ p'.fired))
    rw [hf.fired]
    exact hheld
  fired := (congrArg _ hf.fired).trans h.fired
  inflight := by
    have hlt := lt_of_not_full hroom
    have hmax := p'.maxConcurrent.toNat_lt
    have hin := h.inflight
    show (p'.inflight + 1).toNat = live.length + 1
    rw [UInt64.toNat_add, hf.inflight] at *
    rw [hin, UInt64.toNat_one]
    omega
  bound := by
    have hlt := lt_of_not_full hroom
    rw [hf.inflight, h.inflight] at hlt
    exact hlt
  once := by
    show (p'.nextEx :: live.map Exchange.id ++ p'.finished).Perm (List.range (p'.nextEx + 1))
    rw [List.range_succ, hf.nextEx, hf.finished]
    exact (h.once.cons _).trans (List.perm_append_singleton ..).symm
  watch := fun fd cb id hw' => by
    obtain ⟨e, he, hs⟩ := h.watch fd cb id (hw ▸ hw')
    exact ⟨e, List.mem_cons_of_mem _ he, hs⟩

theorem Inv.onUdpReadable (h : Inv n p live) (len : Nat) (env : Env) :
    Keeps n live (onUdpReadable p len env) := by
  unfold Transport.onUdpReadable
  split
  · exact ⟨h.balanced, h.fired, h.inflight, h.bound, h.once, h.watch⟩
  next hroom =>
  split
  · exact h
  · have hnew : Inv n p.counted (newExchange p.nextEx false none (some len) :: live) :=
      h.counted hroom ⟨rfl, rfl, rfl, rfl, rfl⟩ rfl none h.balanced false (some len)
    have hread : ∀ fd, p.counted.watch fd ≠ some (.onTcpClientRead, p.nextEx) := by
      intro fd hw
      cases (hnew.serves hw).1
    dsimp only
    split
    · exact hnew.startUpstream ⟨rfl, rfl, hread⟩ env
    · refine hnew.release ⟨rfl, rfl, rfl, rfl, rfl⟩ h.balanced fun fd w hw => ⟨hw, fun cb hs => ?_⟩
      cases cb with
      | onTcpClientRead => cases hs.1
      | onClientWritable => cases hs
      | onUpstream => cases hs
      | onUpstreamWritable => cases hs

theorem Inv.onTcpAccept (h : Inv n p live) (env : Env) : Keeps n live (onTcpAccept p env) := by
  unfold Transport.onTcpAccept
  dsimp only
  split
  · exact ⟨h.balanced.opened.close, h.fired, h.inflight, h.bound, h.once, h.watch⟩
  next hroom =>
  split
  · exact ⟨h.balanced.opened.close, h.fired, h.inflight, h.bound, h.once, h.watch⟩
  · have hnew : Inv n p.opened.counted
        (newExchange p.opened.nextEx true (some p.fds.next) none :: live) :=
      h.counted hroom ⟨rfl, rfl, rfl, rfl, rfl⟩ rfl (some p.fds.next) h.balanced.opened true none
    split
    · show Inv n (Transport.release (p.opened.counted.close p.fds.next) _) live
      refine hnew.release ⟨rfl, rfl, rfl, rfl, rfl⟩ h.balanced.opened.close
        fun fd w hw => ⟨hw, fun cb hs => ?_⟩
      have hnone := h.watch_next
      cases cb with
      | onTcpClientRead =>
        cases hs.1
        exact absurd (hnone.symm.trans hw) (by simp)
      | onClientWritable =>
        cases hs
        exact absurd (hnone.symm.trans hw) (by simp)
      | onUpstream => cases hs
      | onUpstreamWritable => cases hs
    · next ha => exact hnew.addFd ha ⟨rfl, rfl, rfl⟩

end Inv

/-! ## Runs -/

theorem perm_of_pick {live others : List Exchange} {id : Nat} {ex : Exchange}
    (h : pick live id = some (ex, others)) : (ex :: others).Perm live ∧ ex.id = id := by
  obtain ⟨e, he, heq⟩ := Option.map_eq_some_iff.mp h
  cases heq
  have hid := List.find?_some he
  exact ⟨(List.perm_cons_erase (List.mem_of_find?_eq_some he)).symm, of_decide_eq_true hid⟩

theorem Inv.pick {n : Nat} {p : Dnsproxy} {live : List Exchange} {ex : Exchange}
    (h : Inv n p live) (hex : ex ∈ live) :
    pick live ex.id = some (ex, live.erase ex) := by
  have hnodup : (live.map Exchange.id).Nodup :=
    (List.nodup_append.mp (h.once.nodup_iff.mpr List.nodup_range)).1
  have hsome : (live.find? fun e => e.id = ex.id).isSome = true :=
    List.find?_isSome.mpr ⟨ex, hex, decide_eq_true rfl⟩
  obtain ⟨e, he⟩ := Option.isSome_iff_exists.mp hsome
  have hid : e.id = ex.id := by simpa using List.find?_some he
  cases List.inj_on_of_nodup_map hnodup (List.mem_of_find?_eq_some he) hex hid
  unfold Transport.pick
  rw [he, Option.map_some]

theorem step_ready {s : State} {fd id : Nat} {cb : Cb} {ex : Exchange} {others : List Exchange}
    (hw : s.proxy.watch fd = some (cb, id)) (hp : pick s.live id = some (ex, others)) (env : Env) :
    step s (.ready fd env) = some (.after (callback s.proxy ex cb fd env) others) := by
  unfold Transport.step
  simp only [hw, hp, Option.bind_eq_bind, Option.bind_some]
  rfl

theorem step_timeout {s : State} {id : Nat} {ex : Exchange} {others : List Exchange}
    (hp : pick s.live id = some (ex, others)) (ht : ex.timer.isSome = true) :
    step s (.timeout id) = some (.after (onTimeout s.proxy ex) others) := by
  obtain ⟨t, ht⟩ := Option.isSome_iff_exists.mp ht
  unfold Transport.step
  simp only [hp, ht, Option.bind_eq_bind, Option.bind_some]
  rfl

def Ev.isTimeout : Ev → Bool
  | .timeout _ => true
  | _ => false

/-- **One event** keeps the invariant; a timer that fires is left behind. -/
theorem Inv.step {n : Nat} {s s' : State} (h : Inv n s.proxy s.live) {e : Ev}
    (hs : step s e = some s') : Inv (n + if e.isTimeout then 1 else 0) s'.proxy s'.live := by
  cases e with
  | datagram len env =>
    cases hs
    exact h.onUdpReadable len env
  | accept env =>
    cases hs
    exact h.onTcpAccept env
  | ready fd env =>
    obtain ⟨⟨cb, id⟩, hw, hs⟩ := Option.bind_eq_some_iff.mp hs
    obtain ⟨⟨ex, others⟩, hpick, hs⟩ := Option.bind_eq_some_iff.mp hs
    cases hs
    obtain ⟨hperm, rfl⟩ := perm_of_pick hpick
    have h' := h.perm hperm
    exact h'.callback (h'.serves hw) env
  | timeout id =>
    obtain ⟨⟨ex, others⟩, hpick, hs⟩ := Option.bind_eq_some_iff.mp hs
    obtain ⟨t, ht, hs⟩ := Option.bind_eq_some_iff.mp hs
    cases hs
    exact (h.perm (perm_of_pick hpick).1).onTimeout ht
  | setDisableFlags a b =>
    cases hs
    exact ⟨h.balanced, h.fired, h.inflight, h.bound, h.once, h.watch⟩

theorem inv_create (maxConcurrent : UInt32) (maxIdleConns : Nat)
    (disableFakePtr disableDropAaaa : Bool) :
    Inv 0 (create maxConcurrent maxIdleConns disableFakePtr disableDropAaaa).proxy [] where
  balanced := Ledger.balanced_empty maxIdleConns
  fired := rfl
  inflight := rfl
  bound := Nat.zero_le _
  once := .nil
  watch := fun _ _ _ h => nomatch h

/-- **So does a run**, which leaves behind one timer for each that fires. -/
theorem Inv.run {n : Nat} {s s' : State} (h : Inv n s.proxy s.live) {evs : List Ev}
    (hs : run s evs = some s') :
    Inv (n + (evs.filter Ev.isTimeout).length) s'.proxy s'.live := by
  induction evs generalizing n s with
  | nil =>
    cases hs
    exact h
  | cons e evs ih =>
    obtain ⟨s₁, h₁, h₂⟩ := Option.bind_eq_some_iff.mp
      ((List.foldlM_cons (f := Transport.step)).symm.trans hs)
    have hrest := ih (h.step h₁) h₂
    rw [List.filter_cons]
    split
    · next he =>
      rw [if_pos he, Nat.add_right_comm, Nat.add_assoc] at hrest
      exact hrest
    · next he =>
      rw [if_neg he] at hrest
      exact hrest

/-- The counter is the number of exchanges and within the budget, every exchange is live or was freed
once, and registrations are those of live exchanges. -/
structure Counted (s : State) : Prop where
  inflight : s.proxy.inflight.toNat = s.live.length
  bound : s.live.length ≤ s.proxy.maxConcurrent.toNat
  once : (s.live.map Exchange.id ++ s.proxy.finished).Perm (List.range s.proxy.nextEx)
  registered : ∀ fd cb id, s.proxy.watch fd = some (cb, id) →
    ∃ ex ∈ s.live, ex.id = id ∧ fd ∈ ex.fds

/-- And every descriptor is held by one exchange, in the pool or closed. -/
structure Accounted (s : State) : Prop extends Counted s where
  settled : s.proxy.fds.Balanced (s.live.flatMap Exchange.fds)

/-- **Exchanges are accounted for** in every run, and descriptors but for one timer that each time-out
leaves behind: so in a run exactly when no timer has fired. -/
theorem run_accounted_iff (maxConcurrent : UInt32) (maxIdleConns : Nat)
    (disableFakePtr disableDropAaaa : Bool) (evs : List Ev) (s : State)
    (h : run (create maxConcurrent maxIdleConns disableFakePtr disableDropAaaa) evs = some s) :
    (Counted s ∧ s.proxy.fds.Balanced (s.live.flatMap Exchange.fds ++ s.proxy.fired) ∧
      s.proxy.fired.length = (evs.filter Ev.isTimeout).length) ∧
    (Accounted s ↔ ∀ id, Ev.timeout id ∉ evs) := by
  have hinv := (inv_create maxConcurrent maxIdleConns disableFakePtr disableDropAaaa).run h
  rw [Nat.zero_add] at hinv
  have hfired : s.proxy.fired = [] ↔ ∀ id, Ev.timeout id ∉ evs := by
    rw [← List.length_eq_zero_iff, hinv.fired, List.length_eq_zero_iff, List.filter_eq_nil_iff]
    refine ⟨fun hno id hid => hno _ hid rfl, fun hno e he ht => ?_⟩
    cases e with
    | timeout id => exact hno id he
    | _ => cases ht
  have hcounted : Counted s := by
    refine ⟨hinv.inflight, hinv.bound, hinv.once, fun fd cb id hw => ?_⟩
    obtain ⟨ex, hex, hid, hs⟩ := hinv.watch fd cb id hw
    exact ⟨ex, hex, hid, hs.mem⟩
  refine ⟨⟨hcounted, hinv.balanced, hinv.fired⟩, ?_⟩
  rw [← hfired]
  constructor
  · intro hacc
    exact hinv.balanced.eq_nil_of_append hacc.settled
  · intro hnil
    have hbal := hinv.balanced
    rw [hnil, List.append_nil] at hbal
    exact ⟨hcounted, hbal⟩

def allWell : Env where
  broken := false
  sockError := false
  lenIo := []
  len := 0
  mem := true
  exMem := true
  io := [.moved 12]
  rearmed := true
  parses := true
  packs := true
  outMem := true
  outLen := 12
  singlePtr := false
  fakePtr := false
  framed := true
  socket := true
  connect := .ok
  send := .moved 12
  registered := true
  timer := true

/-- A datagram that is answered: the socket is in the pool, the timer closed. -/
theorem run_accounted_iff_answered :
    (run (create 10 1 false false) [.datagram 12 allWell, .ready 0 allWell]).isSome = true ∧
    ∀ s, run (create 10 1 false false) [.datagram 12 allWell, .ready 0 allWell] = some s →
      Accounted s := by
  refine ⟨by decide, fun s h => ?_⟩
  refine (run_accounted_iff 10 1 false false _ s h).2.mpr fun id hid => ?_
  simp at hid

/-- A datagram that is not answered in time: the exchange is gone, and the timer's descriptor is
neither held by an exchange nor closed. -/
theorem not_accounted_timeout :
    ∃ s, run (create 10 1 false false) [.datagram 12 allWell, .timeout 0] = some s ∧
      s.live = [] ∧ s.proxy.fds.next = 2 ∧ s.proxy.fds.pool = [] ∧ s.proxy.fds.closed = [0] ∧
      ¬ Accounted s := by
  refine ⟨_, rfl, rfl, rfl, rfl, rfl, fun h => ?_⟩
  have hlen := h.settled.length_eq
  revert hlen
  decide

end MagiTrickle.Dns.Transport
