import MagiTrickle.Dns.Inflight

/-!
# Which exchanges have a deadline

The timer of an exchange is added at the end of `start_upstream`. An exchange
over UDP is started in the callback that makes it. One over TCP is there from
`accept` on, and has no timer while its request is read, nor while a fake PTR
answer is written (`Exchange.Timed`).
-/

namespace MagiTrickle.Dns.Transport

open MagiTrickle.Lib

/-- Nothing has been asked of the upstream for this client. -/
def Exchange.Unasked (ex : Exchange) : Prop :=
  ex.isTcp = true ∧ ex.upstreamFd = none ∧ ex.resp = none

instance (ex : Exchange) : Decidable ex.Unasked := by
  unfold Exchange.Unasked
  infer_instance

def Exchange.Timed (ex : Exchange) : Prop := ex.timer = none ↔ ex.Unasked

/-- A callback leaves an exchange of the same transport, or none. -/
def LeavesTimed (isTcp : Bool) (r : Result) : Prop :=
  ∀ ex ∈ r.2, ex.isTcp = isTcp ∧ ex.Timed

variable {p : Dnsproxy} {ex ex' : Exchange} {fd : Nat} {env : Env}

theorem leavesTimed_finish (isTcp pool : Bool) :
    LeavesTimed isTcp (exchangeFinish p ex pool) := fun _ h => nomatch h

theorem LeavesTimed.of_same (h : ex.Timed) (hi : ex'.isTcp = ex.isTcp) (ht : ex'.timer = ex.timer)
    (hu : ex'.upstreamFd = ex.upstreamFd) (hr : ex'.resp = ex.resp) :
    LeavesTimed ex.isTcp (p, some ex') := by
  rintro _ ⟨⟩
  refine ⟨hi, ?_⟩
  unfold Exchange.Timed Exchange.Unasked at h ⊢
  rw [hi, ht, hu, hr]
  exact h

/-! ## Responses -/

theorem Exchange.Timed.ne_none (h : ex.Timed) (hu : ex.upstreamFd = some fd) : ex.timer ≠ none :=
  fun ht => absurd ((h.mp ht).2.1.symm.trans hu) (by simp)

theorem leavesTimed_deliverResponse (ht : ex.timer ≠ none)
    (hr : ex.isTcp = true → ex.resp ≠ none) : LeavesTimed ex.isTcp (deliverResponse p ex env) := by
  have hout : ∀ out, LeavesTimed ex.isTcp
      (p, some { ex with out := some out, outSent := 0, upstreamFd := none }) := by
    rintro out _ ⟨⟩
    exact ⟨rfl, iff_of_false ht fun hun => hr hun.1 hun.2.2⟩
  unfold deliverResponse
  split
  · exact leavesTimed_finish _ _
  split
  · exact leavesTimed_finish _ _
  split
  · split
    · exact leavesTimed_finish _ _
    · dsimp only
      split
      · exact hout _
      · exact hout _
  · exact leavesTimed_finish _ _

theorem leavesTimed_readResponse (ht : ex.timer ≠ none) :
    LeavesTimed ex.isTcp (readResponse p ex env) := by
  unfold readResponse
  dsimp only
  split
  · exact leavesTimed_finish _ _
  · next e he =>
    have hstart : e.isTcp = ex.isTcp ∧ e.timer = ex.timer ∧ e.resp ≠ none := by
      cases hr : ex.resp with
      | some n =>
        rw [hr] at he
        cases he
        exact ⟨rfl, rfl, by rw [hr]; simp⟩
      | none =>
        rw [hr] at he
        dsimp only at he
        split at he
        · cases he
        · cases he
          exact ⟨rfl, rfl, by simp⟩
    obtain ⟨hi, het, her⟩ := hstart
    rw [← hi]
    split
    · rintro _ ⟨⟩
      exact ⟨rfl, iff_of_false (by rw [← het] at ht; exact ht) fun hun => her hun.2.2⟩
    · exact leavesTimed_finish _ _
    · rw [← het] at ht
      exact @leavesTimed_deliverResponse p
        { e with respGot := (transfer (e.resp.getD 0) e.respGot env.io).1 } env ht fun _ => her

theorem leavesTimed_onUpstream (h : ex.Timed) (hu : ex.upstreamFd = some fd) :
    LeavesTimed ex.isTcp (onUpstream p ex env) := by
  unfold onUpstream
  split
  · exact leavesTimed_finish _ _
  split
  · split
    · exact leavesTimed_finish _ _
    · exact .of_same h rfl rfl rfl rfl
  split
  · next hudp =>
    split
    · exact .of_same h rfl rfl rfl rfl
    · exact .of_same h rfl rfl rfl rfl
    · exact leavesTimed_finish _ _
    · exact leavesTimed_deliverResponse (h.ne_none hu) fun htcp => absurd htcp hudp
  · dsimp only
    split
    · exact .of_same h rfl rfl rfl rfl
    · exact leavesTimed_finish _ _
    · exact @leavesTimed_readResponse p { ex with lenGot := (transfer 2 ex.lenGot env.lenIo).1 } env
        (h.ne_none hu)

theorem leavesTimed_onUpstreamWritable (h : ex.Timed) :
    LeavesTimed ex.isTcp (onUpstreamWritable p ex fd env) := by
  unfold onUpstreamWritable
  split
  · exact leavesTimed_finish _ _
  split
  · exact leavesTimed_finish _ _
  · dsimp only
    split
    · exact .of_same h rfl rfl rfl rfl
    · exact leavesTimed_finish _ _
    · split
      · exact leavesTimed_finish _ _
      · exact .of_same h rfl rfl rfl rfl

theorem leavesTimed_onClientWritable (h : ex.Timed) :
    LeavesTimed ex.isTcp (onClientWritable p ex env) := by
  unfold onClientWritable
  split
  · exact leavesTimed_finish _ _
  · dsimp only
    split
    · exact .of_same h rfl rfl rfl rfl
    · exact leavesTimed_finish _ _
    · exact leavesTimed_finish _ _

/-! ## Requests -/

/-- At the end of `start_upstream` there is an upstream and a timer. -/
theorem leavesTimed_addTimer (hu : ex.upstreamFd = some fd) :
    LeavesTimed ex.isTcp (addTimer p ex env) := by
  unfold addTimer
  split
  · rintro _ ⟨⟩
    refine ⟨rfl, iff_of_false (by simp) fun hun => ?_⟩
    exact absurd (hun.2.1.symm.trans hu) (by simp)
  · exact leavesTimed_finish _ _

theorem leavesTimed_startUpstream : LeavesTimed ex.isTcp (startUpstream p ex env) := by
  have hsend : ∀ (p : Dnsproxy) (e : Exchange) (fd : Nat), e.isTcp = ex.isTcp →
      LeavesTimed ex.isTcp (sendUdp p e fd env) := by
    intro p e fd he
    unfold sendUdp
    dsimp only
    split
    · exact leavesTimed_finish _ _
    · split
      · exact leavesTimed_finish _ _
      · rw [← he]
        exact leavesTimed_addTimer rfl
  unfold startUpstream
  dsimp only
  split
  · unfold startTcp
    split
    · exact leavesTimed_finish _ _
    dsimp only
    split
    · exact leavesTimed_finish _ _
    split
    · exact leavesTimed_finish _ _
    split
    · exact leavesTimed_finish _ _
    · exact leavesTimed_addTimer rfl
  · unfold startUdp
    split
    · exact hsend _ _ _ rfl
    · split
      · exact leavesTimed_finish _ _
      split
      · exact leavesTimed_finish _ _
      · exact hsend _ _ _ rfl

theorem leavesTimed_onTcpClientRead (h : ex.Timed) :
    LeavesTimed ex.isTcp (onTcpClientRead p ex fd env) := by
  have hrequest : ∀ e : Exchange, e.isTcp = ex.isTcp → e.Timed →
      LeavesTimed ex.isTcp (requestRead p e fd env) := by
    intro e hi he
    rw [← hi]
    unfold requestRead
    split
    · exact leavesTimed_finish _ _
    · split
      · exact leavesTimed_finish _ _
      · exact .of_same he rfl rfl rfl rfl
      · exact leavesTimed_startUpstream
  unfold onTcpClientRead
  split
  · exact leavesTimed_finish _ _
  dsimp only
  split
  · exact .of_same h rfl rfl rfl rfl
  · exact leavesTimed_finish _ _
  · unfold readRequest
    dsimp only
    split
    · exact leavesTimed_finish _ _
    · next e he =>
      have hsame : e.isTcp = ex.isTcp ∧ e.Timed := by
        split at he
        · cases he
          exact ⟨rfl, h⟩
        · split at he
          · cases he
          · cases he
            exact ⟨rfl, h⟩
      rw [← hsame.1] at hrequest ⊢
      split
      · exact .of_same hsame.2 rfl rfl rfl rfl
      · exact leavesTimed_finish _ _
      · exact hrequest _ rfl hsame.2

/-- **Every callback** leaves the exchanges timed. -/
theorem leavesTimed_callback (h : ex.Timed) {cb : Cb} (hs : ex.Serves fd cb) :
    LeavesTimed ex.isTcp (callback p ex cb fd env) := by
  cases cb with
  | onTcpClientRead => exact leavesTimed_onTcpClientRead h
  | onClientWritable => exact leavesTimed_onClientWritable h
  | onUpstream => exact leavesTimed_onUpstream h hs
  | onUpstreamWritable => exact leavesTimed_onUpstreamWritable h

/-! ## Runs -/

def Admits (s : State) : Ev → Prop
  | .accept env => s.proxy.full = false ∧ env.exMem = true ∧ env.registered = true
  | _ => False

theorem leavesTimed_onUdpReadable {n : Nat} : LeavesTimed false (onUdpReadable p n env) := by
  unfold onUdpReadable
  split
  · exact fun _ h => nomatch h
  split
  · exact fun _ h => nomatch h
  dsimp only
  split
  · exact leavesTimed_startUpstream
  · exact fun _ h => nomatch h

theorem onTcpAccept_timed : ∀ ex ∈ (onTcpAccept p env).2, ex.timer = none ∧ ex.Timed := by
  unfold onTcpAccept
  dsimp only
  split
  · exact fun _ h => nomatch h
  split
  · exact fun _ h => nomatch h
  split
  · exact fun _ h => nomatch h
  · rintro _ ⟨⟩
    exact ⟨rfl, iff_of_true rfl ⟨rfl, rfl, rfl⟩⟩

theorem onTcpAccept_isSome {n : Nat} {s : State} (h : Inv n s.proxy s.live) (env : Env) :
    (onTcpAccept s.proxy env).2.isSome = true ↔ Admits s (.accept env) := by
  have hfull : s.proxy.opened.full = s.proxy.full := rfl
  have hwatch : s.proxy.opened.counted.watch s.proxy.fds.next = none := h.watch_next
  unfold onTcpAccept Admits
  dsimp only
  rw [hfull]
  split
  · next hf => simp [hf]
  next hf =>
  split
  · next hm => simp [hm]
  next hm =>
  unfold Dnsproxy.addFd
  rw [hwatch]
  cases hr : env.registered <;> simp_all

/-- **One event** keeps the exchanges timed. Clients over TCP come from an event that admits them. -/
theorem timed_step {n : Nat} {s s' : State} (hinv : Inv n s.proxy s.live)
    (h : ∀ ex ∈ s.live, ex.Timed) {e : Ev} (hs : step s e = some s') :
    (∀ ex ∈ s'.live, ex.Timed) ∧
      (∀ ex ∈ s'.live, ex.isTcp = true → Admits s e ∨ ∃ ex ∈ s.live, ex.isTcp = true) := by
  cases e with
  | datagram len env =>
    cases hs
    have hr : LeavesTimed false (onUdpReadable s.proxy len env) := leavesTimed_onUdpReadable
    refine ⟨fun ex hex => ?_, fun ex hex htcp => .inr ?_⟩
    · rcases List.mem_append.mp hex with hex | hex
      · exact (hr ex (Option.mem_toList.mp hex)).2
      · exact h ex hex
    · rcases List.mem_append.mp hex with hex | hex
      · exact absurd ((hr ex (Option.mem_toList.mp hex)).1.symm.trans htcp) (by simp)
      · exact ⟨ex, hex, htcp⟩
  | accept env =>
    cases hs
    refine ⟨fun ex hex => ?_, fun ex hex htcp => ?_⟩
    · rcases List.mem_append.mp hex with hex | hex
      · exact (onTcpAccept_timed ex (Option.mem_toList.mp hex)).2
      · exact h ex hex
    · rcases List.mem_append.mp hex with hex | hex
      · refine .inl ((onTcpAccept_isSome hinv env).mp ?_)
        rw [Option.mem_toList.mp hex]
        rfl
      · exact .inr ⟨ex, hex, htcp⟩
  | ready fd env =>
    obtain ⟨⟨cb, id⟩, hw, hs⟩ := Option.bind_eq_some_iff.mp hs
    obtain ⟨⟨ex₀, others⟩, hpick, hs⟩ := Option.bind_eq_some_iff.mp hs
    cases hs
    obtain ⟨hperm, rfl⟩ := perm_of_pick hpick
    have hmem : ∀ ex, ex ∈ ex₀ :: others → ex ∈ s.live := fun _ => hperm.mem_iff.mp
    have hr : LeavesTimed ex₀.isTcp (callback s.proxy ex₀ cb fd env) :=
      leavesTimed_callback (h ex₀ (hmem _ List.mem_cons_self)) ((hinv.perm hperm).serves hw)
    refine ⟨fun ex hex => ?_, fun ex hex htcp => .inr ?_⟩
    · rcases List.mem_append.mp hex with hex | hex
      · exact (hr ex (Option.mem_toList.mp hex)).2
      · exact h ex (hmem ex (List.mem_cons_of_mem _ hex))
    · rcases List.mem_append.mp hex with hex | hex
      · exact ⟨ex₀, hmem _ List.mem_cons_self, (hr ex (Option.mem_toList.mp hex)).1.symm.trans htcp⟩
      · exact ⟨ex, hmem ex (List.mem_cons_of_mem _ hex), htcp⟩
  | timeout id =>
    obtain ⟨⟨ex₀, others⟩, hpick, hs⟩ := Option.bind_eq_some_iff.mp hs
    obtain ⟨t, -, hs⟩ := Option.bind_eq_some_iff.mp hs
    cases hs
    have hmem : ∀ ex, ex ∈ others → ex ∈ s.live := fun _ hex =>
      (perm_of_pick hpick).1.mem_iff.mp (List.mem_cons_of_mem _ hex)
    exact ⟨fun ex hex => h ex (hmem ex hex), fun ex hex htcp => .inr ⟨ex, hmem ex hex, htcp⟩⟩
  | setDisableFlags a b =>
    cases hs
    exact ⟨h, fun ex hex htcp => .inr ⟨ex, hex, htcp⟩⟩

/-- The exchange has a timer that is registered and has not fired, and whose callback frees it. -/
def HasDeadline (s : State) (ex : Exchange) : Prop :=
  ∃ t, ex.timer = some t ∧ t ∉ s.proxy.fired ∧ t ∉ s.proxy.fds.closed ∧
    ∃ s', step s (.timeout ex.id) = some s' ∧ ex.id ∈ s'.proxy.finished

theorem hasDeadline_iff {n : Nat} {s : State} (hinv : Inv n s.proxy s.live) (hex : ex ∈ s.live)
    (ht : ex.Timed) : HasDeadline s ex ↔ ¬ ex.Unasked := by
  constructor
  · rintro ⟨t, hsome, -⟩ hun
    exact absurd (hsome.symm.trans (ht.mpr hun)) (by simp)
  · intro hun
    obtain ⟨t, hsome⟩ := Option.ne_none_iff_exists'.mp fun hnone => hun (ht.mp hnone)
    have hheld : t ∈ s.live.flatMap Exchange.fds := by
      refine List.mem_flatMap.mpr ⟨ex, hex, ?_⟩
      unfold Exchange.fds
      simp [hsome]
    obtain ⟨hnodup, -, hclosed⟩ := List.nodup_append.mp hinv.balanced.nodup
    refine ⟨t, hsome, fun hf => ?_, fun hc => ?_, ?_⟩
    · exact (List.nodup_append.mp hnodup).2.2 t hheld t hf rfl
    · exact hclosed t (List.mem_append_left _ hheld) t (List.mem_append_right _ hc) rfl
    · refine ⟨.after (onTimeout s.proxy ex) (s.live.erase ex), ?_, ?_⟩
      · simp [step, hinv.pick hex, hsome]
      · show ex.id ∈ Dnsproxy.finished _ ++ [ex.id]
        exact List.mem_append_right _ (List.mem_singleton_self _)

theorem run_concat (s : State) (evs : List Ev) (e : Ev) :
    run s (evs ++ [e]) = (run s evs).bind fun s => step s e := by
  unfold run
  rw [List.foldlM_append]
  show ((evs.foldlM step s).bind fun s => (step s e).bind some) = _
  simp

theorem timed_run {n : Nat} {s s' : State} (hinv : Inv n s.proxy s.live)
    (h : ∀ ex ∈ s.live, ex.Timed) {evs : List Ev} (hs : run s evs = some s') :
    (∃ n, Inv n s'.proxy s'.live) ∧ ∀ ex ∈ s'.live, ex.Timed := by
  induction evs using List.reverseRecOn generalizing s' with
  | nil =>
    cases hs
    exact ⟨⟨n, hinv⟩, h⟩
  | append_singleton evs e ih =>
    rw [run_concat] at hs
    obtain ⟨s₁, h₁, h₂⟩ := Option.bind_eq_some_iff.mp hs
    obtain ⟨⟨m, hm⟩, ht⟩ := ih h₁
    exact ⟨⟨_, hm.step h₂⟩, (timed_step hm ht h₂).1⟩

section

variable (maxConcurrent : UInt32) (maxIdleConns : Nat) (disableFakePtr disableDropAaaa : Bool)
  (evs : List Ev)

def Reaches (k : Nat) (s : State) : Prop :=
  run (create maxConcurrent maxIdleConns disableFakePtr disableDropAaaa) (evs.take k) = some s

theorem Reaches.timed {k : Nat} {s : State}
    (h : Reaches maxConcurrent maxIdleConns disableFakePtr disableDropAaaa evs k s) :
    (∃ n, Inv n s.proxy s.live) ∧ ∀ ex ∈ s.live, ex.Timed :=
  timed_run (inv_create maxConcurrent maxIdleConns disableFakePtr disableDropAaaa)
    (fun _ hex => nomatch hex) h

theorem reaches_succ {k : Nat} {s s' : State} {e : Ev}
    (h : Reaches maxConcurrent maxIdleConns disableFakePtr disableDropAaaa evs k s)
    (he : evs[k]? = some e) (hs : step s e = some s') :
    Reaches maxConcurrent maxIdleConns disableFakePtr disableDropAaaa evs (k + 1) s' := by
  unfold Reaches at h ⊢
  rw [List.take_add_one, he, Option.toList_some, run_concat, h]
  exact hs

/-- Without an admitted client there is no exchange over TCP. -/
theorem reaches_udp
    (hno : ∀ k s e, Reaches maxConcurrent maxIdleConns disableFakePtr disableDropAaaa evs k s →
      evs[k]? = some e → ¬ Admits s e) {k : Nat} {s : State}
    (h : Reaches maxConcurrent maxIdleConns disableFakePtr disableDropAaaa evs k s) :
    ∀ ex ∈ s.live, ex.isTcp = false := by
  induction k generalizing s with
  | zero =>
    cases h
    exact fun _ hex => nomatch hex
  | succ k ih =>
    cases he : evs[k]? with
    | none =>
      have hsame : evs.take (k + 1) = evs.take k := by
        rw [List.take_add_one, he, Option.toList_none, List.append_nil]
      unfold Reaches at h
      rw [hsame] at h
      exact ih h
    | some e =>
      unfold Reaches at h
      rw [List.take_add_one, he, Option.toList_some, run_concat] at h
      obtain ⟨s₁, h₁, h₂⟩ := Option.bind_eq_some_iff.mp h
      obtain ⟨⟨n, hinv⟩, ht⟩ := Reaches.timed _ _ _ _ _ h₁
      intro ex hex
      cases htcp : ex.isTcp with
      | false => rfl
      | true =>
        rcases (timed_step hinv ht h₂).2 ex hex htcp with hadm | ⟨ex', hex', htcp'⟩
        · exact absurd hadm (hno k s₁ e h₁ he)
        · exact absurd ((ih h₁ ex' hex').symm.trans htcp') (by simp)

/-- In every state that is reached, the exchanges with a deadline are those that have asked the
upstream. All have one in all states of a run exactly if no step admits a client over TCP. -/
theorem run_deadlines_iff :
    (∀ k s, Reaches maxConcurrent maxIdleConns disableFakePtr disableDropAaaa evs k s →
      ∀ ex ∈ s.live, HasDeadline s ex ↔ ¬ ex.Unasked) ∧
    ((∀ k s, Reaches maxConcurrent maxIdleConns disableFakePtr disableDropAaaa evs k s →
      ∀ ex ∈ s.live, HasDeadline s ex) ↔
    ∀ k s e, Reaches maxConcurrent maxIdleConns disableFakePtr disableDropAaaa evs k s →
      evs[k]? = some e → ¬ Admits s e) := by
  have hiff : ∀ k s, Reaches maxConcurrent maxIdleConns disableFakePtr disableDropAaaa evs k s →
      ∀ ex ∈ s.live, HasDeadline s ex ↔ ¬ ex.Unasked := by
    intro k s hk ex hex
    obtain ⟨⟨n, hinv⟩, ht⟩ := Reaches.timed _ _ _ _ _ hk
    exact hasDeadline_iff hinv hex (ht ex hex)
  refine ⟨hiff, fun hall k s e hk he hadm => ?_, fun hno k s hk ex hex => ?_⟩
  · -- the client that was let in is live and has no timer
    obtain ⟨⟨n, hinv⟩, -⟩ := Reaches.timed _ _ _ _ _ hk
    cases e with
    | accept env =>
      obtain ⟨ex, hex⟩ := Option.isSome_iff_exists.mp ((onTcpAccept_isSome hinv env).mpr hadm)
      have hstep : step s (.accept env) = some (.after (onTcpAccept s.proxy env) s.live) := rfl
      have hmem : ex ∈ (State.after (onTcpAccept s.proxy env) s.live).live :=
        List.mem_append_left _ (Option.mem_toList.mpr hex)
      obtain ⟨t, ht, -⟩ := hall (k + 1) _ (reaches_succ _ _ _ _ _ hk he hstep) ex hmem
      exact absurd (ht.symm.trans (onTcpAccept_timed ex hex).1) (by simp)
    | _ => exact hadm
  · refine (hiff k s hk ex hex).mpr fun hun => ?_
    exact absurd ((reaches_udp _ _ _ _ _ hno hk ex hex).symm.trans hun.1) (by simp)

end

/-- A client connects and sends nothing: no timer will ever drop it. -/
theorem accept_no_deadline :
    ∃ s ex, run (create 10 1 false false) [.accept allWell] = some s ∧ s.live = [ex] ∧
      s.proxy.inflight = 1 ∧ ex.timer = none ∧ step s (.timeout ex.id) = none :=
  ⟨_, _, rfl, rfl, rfl, rfl, rfl⟩

end MagiTrickle.Dns.Transport
