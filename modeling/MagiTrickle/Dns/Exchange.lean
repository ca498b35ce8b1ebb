import MagiTrickle.Platform.LoopSafe

/-!
# UDP exchanges on the event loop (`dns/proxy.c`)

An exchange of the DNS proxy registers its upstream socket and its deadline
timer. The callback of either ends the exchange and takes both registrations
away, so the two are a hazard when they are ready in one wake-up. Registrations
of other exchanges stay, so wake-ups with one event of each exchange are safe.
-/

namespace MagiTrickle.Dns

open MagiTrickle.Platform

inductive ExchangeCb where
  | onUpstream | onTimeout
  deriving DecidableEq, Repr

/-- A callback with its user data, the address of the exchange. -/
structure Ctx where
  cb : ExchangeCb
  ex : Nat
  deriving DecidableEq, Repr

/-- The fields of `exchange_t` that its teardown reads; the timer id is 0 when there is none. -/
structure Exchange where
  upstreamFd : Option Nat
  timerId : Nat
  clientFd : Option Nat
  deriving DecidableEq, Repr

/-- The live exchanges, and whether the next `recv` finds nothing to read. -/
structure Exchanges where
  live : List (Nat × Exchange)
  again : Bool
  deriving DecidableEq, Repr

/-- The calls of `exchange_finish` on the loop. -/
def finishOps (ex : Exchange) : List (LoopOp Ctx) :=
  (if ex.timerId > 0 then [.delTimer ex.timerId] else []) ++
    ex.upstreamFd.toList.map (.delFd · (.ok ())) ++ ex.clientFd.toList.map (.delFd · (.ok ()))

/-- `exchange_finish`: the registrations go and the exchange is freed. -/
def exchangeFinish (key : Nat) (ex : Exchange) (p : Exchanges) : List (LoopOp Ctx) × Exchanges :=
  (finishOps ex, { p with live := p.live.filter fun x => x.1 ≠ key })

/-- `on_timeout`: the timer that fired is not removed. -/
def onTimeout (key : Nat) (ex : Exchange) (p : Exchanges) : List (LoopOp Ctx) × Exchanges :=
  exchangeFinish key { ex with timerId := 0 } p

/-- `EPOLLERR | EPOLLHUP`. -/
def hasError (events : Nat) : Bool := events / 8 % 4 ≠ 0

/-- `on_upstream` for UDP: any datagram ends the exchange, as an error does. -/
def onUpstream (key : Nat) (ex : Exchange) (events : Nat) (p : Exchanges) :
    List (LoopOp Ctx) × Exchanges :=
  if hasError events then exchangeFinish key ex p
  else if p.again then ([], p)
  else exchangeFinish key ex p

def exchangeCallbacks : Callbacks Ctx Exchanges where
  run w events _ p :=
    match p.live.find? fun x => x.1 = w.cb.ex with
    | none => ([], p)
    | some (key, ex) =>
      match w.cb.cb with
      | .onUpstream => onUpstream key ex events p
      | .onTimeout => onTimeout key ex p
  posts _ p := ([], p)

/-- The registrations that `start_upstream` makes for a UDP exchange, and the exchange with its
timer id. -/
def startUpstream (l : Loop Ctx) (key fd tfd : Nat) : Loop Ctx × Exchange :=
  let l' := (l.addFd fd 1 ⟨.onUpstream, key⟩ (.ok ())).1
  let r := l'.addTimer (.ok tfd) ⟨.onTimeout, key⟩ (.ok ())
  (r.1, ⟨some fd, (r.2.toOption.getD 0), none⟩)

/-- The program with one exchange waiting for its answer. -/
def oneExchange : Prog Ctx Exchanges :=
  let r := startUpstream Loop.create 0 7 8
  ⟨r.1, ⟨[(0, r.2)], false⟩⟩

def allReady (_ : Nat) (s : Prog Ctx Exchanges) : List Event :=
  s.loop.watches.map fun w => ⟨some w.ptr, 1⟩

theorem collected_allReady (k : Nat) (s : Prog Ctx Exchanges) : Collected s (allReady k s) := by
  intro e he p hp
  obtain ⟨w, hw, rfl⟩ := List.mem_map.mp he
  exact ⟨w, hw, Option.some.inj hp⟩

/-- The deadline ends the exchange, and the loop goes on to the freed watch of its socket. -/
theorem loopRun_uses_freed_watch :
    (∀ k s, Collected s (allReady k s)) ∧
      loopRun exchangeCallbacks allReady 1 oneExchange = .error ⟨0⟩ :=
  ⟨collected_allReady, rfl⟩

/-! ## Exchanges leave each other alone -/

/-- A callback may remove the watches of its own exchange. -/
def SameExchange : Option Ctx → Ctx → Prop
  | none, _ => False
  | some c, c' => c.ex = c'.ex

instance : ∀ o c, Decidable (SameExchange o c)
  | none, _ => inferInstanceAs (Decidable False)
  | some c, c' => inferInstanceAs (Decidable (c.ex = c'.ex))

/-- The descriptors and the timer of a live exchange are watched for it alone. -/
def Owned (s : Prog Ctx Exchanges) : Prop :=
  ∀ x ∈ s.rest.live, ∀ w ∈ s.loop.watches, ∀ op ∈ finishOps x.2, op.names w → w.cb.ex = x.1

instance (s : Prog Ctx Exchanges) : Decidable (Owned s) :=
  inferInstanceAs (Decidable (∀ x ∈ s.rest.live, _))

theorem Owned.mono {s s' : Prog Ctx Exchanges} (h : Owned s)
    (hlive : ∀ x ∈ s'.rest.live, x ∈ s.rest.live)
    (hwatch : ∀ w ∈ s'.loop.watches, w ∈ s.loop.watches) : Owned s' :=
  fun x hx w hw => h x (hlive x hx) w (hwatch w hw)

/-- `exchange_finish` only takes watches away. -/
theorem mem_of_mem_foldl_finishOps {l : Loop Ctx} {ops : List (LoopOp Ctx)}
    (hops : ∀ op ∈ ops, (∃ id, op = .delTimer id) ∨ ∃ fd, op = .delFd fd (.ok ())) {w : Watch Ctx}
    (hw : w ∈ (ops.foldl LoopOp.apply l).watches) : w ∈ l.watches := by
  induction ops generalizing l with
  | nil => exact hw
  | cons op ops ih =>
    obtain ⟨hop, hops⟩ := List.forall_mem_cons.mp hops
    have hw := ih hops hw
    rcases hop with ⟨id, rfl⟩ | ⟨fd, rfl⟩
    · simp only [LoopOp.apply, Loop.delTimer] at hw
      split at hw
      · exact List.mem_of_mem_eraseP hw
      · exact hw
    · simp only [LoopOp.apply, Loop.delFd] at hw
      split at hw
      · exact List.mem_of_mem_eraseP hw
      · exact hw

theorem finishOps_del {ex : Exchange} :
    ∀ op ∈ finishOps ex, (∃ id, op = .delTimer id) ∨ ∃ fd, op = .delFd fd (.ok ()) := by
  intro op hop
  unfold finishOps at hop
  rcases List.mem_append.mp hop with hop | hop
  · rcases List.mem_append.mp hop with hop | hop
    · split at hop
      · exact .inl ⟨_, List.mem_singleton.mp hop⟩
      · exact absurd hop List.not_mem_nil
    · obtain ⟨fd, -, rfl⟩ := List.mem_map.mp hop
      exact .inr ⟨fd, rfl⟩
  · obtain ⟨fd, -, rfl⟩ := List.mem_map.mp hop
    exact .inr ⟨fd, rfl⟩

/-- `on_timeout` makes calls of `exchange_finish`. -/
theorem finishOps_timeout {ex : Exchange} :
    ∀ op ∈ finishOps { ex with timerId := 0 }, op ∈ finishOps ex := by
  intro op hop
  unfold finishOps at hop ⊢
  rw [List.append_assoc] at hop ⊢
  exact List.mem_append_right _ hop

/-- What the callbacks do: nothing, or calls of `exchange_finish` for their own exchange. -/
theorem run_exchangeCallbacks (s : Prog Ctx Exchanges) (w : Watch Ctx) (events : Nat) :
    exchangeCallbacks.run w events s.loop s.rest = ([], s.rest) ∨
      ∃ ex rest, (w.cb.ex, ex) ∈ s.rest.live ∧ (∀ x ∈ rest.live, x ∈ s.rest.live) ∧
        ∃ ops, (∀ op ∈ ops, op ∈ finishOps ex) ∧
          exchangeCallbacks.run w events s.loop s.rest = (ops, rest) := by
  have hless : ∀ key, ∀ x ∈ s.rest.live.filter (fun x => x.1 ≠ key), x ∈ s.rest.live :=
    fun _ x hx => (List.mem_filter.mp hx).1
  simp only [exchangeCallbacks]
  cases hfind : s.rest.live.find? fun x => x.1 = w.cb.ex with
  | none => exact .inl rfl
  | some x =>
    obtain ⟨key, ex⟩ := x
    have hmem := List.mem_of_find?_eq_some hfind
    have hkey : key = w.cb.ex := by simpa using List.find?_some hfind
    subst hkey
    cases hcb : w.cb.cb with
    | onTimeout => exact .inr ⟨ex, _, hmem, hless _, _, finishOps_timeout, rfl⟩
    | onUpstream =>
      dsimp only [onUpstream]
      split
      · exact .inr ⟨ex, _, hmem, hless _, _, fun _ h => h, rfl⟩
      · split
        · exact .inl rfl
        · exact .inr ⟨ex, _, hmem, hless _, _, fun _ h => h, rfl⟩

theorem disciplined_exchangeCallbacks : Disciplined exchangeCallbacks SameExchange Owned where
  run s w events hs hw := by
    rcases run_exchangeCallbacks s w events with
      hrun | ⟨ex, rest, hmem, hless, ops, hops, hrun⟩
    · rw [hrun]
      exact ⟨hs, fun w' hw' hno => absurd ⟨w', hw', rfl⟩ hno⟩
    · rw [hrun]
      have hdel := fun op hop => finishOps_del op (hops op hop)
      refine ⟨hs.mono hless fun w' hw' => mem_of_mem_foldl_finishOps hdel hw', fun w' hw' hno => ?_⟩
      by_contra hother
      -- a watch that is not the exchange's is named by none of the calls
      obtain ⟨events', hstays⟩ := LoopOp.mem_foldl hw' fun op hop hnames =>
        hother (hs _ hmem w' hw' op (hops op hop) hnames).symm
      exact hno ⟨_, hstays, rfl⟩
  posts s hs := ⟨hs, fun w' hw' hno => absurd ⟨w', hw', rfl⟩ hno⟩

/-- **Wake-ups with at most one event of each exchange** are safe, for any number of exchanges. -/
theorem exchanges_safe {wait : Nat → Prog Ctx Exchanges → List Event}
    (hc : ∀ k s, Collected s (wait k s)) {s : Prog Ctx Exchanges} (hs : Owned s)
    (hone : ∀ k s', loopRun exchangeCallbacks wait k s = .ok s' →
      Apart SameExchange s' (wait k s')) (n : Nat) :
    ∃ s', loopRun exchangeCallbacks wait n s = .ok s' :=
  disciplined_exchangeCallbacks.safe hc hs hone n

def twoExchanges : Prog Ctx Exchanges :=
  let r := startUpstream Loop.create 0 7 8
  let r' := startUpstream r.1 1 9 10
  ⟨r'.1, ⟨[(0, r.2), (1, r'.2)], false⟩⟩

/-- First a posted callback, an answer for one exchange and the deadline of the other, then
nothing. -/
def oneOfEach (k : Nat) (s : Prog Ctx Exchanges) : List Event :=
  if k = 0 then ⟨none, 1⟩ :: (s.loop.watches.filter fun w =>
    w.cb = ⟨.onUpstream, 0⟩ ∨ w.cb = ⟨.onTimeout, 1⟩).map fun w => ⟨some w.ptr, 1⟩
  else []

theorem collected_oneOfEach (k : Nat) (s : Prog Ctx Exchanges) : Collected s (oneOfEach k s) := by
  intro e he p hp
  unfold oneOfEach at he
  split at he
  · rcases List.mem_cons.mp he with rfl | he
    · cases hp
    · obtain ⟨w, hw, rfl⟩ := List.mem_map.mp he
      exact ⟨w, (List.mem_filter.mp hw).1, Option.some.inj hp⟩
  · exact absurd he List.not_mem_nil

/-- The batch ends both exchanges. -/
theorem loopRun_ok_twoExchanges :
    (oneOfEach 0 twoExchanges).length = 3 ∧
      (∃ s', loopRun exchangeCallbacks oneOfEach 1 twoExchanges = .ok s' ∧ s'.rest.live = []) ∧
      ∀ n, ∃ s', loopRun exchangeCallbacks oneOfEach n twoExchanges = .ok s' ∧ Owned s' := by
  refine ⟨by decide, ⟨_, rfl, rfl⟩, loopRun_ok disciplined_exchangeCallbacks collected_oneOfEach
    (by decide) fun k s' hrun => ?_⟩
  cases k with
  | zero =>
    cases hrun
    decide
  | succ k => exact .nil

end MagiTrickle.Dns
