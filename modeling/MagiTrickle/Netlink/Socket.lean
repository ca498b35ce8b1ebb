import MagiTrickle.Netlink.Wire

/-!
# Requests and answers

`nl_execute` of `netlink/rtnl.c` and of `netfilter/ipset_nl_real.c`: a request
goes out, and datagrams are received up to a message that ends the answer. What
it leaves in the socket is read as the answer to the next request, so a request
has to ask for no more than `nl_execute` reads; `synced_iff` says which do.
-/

namespace MagiTrickle.Netlink

def nlmsgError : Nat := 2
def nlmsgDone : Nat := 3

def nlmRequest : Nat := 0x1
def nlmAck : Nat := 0x4
def nlmRoot : Nat := 0x100
def nlmMatch : Nat := 0x200
def nlmExcl : Nat := 0x200
def nlmCreate : Nat := 0x400
def nlmDump : Nat := nlmRoot ||| nlmMatch

/-! ## Receiving -/

/-- `e->error < 0 ? -e->error : e->error` of the `int` with these bits. -/
def magnitude (n : Nat) : Nat := if n < 2 ^ 31 then n else 2 ^ 32 - n

def errorCode (e : Endian) (buf : Bytes) : Option Nat :=
  (readField buf 16 4).map fun field => magnitude (e.nat field)

/-- The loop over the messages of a datagram, in which `len` bytes are left: the state of the
callback, and the code if the answer ends there. A length from `2 ^ 31` on, which
`mnl_nlmsg_ok` takes for a negative one, has no result. -/
def walk {σ : Type} (e : Endian) (cb : σ → Bytes → Option σ) :
    Nat → Bytes → Nat → σ → Option (σ × Option Nat)
  | 0, _, _, _ => none
  | fuel + 1, buf, len, s =>
    if len < 16 then some (s, none)
    else do
      let msgLen ← nlmsgLen e buf
      if 2 ^ 31 ≤ msgLen then none
      else if msgLen < 16 ∨ msgLen > len then return (s, none)
      else
        let type ← nlmsgType e buf
        if type = nlmsgError then
          let code ← errorCode e buf
          return (s, some code)
        else if type = nlmsgDone then return (s, some 0)
        else
          let s ← cb s buf
          walk e cb fuel (buf.drop (alignLen msgLen)) (len - alignLen msgLen) s

/-- `nl_execute` behind the sending call, from what `mnl_socket_recvfrom` gives: the code, the
state of the callback and what is still to be received. It waits where there is nothing. -/
def nlExecute {σ : Type} (e : Endian) (cb : σ → Bytes → Option σ) (dump : Bool) :
    List (Except Err Bytes) → σ → Option (Except Err Nat × σ × List (Except Err Bytes))
  | [], _ => none
  | .error err :: rest, s => some (.error err, s, rest)
  | .ok buf :: rest, s =>
    if buf = [] then some (.ok 0, s, rest)
    else
      match walk e cb (buf.length + 1) buf buf.length s with
      | none => none
      | some (s, some code) => some (.ok code, s, rest)
      | some (s, none) => if dump then nlExecute e cb dump rest s else some (.ok 0, s, rest)

/-! ## What the kernel sends -/

structure Plain (e : Endian) (m : WireMsg) : Prop where
  fits : m.Fits e
  aligned : 4 ∣ m.length e
  notError : m.type ≠ nlmsgError
  notDone : m.type ≠ nlmsgDone

structure ErrorMsg (e : Endian) (m : WireMsg) (code : Nat) : Prop where
  fits : m.Fits e
  type : m.type = nlmsgError
  error : ∃ n back, n < 2 ^ 32 ∧ m.header = e.bytes 4 n ++ back ∧ magnitude n = code

def datagram (e : Endian) (ms : List WireMsg) : Bytes := ms.flatMap (WireMsg.bytes e)

/-- The datagrams of a dump, its messages, its code, and what is still to be received where a
receive failed. -/
inductive Dumped (e : Endian) : List (Except Err Bytes) → List WireMsg → Except Err Nat →
    List (Except Err Bytes) → Prop where
  | lost (err : Err) (left : List (Except Err Bytes)) :
      Dumped e (.error err :: left) [] (.error err) left
  | done {ms : List WireMsg} {m : WireMsg} {trail : Bytes} (hms : ∀ m ∈ ms, Plain e m)
      (hfits : m.Fits e) (htype : m.type = nlmsgDone) :
      Dumped e [.ok (datagram e ms ++ (m.bytes e ++ trail))] ms (.ok 0) []
  | failed {ms : List WireMsg} {m : WireMsg} {trail : Bytes} {code : Nat}
      (hms : ∀ m ∈ ms, Plain e m) (herror : ErrorMsg e m code) :
      Dumped e [.ok (datagram e ms ++ (m.bytes e ++ trail))] ms (.ok code) []
  | more {ms ms' : List WireMsg} {answers left : List (Except Err Bytes)} {code : Except Err Nat}
      (hne : ms ≠ []) (hms : ∀ m ∈ ms, Plain e m) (h : Dumped e answers ms' code left) :
      Dumped e (.ok (datagram e ms) :: answers) (ms ++ ms') code left

/-- A request, but for its sequence number. -/
structure Request where
  type : Nat
  flags : Nat
  header : Bytes
  attrs : List WireAttr
  deriving DecidableEq, Repr

def Request.msg (req : Request) (seq : UInt32) : WireMsg :=
  ⟨req.type, req.flags, seq.toNat, 0, req.header, req.attrs⟩

/-- The test of `nl_execute` for a dump; `NLM_F_EXCL` is one of the bits. -/
def Request.dumps (req : Request) : Bool := req.flags &&& nlmDump ≠ 0

def Request.acked (req : Request) : Bool := req.flags &&& nlmAck ≠ 0

/-- What the kernel sends for a request, where `gets` are the types that ask for objects. Only for
these are there dumps; otherwise an error goes by itself, and an acknowledgement that was asked
for behind the object. A receive that fails takes nothing of it away. -/
inductive Answered (e : Endian) (gets : Nat → Bool) (req : Request) :
    List (Except Err Bytes) → List WireMsg → Except Err Nat → List (Except Err Bytes) → Prop where
  | lost (err : Err) (left : List (Except Err Bytes)) :
      Answered e gets req (.error err :: left) [] (.error err) left
  | dumped {answers left : List (Except Err Bytes)} {ms : List WireMsg} {code : Except Err Nat}
      (hget : gets req.type) (hdump : req.dumps) (h : Dumped e answers ms code left) :
      Answered e gets req answers ms code left
  | refused {m : WireMsg} {trail : Bytes} {code : Nat} (h : ErrorMsg e m code) :
      Answered e gets req [.ok (m.bytes e ++ trail)] [] (.ok code) []
  | done {m : WireMsg} {trail : Bytes} (hset : ¬gets req.type) (hack : req.acked)
      (h : ErrorMsg e m 0) : Answered e gets req [.ok (m.bytes e ++ trail)] [] (.ok 0) []
  | silent (hset : ¬gets req.type) (hack : ¬req.acked) : Answered e gets req [] [] (.ok 0) []
  | got {m : WireMsg} (hget : gets req.type) (hdump : ¬req.dumps) (hack : ¬req.acked)
      (hm : Plain e m) : Answered e gets req [.ok (m.bytes e)] [m] (.ok 0) []
  | gotAcked {m ack : WireMsg} {trail : Bytes} (hget : gets req.type) (hdump : ¬req.dumps)
      (hack : req.acked) (hm : Plain e m) (h : ErrorMsg e ack 0) :
      Answered e gets req [.ok (m.bytes e), .ok (ack.bytes e ++ trail)] [m] (.ok 0) []

/-- A request for objects wants a dump or no acknowledgement, any other one an acknowledgement. -/
def Request.Synced (gets : Nat → Bool) (req : Request) : Prop :=
  (gets req.type → req.dumps ∨ ¬req.acked) ∧ (¬gets req.type → req.acked)

/-! ## Datagrams -/

section Datagrams

variable {σ : Type} {e : Endian} {cb : σ → Bytes → Option σ} {g : σ → WireMsg → σ}

theorem alignLen_of_dvd {n : Nat} (h : 4 ∣ n) (hlt : n < 2 ^ 31) : alignLen n = n := by
  rw [alignLen_eq (by omega)]
  omega

theorem le_length (e : Endian) (m : WireMsg) : 16 ≤ m.length e := by
  unfold WireMsg.length
  omega

theorem length_append_msg (e : Endian) (m : WireMsg) (rest : Bytes) :
    (m.bytes e ++ rest).length = m.length e + rest.length := by
  rw [List.length_append, length_msgBytes]

theorem walk_cons {m : WireMsg} (hm : Plain e m)
    (hcb : ∀ s rest, cb s (m.bytes e ++ rest) = some (g s m)) (rest : Bytes) (fuel : Nat) (s : σ) :
    walk e cb (fuel + 1) (m.bytes e ++ rest) (m.bytes e ++ rest).length s =
      walk e cb fuel rest rest.length (g s m) := by
  have h16 := le_length e m
  have hfits := hm.fits.length
  rw [length_append_msg, walk, if_neg (by omega), nlmsgLen_bytes hm.fits, nlmsgType_bytes hm.fits,
    hcb]
  dsimp only [bind, Option.bind]
  rw [if_neg (by omega), if_neg (by omega), if_neg hm.notError, if_neg hm.notDone,
    alignLen_of_dvd hm.aligned hfits, Nat.add_sub_cancel_left, ← length_msgBytes, List.drop_left]

theorem datagram_cons (m : WireMsg) (ms : List WireMsg) (rest : Bytes) :
    datagram e (m :: ms) ++ rest = m.bytes e ++ (datagram e ms ++ rest) := by
  rw [datagram, List.flatMap_cons, List.append_assoc]
  rfl

theorem walk_messages {ms : List WireMsg} (hms : ∀ m ∈ ms, Plain e m)
    (hcb : ∀ m ∈ ms, ∀ s rest, cb s (m.bytes e ++ rest) = some (g s m)) (rest : Bytes)
    (fuel : Nat) (s : σ) :
    walk e cb (ms.length + fuel) (datagram e ms ++ rest) (datagram e ms ++ rest).length s =
      walk e cb fuel rest rest.length (ms.foldl g s) := by
  induction ms generalizing s with
  | nil =>
    rw [List.length_nil, Nat.zero_add]
    rfl
  | cons m ms ih =>
    have hstep := walk_cons (hms m List.mem_cons_self) (hcb m List.mem_cons_self)
      (datagram e ms ++ rest) (ms.length + fuel) s
    rw [datagram_cons, List.length_cons, Nat.add_right_comm, hstep]
    exact ih (fun m hm => hms m (List.mem_cons_of_mem _ hm))
      (fun m hm => hcb m (List.mem_cons_of_mem _ hm)) _

theorem length_datagram {ms : List WireMsg} : ms.length ≤ (datagram e ms).length := by
  induction ms with
  | nil => exact Nat.le_refl 0
  | cons m ms ih =>
    have h16 := le_length e m
    have hall := congrArg List.length (datagram_cons (e := e) m ms [])
    rw [List.append_nil, List.append_nil, List.length_append, length_msgBytes] at hall
    rw [List.length_cons, hall]
    omega

/-- The message ends the answer with the code. -/
def Ends (e : Endian) (m : WireMsg) (code : Nat) : Prop :=
  m.Fits e ∧ (m.type = nlmsgDone ∧ code = 0 ∨ ErrorMsg e m code)

theorem errorCode_bytes {m : WireMsg} {code : Nat} (h : ErrorMsg e m code) (rest : Bytes) :
    errorCode e (m.bytes e ++ rest) = some code := by
  obtain ⟨n, back, hn, hheader, hcode⟩ := h.error
  have hread := @readField_header e m [] (e.bytes 4 n) back 4 hheader (length_bytes ..) rest
  rw [List.length_nil, Nat.add_zero] at hread
  rw [errorCode, hread, Option.map_some, nat_bytes e (by omega), hcode]

theorem walk_end {m : WireMsg} {code : Nat} (h : Ends e m code) (rest : Bytes) (fuel : Nat)
    (s : σ) : walk e cb (fuel + 1) (m.bytes e ++ rest) (m.bytes e ++ rest).length s =
      some (s, some code) := by
  obtain ⟨hfits, hend⟩ := h
  have h16 := le_length e m
  have hlt := hfits.length
  rw [length_append_msg, walk, if_neg (by omega), nlmsgLen_bytes hfits, nlmsgType_bytes hfits]
  dsimp only [bind, Option.bind]
  rw [if_neg (by omega), if_neg (by omega)]
  rcases hend with ⟨htype, rfl⟩ | herror
  · rw [htype, if_neg (by decide), if_pos rfl]
    rfl
  · rw [herror.type, if_pos rfl, errorCode_bytes herror]
    rfl

theorem nlExecute_end {ms : List WireMsg} {m : WireMsg} {code : Nat} {dump : Bool}
    (hms : ∀ m ∈ ms, Plain e m)
    (hcb : ∀ m ∈ ms, ∀ s rest, cb s (m.bytes e ++ rest) = some (g s m)) (h : Ends e m code)
    (trail : Bytes) (later : List (Except Err Bytes)) (s : σ) :
    nlExecute e cb dump (.ok (datagram e ms ++ (m.bytes e ++ trail)) :: later) s =
      some (.ok code, ms.foldl g s, later) := by
  have hcount := @length_datagram e ms
  have h16 := le_length e m
  have hlen := length_append_msg e m trail
  have hall : (datagram e ms ++ (m.bytes e ++ trail)).length =
      (datagram e ms).length + (m.bytes e ++ trail).length := List.length_append
  have hne : datagram e ms ++ (m.bytes e ++ trail) ≠ [] := by
    intro hnil
    rw [hnil, List.length_nil] at hall
    omega
  have hfuel : (datagram e ms ++ (m.bytes e ++ trail)).length + 1 = ms.length +
      ((datagram e ms ++ (m.bytes e ++ trail)).length - ms.length + 1) := by
    omega
  have hwalk := walk_messages hms hcb (m.bytes e ++ trail)
    ((datagram e ms ++ (m.bytes e ++ trail)).length - ms.length + 1) s
  rw [← hfuel, walk_end h] at hwalk
  rw [nlExecute, if_neg hne, hwalk]

theorem nlExecute_messages {ms : List WireMsg} {dump : Bool} (hne : ms ≠ [])
    (hms : ∀ m ∈ ms, Plain e m)
    (hcb : ∀ m ∈ ms, ∀ s rest, cb s (m.bytes e ++ rest) = some (g s m))
    (later : List (Except Err Bytes)) (s : σ) :
    nlExecute e cb dump (.ok (datagram e ms) :: later) s =
      if dump then nlExecute e cb dump later (ms.foldl g s)
      else some (.ok 0, ms.foldl g s, later) := by
  have hcount := @length_datagram e ms
  have hnil : datagram e ms ≠ [] := by
    intro hnil
    rw [hnil, List.length_nil] at hcount
    exact hne (List.length_eq_zero_iff.mp (Nat.le_zero.mp hcount))
  have hfuel : (datagram e ms).length + 1 =
      ms.length + ((datagram e ms).length - ms.length + 1) := by
    omega
  have hwalk := walk_messages hms hcb [] ((datagram e ms).length - ms.length + 1) s
  have hend : walk e cb ((datagram e ms).length - ms.length + 1) [] ([] : Bytes).length
      (ms.foldl g s) = some (ms.foldl g s, none) := by
    rw [walk, if_pos (by decide)]
  rw [← hfuel, List.append_nil, hend] at hwalk
  rw [nlExecute, if_neg hnil, hwalk]

/-- A dump hands each of its messages to the callback, however they are cut into datagrams. -/
theorem nlExecute_dumped {answers left : List (Except Err Bytes)} {ms : List WireMsg}
    {code : Except Err Nat} (h : Dumped e answers ms code left)
    (hcb : ∀ m ∈ ms, ∀ s rest, cb s (m.bytes e ++ rest) = some (g s m))
    (later : List (Except Err Bytes)) (s : σ) :
    nlExecute e cb true (answers ++ later) s = some (code, ms.foldl g s, left ++ later) := by
  induction h generalizing s with
  | lost err left => rfl
  | done hms hfits htype => exact nlExecute_end hms hcb ⟨hfits, .inl ⟨htype, rfl⟩⟩ _ later s
  | failed hms herror => exact nlExecute_end hms hcb ⟨herror.fits, .inr herror⟩ _ later s
  | more hne hms h ih =>
    rw [List.cons_append, nlExecute_messages hne hms
      (fun m hm => hcb m (List.mem_append_left _ hm)), if_pos rfl, List.foldl_append]
    exact ih (fun m hm => hcb m (List.mem_append_right _ hm)) _

theorem Dumped.plain {answers left : List (Except Err Bytes)} {ms : List WireMsg}
    {code : Except Err Nat} (h : Dumped e answers ms code left) : ∀ m ∈ ms, Plain e m := by
  induction h with
  | lost err left => exact fun m hm => absurd hm List.not_mem_nil
  | done hms => exact hms
  | failed hms => exact hms
  | more hne hms h ih =>
    intro m hm
    rcases List.mem_append.mp hm with hm | hm
    · exact hms m hm
    · exact ih m hm

theorem Answered.plain {gets : Nat → Bool} {req : Request} {answers left : List (Except Err Bytes)}
    {ms : List WireMsg} {code : Except Err Nat} (h : Answered e gets req answers ms code left) :
    ∀ m ∈ ms, Plain e m := by
  cases h with
  | dumped hget hdump h => exact h.plain
  | got hget hdump hack hm => exact List.forall_mem_singleton.mpr hm
  | gotAcked hget hdump hack hm => exact List.forall_mem_singleton.mpr hm
  | _ => exact fun m hm => absurd hm List.not_mem_nil

/-- The whole answer to a request is read up to a receive that fails, and nothing else. -/
theorem nlExecute_answered {gets : Nat → Bool} {req : Request} (hsynced : req.Synced gets)
    {answers left : List (Except Err Bytes)} {ms : List WireMsg} {code : Except Err Nat}
    (h : Answered e gets req answers ms code left)
    (hcb : ∀ m ∈ ms, ∀ s rest, cb s (m.bytes e ++ rest) = some (g s m))
    (later : List (Except Err Bytes)) (s : σ) :
    nlExecute e cb req.dumps (answers ++ later) s = some (code, ms.foldl g s, left ++ later) := by
  have hnone : ∀ m ∈ ([] : List WireMsg), Plain e m := fun m hm => absurd hm List.not_mem_nil
  cases h with
  | lost err left => rfl
  | dumped hget hdump h =>
    rw [hdump]
    exact nlExecute_dumped h hcb later s
  | @refused m trail code h => exact nlExecute_end hnone hcb ⟨h.fits, .inr h⟩ trail later s
  | @done m trail hset hack h => exact nlExecute_end hnone hcb ⟨h.fits, .inr h⟩ trail later s
  | silent hset hack => exact absurd (hsynced.2 hset) hack
  | @got m hget hdump hack hm =>
    have hone : m.bytes e = datagram e [m] := by
      rw [datagram, List.flatMap_singleton]
    rw [hone, List.singleton_append, nlExecute_messages (List.cons_ne_nil _ _)
      (List.forall_mem_singleton.mpr hm) hcb, if_neg hdump, List.nil_append]
  | gotAcked hget hdump hack hm h =>
    rcases hsynced.1 hget with h | h
    · exact absurd h hdump
    · exact absurd hack h

end Datagrams

def ackMsg : WireMsg := ⟨nlmsgError, 0, 0, 0, [0, 0, 0, 0], []⟩
def doneMsg : WireMsg := ⟨nlmsgDone, 2, 0, 0, [0, 0, 0, 0], []⟩
def objectMsg : WireMsg := ⟨0x10, 0, 0, 0, [], []⟩

theorem errorMsg_ackMsg (e : Endian) : ErrorMsg e ackMsg 0 := by
  have hlen : ackMsg.length e = 20 := rfl
  refine ⟨⟨hlen ▸ by decide, by decide, by decide, ?_⟩, rfl, 0, [], by decide, ?_, by decide⟩
  · exact fun a ha => absurd ha List.not_mem_nil
  · cases e <;> decide

theorem fits_doneMsg (e : Endian) : doneMsg.Fits e :=
  ⟨by cases e <;> decide, by decide, by decide, fun a ha => absurd ha List.not_mem_nil⟩

theorem plain_objectMsg (e : Endian) : Plain e objectMsg := by
  have hlen : objectMsg.length e = 16 := rfl
  refine ⟨⟨hlen ▸ by decide, by decide, by decide, ?_⟩, hlen ▸ by decide, by decide, by decide⟩
  exact fun a ha => absurd ha List.not_mem_nil

theorem nlExecute_gotAcked {req : Request} (hdump : ¬req.dumps) {m : WireMsg} (hm : Plain e m)
    (ack : Bytes) (later : List (Except Err Bytes)) :
    nlExecute e (fun (s : Unit) _ => some s) req.dumps (.ok (m.bytes e) :: .ok ack :: later) () =
      some (.ok 0, (), .ok ack :: later) := by
  have hone : m.bytes e = datagram e [m] := by
    rw [datagram, List.flatMap_singleton]
  rw [hone, nlExecute_messages (g := fun s _ => s) (List.cons_ne_nil _ _)
    (List.forall_mem_singleton.mpr hm) (fun _ _ _ _ => rfl), if_neg hdump]

/-- The requests whose answers are read exactly, whatever they are, up to a receive that fails. An
object that is asked for with an acknowledgement is read without it. -/
theorem synced_iff (e : Endian) (gets : Nat → Bool) (req : Request) :
    (req.Synced gets ↔ ∀ answers ms code left, Answered e gets req answers ms code left → ∀ later,
      nlExecute e (fun (s : Unit) _ => some s) req.dumps (answers ++ later) () =
        some (code, (), left ++ later)) ∧
    (gets req.type → ¬req.dumps → req.acked → ∀ m ack trail, Plain e m → ErrorMsg e ack 0 →
      Answered e gets req [.ok (m.bytes e), .ok (ack.bytes e ++ trail)] [m] (.ok 0) [] ∧
      ∀ later, nlExecute e (fun (s : Unit) _ => some s) req.dumps
        ([.ok (m.bytes e), .ok (ack.bytes e ++ trail)] ++ later) () =
          some (.ok 0, (), .ok (ack.bytes e ++ trail) :: later)) := by
  refine ⟨⟨fun hsynced answers ms code left h later =>
    nlExecute_answered (g := fun s _ => s) hsynced h (fun _ _ _ _ => rfl) later (), fun hall => ?_⟩,
    fun hget hdump hack m ack trail hm herror =>
      ⟨.gotAcked hget hdump hack hm herror, nlExecute_gotAcked hdump hm _⟩⟩
  constructor
  · intro hget
    by_contra hno
    rw [not_or, not_not] at hno
    have hleft := hall _ _ _ _ (@Answered.gotAcked e gets req objectMsg ackMsg [] hget hno.1 hno.2
      (plain_objectMsg e) (errorMsg_ackMsg e)) []
    rw [List.append_nil, nlExecute_gotAcked hno.1 (plain_objectMsg e)] at hleft
    cases hleft
  · intro hset
    by_contra hack
    cases hall _ _ _ _ (.silent hset hack) []

/-! ## The socket -/

/-- A socket: the last sequence number, and what is still to be received. -/
structure Socket where
  seq : UInt32
  queue : List (Except Err Bytes)

/-- What is sent for a request, with messages of a form that is known. -/
structure Heard (e : Endian) (gets : Nat → Bool) (Shape : WireMsg → Prop) (req : Request) where
  datagrams : List (Except Err Bytes)
  msgs : List WireMsg
  code : Except Err Nat
  left : List (Except Err Bytes)
  answered : Answered e gets req datagrams msgs code left
  shape : ∀ m ∈ msgs, Shape m

/-- The kernel during a call: what it makes of each request, or why the request is not sent. -/
abbrev Kernel (e : Endian) (gets : Nat → Bool) (Shape : WireMsg → Prop) :=
  (req : Request) → Except Err (Heard e gets Shape req)

section Execute

variable {σ : Type} {e : Endian} {gets : Nat → Bool} {Shape : WireMsg → Prop}

/-- `nl_execute` of a request with the next sequence number. -/
def execute (k : Kernel e gets Shape) (r : Socket) (req : Request) (cb : σ → Bytes → Option σ)
    (s : σ) : Option (Except Err Nat × σ × Socket) :=
  match k req with
  | .error err => some (.error err, s, { r with seq := r.seq + 1 })
  | .ok h =>
    (nlExecute e cb req.dumps (r.queue ++ h.datagrams) s).map fun (code, s, queue) =>
      (code, s, ⟨r.seq + 1, queue⟩)

def Kernel.said (k : Kernel e gets Shape) (req : Request) : Except Err Nat × List WireMsg :=
  match k req with
  | .error err => (.error err, [])
  | .ok h => (h.code, h.msgs)

/-- What a failed receive leaves to the next request. -/
def Kernel.left (k : Kernel e gets Shape) (req : Request) : List (Except Err Bytes) :=
  match k req with
  | .error _ => []
  | .ok h => h.left

/-- No receive fails. -/
def Kernel.Received (k : Kernel e gets Shape) : Prop := ∀ req, k.left req = []

theorem Kernel.said_plain (k : Kernel e gets Shape) (req : Request) :
    ∀ m ∈ (k.said req).2, Plain e m ∧ Shape m := by
  unfold Kernel.said
  cases k req with
  | error err => exact fun m hm => absurd hm List.not_mem_nil
  | ok h => exact fun m hm => ⟨h.answered.plain m hm, h.shape m hm⟩

/-- A request on a socket without rests of other answers. -/
theorem execute_said {k : Kernel e gets Shape} {req : Request} (hsynced : req.Synced gets)
    {cb : σ → Bytes → Option σ} {g : σ → WireMsg → σ}
    (hcb : ∀ m ∈ (k.said req).2, Plain e m → Shape m → ∀ s rest,
      cb s (m.bytes e ++ rest) = some (g s m)) (seq : UInt32) (s : σ) :
    execute k ⟨seq, []⟩ req cb s =
      some ((k.said req).1, (k.said req).2.foldl g s, ⟨seq + 1, k.left req⟩) := by
  unfold execute
  unfold Kernel.left
  unfold Kernel.said at hcb ⊢
  cases hreq : k req with
  | error err => rfl
  | ok h =>
    rw [hreq] at hcb
    have hread := nlExecute_answered hsynced h.answered
      (fun m hm => hcb m hm (h.answered.plain m hm) (h.shape m hm)) [] s
    dsimp only
    rw [List.append_nil, List.append_nil] at hread
    rw [List.nil_append, hread]
    rfl

end Execute

/-! ## Codes -/

/-- `mt_err_from_errno`, where `none` is `MT_OK`. -/
def errFromErrno : Nat → Option Err
  | 0 => none
  | 12 => some .nomem
  | 22 => some .inval
  | 11 | 4 => some .again
  | 110 => some .timeout
  | 17 => some .exist
  | 2 | 3 => some .noent
  | 71 | 74 => some .proto
  | 32 | 104 | 5 => some .io
  | _ => some .sys

/-- What a call makes of its code, where some codes are as good as none. -/
def settle (fine : List Nat) : Except Err Nat → Except Err Unit
  | .error err => .error err
  | .ok code =>
    if code = 0 ∨ code ∈ fine then .ok ()
    else
      match errFromErrno code with
      | none => .ok ()
      | some err => .error err

end MagiTrickle.Netlink
