import MagiTrickle.Netlink.NlattrIter

/-!
# Netlink messages as bytes

Attributes and messages as the kernel and libmnl lay them out, and how they are
read back. A reader gets the buffer from a message on, so it could read beyond
the message; a field that is not in the buffer has no value.
-/

namespace MagiTrickle.Netlink

/-! ## Numbers -/

def lowBytes : Nat → Nat → Bytes
  | 0, _ => []
  | size + 1, n => UInt8.ofNat (n % 256) :: lowBytes size (n / 256)

/-- The field of `size` bytes that holds a number. -/
def Endian.bytes : Endian → Nat → Nat → Bytes
  | .little, size, n => lowBytes size n
  | .big, size, n => (lowBytes size n).reverse

theorem length_lowBytes (size n : Nat) : (lowBytes size n).length = size := by
  induction size generalizing n with
  | zero => rfl
  | succ size ih => rw [lowBytes, List.length_cons, ih]

@[simp] theorem length_bytes (e : Endian) (size n : Nat) : (e.bytes size n).length = size := by
  cases e with
  | little => exact length_lowBytes size n
  | big => exact (List.length_reverse).trans (length_lowBytes size n)

theorem nat_lowBytes (size n : Nat) :
    (lowBytes size n).foldr (fun b n => b.toNat + 256 * n) 0 = n % 256 ^ size := by
  induction size generalizing n with
  | zero => rw [Nat.pow_zero, Nat.mod_one]; rfl
  | succ size ih =>
    have hbyte : (UInt8.ofNat (n % 256)).toNat = n % 256 :=
      UInt8.toNat_ofNat_of_lt' (Nat.mod_lt _ (by decide))
    rw [lowBytes, List.foldr_cons, ih, hbyte, Nat.pow_succ', Nat.mod_mul]

theorem nat_bytes (e : Endian) {size n : Nat} (h : n < 256 ^ size) :
    e.nat (e.bytes size n) = n := by
  have hlow := (nat_lowBytes size n).trans (Nat.mod_eq_of_lt h)
  cases e with
  | little => exact hlow
  | big =>
    refine Eq.trans ?_ hlow
    show (lowBytes size n).reverse.foldl _ 0 = _
    rw [List.foldl_reverse]
    simp only [Nat.add_comm]

/-! ## Attributes -/

/-- `NLA_F_NESTED`. -/
def nlaNested : Nat := 0x8000

/-- An attribute: its type with the flags, and its payload. -/
structure WireAttr where
  type : Nat
  payload : Bytes
  deriving DecidableEq, Repr

namespace WireAttr

def Fits (a : WireAttr) : Prop := a.payload.length + 4 < 2 ^ 16 ∧ a.type < 2 ^ 16

instance (a : WireAttr) : Decidable a.Fits := inferInstanceAs (Decidable (_ ∧ _))

def bytes (e : Endian) (a : WireAttr) : Bytes :=
  e.bytes 2 (4 + a.payload.length) ++ e.bytes 2 a.type ++ a.payload

end WireAttr

def padding (n : Nat) : Bytes := List.replicate (alignLen n - n) 0

def rowBytes (e : Endian) (as : List WireAttr) : Bytes :=
  as.flatMap fun a => a.bytes e ++ padding (a.bytes e).length

section Attrs

variable {e : Endian} {a : WireAttr}

theorem length_wireAttr (e : Endian) (a : WireAttr) :
    (a.bytes e).length = 4 + a.payload.length := by
  rw [WireAttr.bytes, List.length_append, List.length_append, length_bytes, length_bytes]

theorem isAttr_bytes (e : Endian) (ha : a.Fits) : IsAttr e (a.bytes e) := by
  have hlen := length_wireAttr e a
  refine ⟨by omega, ?_⟩
  have htake : (a.bytes e).take 2 = e.bytes 2 (4 + a.payload.length) := by
    rw [WireAttr.bytes, List.append_assoc]
    exact List.take_left' (length_bytes ..)
  rw [nlaLen, readField, if_pos (by omega), List.drop_zero, htake, Option.map_some,
    nat_bytes e (by have := ha.1; omega), hlen]

theorem row_rowBytes (e : Endian) {as : List WireAttr} (h : ∀ a ∈ as, a.Fits) :
    Row e (as.map (WireAttr.bytes e)) (rowBytes e as) := by
  induction as with
  | nil => exact .nil
  | cons a as ih =>
    have ha := h a List.mem_cons_self
    have hlen := length_wireAttr e a
    have hle : (a.bytes e).length ≤ alignLen (a.bytes e).length := by
      rw [alignLen_eq (by have := ha.1; omega)]
      omega
    have hpad : (a.bytes e).length + (padding (a.bytes e).length).length =
        alignLen (a.bytes e).length := by
      rw [padding, List.length_replicate]
      omega
    exact .cons (isAttr_bytes e ha) hpad (ih fun a h' => h a (List.mem_cons_of_mem _ h'))

end Attrs

/-! ## Reading attributes -/

/-- `nla_type` of the attribute at an offset. -/
def nlaType (e : Endian) (buf : Bytes) (off : Nat) : Option Nat :=
  (readField buf (off + 2) 2).map e.nat

/-- `mnl_attr_get_type`: the type without its flags. -/
def typeOf (type : Nat) : Nat := type &&& 0x3fff

/-- The flag that `mnl_attr_get_type` hides. -/
def isNested (type : Nat) : Bool := type &&& nlaNested ≠ 0

/-- `mnl_attr_get_payload_len`. -/
def payloadLen (e : Endian) (buf : Bytes) (off : Nat) : Option Nat :=
  (nlaLen e buf off).map (· - 4)

/-- The first bytes of `mnl_attr_get_payload`. -/
def payload (buf : Bytes) (off size : Nat) : Option Bytes := readField buf (off + 4) size

/-- The attributes of an iterator that has been set up, in the order in which they are seen. -/
def attrsFrom (e : Endian) (buf : Bytes) : Option (NlattrIter × Bool) → Option (List Nat)
  | none => none
  | some (_, false) => some []
  | some (it, true) => iterate e buf (it.remaining + 1) it

/-- The loop over the attributes of a message behind its header of `headerLen` bytes. -/
def nlmsgAttrs (e : Endian) (buf : Bytes) (headerLen : Nat) : Option (List Nat) :=
  attrsFrom e buf (initNlmsg e buf headerLen)

/-- The loop over the attributes in an attribute. -/
def nestedAttrs (e : Endian) (buf : Bytes) (nest : Nat) : Option (List Nat) :=
  attrsFrom e buf (initNested e buf nest)

def At (e : Endian) (buf : Bytes) (off : Nat) (a : WireAttr) : Prop :=
  a.Fits ∧ ∃ front back, buf = front ++ a.bytes e ++ back ∧ front.length = off

section Reading

variable {e : Endian} {buf : Bytes} {off : Nat} {a : WireAttr}

theorem readField_append {front field back : Bytes} {size : Nat} (h : field.length = size) :
    readField (front ++ field ++ back) front.length size = some field := by
  subst h
  rw [readField, if_pos (by simp), List.append_assoc, List.drop_left, List.take_left]

theorem At.nlaLen (h : At e buf off a) : nlaLen e buf off = some (4 + a.payload.length) := by
  obtain ⟨hfits, front, back, rfl, rfl⟩ := h
  rw [nlaLen_append (isAttr_bytes e hfits), length_wireAttr]

theorem At.nlaType (h : At e buf off a) : nlaType e buf off = some a.type := by
  obtain ⟨hfits, front, back, rfl, rfl⟩ := h
  have hfront : front.length + 2 = (front ++ e.bytes 2 (4 + a.payload.length)).length := by simp
  have hbuf : front ++ a.bytes e ++ back =
      (front ++ e.bytes 2 (4 + a.payload.length)) ++ e.bytes 2 a.type ++ (a.payload ++ back) := by
    simp [WireAttr.bytes]
  rw [Netlink.nlaType, hbuf, hfront, readField_append (length_bytes ..), Option.map_some,
    nat_bytes e hfits.2]

theorem At.payloadLen (h : At e buf off a) : payloadLen e buf off = some a.payload.length := by
  rw [Netlink.payloadLen, h.nlaLen, Option.map_some, Nat.add_sub_cancel_left]

theorem At.payload (h : At e buf off a) {size : Nat} (hsize : a.payload.length = size) :
    payload buf off size = some a.payload := by
  obtain ⟨-, front, back, rfl, rfl⟩ := h
  have hfront : front.length + 4 =
      (front ++ e.bytes 2 (4 + a.payload.length) ++ e.bytes 2 a.type).length := by simp
  have hbuf : front ++ a.bytes e ++ back =
      (front ++ e.bytes 2 (4 + a.payload.length) ++ e.bytes 2 a.type) ++ a.payload ++ back := by
    simp [WireAttr.bytes]
  rw [Netlink.payload, hbuf, hfront, readField_append hsize]

theorem at_of_attrBytes (ha : a.Fits) (h : attrBytes e buf off = a.bytes e) : At e buf off a := by
  have hlen := length_wireAttr e a
  have htake : (buf.drop off).take ((Netlink.nlaLen e buf off).getD 0) = a.bytes e := h
  have hoff : off ≤ buf.length := by
    by_contra hlt
    rw [List.drop_eq_nil_of_le (by omega), List.take_nil] at htake
    rw [← htake, List.length_nil] at hlen
    omega
  refine ⟨ha, buf.take off, (buf.drop off).drop ((Netlink.nlaLen e buf off).getD 0), ?_, ?_⟩
  · rw [List.append_assoc, ← htake, List.take_append_drop, List.take_append_drop]
  · rw [List.length_take, Nat.min_eq_left hoff]

/-- The loop over a row of attributes sees these, each where it stands. -/
theorem attrsFrom_row {as : List WireAttr} (h : ∀ a ∈ as, a.Fits) (front back : Bytes) :
    ∃ offs, attrsFrom e (front ++ rowBytes e as ++ back)
        (some (⟨some front.length, (rowBytes e as).length⟩, true)) = some offs ∧
      List.Forall₂ (At e (front ++ rowBytes e as ++ back)) offs as := by
  obtain ⟨offs, ⟨fuel, hrun⟩, hmap⟩ := iterate_row (row_rowBytes e h) front back
  have hfits : Fits (front ++ rowBytes e as ++ back)
      ⟨some front.length, (rowBytes e as).length⟩ := by
    rintro cursor ⟨⟩
    simp
  obtain ⟨offs', hrun', -, -⟩ := iterate_spec (e := e) hfits
  have hsame : offs = offs' := by
    have hboth := iterate_mono hrun (Nat.le_add_right fuel ((rowBytes e as).length + 1))
    rw [hrun' _ (by dsimp only; omega)] at hboth
    exact (Option.some.inj hboth).symm
  refine ⟨offs, hsame ▸ hrun' _ (Nat.lt_succ_self _), ?_⟩
  generalize front ++ rowBytes e as ++ back = buf at hmap
  clear hrun hrun' hsame hfits
  induction as generalizing offs with
  | nil =>
    rw [List.map_nil, List.map_eq_nil_iff] at hmap
    rw [hmap]
    exact .nil
  | cons a as ih =>
    cases offs with
    | nil => cases hmap
    | cons off offs =>
      rw [List.map_cons, List.map_cons, List.cons.injEq] at hmap
      exact .cons (at_of_attrBytes (h a List.mem_cons_self) hmap.1)
        (ih (fun a h' => h a (List.mem_cons_of_mem _ h')) offs hmap.2)

theorem At.nested (h : At e buf off a) {cs : List WireAttr} (hcs : ∀ c ∈ cs, c.Fits)
    (hpayload : a.payload = rowBytes e cs) :
    ∃ offs, nestedAttrs e buf off = some offs ∧ List.Forall₂ (At e buf) offs cs := by
  have hlen := h.nlaLen
  obtain ⟨hfits, front, back, hbuf, hfront⟩ := h
  have hsplit : buf = front ++ e.bytes 2 (4 + a.payload.length) ++ e.bytes 2 a.type ++
      rowBytes e cs ++ back := by
    rw [hbuf, ← hpayload]
    simp [WireAttr.bytes]
  have hoff : off + 4 =
      (front ++ e.bytes 2 (4 + a.payload.length) ++ e.bytes 2 a.type).length := by
    simp [hfront]
  obtain ⟨offs, hrun, hat⟩ := attrsFrom_row hcs
    (front ++ e.bytes 2 (4 + a.payload.length) ++ e.bytes 2 a.type) back
  rw [← hsplit, ← hoff] at hrun
  rw [← hsplit] at hat
  refine ⟨offs, ?_, hat⟩
  rw [nestedAttrs, initNested, hlen, Option.map_some, alignLen_header, if_neg (by omega),
    hpayload, Nat.add_sub_cancel_left]
  exact hrun

end Reading

/-- A loop that does with each attribute, where it stands, what is said of the attribute. -/
theorem foldlM_attrs {σ : Type} {e : Endian} {buf : Bytes} {f : σ → Nat → Option σ}
    {g : σ → WireAttr → σ} (hf : ∀ off a, At e buf off a → ∀ s, f s off = some (g s a))
    {offs : List Nat} {as : List WireAttr} (h : List.Forall₂ (At e buf) offs as) (s : σ) :
    offs.foldlM f s = some (as.foldl g s) := by
  induction h generalizing s with
  | nil => rfl
  | @cons off a offs as hat _ ih =>
    rw [List.foldlM_cons, hf off a hat s]
    exact ih (g s a)

/-! ## Messages -/

/-- A message: the type, the rest of the header, the family's header and the attributes. -/
structure WireMsg where
  type : Nat
  flags : Nat
  seq : Nat
  pid : Nat
  header : Bytes
  attrs : List WireAttr
  deriving DecidableEq, Repr

namespace WireMsg

def length (e : Endian) (m : WireMsg) : Nat := 16 + m.header.length + (rowBytes e m.attrs).length

structure Fits (e : Endian) (m : WireMsg) : Prop where
  length : m.length e < 2 ^ 31
  type : m.type < 2 ^ 16
  header : 4 ∣ m.header.length
  attrs : ∀ a ∈ m.attrs, a.Fits

def bytes (e : Endian) (m : WireMsg) : Bytes :=
  e.bytes 4 (m.length e) ++ e.bytes 2 m.type ++ e.bytes 2 m.flags ++ e.bytes 4 m.seq ++
    e.bytes 4 m.pid ++ m.header ++ rowBytes e m.attrs

end WireMsg

/-- `nlmsg_type` of the message at the start of the buffer. -/
def nlmsgType (e : Endian) (buf : Bytes) : Option Nat := (readField buf 4 2).map e.nat

section Messages

variable {e : Endian} {m : WireMsg}

theorem length_msgBytes (e : Endian) (m : WireMsg) : (m.bytes e).length = m.length e := by
  simp [WireMsg.bytes, WireMsg.length]
  omega

theorem nlmsgLen_bytes (h : m.Fits e) (rest : Bytes) :
    nlmsgLen e (m.bytes e ++ rest) = some (m.length e) := by
  have hbuf : m.bytes e ++ rest = [] ++ e.bytes 4 (m.length e) ++ (e.bytes 2 m.type ++
      e.bytes 2 m.flags ++ e.bytes 4 m.seq ++ e.bytes 4 m.pid ++ m.header ++ rowBytes e m.attrs ++
      rest) := by
    simp [WireMsg.bytes]
  have hlen := h.length
  rw [nlmsgLen, hbuf]
  have hread := @readField_append [] (e.bytes 4 (m.length e)) (e.bytes 2 m.type ++
    e.bytes 2 m.flags ++ e.bytes 4 m.seq ++ e.bytes 4 m.pid ++ m.header ++ rowBytes e m.attrs ++
    rest) 4 (length_bytes ..)
  rw [List.length_nil] at hread
  rw [hread, Option.map_some, nat_bytes e (by omega)]

theorem nlmsgType_bytes (h : m.Fits e) (rest : Bytes) :
    nlmsgType e (m.bytes e ++ rest) = some m.type := by
  have hbuf : m.bytes e ++ rest = e.bytes 4 (m.length e) ++ e.bytes 2 m.type ++
      (e.bytes 2 m.flags ++ e.bytes 4 m.seq ++ e.bytes 4 m.pid ++ m.header ++
        rowBytes e m.attrs ++ rest) := by
    simp [WireMsg.bytes]
  have hread := @readField_append (e.bytes 4 (m.length e)) (e.bytes 2 m.type)
    (e.bytes 2 m.flags ++ e.bytes 4 m.seq ++ e.bytes 4 m.pid ++ m.header ++
        rowBytes e m.attrs ++ rest) 2 (length_bytes ..)
  rw [length_bytes] at hread
  have htype := h.type
  rw [nlmsgType, hbuf, hread, Option.map_some, nat_bytes e (by omega)]

theorem readField_header {front field back : Bytes} {size : Nat} (hheader :
    m.header = front ++ field ++ back) (hsize : field.length = size) (rest : Bytes) :
    readField (m.bytes e ++ rest) (16 + front.length) size = some field := by
  have hbuf : m.bytes e ++ rest = (e.bytes 4 (m.length e) ++ e.bytes 2 m.type ++
      e.bytes 2 m.flags ++ e.bytes 4 m.seq ++ e.bytes 4 m.pid ++ front) ++ field ++
      (back ++ rowBytes e m.attrs ++ rest) := by
    simp [WireMsg.bytes, hheader]
  have hfront : 16 + front.length = (e.bytes 4 (m.length e) ++ e.bytes 2 m.type ++
      e.bytes 2 m.flags ++ e.bytes 4 m.seq ++ e.bytes 4 m.pid ++ front).length := by
    simp
    omega
  rw [hbuf, hfront, readField_append hsize]

/-- The loop over the attributes of a message. -/
theorem nlmsgAttrs_bytes (h : m.Fits e) {headerLen : Nat}
    (hheader : m.header.length = alignLen headerLen) (rest : Bytes) :
    ∃ offs, nlmsgAttrs e (m.bytes e ++ rest) headerLen = some offs ∧
      List.Forall₂ (At e (m.bytes e ++ rest)) offs m.attrs := by
  have hbuf : m.bytes e ++ rest = (e.bytes 4 (m.length e) ++ e.bytes 2 m.type ++
      e.bytes 2 m.flags ++ e.bytes 4 m.seq ++ e.bytes 4 m.pid ++ m.header) ++
      rowBytes e m.attrs ++ rest := by
    simp [WireMsg.bytes]
  have hfront : (e.bytes 4 (m.length e) ++ e.bytes 2 m.type ++ e.bytes 2 m.flags ++
      e.bytes 4 m.seq ++ e.bytes 4 m.pid ++ m.header).length = 16 + m.header.length := by
    simp
    omega
  obtain ⟨offs, hrun, hat⟩ := @attrsFrom_row e m.attrs h.attrs (e.bytes 4 (m.length e) ++
    e.bytes 2 m.type ++ e.bytes 2 m.flags ++ e.bytes 4 m.seq ++ e.bytes 4 m.pid ++ m.header) rest
  rw [← hbuf] at hat
  rw [← hbuf, hfront] at hrun
  refine ⟨offs, ?_, hat⟩
  have halign : alignLen 16 = 16 := by decide
  have hlen : m.length e = 16 + m.header.length + (rowBytes e m.attrs).length := rfl
  rw [nlmsgAttrs, initNlmsg, nlmsgLen_bytes h, Option.map_some]
  dsimp only
  rw [halign, ← hheader, if_neg (by omega), hlen, Nat.add_sub_cancel_left]
  exact hrun

end Messages

end MagiTrickle.Netlink
