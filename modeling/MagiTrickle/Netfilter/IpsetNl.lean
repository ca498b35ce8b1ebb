import MagiTrickle.Netfilter.Ipset
import MagiTrickle.Netlink.Socket

/-!
# The listing of a set as bytes (`netfilter/ipset_nl_real.c`)

The kernel lists a set in messages, and in these the entries nested in
attributes three deep. `realList_said` says that the bytes are read as the
listing of the set, in any datagrams and with any other attributes between.
`mnl_attr_parse_nested` goes through attributes as the iterator does.
-/

namespace MagiTrickle.IpsetNl

open Netlink Netfilter

def ipsetCmdList : Nat := 0x607

def attrProtocol : Nat := 1
def attrSetname : Nat := 2
def attrData : Nat := 7
def attrAdt : Nat := 8

def attrIp : Nat := 1
def attrCidr : Nat := 3
def attrTimeout : Nat := 6

def ipaddrIpv4 : Nat := 1
def ipaddrIpv6 : Nat := 2

def gets (type : Nat) : Bool := type = ipsetCmdList

/-- The messages have an `nfgenmsg`. -/
def Shape (m : WireMsg) : Prop := m.header.length = 4

abbrev NlKernel (e : Endian) := Kernel e gets Shape

/-! ## Reading -/

/-- `parse_ip_attr_cb`. -/
def parseIpAttr (e : Endian) (buf : Bytes) (addr : Bytes) (attr : Nat) : Option Bytes := do
  let type ← nlaType e buf attr
  let len ← payloadLen e buf attr
  if typeOf type = ipaddrIpv4 ∧ len = 4 then
    let field ← payload buf attr 4
    return field ++ addr.drop 4
  else if typeOf type = ipaddrIpv6 ∧ len = 16 then
    let field ← payload buf attr 16
    return field ++ addr.drop 16
  else return addr

/-- The variables of `parse_one_entry`. -/
structure Entry where
  addr : Bytes
  timeout : Option Nat
  cidr : Nat
  deriving DecidableEq, Repr

/-- The loop of `parse_one_entry`; a timeout comes in network byte order. -/
def parseChild (e : Endian) (buf : Bytes) (s : Entry) (child : Nat) : Option Entry := do
  let type ← nlaType e buf child
  if typeOf type = attrIp then
    if isNested type then
      let attrs ← nestedAttrs e buf child
      let addr ← attrs.foldlM (parseIpAttr e buf) s.addr
      return { s with addr := addr }
    else return s
  else if typeOf type = attrCidr then
    let len ← payloadLen e buf child
    if len = 1 then
      let field ← payload buf child 1
      return { s with cidr := (field.headD 0).toNat }
    else return s
  else if typeOf type = attrTimeout then
    let len ← payloadLen e buf child
    if len = 4 then
      let field ← payload buf child 4
      return { s with timeout := some (Endian.big.nat field) }
    else return s
  else return s

def Entry.row (fam : Family) (s : Entry) : IpsetEntry :=
  ⟨⟨s.addr.take fam.iplen, s.cidr⟩, s.timeout.any (· ≠ 0), s.timeout.getD 0⟩

/-- `parse_one_entry`. -/
def parseOneEntry (e : Endian) (fam : Family) (buf : Bytes) (rows : List IpsetEntry)
    (entry : Nat) : Option (List IpsetEntry) := do
  let (_, ok) ← initNested e buf entry
  if ok then
    let children ← nestedAttrs e buf entry
    let s ← children.foldlM (parseChild e buf) ⟨List.replicate 16 0, none, fam.max⟩
    return rows ++ [s.row fam]
  else return rows

/-- The inner loop of `list_msg_cb`. -/
def listEntry (e : Endian) (fam : Family) (buf : Bytes) (rows : List IpsetEntry) (entry : Nat) :
    Option (List IpsetEntry) := do
  let type ← nlaType e buf entry
  if typeOf type ≠ attrData ∨ ¬isNested type then return rows
  else parseOneEntry e fam buf rows entry

/-- The outer loop of `list_msg_cb`. -/
def listTop (e : Endian) (fam : Family) (buf : Bytes) (rows : List IpsetEntry) (top : Nat) :
    Option (List IpsetEntry) := do
  let type ← nlaType e buf top
  if typeOf type ≠ attrAdt ∨ ¬isNested type then return rows
  else
    let entries ← nestedAttrs e buf top
    entries.foldlM (listEntry e fam buf) rows

/-- `list_msg_cb`. -/
def listMsgCb (e : Endian) (fam : Family) (rows : List IpsetEntry) (buf : Bytes) :
    Option (List IpsetEntry) := do
  let tops ← nlmsgAttrs e buf 4
  tops.foldlM (listTop e fam buf) rows

/-- The request of `real_list`, with its `put_header`. -/
def listRequest (name : Bytes) : Request where
  type := ipsetCmdList
  flags := nlmRequest ||| nlmAck ||| nlmRoot ||| nlmMatch
  header := [16, 0, 0, 0]
  attrs := [⟨attrProtocol, [6]⟩, ⟨attrSetname, name ++ [0]⟩]

/-- `real_list`. -/
def realList {e : Endian} (k : NlKernel e) (r : Socket) (fam : Family) (name : Bytes) :
    Option (Except Err (List IpsetEntry) × Socket) :=
  (execute k r (listRequest name) (listMsgCb e fam) []).map fun (code, rows, r) =>
    ((settle [] code).map fun _ => rows, r)

/-! ## What the kernel lists -/

/-- Attributes that carry items one after the other, with others between them. -/
inductive Carries {α : Type} (Other : WireAttr → Prop) (Is : WireAttr → α → Prop) :
    List WireAttr → List α → Prop where
  | nil : Carries Other Is [] []
  | other {a : WireAttr} {as : List WireAttr} {xs : List α} (ha : Other a)
      (h : Carries Other Is as xs) : Carries Other Is (a :: as) xs
  | item {a : WireAttr} {as : List WireAttr} {x : α} {xs : List α} (ha : Is a x)
      (h : Carries Other Is as xs) : Carries Other Is (a :: as) (x :: xs)

/-- A nested attribute of a type, with what its attributes carry. -/
def Nests {α : Type} (e : Endian) (type : Nat) (Other : WireAttr → Prop)
    (Is : WireAttr → α → Prop) (a : WireAttr) (xs : List α) : Prop :=
  typeOf a.type = type ∧ isNested a.type ∧
    ∃ cs, (∀ c ∈ cs, c.Fits) ∧ a.payload = rowBytes e cs ∧ Carries Other Is cs xs

/-- Attributes that a loop passes over: no address, no part of an entry, no entry, no entries. -/
def NoAddr (c : WireAttr) : Prop := typeOf c.type ≠ ipaddrIpv4 ∧ typeOf c.type ≠ ipaddrIpv6

def NoField (c : WireAttr) : Prop := typeOf c.type ∉ [attrIp, attrCidr, attrTimeout]

def NoEntry (c : WireAttr) : Prop := typeOf c.type ≠ attrData ∨ ¬isNested c.type

def NoEntries (c : WireAttr) : Prop := typeOf c.type ≠ attrAdt ∨ ¬isNested c.type

def addrType : Family → Nat
  | .v4 => ipaddrIpv4
  | .v6 => ipaddrIpv6

def IsAddr (fam : Family) (a : WireAttr) (addr : Bytes) : Prop :=
  typeOf a.type = addrType fam ∧ a.payload = addr ∧ addr.length = fam.iplen

inductive Field where
  | ip (addr : Bytes)
  | cidr (plen : Nat)
  | timeout (t : Nat)
  deriving DecidableEq, Repr

def IsField (e : Endian) (fam : Family) (a : WireAttr) : Field → Prop
  | .ip addr => Nests e attrIp NoAddr (IsAddr fam) a [addr]
  | .cidr plen => typeOf a.type = attrCidr ∧ plen < 256 ∧ a.payload = [.ofNat plen]
  | .timeout t => typeOf a.type = attrTimeout ∧ t < 2 ^ 32 ∧ a.payload = Endian.big.bytes 4 t

/-- The attribute of an entry, in the kernel's order. -/
def IsEntry (e : Endian) (fam : Family) (a : WireAttr)
    (entry : Sigma fun _ : NetKey fam => Nat) : Prop :=
  Nests e attrData NoField (IsField e fam) a
    [.ip entry.1.addr, .cidr entry.1.plen, .timeout entry.2]

/-- A message with entries, in attributes that nest them. -/
def Lists (e : Endian) (fam : Family) (m : WireMsg)
    (parts : List (List (Sigma fun _ : NetKey fam => Nat))) : Prop :=
  Carries NoEntries (Nests e attrAdt NoEntry (IsEntry e fam)) m.attrs parts

/-! ## Reading what is listed -/

section Reading

variable {e : Endian} {fam : Family} {buf : Bytes} {off : Nat} {a : WireAttr}

theorem foldlM_carries {σ α : Type} {Other : WireAttr → Prop} {Is : WireAttr → α → Prop}
    {f : σ → Nat → Option σ} {g : σ → α → σ}
    (hother : ∀ off a, At e buf off a → Other a → ∀ s, f s off = some s)
    (his : ∀ off a x, At e buf off a → Is a x → ∀ s, f s off = some (g s x))
    {as : List WireAttr} {xs : List α} (h : Carries Other Is as xs) {offs : List Nat}
    (hat : List.Forall₂ (At e buf) offs as) (s : σ) :
    offs.foldlM f s = some (xs.foldl g s) := by
  induction h generalizing offs s with
  | nil =>
    cases hat
    rfl
  | other ha h ih =>
    obtain ⟨off, offs, hoff, hoffs, rfl⟩ := List.forall₂_cons_right_iff.mp hat
    rw [List.foldlM_cons, hother off _ hoff ha s]
    exact ih hoffs s
  | item ha h ih =>
    obtain ⟨off, offs, hoff, hoffs, rfl⟩ := List.forall₂_cons_right_iff.mp hat
    rw [List.foldlM_cons, his off _ _ hoff ha s]
    exact ih hoffs _

theorem foldlM_nests {σ α : Type} {type : Nat} {Other : WireAttr → Prop}
    {Is : WireAttr → α → Prop} {f : σ → Nat → Option σ} {g : σ → α → σ}
    (hother : ∀ off a, At e buf off a → Other a → ∀ s, f s off = some s)
    (his : ∀ off a x, At e buf off a → Is a x → ∀ s, f s off = some (g s x))
    {xs : List α} (hat : At e buf off a) (h : Nests e type Other Is a xs) (s : σ) :
    ∃ offs, nestedAttrs e buf off = some offs ∧ offs.foldlM f s = some (xs.foldl g s) := by
  obtain ⟨-, -, cs, hfits, hpayload, hcarries⟩ := h
  obtain ⟨offs, hoffs, hats⟩ := hat.nested hfits hpayload
  exact ⟨offs, hoffs, foldlM_carries hother his hcarries hats s⟩

theorem Nests.not_other {α : Type} {type : Nat} {Other : WireAttr → Prop}
    {Is : WireAttr → α → Prop} {xs : List α} (h : Nests e type Other Is a xs) :
    ¬(typeOf a.type ≠ type ∨ ¬isNested a.type) := by
  rintro (htype | hnested)
  · exact htype h.1
  · exact hnested h.2.1

theorem parseIpAttr_other (hat : At e buf off a) (ha : NoAddr a) (addr : Bytes) :
    parseIpAttr e buf addr off = some addr := by
  rw [parseIpAttr, hat.nlaType, hat.payloadLen]
  dsimp only [bind, Option.bind]
  rw [if_neg fun h => ha.1 h.1, if_neg fun h => ha.2 h.1]
  rfl

theorem parseIpAttr_addr {new : Bytes} (hat : At e buf off a) (ha : IsAddr fam a new)
    (addr : Bytes) : parseIpAttr e buf addr off = some (new ++ addr.drop fam.iplen) := by
  obtain ⟨htype, hpayload, hlen⟩ := ha
  have hsize : a.payload.length = fam.iplen := by rw [hpayload, hlen]
  rw [parseIpAttr, hat.nlaType, hat.payloadLen]
  dsimp only [bind, Option.bind]
  cases fam with
  | v4 =>
    have hsize : a.payload.length = 4 := hsize
    rw [if_pos ⟨htype, hsize⟩, hat.payload hsize, hpayload]
    rfl
  | v6 =>
    have hsize : a.payload.length = 16 := hsize
    have hno : typeOf a.type ≠ ipaddrIpv4 := by
      rw [htype]
      decide
    rw [if_neg fun h => hno h.1, if_pos ⟨htype, hsize⟩, hat.payload hsize, hpayload]
    rfl

def Field.set (fam : Family) (s : Entry) : Field → Entry
  | .ip addr => { s with addr := addr ++ s.addr.drop fam.iplen }
  | .cidr plen => { s with cidr := plen }
  | .timeout t => { s with timeout := some t }

theorem parseChild_other (hat : At e buf off a) (ha : NoField a) (s : Entry) :
    parseChild e buf s off = some s := by
  unfold NoField at ha
  simp only [List.mem_cons, List.not_mem_nil, or_false, not_or] at ha
  rw [parseChild, hat.nlaType]
  dsimp only [bind, Option.bind]
  rw [if_neg ha.1, if_neg ha.2.1, if_neg ha.2.2]
  rfl

theorem parseChild_field {x : Field} (hat : At e buf off a) (ha : IsField e fam a x) (s : Entry) :
    parseChild e buf s off = some (x.set fam s) := by
  rw [parseChild, hat.nlaType]
  dsimp only [bind, Option.bind]
  cases x with
  | ip addr =>
    obtain ⟨offs, hoffs, hrun⟩ := foldlM_nests
      (fun off a hat ha s => parseIpAttr_other hat ha s)
      (fun off a new hat (ha : IsAddr fam a new) addr => parseIpAttr_addr hat ha addr) hat ha s.addr
    rw [if_pos ha.1, if_pos ha.2.1, hoffs]
    dsimp only
    rw [hrun]
    rfl
  | cidr plen =>
    obtain ⟨htype, hlt, hpayload⟩ := ha
    have hlen : a.payload.length = 1 := by rw [hpayload, List.length_singleton]
    have hip : ¬typeOf a.type = attrIp := by
      rw [htype]
      decide
    rw [if_neg hip, if_pos htype, hat.payloadLen]
    dsimp only
    rw [if_pos hlen, hat.payload hlen, hpayload]
    show some { s with cidr := (UInt8.ofNat plen).toNat } = _
    rw [UInt8.toNat_ofNat_of_lt' hlt]
    rfl
  | timeout t =>
    obtain ⟨htype, hlt, hpayload⟩ := ha
    have hlen : a.payload.length = 4 := by rw [hpayload, length_bytes]
    have hip : ¬typeOf a.type = attrIp := by
      rw [htype]
      decide
    have hcidr : ¬typeOf a.type = attrCidr := by
      rw [htype]
      decide
    rw [if_neg hip, if_neg hcidr, if_pos htype, hat.payloadLen]
    dsimp only
    rw [if_pos hlen, hat.payload hlen, hpayload]
    show some { s with timeout := some (Endian.big.nat (Endian.big.bytes 4 t)) } = _
    rw [nat_bytes .big (by omega)]
    rfl

theorem Carries.exists_of_mem {α : Type} {Other : WireAttr → Prop} {Is : WireAttr → α → Prop}
    {as : List WireAttr} {xs : List α} (h : Carries Other Is as xs) {x : α} (hx : x ∈ xs) :
    ∃ a, Is a x := by
  induction h with
  | nil => exact absurd hx List.not_mem_nil
  | other _ _ ih => exact ih hx
  | item ha _ ih =>
    rcases List.mem_cons.mp hx with rfl | hx
    · exact ⟨_, ha⟩
    · exact ih hx

theorem length_addr {entry : Sigma fun _ : NetKey fam => Nat} (ha : IsEntry e fam a entry) :
    entry.1.addr.length = fam.iplen := by
  obtain ⟨-, -, cs, -, -, hcarries⟩ := ha
  obtain ⟨c, -, -, ds, -, -, haddrs⟩ := hcarries.exists_of_mem List.mem_cons_self
  obtain ⟨d, hd⟩ := haddrs.exists_of_mem List.mem_cons_self
  exact hd.2.2

theorem initNested_at (hat : At e buf off a) : ∃ it, initNested e buf off = some (it, true) := by
  rw [initNested, hat.nlaLen, Option.map_some, alignLen_header, if_neg (by omega)]
  exact ⟨_, rfl⟩

theorem parseOneEntry_entry {entry : Sigma fun _ : NetKey fam => Nat} (hat : At e buf off a)
    (ha : IsEntry e fam a entry) (rows : List IpsetEntry) :
    IpsetNl.parseOneEntry e fam buf rows off = some (rows ++ [Netfilter.parseOneEntry entry]) := by
  obtain ⟨offs, hoffs, hrun⟩ := foldlM_nests (fun off a hat ha s => parseChild_other hat ha s)
    (fun off a x hat (ha : IsField e fam a x) s => parseChild_field hat ha s) hat ha
    ⟨List.replicate 16 0, none, fam.max⟩
  obtain ⟨it, hit⟩ := initNested_at hat
  rw [IpsetNl.parseOneEntry, hit]
  dsimp only [bind, Option.bind]
  rw [if_pos rfl, hoffs]
  dsimp only
  rw [hrun]
  have haddr : (entry.1.addr ++ (List.replicate 16 0).drop fam.iplen).take fam.iplen =
      entry.1.addr := List.take_left' (length_addr ha)
  show some (rows ++ [⟨⟨(entry.1.addr ++ (List.replicate 16 0).drop fam.iplen).take fam.iplen,
    entry.1.plen⟩, entry.2 ≠ 0, entry.2⟩]) = _
  rw [haddr]
  rfl

theorem listEntry_other (hat : At e buf off a) (ha : NoEntry a)
    (rows : List IpsetEntry) : listEntry e fam buf rows off = some rows := by
  rw [listEntry, hat.nlaType]
  exact if_pos ha

theorem listEntry_entry {entry : Sigma fun _ : NetKey fam => Nat} (hat : At e buf off a)
    (ha : IsEntry e fam a entry) (rows : List IpsetEntry) :
    listEntry e fam buf rows off = some (rows ++ [Netfilter.parseOneEntry entry]) := by
  rw [listEntry, hat.nlaType, ← parseOneEntry_entry hat ha]
  exact if_neg ha.not_other

theorem foldl_rows (entries : List (Sigma fun _ : NetKey fam => Nat)) (rows : List IpsetEntry) :
    entries.foldl (fun rows x => rows ++ [Netfilter.parseOneEntry x]) rows =
      rows ++ entries.map Netfilter.parseOneEntry := by
  induction entries generalizing rows with
  | nil => exact (List.append_nil rows).symm
  | cons x entries ih =>
    rw [List.foldl_cons, ih, List.append_assoc]
    rfl

theorem listTop_other (hat : At e buf off a) (ha : NoEntries a)
    (rows : List IpsetEntry) : listTop e fam buf rows off = some rows := by
  rw [listTop, hat.nlaType]
  exact if_pos ha

theorem listTop_entries {entries : List (Sigma fun _ : NetKey fam => Nat)} (hat : At e buf off a)
    (ha : Nests e attrAdt NoEntry (IsEntry e fam) a entries) (rows : List IpsetEntry) :
    listTop e fam buf rows off = some (rows ++ entries.map Netfilter.parseOneEntry) := by
  obtain ⟨offs, hoffs, hrun⟩ := foldlM_nests (fun off a hat ha s => listEntry_other hat ha s)
    (fun off a x hat (ha : IsEntry e fam a x) s => listEntry_entry hat ha s) hat ha rows
  rw [listTop, hat.nlaType]
  dsimp only [bind, Option.bind]
  rw [if_neg ha.not_other, hoffs]
  dsimp only
  rw [hrun, foldl_rows]

theorem listMsgCb_bytes {m : WireMsg} {parts : List (List (Sigma fun _ : NetKey fam => Nat))}
    (hm : Plain e m) (hshape : Shape m) (h : Lists e fam m parts) (rows : List IpsetEntry)
    (rest : Bytes) :
    listMsgCb e fam rows (m.bytes e ++ rest) =
      some (rows ++ parts.flatten.map Netfilter.parseOneEntry) := by
  obtain ⟨offs, hoffs, hat⟩ := @nlmsgAttrs_bytes e m hm.fits 4 hshape rest
  rw [listMsgCb, hoffs]
  have hfold := foldlM_carries (fun off a hat ha s => listTop_other hat ha s)
    (fun off a x hat (ha : Nests e attrAdt NoEntry (IsEntry e fam) a x) s =>
      listTop_entries hat ha s) h hat rows
  refine hfold.trans (congrArg some ?_)
  clear hfold hoffs hat h
  induction parts generalizing rows with
  | nil => exact (List.append_nil rows).symm
  | cons part parts ih =>
    rw [List.foldl_cons, ih, List.flatten_cons, List.map_append, List.append_assoc]

theorem exists_lists {msgs : List WireMsg}
    {parts : List (List (List (Sigma fun _ : NetKey fam => Nat)))}
    (h : List.Forall₂ (Lists e fam) msgs parts) {m : WireMsg} (hmem : m ∈ msgs) :
    ∃ part, Lists e fam m part := by
  induction h with
  | nil => exact absurd hmem List.not_mem_nil
  | cons h _ ih =>
    rcases List.mem_cons.mp hmem with rfl | hmem
    · exact ⟨_, h⟩
    · exact ih hmem

/-- What the callback makes of a message. -/
def listed (e : Endian) (fam : Family) (rows : List IpsetEntry) (m : WireMsg) : List IpsetEntry :=
  (listMsgCb e fam rows (m.bytes e)).getD rows

theorem listMsgCb_listed {m : WireMsg} {parts : List (List (Sigma fun _ : NetKey fam => Nat))}
    (hm : Plain e m) (hshape : Shape m) (h : Lists e fam m parts) (rows : List IpsetEntry)
    (rest : Bytes) :
    listMsgCb e fam rows (m.bytes e ++ rest) = some (listed e fam rows m) ∧
      listed e fam rows m = rows ++ parts.flatten.map Netfilter.parseOneEntry := by
  have hself := listMsgCb_bytes hm hshape h rows []
  rw [List.append_nil] at hself
  have hlisted : listed e fam rows m = rows ++ parts.flatten.map Netfilter.parseOneEntry := by
    rw [listed, hself, Option.getD_some]
  exact ⟨(listMsgCb_bytes hm hshape h rows rest).trans (congrArg some hlisted.symm), hlisted⟩

end Reading

/-- The messages that the kernel sends for a set, in whatever datagrams, are read as its listing,
unless the listing ends with an error. Only a receive that fails leaves something behind it. -/
theorem realList_said {e : Endian} (k : NlKernel e) (fam : Family) (name : Bytes)
    (set : KernelSet fam) (parts : List (List (List (Sigma fun _ : NetKey fam => Nat))))
    (hlists : List.Forall₂ (Lists e fam) (k.said (listRequest name)).2 parts)
    (hset : parts.flatten.flatten = set.entries) (seq : UInt32) :
    realList k ⟨seq, []⟩ fam name =
      some ((settle [] (k.said (listRequest name)).1).map fun _ => Netfilter.realList set,
        ⟨seq + 1, k.left (listRequest name)⟩) := by
  have hdump : (nlmRequest ||| nlmAck ||| nlmRoot ||| nlmMatch) &&& nlmDump ≠ 0 := by decide
  have hsynced : (listRequest name).Synced gets :=
    ⟨fun _ => .inl (decide_eq_true hdump), fun hset => absurd rfl hset⟩
  have hplain := k.said_plain (listRequest name)
  have hcb : ∀ m ∈ (k.said (listRequest name)).2, Plain e m → Shape m → ∀ s rest,
      listMsgCb e fam s (m.bytes e ++ rest) = some (listed e fam s m) := by
    intro m hmem hm hshape s rest
    obtain ⟨part, hpart⟩ := exists_lists hlists hmem
    exact (listMsgCb_listed hm hshape hpart s rest).1
  rw [realList, execute_said hsynced hcb]
  generalize k.said (listRequest name) = said at hlists hplain
  obtain ⟨code, msgs⟩ := said
  have hrows : ∀ rows : List IpsetEntry, msgs.foldl (listed e fam) rows =
      rows ++ parts.flatten.flatten.map Netfilter.parseOneEntry := by
    clear hset hcb
    dsimp only at hlists hplain
    induction hlists with
    | nil => exact fun rows => (List.append_nil rows).symm
    | @cons m part msgs parts h _ ih =>
      intro rows
      have hm := hplain m List.mem_cons_self
      rw [List.foldl_cons, ih fun m hm => hplain m (List.mem_cons_of_mem _ hm),
        (listMsgCb_listed hm.1 hm.2 h rows []).2, List.flatten_cons, List.flatten_append,
        List.map_append, List.append_assoc]
  rw [Option.map_some]
  dsimp only
  rw [hrows, hset]
  rfl

theorem ten_pos : 0 < 8 := by decide

theorem ten_le : 8 ≤ Family.v4.max := by decide

def tenNet : KernelSet .v4 := AList.singleton ⟨[10, 0, 0, 0], 8, ten_pos, ten_le⟩ 60

def tenAddr : WireAttr := ⟨0x4001, [10, 0, 0, 0]⟩
def tenParts : List WireAttr :=
  [⟨0x8001, rowBytes .little [tenAddr]⟩, ⟨3, [8]⟩, ⟨9, [0, 0, 0, 0]⟩, ⟨0x4006, [0, 0, 0, 60]⟩]
def tenEntry : WireAttr := ⟨0x8007, rowBytes .little tenParts⟩
def tenMsg : WireMsg :=
  ⟨ipsetCmdList, 2, 1, 0, [2, 0, 0, 0],
    [⟨2, [115, 0]⟩, ⟨0x8008, rowBytes .little [tenEntry]⟩]⟩

theorem plain_tenMsg : Plain .little tenMsg :=
  ⟨⟨by decide, by decide, by decide, by decide⟩, by decide, by decide, by decide⟩

theorem lists_tenMsg : Lists .little .v4 tenMsg [tenNet.entries] := by
  have hip : IsField .little .v4 ⟨0x8001, rowBytes .little [tenAddr]⟩ (.ip [10, 0, 0, 0]) :=
    ⟨by decide, by decide, [tenAddr], by decide, rfl, .item ⟨by decide, rfl, rfl⟩ .nil⟩
  have hentry : IsEntry .little .v4 tenEntry ⟨⟨[10, 0, 0, 0], 8, ten_pos, ten_le⟩, 60⟩ :=
    ⟨by decide, by decide, tenParts, by decide, rfl, .item hip <|
      .item ⟨by decide, by decide, rfl⟩ <| .other (by unfold NoField; decide) <|
      .item ⟨by decide, by decide, by decide⟩ .nil⟩
  exact .other (.inl (by decide)) <| .item ⟨by decide, by decide, [tenEntry], by decide, rfl,
    .item hentry .nil⟩ .nil

def tenHeard (req : Request) (hget : gets req.type) (hdump : req.dumps) :
    Heard .little gets Shape req where
  datagrams := [.ok (datagram .little [tenMsg] ++ (doneMsg.bytes .little ++ []))]
  msgs := [tenMsg]
  code := .ok 0
  left := []
  answered := .dumped hget hdump
    (.done (List.forall_mem_singleton.mpr plain_tenMsg) (fits_doneMsg .little) rfl)
  shape := List.forall_mem_singleton.mpr rfl

def tenKernel : NlKernel .little := fun req =>
  if hget : gets req.type then
    if hdump : req.dumps then .ok (tenHeard req hget hdump) else .error .inval
  else .error .inval

theorem said_tenKernel : tenKernel.said (listRequest [115]) = (.ok 0, [tenMsg]) := by
  have hget : gets (listRequest [115]).type := by decide
  have hdump : (listRequest [115]).dumps := by decide
  unfold Kernel.said tenKernel
  rw [dif_pos hget, dif_pos hdump]
  rfl

theorem left_tenKernel : tenKernel.left (listRequest [115]) = [] := by
  have hget : gets (listRequest [115]).type := by decide
  have hdump : (listRequest [115]).dumps := by decide
  unfold Kernel.left tenKernel
  rw [dif_pos hget, dif_pos hdump]
  rfl

theorem realList_said_tenNet :
    realList tenKernel ⟨0, []⟩ .v4 [115] =
      some (.ok [⟨⟨[10, 0, 0, 0], 8⟩, true, 60⟩], ⟨1, []⟩) := by
  have hread := realList_said tenKernel .v4 [115] tenNet [[tenNet.entries]]
    (by rw [said_tenKernel]; exact .cons lists_tenMsg .nil) rfl 0
  rw [said_tenKernel, left_tenKernel] at hread
  exact hread

end MagiTrickle.IpsetNl
