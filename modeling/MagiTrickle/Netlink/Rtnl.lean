import MagiTrickle.Netfilter.MarkTable
import MagiTrickle.Netlink.Socket

/-!
# Rules, routes and links (`netlink/rtnl.c`)

The requests with their flags, the callbacks on the bytes of the answers, and
the calls on the socket. `if_nametoindex` and `mnl_socket_sendto` are outside: a
call by name gets the index, and the kernel may refuse to take a request.
-/

namespace MagiTrickle.Rtnl

open Netlink Netfilter

def rtmNewLink : Nat := 16
def rtmGetLink : Nat := 18
def rtmDelRoute : Nat := 25
def rtmGetRoute : Nat := 26
def rtmDelRule : Nat := 33
def rtmGetRule : Nat := 34

def rtaOif : Nat := 4
def rtaGateway : Nat := 5
def rtaPriority : Nat := 6

def rtnBlackhole : UInt8 := 6
def rtnUnicast : UInt8 := 1

def noent : Nat := 2
def srch : Nat := 3
def exist : Nat := 17
def nodev : Nat := 19

/-- The kernel's types come in groups of four: new, delete, get, set. -/
def gets (type : Nat) : Bool := type % 4 = 2

/-- The headers of the messages that are looked into: `fib_rule_hdr`, `rtmsg` and `ifinfomsg`. -/
def Shape (m : WireMsg) : Prop :=
  (m.type = rtmNewRule ∨ m.type = rtmNewRoute → m.header.length = 12) ∧
    (m.type = rtmNewLink → m.header.length = 16)

abbrev RtKernel (e : Endian) := Kernel e gets Shape

/-! ## Requests -/

def afOf : Family → UInt8
  | .v4 => 2
  | .v6 => 10

/-- `mnl_attr_put_u32`. -/
def u32 (e : Endian) (type : Nat) (v : UInt32) : WireAttr := ⟨type, e.bytes 4 v.toNat⟩

/-- The table of a header; a large one goes into an attribute. -/
def smallTable (table : UInt32) : UInt8 := if table < 256 then .ofNat table.toNat else 0

def tableAttr (e : Endian) (type : Nat) (table : UInt32) : List WireAttr :=
  if 256 ≤ table then [u32 e type table] else []

/-- `put_rule_header` and the attributes. -/
def ruleRequest (e : Endian) (type flags : Nat) (f : Family) (mark table : UInt32) : Request where
  type := type
  flags := flags
  header :=
    [afOf f, 0, 0, 0, smallTable table, 0, 0, if type = rtmNewRule then 1 else 0, 0, 0, 0, 0]
  attrs := u32 e fraFwmark mark :: tableAttr e fraTable table

/-- `put_route_header` and the attributes. -/
def routeRequest (e : Endian) (type flags : Nat) (f : Family) (table : UInt32) (rtmType : UInt8)
    (attrs : List WireAttr) : Request where
  type := type
  flags := flags
  header := [afOf f, 0, 0, 0, smallTable table, 3, 0, rtmType, 0, 0, 0, 0]
  attrs := tableAttr e rtaTable table ++ attrs

def createFlags : Nat := nlmRequest ||| nlmCreate ||| nlmExcl ||| nlmAck
def deleteFlags : Nat := nlmRequest ||| nlmAck
def dumpFlags : Nat := nlmRequest ||| nlmAck ||| nlmDump

def blackholeRequest (e : Endian) (type flags : Nat) (f : Family) (table priority : UInt32) :
    Request :=
  routeRequest e type flags f table rtnBlackhole [u32 e rtaPriority priority]

/-- A route without a gateway has an empty one here. -/
def ifaceRequest (e : Endian) (type flags : Nat) (f : Family) (table priority oif : UInt32)
    (gw : Bytes) : Request :=
  routeRequest e type flags f table rtnUnicast ([u32 e rtaPriority priority, u32 e rtaOif oif] ++
    if gw = [] then [] else [⟨rtaGateway, gw⟩])

def linkRequest (e : Endian) (idx : UInt32) : Request where
  type := rtmGetLink
  flags := nlmRequest
  header := [0, 0, 0, 0] ++ e.bytes 4 idx.toNat ++ [0, 0, 0, 0, 0, 0, 0, 0]
  attrs := []

/-- The request of `dump_family` and of `mt_rtnl_gateway_for_iface`. -/
def dumpRequest (type : Nat) (f : Family) : Request where
  type := type
  flags := dumpFlags
  header := [afOf f, 0, 0, 0, 0, 0, 0, 0, 0, 0, 0, 0]
  attrs := []

/-! ## Callbacks -/

/-- `mnl_attr_get_payload_len(attr) == 4`, and the number. -/
def attrU32 (e : Endian) (buf : Bytes) (off : Nat) : Option (Option UInt32) := do
  let len ← payloadLen e buf off
  if len = 4 then
    let field ← payload buf off 4
    return some (.ofNat (e.nat field))
  else return none

/-- The table in the header of a rule or a route. -/
def tableByte (buf : Bytes) : Option Nat :=
  (readField buf 20 1).map fun field => (field.headD 0).toNat

/-- The loop of `rule_scan_cb`. -/
def ruleAttr (e : Endian) (buf : Bytes) (ctx : ScanCtx) (attr : Nat) : Option ScanCtx := do
  let type ← nlaType e buf attr
  let v ← attrU32 e buf attr
  return match v with
    | none => ctx
    | some v =>
      if typeOf type = fraFwmark then ctx.addMark v.toNat
      else if typeOf type = fraTable then ctx.addTable v.toNat
      else ctx

/-- `rule_scan_cb`. -/
def ruleScanCb (e : Endian) (ctx : ScanCtx) (buf : Bytes) : Option ScanCtx := do
  let type ← nlmsgType e buf
  if type ≠ rtmNewRule then return ctx
  else
    let table ← tableByte buf
    let attrs ← nlmsgAttrs e buf 12
    attrs.foldlM (ruleAttr e buf) (ctx.addTable table)

/-- The loop of `route_scan_cb`. -/
def routeAttr (e : Endian) (buf : Bytes) (ctx : ScanCtx) (attr : Nat) : Option ScanCtx := do
  let type ← nlaType e buf attr
  let v ← attrU32 e buf attr
  return match v with
    | none => ctx
    | some v => if typeOf type = rtaTable then ctx.addTable v.toNat else ctx

/-- `route_scan_cb`. -/
def routeScanCb (e : Endian) (ctx : ScanCtx) (buf : Bytes) : Option ScanCtx := do
  let type ← nlmsgType e buf
  if type ≠ rtmNewRoute then return ctx
  else
    let table ← tableByte buf
    let attrs ← nlmsgAttrs e buf 12
    attrs.foldlM (routeAttr e buf) (ctx.addTable table)

/-- `link_msg_cb`: the flags, if the link was found. -/
def linkMsgCb (e : Endian) (ctx : Option UInt32) (buf : Bytes) : Option (Option UInt32) := do
  let type ← nlmsgType e buf
  if type ≠ rtmNewLink then return ctx
  else
    let field ← readField buf 24 4
    return some (.ofNat (e.nat field))

/-- `oif` and `gw` of `gw_msg_cb`, of which `gwlen` bytes count. -/
structure RouteFields where
  oif : UInt32
  gw : Bytes
  deriving DecidableEq, Repr

/-- The loop of `gw_msg_cb`. -/
def gwAttr (e : Endian) (buf : Bytes) (fields : RouteFields) (attr : Nat) :
    Option RouteFields := do
  let type ← nlaType e buf attr
  if typeOf type = rtaOif then
    let v ← attrU32 e buf attr
    return { fields with oif := v.getD fields.oif }
  else if typeOf type = rtaGateway then
    let len ← payloadLen e buf attr
    if len = 4 ∨ len = 16 then
      let gw ← payload buf attr len
      return { fields with gw := gw }
    else return fields
  else return fields

/-- `gw_msg_cb`: the gateway, if it was found. -/
def gwMsgCb (e : Endian) (wantOif : UInt32) (ctx : Option Bytes) (buf : Bytes) :
    Option (Option Bytes) := do
  let type ← nlmsgType e buf
  if ctx ≠ none ∨ type ≠ rtmNewRoute then return ctx
  else
    let attrs ← nlmsgAttrs e buf 12
    let fields ← attrs.foldlM (gwAttr e buf) ⟨0xffffffff, []⟩
    return if fields.oif = wantOif ∧ fields.gw ≠ [] then some fields.gw else none

/-! ## Calls -/

section Calls

variable {e : Endian}

/-- A call that only wants to know how its request went. -/
def ask (k : RtKernel e) (r : Socket) (req : Request) (fine : List Nat) :
    Option (Except Err Unit × Socket) :=
  (execute k r req (fun (s : Unit) _ => some s) ()).map fun (code, _, r) => (settle fine code, r)

/-- `mt_rtnl_rule_add`. -/
def ruleAdd (k : RtKernel e) (r : Socket) (f : Family) (mark table : UInt32) :
    Option (Except Err Unit × Socket) :=
  ask k r (ruleRequest e rtmNewRule createFlags f mark table) []

/-- `mt_rtnl_rule_del`. -/
def ruleDel (k : RtKernel e) (r : Socket) (f : Family) (mark table : UInt32) :
    Option (Except Err Unit × Socket) :=
  ask k r (ruleRequest e rtmDelRule deleteFlags f mark table) [noent]

/-- `mt_rtnl_route_add_blackhole`. -/
def routeAddBlackhole (k : RtKernel e) (r : Socket) (f : Family) (table priority : UInt32) :
    Option (Except Err Unit × Socket) :=
  ask k r (blackholeRequest e rtmNewRoute createFlags f table priority) [exist]

/-- `mt_rtnl_route_del_blackhole`. -/
def routeDelBlackhole (k : RtKernel e) (r : Socket) (f : Family) (table priority : UInt32) :
    Option (Except Err Unit × Socket) :=
  ask k r (blackholeRequest e rtmDelRoute deleteFlags f table priority) [srch]

/-- How the request of `mt_rtnl_route_add_iface` went, and `enodev`. -/
def settleIface : Except Err Nat → Except Err Bool
  | .error err => .error err
  | .ok code => if code = nodev then .ok true else (settle [exist] (.ok code)).map fun _ => false

/-- `mt_rtnl_route_add_iface`. -/
def routeAddIface (k : RtKernel e) (r : Socket) (f : Family) (table priority oif : UInt32)
    (gw : Bytes) : Option (Except Err Bool × Socket) :=
  (execute k r (ifaceRequest e rtmNewRoute createFlags f table priority oif gw)
    (fun (s : Unit) _ => some s) ()).map fun (code, _, r) => (settleIface code, r)

/-- `mt_rtnl_route_del_iface`. -/
def routeDelIface (k : RtKernel e) (r : Socket) (f : Family) (table priority oif : UInt32)
    (gw : Bytes) : Option (Except Err Unit × Socket) :=
  ask k r (ifaceRequest e rtmDelRoute deleteFlags f table priority oif gw) [srch]

/-- `mt_link_info_t`. -/
structure LinkInfo where
  ifindex : UInt32
  up : Bool
  pointToPoint : Bool
  deriving DecidableEq, Repr

def linkInfo (idx flags : UInt32) : LinkInfo := ⟨idx, flags &&& 0x1 ≠ 0, flags &&& 0x10 ≠ 0⟩

/-- `mt_rtnl_link_by_name` of a name with this index, which is zero if there is none. -/
def linkByName (k : RtKernel e) (r : Socket) (idx : UInt32) :
    Option (Except Err (Option LinkInfo) × Socket) :=
  if idx = 0 then some (.ok none, r)
  else (execute k r (linkRequest e idx) (linkMsgCb e) none).map fun (code, ctx, r) =>
    ((settle [nodev] code).map fun _ => ctx.map (linkInfo idx), r)

/-- `mt_rtnl_gateway_for_iface`. -/
def gatewayForIface (k : RtKernel e) (r : Socket) (f : Family) (ifindex : UInt32) :
    Option (Except Err (Option Bytes) × Socket) :=
  (execute k r (dumpRequest rtmGetRoute f) (gwMsgCb e ifindex) none).map fun (code, ctx, r) =>
    ((settle [] code).map fun _ => ctx, r)

/-- `msg_type` and `cb` of `dump_family`. -/
def dumpType : DumpKind → Nat
  | .rules => rtmGetRule
  | .routes => rtmGetRoute

def scanCb (e : Endian) : DumpKind → ScanCtx → Bytes → Option ScanCtx
  | .rules => ruleScanCb e
  | .routes => routeScanCb e

/-- `dump_family`. -/
def dumpFamily (k : RtKernel e) (r : Socket) (ctx : ScanCtx) (kind : DumpKind) (f : Family) :
    Option (Except Err ScanCtx × Socket) :=
  (execute k r (dumpRequest (dumpType kind) f) (scanCb e kind) ctx).map fun (code, ctx, r) =>
    ((settle [] code).map fun _ => ctx, r)

/-- The dumps of `mt_rtnl_alloc_mark_table`, up to the first one that fails. -/
def dumpFamilies (k : RtKernel e) : List (DumpKind × Family) → Socket → ScanCtx →
    Option (Except Err ScanCtx × Socket)
  | [], r, ctx => some (.ok ctx, r)
  | (kind, f) :: dumps, r, ctx => do
    let (res, r) ← dumpFamily k r ctx kind f
    match res with
    | .error err => return (.error err, r)
    | .ok ctx => dumpFamilies k dumps r ctx

/-- `mt_rtnl_alloc_mark_table`. -/
def allocMarkTable (k : RtKernel e) (r : Socket) (startIdx : UInt32) :
    Option (Except Err UInt32 × Socket) :=
  (dumpFamilies k [(.rules, .v4), (.rules, .v6), (.routes, .v4), (.routes, .v6)] r
    ⟨[], reservedTables.foldl usedSetAdd []⟩).map fun (res, r) => (res.map fun ctx =>
      .ofNat (Lib.FirstFree.firstFree (fun idx => idx ∈ ctx.tables ∨ idx ∈ ctx.marks) markLimit
        startIdx.toNat), r)

end Calls

end MagiTrickle.Rtnl
