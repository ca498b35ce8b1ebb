import MagiTrickle.Netfilter.Ipset
import Mathlib.Logic.Function.Basic

/-!
# Routes of a link (`netfilter/ipset_to_link.c`, `netlink/rtnl.c`)

A link owns a routing table per address family. The code puts one default route
of metric 10 through the interface into it and remembers in flags what it
believes to be there. The kernel acts on its own: a route through an interface
goes when the interface goes down or is deleted, and the interface may come
back with another index and another gateway (`Event.kernel`).

Of the kernel only what these functions ask for is modelled. A route is added
with `NLM_F_EXCL`: where a default route of the same metric is there already,
the answer is `EEXIST`, whatever its interface and gateway. The gateway of an
interface is looked up in a dump of all tables, so also in the table of the
link itself.
-/

namespace MagiTrickle.Netfilter

structure Route where
  oif : Nat
  gw : Option Bytes
  deriving DecidableEq, Repr

/-- `mt_link_info_t`. -/
structure LinkInfo where
  ifindex : Nat
  up : Bool
  pointToPoint : Bool
  deriving DecidableEq, Repr

/-- The other routes of a family, as a dump lists them before and after the table of the link, and
whether the interface takes routes of this family at all. -/
structure Foreign where
  before : List Route
  after : List Route
  ready : Bool
  deriving DecidableEq, Repr

/-- The routes of a family: those of others and the default route in the table of the link. -/
structure Tables extends Foreign where
  own : Option Route
  deriving DecidableEq, Repr

structure Rtnl where
  link : Option LinkInfo
  tables : Family → Tables

/-- `family_state_t`. `gw` is `iface_has_gw` with the address. -/
structure FamilyState where
  ruleAdded : Bool
  blackholeAdded : Bool
  ifaceRoutePresent : Bool
  gw : Option Bytes
  deriving DecidableEq, Repr

/-- `mt_ipset_to_link_t`: `blackhole` if the interface name is `MT_IPSET_TO_LINK_BLACKHOLE`, and
for each family whether it has an iptables engine. -/
structure IpsetToLink where
  blackhole : Bool
  ipt : Family → Bool
  enabled : Bool
  fs : Family → FamilyState

/-! ## Requests to the kernel -/

def firstGateway (ifindex : Nat) (routes : List Route) : Option Bytes :=
  routes.findSome? fun r => if r.oif = ifindex then r.gw else none

/-- `mt_rtnl_gateway_for_iface`. -/
def gatewayForIface (t : Tables) (ifindex : Nat) : Option Bytes :=
  firstGateway ifindex (t.before ++ t.own.toList ++ t.after)

/-- `mt_rtnl_route_add_iface`: the table after it, and an error or whether it was `ENODEV`. An
interface that is down takes no routes. -/
def routeAddIface (li : LinkInfo) (t : Tables) (gw : Option Bytes) : Tables × Except Err Bool :=
  if !t.ready then (t, .ok true)
  else if !li.up then (t, .error .sys)
  else
    match t.own with
    | some _ => (t, .ok false)
    | none => ({ t with own := some ⟨li.ifindex, gw⟩ }, .ok false)

/-- `mt_rtnl_route_del_iface`: index zero stands for any interface, no gateway for any gateway. -/
def routeDelIface (t : Tables) (oif : Nat) (gw : Option Bytes) : Tables :=
  { t with own := t.own.filter fun r => !((oif = 0 ∨ r.oif = oif) ∧ (gw = none ∨ r.gw = gw)) }

/-! ## Updating a route -/

/-- The gateway `update_iface_route` finds. -/
def gatewayFound (li : LinkInfo) (t : Tables) : Option Bytes :=
  if li.pointToPoint then none else gatewayForIface t li.ifindex

/-- The request to add a route and what is remembered of it: the end of `update_iface_route`. -/
def addIfaceRoute (li : LinkInfo) (t : Tables) (fs : FamilyState) (gw : Option Bytes) :
    (Tables × FamilyState) × Option Err :=
  match routeAddIface li t gw with
  | (t, .error e) => ((t, fs), some e)
  | (t, .ok true) => ((t, { fs with ifaceRoutePresent := false }), none)
  | (t, .ok false) => ((t, { fs with ifaceRoutePresent := true, gw := gw }), none)

/-- `update_iface_route`. -/
def updateIfaceRoute (li : LinkInfo) (t : Tables) (fs : FamilyState) :
    (Tables × FamilyState) × Option Err :=
  let gw := gatewayFound li t
  if fs.ifaceRoutePresent then
    if gw = fs.gw then ((t, fs), none)
    else if gw.isSome then
      addIfaceRoute li (routeDelIface t li.ifindex fs.gw) { fs with ifaceRoutePresent := false } gw
    else addIfaceRoute li t fs gw
  else addIfaceRoute li t fs gw

structure World where
  l : IpsetToLink
  k : Rtnl

namespace World

/-- The tables and the state of one family exchanged. -/
def set (w : World) (f : Family) (p : Tables × FamilyState) : World where
  l := { w.l with fs := Function.update w.l.fs f p.2 }
  k := { w.k with tables := Function.update w.k.tables f p.1 }

/-- The call of `update_iface_route` for a family. -/
def updateFamily (w : World) (li : LinkInfo) (f : Family) : World × Option Err :=
  if w.l.ipt f then
    let r := updateIfaceRoute li (w.k.tables f) (w.l.fs f)
    (w.set f r.1, r.2)
  else (w, none)

/-- Both families; an error in the first leaves the second alone. -/
def updateRoutes (w : World) (li : LinkInfo) : World × Option Err :=
  match w.updateFamily li .v4 with
  | (w, some e) => (w, some e)
  | (w, none) => w.updateFamily li .v6

/-- The black-hole routes at the start of `insert_ip_route`. -/
def addBlackholes (w : World) : World :=
  { w with l := { w.l with fs := fun f => { w.l.fs f with
      blackholeAdded := w.l.ipt f || (w.l.fs f).blackholeAdded } } }

/-- `insert_ip_route`. -/
def insertIpRoute (w : World) : World × Option Err :=
  let w := w.addBlackholes
  if w.l.blackhole then (w, none)
  else
    match w.k.link with
    | none => (w, none)
    | some li => if !li.up then (w, none) else w.updateRoutes li

/-- `delete_ip_route` for a family, and the flag of `delete_ip_rule`. -/
def deleteFamily (link : Option LinkInfo) (t : Tables) (fs : FamilyState) : Tables × FamilyState :=
  (if fs.ifaceRoutePresent then routeDelIface t (link.elim 0 LinkInfo.ifindex) fs.gw else t,
    { fs with ifaceRoutePresent := false, blackholeAdded := false, ruleAdded := false })

/-- `teardown`, as far as routes and rules go. -/
def teardown (w : World) : World where
  l := { w.l with fs := fun f => (deleteFamily w.k.link (w.k.tables f) (w.l.fs f)).2 }
  k := { w.k with tables := fun f => (deleteFamily w.k.link (w.k.tables f) (w.l.fs f)).1 }

/-- `mt_rtnl_alloc_mark_table`: a table that nothing is in. -/
def allocTable (w : World) : World :=
  { w with k := { w.k with tables := fun f => { w.k.tables f with own := none } } }

/-- `insert_ip_rule`. -/
def insertIpRule (w : World) : World :=
  { w with l := { w.l with fs := fun f => { w.l.fs f with
      ruleAdded := w.l.ipt f || (w.l.fs f).ruleAdded } } }

/-- `mt_ipset_to_link_enable`. `ruleErr` and `iptErr` are the outcomes of the ip rules and of the
iptables commits. -/
def enable (w : World) (ruleErr iptErr : Option Err) : World × Option Err :=
  if w.l.enabled then (w, none)
  else
    match ruleErr with
    | some e => (w.allocTable.teardown, some e)
    | none =>
      match w.allocTable.insertIpRule.insertIpRoute with
      | (w, some e) => (w.teardown, some e)
      | (w, none) =>
        match iptErr with
        | some e => (w.teardown, some e)
        | none => ({ w with l := { w.l with enabled := true } }, none)

/-- `mt_ipset_to_link_disable`. -/
def disable (w : World) : World :=
  if w.l.enabled then { w with l := { w.l with enabled := false } }.teardown else w

/-- `mt_ipset_to_link_on_link_up`. -/
def onLinkUp (w : World) : World × Option Err :=
  if w.l.enabled then w.insertIpRoute else (w, none)

/-- `mt_ipset_to_link_on_addr_change`. -/
def onAddrChange (w : World) : World × Option Err :=
  if w.l.enabled && !w.l.blackhole then
    match w.k.link with
    | none => (w, none)
    | some li => w.updateRoutes li
  else (w, none)

/-- The interface and the routes of others as the kernel has them now. Of the link's own routes
only those stay that lead through an interface that is up and takes them. -/
def kernelChange (w : World) (link : Option LinkInfo) (foreign : Family → Foreign) : World :=
  { w with k := {
      link := link
      tables := fun f => {
        foreign f with
        own := (w.k.tables f).own.filter fun r =>
          (foreign f).ready && link.any fun li => li.up && decide (li.ifindex = r.oif) } } }

end World

/-- What happens: the kernel changes, or one of the functions is called. -/
inductive Event where
  | kernel (link : Option LinkInfo) (foreign : Family → Foreign)
  | enable (ruleErr iptErr : Option Err)
  | disable
  | linkUp
  | addrChange

def World.step (w : World) : Event → World
  | .kernel link foreign => w.kernelChange link foreign
  | .enable ruleErr iptErr => (w.enable ruleErr iptErr).1
  | .disable => w.disable
  | .linkUp => w.onLinkUp.1
  | .addrChange => w.onAddrChange.1

/-- `mt_ipset_to_link_new`: nothing is enabled, and no table is in use yet. -/
def World.new (blackhole : Bool) (ipt : Family → Bool) (link : Option LinkInfo)
    (foreign : Family → Foreign) : World where
  l := ⟨blackhole, ipt, false, fun _ => ⟨false, false, false, none⟩⟩
  k := ⟨link, fun f => { foreign f with own := none }⟩

end MagiTrickle.Netfilter
