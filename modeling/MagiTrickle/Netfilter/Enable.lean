import MagiTrickle.Netfilter.MarkTable
import MagiTrickle.Netfilter.Rebuild

/-!
# Enabling a ruleset (`netfilter/ruleset.c`, `netfilter/ipset.c`, `netfilter/ipset_to_link.c`)

The kernel objects of a ruleset together: two ipsets and, for each address family, an ip rule, a
black-hole route, a route through the interface, and its chains and jumps. `enable` makes them one
after the other and takes back what is there when an operation fails. Every request has an answer
of its own (`Answers`), also those that take something away (`Removals`): a request that fails
changes nothing.

A set is a name with its family and what is in it. Of the routes only default routes are
modelled: a table has at most one of each metric.
-/

namespace MagiTrickle.Enable

open Iptables (Executable)
open Lib.Runs (untilErr)
open Netfilter (Family IpRule LinkInfo Route FamilyState KernelSet Dump allocMarkTable)
open Rebuild (Prefixes Word Engine)

/-! ## The kernel -/

inductive Target where
  | blackhole
  | via (r : Route)
  deriving DecidableEq, Repr

abbrev Routes := UInt32 → Nat → Option Target

/-- A family: its iptables engine with the tables of the kernel, the ip rules for marks, the
routes, and whether the interface takes routes of this family. -/
structure Side where
  engine : Option (Engine Iptables.Tables)
  rules : List IpRule
  routes : Routes
  ready : Bool

/-- The kernel and the engines. `link` is the interface of the ruleset. -/
structure System where
  sets : Bytes → Option (Σ f, KernelSet f)
  link : Option LinkInfo
  sides : Family → Side

/-- What the kernel says to the requests that take something away; `link` is the answer to the
search for the interface before a route through it is deleted. -/
structure Removals where
  link : Family → Option Err
  route : Family → Option Err
  blackhole : Family → Option Err
  rule : Family → Option Err
  save : Family → Option Err
  restore : Family → Option Err
  destroy : Family → Option Err

/-- Everything is taken away; only the search may fail. -/
structure Removals.Succeed (r : Removals) : Prop where
  route : ∀ f, r.route f = none
  blackhole : ∀ f, r.blackhole f = none
  rule : ∀ f, r.rule f = none
  save : ∀ f, r.save f = none
  restore : ∀ f, r.restore f = none
  destroy : ∀ f, r.destroy f = none

/-- What the kernel says during one call: `clear` to the removals before anything is made,
`ruleDel` and `routeDel` to those before a rule or a route is replaced, and `rollback` to those
after an error. -/
structure Answers where
  socket : Option Err
  clear : Removals
  create : Family → Option Err
  dump : Dump
  ruleDel : Family → Option Err
  rule : Family → Option Err
  blackhole : Family → Option Err
  link : Option Err
  gateway : Family → Except Err (Option Bytes)
  routeDel : Family → Option Err
  route : Family → Option Err
  save : Family → Option Err
  restore : Family → Option Err
  rollback : Removals

def answering {σ : Type} (exe : Executable σ) (save restore : Option Err) : Executable σ where
  save s := match save with
    | some e => .error e
    | none => exe.save s
  restore s data := match restore with
    | some e => .error e
    | none => exe.restore s data

/-! ## The objects of the daemon -/

/-- `mt_ipset_to_link_t`. The mark is the number of the table as well. -/
structure IpsetToLink where
  id : Id
  iface : Word
  startIdx : UInt32
  mark : UInt32
  enabled : Bool
  fs : Family → FamilyState

/-- `mt_ruleset_t`: `configured` is the flag of the group, `ipset` the flag of the set. -/
structure Ruleset where
  id : Id
  iface : Word
  configured : Bool
  startIdx : UInt32
  enabled : Bool
  ipset : Option Bool
  ipsetToLink : Option IpsetToLink

/-- `mt_ipset_to_link_new`. -/
def IpsetToLink.new (rs : Ruleset) : IpsetToLink :=
  ⟨rs.id, rs.iface, rs.startIdx, 0, false, fun _ => ⟨false, false, false, none⟩⟩

def IpsetToLink.chains (l : IpsetToLink) : Rebuild.Link := ⟨l.id, l.iface, l.mark, l.enabled⟩

/-- The interface is `MT_IPSET_TO_LINK_BLACKHOLE`. -/
def IpsetToLink.isBlackhole (l : IpsetToLink) : Bool := l.iface.bytes = str "blackhole"

/-! ## One family -/

/-- A family and what the link remembers of it. -/
abbrev Part := Side × FamilyState

namespace Part

/-- The rules after `mt_rtnl_rule_del`: to find nothing is no error. -/
def ruleDel (rules : List IpRule) (r : IpRule) (answer : Option Err) : List IpRule :=
  if answer.isSome then rules else rules.erase r

/-- `insert_ip_rule` for a family: the answer `del` to the deletion before it is ignored. -/
def insertIpRule (mark : UInt32) (del answer : Option Err) (p : Part) : Part × Option Err :=
  let (s, fs) := p
  if s.engine.isNone then (p, none)
  else
    let r : IpRule := ⟨mark, mark⟩
    let rules := ruleDel s.rules r del
    let s := { s with rules := rules }
    match answer with
    | some e => ((s, fs), some e)
    | none =>
      if r ∈ rules then ((s, fs), some .exist)
      else (({ s with rules := rules ++ [r] }, { fs with ruleAdded := true }), none)

/-- A route added with `NLM_F_EXCL`; one of the same metric that is there already stays. -/
def addRoute (routes : Routes) (table : UInt32) (metric : Nat) (t : Target) : Routes :=
  fun n m => if n = table ∧ m = metric ∧ routes n m = none then some t else routes n m

/-- The black-hole routes of `insert_ip_route`. -/
def insertBlackhole (mark : UInt32) (answer : Option Err) (p : Part) : Part × Option Err :=
  let (s, fs) := p
  if s.engine.isNone then (p, none)
  else
    match answer with
    | some e => (p, some e)
    | none => (({ s with routes := addRoute s.routes mark 20 .blackhole },
        { fs with blackholeAdded := true }), none)

/-- `mt_rtnl_route_del_iface`: index zero stands for any interface, no gateway for any gateway. -/
def routeDelIface (routes : Routes) (table : UInt32) (oif : Nat) (gw : Option Bytes) : Routes :=
  fun n m =>
    if n = table ∧ m = 10 then (routes n m).filter fun
      | .blackhole => false
      | .via r => !((oif = 0 ∨ r.oif = oif) ∧ (gw = none ∨ r.gw = gw))
    else routes n m

/-- The end of `update_iface_route`: the request to add the route, and what is remembered of it. -/
def addIfaceRoute (mark : UInt32) (li : LinkInfo) (answer : Option Err) (gw : Option Bytes)
    (p : Part) : Part × Option Err :=
  let (s, fs) := p
  match answer with
  | some e => (p, some e)
  | none =>
    if !s.ready then ((s, { fs with ifaceRoutePresent := false }), none)
    else if !li.up then (p, some .sys)
    else (({ s with routes := addRoute s.routes mark 10 (.via ⟨li.ifindex, gw⟩) },
      { fs with ifaceRoutePresent := true, gw := gw }), none)

/-- `update_iface_route`; `lookup` is the answer to the search for a gateway, `del` that to the
deletion of the old route. -/
def updateIfaceRoute (mark : UInt32) (li : LinkInfo) (lookup : Except Err (Option Bytes))
    (del answer : Option Err) (p : Part) : Part × Option Err :=
  let (s, fs) := p
  if s.engine.isNone then (p, none)
  else
    let gw := if li.pointToPoint then none else lookup.toOption.getD none
    if fs.ifaceRoutePresent then
      if gw = fs.gw then (p, none)
      else if gw.isSome then
        match del with
        | some e => (p, some e)
        | none =>
          addIfaceRoute mark li answer gw
            ({ s with routes := routeDelIface s.routes mark li.ifindex fs.gw },
              { fs with ifaceRoutePresent := false })
      else addIfaceRoute mark li answer gw p
    else addIfaceRoute mark li answer gw p

/-- `insert_iptables_rules`. -/
def insertIptablesRules (pre : Prefixes) (l : IpsetToLink) (f : Family) (save restore : Option Err)
    (p : Part) : Part × Option Err :=
  match p.1.engine with
  | none => (p, none)
  | some e =>
    let r := e.insertRules (answering Iptables.fake save restore)
      (Rebuild.buildIptablesRules pre l.chains f)
    (({ p.1 with engine := some r.1 }, p.2), r.2)

/-- The first half of `delete_ip_route`: an interface that is not found has the index zero. -/
def deleteIfaceRoute (mark : UInt32) (link : Option LinkInfo) (lookup answer : Option Err)
    (p : Part) : Part × Option Err :=
  let (s, fs) := p
  if !fs.ifaceRoutePresent then (p, none)
  else
    let ifindex := if lookup.isSome then 0 else link.elim 0 LinkInfo.ifindex
    let routes := if answer.isSome then s.routes else routeDelIface s.routes mark ifindex fs.gw
    (({ s with routes := routes }, { fs with ifaceRoutePresent := false }), answer)

/-- `mt_rtnl_route_del_blackhole`. -/
def routeDelBlackhole (routes : Routes) (table : UInt32) : Routes :=
  fun n m => if n = table ∧ m = 20 ∧ routes n m = some .blackhole then none else routes n m

/-- The second half of `delete_ip_route`. -/
def deleteBlackhole (mark : UInt32) (answer : Option Err) (p : Part) : Part × Option Err :=
  let (s, fs) := p
  if !fs.blackholeAdded then (p, none)
  else
    let routes := if answer.isSome then s.routes else routeDelBlackhole s.routes mark
    (({ s with routes := routes }, { fs with blackholeAdded := false }), answer)

/-- `delete_ip_rule`. -/
def deleteIpRule (mark : UInt32) (answer : Option Err) (p : Part) : Part × Option Err :=
  let (s, fs) := p
  if !fs.ruleAdded then (p, none)
  else
    (({ s with rules := ruleDel s.rules ⟨mark, mark⟩ answer }, { fs with ruleAdded := false }),
      answer)

/-- `delete_iptables_rules`. -/
def deleteIptablesRules (pre : Prefixes) (l : IpsetToLink) (save restore : Option Err) (p : Part) :
    Part × Option Err :=
  match p.1.engine with
  | none => (p, none)
  | some e =>
    let r := e.removeRules (answering Iptables.fake save restore)
      (Rebuild.deleteIptablesRules pre l.chains)
    (({ p.1 with engine := some r.1 }, p.2), r.2)

end Part

/-! ## The link -/

structure Work where
  sys : System
  l : IpsetToLink

namespace Work

def part (w : Work) (f : Family) : Part := (w.sys.sides f, w.l.fs f)

def setPart (w : Work) (f : Family) (p : Part) : Work where
  sys := { w.sys with sides := Function.update w.sys.sides f p.1 }
  l := { w.l with fs := Function.update w.l.fs f p.2 }

def on (w : Work) (f : Family) (act : Part → Part × Option Err) : Work × Option Err :=
  (w.setPart f (act (w.part f)).1, (act (w.part f)).2)

/-- The second family only after the first. -/
def inTurn (w : Work) (act : Family → Part → Part × Option Err) : Work × Option Err :=
  untilErr (fun w f => w.on f (act f)) w [.v4, .v6]

def also (r : Work × Option Err) (next : Work → Work × Option Err) : Work × Option Err :=
  ((next r.1).1, r.2 <|> (next r.1).2)

/-- Both families. -/
def both (w : Work) (act : Family → Part → Part × Option Err) : Work × Option Err :=
  also (w.on .v4 (act .v4)) (·.on .v6 (act .v6))

def andThen (r : Work × Option Err) (next : Work → Work × Option Err) : Work × Option Err :=
  match r with
  | (w, some e) => (w, some e)
  | (w, none) => next w

/-- The routes through the interface. -/
def updateRoutes (w : Work) (a : Answers) (li : LinkInfo) : Work × Option Err :=
  w.inTurn fun f => Part.updateIfaceRoute w.l.mark li (a.gateway f) (a.routeDel f) (a.route f)

/-- The end of `insert_ip_route`. -/
def insertIfaceRoute (w : Work) (a : Answers) : Work × Option Err :=
  if w.l.isBlackhole then (w, none)
  else
    match a.link with
    | some e => (w, some e)
    | none =>
      match w.sys.link with
      | none => (w, none)
      | some li => if li.up then w.updateRoutes a li else (w, none)

/-- `insert_ip_route`. -/
def insertIpRoute (w : Work) (a : Answers) : Work × Option Err :=
  andThen (w.inTurn fun f => Part.insertBlackhole w.l.mark (a.blackhole f)) (insertIfaceRoute · a)

/-- `delete_ip_route`. -/
def deleteIpRoute (r : Removals) (w : Work) : Work × Option Err :=
  also (w.both fun f => Part.deleteIfaceRoute w.l.mark w.sys.link (r.link f) (r.route f))
    (·.both fun f => Part.deleteBlackhole w.l.mark (r.blackhole f))

/-- `delete_ip_rule`. -/
def deleteIpRule (r : Removals) (w : Work) : Work × Option Err :=
  w.both fun f => Part.deleteIpRule w.l.mark (r.rule f)

/-- `teardown`: routes, rules, and then the chains. -/
def teardown (pre : Prefixes) (r : Removals) (w : Work) : Work × Option Err :=
  also (also (w.deleteIpRoute r) (deleteIpRule r))
    (·.both fun f => Part.deleteIptablesRules pre w.l (r.save f) (r.restore f))

/-- The steps of `mt_ipset_to_link_enable` after the choice of the number. -/
def setUp (pre : Prefixes) (a : Answers) (w : Work) : Work × Option Err :=
  andThen (w.inTurn fun f => Part.insertIpRule w.l.mark (a.ruleDel f) (a.rule f)) fun w =>
    andThen (w.insertIpRoute a) fun w =>
      w.inTurn fun f => Part.insertIptablesRules pre w.l f (a.save f) (a.restore f)

/-- `mt_ipset_to_link_enable`. -/
def enable (pre : Prefixes) (a : Answers) (w : Work) : Work × Option Err :=
  if w.l.enabled then (w, none)
  else
    match allocMarkTable a.dump w.l.startIdx with
    | .error e => (w, some e)
    | .ok idx =>
      match setUp pre a { w with l := { w.l with mark := idx } } with
      | (w, some e) => ((w.teardown pre a.rollback).1, some e)
      | (w, none) => ({ w with l := { w.l with enabled := true } }, none)

/-- `mt_ipset_to_link_disable`. -/
def disable (pre : Prefixes) (r : Removals) (w : Work) : Work × Option Err :=
  if w.l.enabled then teardown pre r { w with l := { w.l with enabled := false } }
  else (w, none)

/-- `mt_ipset_to_link_clear_if_disabled`. -/
def clearIfDisabled (pre : Prefixes) (r : Removals) (w : Work) : Work × Option Err :=
  if w.l.enabled then (w, none) else w.teardown pre r

/-- `mt_ipset_to_link_on_link_up`. -/
def onLinkUp (w : Work) (a : Answers) : Work × Option Err :=
  if w.l.enabled then w.insertIpRoute a else (w, none)

/-- `mt_ipset_to_link_on_addr_change`. -/
def onAddrChange (w : Work) (a : Answers) : Work × Option Err :=
  if !w.l.enabled || w.l.isBlackhole then (w, none)
  else
    match a.link with
    | some e => (w, some e)
    | none => w.sys.link.elim (w, none) (w.updateRoutes a)

end Work

/-! ## The sets -/

namespace System

/-- `real_destroy`: a set that is not there is no error. -/
def destroy (s : System) (name : Bytes) (answer : Option Err) : System × Option Err :=
  match answer with
  | some e => (s, some e)
  | none => ({ s with sets := Function.update s.sets name none }, none)

/-- `real_create`. -/
def create (s : System) (name : Bytes) (f : Family) (answer : Option Err) : System × Option Err :=
  match answer with
  | some e => (s, some e)
  | none =>
    if (s.sets name).isSome then (s, some .exist)
    else ({ s with sets := Function.update s.sets name (some ⟨f, ∅⟩) }, none)

/-- `ipset_destroy_both`. -/
def destroyBoth (pre : Prefixes) (id : Id) (r : Removals) (s : System) : System × Option Err :=
  let r₄ := s.destroy (Rebuild.ipsetName pre id .v4) (r.destroy .v4)
  let r₆ := r₄.1.destroy (Rebuild.ipsetName pre id .v6) (r.destroy .v6)
  (r₆.1, r₄.2 <|> r₆.2)

/-- `ipset_create_both`. -/
def createBoth (pre : Prefixes) (id : Id) (a : Answers) (s : System) : System × Option Err :=
  match s.create (Rebuild.ipsetName pre id .v4) .v4 (a.create .v4) with
  | (s, some e) => (s, some e)
  | (s, none) => s.create (Rebuild.ipsetName pre id .v6) .v6 (a.create .v6)

/-- The first half of `mt_ipset_enable`. -/
def recreateBoth (pre : Prefixes) (id : Id) (a : Answers) (s : System) : System × Option Err :=
  match s.destroyBoth pre id a.clear with
  | (s, some e) => (s, some e)
  | (s, none) => s.createBoth pre id a

/-- `mt_ipset_enable` for a new set. -/
def ipsetEnable (pre : Prefixes) (id : Id) (a : Answers) (s : System) : System × Option Err :=
  match s.recreateBoth pre id a with
  | (s, some e) => ((s.destroyBoth pre id a.rollback).1, some e)
  | (s, none) => (s, none)

end System

/-! ## The ruleset -/

structure World where
  sys : System
  rs : Ruleset

namespace World

/-- `ruleset_enable_locked`. -/
def enableLocked (pre : Prefixes) (a : Answers) (w : World) : World × Option Err :=
  if w.rs.enabled then (w, none)
  else
    let rs := { w.rs with enabled := true }
    if !rs.configured then (⟨w.sys, rs⟩, none)
    else
      match a.socket with
      | some e => (⟨w.sys, rs⟩, some e)
      | none =>
        match Work.clearIfDisabled pre a.clear ⟨w.sys, .new rs⟩ with
        | (k, some e) => (⟨k.sys, rs⟩, some e)
        | (k, none) =>
          match k.sys.ipsetEnable pre rs.id a with
          | (s, some e) => (⟨s, rs⟩, some e)
          | (s, none) =>
            let rs := { rs with ipset := some true }
            match Work.enable pre a ⟨s, k.l⟩ with
            | (k, some e) => (⟨k.sys, rs⟩, some e)
            | (k, none) => (⟨k.sys, { rs with ipsetToLink := some k.l }⟩, none)

/-- `mt_ruleset_disable`. -/
def disable (pre : Prefixes) (r : Removals) (w : World) : World × Option Err :=
  if !w.rs.enabled then (w, none)
  else
    let rs := { w.rs with enabled := false }
    if !rs.configured then (⟨w.sys, rs⟩, none)
    else
      let r₁ := rs.ipsetToLink.elim (w.sys, none) fun l =>
        let k := Work.disable pre r ⟨w.sys, l⟩
        (k.1.sys, k.2)
      let r₂ := if rs.ipset = some true then r₁.1.destroyBoth pre rs.id r else (r₁.1, none)
      (⟨r₂.1, { rs with ipset := none, ipsetToLink := none }⟩, r₁.2 <|> r₂.2)

/-- `mt_ruleset_enable`. -/
def enable (pre : Prefixes) (a : Answers) (w : World) : World × Option Err :=
  match w.enableLocked pre a with
  | (w, some e) => ((w.disable pre a.rollback).1, some e)
  | (w, none) => (w, none)

/-- `mt_ruleset_on_link_up` and `mt_ruleset_on_addr_change`, by what they call. -/
def onLink (act : Work → Work × Option Err) (w : World) : World :=
  if !w.rs.enabled || !w.rs.configured then w
  else
    match w.rs.ipsetToLink with
    | none => w
    | some l =>
      let k := (act ⟨w.sys, l⟩).1
      ⟨k.sys, { w.rs with ipsetToLink := some k.l }⟩

end World

/-! ## What happens in between -/

/-- The routes through the interface, as it was, that the kernel keeps: those through the interface
as it is, if it is up and takes routes of the family. -/
def survives (old new : Option LinkInfo) (ready : Bool) : Target → Bool
  | .blackhole => true
  | .via r =>
    !(old.any fun li => li.ifindex = r.oif) ||
      ready && new.any fun li => li.up && li.ifindex = r.oif

def System.interface (link : Option LinkInfo) (ready : Family → Bool) (s : System) : System where
  sets := s.sets
  link := link
  sides f := { s.sides f with
    routes := fun n m => ((s.sides f).routes n m).filter (survives s.link link (ready f))
    ready := ready f }

/-- Between two calls: the kernel changes the interface, or reports it. -/
inductive Event where
  | interface (link : Option LinkInfo) (ready : Family → Bool)
  | linkUp (a : Answers)
  | addrChange (a : Answers)

def System.step (s : System) : Event → System
  | .interface link ready => s.interface link ready
  | _ => s

def World.step (w : World) : Event → World
  | .interface link ready => { w with sys := w.sys.interface link ready }
  | .linkUp a => w.onLink (Work.onLinkUp · a)
  | .addrChange a => w.onLink (Work.onAddrChange · a)

end MagiTrickle.Enable
