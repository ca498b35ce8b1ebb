import MagiTrickle.Config.Ids
import MagiTrickle.Iptables.Staging
import MagiTrickle.Lib.Runs
import MagiTrickle.Netfilter.IpsetToLink

/-!
# Rebuilding the tables (`netfilter/cleaner.c`, `netfilter/port_remap.c`, `api/app.c`)

The parts of the daemon that drive the iptables engines: the chains of a link,
the chain of the port remap, the cleaner, and `rebuildNetfilter`, which cleans
the tables and stages everything that is enabled. Engines are changed in place,
so that a function that gives up leaves behind what it has staged; each returns
the state and its error.

`Op` is what can happen to the tables and the engines between two rebuilds.
-/

namespace MagiTrickle.Rebuild

open Iptables
open Netfilter (Family)
open Lib.Runs (untilErr)

/-! ## Configuration -/

structure Word where
  bytes : Bytes
  isToken : IsToken bytes
  deriving DecidableEq

/-- `chain_prefix` and `table_prefix` of the netfilter configuration, without blanks. The name
buffers hold `chain_prefix` and an id. -/
structure Prefixes where
  chain : Bytes
  table : Bytes
  plain : ∀ b ∈ chain ++ table, isBlank b = false ∧ b ≠ 10
  short : chain.length < 120

/-- `mt_ipset_to_link_t` of a ruleset, as far as iptables goes. `enabled` is off where the ruleset
has no link. -/
structure Link where
  id : Id
  iface : Word
  mark : UInt32
  enabled : Bool
  deriving DecidableEq

/-- `mt_remap_addr_t`, the address as `inet_ntop` prints it. -/
structure RemapAddr where
  iplen : Nat
  text : Word
  deriving DecidableEq

/-- `mt_port_remap_t`. -/
structure PortRemap where
  addrs : List RemapAddr
  fromPort : UInt16
  toPort : UInt16
  enabled : Bool
  deriving DecidableEq

/-- `chain_name` of a ruleset. -/
def chainName (p : Prefixes) (id : Id) : Bytes := (p.chain ++ id.format).take 127

/-- `mt_ipset_name4` and `mt_ipset_name6`. -/
def ipsetName (p : Prefixes) (id : Id) : Family → Bytes
  | .v4 => (p.table ++ id.format).take 127 ++ str "_4"
  | .v6 => (p.table ++ id.format).take 127 ++ str "_6"

/-- `chain_name` of the port remap. -/
def remapChain (p : Prefixes) : Bytes := p.chain ++ str "DNSOR"

def jump (chain : Bytes) : Iptables.Rule := [str "-j", chain]

/-! ## Staging -/

/-- `build_iptables_rules`. -/
def buildIptablesRules (p : Prefixes) (l : Link) (f : Family) : List Call :=
  let chain := chainName p l.id
  let set := ipsetName p l.id f
  [.registerOverride (str "filter") chain] ++
    (if l.iface.bytes = str "blackhole" then []
      else [.append (str "filter") chain [str "-o", l.iface.bytes, str "-m", str "set",
        str "--match-set", set, str "dst", str "-j", str "ACCEPT"]]) ++
    [.append (str "filter") (str "FORWARD") (jump chain),
      .registerOverride (str "mangle") chain,
      .append (str "mangle") chain
        [str "-m", str "conntrack", str "--ctdir", str "REPLY", str "-j", str "RETURN"],
      .append (str "mangle") chain [str "-m", str "set", str "--match-set", set, str "dst",
        str "-j", str "MARK", str "--set-mark", Libc.digits l.mark.toNat],
      .append (str "mangle") chain [str "-m", str "set", str "--match-set", set, str "dst",
        str "-j", str "CONNMARK", str "--save-mark"],
      .append (str "mangle") (str "PREROUTING") (jump chain),
      .registerOverride (str "nat") chain,
      .append (str "nat") chain
        [str "-m", str "set", str "--match-set", set, str "dst", str "-j", str "MASQUERADE"],
      .append (str "nat") (str "POSTROUTING") (jump chain)]

/-- The calls of `delete_iptables_rules`. -/
def deleteIptablesRules (p : Prefixes) (l : Link) : List Call :=
  let chain := chainName p l.id
  [.registerDelete (str "filter") chain, .delete (str "filter") (str "FORWARD") (jump chain),
    .registerDelete (str "mangle") chain, .delete (str "mangle") (str "PREROUTING") (jump chain),
    .registerDelete (str "nat") chain, .delete (str "nat") (str "POSTROUTING") (jump chain)]

/-- `matches` of `build_rules`. -/
def RemapAddr.isOf (a : RemapAddr) : Family → Bool
  | .v4 => a.iplen = 4
  | .v6 => a.iplen = 16

def remapRule (r : PortRemap) (proto : Bytes) (a : RemapAddr) : Iptables.Rule :=
  [str "-p", proto, str "-d", a.text.bytes, str "--dport", Libc.digits r.fromPort.toNat,
    str "-j", str "DNAT", str "--to-destination", str ":" ++ Libc.digits r.toPort.toNat]

/-- `build_rules` of the port remap. -/
def buildRules (p : Prefixes) (r : PortRemap) (f : Family) : List Call :=
  [.registerOverride (str "nat") (remapChain p)] ++
    ((r.addrs.filter fun a => a.isOf f).flatMap fun a =>
      [.append (str "nat") (remapChain p) (remapRule r (str "tcp") a),
        .append (str "nat") (remapChain p) (remapRule r (str "udp") a)]) ++
    [.insert (str "nat") (str "PREROUTING") 1 (jump (remapChain p))]

/-- The calls of `delete_rules` of the port remap. -/
def deleteRules (p : Prefixes) : List Call :=
  [.registerDelete (str "nat") (remapChain p),
    .delete (str "nat") (str "PREROUTING") (jump (remapChain p))]

def call (ipt : Ipt) (c : Call) : Ipt × Option Err :=
  match c.run ipt with
  | .ok ipt => (ipt, none)
  | .error e => (ipt, some e)

/-! ## Engines -/

/-- `mt_ipt_t` with the tables its executable works on. -/
structure Engine (σ : Type) where
  ipt : Ipt
  kernel : σ
  deriving DecidableEq

namespace Engine

variable {σ : Type}

/-- `mt_ipt_commit`. -/
def commit (exe : Executable σ) (raised : Bool × Bool) (e : Engine σ) : Engine σ × Option Err :=
  match Iptables.commit exe raised e.ipt e.kernel with
  | .ok (k, _) => ({ e with kernel := k }, none)
  | .error err => (e, some err)

def stage (calls : List Call) (e : Engine σ) : Engine σ × Option Err :=
  let r := untilErr call e.ipt calls
  ({ e with ipt := r.1 }, r.2)

/-- `insert_iptables_rules` and `insert_rules`. Outside a rebuild there is no cancel flag. -/
def insertRules (exe : Executable σ) (calls : List Call) (e : Engine σ) : Engine σ × Option Err :=
  match e.stage calls with
  | (e, some err) => (e, some err)
  | (e, none) => e.commit exe (false, false)

/-- `delete_iptables_rules` and `delete_rules`: nothing stops at an error, the first one counts. -/
def removeRules (exe : Executable σ) (calls : List Call) (e : Engine σ) : Engine σ × Option Err :=
  let staged := calls.foldl (fun r c => ((call r.1 c).1, r.2 <|> (call r.1 c).2)) (e.ipt, none)
  let r := Engine.commit exe (false, false) { e with ipt := staged.1 }
  (r.1, staged.2 <|> r.2)

/-! ## The cleaner -/

/-- The buffer `jump` of `clean_one`. -/
def jumpText (pre : Bytes) : Bytes := (str "-j " ++ pre).take 127

/-- `mt_ipt_rule_contains` with that text. -/
def isJump (pre : Bytes) (r : Iptables.Rule) : Bool := decide (jumpText pre <:+: ruleString r)

/-- The name starts with the prefix. -/
def isOwn (pre chain : Bytes) : Bool := decide (pre <+: chain)

/-- The deletion of one rule; the chain is registered if it is not. -/
def cleanRule (table chain : Bytes) (ipt : Ipt) (r : Iptables.Rule) : Ipt × Option Err :=
  match call ipt (.delete table chain r) with
  | (ipt, some .state) => call (registerChainPatch ipt table chain) (.delete table chain r)
  | res => res

def cleanChain (pre table : Bytes) (ipt : Ipt) (c : ChainRules) : Ipt × Option Err :=
  if isOwn pre c.name then (registerChainDelete ipt table c.name, none)
  else untilErr (cleanRule table c.name) ipt (c.rules.filter (isJump pre))

/-- The loops of `clean_one` over a snapshot. -/
def cleanTables (pre : Bytes) (ipt : Ipt) (snap : Tables) : Ipt × Option Err :=
  untilErr (fun ipt t => untilErr (cleanChain pre t.name) ipt t.chains) ipt snap

/-- `clean_one`: the engine after it, and the text given to the executable. `raised` are the answers
of the looks at the cancel flag. -/
def cleanOne (exe : Executable σ) (pre : Bytes) (raised : Bool × Bool) (e : Engine σ) :
    Engine σ × Except Err Bytes :=
  match (exe.save e.kernel).bind getCurrentRules with
  | .error err => (e, .error err)
  | .ok snap =>
    match cleanTables pre e.ipt snap with
    | (ipt, some err) => ({ e with ipt := ipt }, .error err)
    | (ipt, none) =>
      match Iptables.commit exe raised ipt e.kernel with
      | .error err => ({ e with ipt := ipt }, .error err)
      | .ok (kernel, text) => (⟨ipt, kernel⟩, .ok text)

/-- What `clean_one` returns. -/
def clean (exe : Executable σ) (pre : Bytes) (raised : Bool × Bool) (e : Engine σ) :
    Engine σ × Option Err :=
  match e.cleanOne exe pre raised with
  | (e, .error err) => (e, some err)
  | (e, .ok _) => (e, none)

theorem clean_eq (exe : Executable σ) (pre : Bytes) (raised : Bool × Bool) (e : Engine σ) :
    e.clean exe pre raised = match (exe.save e.kernel).bind getCurrentRules with
      | .error err => (e, some err)
      | .ok snap =>
        match cleanTables pre e.ipt snap with
        | (ipt, some err) => ({ e with ipt := ipt }, some err)
        | (ipt, none) => Engine.commit exe raised { e with ipt := ipt } := by
  unfold clean cleanOne Engine.commit
  cases (exe.save e.kernel).bind getCurrentRules with
  | error err => rfl
  | ok snap =>
    dsimp only
    generalize cleanTables pre e.ipt snap = r
    obtain ⟨ipt, _ | err⟩ := r
    · cases hcommit : Iptables.commit exe raised ipt e.kernel with
      | error err => simp only [hcommit]
      | ok x => simp only [hcommit]
    · rfl

/-- The chains of `mt_netfilter_register_base_chains`. -/
def baseChains : List (Bytes × Bytes) :=
  [(str "filter", str "FORWARD"), (str "mangle", str "PREROUTING"), (str "nat", str "PREROUTING"),
    (str "nat", str "POSTROUTING")]

/-- `mt_netfilter_register_base_chains` for one engine. -/
def registerBaseChains (e : Engine σ) : Engine σ :=
  { e with ipt := baseChains.foldl (fun ipt b => registerChainPatch ipt b.1 b.2) e.ipt }

end Engine

/-! ## The daemon -/

/-- The lists of rulesets: `rulesets` and `sub_rulesets`. -/
inductive Kind where
  | group
  | subscription
  deriving DecidableEq, Repr

/-- The part of `mt_app_t` a rebuild reads. -/
structure State (σ : Type) where
  engines : Family → Option (Engine σ)
  remap : Option PortRemap
  links : Kind → List Link

namespace State

variable {σ : Type}

def on (s : State σ) (f : Family) (act : Engine σ → Engine σ × Option Err) :
    State σ × Option Err :=
  match s.engines f with
  | none => (s, none)
  | some e => ({ s with engines := Function.update s.engines f (some (act e).1) }, (act e).2)

def both (s : State σ) (act : Family → Engine σ → Engine σ × Option Err) : State σ × Option Err :=
  let r := s.on .v4 (act .v4)
  let r' := r.1.on .v6 (act .v6)
  (r'.1, r.2 <|> r'.2)

def inTurn (s : State σ) (act : Family → Engine σ → Engine σ × Option Err) :
    State σ × Option Err :=
  match s.on .v4 (act .v4) with
  | (s, some e) => (s, some e)
  | (s, none) => s.on .v6 (act .v6)

/-- `mt_port_remap_prepare_iptables` and the two loops over the rulesets: what each stages. -/
def prepared (s : State σ) (p : Prefixes) : List (Family → List Call) :=
  (s.remap.toList.map fun r f => if r.enabled then buildRules p r f else []) ++
    (s.links .group ++ s.links .subscription).map fun l f =>
      if l.enabled then buildIptablesRules p l f else []

/-- The staging of a rebuild, up to the first error. -/
def prepareIptables (s : State σ) (p : Prefixes) : State σ × Option Err :=
  untilErr (fun s calls => s.both fun f => Engine.stage (calls f)) s (s.prepared p)

/-- `mt_netfilter_register_base_chains`. -/
def registerBaseChains (s : State σ) : State σ :=
  (s.both fun _ e => (e.registerBaseChains, none)).1

/-- What the looks at the cancel flag say during a rebuild. -/
structure Looks where
  clean : Family → Bool × Bool
  cleaned : Bool
  staged : Bool
  commit : Family → Bool × Bool

/-- `rebuild_netfilter_locked`. -/
def rebuildNetfilter (exe : Executable σ) (p : Prefixes) (looks : Looks) (s : State σ) :
    State σ × Option Err :=
  match s.both fun f => Engine.clean exe p.chain (looks.clean f) with
  | (s, some e) => (s, some e)
  | (s, none) =>
    if looks.cleaned then (s, some .canceled)
    else
      match s.registerBaseChains.prepareIptables p with
      | (s, some e) => (s, some e)
      | (s, none) =>
        if looks.staged then (s, some .canceled)
        else s.inTurn fun f => Engine.commit exe (looks.commit f)

/-! ## What happens between rebuilds -/

def setLink (s : State σ) (k : Kind) (i : Nat) (l : Link) : State σ :=
  { s with links := Function.update s.links k ((s.links k).set i l) }

/-- `teardown` of `ipset_to_link.c`, as far as iptables goes. -/
def teardown (exe : Executable σ) (p : Prefixes) (s : State σ) (l : Link) :
    State σ × Option Err :=
  s.both fun _ => Engine.removeRules exe (deleteIptablesRules p l)

/-- `mt_ipset_to_link_enable` after the mark is chosen. -/
def setUp (exe : Executable σ) (p : Prefixes) (s : State σ) (l : Link) (routeErr : Option Err) :
    State σ × Option Err :=
  match routeErr with
  | some e => (s, some e)
  | none => s.inTurn fun f => Engine.insertRules exe (buildIptablesRules p l f)

/-- `ruleset_enable_locked`: `ipsetErr` is the outcome of the ipset and the choice of the mark,
`routeErr` that of the ip rules and routes. -/
def enable (exe : Executable σ) (p : Prefixes) (s : State σ) (k : Kind) (i : Nat) (mark : UInt32)
    (ipsetErr routeErr : Option Err) : State σ × Option Err :=
  match (s.links k)[i]? with
  | none => (s, none)
  | some l =>
    if l.enabled then (s, none)
    else
      match s.teardown exe p l with
      | (s, some e) => (s, some e)
      | (s, none) =>
        match ipsetErr with
        | some e => (s, some e)
        | none =>
          match s.setUp exe p { l with mark := mark } routeErr with
          | (s, some e) => ((s.teardown exe p l).1, some e)
          | (s, none) => (s.setLink k i { l with mark := mark, enabled := true }, none)

/-- `mt_ipset_to_link_disable`. -/
def disable (exe : Executable σ) (p : Prefixes) (s : State σ) (k : Kind) (i : Nat) :
    State σ × Option Err :=
  match (s.links k)[i]? with
  | none => (s, none)
  | some l =>
    if l.enabled then (s.setLink k i { l with enabled := false }).teardown exe p l
    else (s, none)

/-- `mt_port_remap_enable`. -/
def remapEnable (exe : Executable σ) (p : Prefixes) (s : State σ) : State σ × Option Err :=
  match s.remap with
  | none => (s, none)
  | some r =>
    if r.enabled then (s, none)
    else
      match s.inTurn fun f => Engine.insertRules exe (buildRules p r f) with
      | (s, some e) => ((s.both fun _ => Engine.removeRules exe (deleteRules p)).1, some e)
      | (s, none) => ({ s with remap := some { r with enabled := true } }, none)

/-- `mt_port_remap_disable`. -/
def remapDisable (exe : Executable σ) (p : Prefixes) (s : State σ) : State σ × Option Err :=
  match s.remap with
  | none => (s, none)
  | some r =>
    if r.enabled then
      { s with remap := some { r with enabled := false } }.both fun _ =>
        Engine.removeRules exe (deleteRules p)
    else (s, none)

end State

/-- What the daemon does, and what the firmware does to its tables. -/
inductive Op (σ : Type) where
  /-- The tables of a family are replaced. -/
  | kernel (f : Family) (k : σ)
  | registerBaseChains
  | cleanIptables
  /-- `mt_port_remap_new`. -/
  | remapNew (addrs : List RemapAddr) (fromPort toPort : UInt16)
  | remapEnable
  | remapDisable
  /-- `mt_ruleset_new` at the end of a list. -/
  | push (k : Kind) (id : Id) (iface : Word)
  | enable (k : Kind) (i : Nat) (mark : UInt32) (ipsetErr routeErr : Option Err)
  | disable (k : Kind) (i : Nat)
  /-- A ruleset that is not enabled gets another interface. -/
  | setIface (k : Kind) (i : Nat) (iface : Word)
  /-- A ruleset is disabled and taken off its list. -/
  | remove (k : Kind) (i : Nat)
  | rebuild (looks : State.Looks)
  /-- `mt_app_force_commit_iptables`. -/
  | forceCommit

namespace State

variable {σ : Type}

def step (exe : Executable σ) (p : Prefixes) (s : State σ) : Op σ → State σ
  | .kernel f k => (s.on f fun e => ({ e with kernel := k }, none)).1
  | .registerBaseChains => s.registerBaseChains
  | .cleanIptables => (s.both fun _ => Engine.clean exe p.chain (false, false)).1
  | .remapNew addrs fromPort toPort =>
    match s.remap with
    | none => { s with remap := some ⟨addrs, fromPort, toPort, false⟩ }
    | some _ => s
  | .remapEnable => (s.remapEnable exe p).1
  | .remapDisable => (s.remapDisable exe p).1
  | .push k id iface =>
    { s with links := Function.update s.links k (s.links k ++ [⟨id, iface, 0, false⟩]) }
  | .enable k i mark ipsetErr routeErr => (s.enable exe p k i mark ipsetErr routeErr).1
  | .disable k i => (s.disable exe p k i).1
  | .setIface k i iface =>
    match (s.links k)[i]? with
    | none => s
    | some l => if l.enabled then s else s.setLink k i { l with iface := iface }
  | .remove k i =>
    let s := (s.disable exe p k i).1
    { s with links := Function.update s.links k ((s.links k).eraseIdx i) }
  | .rebuild looks => (s.rebuildNetfilter exe p looks).1
  | .forceCommit => (s.inTurn fun _ => Engine.commit exe (false, false)).1

/-- The daemon before `mt_netfilter_register_base_chains`: engines with nothing staged over the
tables of the families it works on. -/
def start (kernels : Family → Option σ) : State σ where
  engines f := (kernels f).map (⟨iptNew, ·⟩)
  remap := none
  links _ := []

def after (exe : Executable σ) (p : Prefixes) (kernels : Family → Option σ) (ops : List (Op σ)) :
    State σ :=
  ops.foldl (step exe p) (start kernels)

end State

end MagiTrickle.Rebuild
