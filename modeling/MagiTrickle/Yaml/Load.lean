import MagiTrickle.Config.Load
import MagiTrickle.Lib.Yaml
import MagiTrickle.Yaml.Scalar

/-!
# Reading a configuration (`config/yaml_load.c`)

The fields of `mt_config_t` out of the document that the parser makes of a file.
A field that is absent or null keeps its default. Rules, groups and
subscriptions are then added as `Config.loadBuffer` has it.
-/

namespace MagiTrickle.Yaml

open Lib.Yaml
open Config (SubRule GroupNode SubscriptionNode durationParse toInt64)

/-! ## `mt_app_config_t` -/

structure AddrPort where
  address : Bytes
  port : UInt16
  deriving DecidableEq, Repr

structure HttpWeb where
  enabled : Bool
  auth : Bool
  host : AddrPort
  skin : Bytes
  deriving DecidableEq, Repr

structure DnsProxy where
  host : AddrPort
  upstream : AddrPort
  disableRemap53 : Bool
  disableFakePtr : Bool
  disableDropAaaa : Bool
  maxIdleConns : UInt64
  maxConcurrent : UInt64
  timeout : Int
  deriving DecidableEq, Repr

structure Netfilter where
  chainPrefix : Bytes
  tablePrefix : Bytes
  additionalTtl : Int
  disableIpv4 : Bool
  disableIpv6 : Bool
  startMarkTableIndex : UInt32
  deriving DecidableEq, Repr

/-- `mt_app_config_t`. -/
structure AppConfig where
  httpWeb : HttpWeb
  dnsProxy : DnsProxy
  netfilter : Netfilter
  link : List Bytes
  showAllInterfaces : Bool
  logLevel : Bytes
  deriving DecidableEq, Repr

/-- `MT_DURATION_MS`. -/
def durationMs : Int := 1000000

/-- `MT_DURATION_SEC`. -/
def durationSec : Int := 1000000000

/-- `mt_app_config_init_defaults`. -/
def defaultAppConfig : AppConfig where
  httpWeb := ⟨true, false, ⟨str "[::]", 8080⟩, str "default"⟩
  dnsProxy := ⟨⟨str "[::]", 3553⟩, ⟨str "127.0.0.1", 53⟩, false, false, false, 10, 100,
    5000 * durationMs⟩
  netfilter := ⟨str "MT_", str "mt_", 3600 * durationSec, false, false, 0x4D616769⟩
  link := [str "br0"]
  showAllInterfaces := false
  logLevel := str "info"

/-- `mt_config_t`. -/
structure Settings where
  app : AppConfig
  data : Config.Config

/-- `mt_config_init_defaults`. -/
def initDefaults : Settings := ⟨defaultAppConfig, Config.initDefaults⟩

/-! ## Getters -/

/-- `node_is_null`. -/
def nodeIsNull : Node → Bool
  | .scalar .plain text => resolvePlain text = .null
  | _ => false

def present (n : Option Node) : Option Node := n.filter (!nodeIsNull ·)

/-- `get_string`. -/
def getString (n : Option Node) (dst : Bytes) : Except Err Bytes :=
  match present n with
  | none => .ok dst
  | some (.scalar _ text) => .ok text
  | some _ => .error .inval

/-- `get_bool`. -/
def getBool (n : Option Node) (dst : Bool) : Except Err Bool :=
  match present n with
  | none => .ok dst
  | some (.scalar .plain text) =>
    match resolvePlain text with
    | .bool b => .ok b
    | _ => .error .inval
  | some _ => .error .inval

/-- The whole number of a scalar, if it has one that is not negative; a whole one from `2 ^ 64` on
cannot be converted. -/
def uintOf : Scalar → Option Nat
  | .int v => if v < 0 then none else some v.toNat
  | .float neg (.fin x) =>
    if (neg → x = 0) ∧ x.den = 1 ∧ x.num < 2 ^ 64 then some x.num.toNat else none
  | _ => none

/-- `get_uint64`; `none` for a field that is absent. -/
def getUint64 (n : Option Node) (max : Nat) : Except Err (Option Nat) :=
  match present n with
  | none => .ok none
  | some (.scalar .plain text) =>
    match uintOf (resolvePlain text) with
    | some v => if v > max then .error .inval else .ok (some v)
    | none => .error .inval
  | some _ => .error .inval

/-- `get_duration`; `none` for a field that is absent. -/
def getDuration (n : Option Node) : Except Err (Option Int) :=
  match present n with
  | none => .ok none
  | some (.scalar style text) =>
    match if style = .plain then resolvePlain text else .str with
    | .int v => .ok (some (toInt64 v))
    | .str => match durationParse text with
      | .ok d => .ok (some d)
      | .error _ => .error .inval
    | _ => .error .inval
  | some _ => .error .inval

/-- `get_id`. -/
def getId (n : Option Node) : Except Err Id :=
  match present n with
  | none => .ok ⟨0, 0, 0, 0⟩
  | some (.scalar _ text) =>
    match Id.parse text with
    | some id => .ok id
    | none => .error .inval
  | some _ => .error .inval

def itemText : Node → Except Err Bytes
  | .scalar _ text => .ok text
  | _ => .error .inval

/-- `get_string_list`. -/
def getStringList (n : Option Node) (dst : List Bytes) : Except Err (List Bytes) :=
  match present n with
  | none => .ok dst
  | some (.sequence items) => items.mapM itemText
  | some _ => .error .inval

/-- A mapping inside another; where it is absent, what is there stays. -/
def getSection {α : Type} (n : Option Node) (dst : α) (load : Node → Except Err α) : Except Err α :=
  match present n with
  | none => .ok dst
  | some (.mapping pairs) => load (.mapping pairs)
  | some _ => .error .inval

/-! ## Sections -/

/-- `load_addr_port`. -/
def loadAddrPort (n : Option Node) (a : AddrPort) : Except Err AddrPort :=
  getSection n a fun n => do
    let address ← getString (n.get (str "address")) a.address
    let port ← getUint64 (n.get (str "port")) (2 ^ 16 - 1)
    return ⟨address, (port.map UInt16.ofNat).getD a.port⟩

/-- `httpWeb` in `load_app`. -/
def loadHttpWeb (n : Option Node) (c : HttpWeb) : Except Err HttpWeb :=
  getSection n c fun n => do
    let enabled ← getBool (n.get (str "enabled")) c.enabled
    let skin ← getString (n.get (str "skin")) c.skin
    let host ← loadAddrPort (n.get (str "host")) c.host
    let auth ← getSection (n.get (str "auth")) c.auth fun a =>
      getBool (a.get (str "enabled")) c.auth
    return ⟨enabled, auth, host, skin⟩

/-- A duration shorter than `unit` is taken for a number of them. -/
def normalize (unit t : Int) : Int := if t < unit then toInt64 (t * unit) else t

/-- `dnsProxy` in `load_app`. -/
def loadDnsProxy (n : Option Node) (c : DnsProxy) : Except Err DnsProxy :=
  getSection n c fun n => do
    let upstream ← loadAddrPort (n.get (str "upstream")) c.upstream
    let host ← loadAddrPort (n.get (str "host")) c.host
    let disableRemap53 ← getBool (n.get (str "disableRemap53")) c.disableRemap53
    let disableFakePtr ← getBool (n.get (str "disableFakePTR")) c.disableFakePtr
    let disableDropAaaa ← getBool (n.get (str "disableDropAAAA")) c.disableDropAaaa
    let maxIdleConns ← getUint64 (n.get (str "maxIdleConns")) (2 ^ 64 - 1)
    let maxConcurrent ← getUint64 (n.get (str "maxConcurrent")) (2 ^ 64 - 1)
    let timeout ← getDuration (n.get (str "timeout"))
    return ⟨host, upstream, disableRemap53, disableFakePtr, disableDropAaaa,
      (maxIdleConns.map UInt64.ofNat).getD c.maxIdleConns,
      (maxConcurrent.map UInt64.ofNat).getD c.maxConcurrent,
      (timeout.map (normalize durationMs)).getD c.timeout⟩

/-- `netfilter` in `load_app`. -/
def loadNetfilter (n : Option Node) (c : Netfilter) : Except Err Netfilter :=
  getSection n c fun n => do
    let chainPrefix ← getSection (n.get (str "iptables")) c.chainPrefix fun n =>
      getString (n.get (str "chainPrefix")) c.chainPrefix
    let (tablePrefix, additionalTtl) ←
      getSection (n.get (str "ipset")) (c.tablePrefix, c.additionalTtl) fun n => do
        let tablePrefix ← getString (n.get (str "tablePrefix")) c.tablePrefix
        let ttl ← getDuration (n.get (str "additionalTTL"))
        return (tablePrefix, (ttl.map (normalize durationSec)).getD c.additionalTtl)
    let disableIpv4 ← getBool (n.get (str "disableIPv4")) c.disableIpv4
    let disableIpv6 ← getBool (n.get (str "disableIPv6")) c.disableIpv6
    let idx ← getUint64 (n.get (str "startMarkTableIndex")) (2 ^ 32 - 1)
    return ⟨chainPrefix, tablePrefix, additionalTtl, disableIpv4, disableIpv6,
      (idx.map UInt32.ofNat).getD c.startMarkTableIndex⟩

/-- `load_app`, where there is something to load. -/
def loadApp (n : Option Node) (c : AppConfig) : Except Err AppConfig :=
  getSection n c fun n => do
    let httpWeb ← loadHttpWeb (n.get (str "httpWeb")) c.httpWeb
    let dnsProxy ← loadDnsProxy (n.get (str "dnsProxy")) c.dnsProxy
    let netfilter ← loadNetfilter (n.get (str "netfilter")) c.netfilter
    let link ← getStringList (n.get (str "link")) c.link
    let showAllInterfaces ← getBool (n.get (str "showAllInterfaces")) c.showAllInterfaces
    let logLevel ← getString (n.get (str "logLevel")) c.logLevel
    return ⟨httpWeb, dnsProxy, netfilter, link, showAllInterfaces, logLevel⟩

/-! ## Rules, groups and subscriptions -/

def mappingOr (n : Node) : Except Err Unit :=
  match n with
  | .mapping _ => .ok ()
  | _ => .error .inval

/-- `load_rule`. -/
def loadRule (n : Node) : Except Err Config.Rule := do
  mappingOr n
  let id ← getId (n.get (str "id"))
  let name ← getString (n.get (str "name")) []
  let type ← getString (n.get (str "type")) []
  let rule ← getString (n.get (str "rule")) []
  let enable ← getBool (n.get (str "enable")) false
  return ⟨id, name, type, rule, enable⟩

/-- `load_sub_rule`. -/
def loadSubRule (n : Node) : Except Err SubRule := do
  mappingOr n
  let id ← getId (n.get (str "id"))
  let rule ← getString (n.get (str "rule")) []
  let type ← getString (n.get (str "type")) []
  let enable ← getBool (n.get (str "enable")) false
  return ⟨id, rule, type, enable⟩

def loadItems {α : Type} (load : Node → Except Err α) : List Node → List α × Option Err
  | [] => ([], none)
  | n :: ns =>
    match load n with
    | .error e => ([], some e)
    | .ok x =>
      let (xs, err) := loadItems load ns
      (x :: xs, err)

/-- The sequence `rules`. -/
def loadRules {α : Type} (n : Option Node) (load : Node → Except Err α) : List α × Option Err :=
  match present n with
  | none => ([], none)
  | some (.sequence items) => loadItems load items
  | some _ => ([], some .inval)

def groupFields (n : Node) : Except Err GroupNode := do
  mappingOr n
  let id ← getId (n.get (str "id"))
  let name ← getString (n.get (str "name")) []
  let color ← getString (n.get (str "color")) []
  let iface ← getString (n.get (str "interface")) []
  let enable ← getBool (n.get (str "enable")) false
  return ⟨id, name, color, iface, enable, [], none⟩

/-- `load_group`. -/
def loadGroup (n : Node) : GroupNode :=
  match groupFields n with
  | .error e => ⟨⟨0, 0, 0, 0⟩, [], [], [], false, [], some e⟩
  | .ok g =>
    let (rules, err) := loadRules (n.get (str "rules")) loadRule
    { g with rules := rules, err := err }

def subscriptionFields (n : Node) : Except Err SubscriptionNode := do
  mappingOr n
  let id ← getId (n.get (str "id"))
  let name ← getString (n.get (str "name")) []
  let iface ← getString (n.get (str "interface")) []
  let enable ← getBool (n.get (str "enable")) false
  let url ← getString (n.get (str "url")) []
  let interval ← getUint64 (n.get (str "interval")) (2 ^ 32 - 1)
  let lastUpdate ← getUint64 (n.get (str "last_update")) (2 ^ 32 - 1)
  return ⟨id, name, iface, enable, url, interval.getD 0, lastUpdate.getD 0, [], none⟩

/-- `load_subscription`. -/
def loadSubscription (n : Node) : SubscriptionNode :=
  match subscriptionFields n with
  | .error e => ⟨⟨0, 0, 0, 0⟩, [], [], false, [], 0, 0, [], some e⟩
  | .ok s =>
    let (rules, err) := loadRules (n.get (str "rules")) loadSubRule
    { s with rules := rules, err := err }

/-- A sequence of the root: `none` where it is absent or null. -/
def rootSequence {α : Type} (n : Option Node) (load : Node → α) : Except Err (Option (List α)) :=
  match present n with
  | none => .ok none
  | some (.sequence items) => .ok (some (items.map load))
  | some _ => .error .inval

/-! ## The document -/

/-- What the document of a file says, or of an empty one. -/
def loadDocument (cfg : Settings) (root : Option Node) : Except Err Settings := do
  if let some n := root then mappingOr n
  let field (key : String) : Option Node := root.bind fun n => n.get (str key)
  let version ← getString (field "configVersion") []
  if !(str "0.").isPrefixOf version then throw .state
  let app ← loadApp (field "app") cfg.app
  let data ← (Config.loadBuffer cfg.data ⟨none, rootSequence (field "groups") loadGroup,
    rootSequence (field "subscriptions") loadSubscription⟩).2
  return ⟨app, data⟩

/-- The library: what its emitter writes for events, if they can be made and written, and the root
of what its parser reads, which an empty document does not have. -/
structure Library where
  emit : List Event → Option Bytes
  parse : Bytes → Option (Option Node)

/-- `mt_config_load_buffer`. -/
def configLoadBuffer (lib : Library) (cfg : Settings) (buf : Bytes) : Except Err Settings :=
  match lib.parse buf with
  | none => .error .proto
  | some root => loadDocument cfg root

end MagiTrickle.Yaml
