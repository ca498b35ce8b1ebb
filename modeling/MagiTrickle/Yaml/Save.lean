import MagiTrickle.Yaml.Load

/-!
# Writing a configuration (`config/yaml_save.c`)

The writer hands the events of the document to the emitter one by one. They are
those of a tree (`saveEvents_eq`), which is what the round trip is about.
-/

namespace MagiTrickle.Yaml

open Lib.Yaml
open Config (Rule Group SubRule Subscription durationFormat)

/-! ## Events -/

/-- The style `emit_string` chooses. -/
def stringStyle (value : Bytes) : Style :=
  if 10 ∈ value then .literal else if needsQuote value then .doubleQuoted else .plain

/-- `emit_string`. -/
def emitString (value : Bytes) : List Event := [.scalar (stringStyle value) value]

/-- `emit_plain`. -/
def emitPlain (value : Bytes) : List Event := [.scalar .plain value]

/-- `emit_bool`. -/
def emitBool (v : Bool) : List Event := emitPlain (if v then str "true" else str "false")

/-- `emit_u64`. -/
def emitU64 (v : Nat) : List Event := emitPlain (Libc.digits v)

/-- The text of a duration in a buffer of 40 bytes. -/
def durationText (d : Int) : Bytes := (durationFormat d 40).getD []

/-- `emit_duration`. -/
def emitDuration (d : Int) : List Event := emitPlain (durationText d)

/-- `emit_id`. -/
def emitId (id : Id) : List Event := emitString id.format

def mapStart : List Event := [.mappingStart]

def mapEnd : List Event := [.mappingEnd]

def emitList {α : Type} (emit : α → List Event) (xs : List α) : List Event :=
  .sequenceStart xs.isEmpty :: (xs.flatMap emit ++ [.sequenceEnd])

/-- `emit_rule`. -/
def emitRule (r : Rule) : List Event :=
  mapStart ++ emitPlain (str "id") ++ emitId r.id ++
    emitPlain (str "name") ++ emitString r.name ++ emitPlain (str "type") ++ emitString r.type ++
    emitPlain (str "rule") ++ emitString r.rule ++
    emitPlain (str "enable") ++ emitBool r.enable ++ mapEnd

/-- `emit_group`. -/
def emitGroup (g : Group) : List Event :=
  mapStart ++ emitPlain (str "id") ++ emitId g.id ++
    emitPlain (str "name") ++ emitString g.name ++
    emitPlain (str "color") ++ emitString g.color ++
    emitPlain (str "interface") ++ emitString g.iface ++
    emitPlain (str "enable") ++ emitBool g.enable ++
    emitPlain (str "rules") ++ emitList emitRule g.rules.items ++ mapEnd

/-- `emit_sub_rule`. -/
def emitSubRule (r : SubRule) : List Event :=
  mapStart ++ emitPlain (str "id") ++ emitId r.id ++
    emitPlain (str "rule") ++ emitString r.rule ++ emitPlain (str "type") ++ emitString r.type ++
    emitPlain (str "enable") ++ emitBool r.enable ++ mapEnd

/-- `emit_subscription`. -/
def emitSubscription (s : Subscription) : List Event :=
  mapStart ++ emitPlain (str "id") ++ emitId s.id ++
    emitPlain (str "name") ++ emitString s.name ++
    emitPlain (str "interface") ++ emitString s.iface ++
    emitPlain (str "enable") ++ emitBool s.enable ++ emitPlain (str "url") ++ emitString s.url ++
    emitPlain (str "interval") ++ emitU64 s.interval ++
    emitPlain (str "last_update") ++ emitU64 s.lastUpdate ++
    emitPlain (str "rules") ++ emitList emitSubRule s.rules.items ++ mapEnd

def emitAddrPort (a : AddrPort) : List Event :=
  mapStart ++ emitPlain (str "address") ++ emitString a.address ++
    emitPlain (str "port") ++ emitU64 a.port.toNat ++ mapEnd

def emitHttpWeb (c : HttpWeb) : List Event :=
  mapStart ++ emitPlain (str "enabled") ++ emitBool c.enabled ++ emitPlain (str "auth") ++
    mapStart ++ emitPlain (str "enabled") ++ emitBool c.auth ++ mapEnd ++
    emitPlain (str "host") ++ emitAddrPort c.host ++
    emitPlain (str "skin") ++ emitString c.skin ++ mapEnd

def emitDnsProxy (c : DnsProxy) : List Event :=
  mapStart ++ emitPlain (str "host") ++ emitAddrPort c.host ++
    emitPlain (str "upstream") ++ emitAddrPort c.upstream ++
    emitPlain (str "disableRemap53") ++ emitBool c.disableRemap53 ++
    emitPlain (str "disableFakePTR") ++ emitBool c.disableFakePtr ++
    emitPlain (str "disableDropAAAA") ++ emitBool c.disableDropAaaa ++
    emitPlain (str "maxIdleConns") ++ emitU64 c.maxIdleConns.toNat ++
    emitPlain (str "maxConcurrent") ++ emitU64 c.maxConcurrent.toNat ++
    emitPlain (str "timeout") ++ emitDuration c.timeout ++ mapEnd

def emitNetfilter (c : Netfilter) : List Event :=
  mapStart ++ emitPlain (str "iptables") ++ mapStart ++
    emitPlain (str "chainPrefix") ++ emitString c.chainPrefix ++ mapEnd ++
    emitPlain (str "ipset") ++ mapStart ++
    emitPlain (str "tablePrefix") ++ emitString c.tablePrefix ++
    emitPlain (str "additionalTTL") ++ emitDuration c.additionalTtl ++ mapEnd ++
    emitPlain (str "disableIPv4") ++ emitBool c.disableIpv4 ++
    emitPlain (str "disableIPv6") ++ emitBool c.disableIpv6 ++
    emitPlain (str "startMarkTableIndex") ++ emitU64 c.startMarkTableIndex.toNat ++ mapEnd

/-- The part of `app` in `mt_config_save_buffer`. -/
def emitApp (a : AppConfig) : List Event :=
  mapStart ++ emitPlain (str "httpWeb") ++ emitHttpWeb a.httpWeb ++
    emitPlain (str "dnsProxy") ++ emitDnsProxy a.dnsProxy ++
    emitPlain (str "netfilter") ++ emitNetfilter a.netfilter ++
    emitPlain (str "link") ++ emitList emitString a.link ++
    emitPlain (str "showAllInterfaces") ++ emitBool a.showAllInterfaces ++
    emitPlain (str "logLevel") ++ emitString a.logLevel ++ mapEnd

/-- The events of `mt_config_save_buffer`. -/
def saveEvents (cfg : Settings) (version : Bytes) : List Event :=
  [.streamStart, .documentStart] ++
    (mapStart ++ emitPlain (str "configVersion") ++ emitString version ++
      emitPlain (str "app") ++ emitApp cfg.app ++
      emitPlain (str "groups") ++ emitList emitGroup cfg.data.groups.items ++
      emitPlain (str "subscriptions") ++
      emitList emitSubscription cfg.data.subscriptions.items ++ mapEnd) ++
    [.documentEnd, .streamEnd]

/-- `mt_config_save_buffer`. -/
def configSaveBuffer (lib : Library) (cfg : Settings) (version : Bytes) : Except Err Bytes :=
  match lib.emit (saveEvents cfg version) with
  | some text => .ok text
  | none => .error .sys

/-! ## The tree -/

def stringNode (value : Bytes) : Node := .scalar (stringStyle value) value

def plainNode (value : Bytes) : Node := .scalar .plain value

def boolNode (v : Bool) : Node := plainNode (if v then str "true" else str "false")

def u64Node (v : Nat) : Node := plainNode (Libc.digits v)

def durationNode (d : Int) : Node := plainNode (durationText d)

def idNode (id : Id) : Node := stringNode id.format

def listNode {α : Type} (node : α → Node) (xs : List α) : Node := .sequence (xs.map node)

def fieldsNode (fields : List (Bytes × Node)) : Node :=
  .mapping (fields.map fun f => (plainNode f.1, f.2))

def ruleNode (r : Rule) : Node :=
  fieldsNode [(str "id", idNode r.id), (str "name", stringNode r.name),
    (str "type", stringNode r.type), (str "rule", stringNode r.rule),
    (str "enable", boolNode r.enable)]

def groupNode (g : Group) : Node :=
  fieldsNode [(str "id", idNode g.id), (str "name", stringNode g.name),
    (str "color", stringNode g.color), (str "interface", stringNode g.iface),
    (str "enable", boolNode g.enable), (str "rules", listNode ruleNode g.rules.items)]

def subRuleNode (r : SubRule) : Node :=
  fieldsNode [(str "id", idNode r.id), (str "rule", stringNode r.rule),
    (str "type", stringNode r.type), (str "enable", boolNode r.enable)]

def subscriptionNode (s : Subscription) : Node :=
  fieldsNode [(str "id", idNode s.id), (str "name", stringNode s.name),
    (str "interface", stringNode s.iface), (str "enable", boolNode s.enable),
    (str "url", stringNode s.url), (str "interval", u64Node s.interval),
    (str "last_update", u64Node s.lastUpdate), (str "rules", listNode subRuleNode s.rules.items)]

def addrPortNode (a : AddrPort) : Node :=
  fieldsNode [(str "address", stringNode a.address), (str "port", u64Node a.port.toNat)]

def httpWebNode (c : HttpWeb) : Node :=
  fieldsNode [(str "enabled", boolNode c.enabled),
    (str "auth", fieldsNode [(str "enabled", boolNode c.auth)]),
    (str "host", addrPortNode c.host), (str "skin", stringNode c.skin)]

def dnsProxyNode (c : DnsProxy) : Node :=
  fieldsNode [(str "host", addrPortNode c.host), (str "upstream", addrPortNode c.upstream),
    (str "disableRemap53", boolNode c.disableRemap53),
    (str "disableFakePTR", boolNode c.disableFakePtr),
    (str "disableDropAAAA", boolNode c.disableDropAaaa),
    (str "maxIdleConns", u64Node c.maxIdleConns.toNat),
    (str "maxConcurrent", u64Node c.maxConcurrent.toNat), (str "timeout", durationNode c.timeout)]

def netfilterNode (c : Netfilter) : Node :=
  fieldsNode [(str "iptables", fieldsNode [(str "chainPrefix", stringNode c.chainPrefix)]),
    (str "ipset", fieldsNode [(str "tablePrefix", stringNode c.tablePrefix),
      (str "additionalTTL", durationNode c.additionalTtl)]),
    (str "disableIPv4", boolNode c.disableIpv4), (str "disableIPv6", boolNode c.disableIpv6),
    (str "startMarkTableIndex", u64Node c.startMarkTableIndex.toNat)]

def appNode (a : AppConfig) : Node :=
  fieldsNode [(str "httpWeb", httpWebNode a.httpWeb), (str "dnsProxy", dnsProxyNode a.dnsProxy),
    (str "netfilter", netfilterNode a.netfilter), (str "link", listNode stringNode a.link),
    (str "showAllInterfaces", boolNode a.showAllInterfaces),
    (str "logLevel", stringNode a.logLevel)]

def settingsNode (cfg : Settings) (version : Bytes) : Node :=
  fieldsNode [(str "configVersion", stringNode version), (str "app", appNode cfg.app),
    (str "groups", listNode groupNode cfg.data.groups.items),
    (str "subscriptions", listNode subscriptionNode cfg.data.subscriptions.items)]

@[simp] theorem events_fieldsNode (fields : List (Bytes × Node)) :
    (fieldsNode fields).events =
      mapStart ++ (fields.flatMap fun f => emitPlain f.1 ++ f.2.events) ++ mapEnd := by
  have hpairs : ∀ fs : List (Bytes × Node),
      Node.eventsPairs (fs.map fun f => (plainNode f.1, f.2)) =
        fs.flatMap fun f => emitPlain f.1 ++ f.2.events := by
    intro fs
    induction fs with
    | nil => rfl
    | cons f fs ih =>
      rw [List.map_cons, Node.eventsPairs, ih, List.flatMap_cons, List.append_assoc]
      rfl
  rw [fieldsNode, Node.events, hpairs]
  rfl

theorem events_listNode {α : Type} {node : α → Node} {emit : α → List Event}
    (h : ∀ x, (node x).events = emit x) (xs : List α) :
    (listNode node xs).events = emitList emit xs := by
  rw [listNode, Node.events, Node.eventsItems_eq, List.flatMap_map, List.isEmpty_map]
  unfold emitList
  simp only [h]

@[simp] theorem events_stringNode (value : Bytes) :
    (stringNode value).events = emitString value := rfl

@[simp] theorem events_boolNode (v : Bool) : (boolNode v).events = emitBool v := rfl

@[simp] theorem events_u64Node (v : Nat) : (u64Node v).events = emitU64 v := rfl

@[simp] theorem events_durationNode (d : Int) : (durationNode d).events = emitDuration d := rfl

@[simp] theorem events_idNode (id : Id) : (idNode id).events = emitId id := rfl

@[simp] theorem events_ruleNode (r : Rule) : (ruleNode r).events = emitRule r := by
  unfold ruleNode emitRule
  simp

@[simp] theorem events_groupNode (g : Group) : (groupNode g).events = emitGroup g := by
  unfold groupNode emitGroup
  simp [events_listNode events_ruleNode]

@[simp] theorem events_subRuleNode (r : SubRule) : (subRuleNode r).events = emitSubRule r := by
  unfold subRuleNode emitSubRule
  simp

@[simp] theorem events_subscriptionNode (s : Subscription) :
    (subscriptionNode s).events = emitSubscription s := by
  unfold subscriptionNode emitSubscription
  simp [events_listNode events_subRuleNode]

@[simp] theorem events_addrPortNode (a : AddrPort) : (addrPortNode a).events = emitAddrPort a := by
  unfold addrPortNode emitAddrPort
  simp

@[simp] theorem events_httpWebNode (c : HttpWeb) : (httpWebNode c).events = emitHttpWeb c := by
  unfold httpWebNode emitHttpWeb
  simp

@[simp] theorem events_dnsProxyNode (c : DnsProxy) : (dnsProxyNode c).events = emitDnsProxy c := by
  unfold dnsProxyNode emitDnsProxy
  simp

@[simp] theorem events_netfilterNode (c : Netfilter) :
    (netfilterNode c).events = emitNetfilter c := by
  unfold netfilterNode emitNetfilter
  simp

@[simp] theorem events_appNode (a : AppConfig) : (appNode a).events = emitApp a := by
  unfold appNode emitApp
  simp [events_listNode events_stringNode]

/-- The writer hands out the events of the tree. -/
theorem saveEvents_eq (cfg : Settings) (version : Bytes) :
    saveEvents cfg version = (settingsNode cfg version).stream := by
  unfold saveEvents Node.stream settingsNode
  simp [events_listNode events_groupNode, events_listNode events_subscriptionNode]

end MagiTrickle.Yaml
