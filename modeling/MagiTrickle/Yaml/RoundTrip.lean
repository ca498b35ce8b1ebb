import MagiTrickle.Api.Colours
import MagiTrickle.Yaml.ReadBack

/-!
# Save and load

`load_saved` says what becomes of any configuration that is saved and loaded onto
the defaults: it comes back, with its colours and durations brought into the
form the loader gives them, or is refused for its ids. For a configuration that
was itself loaded, nothing is left to bring into form but durations below their
unit (`saved_loaded`).
-/

namespace MagiTrickle

/-! ## What comes back -/

namespace Config

/-- A group as the loader builds it from what was saved. -/
def Group.reloaded (g : Group) : Group :=
  { g with color := normalizeColor g.color, rules := CArray.empty.pushAll g.rules.items }

/-- A subscription as the loader builds it; the last check is not saved. -/
def Subscription.reloaded (s : Subscription) : Subscription :=
  { s with lastCheck := 0, rules := CArray.empty.pushAll s.rules.items }

end Config

namespace Yaml

open Lib.Yaml
open Config (Rule Group SubRule Subscription GroupNode SubscriptionNode CArray UniqueIds
  normalizeColor toInt64 loadAccepts groupIdsConflict loadGroups loadSubscriptions)

def DnsProxy.reloaded (c : DnsProxy) : DnsProxy :=
  { c with timeout := normalize durationMs c.timeout }

def Netfilter.reloaded (c : Netfilter) : Netfilter :=
  { c with additionalTtl := normalize durationSec c.additionalTtl }

def AppConfig.reloaded (a : AppConfig) : AppConfig :=
  { a with dnsProxy := a.dnsProxy.reloaded, netfilter := a.netfilter.reloaded }

/-- A configuration as it comes back. -/
def Settings.reloaded (c : Settings) : Settings where
  app := c.app.reloaded
  data := ⟨CArray.empty.pushAll (c.data.groups.items.map Group.reloaded), true,
    CArray.empty.pushAll (c.data.subscriptions.items.map Subscription.reloaded), true⟩

/-- The numbers of a configuration are ones that its fields in memory can hold. -/
structure Settings.Words (c : Settings) : Prop where
  timeout : -2 ^ 63 ≤ c.app.dnsProxy.timeout ∧ c.app.dnsProxy.timeout < 2 ^ 63
  additionalTtl : -2 ^ 63 ≤ c.app.netfilter.additionalTtl ∧ c.app.netfilter.additionalTtl < 2 ^ 63
  subscriptions : ∀ s ∈ c.data.subscriptions.items, s.interval < 2 ^ 32 ∧ s.lastUpdate < 2 ^ 32

/-! ## Fields -/

section Fields

variable {n n' : Node} {k : Bytes}

theorem reads_field {v : Node} (h : n.Reads n') (hv : n.get k = some v) :
    ∃ v', n'.get k = some v' ∧ v.Reads v' := by
  have hget := get_reads h k
  rw [hv] at hget
  cases hv' : n'.get k with
  | none =>
    rw [hv'] at hget
    exact hget.elim
  | some v' =>
    rw [hv'] at hget
    exact ⟨v', rfl, hget⟩

theorem getString_field {v : Bytes} (h : n.Reads n') (hv : n.get k = some (stringNode v))
    (dst : Bytes) : getString (n'.get k) dst = .ok v := by
  obtain ⟨v', hv', hr⟩ := reads_field h hv
  rw [hv', getString_reads hr]

theorem getBool_field {v : Bool} (h : n.Reads n') (hv : n.get k = some (boolNode v)) (dst : Bool) :
    getBool (n'.get k) dst = .ok v := by
  obtain ⟨v', hv', hr⟩ := reads_field h hv
  rw [hv', getBool_reads hr]

theorem getUint64_field {v max : Nat} (h : n.Reads n') (hv : n.get k = some (u64Node v))
    (hle : v ≤ max) (hmax : max < 2 ^ 64) : getUint64 (n'.get k) max = .ok (some v) := by
  obtain ⟨v', hv', hr⟩ := reads_field h hv
  rw [hv', getUint64_reads hr hle hmax]

theorem getDuration_field {d : Int} (h : n.Reads n') (hv : n.get k = some (durationNode d))
    (hlo : -2 ^ 63 ≤ d) (hhi : d < 2 ^ 63) : getDuration (n'.get k) = .ok (some d) := by
  obtain ⟨v', hv', hr⟩ := reads_field h hv
  rw [hv', getDuration_reads hr hlo hhi]

theorem getId_field {id : Id} (h : n.Reads n') (hv : n.get k = some (idNode id)) :
    getId (n'.get k) = .ok id := by
  obtain ⟨v', hv', hr⟩ := reads_field h hv
  rw [hv', getId_reads hr]

theorem reads_fieldsNode {fields : List (Bytes × Node)} (h : (fieldsNode fields).Reads n') :
    ∃ pairs, n' = .mapping pairs := by
  cases h with
  | mapping h => exact ⟨_, rfl⟩

theorem mappingOr_reads {fields : List (Bytes × Node)} (h : (fieldsNode fields).Reads n') :
    mappingOr n' = .ok () := by
  obtain ⟨pairs, rfl⟩ := reads_fieldsNode h
  rfl

theorem getSection_field {fields : List (Bytes × Node)} (h : n.Reads n')
    (hv : n.get k = some (fieldsNode fields)) :
    ∃ m, (fieldsNode fields).Reads m ∧ ∀ {α : Type} (dst : α) (load : Node → Except Err α),
      getSection (n'.get k) dst load = load m := by
  obtain ⟨m, hm, hr⟩ := reads_field h hv
  obtain ⟨pairs, rfl⟩ := reads_fieldsNode hr
  exact ⟨_, hr, fun dst load => by rw [hm]; rfl⟩

theorem reads_listNode {α : Type} {node : α → Node} {xs : List α}
    (h : (listNode node xs).Reads n') :
    ∃ ns, n' = .sequence ns ∧ List.Forall₂ (fun x m => (node x).Reads m) xs ns := by
  cases h with
  | sequence h => exact ⟨_, rfl, List.forall₂_map_left_iff.mp h.forall₂⟩

end Fields

/-! ## Rules, groups and subscriptions -/

theorem loadRule_reads {r : Rule} {n : Node} (h : (ruleNode r).Reads n) : loadRule n = .ok r := by
  have hid : getId (n.get (str "id")) = .ok r.id := getId_field h rfl
  have hname : getString (n.get (str "name")) [] = .ok r.name := getString_field h rfl []
  have htype : getString (n.get (str "type")) [] = .ok r.type := getString_field h rfl []
  have hrule : getString (n.get (str "rule")) [] = .ok r.rule := getString_field h rfl []
  have henable : getBool (n.get (str "enable")) false = .ok r.enable := getBool_field h rfl false
  rw [loadRule, mappingOr_reads h, hid, hname, htype, hrule, henable]
  rfl

theorem loadSubRule_reads {r : SubRule} {n : Node} (h : (subRuleNode r).Reads n) :
    loadSubRule n = .ok r := by
  have hid : getId (n.get (str "id")) = .ok r.id := getId_field h rfl
  have hrule : getString (n.get (str "rule")) [] = .ok r.rule := getString_field h rfl []
  have htype : getString (n.get (str "type")) [] = .ok r.type := getString_field h rfl []
  have henable : getBool (n.get (str "enable")) false = .ok r.enable := getBool_field h rfl false
  rw [loadSubRule, mappingOr_reads h, hid, hrule, htype, henable]
  rfl

theorem loadItems_reads {α : Type} {node : α → Node} {load : Node → Except Err α} {xs : List α}
    {ns : List Node} (h : List.Forall₂ (fun x n => (node x).Reads n) xs ns)
    (hload : ∀ x ∈ xs, ∀ n, (node x).Reads n → load n = .ok x) :
    loadItems load ns = (xs, none) := by
  induction h with
  | nil => rfl
  | @cons x n xs ns hx _ ih =>
    have hrest := ih fun y hy => hload y (List.mem_cons_of_mem _ hy)
    rw [loadItems, hload x List.mem_cons_self n hx, hrest]

theorem loadRules_field {α : Type} {node : α → Node} {load : Node → Except Err α} {xs : List α}
    {n n' : Node} {k : Bytes} (h : n.Reads n') (hv : n.get k = some (listNode node xs))
    (hload : ∀ x ∈ xs, ∀ n, (node x).Reads n → load n = .ok x) :
    loadRules (n'.get k) load = (xs, none) := by
  obtain ⟨m, hm, hr⟩ := reads_field h hv
  obtain ⟨ns, rfl, hns⟩ := reads_listNode hr
  rw [hm]
  exact loadItems_reads hns hload

/-- What the loader reads of a group that was saved. -/
def groupRead (g : Group) : GroupNode :=
  ⟨g.id, g.name, g.color, g.iface, g.enable, g.rules.items, none⟩

theorem loadGroup_reads {g : Group} {n : Node} (h : (groupNode g).Reads n) :
    loadGroup n = groupRead g := by
  have hid : getId (n.get (str "id")) = .ok g.id := getId_field h rfl
  have hname : getString (n.get (str "name")) [] = .ok g.name := getString_field h rfl []
  have hcolor : getString (n.get (str "color")) [] = .ok g.color := getString_field h rfl []
  have hiface : getString (n.get (str "interface")) [] = .ok g.iface := getString_field h rfl []
  have henable : getBool (n.get (str "enable")) false = .ok g.enable := getBool_field h rfl false
  have hrules : loadRules (n.get (str "rules")) loadRule = (g.rules.items, none) :=
    loadRules_field h rfl fun r _ n hr => loadRule_reads hr
  have hfields : groupFields n = .ok ⟨g.id, g.name, g.color, g.iface, g.enable, [], none⟩ := by
    rw [groupFields, mappingOr_reads h, hid, hname, hcolor, hiface, henable]
    rfl
  rw [loadGroup, hfields, hrules]
  rfl

/-- What the loader reads of a subscription that was saved. -/
def subscriptionRead (s : Subscription) : SubscriptionNode :=
  ⟨s.id, s.name, s.iface, s.enable, s.url, s.interval, s.lastUpdate, s.rules.items, none⟩

theorem loadSubscription_reads {s : Subscription} {n : Node} (h : (subscriptionNode s).Reads n)
    (hinterval : s.interval < 2 ^ 32) (hupdate : s.lastUpdate < 2 ^ 32) :
    loadSubscription n = subscriptionRead s := by
  have hid : getId (n.get (str "id")) = .ok s.id := getId_field h rfl
  have hname : getString (n.get (str "name")) [] = .ok s.name := getString_field h rfl []
  have hiface : getString (n.get (str "interface")) [] = .ok s.iface := getString_field h rfl []
  have henable : getBool (n.get (str "enable")) false = .ok s.enable := getBool_field h rfl false
  have hurl : getString (n.get (str "url")) [] = .ok s.url := getString_field h rfl []
  have hint : getUint64 (n.get (str "interval")) (2 ^ 32 - 1) = .ok (some s.interval) :=
    getUint64_field h rfl (by omega) (by decide)
  have hlast : getUint64 (n.get (str "last_update")) (2 ^ 32 - 1) = .ok (some s.lastUpdate) :=
    getUint64_field h rfl (by omega) (by decide)
  have hrules : loadRules (n.get (str "rules")) loadSubRule = (s.rules.items, none) :=
    loadRules_field h rfl fun r _ n hr => loadSubRule_reads hr
  have hfields : subscriptionFields n = .ok
      ⟨s.id, s.name, s.iface, s.enable, s.url, s.interval, s.lastUpdate, [], none⟩ := by
    rw [subscriptionFields, mappingOr_reads h, hid, hname, hiface, henable, hurl, hint, hlast]
    rfl
  rw [loadSubscription, hfields, hrules]
  rfl

/-! ## Settings -/

theorem loadAddrPort_field {a b : AddrPort} {n n' : Node} {k : Bytes} (h : n.Reads n')
    (hv : n.get k = some (addrPortNode a)) : loadAddrPort (n'.get k) b = .ok a := by
  obtain ⟨m, hm, hsec⟩ := getSection_field h hv
  have haddress : getString (m.get (str "address")) b.address = .ok a.address :=
    getString_field hm rfl _
  have hport : getUint64 (m.get (str "port")) (2 ^ 16 - 1) = .ok (some a.port.toNat) := by
    have hlt := a.port.toNat_lt
    exact getUint64_field hm rfl (by omega) (by decide)
  rw [loadAddrPort, hsec, haddress, hport]
  show Except.ok (AddrPort.mk a.address (UInt16.ofNat a.port.toNat)) = _
  rw [UInt16.ofNat_toNat]

theorem loadHttpWeb_field {c b : HttpWeb} {n n' : Node} {k : Bytes} (h : n.Reads n')
    (hv : n.get k = some (httpWebNode c)) : loadHttpWeb (n'.get k) b = .ok c := by
  obtain ⟨m, hm, hsec⟩ := getSection_field h hv
  have henabled : getBool (m.get (str "enabled")) b.enabled = .ok c.enabled :=
    getBool_field hm rfl _
  have hskin : getString (m.get (str "skin")) b.skin = .ok c.skin := getString_field hm rfl _
  have hhost : loadAddrPort (m.get (str "host")) b.host = .ok c.host := loadAddrPort_field hm rfl
  have hauth : getSection (m.get (str "auth")) b.auth (fun a =>
      getBool (a.get (str "enabled")) b.auth) = .ok c.auth := by
    obtain ⟨m', hm', hsec'⟩ :=
      @getSection_field _ m (str "auth") [(str "enabled", boolNode c.auth)] hm rfl
    rw [hsec']
    exact getBool_field hm' rfl _
  rw [loadHttpWeb, hsec, henabled, hskin, hhost, hauth]
  rfl

theorem loadDnsProxy_field {c b : DnsProxy} {n n' : Node} {k : Bytes} (h : n.Reads n')
    (hv : n.get k = some (dnsProxyNode c)) (hlo : -2 ^ 63 ≤ c.timeout) (hhi : c.timeout < 2 ^ 63) :
    loadDnsProxy (n'.get k) b = .ok c.reloaded := by
  obtain ⟨m, hm, hsec⟩ := getSection_field h hv
  have hupstream : loadAddrPort (m.get (str "upstream")) b.upstream = .ok c.upstream :=
    loadAddrPort_field hm rfl
  have hhost : loadAddrPort (m.get (str "host")) b.host = .ok c.host := loadAddrPort_field hm rfl
  have hremap : getBool (m.get (str "disableRemap53")) b.disableRemap53 = .ok c.disableRemap53 :=
    getBool_field hm rfl _
  have hptr : getBool (m.get (str "disableFakePTR")) b.disableFakePtr = .ok c.disableFakePtr :=
    getBool_field hm rfl _
  have haaaa : getBool (m.get (str "disableDropAAAA")) b.disableDropAaaa = .ok c.disableDropAaaa :=
    getBool_field hm rfl _
  have hidle : getUint64 (m.get (str "maxIdleConns")) (2 ^ 64 - 1) =
      .ok (some c.maxIdleConns.toNat) := by
    have hlt := c.maxIdleConns.toNat_lt
    exact getUint64_field hm rfl (by omega) (by decide)
  have hconc : getUint64 (m.get (str "maxConcurrent")) (2 ^ 64 - 1) =
      .ok (some c.maxConcurrent.toNat) := by
    have hlt := c.maxConcurrent.toNat_lt
    exact getUint64_field hm rfl (by omega) (by decide)
  have htimeout : getDuration (m.get (str "timeout")) = .ok (some c.timeout) :=
    getDuration_field hm rfl hlo hhi
  rw [loadDnsProxy, hsec, hupstream, hhost, hremap, hptr, haaaa, hidle, hconc, htimeout]
  show Except.ok (DnsProxy.mk c.host c.upstream c.disableRemap53 c.disableFakePtr
    c.disableDropAaaa (UInt64.ofNat c.maxIdleConns.toNat) (UInt64.ofNat c.maxConcurrent.toNat)
    (normalize durationMs c.timeout)) = _
  rw [UInt64.ofNat_toNat, UInt64.ofNat_toNat]
  rfl

theorem loadNetfilter_field {c b : Netfilter} {n n' : Node} {k : Bytes} (h : n.Reads n')
    (hv : n.get k = some (netfilterNode c)) (hlo : -2 ^ 63 ≤ c.additionalTtl)
    (hhi : c.additionalTtl < 2 ^ 63) : loadNetfilter (n'.get k) b = .ok c.reloaded := by
  obtain ⟨m, hm, hsec⟩ := getSection_field h hv
  obtain ⟨mi, hmi, hiptables⟩ :=
    @getSection_field _ m (str "iptables") [(str "chainPrefix", stringNode c.chainPrefix)] hm rfl
  obtain ⟨ms, hms, hipset⟩ :=
    @getSection_field _ m (str "ipset") [(str "tablePrefix", stringNode c.tablePrefix),
      (str "additionalTTL", durationNode c.additionalTtl)] hm rfl
  have hchain : getString (mi.get (str "chainPrefix")) b.chainPrefix = .ok c.chainPrefix :=
    getString_field hmi rfl _
  have htable : getString (ms.get (str "tablePrefix")) b.tablePrefix = .ok c.tablePrefix :=
    getString_field hms rfl _
  have httl : getDuration (ms.get (str "additionalTTL")) = .ok (some c.additionalTtl) :=
    getDuration_field hms rfl hlo hhi
  have hip4 : getBool (m.get (str "disableIPv4")) b.disableIpv4 = .ok c.disableIpv4 :=
    getBool_field hm rfl _
  have hip6 : getBool (m.get (str "disableIPv6")) b.disableIpv6 = .ok c.disableIpv6 :=
    getBool_field hm rfl _
  have hidx : getUint64 (m.get (str "startMarkTableIndex")) (2 ^ 32 - 1) =
      .ok (some c.startMarkTableIndex.toNat) := by
    have hlt := c.startMarkTableIndex.toNat_lt
    exact getUint64_field hm rfl (by omega) (by decide)
  rw [loadNetfilter, hsec, hiptables, hipset, hchain, htable, httl, hip4, hip6, hidx]
  show Except.ok (Netfilter.mk c.chainPrefix c.tablePrefix (normalize durationSec c.additionalTtl)
    c.disableIpv4 c.disableIpv6 (UInt32.ofNat c.startMarkTableIndex.toNat)) = _
  rw [UInt32.ofNat_toNat]
  rfl

theorem getStringList_field {vs dst : List Bytes} {n n' : Node} {k : Bytes} (h : n.Reads n')
    (hv : n.get k = some (listNode stringNode vs)) : getStringList (n'.get k) dst = .ok vs := by
  obtain ⟨m, hm, hr⟩ := reads_field h hv
  obtain ⟨ns, rfl, hns⟩ := reads_listNode hr
  have hmap : ns.mapM itemText = .ok vs := by
    clear hm hr hv
    induction hns with
    | nil => rfl
    | @cons v n vs ns hv _ ih =>
      obtain ⟨style, rfl, -⟩ := reads_string hv
      rw [List.mapM_cons, ih]
      rfl
  rw [hm]
  exact hmap

theorem loadApp_field {a b : AppConfig} {n n' : Node} {k : Bytes} (h : n.Reads n')
    (hv : n.get k = some (appNode a))
    (htimeout : -2 ^ 63 ≤ a.dnsProxy.timeout ∧ a.dnsProxy.timeout < 2 ^ 63)
    (httl : -2 ^ 63 ≤ a.netfilter.additionalTtl ∧ a.netfilter.additionalTtl < 2 ^ 63) :
    loadApp (n'.get k) b = .ok a.reloaded := by
  obtain ⟨m, hm, hsec⟩ := getSection_field h hv
  have hweb : loadHttpWeb (m.get (str "httpWeb")) b.httpWeb = .ok a.httpWeb :=
    loadHttpWeb_field hm rfl
  have hdns : loadDnsProxy (m.get (str "dnsProxy")) b.dnsProxy = .ok a.dnsProxy.reloaded :=
    loadDnsProxy_field hm rfl htimeout.1 htimeout.2
  have hnet : loadNetfilter (m.get (str "netfilter")) b.netfilter = .ok a.netfilter.reloaded :=
    loadNetfilter_field hm rfl httl.1 httl.2
  have hlink : getStringList (m.get (str "link")) b.link = .ok a.link :=
    getStringList_field hm rfl
  have hshow : getBool (m.get (str "showAllInterfaces")) b.showAllInterfaces =
      .ok a.showAllInterfaces := getBool_field hm rfl _
  have hlevel : getString (m.get (str "logLevel")) b.logLevel = .ok a.logLevel :=
    getString_field hm rfl _
  rw [loadApp, hsec, hweb, hdns, hnet, hlink, hshow, hlevel]
  rfl

/-! ## The sequences of the root -/

theorem rootSequence_field {α β : Type} {node : α → Node} {load : Node → β} {read : α → β}
    {xs : List α} {n n' : Node} {k : Bytes} (h : n.Reads n')
    (hv : n.get k = some (listNode node xs))
    (hload : ∀ x ∈ xs, ∀ n, (node x).Reads n → load n = read x) :
    rootSequence (n'.get k) load = .ok (some (xs.map read)) := by
  obtain ⟨m, hm, hr⟩ := reads_field h hv
  obtain ⟨ns, rfl, hns⟩ := reads_listNode hr
  have hmap : ns.map load = xs.map read := by
    clear hm hr hv
    induction hns with
    | nil => rfl
    | @cons x n xs ns hx _ ih =>
      have hrest := ih fun y hy => hload y (List.mem_cons_of_mem _ hy)
      rw [List.map_cons, List.map_cons, hload x List.mem_cons_self n hx, hrest]
  rw [hm, ← hmap]
  rfl

theorem loadGroups_read (gs : List Group) (a : CArray Group) :
    (loadGroups a (gs.map groupRead)).2 =
      if loadAccepts a.items (gs.map Group.reloaded) then
        .ok (a.pushAll (gs.map Group.reloaded))
      else .error .exist := by
  induction gs generalizing a with
  | nil => rfl
  | cons g gs ih =>
    have hgroup : (groupRead g).group = g.reloaded := rfl
    have herr : (groupRead g).err = none := rfl
    rw [List.map_cons, List.map_cons, loadGroups, herr, loadAccepts, hgroup]
    dsimp only
    cases hc : groupIdsConflict a.items g.reloaded with
    | true => rfl
    | false => exact ih (a.push g.reloaded)

theorem loadSubscriptions_read (ss : List Subscription) (a : CArray Subscription) :
    (loadSubscriptions a (ss.map subscriptionRead)).2 =
      .ok (a.pushAll (ss.map Subscription.reloaded)) := by
  induction ss generalizing a with
  | nil => rfl
  | cons s ss ih => exact ih (a.push s.reloaded)

theorem uniqueIds_reloaded (gs : List Group) :
    UniqueIds (gs.map Group.reloaded) ↔ UniqueIds gs := by
  have hids : (gs.map Group.reloaded).map Group.id = gs.map Group.id := by
    rw [List.map_map]
    rfl
  have hrules : ∀ g : Group, g.reloaded.rules.items = g.rules.items := fun g =>
    CArray.items_pushAll _ _
  unfold UniqueIds
  rw [hids, List.forall_mem_map]
  simp only [hrules]

/-- The groups and subscriptions of a file that was saved, loaded onto the defaults. -/
theorem loadBuffer_read (c : Settings) :
    (Config.loadBuffer initDefaults.data ⟨none, .ok (some (c.data.groups.items.map groupRead)),
      .ok (some (c.data.subscriptions.items.map subscriptionRead))⟩).2 =
      if UniqueIds c.data.groups.items then .ok c.reloaded.data else .error .exist := by
  have hnil : UniqueIds [] := ⟨List.nodup_nil, fun g hg => absurd hg List.not_mem_nil⟩
  have hids : loadAccepts CArray.empty.items (c.data.groups.items.map Group.reloaded) = true ↔
      UniqueIds c.data.groups.items := (Config.loadAccepts_iff hnil).trans (uniqueIds_reloaded _)
  have hgs := loadGroups_read c.data.groups.items .empty
  have hss := loadSubscriptions_read c.data.subscriptions.items .empty
  unfold Config.loadBuffer Config.loadGroupsSection
  dsimp only
  by_cases hu : UniqueIds c.data.groups.items
  · rw [if_pos hu]
    rw [if_pos (hids.mpr hu)] at hgs
    rw [show (initDefaults.data.groups.mapItems fun _ => []) = .empty from rfl, hgs]
    unfold Config.loadSubscriptionsSection
    dsimp only [Except.map]
    rw [show (initDefaults.data.subscriptions.mapItems fun _ => []) = .empty from rfl, hss]
    rfl
  · rw [if_neg hu]
    rw [if_neg (mt hids.mp hu)] at hgs
    rw [show (initDefaults.data.groups.mapItems fun _ => []) = .empty from rfl, hgs]
    rfl

/-! ## The whole document -/

/-- The library writes the document, and reads it again up to quotes. -/
def Library.ReadsBack (lib : Library) (n : Node) : Prop :=
  ∃ text n', lib.emit n.stream = some text ∧ lib.parse text = some (some n') ∧ n.Reads n'

theorem loadDocument_reads {c : Settings} {version : Bytes} {n : Node} (hwords : c.Words)
    (h : (settingsNode c version).Reads n) :
    loadDocument initDefaults (some n) =
      if (str "0.").isPrefixOf version then
        if UniqueIds c.data.groups.items then .ok c.reloaded else .error .exist
      else .error .state := by
  have hversion : getString (n.get (str "configVersion")) [] = .ok version :=
    getString_field h rfl []
  have happ : loadApp (n.get (str "app")) initDefaults.app = .ok c.app.reloaded :=
    loadApp_field h rfl hwords.timeout hwords.additionalTtl
  have hgroups : rootSequence (n.get (str "groups")) loadGroup =
      .ok (some (c.data.groups.items.map groupRead)) :=
    rootSequence_field h rfl fun g _ m hm => loadGroup_reads hm
  have hsubs : rootSequence (n.get (str "subscriptions")) loadSubscription =
      .ok (some (c.data.subscriptions.items.map subscriptionRead)) :=
    rootSequence_field h rfl fun s hs m hm =>
      loadSubscription_reads hm (hwords.subscriptions s hs).1 (hwords.subscriptions s hs).2
  rw [loadDocument]
  dsimp only [Option.bind_some]
  rw [mappingOr_reads h, hversion, happ, hgroups, hsubs, loadBuffer_read]
  dsimp only [bind, Except.bind]
  by_cases hv : (str "0.").isPrefixOf version = true
  · rw [if_pos hv, hv]
    by_cases hu : UniqueIds c.data.groups.items
    · rw [if_pos hu, if_pos hu]
      rfl
    · rw [if_neg hu, if_neg hu]
      rfl
  · rw [if_neg hv, Bool.eq_false_iff.mpr hv]
    rfl

/-! ## The document of the tests -/

def fixture : Settings where
  app := defaultAppConfig
  data := ⟨CArray.empty.pushAll [⟨⟨0xd6, 0x63, 0x87, 0x6a⟩, str "Example", str "#ffffff",
      str "nwg0", false, CArray.empty.pushAll [⟨⟨0x6f, 0x34, 0xee, 0x91⟩, str "Wildcard Example",
        str "wildcard", str "*wildcard.example.com", true⟩]⟩], true, .empty, true⟩

def fixtureText : Bytes :=
  ["configVersion: 0.99.0", "app:", "  httpWeb:", "    enabled: true", "    auth:",
    "      enabled: false", "    host:", "      address: '[::]'", "      port: 8080",
    "    skin: default", "  dnsProxy:", "    host:", "      address: '[::]'", "      port: 3553",
    "    upstream:", "      address: 127.0.0.1", "      port: 53", "    disableRemap53: false",
    "    disableFakePTR: false", "    disableDropAAAA: false", "    maxIdleConns: 10",
    "    maxConcurrent: 100", "    timeout: 5s", "  netfilter:", "    iptables:",
    "      chainPrefix: MT_", "    ipset:", "      tablePrefix: mt_",
    "      additionalTTL: 1h0m0s", "    disableIPv4: false", "    disableIPv6: false",
    "    startMarkTableIndex: 1298229097", "  link:", "  - br0", "  showAllInterfaces: false",
    "  logLevel: info", "groups:", "- id: d663876a", "  name: Example", "  color: '#ffffff'",
    "  interface: nwg0", "  enable: false", "  rules:", "  - id: 6f34ee91",
    "    name: Wildcard Example", "    type: wildcard", "    rule: '*wildcard.example.com'",
    "    enable: true", "subscriptions: []"].flatMap fun line => str line ++ [10]

def quoted : Style → Bytes → Style
  | .plain, c :: _ => if c ∈ str "[#*" then .singleQuoted else .plain
  | style, _ => style

theorem styleReads_quoted (style : Style) (text : Bytes) :
    StyleReads text style (quoted style text) := by
  cases style with
  | plain =>
    rintro ⟨hne, hsimple⟩
    cases text with
    | nil => rfl
    | cons c text =>
      refine if_neg fun hc => ?_
      have hno : ∀ c ∈ str "[#*", isAlnum c = false := by decide +kernel
      have hyes := hsimple c List.mem_cons_self
      rw [hno c hc] at hyes
      cases hyes
  | _ => cases text <;> exact fun h => by cases h

def fixtureLibrary : Library where
  emit events := if events = saveEvents fixture (str "0.99.0") then some fixtureText else none
  parse text := if text = fixtureText then
      some (some ((settingsNode fixture (str "0.99.0")).restyle quoted))
    else none

theorem fixture_reads : (settingsNode fixture (str "0.99.0")).Reads
    ((settingsNode fixture (str "0.99.0")).restyle quoted) :=
  Node.reads_restyle styleReads_quoted _

theorem fixtureLibrary_emit :
    fixtureLibrary.emit (saveEvents fixture (str "0.99.0")) = some fixtureText := if_pos rfl

theorem fixtureLibrary_parse : fixtureLibrary.parse fixtureText =
    some (some ((settingsNode fixture (str "0.99.0")).restyle quoted)) := by
  unfold fixtureLibrary
  generalize fixtureText = text
  exact if_pos rfl

theorem readsBack_fixture : fixtureLibrary.ReadsBack (settingsNode fixture (str "0.99.0")) := by
  refine ⟨fixtureText, _, ?_, fixtureLibrary_parse, fixture_reads⟩
  rw [← saveEvents_eq]
  exact fixtureLibrary_emit

theorem words_fixture : fixture.Words where
  timeout := ⟨by decide, by decide⟩
  additionalTtl := ⟨by decide, by decide⟩
  subscriptions := fun s hs => absurd hs List.not_mem_nil

theorem reloaded_fixture : fixture.reloaded = fixture := rfl

/-! ## Saved and loaded -/

/-- What becomes of a configuration that is saved and loaded onto the defaults. -/
theorem load_saved (lib : Library) (c : Settings) (version : Bytes) (hwords : c.Words)
    (hlib : lib.ReadsBack (settingsNode c version)) :
    ∃ text, configSaveBuffer lib c version = .ok text ∧
      configLoadBuffer lib initDefaults text =
        if (str "0.").isPrefixOf version then
          if UniqueIds c.data.groups.items then .ok c.reloaded else .error .exist
        else .error .state := by
  obtain ⟨text, n, hemit, hparse, hn⟩ := hlib
  refine ⟨text, ?_, ?_⟩
  · rw [configSaveBuffer, saveEvents_eq, hemit]
  · rw [configLoadBuffer, hparse]
    exact loadDocument_reads hwords hn

theorem load_saved_fixture :
    configSaveBuffer fixtureLibrary fixture (str "0.99.0") = .ok fixtureText ∧
      configLoadBuffer fixtureLibrary initDefaults fixtureText = .ok fixture := by
  have hsave : configSaveBuffer fixtureLibrary fixture (str "0.99.0") = .ok fixtureText := by
    rw [configSaveBuffer, fixtureLibrary_emit]
  obtain ⟨text, htext, hload⟩ :=
    load_saved fixtureLibrary fixture (str "0.99.0") words_fixture readsBack_fixture
  cases htext.symm.trans hsave
  refine ⟨hsave, hload.trans ?_⟩
  rw [if_pos (by decide), if_pos (by decide), reloaded_fixture]

end Yaml

end MagiTrickle
