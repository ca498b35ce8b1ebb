import MagiTrickle.Netfilter.MarkFresh
import MagiTrickle.Netlink.Rtnl
import Mathlib.Data.List.Induction

/-!
# The calls stay in step with the kernel

What each call means is said of messages: of those that the kernel sends for
the call's own requests, whatever datagrams they come in and whatever else is in
them. The calls compute it from the bytes, and read no more and no less than
these, so that in every run each of them gets its own answer (`rtnl_run`).
-/

namespace MagiTrickle.Rtnl

open Netlink Netfilter

/-! ## Messages -/

def attrOf (e : Endian) (a : WireAttr) : Attr :=
  ⟨typeOf a.type, if a.payload.length = 4 then some (.ofNat (e.nat a.payload)) else none⟩

def rtMsg (e : Endian) (m : WireMsg) : RtMsg := ⟨m.type, m.header.getD 4 0, m.attrs.map (attrOf e)⟩

def linkFlags (e : Endian) (m : WireMsg) : UInt32 := .ofNat (e.nat ((m.header.drop 8).take 4))

/-- The last attribute with a property. -/
def lastOf {α : Type} (p : WireAttr → Option α) (as : List WireAttr) : Option α :=
  as.reverse.findSome? p

def oifOf (e : Endian) (a : WireAttr) : Option UInt32 :=
  if typeOf a.type = rtaOif then (attrOf e a).u32 else none

def gatewayOf (a : WireAttr) : Option Bytes :=
  if typeOf a.type = rtaGateway ∧ (a.payload.length = 4 ∨ a.payload.length = 16) then
    some a.payload
  else none

def routeGateway (e : Endian) (oif : UInt32) (m : WireMsg) : Option Bytes :=
  if m.type = rtmNewRoute ∧ (lastOf (oifOf e) m.attrs).getD 0xffffffff = oif then
    lastOf gatewayOf m.attrs
  else none

section Meaning

variable {e : Endian}

/-- The dumps of the kernel, as far as they end well. -/
def dump (k : RtKernel e) : Dump := fun kind f =>
  let (code, msgs) := k.said (dumpRequest (dumpType kind) f)
  (settle [] code).map fun _ => msgs.map (rtMsg e)

inductive Call where
  | ruleAdd (f : Family) (mark table : UInt32)
  | ruleDel (f : Family) (mark table : UInt32)
  | routeAddBlackhole (f : Family) (table priority : UInt32)
  | routeDelBlackhole (f : Family) (table priority : UInt32)
  | routeAddIface (f : Family) (table priority oif : UInt32) (gw : Bytes)
  | routeDelIface (f : Family) (table priority oif : UInt32) (gw : Bytes)
  | linkByName (idx : UInt32)
  | gatewayForIface (f : Family) (ifindex : UInt32)
  | allocMarkTable (startIdx : UInt32)

inductive Result where
  | done
  | enodev (b : Bool)
  | link (info : Option LinkInfo)
  | gateway (gw : Option Bytes)
  | number (idx : UInt32)
  deriving DecidableEq, Repr

namespace Call

def exec (k : RtKernel e) (r : Socket) : Call → Option (Except Err Result × Socket)
  | .ruleAdd f mark table => (Rtnl.ruleAdd k r f mark table).map (.map (.map fun _ => .done) id)
  | .ruleDel f mark table => (Rtnl.ruleDel k r f mark table).map (.map (.map fun _ => .done) id)
  | .routeAddBlackhole f table priority =>
    (Rtnl.routeAddBlackhole k r f table priority).map (.map (.map fun _ => .done) id)
  | .routeDelBlackhole f table priority =>
    (Rtnl.routeDelBlackhole k r f table priority).map (.map (.map fun _ => .done) id)
  | .routeAddIface f table priority oif gw =>
    (Rtnl.routeAddIface k r f table priority oif gw).map (.map (.map .enodev) id)
  | .routeDelIface f table priority oif gw =>
    (Rtnl.routeDelIface k r f table priority oif gw).map (.map (.map fun _ => .done) id)
  | .linkByName idx => (Rtnl.linkByName k r idx).map (.map (.map .link) id)
  | .gatewayForIface f ifindex =>
    (Rtnl.gatewayForIface k r f ifindex).map (.map (.map .gateway) id)
  | .allocMarkTable startIdx => (Rtnl.allocMarkTable k r startIdx).map (.map (.map .number) id)

/-- What it means: what becomes of the code of the answer to its request, and what its messages
say. -/
def meaning (k : RtKernel e) : Call → Except Err Result
  | .ruleAdd f mark table =>
    (settle [] (k.said (ruleRequest e rtmNewRule createFlags f mark table)).1).map fun _ => .done
  | .ruleDel f mark table =>
    (settle [noent] (k.said (ruleRequest e rtmDelRule deleteFlags f mark table)).1).map
      fun _ => .done
  | .routeAddBlackhole f table priority =>
    (settle [exist] (k.said (blackholeRequest e rtmNewRoute createFlags f table priority)).1).map
      fun _ => .done
  | .routeDelBlackhole f table priority =>
    (settle [srch] (k.said (blackholeRequest e rtmDelRoute deleteFlags f table priority)).1).map
      fun _ => .done
  | .routeAddIface f table priority oif gw =>
    (settleIface (k.said (ifaceRequest e rtmNewRoute createFlags f table priority oif gw)).1).map
      .enodev
  | .routeDelIface f table priority oif gw =>
    (settle [srch] (k.said (ifaceRequest e rtmDelRoute deleteFlags f table priority oif gw)).1).map
      fun _ => .done
  | .linkByName idx =>
    if idx = 0 then .ok (.link none)
    else
      let (code, msgs) := k.said (linkRequest e idx)
      (settle [nodev] code).map fun _ => .link (((msgs.filter (·.type = rtmNewLink)).getLast?).map
        fun m => linkInfo idx (linkFlags e m))
  | .gatewayForIface f ifindex =>
    let (code, msgs) := k.said (dumpRequest rtmGetRoute f)
    (settle [] code).map fun _ => .gateway (msgs.findSome? (routeGateway e ifindex))
  | .allocMarkTable startIdx => (Netfilter.allocMarkTable (dump k) startIdx).map .number

end Call

/-- Calls one after the other on a socket, each with the kernel as it is then. -/
def session (e : Endian) : List (Call × RtKernel e) → Socket →
    Option (List (Except Err Result) × Socket)
  | [], r => some ([], r)
  | (c, k) :: calls, r => do
    let (res, r) ← c.exec k r
    let (results, r) ← session e calls r
    return (res :: results, r)

end Meaning

/-! ## Callbacks -/

section Callbacks

variable {e : Endian} {m : WireMsg}

theorem attrU32_at {buf : Bytes} {off : Nat} {a : WireAttr} (h : At e buf off a) :
    attrU32 e buf off = some (attrOf e a).u32 := by
  rw [attrU32, h.payloadLen]
  dsimp only [bind, Option.bind, attrOf]
  by_cases hlen : a.payload.length = 4
  · rw [if_pos hlen, if_pos hlen, h.payload hlen]
    rfl
  · rw [if_neg hlen, if_neg hlen]
    rfl

theorem tableByte_bytes (h : m.header.length = 12) (rest : Bytes) :
    tableByte (m.bytes e ++ rest) = some (m.header.getD 4 0).toNat := by
  have hlt : 4 < m.header.length := by omega
  have hheader : m.header = m.header.take 4 ++ [m.header.getD 4 0] ++ m.header.drop 5 := by
    rw [List.append_assoc, List.singleton_append, List.getD_eq_getElem _ _ hlt,
      ← List.drop_eq_getElem_cons hlt, List.take_append_drop]
  have hread := readField_header (e := e) hheader List.length_singleton rest
  rw [List.length_take, Nat.min_eq_left (by omega)] at hread
  rw [tableByte, hread]
  rfl

/-- The callback of a dump, on messages. -/
def scan : DumpKind → ScanCtx → RtMsg → ScanCtx
  | .rules => ruleScan
  | .routes => routeScan

/-- The loop of `rule_scan_cb`, on messages. -/
theorem ruleAttr_at {buf : Bytes} {off : Nat} {a : WireAttr} (h : At e buf off a)
    (ctx : ScanCtx) : ruleAttr e buf ctx off = some (match (attrOf e a).u32 with
      | none => ctx
      | some v =>
        if (attrOf e a).type = fraFwmark then ctx.addMark v.toNat
        else if (attrOf e a).type = fraTable then ctx.addTable v.toNat
        else ctx) := by
  rw [ruleAttr, h.nlaType, attrU32_at h]
  rfl

theorem routeAttr_at {buf : Bytes} {off : Nat} {a : WireAttr} (h : At e buf off a)
    (ctx : ScanCtx) : routeAttr e buf ctx off = some (match (attrOf e a).u32 with
      | none => ctx
      | some v => if (attrOf e a).type = rtaTable then ctx.addTable v.toNat else ctx) := by
  rw [routeAttr, h.nlaType, attrU32_at h]
  rfl

theorem ruleScanCb_bytes (hm : Plain e m) (hshape : Shape m) (ctx : ScanCtx) (rest : Bytes) :
    ruleScanCb e ctx (m.bytes e ++ rest) = some (ruleScan ctx (rtMsg e m)) := by
  have hsame : (rtMsg e m).type = m.type := rfl
  rw [ruleScanCb, nlmsgType_bytes hm.fits, ruleScan, hsame]
  dsimp only [bind, Option.bind]
  split_ifs with htype
  · rfl
  · rw [not_not] at htype
    have hlen := hshape.1 (.inl htype)
    obtain ⟨attrs, hattrs, hat⟩ := @nlmsgAttrs_bytes e m hm.fits 12 hlen rest
    rw [tableByte_bytes hlen, hattrs]
    dsimp only [rtMsg]
    rw [List.foldl_map]
    exact foldlM_attrs (fun off a h ctx => ruleAttr_at h ctx) hat _

theorem routeScanCb_bytes (hm : Plain e m) (hshape : Shape m) (ctx : ScanCtx) (rest : Bytes) :
    routeScanCb e ctx (m.bytes e ++ rest) = some (routeScan ctx (rtMsg e m)) := by
  have hsame : (rtMsg e m).type = m.type := rfl
  rw [routeScanCb, nlmsgType_bytes hm.fits, routeScan, hsame]
  dsimp only [bind, Option.bind]
  split_ifs with htype
  · rfl
  · rw [not_not] at htype
    have hlen := hshape.1 (.inr htype)
    obtain ⟨attrs, hattrs, hat⟩ := @nlmsgAttrs_bytes e m hm.fits 12 hlen rest
    rw [tableByte_bytes hlen, hattrs]
    dsimp only [rtMsg]
    rw [List.foldl_map]
    exact foldlM_attrs (fun off a h ctx => routeAttr_at h ctx) hat _

theorem linkMsgCb_bytes (hm : Plain e m) (hshape : Shape m) (ctx : Option UInt32) (rest : Bytes) :
    linkMsgCb e ctx (m.bytes e ++ rest) =
      some (if m.type = rtmNewLink then some (linkFlags e m) else ctx) := by
  rw [linkMsgCb, nlmsgType_bytes hm.fits]
  dsimp only [bind, Option.bind]
  by_cases htype : m.type = rtmNewLink
  · have hlen := hshape.2 htype
    have hheader : m.header = m.header.take 8 ++ (m.header.drop 8).take 4 ++
        (m.header.drop 8).drop 4 := by
      rw [List.append_assoc, List.take_append_drop, List.take_append_drop]
    have hfield : ((m.header.drop 8).take 4).length = 4 := by
      rw [List.length_take, List.length_drop, hlen]
      rfl
    have hread := readField_header (e := e) hheader hfield rest
    rw [List.length_take, Nat.min_eq_left (by omega)] at hread
    rw [if_neg (not_not.mpr htype), if_pos htype, hread]
    rfl
  · rw [if_pos htype, if_neg htype]
    rfl

theorem lastOf_append {α : Type} (p : WireAttr → Option α) (as : List WireAttr) (a : WireAttr) :
    lastOf p (as ++ [a]) = (p a).or (lastOf p as) := by
  rw [lastOf, List.reverse_append, List.reverse_singleton, List.singleton_append,
    List.findSome?_cons]
  cases p a <;> rfl

/-- What `gw_msg_cb` does with an attribute. -/
def routeField (e : Endian) (fields : RouteFields) (a : WireAttr) : RouteFields :=
  ⟨(oifOf e a).getD fields.oif, (gatewayOf a).getD fields.gw⟩

theorem foldl_routeField (as : List WireAttr) :
    as.foldl (routeField e) ⟨0xffffffff, []⟩ =
      ⟨(lastOf (oifOf e) as).getD 0xffffffff, (lastOf gatewayOf as).getD []⟩ := by
  induction as using List.reverseRecOn with
  | nil => rfl
  | append_singleton as a ih =>
    rw [List.foldl_append, ih, List.foldl_cons, List.foldl_nil, lastOf_append, lastOf_append,
      routeField]
    cases oifOf e a <;> cases gatewayOf a <;> rfl

theorem ne_nil_of_lastOf {as : List WireAttr} {gw : Bytes} (h : lastOf gatewayOf as = some gw) :
    gw ≠ [] := by
  obtain ⟨a, -, ha⟩ := List.exists_of_findSome?_eq_some h
  unfold gatewayOf at ha
  split_ifs at ha with hlen
  cases ha
  rintro hnil
  rw [hnil] at hlen
  rcases hlen.2 with h | h <;> cases h

theorem gwAttr_at {buf : Bytes} {off : Nat} {a : WireAttr} (h : At e buf off a)
    (fields : RouteFields) : gwAttr e buf fields off = some (routeField e fields a) := by
  rw [gwAttr, h.nlaType]
  dsimp only [bind, Option.bind, routeField, oifOf, gatewayOf]
  by_cases hoif : typeOf a.type = rtaOif
  · have hno : ¬(typeOf a.type = rtaGateway ∧
        (a.payload.length = 4 ∨ a.payload.length = 16)) := by
      rw [hoif]
      exact fun h => absurd h.1 (by decide)
    rw [if_pos hoif, if_pos hoif, if_neg hno, attrU32_at h]
    rfl
  · rw [if_neg hoif, if_neg hoif]
    by_cases hgw : typeOf a.type = rtaGateway
    · rw [if_pos hgw, h.payloadLen]
      dsimp only
      by_cases hlen : a.payload.length = 4 ∨ a.payload.length = 16
      · rw [if_pos hlen, if_pos ⟨hgw, hlen⟩, h.payload rfl]
        rfl
      · rw [if_neg hlen, if_neg fun h => hlen h.2]
        rfl
    · rw [if_neg hgw, if_neg fun h => hgw h.1]
      rfl

theorem gwMsgCb_bytes {oif : UInt32} (hm : Plain e m) (hshape : Shape m) (ctx : Option Bytes)
    (rest : Bytes) :
    gwMsgCb e oif ctx (m.bytes e ++ rest) = some (ctx.or (routeGateway e oif m)) := by
  rw [gwMsgCb, nlmsgType_bytes hm.fits]
  dsimp only [bind, Option.bind]
  cases ctx with
  | some gw => rfl
  | none =>
    rw [Option.none_or, routeGateway]
    by_cases htype : m.type = rtmNewRoute
    · have hlen := hshape.1 (.inr htype)
      obtain ⟨attrs, hattrs, hat⟩ := @nlmsgAttrs_bytes e m hm.fits 12 hlen rest
      have hno : ¬((none : Option Bytes) ≠ none ∨ m.type ≠ rtmNewRoute) := by
        rintro (h | h)
        · exact h rfl
        · exact h htype
      rw [if_neg hno, hattrs]
      dsimp only
      rw [foldlM_attrs (fun off a h fields => gwAttr_at h fields) hat, foldl_routeField]
      simp only [htype, true_and]
      cases hgw : lastOf gatewayOf m.attrs with
      | none =>
        rw [if_neg (fun h => h.2 rfl), ite_self]
        rfl
      | some gw =>
        simp only [Option.getD_some, ne_eq, ne_nil_of_lastOf hgw, not_false_eq_true, and_true]
        rfl
    · have hyes : (none : Option Bytes) ≠ none ∨ m.type ≠ rtmNewRoute := .inr htype
      rw [if_pos hyes, if_neg (fun h => htype h.1)]
      rfl

end Callbacks

/-! ## Calls -/

section Calls

variable {e : Endian} {k : RtKernel e}

section Synced

variable {header : Bytes} {attrs : List WireAttr}

theorem synced_set (type flags : Nat) (hset : ¬type % 4 = 2) (hack : flags &&& nlmAck ≠ 0) :
    Request.Synced gets ⟨type, flags, header, attrs⟩ :=
  ⟨fun hget => absurd (of_decide_eq_true hget) hset, fun _ => decide_eq_true hack⟩

theorem synced_dump (type flags : Nat) (hget : type % 4 = 2) (hdump : flags &&& nlmDump ≠ 0) :
    Request.Synced gets ⟨type, flags, header, attrs⟩ :=
  ⟨fun _ => .inl (decide_eq_true hdump), fun hset => absurd (decide_eq_true hget) hset⟩

theorem synced_get (type flags : Nat) (hget : type % 4 = 2) (hack : flags &&& nlmAck = 0) :
    Request.Synced gets ⟨type, flags, header, attrs⟩ :=
  ⟨fun _ => .inr fun h => of_decide_eq_true h hack, fun hset => absurd (decide_eq_true hget) hset⟩

end Synced

/-- A request on a socket without rests of other answers, where no receive fails. -/
theorem execute_received {σ : Type} (hk : k.Received) {req : Request} (h : req.Synced gets)
    {cb : σ → Bytes → Option σ} {g : σ → WireMsg → σ}
    (hcb : ∀ m ∈ (k.said req).2, Plain e m → Shape m → ∀ s rest,
      cb s (m.bytes e ++ rest) = some (g s m)) (seq : UInt32) (s : σ) :
    execute k ⟨seq, []⟩ req cb s =
      some ((k.said req).1, (k.said req).2.foldl g s, ⟨seq + 1, []⟩) := by
  rw [execute_said h hcb, hk req]

theorem ask_said (hk : k.Received) {req : Request} (h : req.Synced gets) (fine : List Nat)
    (seq : UInt32) :
    ask k ⟨seq, []⟩ req fine = some (settle fine (k.said req).1, ⟨seq + 1, []⟩) := by
  rw [ask, execute_received (g := fun s _ => s) hk h fun _ _ _ _ _ _ => rfl]
  rfl

theorem dumpFamily_said (hk : k.Received) (ctx : ScanCtx) (kind : DumpKind) (f : Family) (seq : UInt32) :
    dumpFamily k ⟨seq, []⟩ ctx kind f =
      some (Netfilter.dumpFamily (dump k) ctx kind f, ⟨seq + 1, []⟩) := by
  have hsynced : (dumpRequest (dumpType kind) f).Synced gets := by
    cases kind with
    | rules => exact synced_dump rtmGetRule dumpFlags (by decide) (by decide)
    | routes => exact synced_dump rtmGetRoute dumpFlags (by decide) (by decide)
  have hcb : ∀ m ∈ (k.said (dumpRequest (dumpType kind) f)).2, Plain e m → Shape m → ∀ s rest,
      scanCb e kind s (m.bytes e ++ rest) = some (scan kind s (rtMsg e m)) := by
    intro m _ hm hshape s rest
    cases kind with
    | rules => exact ruleScanCb_bytes hm hshape s rest
    | routes => exact routeScanCb_bytes hm hshape s rest
  rw [dumpFamily, execute_received (g := fun s m => scan kind s (rtMsg e m)) hk hsynced hcb]
  unfold Netfilter.dumpFamily dump
  generalize k.said (dumpRequest (dumpType kind) f) = said
  obtain ⟨code, msgs⟩ := said
  dsimp only [Option.map_some]
  cases settle [] code with
  | error err => rfl
  | ok _ =>
    dsimp only [Except.map]
    rw [List.foldl_map]
    cases kind <;> rfl

theorem dumpFamilies_said (hk : k.Received) (dumps : List (DumpKind × Family)) (ctx : ScanCtx)
    (seq : UInt32) :
    ∃ seq', dumpFamilies k dumps ⟨seq, []⟩ ctx =
      some (dumps.foldlM (fun ctx d => Netfilter.dumpFamily (dump k) ctx d.1 d.2) ctx,
        ⟨seq', []⟩) := by
  induction dumps generalizing ctx seq with
  | nil => exact ⟨seq, rfl⟩
  | cons d dumps ih =>
    obtain ⟨kind, f⟩ := d
    rw [dumpFamilies, dumpFamily_said hk, List.foldlM_cons]
    dsimp only [bind, Option.bind]
    cases Netfilter.dumpFamily (dump k) ctx kind f with
    | error err => exact ⟨seq + 1, rfl⟩
    | ok ctx => exact ih ctx (seq + 1)

theorem allocMarkTable_said (hk : k.Received) (startIdx seq : UInt32) :
    ∃ seq', allocMarkTable k ⟨seq, []⟩ startIdx =
      some (Netfilter.allocMarkTable (dump k) startIdx, ⟨seq', []⟩) := by
  obtain ⟨seq', hdumps⟩ := dumpFamilies_said hk
    [(.rules, .v4), (.rules, .v6), (.routes, .v4), (.routes, .v6)]
    ⟨[], reservedTables.foldl usedSetAdd []⟩ seq
  refine ⟨seq', ?_⟩
  have hmap : ∀ {α β γ : Type} (x : Except Err α) (f : α → Except Err β) (g : β → γ),
      (x >>= f).map g = x >>= fun a => (f a).map g := by
    intro α β γ x f g
    cases x <;> rfl
  rw [allocMarkTable, hdumps, Netfilter.allocMarkTable]
  simp only [List.foldlM_cons, List.foldlM_nil, Option.map_some, hmap]
  rfl

theorem foldl_or {α β : Type} (f : β → Option α) (xs : List β) (x : Option α) :
    xs.foldl (fun x y => x.or (f y)) x = x.or (xs.findSome? f) := by
  induction xs generalizing x with
  | nil => rw [List.foldl_nil, List.findSome?_nil, Option.or_none]
  | cons y xs ih =>
    rw [List.foldl_cons, ih, List.findSome?_cons, Option.or_assoc]
    cases f y <;> rfl

theorem foldl_last {α β : Type} (p : β → Prop) [DecidablePred p] (f : β → α) (xs : List β) :
    xs.foldl (fun x y => if p y then some (f y) else x) none =
      ((xs.filter p).getLast?).map f := by
  induction xs using List.reverseRecOn with
  | nil => rfl
  | append_singleton xs y ih =>
    rw [List.foldl_append, ih, List.foldl_cons, List.foldl_nil, List.filter_append]
    by_cases hy : p y
    · rw [if_pos hy, List.filter_singleton, decide_eq_true hy, cond_true, List.getLast?_concat]
      rfl
    · rw [if_neg hy, List.filter_singleton, decide_eq_false hy, cond_false, List.append_nil]

/-- A call on a socket that is up to date computes what it means, and leaves it up to date. -/
theorem exec_meaning (hk : k.Received) (c : Call) (seq : UInt32) :
    ∃ seq', c.exec k ⟨seq, []⟩ = some (c.meaning k, ⟨seq', []⟩) := by
  cases c with
  | ruleAdd f mark table =>
    have hsynced : (ruleRequest e rtmNewRule createFlags f mark table).Synced gets :=
      synced_set _ _ (by decide) (by decide)
    refine ⟨seq + 1, ?_⟩
    rw [Call.exec, ruleAdd, ask_said hk hsynced]
    rfl
  | ruleDel f mark table =>
    have hsynced : (ruleRequest e rtmDelRule deleteFlags f mark table).Synced gets :=
      synced_set _ _ (by decide) (by decide)
    refine ⟨seq + 1, ?_⟩
    rw [Call.exec, ruleDel, ask_said hk hsynced]
    rfl
  | routeAddBlackhole f table priority =>
    have hsynced : (blackholeRequest e rtmNewRoute createFlags f table priority).Synced gets :=
      synced_set _ _ (by decide) (by decide)
    refine ⟨seq + 1, ?_⟩
    rw [Call.exec, routeAddBlackhole, ask_said hk hsynced]
    rfl
  | routeDelBlackhole f table priority =>
    have hsynced : (blackholeRequest e rtmDelRoute deleteFlags f table priority).Synced gets :=
      synced_set _ _ (by decide) (by decide)
    refine ⟨seq + 1, ?_⟩
    rw [Call.exec, routeDelBlackhole, ask_said hk hsynced]
    rfl
  | routeAddIface f table priority oif gw =>
    have hsynced : (ifaceRequest e rtmNewRoute createFlags f table priority oif gw).Synced gets :=
      synced_set _ _ (by decide) (by decide)
    refine ⟨seq + 1, ?_⟩
    rw [Call.exec, routeAddIface,
      execute_received (g := fun s _ => s) hk hsynced fun _ _ _ _ _ _ => rfl]
    rfl
  | routeDelIface f table priority oif gw =>
    have hsynced : (ifaceRequest e rtmDelRoute deleteFlags f table priority oif gw).Synced gets :=
      synced_set _ _ (by decide) (by decide)
    refine ⟨seq + 1, ?_⟩
    rw [Call.exec, routeDelIface, ask_said hk hsynced]
    rfl
  | linkByName idx =>
    have hsynced : (linkRequest e idx).Synced gets := synced_get _ _ (by decide) (by decide)
    rw [Call.exec, linkByName, Call.meaning]
    split_ifs with hidx
    · exact ⟨seq, rfl⟩
    · refine ⟨seq + 1, ?_⟩
      rw [execute_received hk hsynced
        fun m _ hm hshape ctx rest => linkMsgCb_bytes hm hshape ctx rest, foldl_last]
      generalize k.said (linkRequest e idx) = said
      obtain ⟨code, msgs⟩ := said
      dsimp only [Option.map_some, Prod.map]
      rw [Option.map_map]
      cases settle [nodev] code <;> rfl
  | gatewayForIface f ifindex =>
    have hsynced : (dumpRequest rtmGetRoute f).Synced gets :=
      synced_dump _ _ (by decide) (by decide)
    refine ⟨seq + 1, ?_⟩
    rw [Call.exec, gatewayForIface, Call.meaning, execute_received hk hsynced
      fun m _ hm hshape ctx rest => gwMsgCb_bytes hm hshape ctx rest, foldl_or, Option.none_or]
    generalize k.said (dumpRequest rtmGetRoute f) = said
    obtain ⟨code, msgs⟩ := said
    dsimp only [Option.map_some, Prod.map]
    cases settle [] code <;> rfl
  | allocMarkTable startIdx =>
    obtain ⟨seq', hcall⟩ := allocMarkTable_said hk startIdx seq
    refine ⟨seq', ?_⟩
    rw [Call.exec, hcall]
    rfl

end Calls

/-- In every run of calls in which no receive fails, with a kernel that answers each request as
netlink has it, no call waits for an answer that does not come, each computes from the bytes what it
means by the messages of its own answers, and nothing is left in the socket. -/
theorem rtnl_run (e : Endian) (calls : List (Call × RtKernel e))
    (hcalls : ∀ c ∈ calls, c.2.Received) (seq : UInt32) :
    ∃ seq', session e calls ⟨seq, []⟩ =
      some (calls.map fun (c, k) => c.meaning k, ⟨seq', []⟩) := by
  induction calls generalizing seq with
  | nil => exact ⟨seq, rfl⟩
  | cons call calls ih =>
    obtain ⟨c, k⟩ := call
    obtain ⟨hk, hcalls⟩ := List.forall_mem_cons.mp hcalls
    obtain ⟨seq₁, hcall⟩ := exec_meaning hk c seq
    obtain ⟨seq₂, hrest⟩ := ih hcalls seq₁
    refine ⟨seq₂, ?_⟩
    rw [session, hcall]
    dsimp only [bind, Option.bind]
    rw [hrest]
    rfl

def oneRule : WireMsg where
  type := rtmNewRule
  flags := 2
  seq := 0
  pid := 0
  header := [2, 0, 0, 0, 1, 0, 0, 1, 0, 0, 0, 0]
  attrs := [u32 .little fraTable 1, u32 .little fraFwmark 1]

def nodevMsg : WireMsg := ⟨nlmsgError, 0, 0, 0, [0xed, 0xff, 0xff, 0xff], []⟩

theorem plain_oneRule : Plain .little oneRule :=
  ⟨⟨by decide, by decide, by decide, by decide⟩, by decide, by decide, by decide⟩

theorem errorMsg_nodevMsg : ErrorMsg .little nodevMsg 19 :=
  ⟨⟨by decide, by decide, by decide, by decide⟩, rfl, 0xffffffed, [], by decide, by decide,
    by decide⟩

def oneRuleMsgs (req : Request) : List WireMsg := if req.type = rtmGetRule then [oneRule] else []

theorem plain_oneRuleMsgs (req : Request) : ∀ m ∈ oneRuleMsgs req, Plain .little m ∧ Shape m := by
  intro m hm
  unfold oneRuleMsgs at hm
  split_ifs at hm
  · rw [List.mem_singleton.mp hm]
    exact ⟨plain_oneRule, by unfold Shape; decide⟩
  · exact absurd hm List.not_mem_nil

def oneRuleKernel : RtKernel .little := fun req =>
  if hget : gets req.type then
    if hdump : req.dumps then
      .ok ⟨[.ok (datagram .little (oneRuleMsgs req) ++ (doneMsg.bytes .little ++ []))],
        oneRuleMsgs req, .ok 0, [],
        .dumped hget hdump (.done (fun m hm => (plain_oneRuleMsgs req m hm).1)
          (fits_doneMsg .little) rfl), fun m hm => (plain_oneRuleMsgs req m hm).2⟩
    else .ok ⟨[.ok (nodevMsg.bytes .little ++ [])], [], .ok 19, [], .refused errorMsg_nodevMsg,
      fun _ hm => absurd hm List.not_mem_nil⟩
  else if hack : req.acked then
    .ok ⟨[.ok (ackMsg.bytes .little ++ [])], [], .ok 0, [],
      .done hget hack (errorMsg_ackMsg .little), fun _ hm => absurd hm List.not_mem_nil⟩
  else .error .inval

theorem received_oneRuleKernel : oneRuleKernel.Received := by
  intro req
  unfold Kernel.left oneRuleKernel
  split_ifs <;> rfl

/-- A rule is added, no link is found, and the number of the rule of the dump is passed over. -/
theorem rtnl_run_oneRule : ∃ seq', session .little
      [(.ruleAdd .v4 2 2, oneRuleKernel), (.linkByName 5, oneRuleKernel),
        (.allocMarkTable 1, oneRuleKernel)] ⟨0, []⟩ =
    some ([.ok .done, .ok (.link none), .ok (.number 2)], ⟨seq', []⟩) :=
  rtnl_run .little [(.ruleAdd .v4 2 2, oneRuleKernel), (.linkByName 5, oneRuleKernel),
    (.allocMarkTable 1, oneRuleKernel)]
    (List.forall_mem_cons.mpr ⟨received_oneRuleKernel, List.forall_mem_cons.mpr
      ⟨received_oneRuleKernel, List.forall_mem_singleton.mpr received_oneRuleKernel⟩⟩) 0

/-! ## Own rules -/

section OwnRules

variable {e : Endian} {mark table seq : UInt32} {flags : Nat} {f : Family}

theorem attrOf_u32 (e : Endian) (type : Nat) (v : UInt32) :
    attrOf e (u32 e type v) = ⟨typeOf type, some v⟩ := by
  have hnat : e.nat (e.bytes 4 v.toNat) = v.toNat := nat_bytes e v.toNat_lt
  have hlen : (u32 e type v).payload.length = 4 := length_bytes e 4 v.toNat
  rw [attrOf, if_pos hlen]
  show (⟨typeOf type, some (.ofNat (e.nat (e.bytes 4 v.toNat)))⟩ : Attr) = _
  rw [hnat, UInt32.ofNat_toNat]

theorem fits_u32 {type : Nat} (h : type < 2 ^ 16) (v : UInt32) : (u32 e type v).Fits := by
  have hlen : (u32 e type v).payload.length = 4 := length_bytes e 4 v.toNat
  exact ⟨by omega, h⟩

theorem length_u32_row {type : Nat} {v : UInt32} {as : List WireAttr} :
    (rowBytes e (u32 e type v :: as)).length = 8 + (rowBytes e as).length := by
  have hlen : ((u32 e type v).bytes e).length = 8 := by
    rw [length_wireAttr]
    exact congrArg (4 + ·) (length_bytes e 4 v.toNat)
  have hpad : padding 8 = [] := by decide
  rw [rowBytes, List.flatMap_cons, hlen, hpad, List.append_nil, List.length_append, hlen]
  rfl

theorem plain_ruleRequest (e : Endian) (flags : Nat) (f : Family) (mark table seq : UInt32) :
    Plain e ((ruleRequest e rtmNewRule flags f mark table).msg seq) := by
  have hrow : (rowBytes e (tableAttr e fraTable table)).length = 0 ∨
      (rowBytes e (tableAttr e fraTable table)).length = 8 := by
    unfold tableAttr
    split_ifs
    · exact .inr length_u32_row
    · exact .inl rfl
  have hlen : ((ruleRequest e rtmNewRule flags f mark table).msg seq).length e =
      28 + (8 + (rowBytes e (tableAttr e fraTable table)).length) :=
    congrArg (28 + ·) length_u32_row
  have htype : rtmNewRule < 2 ^ 16 ∧ rtmNewRule ≠ nlmsgError ∧ rtmNewRule ≠ nlmsgDone := by decide
  refine ⟨⟨by omega, htype.1, ⟨3, rfl⟩, ?_⟩, by omega, htype.2.1, htype.2.2⟩
  intro a ha
  rcases List.mem_cons.mp ha with rfl | ha
  · exact fits_u32 (by decide) mark
  · unfold tableAttr at ha
    split_ifs at ha
    · rw [List.mem_singleton.mp ha]
      exact fits_u32 (by decide) table
    · exact absurd ha List.not_mem_nil

/-- A rule in a dump: the table is always an attribute, and 252 in the header stands for a large
one. -/
structure InDump (e : Endian) (mark table : UInt32) (m : WireMsg) : Prop where
  plain : Plain e m
  shape : Shape m
  type : m.type = rtmNewRule
  header : m.header.getD 4 0 = if table < 256 then .ofNat table.toNat else 252
  attrs : ∀ a, typeOf a.type = fraFwmark ∨ typeOf a.type = fraTable →
    (a ∈ m.attrs ↔ a = u32 e fraFwmark mark ∨ a = u32 e fraTable table)

theorem toNat_ofNat_of_lt {table : UInt32} (h : table < 256) :
    (UInt8.ofNat table.toNat).toNat = table.toNat :=
  UInt8.toNat_ofNat_of_lt' (UInt32.lt_iff_toNat_lt.mp h)

theorem uses_ruleRequest {n : Nat} :
    (rtMsg e ((ruleRequest e rtmNewRule flags f mark table).msg seq)).Uses .rules n ↔
      n = mark.toNat ∨ n = table.toNat ∨ 256 ≤ table ∧ n = 0 := by
  have hmark : typeOf fraFwmark = fraFwmark := by decide
  have htable : typeOf fraTable = fraTable := by decide
  have hmsg : rtMsg e ((ruleRequest e rtmNewRule flags f mark table).msg seq) =
      ⟨rtmNewRule, smallTable table, ⟨fraFwmark, some mark⟩ ::
        if 256 ≤ table then [⟨fraTable, some table⟩] else []⟩ := by
    show (⟨rtmNewRule, smallTable table,
      attrOf e (u32 e fraFwmark mark) :: (tableAttr e fraTable table).map (attrOf e)⟩ : RtMsg) = _
    rw [attrOf_u32, hmark, tableAttr]
    split_ifs
    · rw [List.map_singleton, attrOf_u32, htable]
    · rfl
  rw [hmsg]
  unfold RtMsg.Uses smallTable
  by_cases hsmall : table < 256
  · have hlarge : ¬256 ≤ table := UInt32.not_le.mpr hsmall
    have hlt : table.toNat < 256 := UInt32.lt_iff_toNat_lt.mp hsmall
    simp only [hsmall, ↓reduceIte, UInt8.ofNat_uInt32ToNat, UInt32.toNat_toUInt8, Nat.reducePow,
      hlarge, List.mem_cons, List.not_mem_nil, or_false, Option.mem_def, exists_eq_left, true_or,
      Option.some.injEq, exists_eq_left', true_and, false_and]
    omega
  · have hlarge : 256 ≤ table := UInt32.not_lt.mp hsmall
    simp only [hsmall, ↓reduceIte, UInt8.toNat_zero, hlarge, List.mem_cons, List.not_mem_nil,
      or_false, Option.mem_def, exists_eq_or_imp, true_or, Option.some.injEq, exists_eq_left',
      true_and, ↓existsAndEq, or_true]
    omega

theorem InDump.uses {m : WireMsg} (h : InDump e mark table m) {n : Nat} :
    (rtMsg e m).Uses .rules n ↔
      n = mark.toNat ∨ n = table.toNat ∨ 256 ≤ table ∧ n = 252 := by
  have hattr : (∃ attr ∈ m.attrs.map (attrOf e), (attr.type = fraFwmark ∨ attr.type = fraTable) ∧
      ∃ v ∈ attr.u32, v.toNat = n) ↔ n = mark.toNat ∨ n = table.toNat := by
    have hmark : typeOf fraFwmark = fraFwmark := by decide
    have htable : typeOf fraTable = fraTable := by decide
    constructor
    · rintro ⟨_, hmem, htype, hv⟩
      obtain ⟨a, ha, rfl⟩ := List.mem_map.mp hmem
      rcases (h.attrs a htype).mp ha with rfl | rfl
      · rw [attrOf_u32] at hv
        obtain ⟨_, hv, rfl⟩ := hv
        cases hv
        exact .inl rfl
      · rw [attrOf_u32] at hv
        obtain ⟨_, hv, rfl⟩ := hv
        cases hv
        exact .inr rfl
    · rintro (rfl | rfl)
      · exact ⟨_, List.mem_map_of_mem ((h.attrs _ (.inl hmark)).mpr (.inl rfl)), .inl hmark, mark,
          by rw [attrOf_u32]; rfl, rfl⟩
      · exact ⟨_, List.mem_map_of_mem ((h.attrs _ (.inr htable)).mpr (.inr rfl)), .inr htable, table,
          by rw [attrOf_u32]; rfl, rfl⟩
  refine (and_congr_right fun _ => or_congr_right hattr).trans ?_
  show m.type = rtmNewRule ∧ ((m.header.getD 4 0).toNat = n ∨ _) ↔ _
  rw [h.header]
  by_cases hsmall : table < 256
  · have hlarge : ¬256 ≤ table := UInt32.not_le.mpr hsmall
    rw [if_pos hsmall, toNat_ofNat_of_lt hsmall]
    simp only [h.type, hlarge, true_and, false_and, or_false]
    omega
  · have hlarge : 256 ≤ table := UInt32.not_lt.mp hsmall
    have h252 : (252 : UInt8).toNat = 252 := rfl
    rw [if_neg hsmall, h252]
    simp only [h.type, hlarge, true_and]
    omega

/-- What is allocated before the end of the search is used by no rule of a dump. -/
theorem allocMarkTable_not_uses {k : RtKernel e} (hk : k.Received) {startIdx idx : UInt32}
    {r : Socket} (hcall : allocMarkTable k ⟨seq, []⟩ startIdx = some (.ok idx, r))
    (hlt : idx.toNat < markLimit) {m : WireMsg} (hm : m ∈ (k.said (dumpRequest rtmGetRule f)).2) :
    ¬(rtMsg e m).Uses .rules idx.toNat := by
  obtain ⟨seq', hsaid⟩ := allocMarkTable_said hk startIdx seq
  rw [hsaid] at hcall
  have halloc := congrArg Prod.fst (Option.some.inj hcall)
  intro huse
  obtain ⟨msgs, hmsgs⟩ := exists_dump halloc .rules f
  refine (free_of_allocMarkTable halloc hlt).2 ⟨.rules, f, msgs, hmsgs, rtMsg e m, ?_, huse⟩
  have hset : dump k .rules f = (settle [] (k.said (dumpRequest rtmGetRule f)).1).map
      fun _ => (k.said (dumpRequest rtmGetRule f)).2.map (rtMsg e) := rfl
  rw [hset] at hmsgs
  cases hcode : settle [] (k.said (dumpRequest rtmGetRule f)).1 with
  | error err =>
    rw [hcode] at hmsgs
    cases hmsgs
  | ok _ =>
    rw [hcode] at hmsgs
    cases hmsgs
    exact List.mem_map_of_mem hm

/-- A rule as it is written, and as a dump has it, is read as one that uses its mark, its table and,
where the table is too large for the header, the number in the header. -/
theorem ruleAdd_seen (e : Endian) (flags : Nat) (f : Family) (mark table seq : UInt32)
    (ctx : ScanCtx) (rest : Bytes) :
    (∃ ctx', ruleScanCb e ctx
        (((ruleRequest e rtmNewRule flags f mark table).msg seq).bytes e ++ rest) = some ctx' ∧
      ∀ n, ctx'.Has n ↔
        ctx.Has n ∨ n = mark.toNat ∨ n = table.toNat ∨ 256 ≤ table ∧ n = 0) ∧
    ∀ m, InDump e mark table m →
      (∃ ctx', ruleScanCb e ctx (m.bytes e ++ rest) = some ctx' ∧
        ∀ n, ctx'.Has n ↔
          ctx.Has n ∨ n = mark.toNat ∨ n = table.toNat ∨ 256 ≤ table ∧ n = 252) ∧
      ∀ (k : RtKernel e) (startIdx idx : UInt32) (r : Socket), k.Received →
        m ∈ (k.said (dumpRequest rtmGetRule f)).2 →
        allocMarkTable k ⟨seq, []⟩ startIdx = some (.ok idx, r) → idx.toNat < markLimit →
        idx ≠ mark ∧ idx ≠ table := by
  have hlink : rtmNewRule ≠ rtmNewLink := by decide
  have hshape : Shape ((ruleRequest e rtmNewRule flags f mark table).msg seq) :=
    ⟨fun _ => rfl, fun h => absurd h hlink⟩
  refine ⟨⟨_, ruleScanCb_bytes (plain_ruleRequest e flags f mark table seq) hshape ctx rest,
    fun n => (has_ruleScan _).trans (or_congr_right uses_ruleRequest)⟩, fun m hm =>
    ⟨⟨_, ruleScanCb_bytes hm.plain hm.shape ctx rest,
      fun n => (has_ruleScan _).trans (or_congr_right hm.uses)⟩, ?_⟩⟩
  intro k startIdx idx r hk hmem hcall hlt
  have hfree := allocMarkTable_not_uses hk hcall hlt hmem
  rw [hm.uses, not_or, not_or] at hfree
  exact ⟨fun h => hfree.1 (congrArg _ h), fun h => hfree.2.1 (congrArg _ h)⟩

theorem inDump_oneRule : InDump .little 1 1 oneRule := by
  refine ⟨plain_oneRule, by unfold Shape; decide, rfl, by decide, fun a _ => ?_⟩
  show a ∈ [_, _] ↔ _
  rw [List.mem_pair, or_comm]

/-- The number of a rule in the dump is passed over. -/
theorem ruleAdd_seen_oneRule :
    ∃ idx r, allocMarkTable oneRuleKernel ⟨0, []⟩ 1 = some (.ok idx, r) ∧ idx ≠ 1 := by
  obtain ⟨seq', hsaid⟩ := allocMarkTable_said received_oneRuleKernel 1 0
  have hcall : allocMarkTable oneRuleKernel ⟨0, []⟩ 1 = some (.ok 2, ⟨seq', []⟩) := hsaid
  have hseen := (ruleAdd_seen .little 0 .v4 1 1 0 ⟨[], []⟩ []).2 oneRule inDump_oneRule
  exact ⟨2, _, hcall, (hseen.2 oneRuleKernel 1 2 _ received_oneRuleKernel (.head _) hcall
    (by decide)).1⟩

end OwnRules

end MagiTrickle.Rtnl
