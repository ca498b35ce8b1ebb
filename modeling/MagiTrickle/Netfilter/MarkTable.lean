import MagiTrickle.Lib.FirstFree
import MagiTrickle.Lib.Runs
import MagiTrickle.Netfilter.Ipset
import Mathlib.Logic.Function.Basic

/-!
# Marks and tables (`netlink/rtnl.c`)

A group marks its packets and routes them by a table of its own; mark and table
are one number. `mt_rtnl_alloc_mark_table` takes the first one from the start
index on that no ip rule and no route of a dump uses.
-/

namespace MagiTrickle.Netfilter

/-- An attribute; `u32` is its payload as a number, if it has four bytes. -/
structure Attr where
  type : Nat
  u32 : Option UInt32
  deriving DecidableEq, Repr

structure RtMsg where
  type : Nat
  table : UInt8
  attrs : List Attr
  deriving DecidableEq, Repr

def rtmNewRoute : Nat := 24
def rtmNewRule : Nat := 32
def fraFwmark : Nat := 10
def fraTable : Nat := 15
def rtaTable : Nat := 15

inductive DumpKind where
  | rules
  | routes
  deriving DecidableEq, Repr

abbrev Dump := DumpKind → Family → Except Err (List RtMsg)

/-- `scan_ctx_t`. -/
structure ScanCtx where
  marks : List Nat
  tables : List Nat
  deriving DecidableEq, Repr

/-- `used_set_add`. -/
def usedSetAdd (s : List Nat) (v : Nat) : List Nat := if v ∈ s then s else s ++ [v]

def ScanCtx.addMark (ctx : ScanCtx) (v : Nat) : ScanCtx :=
  { ctx with marks := usedSetAdd ctx.marks v }

def ScanCtx.addTable (ctx : ScanCtx) (v : Nat) : ScanCtx :=
  { ctx with tables := usedSetAdd ctx.tables v }

/-- `rule_scan_cb`. -/
def ruleScan (ctx : ScanCtx) (h : RtMsg) : ScanCtx :=
  if h.type ≠ rtmNewRule then ctx
  else h.attrs.foldl (fun ctx attr =>
    match attr.u32 with
    | none => ctx
    | some v =>
      if attr.type = fraFwmark then ctx.addMark v.toNat
      else if attr.type = fraTable then ctx.addTable v.toNat
      else ctx) (ctx.addTable h.table.toNat)

/-- `route_scan_cb`. -/
def routeScan (ctx : ScanCtx) (h : RtMsg) : ScanCtx :=
  if h.type ≠ rtmNewRoute then ctx
  else h.attrs.foldl (fun ctx attr =>
    match attr.u32 with
    | none => ctx
    | some v => if attr.type = rtaTable then ctx.addTable v.toNat else ctx)
    (ctx.addTable h.table.toNat)

/-- `dump_family` with the callback for what is dumped. -/
def dumpFamily (dump : Dump) (ctx : ScanCtx) (kind : DumpKind) (f : Family) : Except Err ScanCtx :=
  match dump kind f with
  | .error e => .error e
  | .ok msgs => .ok (msgs.foldl (match kind with
    | .rules => ruleScan
    | .routes => routeScan) ctx)

/-- The tables that are always considered used. -/
def reservedTables : List Nat := [0, 253, 254, 255]

/-- The end of the loop. -/
def markLimit : Nat := 0x7ffffffe

/-- `mt_rtnl_alloc_mark_table`. -/
def allocMarkTable (dump : Dump) (startIdx : UInt32) : Except Err UInt32 := do
  let ctx : ScanCtx := ⟨[], reservedTables.foldl usedSetAdd []⟩
  let ctx ← dumpFamily dump ctx .rules .v4
  let ctx ← dumpFamily dump ctx .rules .v6
  let ctx ← dumpFamily dump ctx .routes .v4
  let ctx ← dumpFamily dump ctx .routes .v6
  pure (.ofNat (Lib.FirstFree.firstFree (fun idx => idx ∈ ctx.tables ∨ idx ∈ ctx.marks) markLimit
    startIdx.toNat))

/-! ## What a dump uses -/

def RtMsg.Uses (kind : DumpKind) (h : RtMsg) (n : Nat) : Prop :=
  match kind with
  | .rules => h.type = rtmNewRule ∧ (h.table.toNat = n ∨
      ∃ attr ∈ h.attrs, (attr.type = fraFwmark ∨ attr.type = fraTable) ∧
        ∃ v ∈ attr.u32, v.toNat = n)
  | .routes => h.type = rtmNewRoute ∧ (h.table.toNat = n ∨
      ∃ attr ∈ h.attrs, attr.type = rtaTable ∧ ∃ v ∈ attr.u32, v.toNat = n)

instance (kind : DumpKind) (h : RtMsg) (n : Nat) : Decidable (h.Uses kind n) :=
  match kind with
  | .rules => inferInstanceAs (Decidable (_ ∧ _))
  | .routes => inferInstanceAs (Decidable (_ ∧ _))

def Dump.Uses (dump : Dump) (n : Nat) : Prop :=
  ∃ kind f msgs, dump kind f = .ok msgs ∧ ∃ h ∈ msgs, h.Uses kind n

/-- The number is not reserved, and nothing in the dump uses it. -/
def Dump.Free (dump : Dump) (n : Nat) : Prop := n ∉ reservedTables ∧ ¬dump.Uses n

/-! ## Groups -/

structure IpRule where
  mark : UInt32
  table : UInt32
  deriving DecidableEq, Repr

/-- The message for a rule in a dump; the header has a place for 252 in front of large tables. -/
def IpRule.msg (r : IpRule) : RtMsg where
  type := rtmNewRule
  table := if r.table.toNat < 256 then .ofNat r.table.toNat else 252
  attrs := ⟨fraTable, some r.table⟩ :: if r.mark = 0 then [] else [⟨fraFwmark, some r.mark⟩]

/-- `mt_ipset_to_link_t` of an enabled group, as far as ip rules go. -/
structure MarkedLink where
  mark : UInt32
  ruleAdded : Family → Bool

/-- The groups, `none` for one that is not enabled, and the kernel: its rules for marks, and as
messages the other rules and the routes. `ipt` says which families have an iptables engine. -/
structure MarkedGroups where
  ipt : Family → Bool
  startIdx : UInt32
  rules : Family → List IpRule
  others : DumpKind → Family → List RtMsg
  groups : List (Option MarkedLink)

/-- The answers of the kernel during one call: errors of the dumps, of the deletions (`true`) and
of the additions, and what becomes of routes and iptables. -/
structure Answers where
  dump : DumpKind → Family → Option Err
  del : Family → Bool
  add : Family → Option Err
  later : Option Err
  undo : Family → Bool

namespace MarkedGroups

def dump (s : MarkedGroups) (errs : DumpKind → Family → Option Err) : Dump := fun kind f =>
  match errs kind f with
  | some e => .error e
  | none => .ok (match kind with
    | .rules => (s.rules f).map IpRule.msg ++ s.others .rules f
    | .routes => s.others .routes f)

structure Work where
  rules : Family → List IpRule
  ruleAdded : Family → Bool

/-- `insert_ip_rule` for a family. -/
def insertFamily (ipt : Family → Bool) (a : Answers) (r : IpRule) (w : Work) (f : Family) :
    Work × Option Err :=
  if ipt f then
    let rules := if a.del f then w.rules f else (w.rules f).erase r
    let w := { w with rules := Function.update w.rules f rules }
    match a.add f with
    | some e => (w, some e)
    | none =>
      if r ∈ rules then (w, some .exist)
      else ({ rules := Function.update w.rules f (rules ++ [r])
              ruleAdded := Function.update w.ruleAdded f true }, none)
  else (w, none)

/-- `insert_ip_rule`. -/
def insertIpRule (ipt : Family → Bool) (a : Answers) (r : IpRule) (w : Work) : Work × Option Err :=
  Lib.Runs.untilErr (insertFamily ipt a r) w [.v4, .v6]

/-- `delete_ip_rule`. -/
def deleteIpRule (undo : Family → Bool) (r : IpRule) (w : Work) : Work where
  rules f := if w.ruleAdded f && !undo f then (w.rules f).erase r else w.rules f
  ruleAdded _ := false

/-- `mt_ruleset_enable` of a group with a new link. -/
def enable (s : MarkedGroups) (i : Nat) (a : Answers) : MarkedGroups :=
  match s.groups[i]? with
  | some none =>
    match allocMarkTable (s.dump a.dump) s.startIdx with
    | .error _ => s
    | .ok idx =>
      let r : IpRule := ⟨idx, idx⟩
      match insertIpRule s.ipt a r ⟨s.rules, fun _ => false⟩ with
      | (w, some _) => { s with rules := (deleteIpRule a.undo r w).rules }
      | (w, none) =>
        match a.later with
        | some _ => { s with rules := (deleteIpRule a.undo r w).rules }
        | none => { s with rules := w.rules, groups := s.groups.set i (some ⟨idx, w.ruleAdded⟩) }
  | _ => s

/-- `mt_ruleset_disable`. -/
def disable (s : MarkedGroups) (i : Nat) (undo : Family → Bool) : MarkedGroups :=
  match s.groups[i]? with
  | some (some l) =>
    { s with
      rules := (deleteIpRule undo ⟨l.mark, l.mark⟩ ⟨s.rules, l.ruleAdded⟩).rules
      groups := s.groups.set i none }
  | _ => s

inductive Event where
  | others (others : DumpKind → Family → List RtMsg)
  | make
  | enable (i : Nat) (a : Answers)
  | disable (i : Nat) (undo : Family → Bool)

def step (s : MarkedGroups) : Event → MarkedGroups
  | .others others => { s with others := others }
  | .make => { s with groups := s.groups ++ [none] }
  | .enable i a => s.enable i a
  | .disable i undo => s.disable i undo

def Distinct (s : MarkedGroups) : Prop :=
  ∀ (i j : Nat) (l l' : MarkedLink), s.groups[i]? = some (some l) → s.groups[j]? = some (some l') →
    i ≠ j → l.mark ≠ l'.mark

end MarkedGroups

end MagiTrickle.Netfilter
