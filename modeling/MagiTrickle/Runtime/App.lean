import MagiTrickle.Api.Subscriptions
import MagiTrickle.Dns.Pipeline
import MagiTrickle.Runtime.Ruleset

/-!
# The application and its objects (`api/app.c`)

Here groups, rulesets and rule arrays are objects with an address. `cfg->groups`
and `app->rulesets` are two arrays, changed by different statements, and so are
the rulesets of the subscriptions and the groups made up for them. The rule array
of a subscription is known by its address; the addresses given to
`free_sub_rule_array` are kept in the order of the calls. Allocations succeed.

Saving the configuration writes a file and is left out.
-/

namespace MagiTrickle.Runtime

open Config Api Rules

/-! ## Group objects -/

/-- The objects of type `mt_group_t`. -/
structure Heap where
  cell : Ptr → Option Group
  next : Ptr

namespace Heap

/-- The group at an address. What is read where there is none does not matter. -/
def get (h : Heap) (p : Ptr) : Group := (h.cell p).getD ⟨⟨0, 0, 0, 0⟩, [], [], [], false, .empty⟩

/-- A new object, at `h.next`. -/
def alloc (h : Heap) (g : Group) : Heap :=
  ⟨fun q => if q = h.next then some g else h.cell q, h.next + 1⟩

def write (h : Heap) (p : Ptr) (g : Group) : Heap :=
  { h with cell := fun q => if q = p then some g else h.cell q }

/-- `mt_group_free` for each of the objects. -/
def free (h : Heap) (ps : List Ptr) : Heap :=
  { h with cell := fun q => if q ∈ ps then none else h.cell q }

end Heap

/-- An array of groups and the array of their rulesets. -/
structure Registry where
  groups : List Ptr
  rulesets : List RulesetObj

namespace Registry

def empty : Registry := ⟨[], []⟩

def push (r : Registry) (p : Ptr) (rs : RulesetObj) : Registry :=
  ⟨r.groups ++ [p], r.rulesets ++ [rs]⟩

/-- `mt_ruleset_disable` for one ruleset after the other. -/
def disableAll (h : Heap) : List RulesetObj → Nf → List RulesetObj × Nf
  | [], nf => ([], nf)
  | rs :: rss, nf =>
    let r := rs.disable (h.get rs.group) nf
    let q := disableAll h rss r.2.2
    (r.1 :: q.1, q.2)

/-- `mt_ruleset_disable` and `mt_ruleset_free` for one ruleset after the other. -/
def shut (h : Heap) : List RulesetObj → Nf → Nf
  | [], nf => nf
  | rs :: rss, nf =>
    let r := rs.disable (h.get rs.group) nf
    shut h rss (r.1.free r.2.2)

end Registry

/-! ## Subscription objects -/

/-- `mt_subscription_t` with the address of its rule array, `none` for the null pointer. -/
structure Sub where
  config : Subscription
  array : Option Ptr

/-- `cfg->subscriptions`, the next address for a rule array, and the arrays freed so far. -/
structure Subs where
  list : List Sub
  next : Ptr
  released : List Ptr

namespace Subs

def alloc (m : Subs) (rules : List SubRule) : Option Ptr × Subs :=
  if rules = [] then (none, m) else (some m.next, { m with next := m.next + 1 })

/-- `free_sub_rule_array`, also as a part of `mt_subscription_free`. -/
def release (m : Subs) (array : Option Ptr) : Subs :=
  { m with released := m.released ++ array.toList }

def releaseAll (m : Subs) (arrays : List (Option Ptr)) : Subs :=
  { m with released := m.released ++ arrays.filterMap id }

/-- The objects for subscriptions that were built before the call. -/
def adopt (m : Subs) : List Subscription → List Sub × Subs
  | [] => ([], m)
  | s :: ss =>
    let a := m.alloc s.rules.items
    let r := a.2.adopt ss
    (⟨s, a.1⟩ :: r.1, r.2)

/-- `find_subscription_mut`: the place and the object. -/
def find (m : Subs) (id : Id) : Option (Nat × Sub) :=
  (m.list.findIdx? fun s => s.config.id = id).bind fun i => m.list[i]?.map fun s => (i, s)

def set (m : Subs) (i : Nat) (s : Sub) : Subs := { m with list := m.list.set i s }

end Subs

/-! ## The daemon -/

/-- `struct daemon` with its application and configuration, as far as groups and subscriptions are
concerned. -/
structure Daemon where
  deps : Deps
  heap : Heap
  /-- `cfg->groups` and `app->rulesets`. -/
  user : Registry
  subs : Subs
  /-- `app->sub_synth_groups` and `app->sub_rulesets`. -/
  synth : Registry
  running : Bool
  snapshot : List GroupSnapshot
  nf : Nf

namespace Daemon

def configGroups (d : Daemon) : List Group := d.user.groups.map d.heap.get

def configSubs (d : Daemon) : List Subscription := d.subs.list.map Sub.config

/-- `mt_app_republish_dns_snapshot`. -/
def republish (d : Daemon) : Daemon :=
  { d with snapshot := rulesetSnapshotBuild d.configGroups d.configSubs }

/-! ## Groups -/

/-- `mt_ruleset_free` and `rulesets_remove_at` at `i`, then `mt_config_remove_group_by_index` at
`j`. -/
def removeAt (d : Daemon) (i j : Nat) : Daemon :=
  { d with
    heap := d.heap.free d.user.groups[j]?.toList
    user := ⟨d.user.groups.eraseIdx j, d.user.rulesets.eraseIdx i⟩
    nf := d.user.rulesets[i]?.elim d.nf fun rs => rs.free d.nf }

/-- `mt_app_add_group_unlocked`. The object at `p` is taken over in any case. -/
def addGroup (d : Daemon) (p : Ptr) : Daemon × Option AddError :=
  let g := d.heap.get p
  if d.configGroups.any fun g' => g'.id = g.id then
    ({ d with heap := d.heap.free [p] }, some (.conflict .exist))
  else if ruleIdsConflict g.rules.items then
    ({ d with heap := d.heap.free [p] }, some (.conflict .inval))
  else if d.running then
    match (RulesetObj.new p).start d.deps g d.nf with
    | (rs, none, nf) => ({ d with user := d.user.push p rs, nf := nf }.republish, none)
    | (rs, some e, nf) =>
      let r := rs.disable g nf
      let b := { d with user := d.user.push p r.1, nf := r.2.2 }
      (b.removeAt d.user.rulesets.length d.user.groups.length, some (.kernel e))
  else ({ d with user := d.user.push p (.new p) }.republish, none)

/-- `mt_app_add_group` for one new group after the other, up to the first error. -/
def addGroups (d : Daemon) : List Group → Daemon × Option AddError
  | [] => (d, none)
  | g :: gs =>
    match { d with heap := d.heap.alloc g }.addGroup d.heap.next with
    | (d, some e) => (d, some e)
    | (d, none) => d.addGroups gs

/-- `mt_app_clear_groups_unlocked`. -/
def clearGroups (d : Daemon) : Daemon :=
  { d with
    nf := Registry.shut d.heap d.user.rulesets d.nf
    heap := d.heap.free d.user.groups
    user := .empty }.republish

/-- `mt_app_remove_group_by_index_unlocked`. -/
def removeGroupByIndex (d : Daemon) (i : Nat) : Daemon :=
  if i < d.user.rulesets.length then (d.removeAt i i).republish else d

/-- `mt_app_find_group_by_id`, as an index. -/
def findGroupById (d : Daemon) (id : Id) : Option Nat :=
  d.user.rulesets.findIdx? fun rs => (d.heap.get rs.group).id = id

/-- `mt_app_remove_group_by_id_unlocked`. -/
def removeGroupById (d : Daemon) (id : Id) : Daemon :=
  (d.findGroupById id).elim d d.removeGroupByIndex

/-! ## Subscriptions -/

/-- `free_subscription_rulesets`. -/
def freeSubRulesets (d : Daemon) : Daemon :=
  { d with
    nf := Registry.shut d.heap d.synth.rulesets d.nf
    heap := d.heap.free d.synth.groups
    synth := .empty }

/-- The loop of `rebuild_subscription_rulesets`. -/
def buildSubRulesets (d : Daemon) : List Sub → Daemon × Option Err
  | [] => (d, none)
  | s :: ss =>
    let p := d.heap.next
    let g := Rules.subRuntimeGroup s.config
    let b := { d with heap := d.heap.alloc g }
    if d.running then
      match (RulesetObj.new p).start d.deps g d.nf with
      | (rs, none, nf) => { b with synth := d.synth.push p rs, nf := nf }.buildSubRulesets ss
      | (rs, some e, nf) =>
        ({ b with synth := d.synth.push p rs, nf := nf }.freeSubRulesets, some e)
    else { b with synth := d.synth.push p (.new p) }.buildSubRulesets ss

/-- `rebuild_subscription_rulesets`. -/
def rebuild (d : Daemon) : Daemon × Option Err := d.freeSubRulesets.buildSubRulesets d.subs.list

/-- `mt_app_add_subscription_unlocked`. -/
def addSubscription (d : Daemon) (s : Subscription) : Daemon × Option Err :=
  let a := d.subs.alloc s.rules.items
  if d.configSubs.any fun s' => s'.id = s.id then
    ({ d with subs := a.2.release a.1 }, some .exist)
  else
    match { d with subs := { a.2 with list := d.subs.list ++ [(⟨s, a.1⟩ : Sub)] } }.rebuild with
    | (b, none) => (b.republish, none)
    | (b, some e) =>
      let m := { b.subs.release a.1 with list := b.subs.list.eraseIdx d.subs.list.length }
      ({ b with subs := m }.rebuild.1, some e)

/-- `mt_app_replace_subscriptions_unlocked`. -/
def replaceSubscriptions (d : Daemon) (subs : List Subscription) : Daemon × Option Err :=
  let a := d.subs.adopt subs
  match { d with subs := { a.2 with list := a.1 } }.rebuild with
  | (b, none) =>
    ({ b with subs := b.subs.releaseAll (d.subs.list.map Sub.array) }.republish, none)
  | (b, some e) =>
    let m := { b.subs.releaseAll (a.1.map Sub.array) with list := d.subs.list }
    ({ b with subs := m }.rebuild.1, some e)

/-- `mt_app_remove_subscription_by_id_unlocked`. On an error the subscription is appended again
and rotated to its place. The flag says whether it was found. -/
def removeSubscriptionById (d : Daemon) (id : Id) : Daemon × Bool × Option Err :=
  match d.subs.find id with
  | none => (d, false, none)
  | some (i, s) =>
    match { d with subs := { d.subs with list := d.subs.list.eraseIdx i } }.rebuild with
    | (b, none) => ({ b with subs := b.subs.release s.array }.republish, true, none)
    | (b, some e) =>
      let m := { b.subs with list := (b.subs.list ++ [s]).dropLast.insertIdx i s }
      ({ b with subs := m }.rebuild.1, true, some e)

/-- `mt_app_sync_subscription_by_id_unlocked`. `fetch` is the download, `mt_sub_refresh_rules` and
`mt_sub_same_rules`. -/
def syncSubscriptionById (fetch : Fetch) (d : Daemon) (id : Id) (now : Nat)
    (urlOverride : Option Bytes) : Daemon × Except Err Bool :=
  match d.subs.find id with
  | none => (d, .error .noent)
  | some (i, s) =>
    let url := (urlOverride.filter fun u => u ≠ []).getD s.config.url
    if url = [] then (d, .error .inval)
    else
      match fetch url s.config with
      | .error e => (d, .error e)
      | .ok (rules, false) =>
        let a := d.subs.alloc rules
        let c := { s.config with url := url, lastCheck := now % 2 ^ 32 }
        ({ d with subs := (a.2.release a.1).set i { s with config := c } },
          .ok (s.config.url ≠ url))
      | .ok (rules, true) =>
        let a := d.subs.alloc rules
        let c := { s.config with
          url := url, lastCheck := now % 2 ^ 32, lastUpdate := now % 2 ^ 32,
          rules := refreshedArray rules }
        match { d with subs := a.2.set i ⟨c, a.1⟩ }.rebuild with
        | (b, none) => ({ b with subs := b.subs.release s.array }.republish, .ok true)
        | (b, some e) =>
          ({ b with subs := (b.subs.release a.1).set i s }.rebuild.1, .error e)

/-! ## Syncing all that is due -/

end Daemon

/-- A plan of `mt_app_sync_due_subscriptions_unlocked`: the refreshed rules in an array of their
own, and whether they differ from the present ones. -/
structure Plan where
  id : Id
  refreshed : List SubRule
  array : Option Ptr
  changed : Bool

/-- `rollback_entry_t`: the place of the subscription and what it was. -/
structure Saved where
  index : Nat
  old : Sub
  replaced : Bool

namespace Subs

def dueIds (m : Subs) (now : Nat) : List Id :=
  (m.list.filter fun s => subIsDue s.config now).map fun s => s.config.id

/-- The loop over the due ids. `fetch i` is the download for the `i`-th of them; one that fails is
skipped. -/
def duePlans (fetch : Nat → Fetch) (m : Subs) : Nat → List Id → List Plan × Subs
  | _, [] => ([], m)
  | i, id :: ids =>
    match m.find id with
    | none => m.duePlans fetch (i + 1) ids
    | some (_, s) =>
      if s.config.url = [] then m.duePlans fetch (i + 1) ids
      else
        match fetch i s.config.url s.config with
        | .error _ => m.duePlans fetch (i + 1) ids
        | .ok (rules, changed) =>
          let a := m.alloc rules
          let r := a.2.duePlans fetch (i + 1) ids
          (⟨id, rules, a.1, changed⟩ :: r.1, r.2)

def carryOut (now : Nat) (p : Plan) (s : Sub) : Sub :=
  if p.changed then
    ⟨{ s.config with
        lastCheck := now % 2 ^ 32, lastUpdate := now % 2 ^ 32, rules := refreshedArray p.refreshed },
      p.array⟩
  else { s with config := { s.config with lastCheck := now % 2 ^ 32 } }

/-- The plans carried out, each on the first subscription with its id. -/
def applyPlans (now : Nat) (m : Subs) : List Plan → Subs × List Saved
  | [] => (m, [])
  | p :: ps =>
    match m.find p.id with
    | none => (m.release p.array).applyPlans now ps
    | some (i, s) =>
      let b := if p.changed then m else m.release p.array
      let r := (b.set i (carryOut now p s)).applyPlans now ps
      (r.1, ⟨i, s, p.changed⟩ :: r.2)

/-- The rollback, in the order of the plans: a replaced array is freed, then the subscription is
what it was. -/
def undo (m : Subs) : List Saved → Subs
  | [] => m
  | e :: es =>
    let b := if e.replaced then m.release (m.list[e.index]?.bind Sub.array) else m
    (b.set e.index e.old).undo es

end Subs

namespace Daemon

/-- `mt_app_sync_due_subscriptions_unlocked`. -/
def syncDueSubscriptions (fetch : Nat → Fetch) (d : Daemon) (now : Nat) : Daemon × Option Err :=
  let plans := d.subs.duePlans fetch 0 (d.subs.dueIds now)
  let r := plans.2.applyPlans now plans.1
  if r.2.any Saved.replaced then
    match { d with subs := r.1 }.rebuild with
    | (b, none) =>
      let arrays := (r.2.filter Saved.replaced).map fun e => e.old.array
      ({ b with subs := b.subs.releaseAll arrays }.republish, none)
    | (b, some e) => ({ b with subs := b.subs.undo r.2 }.rebuild.1, some e)
  else ({ d with subs := r.1 }, none)

/-! ## Matches -/

end Daemon

/-- A ruleset of a group or of a subscription, by its place in the array. -/
inductive Source where
  | user (i : Nat)
  | synth (j : Nat)
  deriving DecidableEq, Repr

namespace Daemon

/-- `find_ruleset`. -/
def findRuleset (d : Daemon) (id : Id) : Option Source :=
  match d.findGroupById id with
  | some i => some (.user i)
  | none =>
    (d.synth.rulesets.findIdx? fun rs => (d.heap.get rs.group).id = id).map Source.synth

/-- `mt_ruleset_add_ipv4` or `mt_ruleset_add_ipv6` on a ruleset. -/
def addTo (d : Daemon) (e : Entry) : Source → Daemon
  | .user i =>
    d.user.rulesets[i]?.elim d fun rs =>
      let r := rs.add (d.heap.get rs.group) e d.nf
      { d with user := { d.user with rulesets := d.user.rulesets.set i r.1 }, nf := r.2 }
  | .synth j =>
    d.synth.rulesets[j]?.elim d fun rs =>
      let r := rs.add (d.heap.get rs.group) e d.nf
      { d with synth := { d.synth with rulesets := d.synth.rulesets.set j r.1 }, nf := r.2 }

def entryOf (a : Pipeline.Action) : Entry :=
  ⟨if a.addr.length = 4 then .v4 else .v6, a.addr, a.ttl⟩

/-- `on_match`. -/
def onMatch (d : Daemon) (a : Pipeline.Action) : Daemon :=
  (d.findRuleset a.groupId).elim d (d.addTo (entryOf a))

end Daemon

end MagiTrickle.Runtime
