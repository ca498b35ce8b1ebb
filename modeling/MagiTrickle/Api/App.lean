import MagiTrickle.Api.Json
import MagiTrickle.Config.Load

/-!
# The application (`api/app.c`, `netfilter/ruleset.c`, `subscriptions/runtime.c`)

`cfg->groups[i]` and `rulesets[i]` are created and removed together, so a group
and its ruleset form one entry (`Live`). The objects a ruleset holds in the
kernel are a value of a type `κ`; what the kernel answers during a request is a
`Kernel κ`. Allocations do not fail.

`stores` is the record of all appends made so far. It is not read by any
function.
-/

namespace MagiTrickle.Api

open MagiTrickle.Config

/-- The answers of the kernel: the objects made for a group or the error, the objects after a
sync, and what is left after a removal. -/
structure Kernel (κ : Type) where
  enable : Group → Except Err κ
  sync : Group → κ → κ × Option Err
  disable : Group → κ → Option κ × Option Err

/-- A group with its `mt_ruleset_t`: the runtime flag and the objects in the kernel. -/
structure Live (κ : Type) where
  group : Group
  enabled : Bool
  objects : Option κ

namespace Live

variable {κ : Type}

/-- `mt_ruleset_new`. -/
def new (g : Group) : Live κ := ⟨g, false, none⟩

/-- `mt_ruleset_disable`. -/
def disable (k : Kernel κ) (l : Live κ) : Live κ × Option Err :=
  if !l.enabled then (l, none)
  else if !l.group.enable then ({ l with enabled := false }, none)
  else
    match l.objects with
    | none => ({ l with enabled := false }, none)
    | some o => ({ l with enabled := false, objects := (k.disable l.group o).1 },
        (k.disable l.group o).2)

/-- `mt_ruleset_enable`: on an error everything is taken down again. -/
def enable (k : Kernel κ) (l : Live κ) : Live κ × Option Err :=
  if l.enabled then (l, none)
  else if !l.group.enable then ({ l with enabled := true }, none)
  else
    match k.enable l.group with
    | .ok o => ({ l with enabled := true, objects := some o }, none)
    | .error e => (l, some e)

/-- `mt_ruleset_sync`. -/
def sync (k : Kernel κ) (l : Live κ) : Live κ × Option Err :=
  if !l.enabled then (l, none)
  else if !l.group.enable then (l, none)
  else
    match l.objects with
    | none => (l, none)
    | some o => ({ l with objects := some (k.sync l.group o).1 }, (k.sync l.group o).2)

/-- `mt_ruleset_enable`, then the sync. -/
def start (k : Kernel κ) (l : Live κ) : Live κ × Option Err :=
  match l.enable k with
  | (l, some e) => (l, some e)
  | (l, none) => l.sync k

/-! None of them touches the group. -/

@[simp] theorem group_disable (k : Kernel κ) (l : Live κ) : (l.disable k).1.group = l.group := by
  unfold disable
  split_ifs
  · rfl
  · rfl
  · cases l.objects <;> rfl

@[simp] theorem group_enable (k : Kernel κ) (l : Live κ) : (l.enable k).1.group = l.group := by
  unfold enable
  split_ifs
  · rfl
  · rfl
  · cases k.enable l.group <;> rfl

@[simp] theorem group_sync (k : Kernel κ) (l : Live κ) : (l.sync k).1.group = l.group := by
  unfold sync
  split_ifs
  · rfl
  · rfl
  · cases l.objects <;> rfl

@[simp] theorem group_start (k : Kernel κ) (l : Live κ) : (l.start k).1.group = l.group := by
  unfold start
  split
  · next l' e h => rw [← group_enable k l, h]
  · next l' h =>
    rw [group_sync, ← group_enable k l, h]

/-- After `disable` the flag is down. -/
@[simp] theorem enabled_disable (k : Kernel κ) (l : Live κ) : (l.disable k).1.enabled = false := by
  unfold disable
  split_ifs with h
  · simpa using h
  · rfl
  · cases l.objects <;> rfl

theorem disable_of_not_enabled (k : Kernel κ) {l : Live κ} (h : l.enabled = false) :
    l.disable k = (l, none) := by
  simp [disable, h]

end Live

/-- `mt_app_t` with the configuration it points to and the file it saves to. -/
structure App (κ : Type) where
  groups : CArray (Live κ)
  subscriptions : CArray Subscription
  running : Bool
  saved : Option (List Group × List Subscription)
  stores : List Store

inductive AddError where
  | conflict (e : Err)
  | kernel (e : Err)

def AddError.reply : AddError → Reply
  | .conflict e => .refused 500 e.str
  | .kernel e => .failed e

namespace App

variable {κ : Type}

/-- `cfg->groups`. -/
def configGroups (a : App κ) : List Group := a.groups.items.map Live.group

def log (a : App κ) (st : List Store) : App κ := { a with stores := a.stores ++ st }

/-- A change of the entry at `i` in place. -/
def modify (a : App κ) (i : Nat) (f : Live κ → Live κ) : App κ :=
  { a with groups := a.groups.mapItems fun ls => ls.modify i f }

/-- `mt_app_find_group_by_id`, as an index. -/
def findGroupById (a : App κ) (id : Id) : Option Nat :=
  a.groups.items.findIdx? fun l => l.group.id = id

/-- `mt_app_save_config`. -/
def save (a : App κ) : App κ :=
  { a with saved := some (a.configGroups, a.subscriptions.items) }

/-- The appends of `mt_sub_runtime_group` for these subscriptions. -/
def runtimeStores (subs : List Subscription) : List Store :=
  subs.flatMap fun s => (CArray.empty (α := SubRule)).stores s.rules.items

/-- `mt_app_republish_dns_snapshot`: nothing of it is kept but its appends. -/
def republish (a : App κ) : App κ := a.log (runtimeStores a.subscriptions.items)

/-- `mt_config_add_group` with the new ruleset. -/
def pushGroup (a : App κ) (l : Live κ) : App κ :=
  { a.log [a.groups.store] with groups := a.groups.push l }

/-- `mt_app_add_group_unlocked`. -/
def addGroup (k : Kernel κ) (a : App κ) (g : Group) : App κ × Option AddError :=
  if a.groups.items.any (fun l => l.group.id = g.id) then (a, some (.conflict .exist))
  else if ruleIdsConflict g.rules.items then (a, some (.conflict .inval))
  else if a.running then
    match (Live.new g).start k with
    | (l, none) => ((a.pushGroup l).republish, none)
    | (l, some e) =>
      -- the entry is taken out again, the block stays
      let b := a.pushGroup l
      ({ b with groups := b.groups.eraseIdx a.groups.items.length }, some (.kernel e))
  else ((a.pushGroup (Live.new g)).republish, none)

/-- `mt_app_add_group` for one group after the other, up to the first error. -/
def addGroups (k : Kernel κ) (a : App κ) : List Group → App κ × Option AddError
  | [] => (a, none)
  | g :: gs =>
    match a.addGroup k g with
    | (a, some e) => (a, some e)
    | (a, none) => a.addGroups k gs

/-- `mt_app_clear_groups_unlocked`. -/
def clearGroups (a : App κ) : App κ := { a with groups := .empty }.republish

/-- `mt_app_remove_group_by_index_unlocked`. -/
def removeGroupByIndex (a : App κ) (i : Nat) : App κ :=
  { a with groups := a.groups.eraseIdx i }.republish

/-- `mt_ruleset_disable` for every group. -/
def disableAll (k : Kernel κ) (a : App κ) : App κ :=
  { a with groups := a.groups.mapItems fun ls => ls.map fun l => (l.disable k).1 }

/-! ## Subscriptions -/

/-- `rebuild_subscription_rulesets`. `fail` is the subscription at which the kernel refuses, with
the error. -/
def rebuildSubscriptionRulesets (a : App κ) (fail : Option (Nat × Err)) : App κ × Option Err :=
  match fail with
  | none => (a.log (runtimeStores a.subscriptions.items), none)
  | some (i, e) => (a.log (runtimeStores (a.subscriptions.items.take (i + 1))), some e)

/-- `mt_config_add_subscription`. -/
def pushSubscription (a : App κ) (s : Subscription) : App κ :=
  { a.log [a.subscriptions.store] with subscriptions := a.subscriptions.push s }

/-- `mt_app_add_subscription_unlocked`. `fail` and `fail'` are the outcomes of the rebuild and of
the one that rolls back. -/
def addSubscription (a : App κ) (s : Subscription) (fail fail' : Option (Nat × Err)) :
    App κ × Option Err :=
  if a.subscriptions.items.any (fun s' => s'.id = s.id) then (a, some .exist)
  else
    match (a.pushSubscription s).rebuildSubscriptionRulesets fail with
    | (b, none) => (b.republish, none)
    | (b, some e) =>
      let b := { b with subscriptions := b.subscriptions.eraseIdx a.subscriptions.items.length }
      ((b.rebuildSubscriptionRulesets fail').1, some e)

/-- `mt_app_replace_subscriptions_unlocked`: the new array has room for its elements and no
more. -/
def replaceSubscriptions (a : App κ) (subs : List Subscription) (fail fail' : Option (Nat × Err)) :
    App κ × Option Err :=
  match { a with subscriptions := .exact subs }.rebuildSubscriptionRulesets fail with
  | (b, none) => (b.republish, none)
  | (b, some e) =>
    (({ b with subscriptions := a.subscriptions }.rebuildSubscriptionRulesets fail').1, some e)

/-- `mt_app_remove_subscription_by_id_unlocked`. On an error the subscription is appended again
and rotated to its place. -/
def removeSubscriptionById (a : App κ) (id : Id) (fail fail' : Option (Nat × Err)) :
    App κ × Bool × Option Err :=
  match a.subscriptions.items.findIdx? (fun s => s.id = id) with
  | none => (a, false, none)
  | some i =>
    match { a with subscriptions := a.subscriptions.eraseIdx i }.rebuildSubscriptionRulesets
        fail with
    | (b, none) => (b.republish, true, none)
    | (b, some e) =>
      let b := a.subscriptions.items[i]?.elim b fun s =>
        { b.pushSubscription s with subscriptions :=
            (b.subscriptions.push s).mapItems fun ss => ss.dropLast.insertIdx i s }
      ((b.rebuildSubscriptionRulesets fail').1, true, some e)

end App

end MagiTrickle.Api
