import MagiTrickle.Config.Arrays
import MagiTrickle.Config.Ids
import MagiTrickle.Rules.Match

/-!
# Snapshots of the rules (`rules/snapshot.c`, `subscriptions/runtime.c`)

The DNS pipeline matches names against a copy of the enabled groups and
subscriptions, one matcher for each. A subscription is turned into a group
first.
-/

namespace MagiTrickle.Rules

open Config

/-- `mt_sub_runtime_group`. -/
def subRuntimeGroup (sub : Subscription) : Group where
  id := sub.id
  name := if sub.name = [] then str "subscription:" ++ sub.id.format else sub.name
  color := []
  iface := sub.iface
  enable := sub.enable && decide (sub.iface ≠ [])
  rules := CArray.empty.pushAll (sub.rules.items.map fun sr =>
    { id := sr.id, name := [], type := sr.type, rule := sr.rule, enable := sr.enable })

/-- `mt_group_snapshot_t`. -/
structure GroupSnapshot where
  id : Id
  name : Bytes
  matcher : Matcher
  deriving DecidableEq, Repr

/-- The type and the text of the enabled rules of a group. -/
def enabledRules (g : Group) : List (Bytes × Bytes) :=
  (g.rules.items.filter Rule.enable).map fun r => (r.type, r.rule)

/-- The entry that `append_snapshot_entry` makes of a group. -/
def snapshotEntry (g : Group) : GroupSnapshot := ⟨g.id, g.name, matcherOf (enabledRules g)⟩

/-- The groups and the subscriptions that take part, as groups. -/
def snapshotGroups (groups : List Group) (subscriptions : List Subscription) : List Group :=
  groups.filter Group.enable ++ (subscriptions.map subRuntimeGroup).filter Group.enable

/-- `mt_ruleset_snapshot_build`. -/
def rulesetSnapshotBuild (groups : List Group) (subscriptions : List Subscription) :
    List GroupSnapshot :=
  (snapshotGroups groups subscriptions).map snapshotEntry

end MagiTrickle.Rules
