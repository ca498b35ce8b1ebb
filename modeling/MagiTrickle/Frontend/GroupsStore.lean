import MagiTrickle.Lib.Moves

/-!
# Moving rules and groups (`groups.svelte.ts`)

The store holds an array of groups, each with an array of rules. Rules and
groups are objects: `object` tells two of them apart that have the same fields.
`changeRuleIndex` and `changeGroupIndex` are the two ends of a drag.
-/

namespace MagiTrickle.Groups

open Lib.Moves (Side)

structure Rule where
  object : Nat
  id : String
  deriving DecidableEq, Repr

structure Group where
  object : Nat
  id : String
  rules : List Rule
  deriving DecidableEq, Repr

/-- The fields of `GroupsStore` that a move reads or writes; `forced` has the rules of each group
that are shown whatever is searched for. -/
structure Store where
  data : List Group
  forced : String → List String
  dataRevision : Nat

/-- `clamp`. -/
def clamp (value lo hi : Nat) : Nat := max lo (min hi value)

/-- `moveForcedRule`. -/
def moveForcedRule (forced : String → List String) (sourceGroupId targetGroupId ruleId : String) :
    String → List String :=
  if sourceGroupId = targetGroupId then forced
  else if ruleId ∉ forced sourceGroupId then forced
  else fun id =>
    if id = sourceGroupId then (forced id).erase ruleId
    else if id = targetGroupId then (forced id).insert ruleId
    else forced id

def searchId (targetRules : List Rule) : Option String → Option Nat
  | some id => if id.length > 0 then targetRules.findIdx? (·.id = id) else none
  | none => none

/-- Where `changeRuleIndex` puts the moved rule into `targetRules`, which it is no longer in. -/
def ruleInsertIndex (targetRules : List Rule) (isSameGroup : Bool) (fromIndex toRuleIndex : Nat)
    (toRuleId : Option String) (insert : Side) : Nat :=
  let anchorIndex := match searchId targetRules toRuleId with
    | some index => some index
    | none =>
      if targetRules.length > 0 then
        let index := clamp toRuleIndex 0 (targetRules.length - 1)
        some (if isSameGroup ∧ fromIndex < index then index - 1 else index)
      else none
  let insertIndex := match anchorIndex with
    | none => if insert = .after then targetRules.length else 0
    | some index => if insert = .after then index + 1 else index
  clamp insertIndex 0 targetRules.length

/-- `changeRuleIndex`. -/
def changeRuleIndex (s : Store) (fromGroupIndex fromRuleIndex toGroupIndex toRuleIndex : Nat)
    (toRuleId : Option String) (insert : Side) : Store :=
  match s.data[fromGroupIndex]?, s.data[toGroupIndex]? with
  | some sourceGroup, some targetGroup =>
    if sourceGroup.rules.length = 0 then s
    else
      let isSameGroup := fromGroupIndex = toGroupIndex
      let fromIndex := clamp fromRuleIndex 0 (sourceGroup.rules.length - 1)
      match sourceGroup.rules[fromIndex]? with
      | none => s
      | some movedRule =>
        let sourceRules := sourceGroup.rules.eraseIdx fromIndex
        let targetRules := if isSameGroup then sourceRules else targetGroup.rules
        let insertIndex :=
          ruleInsertIndex targetRules isSameGroup fromIndex toRuleIndex toRuleId insert
        { data := (s.data.set fromGroupIndex { sourceGroup with rules := sourceRules }).set
            toGroupIndex { targetGroup with rules := targetRules.insertIdx insertIndex movedRule }
          forced :=
            if isSameGroup then s.forced
            else moveForcedRule s.forced sourceGroup.id targetGroup.id movedRule.id
          dataRevision := s.dataRevision + 1 }
  | _, _ => s

/-- `changeGroupIndex`. -/
def changeGroupIndex (s : Store) (fromIndex toIndex : Nat) (insert : Side) : Store :=
  if fromIndex = toIndex ∧ insert ≠ .after then s
  else
    match s.data[fromIndex]? with
    | none => s
    | some group =>
      let data := s.data.eraseIdx fromIndex
      let target := if insert = .after then toIndex + 1 else toIndex
      let target := if fromIndex < target then target - 1 else target
      let target := if target > data.length then data.length else target
      { s with data := data.insertIdx target group, dataRevision := s.dataRevision + 1 }

/-! ## What a move should do -/

def Store.rulesAt (s : Store) (group : Nat) : List Rule := (s.data[group]?.map Group.rules).getD []

/-- No object is in the store twice. -/
structure Objects extends Store where
  rules_nodup : (data.flatMap Group.rules).Nodup
  groups_nodup : (data.map Group.object).Nodup

/-- Apart from the moved rule, every group keeps its rules and their order; no rule is lost or
there twice. -/
structure Keeps (s s' : Store) (toGroup : Nat) (moved : Rule) : Prop where
  groups : s'.data.map (fun g => (g.object, g.id)) = s.data.map fun g => (g.object, g.id)
  rules : (s'.data.flatMap Group.rules).Perm (s.data.flatMap Group.rules)
  order : ∀ group, (s'.rulesAt group).erase moved = (s.rulesAt group).erase moved
  there : moved ∈ s'.rulesAt toGroup

def given (toRuleId : Option String) : Option String := toRuleId.filter (· ≠ "")

/-- The rule that the moved one should land at: one with the given id, or without an id the one at
the index. -/
def IsAnchor (s : Store) (toGroup toRule : Nat) (toRuleId : Option String) (anchor : Rule) : Prop :=
  match given toRuleId with
  | some id => anchor ∈ s.rulesAt toGroup ∧ anchor.id = id
  | none => (s.rulesAt toGroup)[toRule]? = some anchor

/-- The moved rule lands at its anchor, if there is one. -/
def LandsAtAnchor (s s' : Store) (toGroup toRule : Nat) (toRuleId : Option String) (insert : Side)
    (moved : Rule) : Prop :=
  (∃ anchor, IsAnchor s toGroup toRule toRuleId anchor) →
    ∃ anchor, IsAnchor s toGroup toRule toRuleId anchor ∧
      Lib.Moves.Lands insert (s.rulesAt toGroup) (s'.rulesAt toGroup) moved anchor

/-- A group lands at the one at an index. -/
structure GroupLands (s s' : Store) (moved anchor : Group) (insert : Side) : Prop where
  groups : s'.data.Perm s.data
  order : s'.data.erase moved = s.data.erase moved
  lands : Lib.Moves.Lands insert s.data s'.data moved anchor

end MagiTrickle.Groups
