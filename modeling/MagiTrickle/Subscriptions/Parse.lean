import MagiTrickle.Config.Models
import MagiTrickle.Lib.Words
import MagiTrickle.Subscriptions.Detect

/-!
# Lists of subscription rules (`subscriptions/subparse.c`)

A list is cut into entries, the entries become rules, and a refresh carries over
what the user has changed in the rules that were there before. `draws` are the
values of `mt_id_random` one after the other; `none` is a loop that still draws
when they are used up. Memory is taken to suffice, and no rule of a list is the
null pointer.
-/

namespace MagiTrickle.Subscriptions

open Config Libc Lib

/-- `%s|%s` -/
def ruleKey (type text : Bytes) : Bytes := type ++ bar :: text

/-! ## Parsing -/

/-- The separators of `strtok_r`. -/
def isSeparator (c : UInt8) : Bool := c = 10 ∨ c = 13 ∨ c = 44

/-- `trim` -/
def trim (s : Bytes) : Bytes := (s.dropWhile isSpace).rdropWhile isSpace

/-- The entries of a list: tokens without spaces around them, no empty ones, no comments. -/
def entries (list : Bytes) : List Bytes :=
  ((Words.fields isSeparator list).map trim).filter fun line =>
    line ≠ [] ∧ line.head? ≠ some 35

/-- `mt_id_is_zero` -/
def Id.isZero (id : Id) : Bool := id = ⟨0, 0, 0, 0⟩

/-- The loop of `next_unique_id`, with what is left of the draws. -/
def nextUniqueId (used : List Id) : List Id → Option (Id × List Id)
  | [] => none
  | candidate :: draws =>
    if candidate ∈ used then nextUniqueId used draws else some (candidate, draws)

/-- What the loop of `mt_sub_parse_rules` keeps. -/
structure Parsing where
  rules : List SubRule
  seen : List Bytes
  used : List Id
  draws : List Id

def parseEntry (rx : Bytes → Bool) (st : Parsing) (line : Bytes) : Option Parsing :=
  let type := detectType rx line
  if ruleKey type line ∈ st.seen then some st
  else
    match nextUniqueId st.used st.draws with
    | none => none
    | some (id, draws) =>
      some { rules := st.rules ++ [⟨id, line, type, true⟩], seen := ruleKey type line :: st.seen,
             used := st.used ++ [id], draws }

/-- `mt_sub_parse_rules`. -/
def parseRules (rx : Bytes → Bool) (list : Bytes) (draws : List Id) :
    Option (List SubRule × List Id) :=
  ((entries list).foldlM (parseEntry rx) ⟨[], [], [], draws⟩).map fun st => (st.rules, st.draws)

/-! ## Refreshing -/

def current (existing : List SubRule) (text : Bytes) : Option SubRule :=
  existing.find? fun r => r.rule ≠ [] ∧ r.rule = text

def carryOver (existing : List SubRule) (rule : SubRule) : SubRule :=
  match current existing rule.rule with
  | none => rule
  | some cur =>
    { rule with id := cur.id, enable := cur.enable,
                type := if cur.type ≠ [] then cur.type else rule.type }

/-- The loop of `mt_sub_refresh_rules`: ids that are zero or used are drawn anew. -/
def refreshLoop (existing : List SubRule) (used draws : List Id) :
    List SubRule → Option (List SubRule)
  | [] => some []
  | parsed :: rest =>
    let rule := carryOver existing parsed
    if Id.isZero rule.id ∨ rule.id ∈ used then
      match nextUniqueId used draws with
      | none => none
      | some (id, draws) =>
        (refreshLoop existing (used ++ [id]) draws rest).map ({ rule with id := id } :: ·)
    else (refreshLoop existing (used ++ [rule.id]) draws rest).map (rule :: ·)

/-- `mt_sub_refresh_rules`. -/
def refreshRules (rx : Bytes → Bool) (list : Bytes) (existing : List SubRule) (draws : List Id) :
    Option (List SubRule) :=
  match parseRules rx list draws with
  | none => none
  | some (parsed, draws) => if parsed = [] then some [] else refreshLoop existing [] draws parsed

/-! ## Comparing -/

/-- The stored type, or the detected one when it is empty. -/
def effectiveType (rx : Bytes → Bool) (rule : SubRule) : Bytes :=
  if rule.type ≠ [] then rule.type else detectType rx rule.rule

/-- `same_rules_key` -/
def sameRulesKey (rx : Bytes → Bool) (rule : SubRule) : Bytes :=
  ruleKey (effectiveType rx rule) rule.rule

/-- `rule_state_t` -/
structure RuleState where
  key : Bytes
  id : Id
  enable : Bool
  count : Nat
  deriving DecidableEq, Repr

def updateState (key : Bytes) (f : RuleState → RuleState) : List RuleState → List RuleState
  | [] => []
  | st :: states => if st.key = key then f st :: states else st :: updateState key f states

/-- The body of the first loop: a rule of the left list is counted. -/
def countLeft (rx : Bytes → Bool) (states : List RuleState) (rule : SubRule) :
    Option (List RuleState) :=
  let key := sameRulesKey rx rule
  match states.find? (·.key = key) with
  | some st =>
    if st.count > 0 ∧ (st.id ≠ rule.id ∨ st.enable ≠ rule.enable) then none
    else
      some (updateState key
        (fun st => { st with id := rule.id, enable := rule.enable, count := st.count + 1 }) states)
  | none => some (⟨key, rule.id, rule.enable, 1⟩ :: states)

/-- The body of the second loop: a rule of the right list is taken off. -/
def countRight (rx : Bytes → Bool) (states : List RuleState) (rule : SubRule) :
    Option (List RuleState) :=
  let key := sameRulesKey rx rule
  match states.find? (·.key = key) with
  | none => none
  | some st =>
    if st.count = 0 then none
    else if st.id ≠ rule.id ∨ st.enable ≠ rule.enable then none
    else some (updateState key (fun st => { st with count := st.count - 1 }) states)

/-- `mt_sub_same_rules`. -/
def sameRules (rx : Bytes → Bool) (left right : List SubRule) : Bool :=
  if left.length ≠ right.length then false
  else if left = [] then true
  else
    match left.foldlM (countLeft rx) [] with
    | none => false
    | some states =>
      match right.foldlM (countRight rx) states with
      | none => false
      | some states => states.all fun st => st.count = 0

end MagiTrickle.Subscriptions
