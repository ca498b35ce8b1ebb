import MagiTrickle.Lib.Forest
import MagiTrickle.Lib.OpenTable
import MagiTrickle.Rules.Wildcard

/-!
# Rule matching (`rules/match.c`)

`RuleMatcher` is the single-rule matcher the ipset sync uses. `Matcher` is the
per-group index the DNS pipeline uses: a hash set of exact names, a
reversed-label trie of namespaces, and the wildcard and regex rules scanned one
by one. The regex engine is a parameter `rx`: `rx pattern domain` says that the
pattern compiles and `pcre2_match` reports a match.
-/

namespace MagiTrickle.Rules

open MagiTrickle.Lib

/-! ## Single rules -/

/-- `rule_kind_t`. -/
inductive RuleKind where
  | rkDomain | rkNamespace | rkWildcard | rkRegex | rkNever
  deriving DecidableEq, Repr

def kindOf (type : Bytes) : RuleKind :=
  if type = str "domain" then .rkDomain
  else if type = str "namespace" then .rkNamespace
  else if type = str "wildcard" then .rkWildcard
  else if type = str "regex" then .rkRegex
  else .rkNever

/-- `mt_rule_matcher_t`; the compiled regex is `rx rule`. -/
structure RuleMatcher where
  kind : RuleKind
  rule : Bytes
  deriving DecidableEq, Repr

def ruleMatcherNew (type rule : Bytes) : RuleMatcher := ⟨kindOf type, rule⟩

def namespaceMatch (rule domain : Bytes) : Bool :=
  if domain.length = rule.length ∧ domain = rule then true
  else if domain.length < rule.length + 1 then false
  else domain[domain.length - rule.length - 1]? = some dot ∧
    domain.drop (domain.length - rule.length) = rule

/-- `mt_rule_matcher_match`. -/
def ruleMatcherMatch (rx : Bytes → Bytes → Bool) (m : RuleMatcher) (domain : Bytes) : Bool :=
  match m.kind with
  | .rkDomain => domain.length = m.rule.length ∧ domain = m.rule
  | .rkNamespace => namespaceMatch m.rule domain
  | .rkWildcard => wildcardMatch m.rule domain
  | .rkRegex => rx m.rule domain
  | .rkNever => false

/-! ## The exact-name hash set -/

/-- `exact_set_t`; the capacity is the number of slots. -/
structure ExactSet where
  slots : List (Option Bytes)
  len : Nat
  deriving DecidableEq, Repr

def exactHash (s : Bytes) : Nat := (fnv1a s).toNat

def exactSetGrow (set : ExactSet) : ExactSet :=
  let newCap := if set.slots.length = 0 then 16 else set.slots.length * 2
  let ks := OpenTable.keys set.slots
  ⟨ks.foldl (OpenTable.place exactHash) (List.replicate newCap none), ks.length⟩

/-- The loop of `exact_set_insert` on a set with room. -/
def exactSetPut (set : ExactSet) (s : Bytes) : ExactSet :=
  match OpenTable.lookup exactHash set.slots (fun x => decide (x = s)) s with
  | some i =>
    if set.slots[i]? = some (some s) then set else ⟨set.slots.set i (some s), set.len + 1⟩
  | none => set

def exactSetInsert (set : ExactSet) (s : Bytes) : ExactSet :=
  exactSetPut
    (if set.slots.length = 0 ∨ set.len * 4 ≥ set.slots.length * 3 then exactSetGrow set else set) s

def exactSetContains (set : ExactSet) (s : Bytes) : Bool :=
  if set.slots.length = 0 then false
  else match OpenTable.lookup exactHash set.slots (fun x => decide (x = s)) s with
    | some i => set.slots[i]? = some (some s)
    | none => false

/-! ## The namespace trie -/

/-- The labels met from the end of a name to its start, the bytes given last first. `acc` is the
label being scanned. The scan stops at a first byte `.` without a label before it. -/
def labelsFrom : Bytes → Bytes → List Bytes
  | acc, [] => [acc]
  | acc, c :: cs =>
    if c = dot then acc :: (if cs = [] then [] else labelsFrom [] cs) else labelsFrom (c :: acc) cs

/-- The labels the loops of `ns_trie_insert` and `ns_trie_match` visit. -/
def labels (s : Bytes) : List Bytes := if s = [] then [] else labelsFrom [] s.reverse

/-- `ns_trie_t`. -/
structure NsTrie where
  root : Forest Bytes
  hasEmptyRule : Bool
  deriving DecidableEq, Repr

def nsTrieInsert (t : NsTrie) (rule : Bytes) : NsTrie :=
  if rule.length = 0 then { t with hasEmptyRule := true }
  else { t with root := t.root.insert (labels rule) }

def nsTrieMatch (t : NsTrie) (domain : Bytes) : Bool :=
  if t.hasEmptyRule ∧ (domain.length = 0 ∨ domain.getLast? = some dot) then true
  else t.root.walk (labels domain)

/-! ## The group index -/

/-- `mt_matcher_t`. -/
structure Matcher where
  exact : ExactSet
  ns : NsTrie
  scan : List RuleMatcher
  deriving DecidableEq, Repr

def matcherNew : Matcher := ⟨⟨[], 0⟩, ⟨.nil, false⟩, []⟩

/-- `mt_matcher_add`, memory permitting. -/
def matcherAdd (m : Matcher) (type rule : Bytes) : Matcher :=
  match kindOf type with
  | .rkDomain => { m with exact := exactSetInsert m.exact rule }
  | .rkNamespace => { m with ns := nsTrieInsert m.ns rule }
  | .rkWildcard => { m with scan := m.scan ++ [ruleMatcherNew type rule] }
  | .rkRegex => { m with scan := m.scan ++ [ruleMatcherNew type rule] }
  | .rkNever => m

/-- `mt_matcher_match`. -/
def matcherMatch (rx : Bytes → Bytes → Bool) (m : Matcher) (domain : Bytes) : Bool :=
  exactSetContains m.exact domain || nsTrieMatch m.ns domain ||
    m.scan.any fun r => ruleMatcherMatch rx r domain

def matcherOf (rules : List (Bytes × Bytes)) : Matcher :=
  rules.foldl (fun m r => matcherAdd m r.1 r.2) matcherNew

end MagiTrickle.Rules
