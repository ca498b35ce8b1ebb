import MagiTrickle.Core.Basic
import MagiTrickle.Lib.Words

/-!
# Rules and staged chains (`iptables/rule.c`, `iptables/chain_*.c`)

A rule is its list of parts. A staged chain is one of three kinds; `compile`
turns it into commands against the rules the chain has in the kernel, `none`
when the kernel has no such chain.
-/

namespace MagiTrickle.Iptables

open MagiTrickle.Lib

/-- `mt_ipt_rule_t`. -/
abbrev Rule := List Bytes

instance : LawfulBEq Rule := inferInstanceAs (LawfulBEq (List (List UInt8)))

def isBlank (c : UInt8) : Bool := c = 32 ∨ c = 9

/-- `mt_ipt_rule_string`: the parts with a blank between them. -/
def ruleString (r : Rule) : Bytes := Words.unwords 32 r

/-- `mt_ipt_option_t`. -/
inductive Opt where
  | append | insert | delete | flush | deleteChain
  deriving DecidableEq, Repr

/-- `mt_ipt_command_t`; commands on whole chains have no rule. -/
structure Command where
  option : Opt
  chain : Bytes
  ruleNum : Int
  rule : Rule
  deriving DecidableEq, Repr

/-- `patch_entry_t`. -/
structure PatchEntry where
  option : Opt
  ruleNum : Int
  rule : Rule
  deriving DecidableEq, Repr

/-- The three kinds of `mt_ipt_chain_t`. -/
inductive Chain where
  | override (rules : List Rule)
  | patch (entries : List PatchEntry)
  | delete
  deriving DecidableEq, Repr

/-! ## Staging -/

/-- `add_rule`: the last operation on a rule wins and moves to the end. -/
def addRule (entries : List PatchEntry) (e : PatchEntry) : List PatchEntry :=
  entries.filter (fun x => x.rule ≠ e.rule) ++ [e]

def Chain.append (c : Chain) (r : Rule) : Chain :=
  match c with
  | .override rules => .override (rules ++ [r])
  | .patch entries => .patch (addRule entries ⟨.append, 0, r⟩)
  | .delete => .delete

/-- Insertion into an override chain outside its positions is ignored. -/
def Chain.insert (c : Chain) (ruleNum : Int) (r : Rule) : Chain :=
  match c with
  | .override rules =>
    if ruleNum < 1 ∨ ruleNum > rules.length + 1 then .override rules
    else .override (rules.insertIdx (ruleNum.toNat - 1) r)
  | .patch entries => .patch (addRule entries ⟨.insert, ruleNum, r⟩)
  | .delete => .delete

def Chain.remove (c : Chain) (r : Rule) : Chain :=
  match c with
  | .override rules => .override (rules.erase r)
  | .patch entries => .patch (addRule entries ⟨.delete, 0, r⟩)
  | .delete => .delete

/-! ## Compiling -/

def overrideCompile (rules : List Rule) (name : Bytes) (existing : Option (List Rule)) :
    List Command :=
  if existing = some rules then []
  else ⟨.flush, name, 0, []⟩ :: rules.map fun r => ⟨.append, name, 0, r⟩

/-- The round of `patch_compile` for one entry whose rule occurs `count` times: surplus copies go,
then the entry's own operation if it is still needed. -/
def patchEntryCompile (name : Bytes) (count : Nat) (e : PatchEntry) : List Command :=
  List.replicate (count - 1) ⟨.delete, name, 0, e.rule⟩ ++
    match e.option with
    | .append => if count > 0 then [] else [⟨.append, name, 0, e.rule⟩]
    | .insert => if count > 0 then [] else [⟨.insert, name, e.ruleNum, e.rule⟩]
    | .delete => if count = 0 then [] else [⟨.delete, name, 0, e.rule⟩]
    | _ => []

/-- Rules are counted by their text. -/
def patchCompile (entries : List PatchEntry) (name : Bytes) (existing : Option (List Rule)) :
    List Command :=
  let keys := (existing.getD []).map ruleString
  entries.flatMap fun e => patchEntryCompile name (keys.count (ruleString e.rule)) e

def deleteCompile (name : Bytes) (existing : Option (List Rule)) : List Command :=
  if existing = none then [] else [⟨.flush, name, 0, []⟩, ⟨.deleteChain, name, 0, []⟩]

def Chain.compile (c : Chain) (name : Bytes) (existing : Option (List Rule)) :
    List Command × Int :=
  match c with
  | .override rules => (overrideCompile rules name existing, -128)
  | .patch entries => (patchCompile entries name existing, 0)
  | .delete => (deleteCompile name existing, 127)

end MagiTrickle.Iptables
