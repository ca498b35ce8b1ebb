import MagiTrickle.Core.Libc
import MagiTrickle.Iptables.Tables
import Mathlib.Data.List.Sort

/-!
# The iptables engine (`iptables/engine.c`)

Chains are registered under a table and a name, in order, and rules staged in
them. `commit` reads the current rules through `iptables-save`, compiles every
registered chain against them, and feeds one transcript to `iptables-restore`.
The executable is a parameter. Memory is taken to suffice.
-/

namespace MagiTrickle.Iptables

open MagiTrickle.Lib

/-! ## Registration and staging -/

/-- `chain_reg_t`. -/
structure ChainReg where
  name : Bytes
  chain : Chain
  deriving DecidableEq, Repr

/-- `table_reg_t`. -/
structure TableReg where
  name : Bytes
  chains : List ChainReg
  deriving DecidableEq, Repr

/-- `mt_ipt_t`. -/
structure Ipt where
  tables : List TableReg
  deriving DecidableEq, Repr

def iptNew : Ipt := ⟨[]⟩

/-- The part of `register_chain` inside a table: a chain already there is replaced in its place. -/
def putChain (cs : List ChainReg) (chain : Bytes) (new : Chain) : List ChainReg :=
  upsert ChainReg.name chain ⟨chain, new⟩ (fun c => { c with chain := new }) cs

/-- `register_chain`. -/
def registerChain (ipt : Ipt) (table chain : Bytes) (new : Chain) : Ipt :=
  ⟨upsert TableReg.name table ⟨table, putChain [] chain new⟩
    (fun t => { t with chains := putChain t.chains chain new }) ipt.tables⟩

def registerChainDelete (ipt : Ipt) (table chain : Bytes) : Ipt :=
  registerChain ipt table chain .delete

def registerChainPatch (ipt : Ipt) (table chain : Bytes) : Ipt :=
  registerChain ipt table chain (.patch [])

def registerChainOverride (ipt : Ipt) (table chain : Bytes) : Ipt :=
  registerChain ipt table chain (.override [])

/-- `find_table` and `find_chain_reg`. -/
def findChain (ipt : Ipt) (table chain : Bytes) : Option Chain :=
  (ipt.tables.find? fun t => t.name = table).bind fun t =>
    (t.chains.find? fun c => c.name = chain).map ChainReg.chain

/-- `dispatch_rule_op`: staging in a chain that is not registered is an error. -/
def dispatchRuleOp (ipt : Ipt) (table chain : Bytes) (op : Chain → Chain) : Except Err Ipt :=
  match findChain ipt table chain with
  | none => .error .state
  | some c => .ok (registerChain ipt table chain (op c))

def iptAppend (ipt : Ipt) (table chain : Bytes) (r : Rule) : Except Err Ipt :=
  dispatchRuleOp ipt table chain fun c => c.append r

def iptInsert (ipt : Ipt) (table chain : Bytes) (ruleNum : Int) (r : Rule) : Except Err Ipt :=
  dispatchRuleOp ipt table chain fun c => c.insert ruleNum r

def iptDelete (ipt : Ipt) (table chain : Bytes) (r : Rule) : Except Err Ipt :=
  dispatchRuleOp ipt table chain fun c => c.remove r

/-! ## The current rules -/

def splitFields (line : Bytes) : List Bytes := Words.fields isBlank line

/-- The state of the listing parser: the tables so far, and the table being read. -/
structure ListingState where
  tables : Tables
  cur : Option Bytes
  deriving DecidableEq, Repr

/-- The loop body of `mt_ipt_get_current_rules`. -/
def listingLine (st : ListingState) (line : Bytes) : Except Err ListingState :=
  match line with
  | [] => .ok st
  | 42 :: name => .ok ⟨openTable st.tables name, some name⟩
  | 58 :: body =>
    let name := body.takeWhile (· ≠ 32)
    if name = [] then .error .proto
    else match st.cur with
      | none => .error .proto
      | some t => .ok { st with tables := setChain st.tables t name id }
  | 45 :: _ =>
    match st.cur with
    | none => .error .proto
    | some t =>
      match splitFields line with
      | op :: chain :: parts =>
        if op.length < 2 then .error .proto
        else if op[1]? = some 65 then
          .ok { st with tables := setChain st.tables t chain (· ++ [parts]) }
        else .error .proto
      | _ => .error .proto
  | 35 :: _ => .ok st
  | 67 :: _ => .ok { st with cur := none }
  | _ => .error .proto

/-- `mt_ipt_get_current_rules` on the text of a listing. -/
def getCurrentRules (data : Bytes) : Except Err Tables :=
  ((data.splitOn 10).foldlM listingLine ⟨[], none⟩).map ListingState.tables

/-! ## The transcript -/

def ruleSuffix (r : Rule) : Bytes := if r = [] then [] else 32 :: ruleString r

/-- `write_command`. -/
def writeCommand (cmd : Command) : Bytes :=
  match cmd.option with
  | .append => str "-A " ++ cmd.chain ++ ruleSuffix cmd.rule ++ [10]
  | .delete => str "-D " ++ cmd.chain ++ ruleSuffix cmd.rule ++ [10]
  | .insert =>
    str "-I " ++ cmd.chain ++ 32 :: Libc.formatInt cmd.ruleNum ++ ruleSuffix cmd.rule ++ [10]
  | .flush => str "-F " ++ cmd.chain ++ [10]
  | .deleteChain => str "-X " ++ cmd.chain ++ [10]

structure Compiled where
  name : Bytes
  cmds : List Command
  priority : Int
  deriving DecidableEq, Repr

def compileTable (cur : Tables) (t : TableReg) : List Compiled :=
  t.chains.filterMap fun c =>
    let (cmds, priority) := c.chain.compile c.name (chainOf cur t.name c.name)
    if cmds = [] then none else some ⟨c.name, cmds, priority⟩

/-- `prio_bucket_t`. -/
abbrev Bucket := Int × List Command

/-- `bucket_find_or_create` and `bucket_append_range`. -/
def bucketAppend (bs : List Bucket) (c : Compiled) : List Bucket :=
  upsert Prod.fst c.priority (c.priority, c.cmds) (fun b => (b.1, b.2 ++ c.cmds)) bs

def tableCommands (cs : List Compiled) : List Command :=
  ((cs.foldl bucketAppend []).insertionSort fun a b => a.1 ≤ b.1).flatMap Prod.snd

def tableTranscript (cur : Tables) (t : TableReg) : Bytes :=
  let cs := compileTable cur t
  if cs = [] then []
  else
    42 :: t.name ++ [10] ++ cs.flatMap (fun c => 58 :: c.name ++ str " - [0:0]\n") ++
      (tableCommands cs).flatMap writeCommand ++ str "COMMIT\n"

/-- The text given to `iptables-restore`. -/
def transcript (ipt : Ipt) (cur : Tables) : Bytes := ipt.tables.flatMap (tableTranscript cur)

/-- `mt_ipt_executable_t` over a kernel state. -/
structure Executable (σ : Type) where
  save : σ → Except Err Bytes
  restore : σ → Bytes → Except Err σ

/-- `mt_ipt_commit`: the new kernel state and the text that was given to the executable. `raised`
are the answers of the two looks at the cancel flag. -/
def commit {σ : Type} (exe : Executable σ) (raised : Bool × Bool) (ipt : Ipt) (s : σ) :
    Except Err (σ × Bytes) := do
  if raised.1 then throw .canceled
  let data ← exe.save s
  let cur ← getCurrentRules data
  let buf := transcript ipt cur
  if buf = [] then return (s, [])
  if raised.2 then throw .canceled
  let s' ← exe.restore s buf
  return (s', buf)

end MagiTrickle.Iptables
