import MagiTrickle.Iptables.Engine

/-!
# The fake executable (`tests/unit/fake_iptables.c`)

`fakeSave` prints the tables and their chains sorted by name; `fakeRestore`
applies the lines of a transcript one by one and stops at the first error.
-/

namespace MagiTrickle.Iptables

open MagiTrickle.Lib

/-- `strcmp(a, b) <= 0`. -/
def strLe : Bytes → Bytes → Bool
  | [], _ => true
  | _ :: _, [] => false
  | a :: as, b :: bs => a < b || (a == b && strLe as bs)

def writeRuleParts (r : Rule) : Bytes := r.flatMap fun p => 32 :: p

def saveChains (cs : List ChainRules) : Bytes :=
  let chains := cs.insertionSort fun a b => strLe a.name b.name
  chains.flatMap (fun c => 58 :: c.name ++ str " - [0:0]\n") ++
    chains.flatMap fun c =>
      c.rules.flatMap fun r => str "-A " ++ c.name ++ writeRuleParts r ++ [10]

/-- `fake_save`. -/
def fakeSave (ts : Tables) : Bytes :=
  (ts.insertionSort fun a b => strLe a.name b.name).flatMap fun t =>
    42 :: t.name ++ [10] ++ saveChains t.chains ++ str "COMMIT\n"

/-- The `-` lines of `fake_restore`, on the words of the line. -/
def restoreCommand (ts : Tables) (t : Bytes) (op : Bytes) (chain : Bytes) (parts : List Bytes) :
    Except Err Tables :=
  match (op[1]? : Option UInt8) with
  | some 65 => .ok (setChain ts t chain (· ++ [parts]))
  | some 73 =>
    match parts with
    | [] => .error .proto
    | num :: parts =>
      match Libc.strtol (num.take 31) with
      | some (pos, []) =>
        if pos < 1 then .error .proto
        else .ok (setChain ts t chain fun l => l.insertIdx (min (pos.toNat - 1) l.length) parts)
      | _ => .error .proto
  | some 68 =>
    match chainOf ts t chain with
    | none => .error .noent
    | some l => if parts ∈ l then .ok (setChain ts t chain (·.erase parts)) else .error .noent
  | some 70 => .ok (setChain ts t chain fun _ => [])
  | some 88 =>
    match chainOf ts t chain with
    | none => .ok ts
    | some l => if l ≠ [] then .error .state else .ok (dropChain ts t chain)
  | _ => .error .proto

/-- The loop body of `fake_restore`. -/
def restoreLine (st : ListingState) (line : Bytes) : Except Err ListingState :=
  match line with
  | [] => .ok st
  | 42 :: name => .ok ⟨openTable st.tables name, some name⟩
  | 58 :: body =>
    match splitFields body with
    | [] => .error .proto
    | name :: _ =>
      match st.cur with
      | none => .error .proto
      | some t => .ok { st with tables := setChain st.tables t name id }
  | 45 :: _ =>
    match st.cur with
    | none => .error .proto
    | some t =>
      match splitFields line with
      | op :: chain :: parts =>
        if op.length < 2 then .error .proto
        else (restoreCommand st.tables t op chain parts).map fun ts => { st with tables := ts }
      | _ => .error .proto
  | 35 :: _ => .ok st
  | 67 :: _ => .ok { st with cur := none }
  | _ => .error .proto

/-- `fake_restore`. -/
def fakeRestore (ts : Tables) (data : Bytes) : Except Err Tables :=
  ((data.splitOn 10).foldlM restoreLine ⟨ts, none⟩).map ListingState.tables

/-- `mt_fake_ipt_as_executable`. -/
def fake : Executable Tables where
  save ts := .ok (fakeSave ts)
  restore := fakeRestore

end MagiTrickle.Iptables
