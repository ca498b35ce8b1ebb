import MagiTrickle.Config.Models
import MagiTrickle.Core.Libc
import MagiTrickle.DnsCache.Cache
import MagiTrickle.Lib.Upsert
import MagiTrickle.Netfilter.Ipset
import MagiTrickle.Rules.Match

/-!
# Rulesets (`netfilter/ruleset.c`)

`rulesetSync` computes the wanted entries of a group from its subnet rules and
from the cached addresses of the names its other rules match, and brings the
kernel sets in line with them. Memory is taken to suffice.
-/

namespace MagiTrickle.Netfilter

open MagiTrickle.Lib MagiTrickle.Rules MagiTrickle.DnsCache

/-! ## Lists of wanted entries -/

/-- `new4_entry_t` and `new6_entry_t`. -/
structure NewEntry where
  subnet : Subnet
  hasTtl : Bool
  ttl : Nat
  deriving DecidableEq, Repr

/-- What an upsert makes of an entry that is already there. -/
def newUpdate (hasTtl : Bool) (ttl : Nat) (improveOnly : Bool) (e : NewEntry) : NewEntry :=
  if improveOnly ∧ ¬(e.hasTtl ∧ hasTtl ∧ ttl > e.ttl) then e
  else { e with hasTtl := hasTtl, ttl := ttl }

/-- `new4_upsert` and `new6_upsert`. -/
def newUpsert (l : List NewEntry) (key : Subnet) (hasTtl : Bool) (ttl : Nat) (improveOnly : Bool) :
    List NewEntry :=
  upsert NewEntry.subnet key ⟨key, hasTtl, ttl⟩ (newUpdate hasTtl ttl improveOnly) l

/-! ## Subnet rules -/

/-- The text before the first slash, and the prefix length after it, `max` when there is none. -/
def parsePrefix (max : Nat) (rule : Bytes) : Option (Bytes × Nat) :=
  if 256 ≤ rule.length then none
  else
    let host := rule.takeWhile (· ≠ 47)
    match rule.dropWhile (· ≠ 47) with
    | [] => some (host, max)
    | _ :: rest =>
      match Libc.strtol rest with
      | some (ones, []) => if 0 ≤ ones ∧ ones ≤ max then some (host, ones.toNat) else none
      | _ => none

def parseIpv4Rule (rule : Bytes) : Option Subnet := do
  let (host, ones) ← parsePrefix 32 rule
  let a ← Libc.inetPton4 host
  let ipval := a.foldl (fun v b => v * 256 + b.toNat) 0
  let mask := if ones = 0 then 0 else (0xFFFFFFFF <<< (32 - ones)) % 2 ^ 32
  let masked := ipval &&& mask
  pure ⟨[UInt8.ofNat (masked >>> 24), UInt8.ofNat (masked >>> 16), UInt8.ofNat (masked >>> 8),
    UInt8.ofNat masked], ones⟩

def parseIpv6Rule (rule : Bytes) : Option Subnet := do
  let (host, ones) ← parsePrefix 128 rule
  let a ← Libc.inetPton6 host
  let fullBytes := ones / 8
  let remBits := ones % 8
  pure ⟨a.mapIdx fun i b =>
    if i < fullBytes then b
    else if i = fullBytes ∧ remBits > 0 then b &&& UInt8.ofNat (0xFF <<< (8 - remBits))
    else 0, ones⟩

def Family.ruleType : Family → Bytes
  | .v4 => str "subnet"
  | .v6 => str "subnet6"

def parseRule : Family → Bytes → Option Subnet
  | .v4 => parseIpv4Rule
  | .v6 => parseIpv6Rule

def halves (fam : Family) : List Subnet :=
  [⟨List.replicate fam.iplen 0, 1⟩, ⟨0x80 :: List.replicate (fam.iplen - 1) 0, 1⟩]

/-! ## Building the lists -/

structure NewLists where
  new4 : List NewEntry
  new6 : List NewEntry
  deriving DecidableEq, Repr

namespace NewLists

def get (ls : NewLists) : Family → List NewEntry
  | .v4 => ls.new4
  | .v6 => ls.new6

def upsert (ls : NewLists) (fam : Family) (key : Subnet) (hasTtl : Bool) (ttl : Nat)
    (improveOnly : Bool) : NewLists :=
  match fam with
  | .v4 => { ls with new4 := newUpsert ls.new4 key hasTtl ttl improveOnly }
  | .v6 => { ls with new6 := newUpsert ls.new6 key hasTtl ttl improveOnly }

end NewLists

/-- The lifetime left, cut to 32 bits. -/
def ttlOf (remain : Int) : Nat := (remain % 2 ^ 32).toNat

/-- The innermost loop body of `sync_build_new_lists`: one cached address. -/
def syncAddr (now : Int) (ls : NewLists) (a : CacheAddr) : NewLists :=
  let remain := a.deadline - now
  if remain ≤ 0 then ls
  else if a.addr.length = 4 then ls.upsert .v4 ⟨a.addr, 0⟩ true (ttlOf remain) true
  else if a.addr.length = 16 then ls.upsert .v6 ⟨a.addr, 0⟩ true (ttlOf remain) true
  else ls

/-- The subnet branches of `sync_build_new_lists`. -/
def syncSubnet (fam : Family) (ls : NewLists) (rule : Bytes) : NewLists :=
  match parseRule fam rule with
  | none => ls
  | some s =>
    if s.cidr = 0 then (halves fam).foldl (fun ls h => ls.upsert fam h false 0 false) ls
    else ls.upsert fam s false 0 false

/-- The name branch of `sync_build_new_lists`. -/
def syncName (rx : Bytes → Bytes → Bool) (cache : Cache) (now : Int) (ls : NewLists)
    (rule : Config.Rule) : NewLists :=
  let rm := ruleMatcherNew rule.type rule.rule
  (cacheListKnownDomains cache).foldl (fun ls name =>
    if ruleMatcherMatch rx rm name then (cacheGetAddresses cache name now).foldl (syncAddr now) ls
    else ls) ls

/-- The loop body of `sync_build_new_lists`. -/
def syncRule (rx : Bytes → Bytes → Bool) (cache : Cache) (now : Int) (ls : NewLists)
    (rule : Config.Rule) : NewLists :=
  if ¬ rule.enable then ls
  else if rule.type = str "subnet" then syncSubnet .v4 ls rule.rule
  else if rule.type = str "subnet6" then syncSubnet .v6 ls rule.rule
  else syncName rx cache now ls rule

def syncBuildNewLists (rx : Bytes → Bytes → Bool) (group : Config.Group) (cache : Cache)
    (now : Int) : NewLists :=
  group.rules.items.foldl (syncRule rx cache now) ⟨[], []⟩

/-! ## Applying the lists -/

/-- The first loop of `sync_diff_v4` and `sync_diff_v6`: one wanted entry against the listing. -/
def syncDiffAdd (fam : Family) (old : List IpsetEntry) (st : Ipset × List Bool) (e : NewEntry) :
    Ipset × List Bool :=
  let (r, kept) := st
  let ttlp := if e.hasTtl then some e.ttl else none
  match old.findIdx? fun o => o.subnet = e.subnet with
  | none => (r.add fam e.subnet ttlp, kept)
  | some j =>
    let kept := kept.set j true
    let skip := old[j]?.any fun o => !o.hasTimeout || (e.hasTtl && decide (e.ttl < o.timeout))
    if skip then (r, kept) else (r.add fam e.subnet ttlp, kept)

/-- `sync_diff_v4` and `sync_diff_v6`. -/
def syncDiff (fam : Family) (r : Ipset) (news : List NewEntry) : Ipset :=
  let old := r.list fam
  let (r, kept) := news.foldl (syncDiffAdd fam old) (r, old.map fun _ => false)
  (old.zip kept).foldl (fun r p => if p.2 then r else r.del fam p.1.subnet) r

def syncDiffV4 : Ipset → List NewEntry → Ipset := syncDiff .v4

def syncDiffV6 : Ipset → List NewEntry → Ipset := syncDiff .v6

/-- `mt_ruleset_t` as far as the sync reads it. -/
structure Ruleset where
  group : Config.Group
  enabled : Bool
  ipset : Ipset

/-- `mt_ruleset_sync`. -/
def rulesetSync (rx : Bytes → Bytes → Bool) (rs : Ruleset) (cache : Cache) (now : Int) : Ruleset :=
  if ¬ rs.enabled then rs
  else if ¬ rs.group.enable then rs
  else
    let ls := syncBuildNewLists rx rs.group cache now
    { rs with ipset := syncDiffV6 (syncDiffV4 rs.ipset ls.new4) ls.new6 }

end MagiTrickle.Netfilter
