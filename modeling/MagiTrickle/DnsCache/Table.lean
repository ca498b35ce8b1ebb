import MagiTrickle.DnsCache.Cache
import MagiTrickle.Lib.Chained

/-!
# The tables of the records cache (`dns_cache/cache.c`)

`struct mt_cache`: a chained hash table of the domain nodes, a second one that
lists for every alias the names that point to it, and a counter. The readers of
`DnsCache.Cache` see the domain nodes bucket after bucket (`Table.cache`).
-/

namespace MagiTrickle.DnsCache

open Lib

/-- `rev_node_t`; `target` is its `alias`. -/
structure RevNode where
  target : Bytes
  domains : List Bytes
  deriving DecidableEq, Repr

/-- `DOM_BUCKETS` -/
abbrev domBuckets : Nat := 4096

/-- `REV_BUCKETS` -/
abbrev revBuckets : Nat := 1024

def domHash (s : Bytes) : Fin domBuckets := Fin.ofNat _ (fnv1a s).toNat

def revHash (s : Bytes) : Fin revBuckets := Fin.ofNat _ (fnv1a s).toNat

/-- `struct mt_cache`. -/
structure Table where
  dom : Chained.Table domBuckets DomainNode
  rev : Chained.Table revBuckets RevNode
  nDomains : Nat
  maxDomains : Nat
  dropped : UInt64

/-- `MT_CACHE_DEFAULT_MAX_DOMAINS` -/
def defaultMaxDomains : Nat := 65536

namespace Table

/-- `mt_cache_create`. -/
def create (maxDomains : Nat) : Table where
  dom := fun _ => []
  rev := fun _ => []
  nDomains := 0
  maxDomains := if maxDomains > 0 then maxDomains else defaultMaxDomains
  dropped := 0

def cache (c : Table) : Cache := ⟨Chained.nodes c.dom⟩

/-- `dom_find`. -/
def domFind (c : Table) (domain : Bytes) : Option DomainNode :=
  Chained.find domHash DomainNode.domain c.dom domain

/-- What is written through a pointer to a node. -/
def domStore (c : Table) (n : DomainNode) : Table :=
  { c with dom := Chained.store domHash DomainNode.domain c.dom n }

def domFindOrCreate (c : Table) (domain : Bytes) : Option (Table × DomainNode) :=
  match c.domFind domain with
  | some n => some (c, n)
  | none =>
    if c.nDomains ≥ c.maxDomains then none
    else
      let n : DomainNode := ⟨domain, [], none⟩
      some ({ c with
        dom := Chained.push domHash DomainNode.domain c.dom n
        nDomains := c.nDomains + 1 }, n)

/-- Unlinks and frees a node, with its decrement of `n_domains`. -/
def domRemove (c : Table) (domain : Bytes) : Table :=
  { c with
    dom := Chained.erase domHash DomainNode.domain c.dom domain
    nDomains := c.nDomains - 1 }

/-- `rev_find`. -/
def revFind (c : Table) (target : Bytes) : Option RevNode :=
  Chained.find revHash RevNode.target c.rev target

def revAdd (c : Table) (target domain : Bytes) : Table :=
  match c.revFind target with
  | none => { c with rev := Chained.push revHash RevNode.target c.rev ⟨target, [domain]⟩ }
  | some r =>
    { c with
      rev := Chained.store revHash RevNode.target c.rev { r with domains := r.domains ++ [domain] } }

/-- The last name takes the place of the first occurrence of `domain`. -/
def swapRemove (domain : Bytes) (ds : List Bytes) : List Bytes :=
  match ds.idxOf? domain with
  | none => ds
  | some i => (ds.set i (ds.getLast?.getD [])).dropLast

def revRemove (c : Table) (target domain : Bytes) : Table :=
  match c.revFind target with
  | none => c
  | some r =>
    let ds := swapRemove domain r.domains
    if ds = [] then { c with rev := Chained.erase revHash RevNode.target c.rev target }
    else { c with rev := Chained.store revHash RevNode.target c.rev { r with domains := ds } }

/-- The alias of a node is taken out of the reverse table. -/
def unlistAlias (c : Table) (n : DomainNode) : Table :=
  match n.aliasTo with
  | none => c
  | some (old, _) => c.revRemove old n.domain

/-- The entry of an address is refreshed, or appended. -/
def putAddr (addrs : List CacheAddr) (a : CacheAddr) : List CacheAddr :=
  match addrs with
  | [] => [a]
  | b :: l => if b.addr = a.addr then { b with deadline := a.deadline } :: l else b :: putAddr l a

/-- `mt_cache_add_address`. -/
def addAddress (c : Table) (domain addr : Bytes) (ttl : UInt32) (now : Int) : Table :=
  match c.domFindOrCreate domain with
  | none => { c with dropped := c.dropped + 1 }
  | some (c, n) => c.domStore { n with addrs := putAddr n.addrs ⟨addr, now + ttl.toNat⟩ }

/-- `mt_cache_add_alias`. -/
def addAlias (c : Table) (domain target : Bytes) (ttl : UInt32) (now : Int) : Table :=
  if domain = target then c
  else
    match c.domFindOrCreate domain with
    | none => { c with dropped := c.dropped + 1 }
    | some (c, n) =>
      ((c.unlistAlias n).domStore { n with aliasTo := some (target, now + ttl.toNat) }).revAdd
        target domain

/-- The alias of a node in a round of `mt_cache_cleanup`. -/
def expireAlias (c : Table) (now : Int) (n : DomainNode) : Table × Option (Bytes × Int) :=
  match n.aliasTo with
  | none => (c, none)
  | some (a, deadline) =>
    if deadline ≤ now then (c.unlistAlias n, none) else (c, some (a, deadline))

/-- One round of the loop of `mt_cache_cleanup`, at node `n`. -/
def cleanupNode (c : Table) (now : Int) (n : DomainNode) : Table :=
  let addrs := n.addrs.filter fun a => a.deadline > now
  let (c, aliasTo) := c.expireAlias now n
  if addrs = [] ∧ aliasTo = none then c.domRemove n.domain
  else c.domStore { n with addrs, aliasTo }

/-- `mt_cache_cleanup`. A round changes no domain node but its own, so the nodes met are those of
the start. -/
def cleanup (c : Table) (now : Int) : Table := (Chained.nodes c.dom).foldl (cleanupNode · now) c

inductive Op where
  | addAddress (domain addr : Bytes) (ttl : UInt32) (now : Int)
  | addAlias (domain target : Bytes) (ttl : UInt32) (now : Int)
  | cleanup (now : Int)
  deriving DecidableEq, Repr

def step (c : Table) : Op → Table
  | .addAddress domain addr ttl now => c.addAddress domain addr ttl now
  | .addAlias domain target ttl now => c.addAlias domain target ttl now
  | .cleanup now => c.cleanup now

def run (c : Table) (ops : List Op) : Table := ops.foldl step c

end Table

end MagiTrickle.DnsCache
