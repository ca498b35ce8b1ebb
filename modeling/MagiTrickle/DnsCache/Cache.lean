import MagiTrickle.Core.Basic

/-!
# The DNS records cache (`dns_cache/cache.c`)

A name has addresses with deadlines and at most one alias with a deadline. The
chained hash table of the source is the list of its nodes in bucket order:
`domFind` returns the first node of a name wherever its bucket stands.
-/

namespace MagiTrickle.DnsCache

/-- `mt_cache_addr_t`; `addr_len` is the number of bytes. -/
structure CacheAddr where
  addr : Bytes
  deadline : Int
  deriving DecidableEq, Repr

/-- `domain_node_t`; `aliasTo` is the alias with its deadline. -/
structure DomainNode where
  domain : Bytes
  addrs : List CacheAddr
  aliasTo : Option (Bytes × Int)
  deriving DecidableEq, Repr

/-- The domain table of `mt_cache_t`. -/
structure Cache where
  domains : List DomainNode
  deriving DecidableEq, Repr

def domFind (c : Cache) (domain : Bytes) : Option DomainNode :=
  c.domains.find? fun n => n.domain = domain

/-- The number of names the cycle guard of `mt_cache_get_addresses` has room for. -/
def maxSeen : Nat := 64

/-- The loop of `mt_cache_get_addresses` at `current`, with the names seen so far and the room left
in the guard. -/
def getAddressesFrom (c : Cache) (now : Int) : Nat → List Bytes → Bytes → List CacheAddr
  | room, seen, current =>
    match domFind c current with
    | none => []
    | some n =>
      let valid := n.addrs.filter fun a => a.deadline > now
      if valid ≠ [] then valid
      else match n.aliasTo with
        | none => []
        | some (target, deadline) =>
          if deadline ≤ now then []
          else match room with
            | 0 => []
            | room + 1 =>
              if target ∈ seen then [] else getAddressesFrom c now room (target :: seen) target

/-- `mt_cache_get_addresses`. -/
def cacheGetAddresses (c : Cache) (domain : Bytes) (now : Int) : List CacheAddr :=
  getAddressesFrom c now (maxSeen - 1) [domain] domain

/-- `mt_cache_list_known_domains`. -/
def cacheListKnownDomains (c : Cache) : List Bytes := c.domains.map DomainNode.domain

theorem deadline_of_mem_getAddressesFrom {c : Cache} {now : Int} {a : CacheAddr} (room : Nat)
    (seen : List Bytes) (current : Bytes) (h : a ∈ getAddressesFrom c now room seen current) :
    now < a.deadline := by
  induction room generalizing seen current with
  | zero =>
    unfold getAddressesFrom at h
    split at h
    · cases h
    · dsimp only at h
      split at h
      · simpa using (List.mem_filter.mp h).2
      · split at h
        · cases h
        · split at h <;> cases h
  | succ room ih =>
    unfold getAddressesFrom at h
    split at h
    · cases h
    · dsimp only at h
      split at h
      · simpa using (List.mem_filter.mp h).2
      · split at h
        · cases h
        · split at h
          · cases h
          · split at h
            · cases h
            · exact ih _ _ h

theorem deadline_of_mem_cacheGetAddresses {c : Cache} {now : Int} {a : CacheAddr} {domain : Bytes}
    (h : a ∈ cacheGetAddresses c domain now) : now < a.deadline :=
  deadline_of_mem_getAddressesFrom _ _ _ h

end MagiTrickle.DnsCache
