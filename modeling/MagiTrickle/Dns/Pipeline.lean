import MagiTrickle.Core.Libc
import MagiTrickle.Dns.Wire
import MagiTrickle.DnsCache.Aliases
import MagiTrickle.Rules.Snapshot

/-!
# The DNS pipeline (`dns/pipeline.c`)

Every answer record of a response goes into the cache. A record with an address
is then given to the groups that match its name or a name that leads to it, and
a CNAME gives the addresses at the end of its chain to the groups that match a
name that leads to the record. The sink is the list of the actions.
-/

namespace MagiTrickle.Pipeline

open MagiTrickle.DnsCache MagiTrickle.Rules MagiTrickle.Dns.Wire

/-! ## Presentation names -/

def specials : Bytes := str ".(); @\"\\"

def escape (b : UInt8) : Bytes :=
  if b ∈ specials then [92, b]
  else if b < 32 ∨ b ≥ 127 then
    [92, 48 + b / 100, 48 + b / 10 % 10, 48 + b % 10]
  else [b]

/-- The loop of `mt_dns_name_to_string` on the rest of a name, with what is in the buffer. -/
def nameToStringLoop (bufLen : Nat) : Nat → Bytes → Bytes → Except Err Bytes
  | 0, _, out => .ok out
  | _ + 1, [], out => .ok out
  | fuel + 1, len8 :: rest, out =>
    if len8 = 0 then .ok out
    else if len8.toNat > rest.length then .error .proto
    else
      let out := out ++ (rest.take len8.toNat).flatMap escape ++ [dot]
      if out.length ≥ bufLen then .error .limit
      else nameToStringLoop bufLen fuel (rest.drop len8.toNat) out

/-- `mt_dns_name_to_string`. Each label takes at least one byte of the name. -/
def nameToString (name : Bytes) (bufLen : Nat) : Except Err Bytes := do
  let out ← nameToStringLoop bufLen name.length name []
  -- only a name without labels leaves nothing in the buffer
  if out = [] then (if 1 ≥ bufLen then throw .limit else return [dot]) else return out

def trimFqdn (name : Bytes) : Bytes := if name.getLast? = some dot then name.dropLast else name

def nameBuf : Nat := 1100

/-- The name of a record as the cache knows it, `none` where the record is skipped. -/
def presentation (name : Bytes) : Option Bytes :=
  match nameToString name nameBuf with
  | .error _ => none
  | .ok s => some (trimFqdn s)

/-! ## Records -/

/-- `mt_match_action_t`, the texts for the log apart. -/
structure Action where
  groupId : Id
  addr : Bytes
  ttl : UInt32
  deriving DecidableEq, Repr

/-- `mt_dns_pipeline_t` apart from the cache. -/
structure Settings where
  additionalTtl : UInt32
  snapshot : List GroupSnapshot
  /-- Matching of regular expressions. -/
  rx : Bytes → Bytes → Bool

/-- `first_match`, as a test. -/
def anyMatch (s : Settings) (g : GroupSnapshot) (names : List Bytes) : Bool :=
  names.any fun n => matcherMatch s.rx g.matcher n

def handleAddressRecord (s : Settings) (c : Table) (rr : Rr) (addrLen : Nat) (now : Int) :
    Table × List Action :=
  if rr.rdata.length ≠ addrLen then (c, [])
  else match presentation rr.name with
    | none => (c, [])
    | some domain =>
      let ttl := rr.ttl + s.additionalTtl
      let c := c.addAddress domain rr.rdata ttl now
      let names := c.getAliases domain
      (c, (s.snapshot.filter fun g => anyMatch s g names).map fun g => ⟨g.id, rr.rdata, ttl⟩)

def handleCnameRecord (s : Settings) (c : Table) (rr : Rr) (now : Int) : Table × List Action :=
  match presentation rr.name, presentation rr.rdata with
  | some domain, some target =>
    let ttl := rr.ttl + s.additionalTtl
    let c := c.addAlias domain target ttl now
    let addrs := cacheGetAddresses c.cache domain now
    let aliases := c.getAliases domain
    (c, (s.snapshot.filter fun g => anyMatch s g aliases).flatMap fun g =>
      (addrs.filter fun a => a.deadline - now > 0).map fun a =>
        ⟨g.id, a.addr, UInt32.ofNat (a.deadline - now).toNat⟩)
  | _, _ => (c, [])

/-- The loop body of `mt_dns_pipeline_handle_message`. -/
def handleRecord (s : Settings) (c : Table) (rr : Rr) (now : Int) : Table × List Action :=
  if rr.rtype = typeA then handleAddressRecord s c rr 4 now
  else if rr.rtype = typeAaaa then handleAddressRecord s c rr 16 now
  else if rr.rtype = typeCname then handleCnameRecord s c rr now
  else (c, [])

def handleRecords (s : Settings) (now : Int) : Table → List Rr → Table × List Action
  | c, [] => (c, [])
  | c, rr :: rrs =>
    let (c, acts) := handleRecord s c rr now
    let (c, more) := handleRecords s now c rrs
    (c, acts ++ more)

/-- `mt_dns_pipeline_handle_message`. -/
def handleMessage (s : Settings) (c : Table) (msg : Msg) (now : Int) : Table × List Action :=
  if msg.flags &&& 0x000f ≠ 0 then (c, []) else handleRecords s now c msg.answers

end MagiTrickle.Pipeline
