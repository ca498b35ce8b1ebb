import MagiTrickle.Core.Basic
import Mathlib.Data.List.AList

/-!
# ipsets (`netfilter/ipset.c`, `netfilter/ipset_nl_real.c`)

A `hash:net` set of the kernel maps keys, an address with a non-zero prefix
length, to timeouts in seconds, where zero means permanent. A message with
`cidr` 0 carries no CIDR attribute and names the full-length key; a listing
reports every key with its prefix length. An `Ipset` is the pair of sets a
ruleset owns, one for each address family.
-/

namespace MagiTrickle.Netfilter

inductive Family where
  | v4 | v6
  deriving DecidableEq, Repr

def Family.iplen : Family → Nat
  | .v4 => 4
  | .v6 => 16

def Family.max : Family → Nat
  | .v4 => 32
  | .v6 => 128

theorem Family.max_pos (fam : Family) : 0 < fam.max := by cases fam <;> decide

/-- `mt_ipv4_subnet_t` and `mt_ipv6_subnet_t`. -/
structure Subnet where
  addr : Bytes
  cidr : Nat
  deriving DecidableEq, Repr

structure NetKey (fam : Family) where
  addr : Bytes
  plen : Nat
  pos : 0 < plen
  le : plen ≤ fam.max
  deriving DecidableEq, Repr

def NetKey.host (fam : Family) (a : Bytes) : NetKey fam := ⟨a, fam.max, fam.max_pos, le_rfl⟩

def NetKey.subnet {fam : Family} (k : NetKey fam) : Subnet := ⟨k.addr, k.plen⟩

/-- The key an add or del message names; the kernel refuses an over-long prefix. -/
def netKey (fam : Family) (s : Subnet) : Option (NetKey fam) :=
  if h0 : s.cidr = 0 then some (.host fam s.addr)
  else if hle : s.cidr ≤ fam.max then some ⟨s.addr, s.cidr, Nat.pos_of_ne_zero h0, hle⟩
  else none

abbrev KernelSet (fam : Family) := AList fun _ : NetKey fam => Nat

/-- `real_add` with `replace`, the timeout always sent. -/
def realAdd {fam : Family} (set : KernelSet fam) (s : Subnet) (timeout : Nat) : KernelSet fam :=
  match netKey fam s with
  | some k => set.insert k timeout
  | none => set

/-- `real_del`, a missing entry being no error. -/
def realDel {fam : Family} (set : KernelSet fam) (s : Subnet) : KernelSet fam :=
  match netKey fam s with
  | some k => set.erase k
  | none => set

/-- `mt_ipset_entry4_t` and `mt_ipset_entry6_t`. -/
structure IpsetEntry where
  subnet : Subnet
  hasTimeout : Bool
  timeout : Nat
  deriving DecidableEq, Repr

/-- The listing row of an entry: a reported timeout of zero means none. -/
def parseOneEntry {fam : Family} (e : Sigma fun _ : NetKey fam => Nat) : IpsetEntry :=
  ⟨e.1.subnet, e.2 ≠ 0, e.2⟩

/-- `real_list4` and `real_list6`. -/
def realList {fam : Family} (set : KernelSet fam) : List IpsetEntry :=
  set.entries.map parseOneEntry

/-- `mt_ipset_t` with the kernel sets under its two names. -/
structure Ipset where
  enabled : Bool
  set4 : KernelSet .v4
  set6 : KernelSet .v6

namespace Ipset

def get (r : Ipset) : (fam : Family) → KernelSet fam
  | .v4 => r.set4
  | .v6 => r.set6

def put (r : Ipset) : (fam : Family) → KernelSet fam → Ipset
  | .v4, s => { r with set4 := s }
  | .v6, s => { r with set6 := s }

@[simp] theorem enabled_put (r : Ipset) (fam : Family) (s : KernelSet fam) :
    (r.put fam s).enabled = r.enabled := by
  cases fam <;> rfl

@[simp] theorem get_put_self (r : Ipset) (fam : Family) (s : KernelSet fam) :
    (r.put fam s).get fam = s := by
  cases fam <;> rfl

@[simp] theorem put_get (r : Ipset) (fam : Family) : r.put fam (r.get fam) = r := by
  cases fam <;> rfl

@[simp] theorem put_put (r : Ipset) (fam : Family) (s s' : KernelSet fam) :
    (r.put fam s).put fam s' = r.put fam s' := by
  cases fam <;> rfl

theorem get_put_ne (r : Ipset) {fam fam' : Family} (h : fam' ≠ fam) (s : KernelSet fam) :
    (r.put fam s).get fam' = r.get fam' := by
  cases fam <;> cases fam' <;> first | rfl | exact absurd rfl h

/-- `mt_ipset_add4` and `mt_ipset_add6`. -/
def add (r : Ipset) (fam : Family) (s : Subnet) (timeout : Option Nat) : Ipset :=
  if r.enabled then r.put fam (realAdd (r.get fam) s (timeout.getD 0)) else r

/-- `mt_ipset_del4` and `mt_ipset_del6`. -/
def del (r : Ipset) (fam : Family) (s : Subnet) : Ipset :=
  if r.enabled then r.put fam (realDel (r.get fam) s) else r

/-- `mt_ipset_list4` and `mt_ipset_list6`. -/
def list (r : Ipset) (fam : Family) : List IpsetEntry :=
  if r.enabled then realList (r.get fam) else []

end Ipset

end MagiTrickle.Netfilter
