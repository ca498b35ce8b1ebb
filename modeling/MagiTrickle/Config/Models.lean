import MagiTrickle.Core.Basic

/-!
# Data models (`config/models.c`)

Rules, groups, subscriptions and the configuration that holds them. The pointer
arrays of the source keep a count and a block whose size is nowhere recorded;
`CArray` carries both, so that an append can be checked against its block.
-/

namespace MagiTrickle.Config

/-- A pointer array: its elements, and the number of elements its block has room for (`none` for
the null pointer). -/
structure CArray (α : Type) where
  items : List α
  alloc : Option Nat
  deriving DecidableEq, Repr

namespace CArray

variable {α : Type}

def empty : CArray α := ⟨[], none⟩

/-- A block from `calloc(n, …)` that holds exactly `n` elements; no block for none. -/
def exact (l : List α) : CArray α := ⟨l, if l = [] then none else some l.length⟩

end CArray

/-- `mt_rule_t`. -/
structure Rule where
  id : Id
  name : Bytes
  type : Bytes
  rule : Bytes
  enable : Bool
  deriving DecidableEq, Repr

/-- `mt_group_t`. -/
structure Group where
  id : Id
  name : Bytes
  color : Bytes
  iface : Bytes
  enable : Bool
  rules : CArray Rule
  deriving DecidableEq, Repr

/-- `mt_sub_rule_t`. -/
structure SubRule where
  id : Id
  rule : Bytes
  type : Bytes
  enable : Bool
  deriving DecidableEq, Repr

/-- `mt_subscription_t`. -/
structure Subscription where
  id : Id
  name : Bytes
  iface : Bytes
  enable : Bool
  url : Bytes
  interval : Nat
  lastUpdate : Nat
  lastCheck : Nat
  rules : CArray SubRule
  deriving DecidableEq, Repr

end MagiTrickle.Config
