import Mathlib.Data.Finset.Basic
import Mathlib.Logic.Function.Basic

/-!
# The change tracker of the web UI (`utils/change-tracker.svelte.ts`)

The tracked data is a list of groups, each with a list of rules. Objects and
arrays have identities: an edit through the proxy changes the object it reaches,
and an array may hold any object, also one that was in the data before. The
heap has all objects of the page, so that an edit inserts an object by its
address alone.

The tracker keeps copies of the original objects under their ids, the ids that
each original array had, and two sets: the fields that differ from the copies and
the arrays that differ from their ids.
-/

namespace MagiTrickle.ChangeTracker

abbrev Addr := Nat

abbrev Arr := Nat

inductive Value where
  | undefined
  | null
  | bool (b : Bool)
  | num (n : Int)
  | str (s : String)
  deriving DecidableEq, Repr

/-- `!!v` -/
def Value.truthy : Value → Bool
  | undefined | null => false
  | bool b => b
  | num n => n ≠ 0
  | str s => s ≠ ""

/-- The primitive fields of an object; a field it does not have is `undefined`. -/
abbrev Props := String → Value

/-- `rules` is the array under the key of that name, if the object has one; `none` in an array is
an empty slot. -/
structure Heap where
  props : Addr → Props
  rules : Addr → Option Arr
  arrays : Arr → List (Option Addr)

namespace Heap

def id (h : Heap) (a : Addr) : Value := h.props a "id"

end Heap

/-- What `item?.id ?? item` gives: an id, an object that has none, or the copy of such an object,
which is identical to nothing else. -/
inductive Key where
  | value (v : Value)
  | object (a : Addr)
  | copy
  deriving DecidableEq, Repr

def Heap.key (h : Heap) : Option Addr → Key
  | none => .value .undefined
  | some a =>
    match h.id a with
    | .undefined | .null => .object a
    | v => .value v

def Heap.copyKey (h : Heap) (e : Option Addr) : Key :=
  match h.key e with
  | .object _ => .copy
  | k => k

/-- `===` -/
def Key.same : Key → Key → Bool
  | .copy, _ | _, .copy => false
  | k, k' => k = k'

/-! ## The index -/

/-- The maps and sets of the tracker. `dirtyObjectProps` has the pairs of its map of sets: an empty
set is deleted from the map. -/
structure Index where
  originalObjects : Value → Option Props
  originalArrays : Arr → Option (List Key)
  dirtyObjectProps : Finset (Value × String)
  dirtyArrays : Finset Arr

namespace Index

variable (h : Heap) (ix : Index)

/-- `indexAndLink` on an object, without what is nested in it. -/
def indexObject (a : Addr) : Index :=
  if (h.id a).truthy then
    { ix with originalObjects := Function.update ix.originalObjects (h.id a) (some (h.props a)) }
  else ix

def linkIds (arr : Arr) : Index :=
  { ix with
    originalArrays :=
      Function.update ix.originalArrays arr (some ((h.arrays arr).map h.copyKey)) }

/-- `indexAndLink` on the array of a group. -/
def linkRules (arr : Arr) : Index :=
  (h.arrays arr).foldl (fun ix e => e.elim ix (indexObject h ix)) (linkIds h ix arr)

/-- `indexAndLink` on a group. -/
def linkGroup (a : Addr) : Index :=
  match h.rules a with
  | none => indexObject h ix a
  | some arr => linkRules h (indexObject h ix a) arr

/-- `init` -/
def init (root : Arr) : Index :=
  (h.arrays root).foldl (fun ix e => e.elim ix (linkGroup h ix))
    (linkIds h ⟨fun _ => none, fun _ => none, ∅, ∅⟩ root)

def checkObjectField (a : Addr) (prop : String) : Index :=
  if ¬ (h.id a).truthy then ix
  else match ix.originalObjects (h.id a) with
    | none => ix
    | some original =>
      if h.props a prop ≠ original prop then
        { ix with dirtyObjectProps := insert (h.id a, prop) ix.dirtyObjectProps }
      else { ix with dirtyObjectProps := ix.dirtyObjectProps.erase (h.id a, prop) }

/-- The comparison of `checkArrayStructure`. -/
def sameKeys (originals current : List Key) : Bool :=
  originals.length = current.length ∧ (originals.zip current).all fun p => p.1.same p.2

def checkArrayStructure (arr : Arr) : Index :=
  match ix.originalArrays arr with
  | none => ix
  | some originals =>
    if sameKeys originals ((h.arrays arr).map h.key) then
      { ix with dirtyArrays := ix.dirtyArrays.erase arr }
    else { ix with dirtyArrays := insert arr ix.dirtyArrays }

end Index

/-! ## Edits -/

inductive ArrayOp where
  | push (xs : List Addr)
  | pop
  | shift
  | unshift (xs : List Addr)
  | splice (start : Int) (deleteCount : Option Int) (xs : List Addr)
  /-- The comparison function decides on the order. -/
  | sort (sorted : List (Option Addr))
  | reverse
  /-- Assignment to an index. -/
  | assign (i : Nat) (x : Addr)

namespace ArrayOp

/-- Where `splice` starts, and how much it removes. -/
def spliceRange (len : Nat) (start : Int) (deleteCount : Option Int) : Nat × Nat :=
  let from' := if start < 0 then (len + start).toNat else min start.toNat len
  match deleteCount with
  | none => (from', len - from')
  | some n => (from', min n.toNat (len - from'))

def run (l : List (Option Addr)) : ArrayOp → List (Option Addr)
  | push xs => l ++ xs.map some
  | pop => l.dropLast
  | shift => l.tail
  | unshift xs => xs.map some ++ l
  | splice start deleteCount xs =>
    let (i, n) := spliceRange l.length start deleteCount
    l.take i ++ xs.map some ++ l.drop (i + n)
  | sort sorted => if sorted.isPerm l then sorted else l
  | reverse => l.reverse
  | assign i x =>
    if i < l.length then l.set i (some x)
    else l ++ List.replicate (i - l.length) none ++ [some x]

def inserted : ArrayOp → List Addr
  | push xs | unshift xs | splice _ _ xs => xs
  | assign _ x => [x]
  | pop | shift | sort _ | reverse => []

end ArrayOp

abbrev Field := { prop : String // prop ≠ "rules" }

inductive Edit where
  /-- `data[i].prop = v` -/
  | setGroup (i : Nat) (prop : Field) (v : Value)
  /-- `data[i].rules[j].prop = v` -/
  | setRule (i j : Nat) (prop : Field) (v : Value)
  /-- An operation on `data`. -/
  | onGroups (op : ArrayOp)
  /-- An operation on `data[i].rules`. -/
  | onRules (i : Nat) (op : ArrayOp)
  /-- `reset` to a list of groups -/
  | reset (groups : List Addr)

structure BaseRule where
  addr : Addr
  props : Props

structure BaseGroup where
  addr : Addr
  props : Props
  arr : Arr
  rules : List BaseRule

/-- The tracker with the page's objects. `base` is the list last given to it, as it was then. -/
structure State where
  heap : Heap
  root : Arr
  index : Index
  base : List BaseGroup

def Heap.readRules (h : Heap) (arr : Arr) : List BaseRule :=
  (h.arrays arr).filterMap fun e => e.map fun r => ⟨r, h.props r⟩

def Heap.readGroup (h : Heap) (a : Addr) : Option BaseGroup :=
  (h.rules a).map fun arr => ⟨a, h.props a, arr, h.readRules arr⟩

def Heap.read (h : Heap) (root : Arr) : List BaseGroup :=
  (h.arrays root).filterMap fun e => e.bind h.readGroup

namespace State

/-- `new ChangeTracker(root)` -/
def new (h : Heap) (root : Arr) : State := ⟨h, root, .init h root, h.read root⟩

def element (s : State) (arr : Arr) (i : Nat) : Option Addr := ((s.heap.arrays arr)[i]?).join

/-- The `set` trap on an object. -/
def setField (s : State) (a : Addr) (prop : String) (v : Value) : State :=
  let h := { s.heap with
    props := Function.update s.heap.props a (Function.update (s.heap.props a) prop v) }
  { s with heap := h, index := s.index.checkObjectField h a prop }

def onArray (s : State) (arr : Arr) (op : ArrayOp) : State :=
  let h := { s.heap with
    arrays := Function.update s.heap.arrays arr (op.run (s.heap.arrays arr)) }
  { s with heap := h, index := s.index.checkArrayStructure h arr }

/-- `reset` -/
def reset (s : State) (groups : List Addr) : State :=
  let h := { s.heap with arrays := Function.update s.heap.arrays s.root (groups.map some) }
  { s with heap := h, index := .init h s.root, base := h.read s.root }

/-- The array under `data[i].rules`. -/
def rulesOf (s : State) (i : Nat) : Option Arr := (s.element s.root i).bind s.heap.rules

/-- An edit of something that is not there throws and changes nothing. -/
def step (s : State) : Edit → State
  | .setGroup i prop v =>
    match s.element s.root i with
    | none => s
    | some a => s.setField a prop v
  | .setRule i j prop v =>
    match (s.rulesOf i).bind fun arr => s.element arr j with
    | none => s
    | some a => s.setField a prop v
  | .onGroups op => s.onArray s.root op
  | .onRules i op =>
    match s.rulesOf i with
    | none => s
    | some arr => s.onArray arr op
  | .reset groups => s.reset groups

def run (s : State) (edits : List Edit) : State := edits.foldl step s

/-- `isDirty` -/
def isDirty (s : State) : Bool :=
  s.index.dirtyObjectProps ≠ ∅ ∨ s.index.dirtyArrays ≠ ∅

end State

end MagiTrickle.ChangeTracker
