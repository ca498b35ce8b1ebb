import MagiTrickle.Frontend.TrackerBase

/-!
# Changes and acknowledgements of the change tracker

`changes` reports by id what was added, deleted and mutated. An acknowledgement
moves the baseline: the tracker indexes what was saved and forgets what it had
stored before. It finds the rules of a group to forget in the copy of the group
(`nested`), which stays as it was when the group was last indexed.

`base` is the baseline that the acknowledgements are meant to give; the tracker
does not read it.
-/

namespace MagiTrickle.ChangeTracker

/-- The tracker with the rules inside its copies of groups, under the ids of the groups. -/
structure Session extends State where
  nested : Value → List Props

/-! ## The data -/

def Heap.objects (h : Heap) (root : Arr) : List Addr :=
  (h.arrays root).reduceOption.flatMap fun a =>
    a :: (h.rules a).elim [] fun arr => (h.arrays arr).reduceOption

def Heap.liveArrays (h : Heap) (root : Arr) : List Arr :=
  root :: (h.arrays root).reduceOption.filterMap h.rules

def Heap.copyRules (h : Heap) (a : Addr) : List Props :=
  (h.rules a).elim [] fun arr => (h.readRules arr).map BaseRule.props

/-! ## The reported changes -/

/-- `traverse` -/
def Heap.traverse (h : Heap) (root : Arr) : Value → Option Addr :=
  (h.objects root).foldl
    (fun m a => if (h.id a).truthy then Function.update m (h.id a) (some a) else m) fun _ => none

structure Changes where
  added : Value → Option Addr
  deleted : Value → Option Props
  mutated : Value → Option Addr

/-- `changes` -/
def State.changes (s : State) : Changes :=
  if s.isDirty then
    let current := s.heap.traverse s.root
    { added := fun v => if (s.index.originalObjects v).isSome then none else current v
      deleted := fun v => if (current v).isSome then none else s.index.originalObjects v
      mutated := fun v =>
        if (s.index.originalObjects v).isSome ∧ ∃ m ∈ s.index.dirtyObjectProps, m.1 = v
          then current v else none }
  else ⟨fun _ => none, fun _ => none, fun _ => none⟩

/-! ## Clearing and forgetting -/

namespace Index

def clearId (ix : Index) (v : Value) : Index :=
  if v.truthy then { ix with dirtyObjectProps := ix.dirtyObjectProps.filter (·.1 ≠ v) } else ix

/-- `clearDirtyStateFor` on an array of rules -/
def clearArray (h : Heap) (ix : Index) (arr : Arr) : Index :=
  (h.arrays arr).foldl (fun ix e => e.elim ix fun r => ix.clearId (h.id r))
    { ix with dirtyArrays := ix.dirtyArrays.erase arr }

/-- `clearDirtyStateFor` on an object -/
def clearObject (h : Heap) (ix : Index) (a : Addr) : Index :=
  match h.rules a with
  | none => ix.clearId (h.id a)
  | some arr => (ix.clearId (h.id a)).clearArray h arr

/-- `clearDirtyStateFor` on a copy, whose arrays are none of the data -/
def clearCopy (ix : Index) (copy : Props) (rules : List Props) : Index :=
  rules.foldl (fun ix r => ix.clearId (r "id")) (ix.clearId (copy "id"))

/-- `pruneDirtyState`: what is not in the data is no longer marked, and the arrays that are
marked are compared again. -/
def pruneDirtyState (h : Heap) (root : Arr) (ix : Index) : Index :=
  { ix with
    dirtyObjectProps := ix.dirtyObjectProps.filter fun m => ∃ a ∈ h.objects root, h.id a = m.1
    dirtyArrays := ix.dirtyArrays.filter fun arr => arr ∈ h.liveArrays root ∧
      (ix.originalArrays arr).all fun originals =>
        ¬ sameKeys originals ((h.arrays arr).map h.key) }

end Index

namespace Session

def nest (m : Value → List Props) (v : Value) (rules : List Props) : Value → List Props :=
  if v.truthy then Function.update m v rules else m

def nestRules (h : Heap) (m : Value → List Props) (arr : Arr) : Value → List Props :=
  (h.readRules arr).foldl (fun m r => nest m r.id []) m

def nestObject (h : Heap) (m : Value → List Props) (a : Addr) : Value → List Props :=
  match h.rules a with
  | none => nest m (h.id a) []
  | some arr => nestRules h (nest m (h.id a) (h.copyRules a)) arr

def nestGroups (h : Heap) (root : Arr) : Value → List Props :=
  (h.arrays root).foldl (fun m e => e.elim m (nestObject h m)) fun _ => []

/-- `new ChangeTracker(root)` -/
def new (h : Heap) (root : Arr) : Session := ⟨.new h root, nestGroups h root⟩

variable (s : Session)

/-- `indexAndLink` on an object as it is now -/
def link (a : Addr) : Session :=
  { s with
    index := s.index.linkGroup s.heap a
    nested := nestObject s.heap s.nested a }

/-- `indexAndLink` on an array of rules as it is now -/
def linkArray (arr : Arr) : Session :=
  { s with
    index := s.index.linkRules s.heap arr
    nested := nestRules s.heap s.nested arr }

/-- `removeIndexedState` on a copy without what is nested in it -/
def forgetId (v : Value) : Session :=
  if v.truthy then
    { s with
      index := { s.index with
        originalObjects := Function.update s.index.originalObjects v none }
      nested := Function.update s.nested v [] }
  else s

/-- `removeIndexedState` on the rules of a copy -/
def forgetRules (rules : List Props) : Session := rules.foldl (fun s r => s.forgetId (r "id")) s

/-! ## Acknowledgements -/

def acknowledgeNewItem (arr : Arr) (item : Addr) (start : Bool) : Session :=
  match s.index.originalArrays arr with
  | none => s
  | some originalIds =>
    if ¬ (s.heap.id item).truthy then s
    else
      let s := s.link item
      let key := Key.value (s.heap.id item)
      let ids := if start then key :: originalIds else originalIds ++ [key]
      let ix := { s.index with
        originalArrays := Function.update s.index.originalArrays arr (some ids) }
      let ix := ix.clearCopy (s.heap.props item) (s.heap.copyRules item)
      { s with index := ix.checkArrayStructure s.heap arr }

/-- The copy under an id is forgotten, but not the rules in it. -/
def forgetItem (v : Value) : Session :=
  match s.index.originalObjects v with
  | none => s
  | some copy =>
    let ix := s.index.clearCopy copy (s.nested v)
    { s with
      index := { ix with originalObjects := Function.update ix.originalObjects v none }
      nested := Function.update s.nested v [] }

def acknowledgeDelete (arr : Arr) (itemId : Value) : Session :=
  match s.index.originalArrays arr with
  | none => s
  | some originalIds =>
    let ids := originalIds.erase (.value itemId)
    let ix := { s.index with
      originalArrays := Function.update s.index.originalArrays arr (some ids)
      dirtyObjectProps := s.index.dirtyObjectProps.filter (·.1 ≠ itemId) }
    let s := { s with index := ix }.forgetItem itemId
    { s with index := s.index.checkArrayStructure s.heap arr }

/-- `acknowledgeUpdate` without fields: the object is indexed anew. -/
def acknowledgeObject (a : Addr) : Session :=
  let s := match s.index.originalObjects (s.heap.id a) with
    | none => s
    | some copy => (s.forgetId (copy "id")).forgetRules (s.nested (s.heap.id a))
  let s := { s with index := s.index.clearObject s.heap a }.link a
  { s with index := s.index.pruneDirtyState s.heap s.root }

end Session

/-- The fields of an acknowledged update: those with a primitive value, and the array under the
key `rules`. -/
structure Persisted where
  fields : List (Field × Value)
  rules : Option Arr

namespace Persisted

def isEmpty (p : Persisted) : Bool := p.fields = [] ∧ p.rules = none

def assign (p : Persisted) (props : Props) : Props :=
  p.fields.foldl (fun m f => Function.update m f.1 f.2) props

end Persisted

namespace Session

/-- The array of an object is replaced; what was stored of the old one is forgotten. -/
def replaceRules (s : Session) (a : Addr) (arr : Arr) : Session :=
  let ix := (s.heap.rules a).elim s.index (s.index.clearArray s.heap)
  let s := { s with index := ix }
  let s := if (s.index.originalObjects (s.heap.id a)).isSome
    then s.forgetRules (s.nested (s.heap.id a)) else s
  { s with heap := { s.heap with rules := Function.update s.heap.rules a (some arr) } }

/-- `acknowledgeUpdate` with fields: they are assigned and stored. -/
def acknowledgeFields (s : Session) (a : Addr) (p : Persisted) : Session :=
  let original := s.index.originalObjects (s.heap.id a)
  let nested := p.rules.elim (s.nested (s.heap.id a)) fun arr =>
    (s.heap.readRules arr).map BaseRule.props
  let s := p.rules.elim s (s.replaceRules a)
  let s := { s with
    heap := { s.heap with
      props := Function.update s.heap.props a (p.assign (s.heap.props a)) } }
  let v := s.heap.id a
  let copy := p.assign (Function.update (original.getD fun _ => .undefined) "id" v)
  let s := { s with
    index := { s.index with
      originalObjects := Function.update s.index.originalObjects v (some copy) }
    nested := Function.update s.nested v nested }
  let s := p.rules.elim s fun arr =>
    let s := s.linkArray arr
    { s with index := s.index.clearArray s.heap arr }
  let keys := p.fields.map (·.1.1) ++ p.rules.elim [] fun _ => ["rules"]
  let s := { s with
    index := { s.index with
      dirtyObjectProps := s.index.dirtyObjectProps.filter fun m => ¬ (m.1 = v ∧ m.2 ∈ keys) } }
  { s with index := s.index.pruneDirtyState s.heap s.root }

def acknowledgeUpdate (s : Session) (a : Addr) (p : Persisted) : Session :=
  if ¬ (s.heap.id a).truthy then s
  else if p.isEmpty then s.acknowledgeObject a
  else s.acknowledgeFields a p

end Session

/-! ## The acknowledged baseline -/

/-- Where `acknowledgeNewItem` puts an item. -/
def insertAt {α : Type} (start : Bool) (x : α) (l : List α) : List α :=
  if start then x :: l else l ++ [x]

/-- The rules of the group with this array are changed. -/
def onRulesOf (base : List BaseGroup) (arr : Arr) (f : List BaseRule → List BaseRule) :
    List BaseGroup :=
  base.map fun g => if g.arr = arr then { g with rules := f g.rules } else g

/-- A group after an update was saved: all of it, or the fields that were. -/
def BaseGroup.accept (g : BaseGroup) (h : Heap) (a : Addr) (p : Persisted) : BaseGroup :=
  if p.isEmpty then (h.readGroup a).getD g
  else
    let g := { g with props := p.assign g.props }
    p.rules.elim g fun arr => { g with arr := arr, rules := h.readRules arr }

/-- A rule after an update was saved. -/
def BaseRule.accept (r : BaseRule) (h : Heap) (a : Addr) (p : Persisted) : BaseRule :=
  if p.isEmpty then ⟨a, h.props a⟩ else { r with props := p.assign r.props }

inductive Op where
  | edit (e : Edit)
  /-- `acknowledgeNewItem(data, item, …)` -/
  | newGroup (item : Addr) (start : Bool)
  /-- `acknowledgeNewItem(data[i].rules, item, …)` -/
  | newRule (i : Nat) (item : Addr) (start : Bool)
  /-- `acknowledgeDelete(data, itemId)` -/
  | deleteGroup (itemId : Value)
  /-- `acknowledgeDelete(data[i].rules, itemId)` -/
  | deleteRule (i : Nat) (itemId : Value)
  /-- `acknowledgeUpdate(data[i], …)` -/
  | updateGroup (i : Nat) (p : Persisted)
  /-- `acknowledgeUpdate(data[i].rules[j], …)` -/
  | updateRule (i j : Nat) (p : Persisted)

namespace Session

/-- An edit; only `reset` stores copies. -/
def edit (s : Session) (e : Edit) : Session :=
  let t := s.toState.step e
  match e with
  | .reset _ => ⟨t, nestGroups t.heap t.root⟩
  | _ => ⟨t, s.nested⟩

def step (s : Session) : Op → Session
  | .edit e => s.edit e
  | .newGroup item start =>
    { s.acknowledgeNewItem s.root item start with
      base := (s.heap.readGroup item).elim s.base fun g => insertAt start g s.base }
  | .newRule i item start =>
    match s.rulesOf i with
    | none => s
    | some arr =>
      { s.acknowledgeNewItem arr item start with
        base := onRulesOf s.base arr (insertAt start ⟨item, s.heap.props item⟩) }
  | .deleteGroup itemId =>
    { s.acknowledgeDelete s.root itemId with base := s.base.filter fun g => g.id ≠ itemId }
  | .deleteRule i itemId =>
    match s.rulesOf i with
    | none => s
    | some arr =>
      { s.acknowledgeDelete arr itemId with
        base := onRulesOf s.base arr fun rules => rules.filter fun r => r.id ≠ itemId }
  | .updateGroup i p =>
    match s.element s.root i with
    | none => s
    | some a =>
      { s.acknowledgeUpdate a p with
        base := s.base.map fun g => if g.id = s.heap.id a then g.accept s.heap a p else g }
  | .updateRule i j p =>
    match (s.rulesOf i).bind fun arr => s.element arr j with
    | none => s
    | some a =>
      { s.acknowledgeUpdate a p with
        base := s.base.map fun g => { g with
          rules := g.rules.map fun r => if r.id = s.heap.id a then r.accept s.heap a p else r } }

def run (s : Session) (ops : List Op) : Session := ops.foldl step s

end Session

end MagiTrickle.ChangeTracker
