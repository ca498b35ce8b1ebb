import Mathlib.Data.List.Basic

/-!
# Documents as trees and as events

A document of the serialization language is a tree of scalars, sequences and
mappings; a library writes it from its events and reads it back as a tree. What
comes back is the same tree with the same texts, but not in the same styles:
`Node.Reads` says which change is allowed, and what is looked up in a mapping is
again what was written there (`get_reads`).
-/

namespace MagiTrickle.Lib.Yaml

inductive Style where
  | plain
  | singleQuoted
  | doubleQuoted
  | literal
  | folded
  deriving DecidableEq, Repr

/-- A node. The text of a scalar is what a reader of it sees. -/
inductive Node where
  | scalar (style : Style) (text : List UInt8)
  | sequence (items : List Node)
  | mapping (pairs : List (Node × Node))

inductive Event where
  | streamStart
  | streamEnd
  | documentStart
  | documentEnd
  | scalar (style : Style) (text : List UInt8)
  | sequenceStart (flow : Bool)
  | sequenceEnd
  | mappingStart
  | mappingEnd
  deriving DecidableEq, Repr

namespace Node

mutual

def events : Node → List Event
  | scalar style text => [.scalar style text]
  | sequence items => .sequenceStart items.isEmpty :: (eventsItems items ++ [.sequenceEnd])
  | mapping pairs => .mappingStart :: (eventsPairs pairs ++ [.mappingEnd])

def eventsItems : List Node → List Event
  | [] => []
  | n :: ns => n.events ++ eventsItems ns

def eventsPairs : List (Node × Node) → List Event
  | [] => []
  | (k, v) :: ps => k.events ++ (v.events ++ eventsPairs ps)

end

def stream (n : Node) : List Event :=
  [.streamStart, .documentStart] ++ n.events ++ [.documentEnd, .streamEnd]

theorem eventsItems_eq (ns : List Node) : eventsItems ns = ns.flatMap events := by
  induction ns with
  | nil => rfl
  | cons n ns ih => rw [eventsItems, ih, List.flatMap_cons]

/-- The value of the first scalar key with that text. -/
def get (n : Node) (key : List UInt8) : Option Node :=
  match n with
  | mapping pairs => (pairs.find? fun p => match p.1 with
      | scalar _ text => text = key
      | _ => false).map Prod.snd
  | _ => none

end Node

def isAlnum (c : UInt8) : Bool := (48 ≤ c ∧ c ≤ 57) ∨ (65 ≤ c ∧ c ≤ 90) ∨ (97 ≤ c ∧ c ≤ 122)

/-- Letters and digits, which need no quotes anywhere. -/
def Simple (text : List UInt8) : Prop := text ≠ [] ∧ ∀ c ∈ text, isAlnum c = true

/-- Styles in which a text that was written in the first may come back: quotes are never taken
off, and put around plain text only where it is not simple. -/
def StyleReads (text : List UInt8) : Style → Style → Prop
  | .plain, style => Simple text → style = .plain
  | _, style => style ≠ .plain

mutual

/-- The second node is what may be read where the first was written. -/
inductive Node.Reads : Node → Node → Prop where
  | scalar {style style' : Style} {text : List UInt8} (h : StyleReads text style style') :
    Node.Reads (.scalar style text) (.scalar style' text)
  | sequence {ns ns' : List Node} (h : ReadsItems ns ns') :
    Node.Reads (.sequence ns) (.sequence ns')
  | mapping {ps ps' : List (Node × Node)} (h : ReadsPairs ps ps') :
    Node.Reads (.mapping ps) (.mapping ps')

inductive ReadsItems : List Node → List Node → Prop where
  | nil : ReadsItems [] []
  | cons {n n' : Node} {ns ns' : List Node} (h : n.Reads n') (hs : ReadsItems ns ns') :
    ReadsItems (n :: ns) (n' :: ns')

inductive ReadsPairs : List (Node × Node) → List (Node × Node) → Prop where
  | nil : ReadsPairs [] []
  | cons {k k' v v' : Node} {ps ps' : List (Node × Node)} (hk : k.Reads k') (hv : v.Reads v')
    (hs : ReadsPairs ps ps') : ReadsPairs ((k, v) :: ps) ((k', v') :: ps')

end

/-- Nothing is found in the one where nothing is in the other, and otherwise what may be read. -/
def ReadsOption : Option Node → Option Node → Prop
  | some n, some n' => n.Reads n'
  | none, none => True
  | _, _ => False

theorem ReadsItems.forall₂ {ns ns' : List Node} (h : ReadsItems ns ns') :
    List.Forall₂ Node.Reads ns ns' := by
  induction ns generalizing ns' with
  | nil =>
    cases h
    exact .nil
  | cons n ns ih =>
    cases h with
    | cons h hs => exact .cons h (ih hs)

theorem get_reads {n n' : Node} (h : n.Reads n') (key : List UInt8) :
    ReadsOption (n.get key) (n'.get key) := by
  cases h with
  | scalar h => trivial
  | sequence h => trivial
  | @mapping ps ps' h =>
    induction ps generalizing ps' with
    | nil =>
      cases h
      trivial
    | cons p ps ih =>
      cases h with
      | @cons k k' v v' _ qs hk hv hs =>
        have hrest := ih hs
        cases hk with
        | @scalar style style' text h =>
          by_cases htext : text = key
          · simpa [Node.get, htext, ReadsOption] using hv
          · simpa [Node.get, htext] using hrest
        | sequence h => simpa [Node.get] using hrest
        | mapping h => simpa [Node.get] using hrest

/-! ## Another style -/

mutual

def Node.restyle (f : Style → List UInt8 → Style) : Node → Node
  | .scalar style text => .scalar (f style text) text
  | .sequence ns => .sequence (restyleItems f ns)
  | .mapping ps => .mapping (restylePairs f ps)

def restyleItems (f : Style → List UInt8 → Style) : List Node → List Node
  | [] => []
  | n :: ns => n.restyle f :: restyleItems f ns

def restylePairs (f : Style → List UInt8 → Style) : List (Node × Node) → List (Node × Node)
  | [] => []
  | (k, v) :: ps => (k.restyle f, v.restyle f) :: restylePairs f ps

end

section Restyle

variable {f : Style → List UInt8 → Style}

mutual

/-- A change of styles that is allowed everywhere gives what may be read. -/
theorem Node.reads_restyle (hf : ∀ style text, StyleReads text style (f style text)) :
    ∀ n : Node, n.Reads (n.restyle f)
  | .scalar style text => .scalar (hf style text)
  | .sequence ns => .sequence (reads_restyleItems hf ns)
  | .mapping ps => .mapping (reads_restylePairs hf ps)

theorem reads_restyleItems (hf : ∀ style text, StyleReads text style (f style text)) :
    ∀ ns : List Node, ReadsItems ns (restyleItems f ns)
  | [] => .nil
  | n :: ns => .cons (n.reads_restyle hf) (reads_restyleItems hf ns)

theorem reads_restylePairs (hf : ∀ style text, StyleReads text style (f style text)) :
    ∀ ps : List (Node × Node), ReadsPairs ps (restylePairs f ps)
  | [] => .nil
  | (k, v) :: ps => .cons (k.reads_restyle hf) (v.reads_restyle hf) (reads_restylePairs hf ps)

end

end Restyle

end MagiTrickle.Lib.Yaml
