import StreamingFft.Core.Netlist
import StreamingFft.Vhdl.Interface
/-!
The entity of one composite and its text.
-/
namespace StreamingFft
open Vhdl

/-- A sub-core in the architecture of its parent. -/
structure Slot where
  /-- What the names of its signals start with. -/
  id : String
  /-- The exponent of its size. -/
  order : Nat
  /-- The name under which the parent lists it. -/
  entity : String
  inst : Instance
deriving DecidableEq

/-- The entity of a composite, ready to be written. -/
structure Architecture where
  name : String
  /-- The exponent of the size. -/
  order : Nat
  inputOrder : BitOrder
  outputOrder : BitOrder
  delay : Nat
  /-- All components that the entity refers to, as its user sees them. -/
  imports : Manifest
  /-- Components of the stages between the sub-cores. -/
  ownComponents : Manifest
  slots : List Slot
  constants : List Declaration
  declarations : List Declaration
  body : List Statement
deriving DecidableEq

namespace Architecture

def interface (a : Architecture) : Interface := coreInterface a.order

/-- The components named in front of the entity. -/
def components (a : Architecture) : Manifest :=
  a.slots.foldl (fun m s => m ∪ .ofList [s.entity]) a.ownComponents

/-- Data and phase signals of the sub-cores. -/
def slotSignals (a : Architecture) : List Declaration :=
  .signals " " (a.slots.flatMap fun s => [s.id ++ "din", s.id ++ "dout"]) .complex ::
    a.slots.map fun s => .signal (s.id ++ "phase") (.word (.nat s.order))

/-- What a user of the entity must know of its timing. -/
def notes (a : Architecture) : String :=
  s!"-- data input bit order: {a.inputOrder.caption}\n" ++
  s!"-- data output bit order: {a.outputOrder.caption}\n" ++
  "-- phase should be 0,1,2,3,4,5,6,...\n" ++
  s!"-- delay is {a.delay}\n"

/-- Clauses, notes and interface. -/
def entityText (a : Architecture) : String :=
  contextClause ++ componentClauses a.components ++ "\n" ++ a.notes ++
    s!"entity {a.name} is\n" ++ a.interface.text ++ "end entity;\n"

/-- The declarative part. -/
def declarationText (a : Architecture) : String :=
  Text.indent 1 (Declaration.listText a.slotSignals) ++
    Text.indent 1 (Declaration.listText a.constants) ++
    "\n\t--=======================================\n\n" ++
    Text.indent 1 (Declaration.listText a.declarations)

/-- The statements, those that instantiate sub-cores last. -/
def bodyText (a : Architecture) : String :=
  Text.indent 1 (Statement.listText a.body) ++
    String.join (a.slots.map fun s => "\n" ++ Text.indent 1 s.inst.text)

def text (a : Architecture) : String :=
  a.entityText ++ s!"architecture ar of {a.name} is\n" ++ a.declarationText ++
    "\nbegin\n" ++ a.bodyText ++ "\nend ar;\n"

end Architecture

namespace Core

/-- A core in the architecture of its parent. -/
def slot (c : Core) (id entity : String) : Slot :=
  ⟨id, c.order, entity, c.instanceAt id entity⟩

/-- The entity `name` of a composite with the given sub-cores. -/
def architectureOf (c : Core) (name : String) (slots : List Slot) : Architecture where
  name := name
  order := c.order
  inputOrder := c.inputOrder
  outputOrder := c.outputOrder
  delay := c.delay
  imports := c.ownComponents.insertMany (slots.map (·.entity))
  ownComponents := c.ownComponents
  slots := slots
  constants := c.constants ""
  declarations := c.declarations ""
  body := c.body "" "sub1" "sub2"

/-- The entity `name` of a composite whose composite children are called `name1` and `name2`. -/
def architecture? (c : Core) (name name1 name2 : String) : Option Architecture :=
  match c with
  | leaf _ => none
  | fourStep _ sub1 sub2 =>
    some (c.architectureOf name [sub1.slot "sub1" name1, sub2.slot "sub2" name2])
  | radix4 _ _ sub1 => some (c.architectureOf name [sub1.slot "sub1" name1])

end Core
end StreamingFft
