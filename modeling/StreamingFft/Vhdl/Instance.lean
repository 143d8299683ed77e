import StreamingFft.Vhdl.Expr
/-!
Instances of entities with their generic and port maps.
-/
namespace StreamingFft.Vhdl

/-- Blank space in front of an item. -/
inductive Gap where
  | none
  | blank
  /-- A new line that starts with tabs. -/
  | line (tabs : Nat)
deriving DecidableEq, Repr

def Gap.text : Gap → String
  | none => ""
  | blank => " "
  | line tabs => "\n" ++ String.ofList (List.replicate tabs '\t')

/-- An item of a map: named by its formal, or placed by position. -/
structure Association where
  gap : Gap
  formal : Option String
  actual : Expr
deriving DecidableEq, Repr

namespace Association

def text (a : Association) : String :=
  match a.formal with
  | some f => s!"{a.gap.text}{f}=>{a.actual.text}"
  | none => s!"{a.gap.text}{a.actual.text}"

/-- The first item of a map. -/
def first (formal : String) (actual : Expr) : Association := ⟨.none, some formal, actual⟩

/-- A further item on the same line. -/
def next (formal : String) (actual : Expr) : Association := ⟨.blank, some formal, actual⟩

/-- An item on a line of its own. -/
def line (tabs : Nat) (formal : String) (actual : Expr) : Association :=
  ⟨.line tabs, some formal, actual⟩

/-- An item placed by position. -/
def positional (gap : Gap) (actual : Expr) : Association := ⟨gap, none, actual⟩

/-- Items joined by commas; each brings its own gap. -/
def listText (as : List Association) : String :=
  ",".intercalate (as.map text)

end Association

structure Instance where
  label : String
  entity : String
  genericGap : Gap
  /-- Nothing is written for an empty generic map. -/
  generics : List Association
  portGap : Gap
  ports : List Association
deriving DecidableEq, Repr

namespace Instance

def genericText (i : Instance) : String :=
  if i.generics.isEmpty then ""
  else s!"{i.genericGap.text}generic map({Association.listText i.generics})"

def text (i : Instance) : String :=
  s!"{i.label}: entity {i.entity}{i.genericText}{i.portGap.text}port map({Association.listText i.ports});"

end Instance
end StreamingFft.Vhdl
