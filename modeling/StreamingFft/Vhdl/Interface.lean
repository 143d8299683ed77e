import StreamingFft.Vhdl.Declaration
/-!
The interface of an entity: its generics and its ports.
-/
namespace StreamingFft.Vhdl

inductive Direction where
  | input
  | output
deriving DecidableEq, Repr

def Direction.text : Direction → String
  | input => "in"
  | output => "out"

/-- An integer that the user of an entity may choose. -/
structure Generic where
  name : String
  default : Nat
deriving DecidableEq, Repr

def Generic.text (g : Generic) : String :=
  s!"{g.name}: integer := {g.default}"

structure Port where
  name : String
  direction : Direction
  type : SignalType
deriving DecidableEq, Repr

def Port.text (p : Port) : String :=
  s!"{p.name}: {p.direction.text} {p.type.text}"

structure Interface where
  generics : List Generic
  ports : List Port
deriving DecidableEq, Repr

namespace Interface

/-- The names that an interface introduces. -/
def names (i : Interface) : List String :=
  i.generics.map (·.name) ++ i.ports.map (·.name)

/-- Generics, then ports, one per line. -/
def text (i : Interface) : String :=
  "\tgeneric(" ++ ";\n\t\t\t".intercalate (i.generics.map Generic.text) ++ ");\n" ++
  "\tport(" ++ ";\n\t\t".intercalate (i.ports.map Port.text) ++ "\n\t\t);\n"

end Interface

/-- The interface of a generated core of `2 ^ order` points. -/
def coreInterface (order : Nat) : Interface where
  generics := [⟨"dataBits", 24⟩, ⟨"twBits", 12⟩]
  ports := [⟨"clk", .input, .logic⟩, ⟨"din", .input, .complex⟩,
    ⟨"phase", .input, .word (.nat order)⟩, ⟨"dout", .output, .complex⟩]

end StreamingFft.Vhdl
