import StreamingFft.Vhdl.Expr
/-!
Types of signals, and the declarations in front of an architecture's body.
-/
namespace StreamingFft.Vhdl

/-- Vectors count their bits from `high` down to zero. -/
inductive SignalType where
  | logic
  | complex
  | unsigned (high : Expr)
  | logicVector (high : Expr)
deriving DecidableEq, Repr

namespace SignalType

def text : SignalType → String
  | logic => "std_logic"
  | complex => "complex"
  | unsigned high => s!"unsigned({high.text} downto 0)"
  | logicVector high => s!"std_logic_vector({high.text} downto 0)"

/-- An unsigned vector of `count` bits, its bound written as a difference. -/
def word (count : Expr) : SignalType :=
  .unsigned (.sub count (.nat 1))

end SignalType

inductive Declaration where
  | blank
  | comment (text : String)
  /-- Signals of one type; `gap` follows the commas between them. -/
  | signals (gap : String) (names : List String) (type : SignalType)
  | integerConstant (name : String) (value : Expr)
deriving DecidableEq, Repr

namespace Declaration

/-- One signal. -/
def signal (name : String) (type : SignalType) : Declaration :=
  .signals " " [name] type

/-- Integer constants whose names share a beginning. -/
def constants (id : String) (values : List (String × Expr)) : List Declaration :=
  values.map fun (name, value) => .integerConstant (id ++ name) value

/-- The names that a declaration introduces. -/
def names : Declaration → List String
  | blank => []
  | comment _ => []
  | signals _ names _ => names
  | integerConstant name _ => [name]

def text : Declaration → String
  | blank => ""
  | comment t => s!"-- {t}"
  | signals gap names type =>
    let separator := "," ++ gap
    s!"signal {separator.intercalate names}: {type.text};"
  | integerConstant name value => s!"constant {name}: integer := {value.text};"

/-- Declarations, each with its line end. -/
def listText (ds : List Declaration) : String :=
  String.join (ds.map fun d => d.text ++ "\n")

end Declaration
end StreamingFft.Vhdl
