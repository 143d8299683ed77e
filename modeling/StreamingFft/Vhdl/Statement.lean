import StreamingFft.Vhdl.Instance
/-!
Concurrent statements of an architecture, one per line of its body.
-/
namespace StreamingFft.Vhdl

inductive Statement where
  | blank
  /-- The target follows the value at once. -/
  | assign (target : String) (value : Expr)
  /-- The target takes the value at the next rising edge of the clock. -/
  | register (target : String) (value : Expr)
  /-- The target follows `taken` while the bit of `counter` is set, and `kept` otherwise. -/
  | choose (target : String) (taken : Expr) (counter : String) (bit : Nat) (kept : Expr)
  | instantiate (i : Instance)
deriving DecidableEq, Repr

namespace Statement

def text : Statement → String
  | blank => ""
  | assign target value => s!"{target} <= {value.text};"
  | register target value => s!"{target} <= {value.text} when rising_edge(clk);"
  | choose target taken counter bit kept =>
    s!"{target} <= {taken.text} when {counter}({bit})='1' else {kept.text};"
  | instantiate i => i.text

/-- Statements, each with its line end. -/
def listText (ss : List Statement) : String :=
  String.join (ss.map fun s => s.text ++ "\n")

end Statement
end StreamingFft.Vhdl
