import StreamingFft.Manifest
import StreamingFft.Vhdl.Instance
/-!
What every generated entity starts with, and how a generated entity is instantiated.
-/
namespace StreamingFft.Vhdl

/-- Library and package clauses. -/
def contextClause : String :=
  "\nlibrary ieee;\nlibrary work;\nuse ieee.numeric_std.all;\nuse ieee.std_logic_1164.all;\n" ++
  "USE ieee.math_real.log2;\nUSE ieee.math_real.ceil;\nuse work.fft_types.all;\n"

/-- A clause for each name of the manifest, in its order. -/
def componentClauses (m : Manifest) : String :=
  String.join (m.names.map fun name => s!"use work.{name};\n")

/-- Data and phase ports of a core, wired to signals that start with its label. -/
def corePorts (id : String) : List Association :=
  [.first "clk" (.name "clk"), .next "din" (.name (id ++ "din")),
    .next "phase" (.name (id ++ "phase")), .next "dout" (.name (id ++ "dout"))]

/-- An instance of a generated core. -/
def generatedInstance (label entity : String) : Instance where
  label := label
  entity := entity
  genericGap := .blank
  generics := [.first "dataBits" (.name "dataBits"), .next "twBits" (.name "twBits")]
  portGap := .line 1
  ports := corePorts label

end StreamingFft.Vhdl
