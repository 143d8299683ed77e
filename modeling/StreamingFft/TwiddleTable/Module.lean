import StreamingFft.Blake3
import StreamingFft.Journal
import StreamingFft.TwiddleTable.Sample
/-!
The text of the table's module: one variant of the contents per width, each with its digest.
-/
namespace StreamingFft

/-- Cuts a list into rows of `length + 1` entries, the last of which may be shorter. -/
def rowsOf {α : Type} (length : Nat) : List α → List (List α)
  | [] => []
  | x :: xs => (x :: xs.take length) :: rowsOf length (xs.drop length)
termination_by xs => xs.length
decreasing_by
  rw [List.length_drop, List.length_cons]
  omega

/-- The digest of a list of words, each followed by a line end. -/
def contentsDigest (words : List String) : String :=
  Blake3.hex (Blake3.digest (String.join (words.map (· ++ "\n"))).toUTF8.toList)

namespace TwiddleTable

/-- Cycles from an address to its word. -/
def readDelay : Nat := 2

/-- Words in one row of the contents. -/
def rowLength : Nat := 6

/-- Clauses and description in front of the digests. -/
def preamble (t : TwiddleTable) : String :=
  "\nlibrary ieee;\nlibrary work;\nuse ieee.numeric_std.all;\nuse ieee.std_logic_1164.all;\n" ++
  "use work.fft_types.all;\n" ++
  s!"-- read delay is {readDelay} cycles\n" ++
  s!"-- minor table of {t.size} entries for a transform of size {t.modulus}\n"

/-- The generic and the ports. -/
def entityText (t : TwiddleTable) : String :=
  s!"\nentity {t.entityName} is\n" ++
  "\tgeneric(twBits: integer := 17);\n" ++
  "\tport(clk: in std_logic;\n" ++
  s!"\t\t\ttwAddr: in unsigned({t.depth}-1 downto 0);\n" ++
  "\t\t\ttwData: out complex\n" ++
  "\t\t\t);\n" ++
  "end entity;\n"

/-- The width of a whole word as an expression in `twBits`. -/
def widthExpression (t : TwiddleTable) : String :=
  if t.reduced then "twBits" else "twBits + 1"

/-- The sizes of the memory. -/
def constants (t : TwiddleTable) : String :=
  s!"\tconstant romDepthOrder: integer := {t.depth};\n" ++
  "\tconstant romDepth: integer := 2**romDepthOrder;\n" ++
  s!"\tconstant romWidth: integer := ({t.widthExpression})*2;\n"

/-- The memory, and the registers between an address and its word. -/
def memoryText : String :=
  "\t--ram\n" ++
  "\ttype ram1t is array(0 to romDepth-1) of\n" ++
  "\t\tstd_logic_vector(romWidth-1 downto 0);\n" ++
  "\tsignal rom: ram1t;\n" ++
  "\tsignal addr1: unsigned(romDepthOrder-1 downto 0) := (others=>'0');\n" ++
  "\tsignal data0,data1: std_logic_vector(romWidth-1 downto 0) := (others=>'0');\n" ++
  "begin\n" ++
  "\taddr1 <= twAddr when rising_edge(clk);\n" ++
  "\tdata0 <= rom(to_integer(addr1));\n" ++
  "\tdata1 <= data0 when rising_edge(clk);\n" ++
  "\ttwData <= complex_unpack(data1);\n"

/-- The entity, and the part of the architecture that all widths share. -/
def frame (t : TwiddleTable) : String :=
  t.entityText ++ s!"architecture a of {t.entityName} is\n" ++ t.constants ++ memoryText

end TwiddleTable

namespace SampledTable
open TwiddleTable

def fingerprint (t : SampledTable) (w : WordWidth) : String :=
  contentsDigest (t.words w)

/-- The contents of the memory for one width: quoted words in rows, with commas between them. -/
def contents (t : SampledTable) (w : WordWidth) : String :=
  let rows := rowsOf (rowLength - 1) ((t.words w).map fun word => s!"\"{word}\"")
  ",\n".intercalate (rows.map fun row => "\t\t\t" ++ ", ".intercalate row)

def digestLine (t : SampledTable) (w : WordWidth) : String :=
  s!"-- twBits={w.bits} contents: blake3 {t.fingerprint w}\n"

/-- The block that holds the contents for one width. -/
def variant (t : SampledTable) (w : WordWidth) : String :=
  s!"\ng{w.bits}:\n\tif twBits = {w.bits} generate\n\t\trom <= (\n{t.contents w});\n\tend generate;\n"

/-- The whole module for widths already checked. -/
def moduleText (t : SampledTable) (ws : List WordWidth) : String :=
  t.preamble ++ String.join (ws.map t.digestLine) ++ t.frame ++
    String.join (ws.map t.variant) ++ "\nend a;\n"

/-- The module for the requested widths. -/
def render (t : SampledTable) (widths : List Nat) : Except Fault String :=
  (WordWidth.ofList widths).map t.moduleText

end SampledTable

namespace TwiddleTable

def fingerprint (t : TwiddleTable) (w : WordWidth) : String := t.sampled.fingerprint w

def render (t : TwiddleTable) (widths : List Nat) : Except Fault String := t.sampled.render widths

/-- The record of writing a module; refused widths leave none. -/
def writingJournal (t : TwiddleTable) (widths : List Nat) : List Event :=
  match t.render widths with
  | .error _ => []
  | .ok _ => [.tableWritten t.entityName widths.length]

end TwiddleTable
end StreamingFft
