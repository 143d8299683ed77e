import StreamingFft.Vhdl.Statement
/-!
Twiddle factors of a composite: the width of their words, and where they are read from.
-/
namespace StreamingFft
open Vhdl

/-- The width of a composite's twiddle words. -/
inductive TwiddleWidth where
  /-- An expression that the generated entity can see. -/
  | symbol (name : String)
  | literal (bits : Nat)
deriving DecidableEq, Repr

namespace TwiddleWidth

def standard : TwiddleWidth := .symbol "twBits"

def text : TwiddleWidth → String
  | symbol name => name
  | literal bits => toString bits

/-- The text that builds the width again; only symbols are quoted. -/
def configuration : TwiddleWidth → String
  | symbol name => s!"\"{name}\""
  | literal bits => toString bits

end TwiddleWidth

inductive TwiddleSource where
  /-- One combinational table. -/
  | table
  /-- A generator that reads a memory. -/
  | rom
deriving DecidableEq, Repr

namespace TwiddleSource

/-- The largest transform that is served by a table. -/
def romThreshold : Nat := 32

/-- Read latency of the table. -/
def tableDelay : Nat := 2

/-- Read latency of generator and memory together. -/
def romDelay : Nat := 7

def ofSize (n : Nat) : TwiddleSource :=
  if n ≤ romThreshold then .table else .rom

def delay : TwiddleSource → Nat
  | table => tableDelay
  | rom => romDelay

/-- The entities that serve a transform of size `n`. -/
def components (n : Nat) : TwiddleSource → List String
  | table => [s!"twiddleGenerator{n}"]
  | rom => ["twiddleGenerator", s!"twiddleRom{n}"]

/-- The instances that read twiddles for a transform of size `n`. -/
def instances (id : String) (n : Nat) : TwiddleSource → List Instance
  | table => [
      { label := id ++ "tw"
        entity := s!"twiddleGenerator{n}"
        genericGap := .none
        generics := []
        portGap := .blank
        ports := [.positional .none (.name "clk"), .positional .blank (.name (id ++ "twAddr")),
          .positional .blank (.name (id ++ "twData"))] }]
  | rom => [
      { label := id ++ "tw"
        entity := "twiddleGenerator"
        genericGap := .blank
        generics := [.positional .none (.name (id ++ "twiddleBits")),
          .positional .blank (.name (id ++ "order"))]
        portGap := .line 1
        ports := [.positional .none (.name "clk"), .positional .blank (.name (id ++ "twAddr")),
          .positional .blank (.name (id ++ "twData")), .positional .blank (.name (id ++ "romAddr")),
          .positional .blank (.name (id ++ "romData"))] },
      { label := id ++ "rom"
        entity := s!"twiddleRom{n}"
        genericGap := .none
        generics := []
        portGap := .blank
        ports := [.positional .none (.name "clk"), .positional .blank (.name (id ++ "romAddr")),
          .positional .none (.name (id ++ "romData"))] }]

def body (id : String) (n : Nat) (source : TwiddleSource) : List Statement :=
  .blank :: (source.instances id n).map .instantiate

end TwiddleSource
end StreamingFft
