import StreamingFft.Core.Journal
/-!
Descriptions of trees that have not been checked yet, and their construction from the leaves up.
-/
namespace StreamingFft

/-- Choices that a composite leaves open. -/
structure Settings where
  multiplier : Multiplier := .standard
  twiddleWidth : TwiddleWidth := .standard
deriving DecidableEq, Repr

/-- A composite with the chosen multiplier and twiddle width. -/
def Settings.apply (s : Settings) (c : Core) : Core :=
  (c.replaceMultiplier s.multiplier .node).mapStage (·.useTwiddleWidth s.twiddleWidth)

structure LeafRecipe where
  size : Nat
  entity : String
  scale : String
  delay : Nat
  /-- The orders that differ from the natural one. -/
  input : Option (List Nat)
  output : Option (List Nat)
deriving DecidableEq, Repr

/-- Checks the size, then the order of the input, then that of the output. -/
def LeafRecipe.build (r : LeafRecipe) : Except Fault Leaf := do
  let l ← Leaf.ofSize r.size r.entity r.scale r.delay
  let l ← l.declareOptional .input r.input
  l.declareOptional .output r.output

inductive Recipe where
  | leaf (r : LeafRecipe)
  | fourStep (size : Nat) (sub1 sub2 : Recipe) (settings : Settings)
  | radix4 (size : Nat) (sub1 : Recipe) (settings : Settings)
deriving DecidableEq, Repr

namespace Recipe

/-- Builds the first sub-core, the second, then the node; the first fault ends the construction. -/
def build : Recipe → Except Fault Core
  | leaf r => r.build.map .leaf
  | fourStep n r1 r2 settings => do
    let sub1 ← r1.build
    let sub2 ← r2.build
    (Core.ofFourStep n sub1 sub2).map settings.apply
  | radix4 n r1 settings => do
    let sub1 ← r1.build
    (Core.ofRadix4 n sub1).map settings.apply

/-- The record of a node, if it could be built. -/
def record : Except Fault Core → List Event
  | .error _ => []
  | .ok c => c.built?.toList

/-- The records of all composites that are built before a fault ends the construction. -/
def journal : Recipe → List Event
  | leaf _ => []
  | fourStep n r1 r2 settings =>
    r1.journal ++ (if r1.build.isOk then r2.journal else []) ++
      record (fourStep n r1 r2 settings).build
  | radix4 n r1 settings => r1.journal ++ record (radix4 n r1 settings).build

end Recipe
end StreamingFft
