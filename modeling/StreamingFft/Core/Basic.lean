import StreamingFft.Core.InputBuffer
import StreamingFft.Core.Leaf
import StreamingFft.Core.Twiddle
import StreamingFft.Multiplier
/-!
Streaming cores as trees. A four-step core computes `N1 * N2` points by two sub-cores with a
transposer and a twiddle multiplication between them; the other composite puts a radix-4 stage in
front of one sub-core. A buffer reorders the samples for the sub-core behind the multiplier, if that
sub-core does not take natural order.
-/
namespace StreamingFft

/-- What all composites have. -/
structure Stage where
  size : Nat
  /-- The exponent of the size. -/
  order : Nat
  multiplier : Multiplier
  twiddleWidth : TwiddleWidth
  twiddleSource : TwiddleSource
  buffer : Option InputBuffer
deriving DecidableEq

namespace Stage

/-- A composite of `n` points whose last sub-core is of size `last` and takes the given order. -/
def ofLast (n order last : Nat) (input : BitOrder) : Stage where
  size := n
  order := order
  multiplier := .standard
  twiddleWidth := .standard
  twiddleSource := .ofSize n
  buffer := InputBuffer.ofInput input last

def bufferDelay (s : Stage) : Nat :=
  match s.buffer with
  | none => 0
  | some b => b.delay

def useMultiplier (m : Multiplier) (s : Stage) : Stage :=
  { s with multiplier := m }

def useTwiddleWidth (w : TwiddleWidth) (s : Stage) : Stage :=
  { s with twiddleWidth := w }

@[simp]
theorem size_useMultiplier (m : Multiplier) (s : Stage) : (s.useMultiplier m).size = s.size := rfl

@[simp]
theorem multiplier_useMultiplier (m : Multiplier) (s : Stage) :
    (s.useMultiplier m).multiplier = m := rfl

@[simp]
theorem bufferDelay_useMultiplier (m : Multiplier) (s : Stage) :
    (s.useMultiplier m).bufferDelay = s.bufferDelay := rfl

/-- What a composite needs for its twiddles, its buffer and its products. -/
def components (s : Stage) : List String :=
  s.twiddleSource.components s.size ++
    (if s.buffer.isSome then ["reorderBuffer"] else []) ++ [s.multiplier.entity]

end Stage

/-- Latency of the radix-4 stage for a transform of size `n`. -/
def radix4Delay (n : Nat) : Nat := n / 2 + 3 + n / 4 + 3

/-- The entity of the radix-4 stage. -/
def radix4Entity : String := "fft_spdf_stage"

inductive Core where
  | leaf (l : Leaf)
  /-- Sub-core, transposer, multiplier, sub-core. -/
  | fourStep (stage : Stage) (sub1 sub2 : Core)
  /-- Radix-4 stage with its latency, multiplier, sub-core. -/
  | radix4 (stage : Stage) (stageDelay : Nat) (sub1 : Core)
deriving DecidableEq

/-- How far down a change reaches. -/
inductive Scope where
  | node
  | tree
deriving DecidableEq, Repr

namespace Core

def size : Core → Nat
  | leaf l => l.size
  | fourStep s _ _ => s.size
  | radix4 s _ _ => s.size

/-- The exponent of the size. -/
def order : Core → Nat
  | leaf l => l.order
  | fourStep s _ _ => s.order
  | radix4 s _ _ => s.order

/-- Cycles from the first sample in to the first sample out. -/
def delay : Core → Nat
  | leaf l => l.delay
  | fourStep s sub1 sub2 => sub1.delay + s.size + s.multiplier.delay + sub2.delay + s.bufferDelay
  | radix4 s stageDelay sub1 => stageDelay + sub1.delay + s.multiplier.delay + s.bufferDelay

/-- The order in which samples are taken. -/
def inputOrder : Core → BitOrder
  | leaf l => l.inputOrder
  | fourStep _ sub1 sub2 => .natural sub2.order ++ sub1.inputOrder
  | radix4 s _ _ => .natural s.order

/-- The order in which samples are delivered. -/
def outputOrder : Core → BitOrder
  | leaf l => l.outputOrder
  | fourStep _ sub1 sub2 => sub1.outputOrder ++ sub2.outputOrder
  | radix4 _ _ sub1 => .reversed 2 ++ sub1.outputOrder

def isLeaf : Core → Bool
  | leaf _ => true
  | _ => false

def stage? : Core → Option Stage
  | leaf _ => none
  | fourStep s _ _ => some s
  | radix4 s _ _ => some s

def children : Core → List Core
  | leaf _ => []
  | fourStep _ sub1 sub2 => [sub1, sub2]
  | radix4 _ _ sub1 => [sub1]

/-- All nodes, children before their parents. -/
def nodes : Core → List Core
  | leaf l => [leaf l]
  | fourStep s sub1 sub2 => sub1.nodes ++ sub2.nodes ++ [fourStep s sub1 sub2]
  | radix4 s d sub1 => sub1.nodes ++ [radix4 s d sub1]

/-- The node reached by taking the numbered child at each step. -/
def descend (c : Core) : List Nat → Option Core
  | [] => some c
  | i :: path => c.children[i]? >>= fun child => child.descend path

/-- Refuses sizes other than the product of the factors. -/
def checkFactors (n product : Nat) : Except Fault Nat :=
  if product = n then exactLog2 n else .error (.factorMismatch n (min product maxWord))

/-- A four-step core of `n` points. -/
def ofFourStep (n : Nat) (sub1 sub2 : Core) : Except Fault Core :=
  (checkFactors n (sub1.size * sub2.size)).map fun order =>
    fourStep (.ofLast n order sub2.size sub2.inputOrder) sub1 sub2

/-- A radix-4 stage in front of a core of `n / 4` points. -/
def ofRadix4 (n : Nat) (sub1 : Core) : Except Fault Core :=
  (checkFactors n (sub1.size * 4)).map fun order =>
    radix4 (.ofLast n order sub1.size sub1.inputOrder) (radix4Delay n) sub1

/-- Changes the stage of this node; a leaf has none. -/
def mapStage (f : Stage → Stage) : Core → Core
  | leaf l => leaf l
  | fourStep s sub1 sub2 => fourStep (f s) sub1 sub2
  | radix4 s d sub1 => radix4 (f s) d sub1

/-- Changes the stages of all nodes. -/
def mapStages (f : Stage → Stage) : Core → Core
  | leaf l => leaf l
  | fourStep s sub1 sub2 => fourStep (f s) (sub1.mapStages f) (sub2.mapStages f)
  | radix4 s d sub1 => radix4 (f s) d (sub1.mapStages f)

/-- Replaces the multiplier of this node, or of every composite in the tree. -/
def replaceMultiplier (m : Multiplier) : Scope → Core → Core
  | .node, c => c.mapStage (·.useMultiplier m)
  | .tree, c => c.mapStages (·.useMultiplier m)

/-- Components that a node instantiates itself, its sub-cores aside. -/
def ownComponents : Core → Manifest
  | leaf l => l.components
  | fourStep s _ _ => .ofList (["twiddleAddrGen", "transposer"] ++ s.components)
  | radix4 s _ _ => .ofList (["twiddleAddrGen", radix4Entity] ++ s.components)

/-- Components of the whole tree, those of children before those of their parents. -/
def components (c : Core) : Manifest :=
  c.nodes.foldl (fun m node => m ∪ node.ownComponents) ∅

end Core
end StreamingFft
