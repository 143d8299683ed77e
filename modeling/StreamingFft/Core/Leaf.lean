import StreamingFft.BitOrder.Basic
import StreamingFft.Manifest
import StreamingFft.Numeric.PowerOfTwo
import StreamingFft.Vhdl.Clauses
/-!
Cores written by hand, with their declared latency and the orders of their ports.
-/
namespace StreamingFft
open Vhdl

/-- An order of `k` bits; a list of another length is refused before its contents are looked at. -/
def BitOrder.ofListOfSize (k : Nat) (bits : List Nat) :
    Except Fault { o : BitOrder // o.size = k } :=
  if hk : bits.length = k then
    if h : bits.Nodup ∧ ∀ b ∈ bits, b < bits.length then .ok ⟨ofEntries bits h, hk⟩
    else .error (.notPermutation bits)
  else .error (.orderLength k bits.length)

/-- The side of a core that an order describes. -/
inductive Side where
  | input
  | output
deriving DecidableEq, Repr

structure Leaf where
  /-- The exponent of the size. -/
  order : Nat
  entity : String
  /-- The value of the entity's `scale` generic, passed on as it is. -/
  scale : String
  delay : Nat
  inputOrder : BitOrder
  outputOrder : BitOrder
  size_inputOrder : inputOrder.size = order
  size_outputOrder : outputOrder.size = order
deriving DecidableEq

namespace Leaf

def size (l : Leaf) : Nat := 2 ^ l.order

/-- A core of size `n` with natural orders. -/
def ofSize (n : Nat) (entity scale : String) (delay : Nat) : Except Fault Leaf :=
  (exactLog2 n).map fun k =>
    { order := k, entity, scale, delay
      inputOrder := .natural k, outputOrder := .natural k
      size_inputOrder := BitOrder.size_natural k
      size_outputOrder := BitOrder.size_natural k }

/-- Declares the order on one side. -/
def declare (l : Leaf) (side : Side) (bits : List Nat) : Except Fault Leaf :=
  (BitOrder.ofListOfSize l.order bits).map fun o =>
    match side with
    | .input => { l with inputOrder := o.1, size_inputOrder := o.2 }
    | .output => { l with outputOrder := o.1, size_outputOrder := o.2 }

/-- Declares an order if it is acceptable; otherwise the leaf stays, and the fault is returned. -/
def attempt (l : Leaf) (side : Side) (bits : List Nat) : Option Fault × Leaf :=
  match l.declare side bits with
  | .ok l => (none, l)
  | .error f => (some f, l)

/-- Declares an order if one is given. -/
def declareOptional (l : Leaf) (side : Side) : Option (List Nat) → Except Fault Leaf
  | none => .ok l
  | some bits => l.declare side bits

/-- A leaf depends on its own entity alone. -/
def components (l : Leaf) : Manifest := .ofList [l.entity]

/-- The text that builds the leaf again; natural orders are left out. -/
def configuration (l : Leaf) : String :=
  s!"FftBase({l.size}, \"{l.entity}\", \"{l.scale}\", {l.delay})" ++
    (if l.inputOrder.isNatural then "" else s!".input({l.inputOrder.text})") ++
    (if l.outputOrder.isNatural then "" else s!".output({l.outputOrder.text})")

def description (l : Leaf) : String :=
  s!"{l.size}: base, '{l.entity}', scale='{l.scale}', delay={l.delay}"

/-- The instance of the core whose signals start with `id`. -/
def instanceAt (l : Leaf) (id : String) : Instance where
  label := id ++ "inst"
  entity := l.entity
  genericGap := .line 1
  generics := [.first "dataBits" (.name "dataBits"), .next "scale" (.verbatim l.scale)]
  portGap := .line 1
  ports := corePorts id

end Leaf
end StreamingFft
