import StreamingFft.BitOrder.Period
import StreamingFft.Numeric.PowerOfTwo
import StreamingFft.Vhdl.Declaration
import StreamingFft.Vhdl.Statement
/-!
The address network of a reorder buffer. Frame `c` is written in the order repeated `c` times, and
stage `i` of the network repeats the order `2 ^ i` times when bit `i` of the frame counter is set.
-/
namespace StreamingFft
open Vhdl

structure PermutationNetwork where
  order : BitOrder
  /-- Frames after which the schedule starts again. -/
  period : Nat
  /-- Bits of the frame counter, and stages of the network. -/
  counterBits : Nat
deriving DecidableEq

namespace PermutationNetwork

def ofOrder (o : BitOrder) : PermutationNetwork where
  order := o
  period := o.period
  counterBits := StreamingFft.counterBits o.period

/-- The network of an order whose counter has as many states as a word can count. -/
def ofOrderWord (o : BitOrder) : Except Fault PermutationNetwork :=
  if 2 ^ (ofOrder o).counterBits ≤ maxWord then .ok (ofOrder o) else .error (.overflow .period)

/-- Address bits that run through the network. -/
def size (p : PermutationNetwork) : Nat := p.order.size

/-- The network is combinational. -/
def delay (_ : PermutationNetwork) : Nat := 0

/-- An order, its square, the square of that, and so on. -/
def squares (o : BitOrder) : (count : Nat) → List BitOrder
  | 0 => []
  | count + 1 => o :: squares (o.andThen o) count

/-- The orders applied by the stages. -/
def stages (p : PermutationNetwork) : List BitOrder :=
  squares p.order p.counterBits

/-- Applies the stages whose bit of `count` is set, the lowest bit first. -/
def chain (acc : BitOrder) : List BitOrder → (count : Nat) → BitOrder
  | [], _ => acc
  | s :: rest, count => chain (if count % 2 = 1 then acc.andThen s else acc) rest (count / 2)

/-- The order in force while the counter stands at `count`. -/
def schedule (p : PermutationNetwork) (count : Nat) : BitOrder :=
  chain (.natural p.size) p.stages count

/-- The signal in front of stage `i`. -/
def tap (id : String) (i : Nat) : String := s!"{id}rP{i}"

def inputSignal (_ : PermutationNetwork) (id : String) : String := tap id 0

def outputSignal (p : PermutationNetwork) (id : String) : String := tap id p.counterBits

def counterSignal (_ : PermutationNetwork) (id : String) : String := s!"{id}rCnt"

/-- The network needs no constants. -/
def constants (_ : PermutationNetwork) (_ : String) : List Declaration := []

/-- A signal in front of each stage, one behind the last, and the counter. -/
def declarations (p : PermutationNetwork) (id : String) : List Declaration :=
  (List.range (p.counterBits + 1)).map (fun i => .signal (tap id i) (.word (.nat p.size))) ++
    [.signal (p.counterSignal id) (.word (.nat p.counterBits))]

/-- One statement per stage, numbered from `i`. -/
def stageStatements (id counter : String) : (i : Nat) → List BitOrder → List Statement
  | _, [] => []
  | i, s :: rest =>
    .choose (tap id (i + 1)) (.select s (tap id i)) counter i (.name (tap id i)) ::
      stageStatements id counter (i + 1) rest

def body (p : PermutationNetwork) (id : String) : List Statement :=
  stageStatements id (p.counterSignal id) 0 p.stages

end PermutationNetwork
end StreamingFft
