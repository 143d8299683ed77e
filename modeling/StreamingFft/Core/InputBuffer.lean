import StreamingFft.PermutationNetwork
/-!
The buffer in front of a sub-core that does not take its samples in natural order.
-/
namespace StreamingFft
open Vhdl

structure InputBuffer where
  network : PermutationNetwork
  /-- Cycles from a sample's arrival to its departure. -/
  delay : Nat
deriving DecidableEq

namespace InputBuffer

/-- Latency of the buffer beyond one frame. -/
def additiveDelay : Nat := 0

/-- No buffer is needed in front of a core of size `n` that takes natural order. -/
def ofInput (order : BitOrder) (n : Nat) : Option InputBuffer :=
  if order.isNatural then none
  else some ⟨.ofOrder order, n + additiveDelay⟩

def declarations (b : InputBuffer) (id : String) (subOrder : Nat) : List Declaration :=
  b.network.declarations id ++ [.signal (id ++ "rbInPhase") (.word (.nat subOrder))]

/-- The buffer, with the network on its address ports. -/
def inst (b : InputBuffer) (id sub : String) (subOrder : Nat) : Instance where
  label := id ++ "rb"
  entity := "reorderBuffer"
  genericGap := .line 1
  generics := [.first "N" (.nat subOrder), .next "dataBits" (.name "dataBits"),
    .next "repPeriod" (.nat b.network.period), .next "bitPermDelay" (.nat b.network.delay),
    .next "dataPathDelay" (.nat additiveDelay)]
  portGap := .line 1
  ports := [.positional .none (.name "clk"), .next "din" (.name (id ++ "rbIn")),
    .next "phase" (.name (id ++ "rbInPhase")), .next "dout" (.name (sub ++ "din")),
    .line 2 "bitPermIn" (.name (b.network.inputSignal id)),
    .next "bitPermCount" (.name (b.network.counterSignal id)),
    .next "bitPermOut" (.name (b.network.outputSignal id))]

/-- Network, then buffer; the sub-core's phase follows the buffer's. -/
def body (b : InputBuffer) (id sub : String) (subOrder : Nat) : List Statement :=
  b.network.body id ++
    [.blank, .instantiate (b.inst id sub subOrder), .blank,
      .assign (sub ++ "phase") (.sub (.name (id ++ "rbInPhase")) (.nat additiveDelay))]

end InputBuffer
end StreamingFft
