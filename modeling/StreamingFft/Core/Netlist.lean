import StreamingFft.Core.Basic
/-!
Constants, signals and statements of a composite's architecture. Every name of its own starts with
`id`; the signals of a sub-core start with the name under which it is instantiated.
-/
namespace StreamingFft.Core
open Vhdl

/-- Sizes and latencies as constants. -/
def constants (c : Core) (id : String) : List Declaration :=
  match c.stage? with
  | none => []
  | some s =>
    Declaration.constants id
      [("N", .nat s.size), ("twiddleBits", .verbatim s.twiddleWidth.text),
        ("twiddleDelay", .nat s.twiddleSource.delay), ("order", .nat s.order),
        ("delay", .nat c.delay)] ++
      match s.buffer with
      | none => []
      | some b => b.network.constants id

/-- The type of a composite's phase signals. -/
def phaseType (id : String) : SignalType := .word (.name (id ++ "order"))

/-- Signals between address generator, twiddle generator and multiplier. -/
def twiddleSignals (id : String) : List Declaration := [
  .signal (id ++ "twAddr") (phaseType id),
  .signal (id ++ "twData") .complex,
  .blank,
  .signal (id ++ "romAddr") (.unsigned (.sub (.name (id ++ "order")) (.nat 4))),
  .signal (id ++ "romData")
    (.logicVector (.sub (.mul (.name (id ++ "twiddleBits")) (.nat 2)) (.nat 3)))]

/-- Signals of the buffer, if there is one. -/
def bufferSignals (s : Stage) (id : String) (subOrder : Nat) : List Declaration :=
  match s.buffer with
  | none => []
  | some b => b.declarations id subOrder

def declarations (c : Core) (id : String) : List Declaration :=
  match c with
  | leaf _ => []
  | fourStep s sub1 sub2 =>
    [.blank,
      .signals " " [id ++ "ph1", id ++ "ph2", id ++ "ph3"] (phaseType id),
      .signals " " [id ++ "rbIn", id ++ "transpOut"] .complex,
      .signals "" [id ++ "bitPermIn", id ++ "bitPermOut"] (.word (.nat sub1.order)),
      .blank,
      .comment "twiddle generator"] ++
      twiddleSignals id ++ bufferSignals s id sub2.order
  | radix4 s _ sub1 =>
    [.blank,
      .signals " " [id ++ "rbIn", id ++ "spdfOut"] .complex,
      .signals " " [id ++ "ph1", id ++ "ph2"] (phaseType id),
      .blank,
      .comment "twiddle generator",
      .signals "" [id ++ "bitPermIn", id ++ "bitPermOut"] (.unsigned (.nat 1))] ++
      twiddleSignals id ++ bufferSignals s id sub1.order

/-- The phase of a stage's output: late by its latency, one cycle of which is the register. -/
def delayedPhase (target source : String) (delay : Nat) : Statement :=
  .register target (.add (.sub (.name source) (.nat delay)) (.nat 1))

/-- The instance that counts twiddle addresses for factors of `2 ^ order1` and `2 ^ order2`. -/
def addressGenerator (id : String) (order1 order2 : Nat) (phase : String) : Instance where
  label := id ++ "twAG"
  entity := "twiddleAddrGen"
  genericGap := .line 1
  generics := [.line 2 "subOrder1" (.nat order1), .line 2 "subOrder2" (.nat order2),
    .line 2 "twiddleDelay" (.name (id ++ "twiddleDelay")),
    .line 2 "customSubOrder" (.flag true)]
  portGap := .line 1
  ports := [.line 2 "clk" (.name "clk"), .line 2 "phase" (.name phase),
    .line 2 "twAddr" (.name (id ++ "twAddr")), .line 2 "bitPermIn" (.name (id ++ "bitPermIn")),
    .line 2 "bitPermOut" (.name (id ++ "bitPermOut"))]

/-- The multiplication of `data` by the twiddle factor. -/
def twiddleMultiplier (id : String) (m : Multiplier) (data result : String) : Instance where
  label := id ++ "twMult"
  entity := m.entity
  genericGap := .line 1
  generics := [.first "in1Bits" (.add (.name (id ++ "twiddleBits")) (.nat 1)),
    .line 4 "in2Bits" (.name "dataBits"), .line 4 "outBits" (.name "dataBits")]
  portGap := .line 1
  ports := [.first "clk" (.name "clk"), .next "in1" (.name (id ++ "twData")),
    .next "in2" (.name data), .next "out1" (.name result)]

/-- Where products go: to the sub-core, or to the buffer in front of it. -/
def productSignal (s : Stage) (id sub : String) : String :=
  match s.buffer with
  | none => sub ++ "din"
  | some _ => id ++ "rbIn"

/-- The phase that goes with the products. -/
def productPhase (s : Stage) (id sub : String) : String :=
  match s.buffer with
  | none => sub ++ "phase"
  | some _ => id ++ "rbInPhase"

/-- Statements of the buffer, if there is one. -/
def bufferBody (s : Stage) (id sub : String) (subOrder : Nat) : List Statement :=
  match s.buffer with
  | none => []
  | some b => b.body id sub subOrder

/-- The transposer between the sub-cores. -/
def transposer (id source : String) (order1 order2 : Nat) : Instance where
  label := id ++ "transp"
  entity := "transposer"
  genericGap := .line 1
  generics := [.first "N1" (.nat order2), .next "N2" (.nat order1),
    .next "dataBits" (.name "dataBits")]
  portGap := .line 1
  ports := [.first "clk" (.name "clk"), .next "din" (.name (source ++ "dout")),
    .next "phase" (.name (id ++ "ph1")), .next "dout" (.name (id ++ "transpOut"))]

/-- The radix-4 stage of a composite of `2 ^ order` points. -/
def radix4Instance (id : String) (order : Nat) : Instance where
  label := id ++ "spdfStage"
  entity := radix4Entity
  genericGap := .line 1
  generics := [.first "N" (.nat order), .next "dataBits" (.name "dataBits")]
  portGap := .line 1
  ports := [.first "clk" (.name "clk"), .next "din" (.name (id ++ "din")),
    .next "phase" (.name (id ++ "phase")), .next "dout" (.name (id ++ "spdfOut"))]

/-- Statements of a four-step core, its sub-cores aside. -/
def fourStepBody (s : Stage) (sub1 sub2 : Core) (id id1 id2 : String) : List Statement :=
  [.blank,
    .assign (id1 ++ "din") (.name (id ++ "din")),
    .assign (id1 ++ "phase") (.low (id ++ "phase") sub1.order),
    .blank,
    delayedPhase (id ++ "ph1") (id ++ "phase") sub1.delay,
    .blank,
    .instantiate (transposer id id1 sub1.order sub2.order),
    .blank,
    .assign (id ++ "ph2") (.name (id ++ "ph1")),
    .blank,
    .instantiate (addressGenerator id sub1.order sub2.order (id ++ "ph2")),
    .blank,
    .instantiate (twiddleMultiplier id s.multiplier (id ++ "transpOut") (productSignal s id id2)),
    .blank,
    delayedPhase (id ++ "ph3") (id ++ "ph2") s.multiplier.delay,
    .assign (productPhase s id id2) (.low (id ++ "ph3") sub2.order),
    .assign (id ++ "dout") (.name (id2 ++ "dout")),
    .assign (id ++ "bitPermOut") (.select sub1.outputOrder (id ++ "bitPermIn"))] ++
    s.twiddleSource.body id s.size ++ bufferBody s id id2 sub2.order

/-- Statements of a radix-4 composite, its sub-core aside. -/
def radix4Body (s : Stage) (stageDelay : Nat) (sub1 : Core) (id id1 : String) : List Statement :=
  [.blank,
    .instantiate (radix4Instance id s.order),
    .blank,
    delayedPhase (id ++ "ph1") (id ++ "phase") stageDelay,
    .blank,
    .instantiate (addressGenerator id 2 sub1.order (id ++ "ph1")),
    .blank,
    .instantiate (twiddleMultiplier id s.multiplier (id ++ "spdfOut") (productSignal s id id1)),
    .blank,
    delayedPhase (id ++ "ph2") (id ++ "ph1") s.multiplier.delay,
    .assign (productPhase s id id1) (.low (id ++ "ph2") sub1.order),
    .blank,
    .assign (id ++ "dout") (.name (id1 ++ "dout")),
    .blank,
    .assign (id ++ "bitPermOut") (.select (.reversed 2) (id ++ "bitPermIn"))] ++
    s.twiddleSource.body id s.size ++ bufferBody s id id1 sub1.order

/-- Statements of a composite whose sub-cores go by `id1` and `id2`. -/
def body (c : Core) (id id1 id2 : String) : List Statement :=
  match c with
  | leaf _ => []
  | fourStep s sub1 sub2 => fourStepBody s sub1 sub2 id id1 id2
  | radix4 s d sub1 => radix4Body s d sub1 id id1

/-- The instance of a sub-core: a leaf under its own entity, a composite under the given one. -/
def instanceAt (c : Core) (id entity : String) : Instance :=
  match c with
  | leaf l => l.instanceAt id
  | _ => generatedInstance id entity

end StreamingFft.Core
