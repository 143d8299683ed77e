import StreamingFft.Limits
import StreamingFft.Text.Layout
/-!
Records of what has been built and written.
-/
namespace StreamingFft

inductive Level where
  | warn
  | info
  | debug
deriving DecidableEq, Repr

namespace Level

def text : Level → String
  | warn => "WARN"
  | info => "INFO"
  | debug => "DEBUG"

/-- How much is recorded after `count` requests for more. -/
def ofVerbosity : (count : Nat) → Level
  | 0 => warn
  | 1 => info
  | _ => debug

/-- Rarer records have lower ranks. -/
def rank : Level → Nat
  | warn => 0
  | info => 1
  | debug => 2

end Level

inductive Event where
  | fourStepBuilt (size size1 size2 : Nat) (buffered : Bool)
  | radix4Built (size size1 : Nat) (buffered : Bool)
  | fourStepWritten (name : String) (size delay : Nat)
  | radix4Written (name : String) (size delay : Nat)
  /-- All entities of a tree have been written. -/
  | treeWritten (count : Nat) (name : String)
  | tableAccepted (name : String) (size modulus : Nat) (widths : List Nat)
  | tableWritten (name : String) (variants : Nat)
deriving DecidableEq, Repr

namespace Event

def level : Event → Level
  | tableAccepted .. => .info
  | _ => .debug

def message : Event → String
  | fourStepBuilt size size1 size2 buffered =>
    s!"four-step {size} = {size1} x {size2}" ++ (if buffered then ", reordering sub2 input" else "")
  | radix4Built size size1 buffered =>
    s!"spdf {size} = 4 x {size1}" ++ (if buffered then ", reordering sub1 input" else "")
  | fourStepWritten name size delay =>
    s!"emitting four-step entity {name} (N={size}, delay={delay})"
  | radix4Written name size delay => s!"emitting spdf entity {name} (N={size}, delay={delay})"
  | treeWritten count name => s!"generated {count} entities for {name}"
  | tableAccepted name size modulus widths =>
    s!"{name}: {size} entries, modulus {modulus}, widths {Text.natList widths}"
  | tableWritten name variants => s!"emitted {name} with {variants} width variant(s)"

/-- Whether a word can hold the latency that the record states, if it states one. -/
def isTimed : Event → Bool
  | fourStepWritten _ _ delay => decide (delay ≤ maxWord)
  | radix4Written _ _ delay => decide (delay ≤ maxWord)
  | _ => true

/-- Level and message. -/
def text (e : Event) : String := s!"{e.level.text} {e.message}"

end Event
end StreamingFft
