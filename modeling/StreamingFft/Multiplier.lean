/-!
Complex multipliers: opaque entities with a fixed latency.
-/
namespace StreamingFft

structure Multiplier where
  entity : String
  /-- Clock cycles from operands to product. -/
  delay : Nat
deriving DecidableEq, Repr

namespace Multiplier

/-- The multiplier of a core that asks for no other. -/
def standard : Multiplier := ⟨"complexMultiply2", 6⟩

/-- A multiplier for wide twiddles. -/
def wide : Multiplier := ⟨"dsp48e1_complexMultiply", 9⟩

/-- The text that builds the multiplier again. -/
def configuration (m : Multiplier) : String :=
  s!"Multiplier(\"{m.entity}\", {m.delay})"

def description (m : Multiplier) : String :=
  s!"'{m.entity}', delay={m.delay}"

end Multiplier
end StreamingFft
