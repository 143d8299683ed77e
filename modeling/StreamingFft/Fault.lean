import StreamingFft.Limits
import StreamingFft.Text.Layout
/-!
Reasons for refusing a bit order, a core or a twiddle table, and the sentence that reports each.
Sizes and latencies are words; a result that is none is a fault of its own kind.
-/
namespace StreamingFft

/-- What may turn out too large to be represented. -/
inductive Quantity where
  | latency
  | period
  /-- The bits of an address. -/
  | address
  /-- The entries of an order. -/
  | order
  | indentation
deriving DecidableEq, Repr

def Quantity.text : Quantity → String
  | latency => "latency"
  | period => "period"
  | address => "address"
  | order => "bit order"
  | indentation => "indentation"

inductive Fault where
  /-- A size is zero or no power of two. -/
  | noPowerOfTwo (size : Nat)
  /-- A leaf needs one entry per address bit. -/
  | orderLength (expected actual : Nat)
  | notPermutation (bits : List Nat)
  /-- The factors of a composite multiply to `product`, not to `size`. -/
  | factorMismatch (size product : Nat)
  | tooFewEntries (size : Nat)
  | noWidths
  | repeatedWidth (width : Nat)
  | widthOutOfRange (width : Nat)
  /-- The modulus is no positive multiple of four times the table size. -/
  | modulusMismatch (size modulus : Nat)
  | badEntityName (name : String)
  /-- Only orders of one size can follow each other. -/
  | sizesDiffer (first second : Nat)
  | overflow (what : Quantity)
deriving DecidableEq, Repr

namespace Fault

def message : Fault → String
  | noPowerOfTwo size => s!"size {size} is not a positive power of two"
  | orderLength expected actual =>
    s!"bit order has {actual} entries but the node needs {expected}"
  | notPermutation bits =>
    s!"bit order {Text.natList bits} is not a permutation of 0..{bits.length}"
  | factorMismatch size product =>
    s!"composite size {size} does not match the product of its factors ({product})"
  | tooFewEntries size => s!"twiddle table size {size} is below the minimum of 2"
  | noWidths => "at least one twiddle width is required"
  | repeatedWidth width => s!"twiddle width {width} was requested more than once"
  | widthOutOfRange width =>
    s!"twiddle width {width} is outside {narrowestWord}..={widestWord}"
  | modulusMismatch size modulus =>
    s!"twiddle modulus {modulus} is not a positive multiple of 4 * {size}"
  | badEntityName name => s!"'{name}' is not a valid VHDL entity name"
  | sizesDiffer first second => s!"bit orders of sizes {first} and {second} cannot be combined"
  | overflow what => s!"{what.text} is too large"

end Fault

section
variable {ε α β : Type} {f : α → β} {x : Except ε α}

theorem map_eq_ok_iff {b : β} : x.map f = .ok b ↔ ∃ a, x = .ok a ∧ f a = b := by
  cases x <;> simp [Except.map]

theorem map_eq_error_iff {e : ε} : x.map f = .error e ↔ x = .error e := by
  cases x <;> simp [Except.map]

/-- A result behind a check is there when the check passes. -/
theorem ite_eq_ok_iff {p : Prop} [Decidable p] {e : ε} {a : α} :
    (if p then x else .error e) = .ok a ↔ p ∧ x = .ok a := by
  by_cases hp : p <;> simp [hp]

end
end StreamingFft
