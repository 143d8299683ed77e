import StreamingFft.Limits
/-!
Decimal numbers as they are written on a command line.
-/
namespace StreamingFft.Command

/-- The value of a nonempty run of ASCII digits. -/
def digits? (cs : List Char) : Option Nat :=
  if cs.isEmpty || !cs.all Char.isDigit then none
  else some (cs.foldl (fun n c => 10 * n + (c.toNat - '0'.toNat)) 0)

/-- Drops one plus sign. -/
def dropPlus : List Char → List Char
  | '+' :: cs => cs
  | cs => cs

/-- Keeps numbers up to a bound. -/
def atMost (bound n : Nat) : Option Nat :=
  if n ≤ bound then some n else none

/-- A 64-bit word: digits, which a plus sign may precede. -/
def word? (s : String) : Option Nat :=
  digits? (dropPlus s.toList) >>= atMost maxWord

/-- A width of up to 32 bits; it is read as a signed number, so that zero may have a minus sign. -/
def width? (s : String) : Option Nat :=
  match s.toList with
  | '-' :: cs => digits? cs >>= atMost 0
  | cs => digits? (dropPlus cs) >>= atMost (2 ^ 32 - 1)

end StreamingFft.Command
