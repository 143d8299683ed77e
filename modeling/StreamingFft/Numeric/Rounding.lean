import StreamingFft.Numeric.Power
/-!
Exact rounding of natural numbers, and the binary expansion of a double.
-/
namespace StreamingFft.Numeric

/-- The integer nearest to `n / 2 ^ k`; a tie goes to the even neighbour. -/
def shiftNearestEven (n k : Nat) : Nat :=
  let low := n / 2 ^ k
  let rest := n % 2 ^ k * 2
  if rest < 2 ^ k then low
  else if 2 ^ k < rest then low + 1
  else low + low % 2

/-- The nearest number with at most `bits` significant binary digits; a tie goes to the even one. -/
def keepSignificant (bits n : Nat) : Nat :=
  let k := n.log2 + 1 - bits
  shiftNearestEven n k * 2 ^ k

/-- The integer nearest to `n / d`; a half goes up. -/
def divNearestUp (n d : Nat) : Nat :=
  (2 * n + d) / (2 * d)

/-- Significant binary digits of a double. -/
def doubleDigits : Nat := 53

/-- A finite double as `± mantissa * 2 ^ exponent`. -/
structure Expansion where
  negative : Bool
  mantissa : Nat
  exponent : Int
deriving DecidableEq, Repr

/-- Reads the sign bit, the eleven exponent bits and the 52 fraction bits. -/
def Expansion.ofBits (word : Nat) : Expansion :=
  let biased : Nat := word / 2 ^ 52 % 2 ^ 11
  let fraction : Nat := word % 2 ^ 52
  let negative := word / 2 ^ 63 % 2 == 1
  if biased = 0 then ⟨negative, fraction, -1074⟩
  else ⟨negative, 2 ^ 52 + fraction, (biased : Int) - 1075⟩

example : Expansion.ofBits 0x3FF0000000000000 = ⟨false, 2 ^ 52, -52⟩ := by decide

def Expansion.ofFloat (x : Float) : Expansion :=
  .ofBits x.toBits.toNat

/-- Attaches a sign to a magnitude. -/
def withSign (negative : Bool) (magnitude : Nat) : Int :=
  if negative then -(magnitude : Int) else magnitude

/-- The double product of `x` and `scale`, rounded to an integer with halves away from zero. -/
def Expansion.scaled (x : Expansion) (scale : Nat) : Int :=
  let product := keepSignificant doubleDigits (x.mantissa * scale)
  withSign x.negative <|
    match x.exponent with
    | .ofNat e => product * 2 ^ e
    | .negSucc e => divNearestUp product (2 ^ (e + 1))

end StreamingFft.Numeric
