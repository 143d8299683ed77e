import StreamingFft.TwiddleTable.Basic
import StreamingFft.TwiddleTable.Width
import StreamingFft.Numeric.Rounding
import StreamingFft.Trig.Circle
/-!
Quantized twiddle factors and the words that store them.
-/
namespace StreamingFft

/-- A point of the circle, scaled and rounded. -/
structure Sample where
  re : Int
  im : Int
deriving DecidableEq, Repr

/-- A machine word for `v`: negative numbers are raised by `2 ^ bits`. -/
def twosComplement (v : Int) (bits : Nat) : Nat :=
  ((if v < 0 then v + 2 ^ bits else v) % 2 ^ 64).toNat

/-- The binary digits of `n`, most significant first, with zeros in front up to `width` digits. -/
def paddedBinary (width n : Nat) : List Char :=
  (Nat.toDigits 2 n).leftpad width '0'

/-- Cosine and sine of an angle as doubles. -/
structure CirclePoint where
  cos : Numeric.Expansion
  sin : Numeric.Expansion
deriving DecidableEq, Repr

/-- A table with the points of the circle that it is sampled from, one for each angle. -/
structure SampledTable extends TwiddleTable where
  point : (i : Nat) → CirclePoint

namespace TwiddleTable

/-- The value that stands for one. -/
def scale (t : TwiddleTable) (w : WordWidth) : Nat :=
  if t.reduced then 2 ^ (w.bits - 1) - 1 else 2 ^ (w.bits - 1)

/-- Bits of one component; full scale needs one more than the nominal width. -/
def wordBits (t : TwiddleTable) (w : WordWidth) : Nat :=
  if t.reduced then w.bits else w.bits + 1

end TwiddleTable

namespace SampledTable

/-- The `i`-th twiddle factor, with halves rounded away from zero. -/
def sample (t : SampledTable) (i : Nat) (w : WordWidth) : Sample where
  re := (t.point i).cos.scaled (t.scale w)
  im := (t.point i).sin.scaled (t.scale w)

/-- Real and imaginary part in two's complement. -/
def encode (t : SampledTable) (i : Nat) (w : WordWidth) : Nat × Nat :=
  let s := t.sample i w
  (twosComplement s.re (t.wordBits w), twosComplement s.im (t.wordBits w))

/-- The stored word: imaginary digits, then real digits. -/
def word (t : SampledTable) (i : Nat) (w : WordWidth) : String :=
  let (re, im) := t.encode i w
  String.ofList (paddedBinary (t.wordBits w) im ++ paddedBinary (t.wordBits w) re)

/-- All words of the table in order of their address. -/
def words (t : SampledTable) (w : WordWidth) : List String :=
  (List.range t.size).map fun i => t.word i w

end SampledTable

namespace TwiddleTable

private def pi : Float := .ofBits 0x400921FB54442D18

/-- The `i`-th angle in radians; the turn is divided before it is scaled. -/
def angle (t : TwiddleTable) (i : Nat) : Float :=
  Float.ofNat i / Float.ofNat t.modulus * (2.0 * pi)

/-- The `i`-th point of the circle. -/
def point (t : TwiddleTable) (i : Nat) : CirclePoint :=
  let angle := t.angle i
  { cos := .ofFloat (Trig.cos angle), sin := .ofFloat (Trig.sin angle) }

/-- The table with the points that are computed for it. -/
def sampled (t : TwiddleTable) : SampledTable :=
  { t with point := t.point }

def sample (t : TwiddleTable) (i : Nat) (w : WordWidth) : Sample := t.sampled.sample i w

def encode (t : TwiddleTable) (i : Nat) (w : WordWidth) : Nat × Nat := t.sampled.encode i w

def word (t : TwiddleTable) (i : Nat) (w : WordWidth) : String := t.sampled.word i w

def words (t : TwiddleTable) (w : WordWidth) : List String := t.sampled.words w

end TwiddleTable
end StreamingFft
