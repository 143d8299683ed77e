/-!
Sine and cosine of `x + y` for `|x|` at most a quarter turn's half, `y` being the tail of `x`:
minimax polynomials of odd degree 13 and even degree 14.
-/
namespace StreamingFft.Trig

private def s1 : Float := .ofBits 0xBFC5555555555549
private def s2 : Float := .ofBits 0x3F8111111110F8A6
private def s3 : Float := .ofBits 0xBF2A01A019C161D5
private def s4 : Float := .ofBits 0x3EC71DE357B1FE7D
private def s5 : Float := .ofBits 0xBE5AE5E68A2B9CEB
private def s6 : Float := .ofBits 0x3DE5D93A5ACFD57C

private def c1 : Float := .ofBits 0x3FA555555555554C
private def c2 : Float := .ofBits 0xBF56C16C16C15177
private def c3 : Float := .ofBits 0x3EFA01A019CB1590
private def c4 : Float := .ofBits 0xBE927E4F809C52AD
private def c5 : Float := .ofBits 0x3E21EE9EBDB4B1C4
private def c6 : Float := .ofBits 0xBDA8FAE9BE8838D4

/-- The common part of the two sine forms: `z = x²` and the tail of the polynomial from `x⁵` on. -/
private def sineTail (z w : Float) : Float :=
  s2 + z * (s3 + z * s4) + z * w * (s5 + z * s6)

/-- Sine near zero, with no tail to add. -/
def sineSmall (x : Float) : Float :=
  let z := x * x
  let w := z * z
  let v := z * x
  x + v * (s1 + z * sineTail z w)

/-- Sine near zero of `x + y`. -/
def sine (x y : Float) : Float :=
  let z := x * x
  let w := z * z
  let v := z * x
  x - ((z * (0.5 * y - v * sineTail z w) - y) - v * s1)

/-- Cosine near zero of `x + y`; the rounding error of `1 - x²/2` is added back. -/
def cosine (x y : Float) : Float :=
  let z := x * x
  let w := z * z
  let r := z * (c1 + z * (c2 + z * c3)) + w * w * (c4 + z * (c5 + z * c6))
  let half := 0.5 * z
  let top := 1.0 - half
  top + (((1.0 - top) - half) + (z * r - x * y))

end StreamingFft.Trig
