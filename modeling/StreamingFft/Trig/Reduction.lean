import StreamingFft.Numeric.Rounding
/-!
Reduction of a nonnegative angle to the nearest multiple of a quarter turn. The remainder comes as
a head and a tail, so that its error stays far below that of one double.
-/
namespace StreamingFft.Trig
open Numeric

/-- An angle as `quadrant` quarter turns plus `head + tail`. -/
structure Reduced where
  quadrant : Nat
  head : Float
  tail : Float

/-- Sign, exponent and leading fraction bits: enough to compare magnitudes. -/
def leading (x : Float) : Nat :=
  x.toBits.toNat / 2 ^ 32

/-- The biased exponent. -/
def biasedExponent (x : Float) : Nat :=
  leading x / 2 ^ 20 % 2 ^ 11

private def inverseQuarter : Float := .ofBits 0x3FE45F306DC9C883
private def quarter1 : Float := .ofBits 0x3FF921FB54400000
private def quarter1Tail : Float := .ofBits 0x3DD0B4611A626331
private def quarter2 : Float := .ofBits 0x3DD0B4611A600000
private def quarter2Tail : Float := .ofBits 0x3BA3198A2E037073
private def quarter3 : Float := .ofBits 0x3BA3198A2E000000
private def quarter3Tail : Float := .ofBits 0x397B839A252049C1

/-- Adding and subtracting this rounds a smaller number to an integer. -/
private def roundingShift : Float := 6755399441055744.0

/-- Subtracts `k` quarter turns from an angle that lies close to them. -/
def subtractQuarters (x : Float) (k : Nat) : Reduced :=
  let turns := Float.ofNat k
  let z := x - turns * quarter1
  let head := z - turns * quarter1Tail
  ⟨k, head, (z - head) - turns * quarter1Tail⟩

/-- Cody-Waite reduction: a quarter turn is split in three, and the later parts are used only when
the earlier ones cancel too many digits of `x`. -/
def reduceMedium (x : Float) : Reduced :=
  let turns := x * inverseQuarter + roundingShift - roundingShift
  let r := x - turns * quarter1
  let w := turns * quarter1Tail
  let finish (r w : Float) : Reduced := ⟨turns.toUInt64.toNat, r - w, (r - (r - w)) - w⟩
  if biasedExponent x ≤ biasedExponent (r - w) + 16 then finish r w
  else
    let p := turns * quarter2
    let r' := r - p
    let w' := turns * quarter2Tail - ((r - r') - p)
    if biasedExponent x ≤ biasedExponent (r' - w') + 49 then finish r' w'
    else
      let q := turns * quarter3
      let r'' := r' - q
      finish r'' (turns * quarter3Tail - ((r' - r'') - q))

/-- `2 / π`, scaled by `2 ^ 256`. -/
private def inverseQuarterScaled : Nat :=
  0xa2f9836e4e441529fc2757d1f534ddc0db6295993c439041fe5163abdebbc561

/-- `π / 2`, scaled by `2 ^ 256`. -/
private def quarterScaled : Nat :=
  0x1921fb54442d18469898cc51701b839a252049c1114cf98e804177d4c76273644

/-- Reduction in integer arithmetic, for angles so large that products of doubles lose digits. -/
def reduceLarge (x : Float) : Reduced :=
  let e := Expansion.ofFloat x
  let scale := (256 - e.exponent).toNat
  let turns := e.mantissa * inverseQuarterScaled
  let whole := divNearestUp turns (2 ^ scale)
  let rest : Int := turns - whole * 2 ^ scale
  let angle := rest.natAbs * quarterScaled
  let head := keepSignificant doubleDigits angle
  let tail : Int := angle - head
  let toFloat (negative : Bool) (n : Nat) : Float :=
    let v := (Float.ofNat n).scaleB (-(scale + 256 : Nat))
    if negative then -v else v
  ⟨whole, toFloat (rest < 0) head, toFloat ((rest < 0) != (tail < 0)) tail.natAbs⟩

/-- Reduces a nonnegative angle. Near small multiples of a quarter turn one subtraction is exact
enough, unless the leading bits are those of the multiple itself. -/
def reduce (x : Float) : Reduced :=
  let top := leading x
  if top ≤ 0x400f6a7a then
    if top % 2 ^ 20 = 0x921fb then reduceMedium x
    else if top ≤ 0x4002d97c then subtractQuarters x 1
    else subtractQuarters x 2
  else if top ≤ 0x401c463b then
    if top ≤ 0x4015fdbc then
      if top = 0x4012d97c then reduceMedium x else subtractQuarters x 3
    else if top = 0x401921fb then reduceMedium x
    else subtractQuarters x 4
  else if top < 0x413921fb then reduceMedium x
  else reduceLarge x

end StreamingFft.Trig
