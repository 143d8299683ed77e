import StreamingFft.Trig.Kernel
import StreamingFft.Trig.Reduction
/-!
Cosine and sine of a nonnegative angle.
-/
namespace StreamingFft.Trig

/-- Leading bits of an eighth of a turn, below which no reduction is needed. -/
private def eighthLeading : Nat := 0x3fe921fb

/-- Cosine of a nonnegative angle. -/
def cos (x : Float) : Float :=
  if leading x ≤ eighthLeading then
    if leading x < 0x3e46a09e then 1.0 else cosine x 0.0
  else
    let r := reduce x
    match r.quadrant % 4 with
    | 0 => cosine r.head r.tail
    | 1 => -sine r.head r.tail
    | 2 => -cosine r.head r.tail
    | _ => sine r.head r.tail

/-- Sine of a nonnegative angle. -/
def sin (x : Float) : Float :=
  if leading x ≤ eighthLeading then
    if leading x < 0x3e500000 then x else sineSmall x
  else
    let r := reduce x
    match r.quadrant % 4 with
    | 0 => sine r.head r.tail
    | 1 => cosine r.head r.tail
    | 2 => -sine r.head r.tail
    | _ => -cosine r.head r.tail

end StreamingFft.Trig
