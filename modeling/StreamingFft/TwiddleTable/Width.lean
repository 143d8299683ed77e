import StreamingFft.Fault
/-!
Admissible widths of twiddle words, and lists of them.
-/
namespace StreamingFft

/-- The nominal width of a twiddle word. -/
structure WordWidth where
  bits : Nat
  narrowest_le : narrowestWord ≤ bits
  le_widest : bits ≤ widestWord
deriving DecidableEq

namespace WordWidth

def ofNat (w : Nat) : Except Fault WordWidth :=
  if h : narrowestWord ≤ w ∧ w ≤ widestWord then .ok ⟨w, h.1, h.2⟩
  else .error (.widthOutOfRange w)

/-- Checks widths from left to right; `earlier` are those already accepted. -/
def collect (earlier : List Nat) : List Nat → Except Fault (List WordWidth)
  | [] => .ok []
  | w :: rest => do
    let width ← ofNat w
    if w ∈ earlier then .error (.repeatedWidth w)
    else (collect (w :: earlier) rest).map (width :: ·)

/-- A request names at least one width, and none twice. -/
def ofList (ws : List Nat) : Except Fault (List WordWidth) :=
  if ws.isEmpty then .error .noWidths else collect [] ws

end WordWidth
end StreamingFft
