import StreamingFft.Numeric.PowerOfTwo
/-!
Partial twiddle tables: the first `2 ^ depth` angles of a full turn cut into `modulus` parts.
-/
namespace StreamingFft

/-- A table of `2 ^ depth` consecutive angles; all of them lie in the first quarter turn. -/
structure TwiddleTable where
  depth : Nat
  modulus : Nat
  /-- Samples are scaled so that they fit words of the nominal width. -/
  reduced : Bool
  depth_pos : 1 ≤ depth
  modulus_pos : 0 < modulus
  quarter_dvd : 4 * 2 ^ depth ∣ modulus
deriving DecidableEq

namespace TwiddleTable

/-- Entries of the table. -/
def size (t : TwiddleTable) : Nat := 2 ^ t.depth

/-- A table of `n` entries for a full turn of `modulus` parts. -/
def ofModulus (n modulus : Nat) : Except Fault TwiddleTable := do
  let depth ← exactLog2 n
  if hd : 1 ≤ depth then
    if h : 4 * 2 ^ depth ≤ maxWord ∧ 0 < modulus ∧ 4 * 2 ^ depth ∣ modulus then
      .ok ⟨depth, modulus, false, hd, h.2.1, h.2.2⟩
    else .error (.modulusMismatch n modulus)
  else .error (.tooFewEntries n)

/-- A full turn of `4 * n * n` parts, so that `n` entries split the first quarter turn again. -/
def defaultModulus (n : Nat) : Nat :=
  min maxWord (min maxWord (n * n) * 4)

def ofSize (n : Nat) : Except Fault TwiddleTable :=
  ofModulus n (defaultModulus n)

def withReduced (t : TwiddleTable) (reduced : Bool) : TwiddleTable :=
  { t with reduced }

/-- The entity that holds the table. -/
def entityName (t : TwiddleTable) : String :=
  s!"twiddleGeneratorPartial{t.size}"

theorem four_mul_lt_modulus (t : TwiddleTable) {i : Nat} (h : i < t.size) : 4 * i < t.modulus :=
  Nat.lt_of_lt_of_le (Nat.mul_lt_mul_of_pos_left h (by decide))
    (Nat.le_of_dvd t.modulus_pos t.quarter_dvd)

end TwiddleTable
end StreamingFft
