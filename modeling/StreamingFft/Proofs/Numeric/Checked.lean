import StreamingFft.Numeric.PowerOfTwo
/-!
Arithmetic on machine words that notices its failures. An operation gives nothing where its result is no
word or its divisor is zero, so a computation with these operations that gives a result has met neither.
-/
namespace StreamingFft.Checked

/-- A number, if it is a word. -/
def word (n : Nat) : Option Nat := if n ≤ maxWord then some n else none

def add (a b : Nat) : Option Nat := word (a + b)

def mul (a b : Nat) : Option Nat := word (a * b)

def div (a b : Nat) : Option Nat := if b = 0 then none else some (a / b)

def mod (a b : Nat) : Option Nat := if b = 0 then none else some (a % b)

theorem word_of_le {n : Nat} (h : n ≤ maxWord) : word n = some n := if_pos h

theorem div_of_pos {a b : Nat} (h : 0 < b) : div a b = some (a / b) := if_neg (Nat.ne_of_gt h)

theorem mod_of_pos {a b : Nat} (h : 0 < b) : mod a b = some (a % b) := if_neg (Nat.ne_of_gt h)

theorem lt_of_mod_eq_some {a b r : Nat} (h : mod a b = some r) : r < b := by
  unfold mod at h
  split at h
  · cases h
  · next hb =>
    cases h
    exact Nat.mod_lt a (Nat.pos_of_ne_zero hb)

/-- The greatest common divisor by repeated remainders. -/
def gcd (a b : Nat) : Option Nat :=
  if b = 0 then some a
  else
    match _h : mod a b with
    | none => none
    | some r => gcd b r
termination_by b
decreasing_by exact lt_of_mod_eq_some _h

theorem gcd_eq (a b : Nat) : gcd a b = some (Nat.gcd a b) := by
  induction b using Nat.strongRecOn generalizing a with
  | ind b ih =>
    rw [gcd]
    split
    · next hb => rw [hb, Nat.gcd_zero_right]
    · next hb =>
      have hpos := Nat.pos_of_ne_zero hb
      have hrec : Nat.gcd b (a % b) = Nat.gcd a b := by
        rw [Nat.gcd_comm, ← Nat.gcd_rec, Nat.gcd_comm]
      split
      · next hnone => rw [mod_of_pos hpos] at hnone; cases hnone
      · next r hsome =>
        rw [mod_of_pos hpos] at hsome
        cases hsome
        rw [ih _ (Nat.mod_lt a hpos), hrec]

/-- The least power of two that is not below `n`: ones in all places of `n - 1`, and one more. -/
def nextPowerOfTwo (n : Nat) : Option Nat :=
  add (if n ≤ 1 then 0 else 2 ^ ((n - 1).log2 + 1) - 1) 1

theorem nextPowerOfTwo_eq (n : Nat) : nextPowerOfTwo n = word (2 ^ counterBits n) := by
  unfold nextPowerOfTwo counterBits add
  split
  · rfl
  · rw [Nat.sub_add_cancel (Nat.two_pow_pos _)]

/-- A number, if it is a signed word. -/
def signed (v : Int) : Option Int := if -2 ^ 63 ≤ v ∧ v < 2 ^ 63 then some v else none

def addSigned (a b : Int) : Option Int := signed (a + b)

/-- One, shifted to a place of a signed word. -/
def shiftOne (place : Nat) : Option Int := if place < wordBits then signed (2 ^ place) else none

theorem signed_of_range {v : Int} (hlow : -2 ^ 63 ≤ v) (hhigh : v < 2 ^ 63) : signed v = some v :=
  if_pos ⟨hlow, hhigh⟩

end StreamingFft.Checked
