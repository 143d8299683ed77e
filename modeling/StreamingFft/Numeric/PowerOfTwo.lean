import StreamingFft.Fault
/-!
Exact logarithms of powers of two, and the width of a counter.
-/
namespace StreamingFft

/-- The exponent `k` with `2 ^ k = n`, or a fault when there is none. -/
def exactLog2 (n : Nat) : Except Fault Nat :=
  if 2 ^ n.log2 = n then .ok n.log2 else .error (.noPowerOfTwo n)

/-- The least `k` with `n ≤ 2 ^ k`: the bits of a counter that runs through `n` states. -/
def counterBits (n : Nat) : Nat :=
  if n ≤ 1 then 0 else (n - 1).log2 + 1

theorem exactLog2_eq_ok_iff {n k : Nat} : exactLog2 n = .ok k ↔ 2 ^ k = n := by
  unfold exactLog2
  constructor
  · intro h
    split at h
    · next hn => cases h; exact hn
    · cases h
  · rintro rfl
    simp [Nat.log2_two_pow]

theorem exactLog2_two_pow (k : Nat) : exactLog2 (2 ^ k) = .ok k :=
  exactLog2_eq_ok_iff.2 rfl

theorem exactLog2_eq_error {n : Nat} (h : ∀ k, n ≠ 2 ^ k) :
    exactLog2 n = .error (.noPowerOfTwo n) :=
  if_neg fun hn => h _ hn.symm

end StreamingFft
