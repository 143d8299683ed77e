import Mathlib.Tactic.Ring
import StreamingFft.Numeric.Rounding
/-!
Rounding never passes a bound that needs no rounding itself: both roundings of a scaled double are
monotone, and they leave the scale as it is.
-/
namespace StreamingFft.Numeric

theorem shiftNearestEven_le {n k bound : Nat} (h : n ≤ bound * 2 ^ k) :
    shiftNearestEven n k ≤ bound := by
  have hlow : n / 2 ^ k ≤ bound := Nat.div_le_of_le_mul (by rwa [Nat.mul_comm])
  have hsum : 2 ^ k * (n / 2 ^ k) + n % 2 ^ k = n := Nat.div_add_mod n (2 ^ k)
  dsimp only [shiftNearestEven]
  rcases Nat.lt_or_eq_of_le hlow with hlt | heq
  · -- one step up still reaches the bound at most
    split
    · exact hlow
    · split <;> omega
  · have hrest : n % 2 ^ k = 0 := by
      rw [heq, Nat.mul_comm] at hsum
      omega
    rw [hrest, Nat.zero_mul, if_pos (Nat.two_pow_pos k)]
    exact hlow

theorem keepSignificant_le {bits n s k : Nat} (hbits : 1 ≤ bits) (hs : s < 2 ^ bits)
    (h : n ≤ s * 2 ^ k) : keepSignificant bits n ≤ s * 2 ^ k := by
  have hlt : n < 2 ^ (bits + k) := by
    rw [Nat.pow_add]
    exact Nat.lt_of_le_of_lt h (Nat.mul_lt_mul_of_pos_right hs (Nat.two_pow_pos k))
  -- no more digits are dropped than the bound has zeros at its end
  have hshift : n.log2 + 1 - bits ≤ k := by
    by_cases hn : n = 0
    · have hlog : n.log2 = 0 := by rw [hn, Nat.log2_zero]
      omega
    · have hlog := (Nat.log2_lt hn).2 hlt
      omega
  have hbound : s * 2 ^ k = s * 2 ^ (k - (n.log2 + 1 - bits)) * 2 ^ (n.log2 + 1 - bits) := by
    rw [Nat.mul_assoc, ← Nat.pow_add, Nat.sub_add_cancel hshift]
  rw [hbound] at h ⊢
  exact Nat.mul_le_mul_right _ (shiftNearestEven_le h)

theorem divNearestUp_le {n d s : Nat} (hd : 0 < d) (h : n ≤ s * d) : divNearestUp n d ≤ s := by
  apply Nat.le_of_lt_succ
  rw [divNearestUp, Nat.div_lt_iff_lt_mul (Nat.mul_pos Nat.two_pos hd)]
  calc 2 * n + d ≤ 2 * (s * d) + d := by omega
    _ < 2 * (s * d) + 2 * d := by omega
    _ = (s + 1) * (2 * d) := by ring

theorem natAbs_withSign (negative : Bool) (m : Nat) : (withSign negative m).natAbs = m := by
  cases negative with
  | false => rfl
  | true => exact Int.natAbs_neg m

namespace Expansion

/-- The magnitude is one or less. -/
def AtMostOne (x : Expansion) : Prop :=
  x.mantissa * 2 ^ x.exponent.toNat ≤ 2 ^ (-x.exponent).toNat

instance (x : Expansion) : Decidable x.AtMostOne :=
  inferInstanceAs (Decidable (_ ≤ _))

/-- A double of magnitude one or less stays within the scale, rounded twice as it is. -/
theorem natAbs_scaled_le {x : Expansion} (hx : x.AtMostOne) {s : Nat} (hs : s < 2 ^ doubleDigits) :
    (x.scaled s).natAbs ≤ s := by
  obtain ⟨negative, m, e⟩ := x
  unfold scaled
  rw [natAbs_withSign]
  cases e with
  | ofNat e =>
    have hone : m * 2 ^ e ≤ 1 := by simpa [AtMostOne] using hx
    have hm : m ≤ 1 := Nat.le_trans (Nat.le_mul_of_pos_right m (Nat.two_pow_pos e)) hone
    have hfits : m * s < 2 ^ doubleDigits :=
      Nat.lt_of_le_of_lt (mul_le_of_le_one_left (Nat.zero_le s) hm) hs
    have hproduct : keepSignificant doubleDigits (m * s) ≤ m * s * 2 ^ 0 :=
      keepSignificant_le (by decide) hfits (Nat.le_of_eq (Nat.mul_one _).symm)
    rw [Nat.pow_zero, Nat.mul_one] at hproduct
    calc keepSignificant doubleDigits (m * s) * 2 ^ e
        ≤ m * s * 2 ^ e := Nat.mul_le_mul_right _ hproduct
      _ = m * 2 ^ e * s := by ring
      _ ≤ s := mul_le_of_le_one_left (Nat.zero_le s) hone
  | negSucc e =>
    have hone : m ≤ 2 ^ (e + 1) := by simpa [AtMostOne] using hx
    have hproduct : m * s ≤ s * 2 ^ (e + 1) := by
      rw [Nat.mul_comm m]
      exact Nat.mul_le_mul_left s hone
    exact divNearestUp_le (Nat.two_pow_pos _) (keepSignificant_le (by decide) hs hproduct)

end Expansion
end StreamingFft.Numeric
