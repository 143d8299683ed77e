import StreamingFft.Proofs.Numeric.Rounding
import StreamingFft.TwiddleTable.Sample
/-!
The width of stored words. A table is sampled from points of the circle; where none of them has a
coordinate beyond one, every sample fits its word and no word is longer than the memory is wide.
-/
namespace StreamingFft
open Numeric

theorem twosComplement_lt {v : Int} {bits : Nat} (hv : v.natAbs < 2 ^ bits) :
    twosComplement v bits < 2 ^ bits := by
  have hbound : (v.natAbs : Int) < 2 ^ bits := by exact_mod_cast hv
  unfold twosComplement
  generalize hraised : (if v < 0 then v + 2 ^ bits else v) = raised
  have hrange : 0 ≤ raised ∧ raised < 2 ^ bits := by
    rw [← hraised]
    split <;> omega
  have hmod : raised % 2 ^ 64 ≤ raised := by omega
  rw [Int.toNat_lt (Int.emod_nonneg _ (by decide))]
  exact_mod_cast Int.lt_of_le_of_lt hmod hrange.2

/-- A text of zeros and ones. -/
def IsBinary (s : List Char) : Prop := ∀ c ∈ s, c = '0' ∨ c = '1'

theorem isBinary_toDigits (n : Nat) : IsBinary (Nat.toDigits 2 n) := by
  induction n using Nat.strongRecOn with
  | ind n ih =>
    have hdigit : ∀ b < 2, Nat.digitChar b = '0' ∨ Nat.digitChar b = '1' := by decide
    by_cases hn : n < 2
    · rw [Nat.toDigits_of_lt_base hn]
      exact List.forall_mem_singleton.2 (hdigit n hn)
    · rw [Nat.toDigits_of_base_le (by decide) (Nat.le_of_not_lt hn), IsBinary,
        List.forall_mem_append]
      exact ⟨ih (n / 2) (by omega), List.forall_mem_singleton.2 (hdigit _ (Nat.mod_lt n Nat.two_pos))⟩

theorem isBinary_paddedBinary (width n : Nat) : IsBinary (paddedBinary width n) := by
  rw [paddedBinary, List.leftpad, IsBinary, List.forall_mem_append]
  exact ⟨fun c hc => Or.inl (List.eq_of_mem_replicate hc), isBinary_toDigits n⟩

theorem length_paddedBinary {width n : Nat} (hwidth : 0 < width) (hn : n < 2 ^ width) :
    (paddedBinary width n).length = width := by
  rw [paddedBinary, List.length_leftpad]
  exact Nat.max_eq_left ((Nat.length_toDigits_le_iff (by decide) hwidth).2 hn)

namespace TwiddleTable

theorem scale_lt (t : TwiddleTable) (w : WordWidth) : t.scale w < 2 ^ t.wordBits w := by
  have hnarrow := w.narrowest_le
  have hpow : 2 ^ (w.bits - 1) < 2 ^ w.bits :=
    Nat.pow_lt_pow_right (by decide) (Nat.sub_lt (Nat.lt_of_lt_of_le (by decide) hnarrow) Nat.one_pos)
  unfold scale wordBits
  split
  · exact Nat.lt_of_le_of_lt (Nat.sub_le _ _) hpow
  · exact Nat.lt_trans hpow (Nat.pow_lt_pow_right (by decide) (Nat.lt_succ_self _))

theorem scale_lt_doubleDigits (t : TwiddleTable) (w : WordWidth) : t.scale w < 2 ^ doubleDigits := by
  have hwide : t.wordBits w ≤ widestWord + 1 := by
    have hw := w.le_widest
    unfold wordBits
    split <;> omega
  exact Nat.lt_of_lt_of_le (t.scale_lt w)
    (Nat.pow_le_pow_right (by decide) (Nat.le_trans hwide (by decide)))

theorem wordBits_pos (t : TwiddleTable) (w : WordWidth) : 0 < t.wordBits w := by
  have hw : 2 ≤ w.bits := w.narrowest_le
  unfold wordBits
  split <;> omega

end TwiddleTable

/-- Neither coordinate is beyond one. -/
def CirclePoint.AtMostOne (p : CirclePoint) : Prop := p.cos.AtMostOne ∧ p.sin.AtMostOne

instance (p : CirclePoint) : Decidable p.AtMostOne :=
  inferInstanceAs (Decidable (_ ∧ _))

namespace SampledTable

/-- No point that is sampled has a coordinate beyond one. -/
def OnCircle (t : SampledTable) : Prop :=
  ∀ i < t.size, (t.point i).cos.AtMostOne ∧ (t.point i).sin.AtMostOne

instance (t : SampledTable) : Decidable t.OnCircle :=
  inferInstanceAs (Decidable (∀ i < t.size, (t.point i).cos.AtMostOne ∧ (t.point i).sin.AtMostOne))

variable {t : SampledTable} {i : Nat}

/-- Samples lie between the scale and its negative. -/
theorem natAbs_sample_le (h : (t.point i).AtMostOne) (w : WordWidth) :
    (t.sample i w).re.natAbs ≤ t.scale w ∧ (t.sample i w).im.natAbs ≤ t.scale w := by
  have hscale := t.scale_lt_doubleDigits w
  exact ⟨Expansion.natAbs_scaled_le h.1 hscale, Expansion.natAbs_scaled_le h.2 hscale⟩

theorem length_word (h : (t.point i).AtMostOne) (w : WordWidth) :
    (t.word i w).toList.length = t.wordBits w * 2 := by
  obtain ⟨hre, him⟩ := natAbs_sample_le h w
  have hpart : ∀ {v : Int}, v.natAbs ≤ t.scale w →
      (paddedBinary (t.wordBits w) (twosComplement v (t.wordBits w))).length = t.wordBits w :=
    fun hv => length_paddedBinary (t.wordBits_pos w)
      (twosComplement_lt (Nat.lt_of_le_of_lt hv (t.scale_lt w)))
  rw [word, encode, String.toList_ofList, List.length_append, hpart him, hpart hre, Nat.mul_two]

theorem isBinary_word (t : SampledTable) (i : Nat) (w : WordWidth) :
    IsBinary (t.word i w).toList := by
  rw [word, encode, String.toList_ofList, IsBinary, List.forall_mem_append]
  exact ⟨isBinary_paddedBinary _ _, isBinary_paddedBinary _ _⟩

theorem length_words (t : SampledTable) (w : WordWidth) : (t.words w).length = t.size := by
  rw [words, List.length_map, List.length_range]

theorem forall_mem_words {w : WordWidth} {P : String → Prop} (h : ∀ i < t.size, P (t.word i w)) :
    ∀ s ∈ t.words w, P s := by
  intro s hs
  obtain ⟨i, hi, rfl⟩ := List.mem_map.1 hs
  exact h i (List.mem_range.1 hi)

end SampledTable
end StreamingFft
