import Mathlib.Algebra.Order.Ring.Int
import StreamingFft.Proofs.Numeric.Checked
import StreamingFft.Proofs.TwiddleTable.Words
/-!
Stored words read back. The digits of a number in two's complement spell the number again, and a word of
the memory splits into the two coordinates of its sample, whichever angle it stands for.
-/
namespace StreamingFft

/-- The bits that a text of zeros and ones spells, the most significant first. -/
def spelledBits (digits : List Char) : BitVec (digits.map (· == '1')).length :=
  .ofBoolListBE (digits.map (· == '1'))

/-- The number that digits spell in two's complement. -/
def signedValue (digits : List Char) : Int := (spelledBits digits).toInt

theorem toNat_spelledBits_cons (c : Char) (digits : List Char) :
    (spelledBits (c :: digits)).toNat =
      (c == '1').toNat * 2 ^ digits.length + (spelledBits digits).toNat := by
  change (BitVec.cons (c == '1') (spelledBits digits)).toNat = _
  rw [BitVec.toNat_cons', Nat.shiftLeft_eq]
  have hlength : (digits.map (· == '1')).length = digits.length := List.length_map _
  exact congrArg (fun n => (c == '1').toNat * 2 ^ n + (spelledBits digits).toNat) hlength

theorem toNat_spelledBits_concat (digits : List Char) (c : Char) :
    (spelledBits (digits ++ [c])).toNat = 2 * (spelledBits digits).toNat + (c == '1').toNat := by
  induction digits with
  | nil =>
    rw [List.nil_append, toNat_spelledBits_cons, List.length_nil, Nat.pow_zero, Nat.mul_one,
      Nat.add_comm]
    rfl
  | cons d digits ih =>
    rw [List.cons_append, toNat_spelledBits_cons, ih, toNat_spelledBits_cons, List.length_append,
      List.length_singleton, Nat.pow_succ]
    ring

theorem toNat_spelledBits_toDigits (n : Nat) : (spelledBits (Nat.toDigits 2 n)).toNat = n := by
  induction n using Nat.strongRecOn with
  | ind n ih =>
    have hdigit : ∀ b < 2, (Nat.digitChar b == '1').toNat = b := by decide
    by_cases hn : n < 2
    · rw [Nat.toDigits_of_lt_base hn, ← List.nil_append [n.digitChar], toNat_spelledBits_concat,
        hdigit n hn]
      exact Nat.zero_add n
    · rw [Nat.toDigits_of_base_le (by decide) (Nat.le_of_not_lt hn), toNat_spelledBits_concat,
        ih (n / 2) (by omega), hdigit _ (Nat.mod_lt n Nat.two_pos), Nat.div_add_mod]

theorem toNat_spelledBits_paddedBinary (width n : Nat) :
    (spelledBits (paddedBinary width n)).toNat = n := by
  rw [paddedBinary, List.leftpad]
  generalize width - (Nat.toDigits 2 n).length = zeros
  induction zeros with
  | zero => exact toNat_spelledBits_toDigits n
  | succ zeros ih =>
    rw [List.replicate_succ, List.cons_append, toNat_spelledBits_cons, ih]
    exact (Nat.add_comm _ _).trans (Nat.zero_mul _ ▸ rfl)

/-- The range of signed words. -/
def FitsSigned (v : Int) (bits : Nat) : Prop := -2 ^ (bits - 1) ≤ v ∧ v < 2 ^ (bits - 1)

variable {v : Int} {bits : Nat}

theorem two_pow_eq_add (hbits : 0 < bits) : (2 : Int) ^ bits = 2 ^ (bits - 1) + 2 ^ (bits - 1) := by
  exact_mod_cast (Nat.two_pow_pred_add_two_pow_pred hbits).symm

/-- Negative numbers stand in the upper half of the words. -/
theorem twosComplement_eq (hbits : 0 < bits) (hword : bits ≤ 63) (hv : FitsSigned v bits) :
    (twosComplement v bits : Int) = if v < 0 then v + 2 ^ bits else v := by
  have hhalf := two_pow_eq_add hbits
  have hpow : (2 : Int) ^ bits ≤ 2 ^ 63 := pow_le_pow_right₀ (by decide) hword
  obtain ⟨hlow, hhigh⟩ := hv
  unfold twosComplement
  generalize hraised : (if v < 0 then v + 2 ^ bits else v) = raised
  have hrange : 0 ≤ raised ∧ raised < 2 ^ 64 := by
    rw [← hraised]
    split <;> omega
  rw [Int.emod_eq_of_lt hrange.1 hrange.2, Int.toNat_of_nonneg hrange.1]

theorem FitsSigned.twosComplement_lt (hbits : 0 < bits) (hv : FitsSigned v bits) :
    twosComplement v bits < 2 ^ bits := by
  have hhalf := two_pow_eq_add hbits
  have hpow : (0 : Int) < 2 ^ (bits - 1) := Int.pow_pos (by decide)
  obtain ⟨hlow, hhigh⟩ := hv
  apply StreamingFft.twosComplement_lt
  have habs : (v.natAbs : Int) < 2 ^ bits := by omega
  exact_mod_cast habs

/-- The signed reading of bits is their number in the lower half, and negative in the upper one. -/
theorem toInt_cases {width : Nat} (x : BitVec width) :
    2 * (x.toNat : Int) < 2 ^ width ∧ x.toInt = x.toNat ∨
      2 ^ width ≤ 2 * (x.toNat : Int) ∧ x.toInt = x.toNat - 2 ^ width := by
  have hcast : ((2 ^ width : Nat) : Int) = 2 ^ width := by exact_mod_cast rfl
  rw [BitVec.toInt_eq_toNat_cond, ← hcast]
  split <;> omega

/-- Bits that spell the word of a number stand for the number. -/
theorem toInt_eq_of_toNat_eq {width : Nat} {x : BitVec width} (hwidth : width = bits)
    (hx : x.toNat = twosComplement v bits) (hbits : 0 < bits) (hword : bits ≤ 63)
    (hv : FitsSigned v bits) : x.toInt = v := by
  subst hwidth
  have hvalue := twosComplement_eq hbits hword hv
  have hhalf := two_pow_eq_add hbits
  obtain ⟨hlow, hhigh⟩ := hv
  rw [← hx] at hvalue
  rcases toInt_cases x with ⟨hlower, hread⟩ | ⟨hupper, hread⟩
  · split at hvalue <;> omega
  · split at hvalue <;> omega

theorem toInt_twosComplement (hbits : 0 < bits) (hword : bits ≤ 63) (hv : FitsSigned v bits) :
    (BitVec.ofNat bits (twosComplement v bits)).toInt = v := by
  apply toInt_eq_of_toNat_eq rfl _ hbits hword hv
  rw [BitVec.toNat_ofNat, Nat.mod_eq_of_lt (hv.twosComplement_lt hbits)]

theorem signedValue_paddedBinary (hbits : 0 < bits) (hword : bits ≤ 63) (hv : FitsSigned v bits) :
    signedValue (paddedBinary bits (twosComplement v bits)) = v := by
  have hlength := length_paddedBinary hbits (hv.twosComplement_lt hbits)
  exact toInt_eq_of_toNat_eq ((List.length_map _).trans hlength)
    (toNat_spelledBits_paddedBinary _ _) hbits hword hv

/-- A machine word for `v`, made with checked signed words and then taken without its sign. -/
def twosComplementChecked (v : Int) (bits : Nat) : Option Nat := do
  let raised ← if v < 0 then do
      let raise ← Checked.shiftOne bits
      Checked.addSigned v raise
    else some v
  some (raised % 2 ^ 64).toNat

theorem twosComplementChecked_eq (hbits : 0 < bits) (hword : bits < 63) (hv : FitsSigned v bits) :
    twosComplementChecked v bits = some (twosComplement v bits) := by
  have hhalf := two_pow_eq_add hbits
  have hpow : (2 : Int) ^ bits ≤ 2 ^ 62 := pow_le_pow_right₀ (by decide) (Nat.le_of_lt_succ hword)
  have hpos : (0 : Int) < 2 ^ bits := Int.pow_pos (by decide)
  obtain ⟨hlow, hhigh⟩ := hv
  unfold twosComplementChecked twosComplement
  by_cases hneg : v < 0
  · have hshift : Checked.shiftOne bits = some (2 ^ bits) := by
      rw [Checked.shiftOne, if_pos (hword.trans (by decide))]
      exact Checked.signed_of_range (by omega) (by omega)
    have hadd : Checked.addSigned v (2 ^ bits) = some (v + 2 ^ bits) :=
      Checked.signed_of_range (by omega) (by omega)
    rw [if_pos hneg, if_pos hneg, hshift, Option.bind_eq_bind, Option.bind_some, hadd,
      Option.bind_some]
  · rw [if_neg hneg, if_neg hneg, Option.bind_eq_bind, Option.bind_some]

namespace TwiddleTable

/-- A component has room for the scale on both sides of zero. -/
theorem fitsSigned_of_natAbs_le (t : TwiddleTable) (w : WordWidth) {v : Int}
    (h : v.natAbs ≤ t.scale w) : FitsSigned v (t.wordBits w) := by
  have hscale : t.scale w < 2 ^ (t.wordBits w - 1) := by
    have hnarrow : 0 < w.bits := Nat.lt_of_lt_of_le (by decide) w.narrowest_le
    unfold scale wordBits
    split
    · exact Nat.sub_lt (Nat.two_pow_pos _) Nat.one_pos
    · exact Nat.pow_lt_pow_right (by decide) (by omega)
  have habs : (v.natAbs : Int) < 2 ^ (t.wordBits w - 1) := by exact_mod_cast h.trans_lt hscale
  constructor <;> omega

theorem wordBits_le (t : TwiddleTable) (w : WordWidth) : t.wordBits w ≤ 33 := by
  have hwide : w.bits ≤ 32 := w.le_widest
  unfold wordBits
  split <;> omega

end TwiddleTable

namespace SampledTable

variable {t : SampledTable} {i : Nat} {w : WordWidth}

/-- What the stored word of an angle says about its sample. -/
structure Decodes (t : SampledTable) (i : Nat) (w : WordWidth) : Prop where
  binary : IsBinary (t.word i w).toList
  length : (t.word i w).toList.length = 2 * t.wordBits w
  im : signedValue ((t.word i w).toList.take (t.wordBits w)) = (t.sample i w).im
  re : signedValue ((t.word i w).toList.drop (t.wordBits w)) = (t.sample i w).re

theorem decodes_word (h : (t.point i).AtMostOne) (w : WordWidth) : t.Decodes i w := by
  obtain ⟨hre, him⟩ := natAbs_sample_le h w
  have hpos := t.wordBits_pos w
  have hwide : t.wordBits w ≤ 63 := (t.wordBits_le w).trans (by decide)
  have hreFits := t.fitsSigned_of_natAbs_le w hre
  have himFits := t.fitsSigned_of_natAbs_le w him
  have hhalf := length_paddedBinary hpos (himFits.twosComplement_lt hpos)
  have hword : (t.word i w).toList =
      paddedBinary (t.wordBits w) (twosComplement (t.sample i w).im (t.wordBits w)) ++
        paddedBinary (t.wordBits w) (twosComplement (t.sample i w).re (t.wordBits w)) := by
    rw [word, encode, String.toList_ofList]
  refine ⟨t.isBinary_word i w, ?_, ?_, ?_⟩
  · rw [length_word h w, Nat.mul_comm]
  · rw [hword, List.take_left' hhalf, signedValue_paddedBinary hpos hwide himFits]
  · rw [hword, List.drop_left' hhalf, signedValue_paddedBinary hpos hwide hreFits]

/-- Nothing but the sample goes into a word. -/
theorem word_eq_of_sample_eq {j : Nat} (h : t.sample i w = t.sample j w) :
    t.word i w = t.word j w := by
  rw [word, word, encode, encode, h]

theorem Decodes.sample_eq {j : Nat} (hi : t.Decodes i w) (hj : t.Decodes j w)
    (h : t.word i w = t.word j w) : t.sample i w = t.sample j w := by
  have hre := hi.re
  have him := hi.im
  rw [h, hj.re] at hre
  rw [h, hj.im] at him
  exact congrArg₂ Sample.mk hre.symm him.symm

/-- Words give their samples back, for every angle whose point lies on the circle, and so does the
word of every signed number that has as many bits as a component can have. -/
theorem word_decodes {j : Nat} (hi : (t.point i).AtMostOne) (hj : (t.point j).AtMostOne)
    (w : WordWidth) :
    t.Decodes i w ∧ (t.word i w = t.word j w ↔ t.sample i w = t.sample j w) ∧
      ∀ (bits : Nat) (v : Int), 1 ≤ bits → bits ≤ 33 → FitsSigned v bits →
        twosComplement v bits < 2 ^ bits ∧
          (BitVec.ofNat bits (twosComplement v bits)).toInt = v ∧
          twosComplementChecked v bits = some (twosComplement v bits) := by
  have hdecodes := decodes_word hi w
  refine ⟨hdecodes, ⟨hdecodes.sample_eq (decodes_word hj w), word_eq_of_sample_eq⟩, ?_⟩
  intro bits v hbits hwide hv
  exact ⟨hv.twosComplement_lt hbits, toInt_twosComplement hbits (hwide.trans (by decide)) hv,
    twosComplementChecked_eq hbits (hwide.trans_lt (by decide)) hv⟩

def widest : WordWidth := ⟨32, by decide, by decide⟩

/-- A table of four entries, sampled beyond its end at the two ends of the scale. -/
def oppositePoints : SampledTable where
  depth := 2
  modulus := 16
  reduced := false
  depth_pos := Nat.zero_lt_succ 1
  modulus_pos := Nat.zero_lt_succ 15
  quarter_dvd := by decide
  point
    | 8 => ⟨.ofBits 0xBFF0000000000000, .ofBits 0x3CA1A62633145C07⟩
    | _ => ⟨.ofBits 0x3FF0000000000000, .ofBits 0⟩

/-- Half a turn at the widest width: the real part is the lowest number of its scale. -/
theorem word_decodes_oppositePoints :
    (oppositePoints.point 8).AtMostOne ∧ (oppositePoints.point 0).AtMostOne ∧
      oppositePoints.sample 8 widest = ⟨-2 ^ 31, 0⟩ ∧ oppositePoints.Decodes 8 widest ∧
      oppositePoints.word 8 widest ≠ oppositePoints.word 0 widest ∧
      FitsSigned (-2 ^ 32) 33 ∧ twosComplement (-2 ^ 32) 33 < 2 ^ 33 ∧
      (BitVec.ofNat 33 (twosComplement (-2 ^ 32) 33)).toInt = -2 ^ 32 := by
  have h8 : (oppositePoints.point 8).AtMostOne := by decide +kernel
  have h0 : (oppositePoints.point 0).AtMostOne := by decide +kernel
  have hsample : oppositePoints.sample 8 widest = ⟨-2 ^ 31, 0⟩ := by decide +kernel
  have hne : oppositePoints.sample 8 widest ≠ oppositePoints.sample 0 widest := by decide +kernel
  have hfits : FitsSigned (-2 ^ 32) 33 := by constructor <;> decide
  obtain ⟨hdecodes, hword, hsigned⟩ := word_decodes h8 h0 widest
  obtain ⟨hlt, hvalue, -⟩ := hsigned 33 (-2 ^ 32) (by decide) (by decide) hfits
  exact ⟨h8, h0, hsample, hdecodes, fun h => hne (hword.1 h), hfits, hlt, hvalue⟩

end SampledTable
end StreamingFft
