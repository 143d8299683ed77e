import StreamingFft.Proofs.Numeric.Checked
import StreamingFft.TwiddleTable.Basic
/-!
Which twiddle tables are accepted. Four times the size has to be a word and to divide the modulus. The
default modulus of a large table is cut down to the largest word; that is odd, so it is no multiple of
four times any size, and a modulus that was cut down never passes.
-/
namespace StreamingFft

theorem not_four_mul_dvd_maxWord (n : Nat) : ¬ 4 * n ∣ maxWord := by
  intro h
  have hfour : 4 ∣ maxWord := Nat.dvd_trans (Nat.dvd_mul_right 4 n) h
  exact absurd hfour (by decide)

theorem two_le_two_pow {k : Nat} : 2 ≤ 2 ^ k ↔ 1 ≤ k :=
  Nat.one_lt_two_pow_iff.trans Nat.pos_iff_ne_zero.symm

/-- The sizes that the checks of a table tell apart before they look at the modulus. -/
theorem size_cases (n : Nat) : (∀ k, n ≠ 2 ^ k) ∨ n = 1 ∨ ∃ k, 1 ≤ k ∧ n = 2 ^ k := by
  by_cases h : ∃ k, n = 2 ^ k
  · obtain ⟨k, rfl⟩ := h
    obtain rfl | hk := Nat.eq_zero_or_pos k
    · exact .inr (.inl rfl)
    · exact .inr (.inr ⟨k, hk, rfl⟩)
  · exact .inl (not_exists.1 h)

namespace TwiddleTable

/-- Size and modulus, if the table passes the checks one after the other in checked words. -/
def checkedParameters (n modulus : Nat) : Except Fault (Nat × Nat) := do
  let _ ← exactLog2 n
  if n < 2 then .error (.tooFewEntries n)
  else
    match Checked.mul n 4 with
    | none => .error (.modulusMismatch n modulus)
    | some quarter =>
      if modulus = 0 ∨ Checked.mod modulus quarter ≠ some 0 then .error (.modulusMismatch n modulus)
      else .ok (n, modulus)

variable {n k modulus : Nat} {t : TwiddleTable}

theorem ofModulus_of_ne (h : ∀ k, n ≠ 2 ^ k) (modulus : Nat) :
    ofModulus n modulus = .error (.noPowerOfTwo n) := by
  rw [ofModulus, exactLog2_eq_error h]
  rfl

theorem ofModulus_one (modulus : Nat) : ofModulus 1 modulus = .error (.tooFewEntries 1) := rfl

/-- From two entries on, only the modulus decides. -/
theorem ofModulus_two_pow (hk : 1 ≤ k) (modulus : Nat) :
    ofModulus (2 ^ k) modulus =
      if h : 4 * 2 ^ k ≤ maxWord ∧ 0 < modulus ∧ 4 * 2 ^ k ∣ modulus then
        .ok ⟨k, modulus, false, hk, h.2.1, h.2.2⟩
      else .error (.modulusMismatch (2 ^ k) modulus) := by
  rw [ofModulus, exactLog2_two_pow]
  exact dif_pos hk

/-- A table has the size and the modulus that it was asked to have. -/
theorem ofModulus_eq_ok (h : ofModulus n modulus = .ok t) : t.size = n ∧ t.modulus = modulus := by
  obtain hn | rfl | ⟨k, hk, rfl⟩ := size_cases n
  · rw [ofModulus_of_ne hn] at h
    cases h
  · rw [ofModulus_one] at h
    cases h
  · rw [ofModulus_two_pow hk] at h
    split at h
    · cases h
      exact ⟨rfl, rfl⟩
    · cases h

theorem checkedParameters_two_pow (hk : 1 ≤ k) (modulus : Nat) :
    checkedParameters (2 ^ k) modulus =
      if 4 * 2 ^ k ≤ maxWord ∧ 0 < modulus ∧ 4 * 2 ^ k ∣ modulus then .ok (2 ^ k, modulus)
      else .error (.modulusMismatch (2 ^ k) modulus) := by
  have hsize : ¬ 2 ^ k < 2 := Nat.not_lt.2 (two_le_two_pow.2 hk)
  rw [checkedParameters, exactLog2_two_pow]
  simp only [bind, Except.bind, if_neg hsize]
  by_cases hword : 4 * 2 ^ k ≤ maxWord
  · have hmul : Checked.mul (2 ^ k) 4 = some (4 * 2 ^ k) := by
      rw [Nat.mul_comm]
      exact Checked.word_of_le (by omega)
    have hpos : 0 < 4 * 2 ^ k := Nat.mul_pos (by decide) (Nat.two_pow_pos k)
    have hmod := Checked.mod_of_pos (a := modulus) hpos
    by_cases hzero : modulus = 0
    · simp [hmul, hzero]
    · simp [hmul, hmod, hword, hzero, Nat.pos_of_ne_zero hzero, Nat.dvd_iff_mod_eq_zero]
  · have hmul : Checked.mul (2 ^ k) 4 = none := if_neg (by omega)
    rw [hmul, if_neg fun h => hword h.1]

/-- The checks in words accept and refuse the same parameters, with the same faults. -/
theorem checkedParameters_eq (n modulus : Nat) :
    checkedParameters n modulus = (ofModulus n modulus).map fun t => (t.size, t.modulus) := by
  obtain hn | rfl | ⟨k, hk, rfl⟩ := size_cases n
  · rw [ofModulus_of_ne hn, checkedParameters, exactLog2_eq_error hn]
    rfl
  · rfl
  · rw [checkedParameters_two_pow hk, ofModulus_two_pow hk]
    split <;> rfl

/-- How a request for `n` entries of a full turn of `modulus` parts is answered. -/
structure Judged (n modulus : Nat) (answer : Except Fault TwiddleTable) : Prop where
  noPowerOfTwo : (∀ k, n ≠ 2 ^ k) → answer = .error (.noPowerOfTwo n)
  tooFewEntries : ∀ k, n = 2 ^ k → n < 2 → answer = .error (.tooFewEntries n)
  modulusMismatch : ∀ k, n = 2 ^ k → 2 ≤ n → 2 ^ 64 ≤ 4 * n ∨ modulus = 0 ∨ ¬ 4 * n ∣ modulus →
    answer = .error (.modulusMismatch n modulus)
  /-- All angles of an accepted table lie in the first quarter turn. -/
  accepted : ∀ k, n = 2 ^ k → 2 ≤ n → 4 * n < 2 ^ 64 → modulus ≠ 0 → 4 * n ∣ modulus →
    ∃ t, answer = .ok t ∧ t.size = n ∧ t.modulus = modulus ∧ t.reduced = false ∧
      ∀ i < n, 4 * i < modulus

theorem judged_ofModulus (n modulus : Nat) : Judged n modulus (ofModulus n modulus) where
  noPowerOfTwo h := ofModulus_of_ne h modulus
  tooFewEntries := by
    rintro k rfl hsmall
    obtain rfl | hk := Nat.eq_zero_or_pos k
    · exact ofModulus_one modulus
    · exact absurd hsmall (Nat.not_lt.2 (two_le_two_pow.2 hk))
  modulusMismatch := by
    rintro k rfl hk hbad
    have hmax : maxWord = 2 ^ 64 - 1 := rfl
    rw [ofModulus_two_pow (two_le_two_pow.1 hk), dif_neg]
    rintro ⟨hword, hpos, hdvd⟩
    rcases hbad with hlarge | hzero | hndvd
    · omega
    · omega
    · exact hndvd hdvd
  accepted := by
    rintro k rfl hk hword hne hdvd
    have hpos := Nat.pos_of_ne_zero hne
    have ht := ofModulus_two_pow (two_le_two_pow.1 hk) modulus
    rw [dif_pos ⟨Nat.le_pred_of_lt hword, hpos, hdvd⟩] at ht
    refine ⟨_, ht, rfl, rfl, rfl, ?_⟩
    intro i hi
    have hquarter := Nat.le_of_dvd hpos hdvd
    omega

theorem defaultModulus_of_le (h : 4 * n * n ≤ maxWord) : defaultModulus n = 4 * n * n := by
  rw [Nat.mul_assoc] at h ⊢
  rw [defaultModulus]
  omega

theorem defaultModulus_of_lt (h : maxWord < 4 * n * n) : defaultModulus n = maxWord := by
  rw [Nat.mul_assoc] at h
  rw [defaultModulus]
  by_cases hsquare : n * n ≤ maxWord <;> omega

theorem four_mul_square_le_maxWord_iff : 4 * 2 ^ k * 2 ^ k ≤ maxWord ↔ k ≤ 30 := by
  have hpow : 4 * 2 ^ k * 2 ^ k = 2 ^ (2 + k + k) := by rw [Nat.pow_add, Nat.pow_add]
  have hmax : maxWord = 2 ^ 64 - 1 := rfl
  calc 4 * 2 ^ k * 2 ^ k ≤ maxWord ↔ 2 ^ (2 + k + k) < 2 ^ 64 := by omega
    _ ↔ 2 + k + k < 64 := Nat.pow_lt_pow_iff_right (by decide)
    _ ↔ k ≤ 30 := by omega

/-- No table is made for a modulus that was cut down. -/
theorem ofModulus_maxWord_ne (n : Nat) (t : TwiddleTable) : ofModulus n maxWord ≠ .ok t := by
  intro ht
  have hdvd := t.quarter_dvd
  rw [(ofModulus_eq_ok ht).2] at hdvd
  exact not_four_mul_dvd_maxWord _ hdvd

/-- A default modulus that is no word is cut down, and the table is refused. -/
structure Cut (n : Nat) : Prop where
  modulus : defaultModulus n = maxWord
  refused : ∀ t, ofSize n ≠ .ok t
  reported : ∀ k, n = 2 ^ k → ofSize n = .error (.modulusMismatch n maxWord)

theorem cut_of_lt (h : maxWord < 4 * n * n) : Cut n := by
  have hmodulus := defaultModulus_of_lt h
  refine ⟨hmodulus, ?_, ?_⟩
  · rw [ofSize, hmodulus]
    exact ofModulus_maxWord_ne n
  · rintro k rfl
    obtain rfl | hk := Nat.eq_zero_or_pos k
    · exact absurd h (by decide)
    · rw [ofSize, hmodulus]
      exact (judged_ofModulus _ _).modulusMismatch k rfl (two_le_two_pow.2 hk)
        (.inr (.inr (not_four_mul_dvd_maxWord _)))

theorem exists_ofSize_eq_ok (hk : 1 ≤ k) (hle : k ≤ 30) : ∃ t, ofSize (2 ^ k) = .ok t := by
  have hfits := four_mul_square_le_maxWord_iff.2 hle
  have hpow : 0 < 2 ^ k := Nat.two_pow_pos k
  have hquarter : 4 * 2 ^ k ≤ 4 * 2 ^ k * 2 ^ k := Nat.le_mul_of_pos_right _ hpow
  have hpos : 0 < 4 * 2 ^ k * 2 ^ k := by omega
  rw [ofSize, defaultModulus_of_le hfits, ofModulus_two_pow hk,
    dif_pos ⟨Nat.le_trans hquarter hfits, hpos, Nat.dvd_mul_right _ _⟩]
  exact ⟨_, rfl⟩

/-- What a table for the default modulus can be. -/
theorem ofSize_eq_ok (h : ofSize n = .ok t) :
    (∃ k, 1 ≤ k ∧ k ≤ 30 ∧ n = 2 ^ k) ∧ t.size = n ∧ t.modulus = 4 * n * n := by
  obtain ⟨hsize, hmodulus⟩ := ofModulus_eq_ok h
  have hfits : 4 * n * n ≤ maxWord :=
    Nat.le_of_not_lt fun hlarge => (cut_of_lt hlarge).refused t h
  refine ⟨⟨t.depth, t.depth_pos, ?_, hsize.symm⟩, hsize, ?_⟩
  · rw [← hsize] at hfits
    exact four_mul_square_le_maxWord_iff.1 hfits
  · rw [hmodulus, defaultModulus_of_le hfits]

/-- Every request for a table is judged by its size first and its modulus then, in words as without
bounds. The default modulus serves the sizes up to `2 ^ 30`; for larger ones it is cut down and refused. -/
theorem acceptance_exact :
    (∀ n modulus, Judged n modulus (ofModulus n modulus) ∧
      checkedParameters n modulus = (ofModulus n modulus).map fun t => (t.size, t.modulus)) ∧
    (∀ n, (∃ t, ofSize n = .ok t) ↔ ∃ k, 1 ≤ k ∧ k ≤ 30 ∧ n = 2 ^ k) ∧
    (∀ n t, ofSize n = .ok t → t.size = n ∧ t.modulus = 4 * n * n) ∧
    ∀ n, maxWord < 4 * n * n → Cut n := by
  refine ⟨?_, ?_, ?_, ?_⟩
  · exact fun n modulus => ⟨judged_ofModulus n modulus, checkedParameters_eq n modulus⟩
  · intro n
    constructor
    · rintro ⟨t, ht⟩
      exact (ofSize_eq_ok ht).1
    · rintro ⟨k, hk, hle, rfl⟩
      exact exists_ofSize_eq_ok hk hle
  · exact fun n t ht => (ofSize_eq_ok ht).2
  · exact fun n hn => cut_of_lt hn

/-- The largest size with a default modulus of its own, and the next: four times its square is `2 ^ 64`. -/
theorem acceptance_edge :
    (∃ t, ofSize (2 ^ 30) = .ok t ∧ t.modulus = 2 ^ 62) ∧ maxWord < 4 * 2 ^ 31 * 2 ^ 31 ∧
      ofSize (2 ^ 31) = .error (.modulusMismatch (2 ^ 31) maxWord) ∧
      ofModulus (2 ^ 62) 64 = .error (.modulusMismatch (2 ^ 62) 64) := by
  obtain ⟨hjudged, hsizes, hdefault, hcut⟩ := acceptance_exact
  have hlarge : maxWord < 4 * 2 ^ 31 * 2 ^ 31 := by decide
  obtain ⟨t, ht⟩ := (hsizes (2 ^ 30)).2 ⟨30, by decide, by decide, rfl⟩
  refine ⟨⟨t, ht, (hdefault _ t ht).2⟩, hlarge, (hcut _ hlarge).reported 31 rfl, ?_⟩
  exact (hjudged _ 64).1.modulusMismatch 62 rfl (by decide) (.inl (by decide))

end TwiddleTable
end StreamingFft
