import StreamingFft.Proofs.Vhdl.Reading
import StreamingFft.Vhdl.Identifier
/-!
Identifiers among the words that the reader knows: each is a single word and no number.
-/
namespace StreamingFft
open Vhdl

theorem isWordChar_of_isAlphanum {c : Char} (h : c.isAlphanum = true) : isWordChar c = true := by
  rw [isWordChar, h, Bool.true_or]

theorem all_isWordChar_of_continuesIdentifier {cs : List Char} (h : continuesIdentifier cs = true) :
    cs.all isWordChar = true := by
  induction cs using continuesIdentifier.induct with
  | case1 => rfl
  | case2 c rest ih =>
    rw [continuesIdentifier, Bool.and_eq_true] at h
    rw [List.all_cons, List.all_cons, isWordChar_of_isAlphanum h.1, ih h.2]
    decide
  | case3 c rest hc ih =>
    rw [continuesIdentifier, Bool.and_eq_true] at h
    · rw [List.all_cons, isWordChar_of_isAlphanum h.1, ih h.2, Bool.and_self]
    · exact hc

theorem all_isWordChar_of_isBasicIdentifier {name : String} (h : isBasicIdentifier name = true) :
    name.toList.all isWordChar = true := by
  unfold isBasicIdentifier at h
  split at h
  · cases h
  · next c rest hname =>
    rw [Bool.and_eq_true] at h
    have hc : c.isAlphanum = true := by rw [Char.isAlphanum, h.1, Bool.true_or]
    rw [hname, List.all_cons, isWordChar_of_isAlphanum hc,
      all_isWordChar_of_continuesIdentifier h.2, Bool.and_self]

theorem plain_of_isBasicIdentifier {name : String} (h : isBasicIdentifier name = true) :
    Plain name :=
  plain_of_isWordChar (all_isWordChar_of_isBasicIdentifier h)

theorem isDigit_of_isAlpha {c : Char} (h : c.isAlpha = true) : c.isDigit = false := by
  rw [Bool.eq_false_iff]
  intro hdigit
  unfold Char.isAlpha Char.isUpper Char.isLower at h
  unfold Char.isDigit at hdigit
  simp only [Bool.or_eq_true, Bool.and_eq_true, decide_eq_true_eq] at h hdigit
  rcases h with h | h
  · exact absurd (UInt32.le_trans h.1 hdigit.2) (by decide)
  · exact absurd (UInt32.le_trans h.1 hdigit.2) (by decide)

theorem isName_of_isBasicIdentifier {name : String} (h : isBasicIdentifier name = true) :
    IsName name := by
  refine ⟨all_isWordChar_of_isBasicIdentifier h, ?_⟩
  unfold isBasicIdentifier at h
  split at h
  · cases h
  · next c rest hname =>
    rw [Bool.and_eq_true] at h
    rw [hname, List.all_cons, isDigit_of_isAlpha h.1, Bool.false_and]

end StreamingFft
