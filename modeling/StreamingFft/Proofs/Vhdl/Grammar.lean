import Mathlib.Computability.Language
import Mathlib.Data.List.Infix
import StreamingFft.Vhdl.Identifier
/-!
Basic identifiers by their grammar, `letter { [underline] letter_or_digit }`, and by tests of the first
character, the last one, pairs of underlines and the alphabet, each on a name as a whole. The check
accepts the same names.
-/
namespace StreamingFft.Vhdl
open scoped Computability

namespace Grammar

/-- The words of one character between two others. -/
def range (first last : Char) : Language Char := {w | ∃ c, (first ≤ c ∧ c ≤ last) ∧ w = [c]}

def letter : Language Char := range 'A' 'Z' + range 'a' 'z'

def digit : Language Char := range '0' '9'

def letterOrDigit : Language Char := letter + digit

def underline : Language Char := {['_']}

/-- What the grammar repeats. The underline may be left out. -/
def step : Language Char := (1 + underline) * letterOrDigit

def basicIdentifier : Language Char := letter * step∗

variable {w cs : List Char}

theorem mem_letter : w ∈ letter ↔ ∃ c, c.isAlpha = true ∧ w = [c] := by
  have hletter : ∀ c : Char, c.isAlpha = true ↔ ('A' ≤ c ∧ c ≤ 'Z') ∨ ('a' ≤ c ∧ c ≤ 'z') := by
    intro c
    unfold Char.isAlpha Char.isUpper Char.isLower
    simp only [Char.le_def, Bool.or_eq_true, Bool.and_eq_true, decide_eq_true_eq, ge_iff_le]
  simp only [hletter, or_and_right, exists_or]
  rfl

theorem mem_digit : w ∈ digit ↔ ∃ c, c.isDigit = true ∧ w = [c] := by
  simp only [Char.isDigit, Bool.and_eq_true, decide_eq_true_eq, ge_iff_le]
  rfl

theorem mem_letterOrDigit : w ∈ letterOrDigit ↔ ∃ c, c.isAlphanum = true ∧ w = [c] := by
  rw [letterOrDigit, Language.mem_add, mem_letter, mem_digit]
  simp only [Char.isAlphanum, Bool.or_eq_true, or_and_right, exists_or]

theorem mem_step : w ∈ step ↔ ∃ c, c.isAlphanum = true ∧ (w = [c] ∨ w = ['_', c]) := by
  rw [step, add_mul, one_mul, Language.mem_add, mem_letterOrDigit, Language.mem_mul]
  constructor
  · rintro (⟨c, hc, rfl⟩ | ⟨_, rfl, v, hv, rfl⟩)
    · exact ⟨c, hc, Or.inl rfl⟩
    · obtain ⟨c, hc, rfl⟩ := mem_letterOrDigit.1 hv
      exact ⟨c, hc, Or.inr rfl⟩
  · rintro ⟨c, hc, rfl | rfl⟩
    · exact Or.inl ⟨c, hc, rfl⟩
    · exact Or.inr ⟨['_'], rfl, [c], mem_letterOrDigit.2 ⟨c, hc, rfl⟩, rfl⟩

theorem append_mem_kstar_step (hw : w ∈ step) (hcs : cs ∈ step∗) : w ++ cs ∈ step∗ :=
  (mul_kstar_le_kstar : step * step∗ ≤ step∗) (Language.append_mem_mul hw hcs)

end Grammar
open Grammar

section Continuation
variable {c : Char} {cs : List Char}

theorem ne_underline_of_isAlphanum (h : c.isAlphanum = true) : c ≠ '_' := by
  rintro rfl
  exact absurd h (by decide)

/-- A letter or digit needs nothing in front of it. -/
theorem continuesIdentifier_cons (h : c.isAlphanum = true) :
    continuesIdentifier (c :: cs) = continuesIdentifier cs := by
  rw [continuesIdentifier, h, Bool.true_and]
  exact fun _ _ hc => absurd hc (ne_underline_of_isAlphanum h)

theorem continuesIdentifier_append_of_mem_step {w : List Char} (h : w ∈ step) :
    continuesIdentifier (w ++ cs) = continuesIdentifier cs := by
  obtain ⟨c, hc, rfl | rfl⟩ := mem_step.1 h
  · exact continuesIdentifier_cons hc
  · rw [List.cons_append, List.singleton_append, continuesIdentifier, hc, Bool.true_and]

/-- The steps of the grammar are those of the check. -/
theorem continuesIdentifier_iff_mem_kstar : continuesIdentifier cs = true ↔ cs ∈ step∗ := by
  constructor
  · intro h
    induction cs using continuesIdentifier.induct with
    | case1 => exact Language.nil_mem_kstar _
    | case2 c rest ih =>
      rw [continuesIdentifier, Bool.and_eq_true] at h
      exact append_mem_kstar_step (mem_step.2 ⟨c, h.1, Or.inr rfl⟩) (ih h.2)
    | case3 c rest hne ih =>
      rw [continuesIdentifier, Bool.and_eq_true] at h
      · exact append_mem_kstar_step (mem_step.2 ⟨c, h.1, Or.inl rfl⟩) (ih h.2)
      · exact hne
  · intro h
    obtain ⟨parts, rfl, hparts⟩ := Language.mem_kstar.1 h
    clear h
    induction parts with
    | nil => rfl
    | cons w parts ih =>
      rw [List.forall_mem_cons] at hparts
      rw [List.flatten_cons, continuesIdentifier_append_of_mem_step hparts.1]
      exact ih hparts.2

end Continuation

theorem isBasicIdentifier_iff_mem {name : String} :
    isBasicIdentifier name = true ↔ name.toList ∈ basicIdentifier := by
  rw [isBasicIdentifier, basicIdentifier, Language.mem_mul]
  constructor
  · intro h
    split at h
    · cases h
    · next c rest hname =>
      rw [Bool.and_eq_true, continuesIdentifier_iff_mem_kstar] at h
      exact ⟨[c], mem_letter.2 ⟨c, h.1, rfl⟩, rest, h.2, hname.symm⟩
  · rintro ⟨w, hw, rest, hrest, hname⟩
    obtain ⟨c, hc, rfl⟩ := mem_letter.1 hw
    rw [← hname, List.singleton_append]
    exact Bool.and_eq_true_iff.2 ⟨hc, continuesIdentifier_iff_mem_kstar.2 hrest⟩

section Tests
variable {c : Char} {cs : List Char}

/-- Whether a name passes the tests that are made on it as a whole. -/
def passesTests (name : String) : Bool :=
  name.toList.head?.any Char.isAlpha && name.toList.getLast? != some '_' &&
    !decide (['_', '_'] <:+: name.toList) && name.toList.all fun c => c.isAlphanum || c == '_'

/-- What the tests ask of the characters behind the first one. -/
structure WellSpaced (cs : List Char) : Prop where
  last : cs.getLast? ≠ some '_'
  apart : ¬['_', '_'] <:+: cs
  alphabet : ∀ c ∈ cs, c.isAlphanum = true ∨ c = '_'

theorem wellSpaced_nil : WellSpaced [] := ⟨by decide, by decide, by simp⟩

theorem wellSpaced_cons (h : c.isAlphanum = true) : WellSpaced (c :: cs) ↔ WellSpaced cs := by
  have hc := ne_underline_of_isAlphanum h
  have hlast : (c :: cs).getLast? ≠ some '_' ↔ cs.getLast? ≠ some '_' := by
    cases cs with
    | nil => simpa using hc
    | cons d ds => rw [List.getLast?_cons_cons]
  have hapart : ['_', '_'] <:+: c :: cs ↔ ['_', '_'] <:+: cs := by
    rw [List.infix_cons_iff, List.cons_prefix_cons]
    exact or_iff_right fun hpair => hc hpair.1.symm
  constructor
  · intro hs
    exact ⟨hlast.1 hs.last, mt hapart.2 hs.apart, (List.forall_mem_cons.1 hs.alphabet).2⟩
  · intro hs
    exact ⟨hlast.2 hs.last, mt hapart.1 hs.apart, List.forall_mem_cons.2 ⟨Or.inl h, hs.alphabet⟩⟩

/-- Behind an underline there is another character, and that is no underline. -/
theorem wellSpaced_underline_cons :
    WellSpaced ('_' :: c :: cs) ↔ c.isAlphanum = true ∧ WellSpaced (c :: cs) := by
  constructor
  · intro hs
    have hc : c.isAlphanum = true := by
      refine (hs.alphabet c (by simp)).resolve_right fun hc => hs.apart ?_
      rw [hc]
      exact List.infix_cons_iff.2 (Or.inl (by simp))
    refine ⟨hc, ?_, fun h => hs.apart (List.infix_cons_iff.2 (Or.inr h)), ?_⟩
    · rw [← List.getLast?_cons_cons (a := '_')]
      exact hs.last
    · exact (List.forall_mem_cons.1 hs.alphabet).2
  · rintro ⟨hc, hs⟩
    refine ⟨?_, fun h => ?_, List.forall_mem_cons.2 ⟨Or.inr rfl, hs.alphabet⟩⟩
    · rw [List.getLast?_cons_cons]
      exact hs.last
    · rcases List.infix_cons_iff.1 h with h | h
      · have hpair := (List.cons_prefix_cons.1 (List.cons_prefix_cons.1 h).2).1
        exact ne_underline_of_isAlphanum hc hpair.symm
      · exact hs.apart h

theorem continuesIdentifier_iff_wellSpaced : continuesIdentifier cs = true ↔ WellSpaced cs := by
  induction cs using continuesIdentifier.induct with
  | case1 => exact iff_of_true rfl wellSpaced_nil
  | case2 c rest ih =>
    rw [wellSpaced_underline_cons, continuesIdentifier, Bool.and_eq_true, ih]
    exact and_congr_right fun hc => (wellSpaced_cons hc).symm
  | case3 c rest hne ih =>
    by_cases hc : c.isAlphanum = true
    · rw [continuesIdentifier_cons hc, ih, wellSpaced_cons hc]
    · refine iff_of_false (fun h => ?_) fun hs => ?_
      · rw [continuesIdentifier, Bool.and_eq_true] at h
        · exact hc h.1
        · exact hne
      · have hunderline := (hs.alphabet c List.mem_cons_self).resolve_left hc
        cases rest with
        | nil => exact hs.last (congrArg some hunderline)
        | cons d rest => exact hne d rest hunderline rfl

theorem passesTests_eq (name : String) : passesTests name = isBasicIdentifier name := by
  rw [Bool.eq_iff_iff, passesTests, isBasicIdentifier]
  split
  · next hname => simp [hname]
  · next c rest hname =>
    simp only [hname, List.head?_cons, Option.any_some, Bool.and_eq_true, bne_iff_ne,
      Bool.not_eq_true', decide_eq_false_iff_not, List.all_eq_true, Bool.or_eq_true, beq_iff_eq,
      and_assoc, continuesIdentifier_iff_wellSpaced]
    refine and_congr_right fun hc => ?_
    have halnum : c.isAlphanum = true := by rw [Char.isAlphanum, hc, Bool.true_or]
    rw [← wellSpaced_cons halnum]
    exact ⟨fun h => ⟨h.1, h.2.1, h.2.2⟩, fun h => ⟨h.last, h.apart, h.alphabet⟩⟩

end Tests

theorem sub_digit_mem_kstar {d : Char} (hd : d.isDigit = true) :
    "_sub".toList ++ [d] ∈ step∗ := by
  have hdigit : d.isAlphanum = true := by rw [Char.isAlphanum, hd, Bool.or_true]
  rw [← continuesIdentifier_iff_mem_kstar]
  change continuesIdentifier ['_', 's', 'u', 'b', d] = true
  rw [continuesIdentifier, continuesIdentifier_cons (by decide), continuesIdentifier_cons (by decide),
    continuesIdentifier_cons hdigit]
  decide

/-- The check accepts what the grammar derives and what passes all tests, and with a name it accepts
those of the children. -/
theorem isBasicIdentifier_exact (name : String) :
    (isBasicIdentifier name = true ↔ name.toList ∈ basicIdentifier) ∧
      isBasicIdentifier name = passesTests name ∧
      ∀ d : Char, isBasicIdentifier name = true → d.isDigit = true →
        isBasicIdentifier (name ++ "_sub" ++ String.singleton d) = true := by
  refine ⟨isBasicIdentifier_iff_mem, (passesTests_eq name).symm, ?_⟩
  intro d hname hd
  rw [isBasicIdentifier_iff_mem] at hname ⊢
  have hlist : (name ++ "_sub" ++ String.singleton d).toList =
      name.toList ++ ("_sub".toList ++ [d]) := by
    rw [String.toList_append, String.toList_append, String.toList_singleton, List.append_assoc]
  have hclosed : basicIdentifier * step∗ = basicIdentifier := by
    rw [basicIdentifier, mul_assoc, kstar_mul_kstar]
  rw [hlist, ← hclosed]
  exact Language.append_mem_mul hname (sub_digit_mem_kstar hd)

theorem isBasicIdentifier_exact_fft_1024_sub1 :
    isBasicIdentifier "fft_1024_sub1" = true ∧ '2'.isDigit = true ∧
      "fft_1024_sub1".toList ∈ basicIdentifier ∧ passesTests "fft_1024_sub1" = true ∧
      isBasicIdentifier ("fft_1024_sub1" ++ "_sub" ++ String.singleton '2') = true := by
  obtain ⟨hgrammar, htests, hchild⟩ := isBasicIdentifier_exact "fft_1024_sub1"
  have hname : isBasicIdentifier "fft_1024_sub1" = true := by decide
  have hdigit : '2'.isDigit = true := by decide
  exact ⟨hname, hdigit, hgrammar.1 hname, htests.symm.trans hname, hchild '2' hname hdigit⟩

end StreamingFft.Vhdl
