import StreamingFft.Proofs.Core.Invariant
import StreamingFft.Proofs.Core.Rebuilding
import StreamingFft.Proofs.Numeric.Checked
/-!
Which sizes composites accept. The sizes of all trees are powers of two, so a size that is the product of
the factors has a logarithm, and the only fault left is a product that does not match. Products are formed
in words; one that is no word matches none.
-/
namespace StreamingFft.Core

/-- The check of a size against two factors that are multiplied in checked words. -/
def checkFactorsChecked (n factor1 factor2 : Nat) : Except Fault Nat :=
  match Checked.mul factor1 factor2 with
  | none => .error (.factorMismatch n maxWord)
  | some product => if product = n then exactLog2 n else .error (.factorMismatch n product)

theorem checkFactorsChecked_eq {n : Nat} (hn : n ≤ maxWord) (factor1 factor2 : Nat) :
    checkFactorsChecked n factor1 factor2 = checkFactors n (factor1 * factor2) := by
  rw [checkFactorsChecked, checkFactors, Checked.mul]
  by_cases hword : factor1 * factor2 ≤ maxWord
  · rw [Checked.word_of_le hword, Nat.min_eq_left hword]
  · have hlarge : maxWord < factor1 * factor2 := Nat.lt_of_not_le hword
    have hne : factor1 * factor2 ≠ n := by omega
    rw [Checked.word, if_neg hword, if_neg hne, Nat.min_eq_right (Nat.le_of_lt hlarge)]

/-- A four-step core of `n` points, with its factors multiplied in checked words. -/
def ofFourStepChecked (n : Nat) (sub1 sub2 : Core) : Except Fault Core :=
  (checkFactorsChecked n sub1.size sub2.size).map fun order =>
    fourStep (.ofLast n order sub2.size sub2.inputOrder) sub1 sub2

/-- A radix-4 stage in front of a core, with its factors multiplied in checked words. -/
def ofRadix4Checked (n : Nat) (sub1 : Core) : Except Fault Core :=
  (checkFactorsChecked n sub1.size 4).map fun order =>
    radix4 (.ofLast n order sub1.size sub1.inputOrder) (radix4Delay n) sub1

/-- A constructor of composites of `n` points that accepts `product` for `n` and nothing else. -/
structure AcceptsExactly (product : Nat) (subs : List Core) (build : Nat → Except Fault Core) :
    Prop where
  accepted : ∀ n, (∃ c, build n = .ok c) ↔ n = product
  built : ∀ n c, build n = .ok c → c.size = n ∧ c.children = subs
  /-- The product is reported as far as a word can hold it. -/
  refused : ∀ n, n ≠ product → build n = .error (.factorMismatch n (min product maxWord))
  powerOfTwo : ∀ n m, build n ≠ .error (.noPowerOfTwo m)

/-- Of a product that is a power of two, the logarithm always exists. -/
theorem map_checkFactors_two_pow (n k : Nat) (make : Nat → Core) :
    (checkFactors n (2 ^ k)).map make =
      if n = 2 ^ k then .ok (make k) else .error (.factorMismatch n (min (2 ^ k) maxWord)) := by
  by_cases hn : n = 2 ^ k
  · rw [if_pos hn, checkFactors_of_eq hn.symm hn]
    rfl
  · rw [if_neg hn, checkFactors, if_neg (Ne.symm hn)]
    rfl

theorem acceptsExactly_two_pow (k : Nat) {subs : List Core} {make : Nat → Nat → Core}
    (hmake : ∀ n order, (make n order).size = n ∧ (make n order).children = subs) :
    AcceptsExactly (2 ^ k) subs fun n => (checkFactors n (2 ^ k)).map (make n) := by
  simp only [map_checkFactors_two_pow]
  refine ⟨?_, ?_, fun n hn => if_neg hn, ?_⟩
  · intro n
    constructor
    · rintro ⟨c, hc⟩
      by_contra hn
      rw [if_neg hn] at hc
      cases hc
    · intro hn
      exact ⟨make n k, if_pos hn⟩
  · intro n c hc
    split at hc
    · cases hc
      exact hmake n k
    · cases hc
  · intro n m hm
    split at hm <;> cases hm

theorem Reachable.size_eq {c : Core} (h : c.Reachable) : c.size = 2 ^ c.order :=
  (h.coherent c (self_mem_nodes c)).size_eq

/-- Composites of reachable cores accept the product of their factors and report any other size with it;
for sizes that are words, multiplying in words changes nothing. -/
theorem factors_matched_exactly {sub1 sub2 : Core} (h1 : sub1.Reachable) (h2 : sub2.Reachable) :
    AcceptsExactly (sub1.size * sub2.size) [sub1, sub2] (ofFourStep · sub1 sub2) ∧
      AcceptsExactly (4 * sub1.size) [sub1] (ofRadix4 · sub1) ∧
      ∀ n ≤ maxWord, ofFourStepChecked n sub1 sub2 = ofFourStep n sub1 sub2 ∧
        ofRadix4Checked n sub1 = ofRadix4 n sub1 := by
  have hfour : sub1.size * sub2.size = 2 ^ (sub1.order + sub2.order) := by
    rw [h1.size_eq, h2.size_eq, Nat.pow_add]
  have hradix : sub1.size * 4 = 2 ^ (sub1.order + 2) := by rw [h1.size_eq, Nat.pow_add]
  refine ⟨?_, ?_, ?_⟩
  · simp only [ofFourStep, hfour]
    exact acceptsExactly_two_pow _ fun n order => ⟨rfl, rfl⟩
  · simp only [ofRadix4, Nat.mul_comm 4, hradix]
    exact acceptsExactly_two_pow _ fun n order => ⟨rfl, rfl⟩
  · intro n hn
    rw [ofFourStepChecked, ofRadix4Checked, checkFactorsChecked_eq hn, checkFactorsChecked_eq hn]
    exact ⟨rfl, rfl⟩

/-- A quarter of the addresses of a word. -/
def vastLeaf : Leaf where
  order := 62
  entity := "fft"
  scale := "SCALE_NONE"
  delay := 1
  inputOrder := .natural 62
  outputOrder := .natural 62
  size_inputOrder := rfl
  size_outputOrder := rfl

theorem reachable_vastLeaf : (leaf vastLeaf).Reachable := by
  have hsize : Leaf.ofSize (2 ^ 62) "fft" "SCALE_NONE" 1 = .ok vastLeaf := by
    rw [Leaf.ofSize, exactLog2_two_pow]
    rfl
  exact .leaf hsize

/-- Both products are `2 ^ 64`, of which a word that wraps around would keep the size zero. -/
theorem factors_matched_vast :
    (leaf vastLeaf).Reachable ∧ (leaf swappedLeaf).Reachable ∧
      ofFourStepChecked 0 (leaf vastLeaf) (leaf swappedLeaf) = .error (.factorMismatch 0 maxWord) ∧
      ofRadix4Checked 0 (leaf vastLeaf) = .error (.factorMismatch 0 maxWord) ∧
      ∃ c, ofFourStep 16 (leaf swappedLeaf) (leaf swappedLeaf) = .ok c := by
  obtain ⟨hfour, hradix, hwords⟩ := factors_matched_exactly reachable_vastLeaf reachable_swappedLeaf
  obtain ⟨hfour0, hradix0⟩ := hwords 0 (Nat.zero_le _)
  have hpair := (factors_matched_exactly reachable_swappedLeaf reachable_swappedLeaf).1
  refine ⟨reachable_vastLeaf, reachable_swappedLeaf, ?_, ?_, (hpair.accepted 16).2 rfl⟩
  · rw [hfour0]
    exact hfour.refused 0 (by decide)
  · rw [hradix0]
    exact hradix.refused 0 (by decide)

end StreamingFft.Core
