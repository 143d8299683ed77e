import Mathlib.Data.List.Perm.Subperm
import StreamingFft.BitOrder.Period
import StreamingFft.Core.Leaf
/-!
Which lists are the entries of an order: the permutations of the bits below their number. One scan with a
mark for each bit tells them from all others.
-/
namespace StreamingFft.BitOrder

theorem perm_range_iff {bits : List Nat} {k : Nat} :
    bits.Perm (List.range k) ↔ bits.length = k ∧ bits.Nodup ∧ ∀ b ∈ bits, b < bits.length := by
  constructor
  · intro h
    have hlength : bits.length = k := by simpa using h.length_eq
    refine ⟨hlength, h.nodup_iff.2 List.nodup_range, ?_⟩
    intro b hb
    rw [hlength]
    exact List.mem_range.1 (h.mem_iff.1 hb)
  · rintro ⟨rfl, hnodup, hlt⟩
    -- distinct entries in a range of their own number leave none of it out
    have hsub : bits ⊆ List.range bits.length := fun b hb => List.mem_range.2 (hlt b hb)
    exact (List.subperm_of_subset hnodup hsub).perm_of_length_le (by simp)

/-- The entries of an order are the bits below its size, each once. -/
theorem bits_perm_range (o : BitOrder) : o.bits.Perm (List.range o.size) :=
  perm_range_iff.2 ⟨rfl, o.nodup, o.lt_length⟩

/-- Marks one entry after the other; an entry that is marked already, or past the end, ends the scan. -/
def Marks.admits (m : Marks) : List Nat → Bool
  | [] => true
  | b :: rest => if b ∈ m then false else (m.insert b).admits rest

theorem Marks.admits_iff {m : Marks} {bits : List Nat} :
    m.admits bits = true ↔ bits.Nodup ∧ ∀ b ∈ bits, b ∉ m := by
  induction bits generalizing m with
  | nil => simp [admits]
  | cons b rest ih =>
    rw [admits, List.nodup_cons, List.forall_mem_cons]
    by_cases hb : b ∈ m
    · simp [hb]
    · rw [if_neg hb, ih]
      simp only [mem_insert, not_or]
      constructor
      · rintro ⟨hnodup, hrest⟩
        exact ⟨⟨fun hmem => (hrest b hmem).1 rfl, hnodup⟩, hb, fun c hc => (hrest c hc).2⟩
      · rintro ⟨⟨hnew, hnodup⟩, -, hrest⟩
        refine ⟨hnodup, fun c hc => ⟨?_, hrest c hc⟩⟩
        rintro rfl
        exact hnew hc

theorem Marks.admits_clear {bits : List Nat} :
    (clear bits.length).admits bits = true ↔ bits.Nodup ∧ ∀ b ∈ bits, b < bits.length := by
  simp only [admits_iff, mem_clear, Nat.not_le]

/-- The entries of an order of `k` bits, if their number is right and the scan does not end early. -/
def scanEntries (k : Nat) (bits : List Nat) : Except Fault (List Nat) :=
  if bits.length ≠ k then .error (.orderLength k bits.length)
  else if (Marks.clear bits.length).admits bits then .ok bits
  else .error (.notPermutation bits)

/-- The scan accepts the lists that are accepted as orders, and refuses the others with the same faults. -/
theorem scanEntries_eq (k : Nat) (bits : List Nat) :
    scanEntries k bits = (ofListOfSize k bits).map fun o => o.1.bits := by
  rw [scanEntries, ofListOfSize]
  by_cases hlength : bits.length = k
  · rw [if_neg (not_not_intro hlength), dif_pos hlength]
    by_cases hbits : bits.Nodup ∧ ∀ b ∈ bits, b < bits.length
    · rw [if_pos (Marks.admits_clear.2 hbits), dif_pos hbits]
      rfl
    · rw [if_neg fun h => hbits (Marks.admits_clear.1 h), dif_neg hbits]
      rfl
  · rw [if_pos hlength, dif_neg hlength]
    rfl

theorem scanEntries_of_perm {k : Nat} {bits : List Nat} (h : bits.Perm (List.range k)) :
    scanEntries k bits = .ok bits := by
  obtain ⟨hlength, hbits⟩ := perm_range_iff.1 h
  rw [scanEntries, if_neg (not_not_intro hlength), if_pos (Marks.admits_clear.2 hbits)]

theorem scanEntries_of_not_perm {k : Nat} {bits : List Nat} (hlength : bits.length = k)
    (h : ¬ bits.Perm (List.range k)) : scanEntries k bits = .error (.notPermutation bits) := by
  have hbits : ¬ (bits.Nodup ∧ ∀ b ∈ bits, b < bits.length) :=
    fun hbits => h (perm_range_iff.2 ⟨hlength, hbits⟩)
  rw [scanEntries, if_neg (not_not_intro hlength), if_neg fun ha => hbits (Marks.admits_clear.1 ha)]

end StreamingFft.BitOrder
