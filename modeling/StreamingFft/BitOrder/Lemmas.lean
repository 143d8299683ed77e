import StreamingFft.BitOrder.Basic
/-!
Orders through their bits: an order is its size and the map from positions to bits, the bits of a
sequence of orders are those of the maps composed, and an order moves the bits of an address.
-/
namespace StreamingFft.BitOrder

/-- Two orders of one size with the same bits are equal. -/
theorem ext_bit {o p : BitOrder} (hs : o.size = p.size) (h : ∀ i < o.size, o.bit i = p.bit i) :
    o = p := by
  apply BitOrder.ext
  apply List.ext_getElem hs
  intro i hi hi'
  have hb := h i hi
  rw [o.bit_of_lt hi, p.bit_of_lt hi'] at hb
  simpa using hb

theorem bit_ofMap {k : Nat} {f : Nat → Nat} (inj lt) {i : Nat} (hi : i < k) :
    (ofMap k f inj lt).bit i = f i := by
  simp [bit, ofMap, List.getD_eq_getElem?_getD, hi]

@[simp] theorem bit_natural (k i : Nat) : (natural k).bit i = i := by
  by_cases hi : i < k
  · simp [bit, natural, List.getD_eq_getElem?_getD, hi]
  · exact bit_of_ge _ (by simpa using hi)

theorem bit_reversed {k i : Nat} (hi : i < k) : (reversed k).bit i = k - 1 - i := by
  simp [bit, reversed, List.getD_eq_getElem?_getD, hi]

@[simp] theorem bit_andThen (o p : BitOrder) (i : Nat) : (o.andThen p).bit i = o.bit (p.bit i) := by
  by_cases hi : i < max o.size p.size
  · rw [andThen, bit_ofMap _ _ hi, getD_toArray, getD_toArray]
  · have hp : p.size ≤ i := by omega
    have ho : o.size ≤ i := by omega
    rw [bit_of_ge _ (by rw [size_andThen]; omega), p.bit_of_ge hp, o.bit_of_ge ho]

@[simp] theorem size_power (o : BitOrder) (n : Nat) : (o.power n).size = o.size := by
  induction n with
  | zero => exact size_natural _
  | succ n ih => rw [power, size_andThen, ih, Nat.max_self]

theorem bit_append_left {high low : BitOrder} {i : Nat} (hi : i < high.size) :
    (high ++ low).bit i = high.bit i + low.size := by
  have h : i < high.bits.length := hi
  simp [bit, bits_append, List.getD_eq_getElem?_getD, List.getElem?_append, h]

theorem bit_append_right {high low : BitOrder} {i : Nat} (hi : i < low.size) :
    (high ++ low).bit (high.size + i) = low.bit i := by
  have h : i < low.bits.length := hi
  simp [bit, bits_append, List.getD_eq_getElem?_getD, size, h]

theorem testBit_gather (address : Nat) (bits : List Nat) (i : Nat) :
    (gather address bits).testBit i = (bits[i]?.map address.testBit).getD false := by
  induction bits generalizing i with
  | nil => simp [gather]
  | cons b rest ih =>
    have hb : (address.testBit b).toNat < 2 := Bool.toNat_lt _
    cases i with
    | zero =>
      rw [gather, Nat.testBit_zero]
      cases h : address.testBit b <;> simp [h]
    | succ i =>
      rw [gather, Nat.testBit_succ, show ((address.testBit b).toNat + 2 * gather address rest) / 2 =
        gather address rest by omega, ih]
      simp

/-- Bit `i` of the result is the bit of the address that the order names at position `i`. -/
theorem testBit_apply (o : BitOrder) (address i : Nat) :
    (o.apply address).testBit i = (decide (i < o.size) && address.testBit (o.bit i)) := by
  rw [apply, testBit_gather]
  by_cases hi : i < o.size
  · rw [o.bit_of_lt hi, List.getElem?_eq_getElem hi, decide_eq_true hi, Bool.true_and]
    rfl
  · rw [List.getElem?_eq_none (Nat.le_of_not_lt hi)]
    simp [hi]

end StreamingFft.BitOrder
