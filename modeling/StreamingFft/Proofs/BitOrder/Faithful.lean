import Mathlib.Data.Set.Function
import StreamingFft.BitOrder.Word
import StreamingFft.Proofs.BitOrder.Cycles
/-!
The orders of `k` bits are a group that acts on the addresses of `k` bits, and no two of them act alike.
On a machine word the action is a loop of shifts that moves one bit after the other.
-/
namespace StreamingFft.BitOrder

/-- Puts the bit that an entry names at the entry's position. -/
def moveBit (address word : BitVec wordBits) (entry : Nat × Nat) : BitVec wordBits :=
  word ||| ((address >>> entry.1 &&& BitVec.ofNat wordBits 1) <<< entry.2)

/-- Moves the bits of a word as the entries say, the first of them to the low end. -/
def applyLoop (o : BitOrder) (address : BitVec wordBits) : BitVec wordBits :=
  o.bits.zipIdx.foldl (moveBit address) (BitVec.zero wordBits)

theorem getLsbD_moveBit (address word : BitVec wordBits) (source i : Nat) {j : Nat}
    (hj : j < wordBits) :
    (moveBit address word (source, i)).getLsbD j =
      (word.getLsbD j || (decide (j = i) && address.getLsbD source)) := by
  rw [moveBit, BitVec.getLsbD_or, BitVec.getLsbD_shiftLeft, BitVec.getLsbD_and,
    BitVec.getLsbD_ushiftRight, BitVec.getLsbD_one, decide_eq_true hj, Bool.true_and]
  congr 1
  rcases Nat.lt_trichotomy j i with hlt | rfl | hgt
  · rw [decide_eq_true hlt, decide_eq_false hlt.ne, Bool.not_true, Bool.false_and, Bool.false_and]
  · simp [wordBits]
  · have hne : j - i ≠ 0 := Nat.sub_ne_zero_of_lt hgt
    simp [hgt.ne', hne]

/-- The loop from position `k` on leaves the bits below and fills those above with what is named. -/
theorem getLsbD_foldl_moveBit (address word : BitVec wordBits) (bits : List Nat) (k : Nat) {j : Nat}
    (hj : j < wordBits) :
    ((bits.zipIdx k).foldl (moveBit address) word).getLsbD j =
      (word.getLsbD j || (decide (k ≤ j) && (bits[j - k]?.map address.getLsbD).getD false)) := by
  induction bits generalizing word k with
  | nil => simp
  | cons b rest ih =>
    rw [List.zipIdx_cons, List.foldl_cons, ih, getLsbD_moveBit address word b k hj, Bool.or_assoc]
    congr 1
    rcases Nat.lt_trichotomy j k with hlt | rfl | hgt
    · simp [hlt.ne, Nat.not_le.2 hlt, Nat.not_le.2 (Nat.lt_succ_of_lt hlt)]
    · simp
    · obtain ⟨d, rfl⟩ := Nat.exists_eq_add_of_lt hgt
      have hold : k + d + 1 - k = d + 1 := by omega
      have hnew : k + d + 1 - (k + 1) = d := by omega
      have hle : k + 1 ≤ k + d + 1 := by omega
      rw [hold, hnew, decide_eq_false hgt.ne', decide_eq_true hle, decide_eq_true hgt.le,
        Bool.false_and, Bool.false_or, List.getElem?_cons_succ]

/-- No bit is lost in the loop, as long as there are no more entries than a word has bits. -/
theorem toNat_applyLoop (o : BitOrder) (h : o.size ≤ wordBits) (address : BitVec wordBits) :
    (o.applyLoop address).toNat = o.apply address.toNat := by
  apply Nat.eq_of_testBit_eq
  intro j
  rw [BitVec.testBit_toNat, apply, testBit_gather]
  by_cases hj : j < wordBits
  · rw [applyLoop, getLsbD_foldl_moveBit _ _ _ _ hj]
    have hbit : address.getLsbD = address.toNat.testBit := rfl
    simp [hbit]
  · rw [BitVec.getLsbD_of_ge _ _ (Nat.le_of_not_lt hj),
      List.getElem?_eq_none (h.trans (Nat.le_of_not_lt hj))]
    rfl

/-- Bits of the address that the order has no position for do not matter. -/
theorem apply_mod (o : BitOrder) (address : Nat) :
    o.apply (address % 2 ^ o.size) = o.apply address :=
  gather_mod o.lt_length

/-- One repetition short of the period, an order undoes itself. -/
theorem exists_andThen_eq_natural (o : BitOrder) :
    ∃ p : BitOrder, p.size = o.size ∧ o.andThen p = natural o.size ∧ p.andThen o = natural o.size := by
  have hperiod : o.power (1 + (o.period - 1)) = natural o.size := by
    rw [Nat.add_sub_cancel' o.period_pos]
    exact (o.power_eq_natural_iff _).2 (Nat.dvd_refl _)
  refine ⟨o.power (o.period - 1), size_power _ _, ?_, ?_⟩
  · rwa [power_add, power_one] at hperiod
  · rwa [Nat.add_comm, power_add, power_one] at hperiod

theorem bijOn_apply (o : BitOrder) :
    Set.BijOn o.apply (Set.Iio (2 ^ o.size)) (Set.Iio (2 ^ o.size)) := by
  refine ⟨fun address _ => o.apply_lt address, fun a ha b hb h => (o.apply_inj ha hb).1 h, ?_⟩
  intro address haddress
  obtain ⟨p, hsize, -, hnatural⟩ := o.exists_andThen_eq_natural
  refine ⟨p.apply address, hsize ▸ p.apply_lt address, ?_⟩
  rw [← apply_andThen hsize, hnatural, apply_natural, Nat.mod_eq_of_lt haddress]

/-- The address of a single bit tells which position names it. -/
theorem eq_of_apply_eq {o p : BitOrder} (hsize : o.size = p.size)
    (h : ∀ address < 2 ^ o.size, o.apply address = p.apply address) : o = p := by
  apply ext_bit hsize
  intro i hi
  have hbit := congrArg (fun n => Nat.testBit n i)
    (h (2 ^ o.bit i) (Nat.pow_lt_pow_right (by decide) (o.bit_lt hi)))
  simpa [testBit_apply, hi, ← hsize, Nat.testBit_two_pow] using hbit

/-- The entries of one order, read through another, are an order again. -/
theorem ofList_map_bit {o p : BitOrder} (h : o.size = p.size) :
    ofList (p.bits.map o.bit) = .ok (o.andThen p) := by
  have hsize : (o.andThen p).bits.length = p.bits.length := by
    change (o.andThen p).size = p.size
    rw [size_andThen, h, Nat.max_self]
  have hbits : p.bits.map o.bit = (o.andThen p).bits := by
    apply List.ext_getElem
    · rw [List.length_map, hsize]
    · intro i _ hi'
      have hi : i < p.bits.length := hsize ▸ hi'
      have hget := bit_andThen o p i
      rw [bit_of_lt _ hi', p.bit_of_lt hi] at hget
      simpa using hget.symm
  rw [hbits, ofList_bits]

/-- A power acts on every address as often as its exponent says, once the high bits are dropped. -/
theorem apply_power_mod (o : BitOrder) (n address : Nat) :
    (o.power n).apply address = o.apply^[n] (address % 2 ^ o.size) := by
  have hlow := (o.power n).apply_mod address
  rw [size_power] at hlow
  rw [← hlow, o.apply_power n (Nat.mod_lt _ (Nat.two_pow_pos _))]

/-- Acting once drops the high bits anyway. -/
theorem apply_power_succ (o : BitOrder) (n address : Nat) :
    (o.power (n + 1)).apply address = o.apply^[n + 1] address := by
  rw [apply_power_mod, Function.iterate_succ_apply, apply_mod, Function.iterate_succ_apply]

/-- The orders of `k` bits as a group that acts on addresses. -/
structure ActsFaithfully (k : Nat) : Prop where
  /-- A word is acted upon by the loop, which loses nothing. -/
  word : ∀ o : BitOrder, o.size = k → ∀ address : BitVec wordBits,
    o.applyWord address.toNat = .ok (o.applyLoop address).toNat ∧
      (o.applyLoop address).toNat = o.apply address.toNat
  composed : ∀ o p : BitOrder, o.size = k → p.size = k →
    o.followedBy p = .ok (o.andThen p) ∧ (o.andThen p).size = k ∧
      ofList (p.bits.map o.bit) = .ok (o.andThen p)
  apply_andThen : ∀ o p : BitOrder, o.size = k → p.size = k → ∀ address,
    (o.andThen p).apply address = p.apply (o.apply address)
  bijOn : ∀ o : BitOrder, o.size = k → Set.BijOn o.apply (Set.Iio (2 ^ k)) (Set.Iio (2 ^ k))
  low : ∀ o : BitOrder, o.size = k → ∀ address, o.apply address = o.apply (address % 2 ^ k)
  faithful : ∀ o p : BitOrder, o.size = k → p.size = k →
    (∀ address < 2 ^ k, o.apply address = p.apply address) → o = p
  assoc : ∀ o p q : BitOrder, o.size = k → p.size = k → q.size = k →
    (o.andThen p).andThen q = o.andThen (p.andThen q)
  natural : ∀ o : BitOrder, o.size = k →
    (natural k).andThen o = o ∧ o.andThen (BitOrder.natural k) = o
  inverse : ∀ o : BitOrder, o.size = k →
    ∃ p : BitOrder, p.size = k ∧ o.andThen p = BitOrder.natural k ∧ p.andThen o = BitOrder.natural k
  /-- The order repeated zero times still drops the high bits. -/
  power : ∀ o : BitOrder, o.size = k → ∀ n address,
    (o.power n).apply address = o.apply^[n] (address % 2 ^ k)
  power_succ : ∀ o : BitOrder, o.size = k → ∀ n address,
    (o.power (n + 1)).apply address = o.apply^[n + 1] address
  power_add : ∀ o : BitOrder, o.size = k → ∀ m n,
    o.power (m + n) = (o.power m).andThen (o.power n)

/-- Orders that are not longer than a word act faithfully. -/
theorem actsFaithfully_of_le_wordBits {k : Nat} (hk : k ≤ wordBits) : ActsFaithfully k where
  word := by
    rintro o rfl address
    have hloop := o.toNat_applyLoop hk address
    exact ⟨by rw [applyWord, if_pos hk, hloop], hloop⟩
  composed := by
    rintro o p ho hp
    have hsize := ho.trans hp.symm
    refine ⟨followedBy_of_size_eq hsize, ?_, ofList_map_bit hsize⟩
    rw [size_andThen, ho, hp, Nat.max_self]
  apply_andThen o p ho hp := BitOrder.apply_andThen (ho.trans hp.symm)
  bijOn := by
    rintro o rfl
    exact o.bijOn_apply
  low := by
    rintro o rfl address
    exact (o.apply_mod address).symm
  faithful := by
    rintro o p rfl hp h
    exact eq_of_apply_eq hp.symm h
  assoc o p q _ _ _ := andThen_assoc o p q
  natural := by
    rintro o rfl
    exact ⟨o.natural_andThen, o.andThen_natural⟩
  inverse := by
    rintro o rfl
    exact o.exists_andThen_eq_natural
  power := by
    rintro o rfl
    exact o.apply_power_mod
  power_succ o _ := o.apply_power_succ
  power_add o _ := o.power_add

/-- As many bits as a word has: the loop shifts the lowest bit up to the highest place. -/
theorem actsFaithfully_word :
    64 ≤ wordBits ∧ ActsFaithfully 64 ∧ (reversed 64).applyWord 1 = .ok (2 ^ 63) := by
  have hk : 64 ≤ wordBits := by decide
  have hacts := actsFaithfully_of_le_wordBits hk
  refine ⟨hk, hacts, ?_⟩
  rfl

end StreamingFft.BitOrder
