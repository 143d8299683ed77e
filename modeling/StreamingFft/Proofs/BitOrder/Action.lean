import Mathlib.Data.Fintype.EquivFin
import Mathlib.Logic.Function.Iterate
import StreamingFft.BitOrder.Lemmas
/-!
Orders act on addresses: a sequence of orders acts one after the other, and a power acts as often as
its exponent says. On the addresses that an order has bits for, it acts without collisions. An order
above another acts on the two parts of an address apart.
-/
namespace StreamingFft.BitOrder

theorem ofList_bits (o : BitOrder) : ofList o.bits = .ok o :=
  dif_pos ⟨o.nodup, o.lt_length⟩

theorem apply_lt (o : BitOrder) (address : Nat) : o.apply address < 2 ^ o.size := by
  apply Nat.lt_pow_two_of_testBit
  intro i hi
  rw [testBit_apply, decide_eq_false (Nat.not_lt.2 hi), Bool.false_and]

theorem apply_natural (k address : Nat) : (natural k).apply address = address % 2 ^ k := by
  apply Nat.eq_of_testBit_eq
  intro i
  rw [testBit_apply, size_natural, bit_natural, Nat.testBit_mod_two_pow]

/-- Acting by `o` and then by `p`. -/
theorem apply_andThen {o p : BitOrder} (h : o.size = p.size) (address : Nat) :
    (o.andThen p).apply address = p.apply (o.apply address) := by
  apply Nat.eq_of_testBit_eq
  intro i
  rw [testBit_apply, testBit_apply, testBit_apply, size_andThen, bit_andThen, h, Nat.max_self]
  by_cases hi : i < p.size
  · rw [decide_eq_true (p.bit_lt hi), Bool.true_and]
  · rw [decide_eq_false hi, Bool.false_and, Bool.false_and]

/-- The order as a map of its positions to themselves. -/
def next (o : BitOrder) (i : Fin o.size) : Fin o.size := ⟨o.bit i, o.bit_lt i.isLt⟩

theorem next_injective (o : BitOrder) : Function.Injective o.next :=
  fun _ _ h => Fin.ext (o.bit_inj.1 (congrArg Fin.val h))

/-- Every bit of the address is named at some position. -/
theorem exists_bit_eq (o : BitOrder) {j : Nat} (hj : j < o.size) : ∃ i < o.size, o.bit i = j := by
  -- an injective map of finitely many positions reaches all of them
  obtain ⟨i, hi⟩ := Finite.injective_iff_surjective.1 o.next_injective ⟨j, hj⟩
  exact ⟨i, i.isLt, congrArg Fin.val hi⟩

theorem apply_inj (o : BitOrder) {a b : Nat} (ha : a < 2 ^ o.size) (hb : b < 2 ^ o.size) :
    o.apply a = o.apply b ↔ a = b := by
  refine ⟨fun h => ?_, congrArg _⟩
  apply Nat.eq_of_testBit_eq
  intro j
  by_cases hj : j < o.size
  · obtain ⟨i, hi, rfl⟩ := o.exists_bit_eq hj
    have hbit := congrArg (fun n => Nat.testBit n i) h
    simpa only [testBit_apply, decide_eq_true hi, Bool.true_and] using hbit
  · -- no position names this bit, but neither address has it
    have hpow : 2 ^ o.size ≤ 2 ^ j := Nat.pow_le_pow_right (by decide) (Nat.le_of_not_lt hj)
    rw [Nat.testBit_lt_two_pow (ha.trans_le hpow), Nat.testBit_lt_two_pow (hb.trans_le hpow)]

theorem andThen_assoc (o p q : BitOrder) : (o.andThen p).andThen q = o.andThen (p.andThen q) := by
  apply ext_bit
  · simp only [size_andThen, Nat.max_assoc]
  · intro i _
    simp only [bit_andThen]

theorem natural_andThen (o : BitOrder) : (natural o.size).andThen o = o := by
  apply ext_bit
  · rw [size_andThen, size_natural, Nat.max_self]
  · intro i _
    rw [bit_andThen, bit_natural]

theorem andThen_natural (o : BitOrder) : o.andThen (natural o.size) = o := by
  apply ext_bit
  · rw [size_andThen, size_natural, Nat.max_self]
  · intro i _
    rw [bit_andThen, bit_natural]

theorem bit_power (o : BitOrder) (n i : Nat) : (o.power n).bit i = o.bit^[n] i := by
  induction n generalizing i with
  | zero => exact bit_natural _ _
  | succ n ih => rw [power, bit_andThen, ih, Function.iterate_succ_apply]

/-- A power acts on the addresses of its own bits as often as its exponent says. -/
theorem apply_power (o : BitOrder) (n : Nat) {address : Nat} (h : address < 2 ^ o.size) :
    (o.power n).apply address = o.apply^[n] address := by
  induction n with
  | zero => rw [power, apply_natural, Nat.mod_eq_of_lt h, Function.iterate_zero_apply]
  | succ n ih => rw [power, apply_andThen (o.size_power n), ih, Function.iterate_succ_apply']

theorem power_one (o : BitOrder) : o.power 1 = o :=
  natural_andThen o

theorem power_add (o : BitOrder) (m n : Nat) :
    o.power (m + n) = (o.power m).andThen (o.power n) := by
  induction n with
  | zero =>
    have h := andThen_natural (o.power m)
    rw [size_power] at h
    exact h.symm
  | succ n ih => rw [← Nat.add_assoc, power, ih, andThen_assoc, power]

theorem power_mul (o : BitOrder) (m n : Nat) : o.power (m * n) = (o.power m).power n := by
  induction n with
  | zero => rw [Nat.mul_zero, power, power, size_power]
  | succ n ih => rw [Nat.mul_succ, power_add, ih, power]

theorem gather_append (address : Nat) (as bs : List Nat) :
    gather address (as ++ bs) = gather address as + 2 ^ as.length * gather address bs := by
  induction as with
  | nil => simp [gather]
  | cons a as ih =>
    rw [List.cons_append, gather, gather, ih, List.length_cons, Nat.pow_succ', Nat.mul_add,
      Nat.mul_assoc, Nat.add_assoc]

/-- Raised entries pass over the low bits of the address. -/
theorem gather_map_add (address k : Nat) (bits : List Nat) :
    gather address (bits.map (· + k)) = gather (address / 2 ^ k) bits := by
  induction bits with
  | nil => rfl
  | cons b bits ih =>
    rw [List.map_cons, gather, gather, ih, Nat.testBit_div_two_pow, Nat.add_comm b k]

theorem gather_mod {address k : Nat} {bits : List Nat} (h : ∀ b ∈ bits, b < k) :
    gather (address % 2 ^ k) bits = gather address bits := by
  induction bits with
  | nil => rfl
  | cons b bits ih =>
    rw [List.forall_mem_cons] at h
    rw [gather, gather, ih h.2, Nat.testBit_mod_two_pow, decide_eq_true h.1, Bool.true_and]

/-- One order above another turns the digits of an address around: the high part becomes the low
digit of the result, and the low part the high digit. -/
theorem apply_append (high low : BitOrder) (address : Nat) :
    (high ++ low).apply address =
      high.apply (address / 2 ^ low.size) + 2 ^ high.size * low.apply (address % 2 ^ low.size) := by
  have hlow : gather (address % 2 ^ low.size) low.bits = gather address low.bits :=
    gather_mod low.lt_length
  rw [apply, bits_append, gather_append, gather_map_add, List.length_map, apply, apply, hlow]
  rfl

end StreamingFft.BitOrder
