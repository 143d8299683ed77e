import StreamingFft.PermutationNetwork
import StreamingFft.Proofs.BitOrder.Cycles
/-!
The schedule of a permutation network: a counter value stands for that power of the order, as far as
the counter has bits, and the counter has bits for a whole period.
-/
namespace StreamingFft
open BitOrder

theorem le_two_pow_counterBits (n : Nat) : n ≤ 2 ^ counterBits n := by
  unfold counterBits
  split
  · omega
  · have h := Nat.lt_log2_self (n := n - 1)
    omega

theorem counterBits_le_iff (n w : Nat) : counterBits n ≤ w ↔ n ≤ 2 ^ w := by
  constructor
  · intro h
    exact (le_two_pow_counterBits n).trans (Nat.pow_le_pow_right Nat.two_pos h)
  · intro h
    unfold counterBits
    split
    · exact Nat.zero_le w
    · next hn =>
      rw [Nat.succ_le_iff, Nat.log2_lt (by omega)]
      omega

namespace PermutationNetwork

@[simp] theorem length_squares (o : BitOrder) (n : Nat) : (squares o n).length = n := by
  induction n generalizing o with
  | zero => rfl
  | succ n ih => rw [squares, List.length_cons, ih]

theorem power_two (o : BitOrder) : o.power 2 = o.andThen o := by
  rw [power, power_one]

/-- Stage `i` repeats the order `2 ^ i` times. -/
theorem getElem?_squares (o : BitOrder) {n i : Nat} (hi : i < n) :
    (squares o n)[i]? = some (o.power (2 ^ i)) := by
  induction n generalizing o i with
  | zero => omega
  | succ n ih =>
    rw [squares]
    cases i with
    | zero => rw [List.getElem?_cons_zero, Nat.pow_zero, power_one]
    | succ i =>
      rw [List.getElem?_cons_succ, ih _ (by omega), ← power_two, ← power_mul, Nat.pow_succ,
        Nat.mul_comm]

theorem mem_squares {o s : BitOrder} {n : Nat} (h : s ∈ squares o n) :
    ∃ i < n, s = o.power (2 ^ i) := by
  obtain ⟨i, hi, rfl⟩ := List.mem_iff_getElem.1 h
  rw [length_squares] at hi
  refine ⟨i, hi, Option.some.inj ?_⟩
  rw [← getElem?_squares o hi, List.getElem?_eq_getElem]

theorem size_of_mem_squares {o s : BitOrder} {n : Nat} (h : s ∈ squares o n) :
    s.size = o.size := by
  obtain ⟨i, _, rfl⟩ := mem_squares h
  exact size_power ..

/-- One stage takes the lowest bit of the counter, and the others run on twice the order. -/
theorem power_low_bit (q : BitOrder) (n c : Nat) :
    (if c % 2 = 1 then q else natural q.size).andThen ((q.power 2).power (c / 2 % 2 ^ n)) =
      q.power (c % 2 ^ (n + 1)) := by
  have hc : c % 2 ^ (n + 1) = c % 2 + 2 * (c / 2 % 2 ^ n) := by
    rw [Nat.pow_succ', Nat.mod_mul]
  rw [hc, power_add, power_mul]
  congr 1
  rcases Nat.mod_two_eq_zero_or_one c with h | h
  · rw [h, if_neg Nat.zero_ne_one]
    rfl
  · rw [h, if_pos rfl, power_one]

theorem chain_squares (acc q : BitOrder) (n c : Nat) (h : acc.size = q.size) :
    chain acc (squares q n) c = acc.andThen (q.power (c % 2 ^ n)) := by
  induction n generalizing acc q c with
  | zero =>
    have hacc := andThen_natural acc
    rw [h] at hacc
    rw [squares, chain, Nat.pow_zero, Nat.mod_one, power, hacc]
  | succ n ih =>
    have hstep : (if c % 2 = 1 then acc.andThen q else acc) =
        acc.andThen (if c % 2 = 1 then q else natural q.size) := by
      split
      · rfl
      · rw [← h, andThen_natural]
    have hsize : (if c % 2 = 1 then q else natural q.size).size = q.size := by
      split
      · rfl
      · exact size_natural _
    -- the accumulator takes the lowest bit; the other stages are the network of the square
    rw [squares, chain, hstep, ← power_two, ih _ _ _ (by
      rw [size_andThen, hsize, size_power, h, Nat.max_self]), andThen_assoc, power_low_bit]

@[simp] theorem size_ofOrder (o : BitOrder) : (ofOrder o).size = o.size := rfl

/-- The bits of the counter beyond the network do not count. -/
theorem schedule_ofOrder (o : BitOrder) (count : Nat) :
    (ofOrder o).schedule count = o.power (count % 2 ^ (ofOrder o).counterBits) := by
  have hnat := natural_andThen (o.power (count % 2 ^ (ofOrder o).counterBits))
  rw [size_power] at hnat
  exact (chain_squares (natural o.size) o _ count (size_natural _)).trans hnat

theorem schedule_of_lt (o : BitOrder) {count : Nat} (h : count < 2 ^ (ofOrder o).counterBits) :
    (ofOrder o).schedule count = o.power count := by
  rw [schedule_ofOrder, Nat.mod_eq_of_lt h]

/-- Frames follow the powers of the order for ever, also where the counter starts again. -/
theorem schedule_mod_period (o : BitOrder) (frame : Nat) :
    (ofOrder o).schedule (frame % (ofOrder o).period) = o.power frame := by
  have hlt : frame % o.period < 2 ^ StreamingFft.counterBits o.period :=
    (Nat.mod_lt _ o.period_pos).trans_le (le_two_pow_counterBits _)
  exact (schedule_of_lt o hlt).trans (o.power_mod_period frame)

/-- The counter has no bit too many. -/
theorem two_pow_lt_period {o : BitOrder} {k : Nat} (h : k < (ofOrder o).counterBits) :
    2 ^ k < o.period :=
  Nat.lt_of_not_le fun hle => Nat.not_le.2 h ((counterBits_le_iff _ k).2 hle)

/-- A word counts all states of the counter if the period leaves it one bit. -/
theorem ofOrderWord_of_le {o : BitOrder} (h : o.period ≤ 2 ^ 63) :
    ofOrderWord o = .ok (ofOrder o) := by
  have hbits : (ofOrder o).counterBits ≤ 63 := (counterBits_le_iff _ _).2 h
  have hpow : 2 ^ (ofOrder o).counterBits ≤ 2 ^ 63 := Nat.pow_le_pow_right Nat.two_pos hbits
  exact if_pos (hpow.trans (by decide))

/-- Behind the last frame of a period stands the natural order, whether the counter stops there or has
more states. -/
theorem schedule_period (o : BitOrder) :
    (ofOrder o).schedule (ofOrder o).period = natural o.size := by
  rcases (le_two_pow_counterBits o.period).lt_or_eq with hlt | heq
  · exact (schedule_of_lt o hlt).trans ((o.power_eq_natural_iff _).2 (Nat.dvd_refl _))
  · have hwrap : (ofOrder o).period % 2 ^ (ofOrder o).counterBits = 0 :=
      Nat.mod_eq_zero_of_dvd (dvd_of_eq heq.symm)
    rw [schedule_ofOrder, hwrap, power]

/-- A network that repeats an order by squaring it. -/
structure BySquaring (p : PermutationNetwork) (o : BitOrder) : Prop where
  period_eq : p.period = o.period
  length_stages : p.stages.length = p.counterBits
  stage : ∀ i < p.counterBits, p.stages[i]? = some (o.power (2 ^ i))
  /-- Bits of the count that the network has no stage for do not matter. -/
  schedule_eq : ∀ count, p.schedule count = o.power (count % 2 ^ p.counterBits)
  period_le : p.period ≤ 2 ^ p.counterBits
  lt_period : 0 < p.counterBits → 2 ^ (p.counterBits - 1) < p.period
  distinct : ∀ m < p.period, ∀ n < p.period, p.schedule m = p.schedule n → m = n
  natural_again : (p.schedule p.period).isNatural = true

theorem exists_ofOrderWord_bySquaring {o : BitOrder} (h : o.period ≤ 2 ^ 63) :
    ∃ p, ofOrderWord o = .ok p ∧ p.BySquaring o := by
  refine ⟨ofOrder o, ofOrderWord_of_le h, rfl, length_squares _ _, ?_, schedule_ofOrder o,
    le_two_pow_counterBits _, ?_, ?_, ?_⟩
  · intro i hi
    exact getElem?_squares o hi
  · intro hpos
    exact two_pow_lt_period (Nat.sub_lt hpos Nat.one_pos)
  · intro m hm n hn heq
    have hbits := le_two_pow_counterBits o.period
    rw [schedule_of_lt o (hm.trans_le hbits), schedule_of_lt o (hn.trans_le hbits)] at heq
    exact power_injOn_period hm hn heq
  · rw [schedule_period, isNatural_iff, size_natural]

/-- Four bits in one cycle. -/
def ringOfFour : BitOrder := ⟨[1, 2, 3, 0], by decide, by decide⟩

/-- The period of four bits in a ring is all that two counter bits can count; cycles of three and of
two bits leave two of eight counter values over. -/
theorem bySquaring_ring_interleaved :
    ringOfFour.period = 2 ^ 2 ∧ (∃ p, ofOrderWord ringOfFour = .ok p ∧ p.BySquaring ringOfFour) ∧
      interleaved.period = 6 ∧
      ∃ p, ofOrderWord interleaved = .ok p ∧ p.BySquaring interleaved := by
  have hring : ringOfFour.period = 2 ^ 2 := by decide
  have hinterleaved : interleaved.period = 6 := by decide
  exact ⟨hring, exists_ofOrderWord_bySquaring (hring.trans_le (by decide)), hinterleaved,
    exists_ofOrderWord_bySquaring (hinterleaved.trans_le (by decide))⟩

end PermutationNetwork
end StreamingFft
