import StreamingFft.Proofs.BitOrder.Visits
/-!
The period of an order is the order of the permutation: the order repeated `n` times is natural just
when its period divides `n`.
-/
namespace StreamingFft.BitOrder
open Function

theorem period_dvd_iff (o : BitOrder) (n : Nat) :
    o.period ∣ n ↔ ∀ i < o.size, minimalPeriod o.bit i ∣ n :=
  (o.surveyed_survey (Nat.le_refl o.size)).multiple n

/-- The exponents whose power is natural are the multiples of the period. -/
theorem power_eq_natural_iff (o : BitOrder) (n : Nat) :
    o.power n = natural o.size ↔ o.period ∣ n := by
  rw [period_dvd_iff]
  constructor
  · intro h i _
    apply isPeriodicPt_iff_minimalPeriod_dvd.1
    have hbit : (o.power n).bit i = i := by rw [h, bit_natural]
    rwa [bit_power] at hbit
  · intro h
    apply ext_bit (by rw [size_power, size_natural])
    intro i hi
    rw [size_power] at hi
    rw [bit_power, bit_natural]
    exact isPeriodicPt_iff_minimalPeriod_dvd.2 (h i hi)

theorem period_pos (o : BitOrder) : 0 < o.period :=
  (o.surveyed_survey (Nat.le_refl o.size)).multiple_pos (Nat.le_refl o.size)

/-- Exponents count modulo the period. -/
theorem power_mod_period (o : BitOrder) (n : Nat) : o.power (n % o.period) = o.power n := by
  have hcycle : o.power (o.period * (n / o.period)) = natural o.size :=
    (o.power_eq_natural_iff _).2 (Nat.dvd_mul_right _ _)
  have hadd : o.power n = (o.power (o.period * (n / o.period))).andThen (o.power (n % o.period)) := by
    rw [← power_add, Nat.div_add_mod]
  have hnat := natural_andThen (o.power (n % o.period))
  rw [size_power] at hnat
  rw [hadd, hcycle, hnat]

theorem eq_natural_of_andThen_eq {o p : BitOrder} (hsize : p.size = o.size)
    (h : o.andThen p = o) : p = natural o.size := by
  apply ext_bit (hsize.trans (size_natural _).symm)
  intro i _
  have hbit := congrArg (fun q => q.bit i) h
  rw [bit_andThen] at hbit
  exact (o.bit_inj.1 hbit).trans (bit_natural _ _).symm

/-- Within one period, no power comes a second time. -/
theorem power_injOn_period {o : BitOrder} {m n : Nat} (hm : m < o.period) (hn : n < o.period)
    (h : o.power m = o.power n) : m = n := by
  wlog hle : m ≤ n generalizing m n
  · exact (this hn hm h.symm (Nat.le_of_not_le hle)).symm
  -- between two equal powers, the order has come around to the natural one
  obtain ⟨k, rfl⟩ := Nat.exists_eq_add_of_le hle
  rw [power_add] at h
  have hnatural := eq_natural_of_andThen_eq (by rw [size_power, size_power]) h.symm
  rw [size_power, power_eq_natural_iff] at hnatural
  have hk : k = 0 := Nat.eq_zero_of_dvd_of_lt hnatural ((Nat.le_add_left k m).trans_lt hn)
  rw [hk, Nat.add_zero]

theorem isNatural_power_iff (o : BitOrder) (n : Nat) :
    (o.power n).isNatural = true ↔ o.period ∣ n := by
  rw [isNatural_iff, size_power, power_eq_natural_iff]

/-- The period is the least exponent whose power is natural, and it is found by walking every cycle
once around. -/
theorem period_isLeast_and_goneRound (o : BitOrder) :
    (∀ count, (o.power count).isNatural = true ↔ o.period ∣ count) ∧
      IsLeast {n | 1 ≤ n ∧ (o.power n).isNatural = true} o.period ∧
      ∀ start < o.size, start ∉ (o.survey start).visited →
        GoneRound o start (o.survey start).visited (o.walkFrom start) := by
  refine ⟨o.isNatural_power_iff, ⟨⟨o.period_pos, ?_⟩, ?_⟩, ?_⟩
  · exact (o.isNatural_power_iff _).2 (Nat.dvd_refl _)
  · rintro n ⟨hn, hnatural⟩
    exact Nat.le_of_dvd hn ((o.isNatural_power_iff n).1 hnatural)
  · intro start hstart hnew
    exact o.goneRound_walkFrom hstart hnew

/-- A cycle of three bits, a cycle of two between them, and two bits that stay. -/
def interleaved : BitOrder := ⟨[2, 4, 5, 3, 1, 0, 6], by decide, by decide⟩

/-- The second walk begins at bit 1 and goes around a cycle of two. -/
theorem goneRound_interleaved :
    interleaved.period = 6 ∧ ((interleaved.power 12).isNatural = true ↔ interleaved.period ∣ 12) ∧
      1 < interleaved.size ∧ 1 ∉ (interleaved.survey 1).visited ∧
      GoneRound interleaved 1 (interleaved.survey 1).visited (interleaved.walkFrom 1) := by
  have hperiod : interleaved.period = 6 := by decide
  have hsize : 1 < interleaved.size := by decide
  have hnew : 1 ∉ (interleaved.survey 1).visited := by decide
  obtain ⟨hpower, -, hround⟩ := period_isLeast_and_goneRound interleaved
  exact ⟨hperiod, hpower 12, hsize, hnew, hround 1 hsize hnew⟩

end StreamingFft.BitOrder
