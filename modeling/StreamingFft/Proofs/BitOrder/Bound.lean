import StreamingFft.BitOrder.Word
import StreamingFft.Proofs.BitOrder.Cycles
import StreamingFft.Proofs.Numeric.Checked
/-!
How long a period can be. A walk around a cycle marks as many new positions as it multiplies the period
by at most, so the period is bounded by a power of two with the number of positions in its exponent.
For orders that are shorter than a word, the whole computation stays inside words.
-/
namespace StreamingFft.BitOrder
open Function

theorem iterate_bit_lt (o : BitOrder) {i : Nat} (hi : i < o.size) (n : Nat) :
    o.bit^[n] i < o.size := by
  rw [← o.iterate_next n ⟨i, hi⟩]
  exact Fin.isLt _

/-- The positions below `size` that carry marks. -/
def Marks.within (m : Marks) (size : Nat) : Finset Nat := {i ∈ Finset.range size | i ∈ m}

theorem Marks.card_within_le (m : Marks) (size : Nat) : (m.within size).card ≤ size :=
  (Finset.card_filter_le _ _).trans_eq (Finset.card_range size)

/-- A round marks a position for each of its steps. -/
theorem GoneRound.card_within {o : BitOrder} {start : Nat} {before : Marks} {w : Walk}
    (h : GoneRound o start before w) (hstart : start < o.size) :
    (before.within o.size).card + w.length ≤ (w.visited.within o.size).card := by
  let cycle := (Finset.range w.length).image fun n => o.bit^[n] start
  have hcard : cycle.card = w.length := by
    have hinj : Set.InjOn (fun n => o.bit^[n] start) (Finset.range w.length) := by
      rw [Finset.coe_range, h.length]
      exact iterate_injOn_Iio_minimalPeriod
    rw [Finset.card_image_of_injOn hinj, Finset.card_range]
  have hdisjoint : Disjoint (before.within o.size) cycle := by
    rw [Finset.disjoint_right]
    intro j hj hmem
    obtain ⟨n, -, rfl⟩ := Finset.mem_image.1 hj
    exact h.fresh _ ⟨n, rfl⟩ (Finset.mem_filter.1 hmem).2
  have hsub : before.within o.size ∪ cycle ⊆ w.visited.within o.size := by
    intro j hj
    rw [Marks.within, Finset.mem_filter, h.visited]
    rcases Finset.mem_union.1 hj with hj | hj
    · obtain ⟨hrange, hmem⟩ := Finset.mem_filter.1 hj
      exact ⟨hrange, Or.inl hmem⟩
    · obtain ⟨n, -, rfl⟩ := Finset.mem_image.1 hj
      exact ⟨Finset.mem_range.2 (o.iterate_bit_lt hstart n), Or.inr ⟨n, rfl⟩⟩
  calc (before.within o.size).card + w.length
      = (before.within o.size ∪ cycle).card := by rw [Finset.card_union_of_disjoint hdisjoint, hcard]
    _ ≤ (w.visited.within o.size).card := Finset.card_le_card hsub

theorem leastCommon_le_mul (a b : Nat) : leastCommon a b ≤ a * b :=
  Nat.mul_le_mul_right b (Nat.div_le_self _ _)

/-- The multiple found so far at most doubles with every position that is marked. -/
theorem multiple_survey_le (o : BitOrder) {count : Nat} (hcount : count ≤ o.size) :
    (o.survey count).multiple ≤ 2 ^ ((o.survey count).visited.within o.size).card := by
  induction count with
  | zero => exact Nat.one_le_two_pow
  | succ count ih =>
    have hle := ih (Nat.le_of_succ_le hcount)
    rw [survey_succ, Survey.extend]
    split
    · exact hle
    · next hnew =>
      have hround := o.goneRound_walkFrom hcount hnew
      calc leastCommon (o.survey count).multiple (o.walkFrom count).length
          ≤ (o.survey count).multiple * (o.walkFrom count).length := leastCommon_le_mul _ _
        _ ≤ 2 ^ ((o.survey count).visited.within o.size).card * 2 ^ (o.walkFrom count).length :=
            Nat.mul_le_mul hle Nat.lt_two_pow_self.le
        _ = 2 ^ (((o.survey count).visited.within o.size).card + (o.walkFrom count).length) :=
            (Nat.pow_add _ _ _).symm
        _ ≤ 2 ^ ((o.walkFrom count).visited.within o.size).card :=
            Nat.pow_le_pow_right Nat.two_pos (hround.card_within hcount)

theorem multiple_survey_le_two_pow (o : BitOrder) {count : Nat} (hcount : count ≤ o.size) :
    (o.survey count).multiple ≤ 2 ^ o.size :=
  (o.multiple_survey_le hcount).trans
    (Nat.pow_le_pow_right Nat.two_pos (Marks.card_within_le _ _))

theorem period_le_two_pow (o : BitOrder) : o.period ≤ 2 ^ o.size :=
  o.multiple_survey_le_two_pow (Nat.le_refl _)

/-- The least common multiple in checked words. -/
def leastCommonChecked (a b : Nat) : Option Nat := do
  let divisor ← Checked.gcd a b
  let quotient ← Checked.div a divisor
  Checked.mul quotient b

theorem leastCommonChecked_eq {a b : Nat} (ha : 0 < a) (h : leastCommon a b ≤ maxWord) :
    leastCommonChecked a b = some (leastCommon a b) := by
  have hdiv := Checked.div_of_pos (a := a) (Nat.gcd_pos_of_pos_left b ha)
  have hmul : Checked.mul (a / Nat.gcd a b) b = some (leastCommon a b) := Checked.word_of_le h
  rw [leastCommonChecked, Checked.gcd_eq, Option.bind_eq_bind, Option.bind_some, hdiv,
    Option.bind_some, hmul]

/-- A walk that counts its steps in checked words. -/
def Walk.runChecked (next : Nat → Nat) : (fuel : Nat) → Walk → Option Walk
  | 0, w => some w
  | fuel + 1, w =>
    if w.position ∈ w.visited then some w
    else do
      let length ← Checked.add w.length 1
      runChecked next fuel { w.step next with length }

theorem Walk.runChecked_eq {next : Nat → Nat} {fuel : Nat} {w : Walk}
    (h : w.length + fuel ≤ maxWord) : w.runChecked next fuel = some (w.run next fuel) := by
  induction fuel generalizing w with
  | zero => rfl
  | succ fuel ih =>
    rw [runChecked, run]
    split
    · rfl
    · have hadd : Checked.add w.length 1 = some (w.step next).length :=
        Checked.word_of_le (by omega)
      rw [hadd, Option.bind_eq_bind, Option.bind_some]
      exact ih (Nat.le_trans (Nat.le_of_eq (Nat.add_right_comm _ _ _)) h)

/-- Walks the cycle of `start`, unless an earlier walk came by, and counts in checked words. -/
def Survey.extendChecked (next : Nat → Nat) (size : Nat) (s : Survey) (start : Nat) :
    Option Survey :=
  if start ∈ s.visited then some s
  else do
    let w ← Walk.runChecked next size ⟨start, 0, s.visited⟩
    let multiple ← leastCommonChecked s.multiple w.length
    some ⟨multiple, w.visited⟩

theorem Survey.extendChecked_eq {next : Nat → Nat} {size : Nat} {s : Survey} {start : Nat}
    (hsize : size ≤ maxWord) (hpos : 0 < s.multiple)
    (hfits : (s.extend next size start).multiple ≤ maxWord) :
    s.extendChecked next size start = some (s.extend next size start) := by
  unfold extend at hfits ⊢
  unfold extendChecked
  split
  · rfl
  · next hnew =>
    rw [if_neg hnew] at hfits
    have hrun : Walk.runChecked next size ⟨start, 0, s.visited⟩ = some (s.walk next size start) :=
      Walk.runChecked_eq ((Nat.zero_add size).trans_le hsize)
    rw [hrun, Option.bind_eq_bind, Option.bind_some, leastCommonChecked_eq hpos hfits]
    rfl

/-- The cycles of the positions below `count`, in checked words. -/
def surveyChecked (o : BitOrder) (count : Nat) : Option Survey :=
  (List.range count).foldlM (Survey.extendChecked o.bit o.size) ⟨1, .clear o.size⟩

def periodChecked (o : BitOrder) : Option Nat := (o.surveyChecked o.size).map Survey.multiple

/-- Most address bits of a stream whose length is a word. -/
def mostAddressBits : Nat := 63

theorem two_pow_le_maxWord {k : Nat} (h : k ≤ mostAddressBits) : 2 ^ k ≤ maxWord :=
  (Nat.pow_le_pow_right Nat.two_pos h).trans (by decide)

/-- No multiple on the way is too large for a word. -/
theorem surveyChecked_eq {o : BitOrder} (h : o.size ≤ mostAddressBits) {count : Nat}
    (hcount : count ≤ o.size) : o.surveyChecked count = some (o.survey count) := by
  induction count with
  | zero => rfl
  | succ count ih =>
    have hbefore := Nat.le_of_succ_le hcount
    have hstep : (o.survey count).extendChecked o.bit o.size count = some (o.survey (count + 1)) := by
      have hfits := (o.multiple_survey_le_two_pow hcount).trans (two_pow_le_maxWord h)
      rw [survey_succ] at hfits ⊢
      exact Survey.extendChecked_eq (h.trans (by decide))
        ((o.surveyed_survey hbefore).multiple_pos hbefore) hfits
    have hsurvey : o.surveyChecked count = some (o.survey count) := ih hbefore
    rw [surveyChecked] at hsurvey ⊢
    rw [List.range_succ, List.foldlM_append, hsurvey, Option.bind_eq_bind, Option.bind_some,
      List.foldlM_cons, hstep]
    rfl

theorem periodChecked_eq {o : BitOrder} (h : o.size ≤ mostAddressBits) :
    o.periodChecked = some o.period := by
  rw [periodChecked, surveyChecked_eq h (Nat.le_refl _)]
  rfl

theorem periodWord_eq {o : BitOrder} (h : o.size ≤ mostAddressBits) :
    o.periodWord = .ok o.period :=
  if_pos (o.period_le_two_pow.trans (two_pow_le_maxWord h))

end StreamingFft.BitOrder
