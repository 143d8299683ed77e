import Mathlib.Dynamics.PeriodicPts.Lemmas
import StreamingFft.BitOrder.Period
import StreamingFft.Proofs.BitOrder.Action
/-!
The walks along the cycles of an order. Marks are always on whole cycles, so a walk from a position
without a mark goes once around its cycle and ends where it began, and every cycle is walked once.
-/
namespace StreamingFft.BitOrder
open Function

theorem iterate_next (o : BitOrder) (n : Nat) (i : Fin o.size) :
    (o.next^[n] i : Nat) = o.bit^[n] i := by
  induction n generalizing i with
  | zero => rfl
  | succ n ih => exact ih (o.next i)

theorem minimalPeriod_next (o : BitOrder) (i : Fin o.size) :
    minimalPeriod o.next i = minimalPeriod o.bit i := by
  apply minimalPeriod_eq_minimalPeriod_iff.2
  intro n
  rw [IsPeriodicPt, IsPeriodicPt, IsFixedPt, IsFixedPt, ← iterate_next, Fin.ext_iff]

theorem minimalPeriod_bit_pos (o : BitOrder) {i : Nat} (hi : i < o.size) :
    0 < minimalPeriod o.bit i := by
  rw [← o.minimalPeriod_next ⟨i, hi⟩]
  exact minimalPeriod_pos_of_mem_periodicPts (o.next_injective.mem_periodicPts _)

theorem minimalPeriod_bit_le (o : BitOrder) {i : Nat} (hi : i < o.size) :
    minimalPeriod o.bit i ≤ o.size := by
  rw [← o.minimalPeriod_next ⟨i, hi⟩]
  exact minimalPeriod_le_card.trans_eq (Fintype.card_fin _)

/-- The positions on the cycle of a position. -/
def OnCycle (o : BitOrder) (i j : Nat) : Prop := ∃ n, o.bit^[n] i = j

namespace Walk

/-- Where `n` steps lead, how many they are, and what they mark. -/
theorem iterate_step (next : Nat → Nat) (start : Nat) (marks : Marks) (n : Nat) :
    ((step next)^[n] ⟨start, 0, marks⟩).position = next^[n] start ∧
      ((step next)^[n] ⟨start, 0, marks⟩).length = n ∧
      ∀ j, j ∈ ((step next)^[n] ⟨start, 0, marks⟩).visited ↔
        j ∈ marks ∨ ∃ t < n, next^[t] start = j := by
  induction n with
  | zero => simp
  | succ n ih =>
    obtain ⟨hposition, hlength, hvisited⟩ := ih
    rw [iterate_succ_apply']
    refine ⟨?_, congrArg (· + 1) hlength, ?_⟩
    · rw [iterate_succ_apply', ← hposition]
      rfl
    · intro j
      change j ∈ Marks.insert _ _ ↔ _
      rw [Marks.mem_insert, hvisited, hposition]
      constructor
      · rintro (rfl | h | ⟨t, ht, rfl⟩)
        · exact Or.inr ⟨n, Nat.lt_succ_self n, rfl⟩
        · exact Or.inl h
        · exact Or.inr ⟨t, Nat.lt_succ_of_lt ht, rfl⟩
      · rintro (h | ⟨t, ht, rfl⟩)
        · exact Or.inr (Or.inl h)
        · rcases Nat.lt_succ_iff_lt_or_eq.1 ht with ht | rfl
          · exact Or.inr (Or.inr ⟨t, ht, rfl⟩)
          · exact Or.inl rfl

/-- A walk over fresh positions stops when it is back at its start. -/
theorem run_eq {next : Nat → Nat} {start : Nat} {marks : Marks} {fuel : Nat}
    (hpos : 0 < minimalPeriod next start) (hfresh : ∀ n, next^[n] start ∉ marks) {n : Nat}
    (hn : n ≤ minimalPeriod next start) (hfuel : minimalPeriod next start ≤ n + fuel) :
    run next fuel ((step next)^[n] ⟨start, 0, marks⟩) =
      (step next)^[minimalPeriod next start] ⟨start, 0, marks⟩ := by
  induction fuel generalizing n with
  | zero =>
    rw [Nat.le_antisymm hn hfuel]
    rfl
  | succ fuel ih =>
    obtain ⟨hposition, -, hvisited⟩ := iterate_step next start marks n
    rcases Nat.lt_or_eq_of_le hn with hlt | rfl
    · rw [run, if_neg, ← iterate_succ_apply' (step next)]
      · exact ih hlt (by omega)
      · -- before the period is over, no position comes a second time
        rw [hvisited, hposition]
        rintro (h | ⟨t, ht, h⟩)
        · exact hfresh n h
        · exact ht.ne (iterate_injOn_Iio_minimalPeriod (ht.trans hlt) hlt h)
    · rw [run, if_pos]
      rw [hvisited, hposition]
      exact Or.inr ⟨0, hpos, iterate_minimalPeriod.symm⟩

end Walk

/-- The positions marked by a walk are those on the cycle of its start. -/
theorem exists_lt_minimalPeriod_iff (o : BitOrder) {i j : Nat} (hi : i < o.size) :
    (∃ t < minimalPeriod o.bit i, o.bit^[t] i = j) ↔ o.OnCycle i j := by
  constructor
  · rintro ⟨t, -, ht⟩
    exact ⟨t, ht⟩
  · rintro ⟨n, rfl⟩
    exact ⟨n % minimalPeriod o.bit i, Nat.mod_lt _ (o.minimalPeriod_bit_pos hi),
      iterate_mod_minimalPeriod_eq⟩

theorem OnCycle.trans {o : BitOrder} {i j k : Nat} (hij : o.OnCycle i j) (hjk : o.OnCycle j k) :
    o.OnCycle i k := by
  obtain ⟨m, rfl⟩ := hij
  obtain ⟨n, rfl⟩ := hjk
  exact ⟨n + m, iterate_add_apply _ _ _ _⟩

/-- Positions on one cycle have one period. -/
theorem OnCycle.minimalPeriod_eq {o : BitOrder} {i j : Nat} (hi : i < o.size) (h : o.OnCycle i j) :
    minimalPeriod o.bit j = minimalPeriod o.bit i := by
  obtain ⟨n, rfl⟩ := h
  exact minimalPeriod_apply_iterate (minimalPeriod_pos_iff_mem_periodicPts.1
    (o.minimalPeriod_bit_pos hi)) n

/-- No step leads on to a cycle or off it. -/
theorem onCycle_bit_iff (o : BitOrder) {i j : Nat} (hi : i < o.size) :
    o.OnCycle i (o.bit j) ↔ o.OnCycle i j := by
  constructor
  · rintro ⟨n, hn⟩
    -- one round more makes sure that there is a last step
    obtain ⟨p, hp⟩ := Nat.exists_eq_succ_of_ne_zero (o.minimalPeriod_bit_pos hi).ne'
    refine ⟨n + p, o.bit_inj.1 ?_⟩
    rw [← iterate_succ_apply' o.bit, ← Nat.add_succ, ← hp, iterate_add_apply,
      iterate_minimalPeriod, hn]
  · rintro ⟨n, rfl⟩
    exact ⟨n + 1, iterate_succ_apply' _ _ _⟩

/-- The marks are on whole cycles. -/
def Marks.Closed (o : BitOrder) (m : Marks) : Prop := ∀ j, o.bit j ∈ m ↔ j ∈ m

theorem Marks.Closed.iterate {o : BitOrder} {m : Marks} (h : m.Closed o) (n j : Nat) :
    o.bit^[n] j ∈ m ↔ j ∈ m := by
  induction n with
  | zero => rfl
  | succ n ih => rw [iterate_succ_apply', h, ih]

/-- The walk that starts at a position when all lower ones have been looked at. -/
def walkFrom (o : BitOrder) (start : Nat) : Walk :=
  (o.survey start).walk o.bit o.size start

/-- What a walk along a cycle has done when it stops. -/
structure GoneRound (o : BitOrder) (start : Nat) (before : Marks) (w : Walk) : Prop where
  position : w.position = start
  /-- It stops because a mark is there. -/
  stopped : w.position ∈ w.visited
  length : w.length = minimalPeriod o.bit start
  fresh : ∀ j, o.OnCycle start j → j ∉ before
  visited : ∀ j, j ∈ w.visited ↔ j ∈ before ∨ o.OnCycle start j

theorem goneRound_walk (o : BitOrder) {s : Survey} {start : Nat} (hstart : start < o.size)
    (hclosed : s.visited.Closed o) (hnew : start ∉ s.visited) :
    GoneRound o start s.visited (s.walk o.bit o.size start) := by
  have hfresh : ∀ n, o.bit^[n] start ∉ s.visited := fun n h => hnew ((hclosed.iterate n start).1 h)
  have hrun : s.walk o.bit o.size start =
      (Walk.step o.bit)^[minimalPeriod o.bit start] ⟨start, 0, s.visited⟩ :=
    Walk.run_eq (n := 0) (o.minimalPeriod_bit_pos hstart) hfresh (Nat.zero_le _)
      ((o.minimalPeriod_bit_le hstart).trans_eq (Nat.zero_add _).symm)
  obtain ⟨hposition, hlength, hvisited⟩ :=
    Walk.iterate_step o.bit start s.visited (minimalPeriod o.bit start)
  have hback := hposition.trans (iterate_minimalPeriod (f := o.bit) (x := start))
  have hcycle : ∀ j, j ∈ ((Walk.step o.bit)^[minimalPeriod o.bit start]
      ⟨start, 0, s.visited⟩).visited ↔ j ∈ s.visited ∨ o.OnCycle start j := by
    intro j
    rw [hvisited, o.exists_lt_minimalPeriod_iff hstart]
  rw [hrun]
  refine ⟨hback, ?_, hlength, ?_, hcycle⟩
  · rw [hback]
    exact (hcycle start).2 (Or.inr ⟨0, rfl⟩)
  · rintro j ⟨n, rfl⟩
    exact hfresh n

/-- What has been found when the starts below `count` have been looked at. -/
structure Surveyed (o : BitOrder) (count : Nat) (s : Survey) : Prop where
  visited : ∀ j, j ∈ s.visited ↔ o.size ≤ j ∨ ∃ i < count, o.OnCycle i j
  multiple : ∀ n, s.multiple ∣ n ↔ ∀ i < count, minimalPeriod o.bit i ∣ n

theorem Surveyed.closed {o : BitOrder} {count : Nat} {s : Survey} (h : Surveyed o count s)
    (hcount : count ≤ o.size) : s.visited.Closed o := by
  intro j
  have hend : o.size ≤ o.bit j ↔ o.size ≤ j := by
    constructor
    · intro hj
      exact Nat.le_of_not_lt fun hlt => absurd (o.bit_lt hlt) (Nat.not_lt.2 hj)
    · intro hj
      rwa [o.bit_of_ge hj]
  have hcycle : (∃ i < count, o.OnCycle i (o.bit j)) ↔ ∃ i < count, o.OnCycle i j :=
    exists_congr fun i => and_congr_right fun hi => o.onCycle_bit_iff (hi.trans_le hcount)
  rw [h.visited, h.visited, hend, hcycle]

theorem Surveyed.multiple_pos {o : BitOrder} {count : Nat} {s : Survey} (h : Surveyed o count s)
    (hcount : count ≤ o.size) : 0 < s.multiple := by
  -- every cycle has a length up to the size, so their multiple divides a factorial
  have hfact : s.multiple ∣ o.size.factorial := by
    rw [h.multiple]
    intro i hi
    have hsize := hi.trans_le hcount
    exact Nat.dvd_factorial (o.minimalPeriod_bit_pos hsize) (o.minimalPeriod_bit_le hsize)
  exact Nat.pos_of_dvd_of_pos hfact (Nat.factorial_pos _)

theorem surveyed_zero (o : BitOrder) : Surveyed o 0 (o.survey 0) where
  visited j := by simp [survey_zero, Marks.mem_clear]
  multiple n := by simp [survey_zero]

theorem surveyed_succ {o : BitOrder} {count : Nat} (hcount : count < o.size)
    (h : Surveyed o count (o.survey count)) : Surveyed o (count + 1) (o.survey (count + 1)) := by
  rw [survey_succ, Survey.extend]
  split
  · next hold =>
    -- the cycle of this start has been walked from a lower position
    obtain ⟨i, hi, hcycle⟩ := ((h.visited count).1 hold).resolve_left (Nat.not_le.2 hcount)
    constructor
    · intro j
      rw [h.visited, Nat.exists_lt_succ_right]
      refine or_congr_right ⟨Or.inl, ?_⟩
      rintro (hj | hj)
      · exact hj
      · exact ⟨i, hi, hcycle.trans hj⟩
    · intro n
      rw [h.multiple, Nat.forall_lt_succ_right, hcycle.minimalPeriod_eq (hi.trans hcount)]
      exact ⟨fun hall => ⟨hall, hall i hi⟩, And.left⟩
  · next hnew =>
    have hround := o.goneRound_walk hcount (h.closed hcount.le) hnew
    constructor
    · intro j
      rw [hround.visited, h.visited, Nat.exists_lt_succ_right, or_assoc]
    · intro n
      change leastCommon _ _ ∣ n ↔ _
      rw [leastCommon_eq, Nat.lcm_dvd_iff, h.multiple, hround.length, Nat.forall_lt_succ_right]

theorem surveyed_survey (o : BitOrder) {count : Nat} (hcount : count ≤ o.size) :
    Surveyed o count (o.survey count) := by
  induction count with
  | zero => exact o.surveyed_zero
  | succ count ih => exact surveyed_succ hcount (ih (Nat.le_of_succ_le hcount))

/-- Every walk goes once around a cycle that no earlier walk has touched. -/
theorem goneRound_walkFrom (o : BitOrder) {start : Nat} (hstart : start < o.size)
    (hnew : start ∉ (o.survey start).visited) :
    GoneRound o start (o.survey start).visited (o.walkFrom start) :=
  o.goneRound_walk hstart ((o.surveyed_survey hstart.le).closed hstart.le) hnew

end StreamingFft.BitOrder
