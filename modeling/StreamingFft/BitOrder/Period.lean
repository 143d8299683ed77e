import StreamingFft.BitOrder.Basic
/-!
The period of an order: how often it must be repeated to give the natural order. The cycles are walked
one after the other, each from its lowest position, and the period is the least common multiple of
their lengths.
-/
namespace StreamingFft.BitOrder

/-- The least common multiple; the division comes first, so that nothing exceeds the result. -/
def leastCommon (a b : Nat) : Nat := a / Nat.gcd a b * b

theorem leastCommon_eq (a b : Nat) : leastCommon a b = Nat.lcm a b := by
  rw [leastCommon, Nat.lcm_eq_mul_div, Nat.div_mul_right_comm (Nat.gcd_dvd_left a b)]

/-- Marked positions. What lies past the end counts as marked. -/
structure Marks where
  flags : Array Bool

namespace Marks

/-- No mark on any of `size` positions. -/
def clear (size : Nat) : Marks := ⟨.replicate size false⟩

def insert (m : Marks) (i : Nat) : Marks := ⟨m.flags.setIfInBounds i true⟩

instance : Membership Nat Marks := ⟨fun m i => m.flags.getD i true = true⟩

instance (i : Nat) (m : Marks) : Decidable (i ∈ m) :=
  inferInstanceAs (Decidable (m.flags.getD i true = true))

theorem mem_iff {i : Nat} {m : Marks} : i ∈ m ↔ m.flags.getD i true = true := Iff.rfl

theorem mem_clear {size i : Nat} : i ∈ clear size ↔ size ≤ i := by
  rw [mem_iff, clear, Array.getD_eq_getD_getElem?, Array.getElem?_replicate]
  by_cases h : i < size
  · simp [h]
  · simp [h, Nat.le_of_not_lt h]

theorem mem_insert {m : Marks} {i j : Nat} : j ∈ m.insert i ↔ j = i ∨ j ∈ m := by
  rw [mem_iff, mem_iff, insert, Array.getD_eq_getD_getElem?, Array.getElem?_setIfInBounds]
  by_cases h : i = j
  · subst h
    by_cases hi : i < m.flags.size <;> simp [hi]
  · simp [h, Ne.symm h]

end Marks

/-- A walk along an order. -/
structure Walk where
  position : Nat
  /-- Steps taken. -/
  length : Nat
  visited : Marks

namespace Walk

/-- Marks the position and goes on to the one that the order names there. -/
def step (next : Nat → Nat) (w : Walk) : Walk where
  position := next w.position
  length := w.length + 1
  visited := w.visited.insert w.position

/-- Takes steps up to a marked position, if `fuel` steps suffice. -/
def run (next : Nat → Nat) : (fuel : Nat) → Walk → Walk
  | 0, w => w
  | fuel + 1, w => if w.position ∈ w.visited then w else run next fuel (w.step next)

end Walk

/-- The cycles walked so far: the least common multiple of their lengths, and their positions. -/
structure Survey where
  multiple : Nat
  visited : Marks

namespace Survey

/-- The walk along the cycle of `start`; no cycle is longer than the order. -/
def walk (next : Nat → Nat) (size : Nat) (s : Survey) (start : Nat) : Walk :=
  Walk.run next size ⟨start, 0, s.visited⟩

/-- Walks the cycle of `start`, unless an earlier walk came by. -/
def extend (next : Nat → Nat) (size : Nat) (s : Survey) (start : Nat) : Survey :=
  if start ∈ s.visited then s
  else
    let w := s.walk next size start
    ⟨leastCommon s.multiple w.length, w.visited⟩

end Survey

/-- The cycles of the positions below `count`. -/
def survey (o : BitOrder) (count : Nat) : Survey :=
  let bits := o.bits.toArray
  (List.range count).foldl (Survey.extend (fun i => bits.getD i i) o.size) ⟨1, .clear o.size⟩

/-- The least common multiple of the cycle lengths. -/
def period (o : BitOrder) : Nat := (o.survey o.size).multiple

theorem survey_zero (o : BitOrder) : o.survey 0 = ⟨1, .clear o.size⟩ := rfl

theorem survey_succ (o : BitOrder) (count : Nat) :
    o.survey (count + 1) = (o.survey count).extend o.bit o.size count := by
  have hbits : (fun i => o.bits.toArray.getD i i) = o.bit := funext o.getD_toArray
  simp only [survey, hbits, List.range_succ, List.foldl_append, List.foldl_cons, List.foldl_nil]

end StreamingFft.BitOrder
