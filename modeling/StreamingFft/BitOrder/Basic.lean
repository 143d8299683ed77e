import StreamingFft.Fault
/-!
Orders of address bits. Entry `i` of an order names the bit of the natural address that stands at
position `i` of the represented address.
-/
namespace StreamingFft

/-- A permutation of the address bits `0 .. length - 1`. -/
structure BitOrder where
  bits : List Nat
  nodup : bits.Nodup
  lt_length : ∀ b ∈ bits, b < bits.length
deriving DecidableEq

namespace BitOrder

/-- The number of address bits. -/
def size (o : BitOrder) : Nat := o.bits.length

@[ext] theorem ext {o p : BitOrder} (h : o.bits = p.bits) : o = p := by
  cases o; cases p; cases h; rfl

/-- The order with these entries. -/
def ofEntries (bits : List Nat) (h : bits.Nodup ∧ ∀ b ∈ bits, b < bits.length) : BitOrder :=
  ⟨bits, h.1, h.2⟩

/-- Accepts exactly the permutations of `0 .. length - 1`. -/
def ofList (bits : List Nat) : Except Fault BitOrder :=
  if h : bits.Nodup ∧ ∀ b ∈ bits, b < bits.length then .ok (ofEntries bits h)
  else .error (.notPermutation bits)

/-- The bit at position `i`; positions past the end keep theirs. -/
def bit (o : BitOrder) (i : Nat) : Nat :=
  o.bits.getD i i

theorem bit_of_lt (o : BitOrder) {i : Nat} (h : i < o.size) : o.bit i = o.bits.get ⟨i, h⟩ := by
  simp only [bit, List.getD_eq_getElem?_getD, List.getElem?_eq_getElem h]
  rfl

theorem bit_of_ge (o : BitOrder) {i : Nat} (h : o.size ≤ i) : o.bit i = i := by
  simp [bit, List.getD_eq_getElem?_getD, List.getElem?_eq_none h]

theorem bit_lt (o : BitOrder) {i : Nat} (h : i < o.size) : o.bit i < o.size := by
  rw [bit_of_lt o h]
  exact o.lt_length _ (List.get_mem ..)

private theorem get_ne_of_nodup {l : List Nat} (h : l.Nodup) {i j : Nat} (hij : i < j)
    (hj : j < l.length) : l.get ⟨i, Nat.lt_trans hij hj⟩ ≠ l.get ⟨j, hj⟩ :=
  List.pairwise_iff_getElem.1 (List.nodup_iff_pairwise_ne.1 h) i j _ hj hij

theorem bit_inj (o : BitOrder) {i j : Nat} : o.bit i = o.bit j ↔ i = j := by
  constructor
  · intro h
    by_cases hi : i < o.size <;> by_cases hj : j < o.size
    · rw [bit_of_lt o hi, bit_of_lt o hj] at h
      rcases Nat.lt_trichotomy i j with hij | hij | hij
      · exact absurd h (get_ne_of_nodup o.nodup hij hj)
      · exact hij
      · exact absurd h.symm (get_ne_of_nodup o.nodup hij hi)
    · have := bit_lt o hi
      rw [h, bit_of_ge o (Nat.le_of_not_lt hj)] at this
      exact absurd this hj
    · have := bit_lt o hj
      rw [← h, bit_of_ge o (Nat.le_of_not_lt hi)] at this
      exact absurd this hi
    · rwa [bit_of_ge o (Nat.le_of_not_lt hi), bit_of_ge o (Nat.le_of_not_lt hj)] at h
  · rintro rfl; rfl

/-- The order of `k` bits that lists an injective map of `0 .. k - 1`. -/
def ofMap (k : Nat) (f : Nat → Nat) (inj : ∀ i < k, ∀ j < k, f i = f j → i = j)
    (lt : ∀ i < k, f i < k) : BitOrder where
  bits := (List.range k).map f
  nodup := by
    rw [List.nodup_iff_pairwise_ne, List.pairwise_map]
    refine List.Pairwise.imp_of_mem ?_ (List.nodup_iff_pairwise_ne.1 List.nodup_range)
    intro i j hi hj hne heq
    exact hne (inj i (List.mem_range.1 hi) j (List.mem_range.1 hj) heq)
  lt_length := by
    intro b hb
    obtain ⟨i, hi, rfl⟩ := List.mem_map.1 hb
    simpa using lt i (List.mem_range.1 hi)

/-- Every bit in its own place. -/
def natural (k : Nat) : BitOrder where
  bits := List.range k
  nodup := List.nodup_range
  lt_length := by simp

/-- The highest bit first. -/
def reversed (k : Nat) : BitOrder where
  bits := (List.range k).reverse
  nodup := by
    rw [List.nodup_iff_pairwise_ne, List.pairwise_reverse]
    exact (List.nodup_iff_pairwise_ne.1 List.nodup_range).imp Ne.symm
  lt_length := by simp

/-- Whether the order leaves addresses as they are. -/
def isNatural (o : BitOrder) : Bool :=
  decide (o = natural o.size)

/-- An array of the entries gives the same bits. -/
theorem getD_toArray (o : BitOrder) (i : Nat) : o.bits.toArray.getD i i = o.bit i := by
  simp [bit]

/-- The order that has the effect of `o` followed by that of `p`. -/
def andThen (o p : BitOrder) : BitOrder :=
  let os := o.bits.toArray
  let ps := p.bits.toArray
  ofMap (max o.size p.size)
    (fun i =>
      let j := ps.getD i i
      os.getD j j)
    (by
      intro i _ j _ h
      simp only [os, ps, getD_toArray] at h
      exact p.bit_inj.1 (o.bit_inj.1 h))
    (by
      intro i hi
      simp only [os, ps, getD_toArray]
      have hp : p.bit i < max o.size p.size := by
        by_cases h : i < p.size
        · exact Nat.lt_of_lt_of_le (p.bit_lt h) (Nat.le_max_right ..)
        · rwa [p.bit_of_ge (Nat.le_of_not_lt h)]
      by_cases h : p.bit i < o.size
      · exact Nat.lt_of_lt_of_le (o.bit_lt h) (Nat.le_max_left ..)
      · rwa [o.bit_of_ge (Nat.le_of_not_lt h)])

/-- The order repeated `n` times. -/
def power (o : BitOrder) : Nat → BitOrder
  | 0 => natural o.size
  | n + 1 => (o.power n).andThen o

/-- `high` above `low`: the entries of `high` are raised by the size of `low` and come first. -/
def stack (high low : BitOrder) : BitOrder where
  bits := high.bits.map (· + low.size) ++ low.bits
  nodup := by
    rw [List.nodup_append]
    refine ⟨?_, low.nodup, ?_⟩
    · rw [List.nodup_iff_pairwise_ne, List.pairwise_map]
      exact (List.nodup_iff_pairwise_ne.1 high.nodup).imp fun h e => h (Nat.add_right_cancel e)
    · intro a ha b hb
      obtain ⟨c, _, rfl⟩ := List.mem_map.1 ha
      have : b < low.size := low.lt_length b hb
      omega
  lt_length := by
    intro b hb
    rw [List.length_append, List.length_map]
    rcases List.mem_append.1 hb with h | h
    · obtain ⟨c, hc, rfl⟩ := List.mem_map.1 h
      have := high.lt_length c hc
      simp only [size]; omega
    · have := low.lt_length b h
      omega

instance : Append BitOrder := ⟨stack⟩

/-- Gathers the listed bits of an address, the first entry at the low end. -/
def gather (address : Nat) : List Nat → Nat
  | [] => 0
  | b :: rest => (address.testBit b).toNat + 2 * gather address rest

/-- Permutes the low bits of an address and drops the others. -/
def apply (o : BitOrder) (address : Nat) : Nat :=
  gather address o.bits

/-- The entries between brackets. -/
def text (o : BitOrder) : String :=
  Text.natList o.bits

instance : ToString BitOrder := ⟨text⟩

/-- Short text for comments: well-known orders by name. -/
def caption (o : BitOrder) : String :=
  if o.isNatural then "natural"
  else if o = reversed o.size then s!"bit-reversed {o.text}"
  else o.text

@[simp] theorem size_natural (k : Nat) : (natural k).size = k := by simp [size, natural]

@[simp] theorem size_reversed (k : Nat) : (reversed k).size = k := by simp [size, reversed]

@[simp] theorem size_andThen (o p : BitOrder) : (o.andThen p).size = max o.size p.size := by
  simp [size, andThen, ofMap]

theorem bits_append (high low : BitOrder) :
    (high ++ low).bits = high.bits.map (· + low.size) ++ low.bits := rfl

@[simp] theorem size_append (high low : BitOrder) :
    (high ++ low).size = high.size + low.size := by
  simp [size, bits_append]

theorem isNatural_iff {o : BitOrder} : o.isNatural = true ↔ o = natural o.size := by
  simp [isNatural]

end BitOrder
end StreamingFft
