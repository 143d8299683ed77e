import StreamingFft.BitOrder.Period
/-!
Orders over words. Entries, addresses and periods are words here, so each operation first asks
whether its result exists; where it does, it is that of the operation without bounds.
-/
namespace StreamingFft.BitOrder

/-- The order that `make` gives for `k` bits, if it has room in memory. -/
def allocate (make : Nat → BitOrder) (k : Nat) : Except Fault BitOrder :=
  if k ≤ maxEntries then .ok (make k) else .error (.overflow .order)

/-- The effect of `o` followed by that of `p`, which must be of the same size. -/
def followedBy (o p : BitOrder) : Except Fault BitOrder :=
  if o.size = p.size then .ok (o.andThen p) else .error (.sizesDiffer o.size p.size)

/-- Permutes the low bits of a word; an order of more bits than a word applies to none. -/
def applyWord (o : BitOrder) (address : Nat) : Except Fault Nat :=
  if o.size ≤ wordBits then .ok (o.apply address) else .error (.overflow .address)

/-- The period as a word. -/
def periodWord (o : BitOrder) : Except Fault Nat :=
  if o.period ≤ maxWord then .ok o.period else .error (.overflow .period)

theorem followedBy_of_size_eq {o p : BitOrder} (h : o.size = p.size) :
    o.followedBy p = .ok (o.andThen p) :=
  if_pos h

end StreamingFft.BitOrder
