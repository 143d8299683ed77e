import Mathlib.Data.List.Induction
import StreamingFft.Proofs.Core.Invariant
import StreamingFft.Proofs.Core.Rebuilding
/-!
Runs of declarations on a leaf. A call is accepted or refused for its entries alone, whatever was declared
before; a refused call changes nothing, an accepted one nothing but the order on its side. So each side
ends up with the entries of its last accepted call.
-/
namespace StreamingFft.Leaf

/-- A call that declares the order on one side. -/
structure Call where
  side : Side
  bits : List Nat
deriving DecidableEq, Repr

/-- Whether the entries are those of an order of `k` bits. -/
def Call.Fits (c : Call) (k : Nat) : Prop := c.bits.Perm (List.range k)

instance (c : Call) (k : Nat) : Decidable (c.Fits k) :=
  inferInstanceAs (Decidable (c.bits.Perm (List.range k)))

def orderOn (l : Leaf) : Side → BitOrder
  | .input => l.inputOrder
  | .output => l.outputOrder

/-- What a call answers, and the leaf that it leaves behind. -/
def respond (l : Leaf) (c : Call) : Option Fault × Leaf := l.attempt c.side c.bits

/-- The leaf after a sequence of calls, some of which may be refused. -/
def afterCalls (l : Leaf) (calls : List Call) : Leaf := calls.foldl (fun l c => (l.respond c).2) l

/-- The entries of the last call on a side that fits `k` bits. -/
def lastAccepted (k : Nat) (side : Side) (calls : List Call) : Option (List Nat) :=
  (calls.filter fun c => c.side = side ∧ c.Fits k).getLast?.map Call.bits

/-- Two leaves that differ in their orders at most. -/
structure SameCore (l m : Leaf) : Prop where
  size : m.size = l.size
  order : m.order = l.order
  entity : m.entity = l.entity
  scale : m.scale = l.scale
  delay : m.delay = l.delay

theorem sameCore_refl (l : Leaf) : SameCore l l := ⟨rfl, rfl, rfl, rfl, rfl⟩

theorem SameCore.trans {l m n : Leaf} (h : SameCore l m) (h' : SameCore m n) : SameCore l n :=
  ⟨h'.size.trans h.size, h'.order.trans h.order, h'.entity.trans h.entity, h'.scale.trans h.scale,
    h'.delay.trans h.delay⟩

section
variable (l : Leaf) (side : Side) {o : BitOrder} (h : o.size = l.order)

theorem sameCore_withOrder : SameCore l (l.withOrder side o h) := by
  cases side <;> exact ⟨rfl, rfl, rfl, rfl, rfl⟩

theorem orderOn_withOrder : (l.withOrder side o h).orderOn side = o := by
  cases side <;> rfl

theorem orderOn_withOrder_of_ne {other : Side} (hne : other ≠ side) :
    (l.withOrder side o h).orderOn other = l.orderOn other := by
  cases side with
  | input =>
    cases other with
    | input => exact absurd rfl hne
    | output => rfl
  | output =>
    cases other with
    | input => rfl
    | output => exact absurd rfl hne

end

theorem respond_of_error {l : Leaf} {c : Call} {f : Fault}
    (h : BitOrder.scanEntries l.order c.bits = .error f) : l.respond c = (some f, l) := by
  rw [BitOrder.scanEntries_eq, map_eq_error_iff] at h
  rw [respond, attempt, declare, h]
  rfl

theorem respond_of_fits {l : Leaf} {c : Call} (h : c.Fits l.order) :
    ∃ (o : BitOrder) (ho : o.size = l.order), o.bits = c.bits ∧
      l.respond c = (none, l.withOrder c.side o ho) := by
  obtain ⟨hlength, hbits⟩ := BitOrder.perm_range_iff.1 h
  have ho : BitOrder.ofListOfSize l.order c.bits = .ok ⟨.ofEntries c.bits hbits, hlength⟩ :=
    BitOrder.ofListOfSize_bits (o := .ofEntries c.bits hbits) hlength
  refine ⟨.ofEntries c.bits hbits, hlength, rfl, ?_⟩
  rw [respond, attempt, declare, ho]
  cases c.side <;> rfl

/-- What one call answers, and what it does to the leaf. -/
structure RespondsExactly (l : Leaf) (c : Call) (answer : Option Fault) (l' : Leaf) : Prop where
  /-- The answer is that of the scan. -/
  scanned : BitOrder.scanEntries l.order c.bits = answer.elim (.ok c.bits) .error
  accepted : answer = none ↔ c.bits.Perm (List.range l.order)
  orderLength : c.bits.length ≠ l.order → answer = some (.orderLength l.order c.bits.length)
  notPermutation : c.bits.length = l.order → ¬ c.bits.Perm (List.range l.order) →
    answer = some (.notPermutation c.bits)
  unchanged : answer ≠ none → l' = l
  declared : answer = none → (l'.orderOn c.side).bits = c.bits
  other : ∀ side, side ≠ c.side → l'.orderOn side = l.orderOn side
  sameCore : SameCore l l'

theorem respondsExactly_of_fits {l : Leaf} {c : Call} (h : c.Fits l.order) :
    RespondsExactly l c (l.respond c).1 (l.respond c).2 := by
  obtain ⟨o, ho, hbits, hrespond⟩ := respond_of_fits h
  rw [hrespond]
  refine ⟨BitOrder.scanEntries_of_perm h, ⟨fun _ => h, fun _ => rfl⟩, ?_, fun _ hnot => absurd h hnot,
    fun hne => absurd rfl hne, ?_, fun _ hne => l.orderOn_withOrder_of_ne c.side ho hne,
    l.sameCore_withOrder c.side ho⟩
  · exact fun hne => absurd (BitOrder.perm_range_iff.1 h).1 hne
  · intro _
    rw [orderOn_withOrder, hbits]

theorem respondsExactly_of_not_fits {l : Leaf} {c : Call} (h : ¬ c.Fits l.order) :
    RespondsExactly l c (l.respond c).1 (l.respond c).2 := by
  by_cases hlength : c.bits.length = l.order
  · have hscan := BitOrder.scanEntries_of_not_perm hlength h
    rw [respond_of_error hscan]
    exact ⟨hscan, ⟨nofun, fun hperm => absurd hperm h⟩, fun hne => absurd hlength hne, fun _ _ => rfl,
      fun _ => rfl, nofun, fun _ _ => rfl, sameCore_refl l⟩
  · have hscan : BitOrder.scanEntries l.order c.bits =
        .error (.orderLength l.order c.bits.length) := if_pos hlength
    rw [respond_of_error hscan]
    exact ⟨hscan, ⟨nofun, fun hperm => absurd hperm h⟩, fun _ => rfl, fun heq => absurd heq hlength,
      fun _ => rfl, nofun, fun _ _ => rfl, sameCore_refl l⟩

theorem respondsExactly (l : Leaf) (c : Call) :
    RespondsExactly l c (l.respond c).1 (l.respond c).2 := by
  by_cases h : c.Fits l.order
  · exact respondsExactly_of_fits h
  · exact respondsExactly_of_not_fits h

theorem afterCalls_concat (l : Leaf) (calls : List Call) (c : Call) :
    l.afterCalls (calls ++ [c]) = ((l.afterCalls calls).respond c).2 := by
  rw [afterCalls, List.foldl_append]
  rfl

theorem sameCore_afterCalls (l : Leaf) (calls : List Call) : SameCore l (l.afterCalls calls) := by
  induction calls using List.reverseRecOn with
  | nil => exact sameCore_refl l
  | append_singleton calls c ih =>
    rw [afterCalls_concat]
    exact ih.trans (respondsExactly _ c).sameCore

theorem lastAccepted_concat (k : Nat) (side : Side) (calls : List Call) (c : Call) :
    lastAccepted k side (calls ++ [c]) =
      if c.side = side ∧ c.Fits k then some c.bits else lastAccepted k side calls := by
  rw [lastAccepted, List.filter_append, List.filter_singleton]
  by_cases h : c.side = side ∧ c.Fits k
  · simp [h]
  · simp [h, lastAccepted]

/-- Each side keeps the entries of its last accepted call through all calls that follow. -/
theorem bits_afterCalls (l : Leaf) (side : Side) (calls : List Call) :
    ((l.afterCalls calls).orderOn side).bits =
      (lastAccepted l.order side calls).getD (l.orderOn side).bits := by
  induction calls using List.reverseRecOn with
  | nil => rfl
  | append_singleton calls c ih =>
    have hstep := respondsExactly (l.afterCalls calls) c
    rw [afterCalls_concat, lastAccepted_concat]
    have horder := (l.sameCore_afterCalls calls).order
    have haccepted := hstep.accepted
    rw [horder] at haccepted
    by_cases hside : c.side = side
    · by_cases hfits : c.Fits l.order
      · rw [if_pos ⟨hside, hfits⟩, ← hside]
        exact hstep.declared (haccepted.2 hfits)
      · rw [if_neg fun h => hfits h.2, hstep.unchanged fun h => hfits (haccepted.1 h), ih]
    · rw [if_neg fun h => hside h.1, hstep.other side (Ne.symm hside), ih]

theorem orderOn_of_ofSize {n delay : Nat} {entity scale : String} {l : Leaf}
    (h : ofSize n entity scale delay = .ok l) (side : Side) :
    n = l.size ∧ l.orderOn side = .natural l.order := by
  obtain ⟨k, hk, rfl⟩ := map_eq_ok_iff.1 h
  refine ⟨(exactLog2_eq_ok_iff.1 hk).symm, ?_⟩
  cases side <;> rfl

/-- After any run of calls, the next call responds exactly, each side has the entries of its last accepted
call or else those it had at first, which are natural on a new leaf, and nothing else ever changed. -/
theorem declarations_exact (l : Leaf) (calls : List Call) :
    (∀ c, RespondsExactly (l.afterCalls calls) c ((l.afterCalls calls).respond c).1
      ((l.afterCalls calls).respond c).2) ∧
    (∀ side, ((l.afterCalls calls).orderOn side).bits =
      (lastAccepted l.order side calls).getD (l.orderOn side).bits) ∧
    (∀ n entity scale delay, ofSize n entity scale delay = .ok l → n = 2 ^ l.order ∧
      ∀ side, ((l.afterCalls calls).orderOn side).bits =
        (lastAccepted l.order side calls).getD (List.range l.order)) ∧
    SameCore l (l.afterCalls calls) := by
  refine ⟨respondsExactly _, fun side => l.bits_afterCalls side calls, ?_, l.sameCore_afterCalls calls⟩
  intro n entity scale delay hnew
  refine ⟨(orderOn_of_ofSize hnew .input).1, ?_⟩
  intro side
  rw [bits_afterCalls, (orderOn_of_ofSize hnew side).2]
  rfl

/-- Calls of every kind: too long, twice the same bit, far out of range, and one accepted on each side. -/
def mixedCalls : List Call :=
  [⟨.input, [1, 0]⟩, ⟨.input, [0, 1, 2]⟩, ⟨.output, [1, 1]⟩, ⟨.input, [0, 2 ^ 64 - 1]⟩, ⟨.output, [1, 0]⟩]

theorem declarations_mixed :
    ofSize 4 "fft4" "SCALE_NONE" 4 = .ok Core.plainLeaf ∧
      ((Core.plainLeaf.afterCalls mixedCalls).orderOn .input).bits = [1, 0] ∧
      ((Core.plainLeaf.afterCalls mixedCalls).orderOn .output).bits = [1, 0] ∧
      ((Core.plainLeaf.afterCalls mixedCalls).respond ⟨.output, [2, 0]⟩).1 =
        some (.notPermutation [2, 0]) ∧
      ((Core.plainLeaf.afterCalls mixedCalls).respond ⟨.output, [2, 0]⟩).2 =
        Core.plainLeaf.afterCalls mixedCalls := by
  obtain ⟨hcall, -, hnew, hsame⟩ := declarations_exact Core.plainLeaf mixedCalls
  have hplain : ofSize 4 "fft4" "SCALE_NONE" 4 = .ok Core.plainLeaf := rfl
  have horder : (Core.plainLeaf.afterCalls mixedCalls).order = 2 := hsame.order
  have hfault : ((Core.plainLeaf.afterCalls mixedCalls).respond ⟨.output, [2, 0]⟩).1 =
      some (.notPermutation [2, 0]) := by
    apply (hcall ⟨.output, [2, 0]⟩).notPermutation horder.symm
    rw [horder]
    decide
  refine ⟨hplain, (hnew _ _ _ _ hplain).2 .input, (hnew _ _ _ _ hplain).2 .output, hfault, ?_⟩
  apply (hcall ⟨.output, [2, 0]⟩).unchanged
  rw [hfault]
  nofun

end StreamingFft.Leaf
