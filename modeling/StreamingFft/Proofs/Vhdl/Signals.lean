import StreamingFft.Proofs.BitOrder.Action
import StreamingFft.Proofs.Vhdl.Reading
/-!
What assignments say about the values of signals. The value of a vector is the number that its bits
write, and time is an integer, so that a run has neither a first nor a last cycle.
-/
namespace StreamingFft.Vhdl

/-- The value of each signal in each cycle. -/
abbrev Signals := String → Int → Int

namespace Expr

/-- The number of bits, where the expression itself shows it. -/
def width : Expr → Nat
  | bit _ _ => 1
  | low _ n => n
  | concat a b => a.width + b.width
  | single e => e.width
  | _ => 0

def value (σ : String → Int) : Expr → Int
  | name v => σ v
  | nat n => n
  | flag b => if b then 1 else 0
  | add a b => a.value σ + b.value σ
  | sub a b => a.value σ - b.value σ
  | mul a b => a.value σ * b.value σ
  | bit v i => σ v / 2 ^ i % 2
  | low v n => σ v % 2 ^ n
  | concat a b => a.value σ * 2 ^ b.width + b.value σ
  | single e => e.value σ
  | verbatim _ => 0

/-- The signals that an expression reads. -/
def signals : Expr → List String
  | name v => [v]
  | bit v _ => [v]
  | low v _ => [v]
  | add a b => a.signals ++ b.signals
  | sub a b => a.signals ++ b.signals
  | mul a b => a.signals ++ b.signals
  | concat a b => a.signals ++ b.signals
  | single e => e.signals
  | _ => []

/-- The bits that an expression names, each with its vector. -/
def indices : Expr → List (String × Nat)
  | bit v i => [(v, i)]
  | low v n => (List.range n).map fun i => (v, i)
  | add a b => a.indices ++ b.indices
  | sub a b => a.indices ++ b.indices
  | mul a b => a.indices ++ b.indices
  | concat a b => a.indices ++ b.indices
  | single e => e.indices
  | _ => []

theorem value_bit {σ : String → Int} {v : String} {x : Nat} (hv : σ v = x) (i : Nat) :
    (bit v i).value σ = (x.testBit i).toNat := by
  rw [value, hv, Nat.toNat_testBit]
  push_cast
  rfl

/-- Bits side by side gather the listed bits, the first entry at the low end. -/
theorem value_bits {σ : String → Int} {v : String} {x : Nat} (hv : σ v = x) (i : Nat)
    (rest : List Nat) : (bits v i rest).value σ = BitOrder.gather x (i :: rest) := by
  induction rest generalizing i with
  | nil =>
    rw [bits, value_bit hv, BitOrder.gather, BitOrder.gather]
    rfl
  | cons j rest ih =>
    have hgather : BitOrder.gather x (i :: j :: rest) =
        (x.testBit i).toNat + 2 * BitOrder.gather x (j :: rest) := rfl
    rw [bits, value, ih, value_bit hv, width, Int.pow_succ, Int.pow_zero, hgather]
    omega

/-- The rearranged vector has the permuted value. -/
theorem value_select (o : BitOrder) {σ : String → Int} {v : String} {x : Nat} (hv : σ v = x)
    (hx : x < 2 ^ o.size) : (select o v).value σ = o.apply x := by
  unfold select BitOrder.apply
  split
  · next h =>
    -- without bits there is no address but zero
    have hzero : x = 0 := by
      rw [BitOrder.size, h, List.length_nil, Nat.pow_zero] at hx
      omega
    rw [h, value, hv, hzero, BitOrder.gather]
  · next i h =>
    rw [h, value]
    exact value_bits hv i []
  · next i rest _ h =>
    rw [h]
    exact value_bits hv i rest

theorem mem_signals_bits {u v : String} {i : Nat} {rest : List Nat}
    (h : u ∈ (bits v i rest).signals) : u = v := by
  induction rest generalizing i with
  | nil => exact List.mem_singleton.1 h
  | cons j rest ih =>
    rcases List.mem_append.1 h with h | h
    · exact ih h
    · exact List.mem_singleton.1 h

theorem mem_signals_select {o : BitOrder} {u v : String} (h : u ∈ (select o v).signals) :
    u = v := by
  unfold select at h
  split at h
  · exact List.mem_singleton.1 h
  · exact List.mem_singleton.1 h
  · exact mem_signals_bits h

theorem mem_indices_bits {p : String × Nat} {v : String} {i : Nat} {rest : List Nat}
    (h : p ∈ (bits v i rest).indices) : p.1 = v ∧ p.2 ∈ i :: rest := by
  induction rest generalizing i with
  | nil =>
    obtain rfl := List.mem_singleton.1 h
    exact ⟨rfl, List.mem_cons_self⟩
  | cons j rest ih =>
    rcases List.mem_append.1 h with h | h
    · exact ⟨(ih h).1, List.mem_cons_of_mem i (ih h).2⟩
    · obtain rfl := List.mem_singleton.1 h
      exact ⟨rfl, List.mem_cons_self⟩

/-- A rearrangement names no bit that its order does not have. -/
theorem mem_indices_select {o : BitOrder} {p : String × Nat} {v : String}
    (h : p ∈ (select o v).indices) : p.1 = v ∧ p.2 < o.size := by
  unfold select at h
  split at h
  · cases h
  · next i hbits =>
    obtain rfl := List.mem_singleton.1 h
    exact ⟨rfl, o.lt_length i (hbits ▸ List.mem_cons_self)⟩
  · next i rest _ hbits =>
    obtain ⟨hv, hmem⟩ := mem_indices_bits h
    exact ⟨hv, o.lt_length p.2 (hbits ▸ hmem)⟩

theorem legible_bits {v : String} (hv : IsName v) (i : Nat) (rest : List Nat) :
    (bits v i rest).Legible := by
  induction rest generalizing i with
  | nil => exact hv
  | cons j rest ih => exact ⟨ih j, hv⟩

theorem legible_select (o : BitOrder) {v : String} (hv : IsName v) : (select o v).Legible := by
  unfold select
  split
  · exact hv
  · exact hv
  · exact legible_bits hv _ _

end Expr

namespace Statement

/-- The signal that a statement assigns. -/
def target? : Statement → Option String
  | assign target _ => some target
  | register target _ => some target
  | choose target _ _ _ _ => some target
  | blank => none
  | instantiate _ => none

/-- What a statement says of a run whose clocked signals count modulo `modulus`. -/
def Holds (modulus : Nat) (σ : Signals) : Statement → Prop
  | assign target value => ∀ t, σ target t = value.value (σ · t)
  | register target value => ∀ t, σ target t = value.value (σ · (t - 1)) % modulus
  | choose target taken counter bit kept =>
    ∀ t, σ target t =
      if σ counter t / 2 ^ bit % 2 = 1 then taken.value (σ · t) else kept.value (σ · t)
  | blank => True
  | instantiate _ => True

/-- The signals that a statement assigns or reads. -/
def signals : Statement → List String
  | assign target value => target :: value.signals
  | register target value => target :: value.signals
  | choose target taken counter _ kept => target :: counter :: taken.signals ++ kept.signals
  | blank => []
  | instantiate _ => []

/-- The bits that a statement names, each with its vector. -/
def indices : Statement → List (String × Nat)
  | assign _ value => value.indices
  | register _ value => value.indices
  | choose _ taken counter bit kept => (counter, bit) :: taken.indices ++ kept.indices
  | blank => []
  | instantiate _ => []

end Statement
end StreamingFft.Vhdl
