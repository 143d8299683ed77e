import StreamingFft.Proofs.BitOrder.Entries
import StreamingFft.Proofs.Core.Reachable
/-!
The invariant of reachable trees. The orders of a composite are put together from the entries of its
sub-cores without a check; here the unchecked lists are written out and shown to pass it at every node.
-/
namespace StreamingFft

namespace Core

/-- The entries of a node's input order, as they are put together. -/
def inputEntries : Core → List Nat
  | leaf l => l.inputOrder.bits
  | fourStep _ sub1 sub2 => List.range' sub1.order sub2.order ++ sub1.inputOrder.bits
  | radix4 s _ _ => List.range s.order

/-- The entries of a node's output order, as they are put together. -/
def outputEntries : Core → List Nat
  | leaf l => l.outputOrder.bits
  | fourStep _ sub1 sub2 =>
    sub1.outputOrder.bits.map (· + sub2.order) ++ sub2.outputOrder.bits
  | radix4 _ _ sub1 => [sub1.order + 1, sub1.order] ++ sub1.outputOrder.bits

theorem inputEntries_eq {c : Core} (h : ∀ node ∈ c.nodes, node.Coherent) :
    c.inputEntries = c.inputOrder.bits := by
  cases c with
  | leaf l => rfl
  | fourStep s a b =>
    have ha := ((forall_mem_nodes_fourStep.1 h).1.1 a (self_mem_nodes a)).size_inputOrder
    rw [inputEntries, inputOrder, BitOrder.bits_append, ha, BitOrder.natural, List.range'_eq_map_range]
    simp only [Nat.add_comm]
  | radix4 s d a => rfl

theorem outputEntries_eq {c : Core} (h : ∀ node ∈ c.nodes, node.Coherent) :
    c.outputEntries = c.outputOrder.bits := by
  cases c with
  | leaf l => rfl
  | fourStep s a b =>
    have hb := ((forall_mem_nodes_fourStep.1 h).1.2 b (self_mem_nodes b)).size_outputOrder
    rw [outputEntries, outputOrder, BitOrder.bits_append, hb]
  | radix4 s d a =>
    have ha := ((forall_mem_nodes_radix4.1 h).1 a (self_mem_nodes a)).size_outputOrder
    have hswap : (BitOrder.reversed 2).bits = [1, 0] := by decide
    rw [outputEntries, outputOrder, BitOrder.bits_append, ha, hswap, List.map_cons, List.map_cons,
      List.map_nil, Nat.zero_add, Nat.add_comm]

/-- What a stage holds for its twiddles and for the sub-core behind the multiplier. -/
structure CachesFit (s : Stage) (size : Nat) (last : Core) : Prop where
  twiddleSource : s.twiddleSource = .ofSize size
  isSome_iff : s.buffer.isSome = true ↔ last.inputOrder ≠ .natural last.order
  order : ∀ b ∈ s.buffer, b.network.order = last.inputOrder
  size : ∀ b ∈ s.buffer, b.network.size = last.order
  period : ∀ b ∈ s.buffer, ∀ n,
    last.inputOrder.power n = .natural last.order ↔ b.network.period ∣ n
  counterBits : ∀ b ∈ s.buffer, ∀ w, b.network.counterBits ≤ w ↔ b.network.period ≤ 2 ^ w
  delay : ∀ b ∈ s.buffer, b.delay = last.size

/-- There is only one buffer that can stand in front of a sub-core. -/
theorem eq_of_mem_ofInput {o : BitOrder} {n : Nat} {b : InputBuffer}
    (h : b ∈ InputBuffer.ofInput o n) : b = ⟨.ofOrder o, n⟩ := by
  unfold InputBuffer.ofInput at h
  split at h
  · cases h
  · exact (Option.some.inj h).symm

theorem cachesFit_of_buffer {s : Stage} {size : Nat} {last : Core}
    (htwiddle : s.twiddleSource = .ofSize size) (hlast : last.inputOrder.size = last.order)
    (hbuffer : s.buffer = InputBuffer.ofInput last.inputOrder last.size) :
    CachesFit s size last := by
  have hmem : ∀ b ∈ s.buffer, b = ⟨.ofOrder last.inputOrder, last.size⟩ :=
    fun b hb => eq_of_mem_ofInput (hbuffer ▸ hb)
  refine ⟨htwiddle, ?_, ?_, ?_, ?_, ?_, ?_⟩
  · rw [hbuffer, InputBuffer.ofInput, ← hlast, ne_eq, ← BitOrder.isNatural_iff]
    split
    · next h => simp only [h, Option.isSome_none, Bool.false_eq_true, not_true_eq_false]
    · next h => simp only [h, Option.isSome_some, not_false_eq_true, Bool.false_eq_true]
  · intro b hb
    rw [hmem b hb]
    rfl
  · intro b hb
    rw [hmem b hb]
    exact hlast
  · intro b hb n
    rw [hmem b hb, ← hlast]
    exact BitOrder.power_eq_natural_iff _ n
  · intro b hb w
    rw [hmem b hb]
    exact counterBits_le_iff _ w
  · intro b hb
    rw [hmem b hb]

theorem Coherent.cachesFit {c : Core} (h : c.Coherent)
    (hlast : ∀ last ∈ c.last?, last.inputOrder.size = last.order) :
    ∀ s ∈ c.stage?, ∀ last ∈ c.last?, CachesFit s c.size last := by
  intro s hs last hl
  exact cachesFit_of_buffer (h.twiddleSource s hs) (hlast last hl) (h.buffer s hs last hl)

theorem last_mem_nodes {c last : Core} (h : last ∈ c.last?) : last ∈ c.nodes := by
  cases c with
  | leaf l => cases h
  | fourStep s a b =>
    cases h
    exact child_mem_nodes (i := 1) rfl
  | radix4 s d a =>
    cases h
    exact child_mem_nodes (i := 0) rfl

/-- The invariant of one node: its size is a power of two and the product of the factors, both orders
are permutations and pass the check as they are put together, and the stage fits the node's size and
what the last sub-core takes now. -/
structure NodeInvariant (c : Core) : Prop where
  size_eq : c.size = 2 ^ c.order
  shaped : c.Shaped
  input_perm : c.inputOrder.bits.Perm (List.range c.order)
  input_accepted : BitOrder.ofList c.inputEntries = .ok c.inputOrder
  output_perm : c.outputOrder.bits.Perm (List.range c.order)
  output_accepted : BitOrder.ofList c.outputEntries = .ok c.outputOrder
  caches : ∀ s ∈ c.stage?, ∀ last ∈ c.last?, CachesFit s c.size last

/-- The invariant holds at every node of every reachable tree. -/
theorem nodeInvariant_of_reachable {c node : Core} (h : c.Reachable) (hnode : node ∈ c.nodes) :
    NodeInvariant node := by
  have hsub : ∀ n ∈ node.nodes, n.Coherent := fun n hn => h.coherent n (nodes_subset hnode hn)
  have hself := hsub node (self_mem_nodes node)
  refine ⟨hself.size_eq, hself.shaped, ?_, ?_, ?_, ?_, hself.cachesFit ?_⟩
  · rw [← hself.size_inputOrder]
    exact node.inputOrder.bits_perm_range
  · rw [inputEntries_eq hsub]
    exact BitOrder.ofList_bits _
  · rw [← hself.size_outputOrder]
    exact node.outputOrder.bits_perm_range
  · rw [outputEntries_eq hsub]
    exact BitOrder.ofList_bits _
  · intro last hl
    exact (hsub last (last_mem_nodes hl)).size_inputOrder

/-- Takes four samples with the address bits swapped. -/
def swappedLeaf : Leaf where
  order := 2
  entity := "fft4"
  scale := "SCALE_NONE"
  delay := 4
  inputOrder := .reversed 2
  outputOrder := .natural 2
  size_inputOrder := rfl
  size_outputOrder := rfl

/-- The leaf before its input order was declared. -/
def plainLeaf : Leaf :=
  { swappedLeaf with inputOrder := .natural 2, size_inputOrder := rfl }

/-- Sixteen points by two swapped leaves, the second behind a buffer. -/
def swappedPair : Core :=
  fourStep (.ofLast 16 4 4 (.reversed 2)) (leaf swappedLeaf) (leaf swappedLeaf)

/-- A radix-4 stage in front of the pair, which got another multiplier before. -/
def nested : Core :=
  radix4 (.ofLast 64 6 16 swappedPair.inputOrder) (radix4Delay 64)
    (swappedPair.replaceMultiplier .wide .tree)

theorem reachable_swappedLeaf : (leaf swappedLeaf).Reachable := by
  have hplain : Leaf.ofSize 4 "fft4" "SCALE_NONE" 4 = .ok plainLeaf := rfl
  have hswapped : plainLeaf.declare .input [1, 0] = .ok swappedLeaf := rfl
  exact (Reachable.leaf hplain).declare hswapped

theorem reachable_nested : nested.Reachable := by
  have hpair : swappedPair.Reachable :=
    .fourStep (n := 16) reachable_swappedLeaf reachable_swappedLeaf rfl
  exact .radix4 (n := 64) (hpair.replaceMultiplier .wide .tree) rfl

theorem nodeInvariant_nested :
    nested.Reachable ∧ swappedPair.replaceMultiplier .wide .tree ∈ nested.nodes ∧
      NodeInvariant (swappedPair.replaceMultiplier .wide .tree) := by
  have hmem : swappedPair.replaceMultiplier .wide .tree ∈ nested.nodes :=
    last_mem_nodes rfl
  exact ⟨reachable_nested, hmem, nodeInvariant_of_reachable reachable_nested hmem⟩

end Core
end StreamingFft
