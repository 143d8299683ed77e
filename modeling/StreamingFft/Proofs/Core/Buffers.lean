import StreamingFft.Proofs.BitOrder.Bound
import StreamingFft.Proofs.Core.Invariant
/-!
Counters of reorder buffers. The frame counter of a network never has more bits than the addresses that
the network permutes, and wherever a tree's size is a word, the network of each of its buffers is found
without an overflow.
-/
namespace StreamingFft
open BitOrder

namespace PermutationNetwork

/-- The network of an order in checked words; the counter's width is the exponent of its states. -/
def ofOrderChecked (o : BitOrder) : Option PermutationNetwork := do
  let period ← o.periodChecked
  let states ← Checked.nextPowerOfTwo period
  some { order := o, period, counterBits := states.log2 }

theorem counterBits_le_size (o : BitOrder) : (ofOrder o).counterBits ≤ o.size :=
  (counterBits_le_iff _ _).2 o.period_le_two_pow

theorem ofOrderChecked_eq {o : BitOrder} (h : o.size ≤ mostAddressBits) :
    ofOrderChecked o = some (ofOrder o) := by
  have hstates : Checked.nextPowerOfTwo o.period = some (2 ^ (ofOrder o).counterBits) := by
    rw [Checked.nextPowerOfTwo_eq]
    exact Checked.word_of_le (two_pow_le_maxWord ((counterBits_le_size o).trans h))
  rw [ofOrderChecked, periodChecked_eq h, Option.bind_eq_bind, Option.bind_some, hstates,
    Option.bind_some, Nat.log2_two_pow]
  rfl

theorem ofOrderWord_eq {o : BitOrder} (h : o.size ≤ mostAddressBits) :
    ofOrderWord o = .ok (ofOrder o) :=
  if_pos (two_pow_le_maxWord ((counterBits_le_size o).trans h))

end PermutationNetwork

namespace Core

theorem size_le_of_child {c child : Core} (hc : c.Coherent) {i : Nat}
    (hi : c.children[i]? = some child) : child.size ≤ c.size := by
  have hpos : 0 < c.size := hc.size_eq ▸ Nat.two_pow_pos _
  have hshaped := hc.shaped
  cases c with
  | leaf l => cases hi
  | fourStep s sub1 sub2 =>
    -- each factor divides the size, which is not zero
    have hsize : s.size = sub1.size * sub2.size := hshaped.1
    obtain ⟨-, rfl⟩ | ⟨-, rfl⟩ := getElem?_children_fourStep.1 hi
    · exact Nat.le_of_dvd hpos ⟨_, hsize⟩
    · exact Nat.le_of_dvd hpos (Dvd.intro_left _ hsize.symm)
  | radix4 s d sub1 =>
    have hsize : s.size = 4 * sub1.size := hshaped.1
    obtain ⟨-, rfl⟩ := getElem?_children_radix4.1 hi
    exact Nat.le_of_dvd hpos (Dvd.intro_left _ hsize.symm)

/-- No node is larger than its tree. -/
theorem size_le_of_mem_nodes {c node : Core} (hc : ∀ n ∈ c.nodes, n.Coherent)
    (hnode : node ∈ c.nodes) : node.size ≤ c.size := by
  induction c using children_induction with
  | step c ih =>
    obtain rfl | ⟨i, child, hi, hmem⟩ := mem_nodes_iff.1 hnode
    · exact Nat.le_refl _
    · have hchild : ∀ n ∈ child.nodes, n.Coherent :=
        fun n hn => hc n (nodes_subset (child_mem_nodes hi) hn)
      exact (ih i child hi hchild hmem).trans (size_le_of_child (hc c (self_mem_nodes c)) hi)

theorem order_le_of_size_le {c : Core} (hc : c.Coherent) (h : c.size ≤ maxWord) :
    c.order ≤ mostAddressBits := by
  have hlt : 2 ^ c.order < 2 ^ (mostAddressBits + 1) :=
    hc.size_eq ▸ Nat.lt_of_le_of_lt h (by decide)
  exact Nat.lt_succ_iff.1 ((Nat.pow_lt_pow_iff_right (by decide)).1 hlt)

/-- The network of a buffer is that of the order in which the sub-core behind it takes its samples. -/
theorem exists_network_eq {c : Core} (hc : c.Coherent) {s : Stage} (hs : s ∈ c.stage?)
    {b : InputBuffer} (hb : b ∈ s.buffer) :
    ∃ last ∈ c.last?, b.network = .ofOrder last.inputOrder := by
  have hlast : ∃ last, last ∈ c.last? := by
    cases c with
    | leaf l => cases hs
    | fourStep s sub1 sub2 => exact ⟨sub2, rfl⟩
    | radix4 s d sub1 => exact ⟨sub1, rfl⟩
  obtain ⟨last, hl⟩ := hlast
  rw [hc.buffer s hs last hl] at hb
  exact ⟨last, hl, congrArg InputBuffer.network (eq_of_mem_ofInput hb)⟩

/-- In a tree whose size is a word, no network permutes more bits than an address has. -/
theorem size_network_le {c node : Core} (hc : ∀ n ∈ c.nodes, n.Coherent) (hsize : c.size ≤ maxWord)
    (hnode : node ∈ c.nodes) {s : Stage} (hs : s ∈ node.stage?) {b : InputBuffer}
    (hb : b ∈ s.buffer) :
    b.network = .ofOrder b.network.order ∧ b.network.size ≤ mostAddressBits := by
  obtain ⟨last, hl, hnetwork⟩ := exists_network_eq (hc node hnode) hs hb
  have hmem := nodes_subset hnode (last_mem_nodes hl)
  have horder := order_le_of_size_le (hc last hmem) ((size_le_of_mem_nodes hc hmem).trans hsize)
  rw [← (hc last hmem).size_inputOrder] at horder
  rw [hnetwork]
  exact ⟨rfl, horder⟩

/-- Periods are at most the number of addresses and need no more counter bits than addresses have;
networks are found in checked words if their order is short enough, and in trees it always is. -/
theorem period_bounded_and_checked :
    (∀ o : BitOrder, 1 ≤ o.period ∧ o.period ≤ 2 ^ o.size ∧
      (PermutationNetwork.ofOrder o).counterBits ≤ o.size) ∧
    (∀ o : BitOrder, o.size ≤ mostAddressBits → o.periodWord = .ok o.period ∧
      PermutationNetwork.ofOrderWord o = .ok (.ofOrder o) ∧
        PermutationNetwork.ofOrderChecked o = some (.ofOrder o)) ∧
    ∀ c : Core, c.Reachable → c.size ≤ maxWord → ∀ node ∈ c.nodes, ∀ s ∈ node.stage?,
      ∀ b ∈ s.buffer, b.network.size ≤ mostAddressBits ∧
        PermutationNetwork.ofOrderChecked b.network.order = some b.network ∧
        b.network.counterBits ≤ b.network.size := by
  refine ⟨?_, ?_, ?_⟩
  · intro o
    exact ⟨o.period_pos, o.period_le_two_pow, PermutationNetwork.counterBits_le_size o⟩
  · intro o ho
    exact ⟨periodWord_eq ho, PermutationNetwork.ofOrderWord_eq ho,
      PermutationNetwork.ofOrderChecked_eq ho⟩
  · intro c hc hsize node hnode s hs b hb
    obtain ⟨hnetwork, hbits⟩ := size_network_le hc.coherent hsize hnode hs hb
    refine ⟨hbits, ?_, ?_⟩
    · rw [PermutationNetwork.ofOrderChecked_eq hbits, ← hnetwork]
    · have hcounter := PermutationNetwork.counterBits_le_size b.network.order
      rwa [← hnetwork] at hcounter

/-- Sixteen points in swapped order behind a radix-4 stage: the buffer permutes four bits. -/
theorem period_bounded_nested :
    interleaved.size ≤ mostAddressBits ∧
      PermutationNetwork.ofOrderChecked interleaved = some (.ofOrder interleaved) ∧
    nested.Reachable ∧ nested.size ≤ maxWord ∧ nested ∈ nested.nodes ∧
      ∃ s ∈ nested.stage?, ∃ b ∈ s.buffer, b.network.size = 4 ∧
        PermutationNetwork.ofOrderChecked b.network.order = some b.network ∧
        b.network.counterBits ≤ b.network.size := by
  obtain ⟨-, hchecked, htrees⟩ := period_bounded_and_checked
  have hbits : interleaved.size ≤ mostAddressBits := by decide
  have hsize : nested.size ≤ maxWord := by decide
  have hmem := self_mem_nodes nested
  have hbuffer : (⟨.ofOrder swappedPair.inputOrder, 16⟩ : InputBuffer) ∈
      InputBuffer.ofInput swappedPair.inputOrder 16 := rfl
  refine ⟨hbits, (hchecked _ hbits).2.2, reachable_nested, hsize, hmem, _, rfl, _, hbuffer, rfl, ?_⟩
  exact (htrees nested reachable_nested hsize nested hmem _ rfl _ hbuffer).2

end Core
end StreamingFft
