import StreamingFft.Proofs.Core.IndexMaps
/-!
The output order of a tree as a digit reversal in mixed radix. From left to right, the tree is a
sequence of blocks of address bits; the order puts them side by side, and how composites are nested
in each other leaves no trace.
-/
namespace StreamingFft

/-- Blocks side by side, the entries of each raised by the lengths of all blocks to its right. -/
def raisedBlocks : List (List Nat) → List Nat
  | [] => []
  | b :: bs => b.map (· + (bs.map List.length).sum) ++ raisedBlocks bs

theorem length_raisedBlocks (bs : List (List Nat)) :
    (raisedBlocks bs).length = (bs.map List.length).sum := by
  induction bs with
  | nil => rfl
  | cons b bs ih => rw [raisedBlocks, List.length_append, List.length_map, ih, List.map_cons, List.sum_cons]

theorem raisedBlocks_append (as bs : List (List Nat)) :
    raisedBlocks (as ++ bs) =
      (raisedBlocks as).map (· + (bs.map List.length).sum) ++ raisedBlocks bs := by
  induction as with
  | nil => rfl
  | cons a as ih =>
    have hraise : a.map (· + ((as ++ bs).map List.length).sum) =
        (a.map (· + (as.map List.length).sum)).map (· + (bs.map List.length).sum) := by
      rw [List.map_append, List.sum_append, List.map_map]
      exact List.map_congr_left fun n _ => (Nat.add_assoc _ _ _).symm
    rw [List.cons_append, raisedBlocks, raisedBlocks, ih, hraise, List.map_append, List.append_assoc]

theorem reverse_range_add (k m : Nat) :
    (List.range (k + m)).reverse = (List.range k).reverse.map (· + m) ++ (List.range m).reverse := by
  rw [Nat.add_comm k m, List.range_add, List.reverse_append, ← List.map_reverse]
  simp only [Nat.add_comm]

/-- Blocks side by side are a reversal if and only if every one of them is. -/
theorem raisedBlocks_eq_reverse_range_iff {bs : List (List Nat)} :
    raisedBlocks bs = (List.range (bs.map List.length).sum).reverse ↔
      ∀ b ∈ bs, b = (List.range b.length).reverse := by
  induction bs with
  | nil => simp [raisedBlocks]
  | cons b bs ih =>
    rw [raisedBlocks, List.map_cons, List.sum_cons, reverse_range_add, List.forall_mem_cons, ← ih]
    constructor
    · intro h
      -- the first block ends where the reversal of its own length does
      obtain ⟨hb, hbs⟩ := List.append_inj h (by simp)
      exact ⟨List.map_injective_iff.2 (fun _ _ => Nat.add_right_cancel) hb, hbs⟩
    · rintro ⟨hb, hbs⟩
      rw [hbs, ← hb]

namespace Core

/-- The blocks of address bits of a tree from left to right: what the leaves deliver, and two swapped
bits for a radix-4 stage in front of the blocks of its sub-core. -/
def blocks : Core → List (List Nat)
  | leaf l => [l.outputOrder.bits]
  | fourStep _ sub1 sub2 => sub1.blocks ++ sub2.blocks
  | radix4 _ _ sub1 => [1, 0] :: sub1.blocks

theorem bits_outputOrder (c : Core) : c.outputOrder.bits = raisedBlocks c.blocks := by
  induction c with
  | leaf l => simp [outputOrder, blocks, raisedBlocks]
  | fourStep s sub1 sub2 ih1 ih2 =>
    rw [outputOrder, BitOrder.bits_append, BitOrder.size, blocks, raisedBlocks_append, ih1, ih2,
      length_raisedBlocks]
  | radix4 s d sub1 ih1 =>
    rw [outputOrder, BitOrder.bits_append, BitOrder.size, blocks, raisedBlocks, ih1,
      length_raisedBlocks]
    rfl

/-- The blocks are those of the leaves, apart from the swapped pairs. -/
theorem forall_mem_blocks {P : List Nat → Prop} (hswap : P [1, 0]) {c : Core} :
    (∀ b ∈ c.blocks, P b) ↔ ∀ l, leaf l ∈ c.nodes → P l.outputOrder.bits := by
  induction c with
  | leaf l => simp [blocks, nodes]
  | fourStep s sub1 sub2 ih1 ih2 =>
    rw [blocks, List.forall_mem_append, ih1, ih2]
    simp [nodes, or_imp, forall_and]
  | radix4 s d sub1 ih1 =>
    rw [blocks, List.forall_mem_cons, ih1]
    simp [nodes, hswap]

theorem outputOrder_eq_reversed_iff {c : Core} (hc : ∀ node ∈ c.nodes, node.Coherent) :
    c.outputOrder = .reversed c.order ↔
      ∀ l, leaf l ∈ c.nodes → l.outputOrder = .reversed l.order := by
  have horder : c.order = (c.blocks.map List.length).sum := by
    rw [← length_raisedBlocks, ← bits_outputOrder]
    exact (hc c (self_mem_nodes c)).size_outputOrder.symm
  have hroot : c.outputOrder = .reversed c.order ↔
      ∀ b ∈ c.blocks, b = (List.range b.length).reverse := by
    rw [BitOrder.ext_iff, bits_outputOrder, horder]
    exact raisedBlocks_eq_reverse_range_iff
  rw [hroot, forall_mem_blocks (P := fun b => b = (List.range b.length).reverse) rfl]
  refine forall₂_congr fun l _ => ?_
  have hsize : l.outputOrder.bits.length = l.order := l.size_outputOrder
  rw [BitOrder.ext_iff, hsize]
  rfl

/-- The output order of a tree puts its blocks side by side, so that trees with the same blocks have
the same output order. It is the bit reversal if and only if all leaves deliver in bit reversal. -/
theorem outputOrder_digit_reversal {c : Core} (h : c.Reachable) :
    c.outputOrder.bits = raisedBlocks c.blocks ∧
      (∀ d : Core, d.blocks = c.blocks → d.outputOrder = c.outputOrder) ∧
      (c.outputOrder = .reversed c.order ↔
        ∀ l, leaf l ∈ c.nodes → l.outputOrder = .reversed l.order) := by
  refine ⟨bits_outputOrder c, ?_, outputOrder_eq_reversed_iff h.coherent⟩
  intro d hd
  apply BitOrder.ext
  rw [bits_outputOrder, bits_outputOrder, hd]

/-- Delivers four points in bit reversal, like a radix-4 stage. -/
def reversedLeaf : Leaf :=
  { swappedLeaf with outputOrder := .reversed 2, size_outputOrder := swappedLeaf.size_inputOrder }

theorem outputOrder_digit_reversal_unevenTree :
    unevenTree.Reachable ∧ unevenTree.blocks = [[1, 0], [2, 0, 1], [0, 1]] ∧
      unevenTree.outputOrder.bits = [1 + 5, 0 + 5, 2 + 2, 0 + 2, 1 + 2, 0, 1] ∧
      (fourStep (.ofLast 128 7 32 unevenPair.inputOrder) (leaf reversedLeaf) unevenPair).outputOrder =
        unevenTree.outputOrder ∧
      unevenTree.outputOrder ≠ .reversed 7 := by
  obtain ⟨hbits, hblocks, hreversed⟩ := outputOrder_digit_reversal reachable_unevenTree
  refine ⟨reachable_unevenTree, rfl, hbits, hblocks _ rfl, fun h => ?_⟩
  have hplain := hreversed.1 h plainLeaf (by decide)
  exact absurd hplain (by decide)

end Core
end StreamingFft
