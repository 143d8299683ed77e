import StreamingFft.Core.Recipe
import StreamingFft.Proofs.Core.Reachable
/-!
The description of a tree that has been built: sizes, names, the orders that leaves declare, and the
chosen multipliers and twiddle widths. It builds the same tree again, so that whatever else a tree
holds is a function of its description.
-/
namespace StreamingFft

namespace BitOrder

/-- The entries, unless the order is the natural one. -/
def declared (o : BitOrder) : Option (List Nat) :=
  if o.isNatural then none else some o.bits

theorem ofListOfSize_bits {o : BitOrder} {k : Nat} (h : o.size = k) :
    ofListOfSize k o.bits = .ok ⟨o, h⟩ := by
  have hlength : o.bits.length = k := h
  rw [ofListOfSize, dif_pos hlength, dif_pos ⟨o.nodup, o.lt_length⟩]
  rfl

end BitOrder

namespace Leaf

/-- The description of a leaf. -/
def recipe (l : Leaf) : LeafRecipe where
  size := l.size
  entity := l.entity
  scale := l.scale
  delay := l.delay
  input := l.inputOrder.declared
  output := l.outputOrder.declared

/-- The leaf with another order on one side. -/
def withOrder (l : Leaf) (side : Side) (o : BitOrder) (h : o.size = l.order) : Leaf :=
  match side with
  | .input => { l with inputOrder := o, size_inputOrder := h }
  | .output => { l with outputOrder := o, size_outputOrder := h }

theorem declare_withOrder (l : Leaf) (side : Side) {o p : BitOrder} (hp : p.size = l.order)
    (ho : o.size = l.order) :
    (l.withOrder side p hp).declare side o.bits = .ok (l.withOrder side o ho) := by
  cases side with
  | input =>
    rw [declare, withOrder]
    dsimp only
    rw [BitOrder.ofListOfSize_bits ho]
    rfl
  | output =>
    rw [declare, withOrder]
    dsimp only
    rw [BitOrder.ofListOfSize_bits ho]
    rfl

/-- An order that is left out is the natural one, which a leaf has at first. -/
theorem declareOptional_declared (l : Leaf) (side : Side) {o : BitOrder} (h : o.size = l.order) :
    (l.withOrder side (.natural l.order) (BitOrder.size_natural l.order)).declareOptional side
      o.declared = .ok (l.withOrder side o h) := by
  unfold BitOrder.declared
  split
  · next hnatural =>
    have ho : o = .natural l.order := (BitOrder.isNatural_iff.1 hnatural).trans (congrArg _ h)
    subst ho
    rfl
  · exact declare_withOrder l side _ h

theorem build_recipe (l : Leaf) : l.recipe.build = .ok l := by
  let half := l.withOrder .output (.natural l.order) (BitOrder.size_natural l.order)
  have hsize : ofSize l.size l.entity l.scale l.delay =
      .ok (half.withOrder .input (.natural half.order) (BitOrder.size_natural half.order)) := by
    rw [ofSize, size, exactLog2_two_pow]
    rfl
  have hinput : declareOptional _ .input l.inputOrder.declared = .ok half :=
    declareOptional_declared half .input l.size_inputOrder
  calc
    l.recipe.build =
        (ofSize l.size l.entity l.scale l.delay >>= fun plain =>
          plain.declareOptional .input l.inputOrder.declared >>= fun half =>
            half.declareOptional .output l.outputOrder.declared) := rfl
    _ = (declareOptional _ .input l.inputOrder.declared >>= fun half =>
          half.declareOptional .output l.outputOrder.declared) := by rw [hsize]; rfl
    _ = half.declareOptional .output l.outputOrder.declared := by rw [hinput]; rfl
    _ = .ok l := declareOptional_declared l .output l.size_outputOrder

end Leaf

namespace Core

/-- The description of a tree. -/
def recipe : Core → Recipe
  | leaf l => .leaf l.recipe
  | fourStep s sub1 sub2 => .fourStep s.size sub1.recipe sub2.recipe ⟨s.multiplier, s.twiddleWidth⟩
  | radix4 s _ sub1 => .radix4 s.size sub1.recipe ⟨s.multiplier, s.twiddleWidth⟩

theorem checkFactors_of_eq {n product order : Nat} (hproduct : product = n) (hn : n = 2 ^ order) :
    checkFactors n product = .ok order := by
  rw [checkFactors, if_pos hproduct, hn, exactLog2_two_pow]

/-- The stage of a coherent node follows from its size, its last sub-core and the settings. -/
theorem Coherent.stage_eq {c : Core} (h : c.Coherent) {s : Stage} (hs : s ∈ c.stage?) {last : Core}
    (hlast : last ∈ c.last?) :
    s = ((Stage.ofLast c.size c.order last.size last.inputOrder).useMultiplier
      s.multiplier).useTwiddleWidth s.twiddleWidth := by
  have htwiddle := h.twiddleSource s hs
  have hbuffer := h.buffer s hs last hlast
  cases c with
  | leaf l => cases hs
  | fourStep t a b =>
    cases hs
    cases s
    simp only [size] at htwiddle hbuffer
    rw [htwiddle, hbuffer]
    rfl
  | radix4 t d a =>
    cases hs
    cases s
    simp only [size] at htwiddle hbuffer
    rw [htwiddle, hbuffer]
    rfl

/-- A coherent composite is what its constructor builds, with its settings, from its sub-cores. -/
theorem ofFourStep_map_apply {s : Stage} {a b : Core} (h : (fourStep s a b).Coherent) :
    (ofFourStep s.size a b).map (Settings.apply ⟨s.multiplier, s.twiddleWidth⟩) =
      .ok (fourStep s a b) := by
  have hfactors : checkFactors s.size (a.size * b.size) = .ok s.order :=
    checkFactors_of_eq h.shaped.1.symm h.size_eq
  rw [ofFourStep, hfactors]
  exact congrArg (fun t => Except.ok (fourStep t a b)) (h.stage_eq rfl rfl).symm

theorem ofRadix4_map_apply {s : Stage} {d : Nat} {a : Core} (h : (radix4 s d a).Coherent) :
    (ofRadix4 s.size a).map (Settings.apply ⟨s.multiplier, s.twiddleWidth⟩) =
      .ok (radix4 s d a) := by
  obtain ⟨hsize, -, hdelay⟩ := h.shaped
  have hfactors : checkFactors s.size (a.size * 4) = .ok s.order :=
    checkFactors_of_eq (by rw [hsize, Nat.mul_comm]) h.size_eq
  rw [ofRadix4, hfactors, hdelay]
  exact congrArg (fun t => Except.ok (radix4 t (radix4Delay s.size) a)) (h.stage_eq rfl rfl).symm

/-- A tree with coherent nodes is what its description builds. -/
theorem build_recipe {c : Core} (h : ∀ node ∈ c.nodes, node.Coherent) : c.recipe.build = .ok c := by
  induction c with
  | leaf l => rw [recipe, Recipe.build, Leaf.build_recipe, Except.map]
  | fourStep s a b iha ihb =>
    obtain ⟨⟨ha, hb⟩, hroot⟩ := forall_mem_nodes_fourStep.1 h
    rw [recipe, Recipe.build, iha ha, ihb hb]
    exact ofFourStep_map_apply hroot
  | radix4 s d a iha =>
    obtain ⟨ha, hroot⟩ := forall_mem_nodes_radix4.1 h
    rw [recipe, Recipe.build, iha ha]
    exact ofRadix4_map_apply hroot

end Core
end StreamingFft
