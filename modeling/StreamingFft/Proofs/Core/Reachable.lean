import StreamingFft.Proofs.Core.Tree
import StreamingFft.Proofs.Reordering.Schedule
/-!
Trees that callers can make, and what holds at every node of them. Sizes, orders and buffers are fixed
when a composite is built, from its sub-cores as they are then; later changes reach multipliers and
twiddle widths only, so what was fixed stays right at every depth.
-/
namespace StreamingFft

namespace Core

/-- The trees that come out of the checked constructors, with any changes between them. -/
inductive Reachable : Core → Prop
  | leaf {n : Nat} {entity scale : String} {delay : Nat} {l : Leaf} :
    Leaf.ofSize n entity scale delay = .ok l → Reachable (leaf l)
  | declare {l l' : Leaf} {side : Side} {bits : List Nat} :
    Reachable (leaf l) → l.declare side bits = .ok l' → Reachable (leaf l')
  | fourStep {n : Nat} {sub1 sub2 c : Core} :
    Reachable sub1 → Reachable sub2 → ofFourStep n sub1 sub2 = .ok c → Reachable c
  | radix4 {n : Nat} {sub1 c : Core} :
    Reachable sub1 → ofRadix4 n sub1 = .ok c → Reachable c
  | useTwiddleWidth (w : TwiddleWidth) {c : Core} :
    Reachable c → Reachable (c.mapStage (·.useTwiddleWidth w))
  | replaceMultiplier (m : Multiplier) (scope : Scope) {c : Core} :
    Reachable c → Reachable (c.replaceMultiplier m scope)

/-- The sub-core behind the multiplier, for which a buffer may reorder the products. -/
def last? : Core → Option Core
  | leaf _ => none
  | fourStep _ _ sub2 => some sub2
  | radix4 _ _ sub1 => some sub1

/-- How size, exponent and stage latency of a node follow from its sub-cores. -/
def Shaped : Core → Prop
  | leaf _ => True
  | fourStep s sub1 sub2 => s.size = sub1.size * sub2.size ∧ s.order = sub1.order + sub2.order
  | radix4 s d sub1 => s.size = 4 * sub1.size ∧ s.order = sub1.order + 2 ∧ d = radix4Delay s.size

/-- What is fixed at a node when it is built. -/
structure Coherent (c : Core) : Prop where
  size_eq : c.size = 2 ^ c.order
  shaped : c.Shaped
  size_inputOrder : c.inputOrder.size = c.order
  size_outputOrder : c.outputOrder.size = c.order
  twiddleSource : ∀ s ∈ c.stage?, s.twiddleSource = .ofSize c.size
  buffer : ∀ s ∈ c.stage?, ∀ last ∈ c.last?,
    s.buffer = InputBuffer.ofInput last.inputOrder last.size

theorem coherent_leaf (l : Leaf) : (leaf l).Coherent where
  size_eq := rfl
  shaped := trivial
  size_inputOrder := l.size_inputOrder
  size_outputOrder := l.size_outputOrder
  twiddleSource _ h := nomatch h
  buffer _ h := nomatch h

theorem checkFactors_eq_ok {n product order : Nat} (h : checkFactors n product = .ok order) :
    product = n ∧ 2 ^ order = n := by
  unfold checkFactors at h
  split at h
  · next hn => exact ⟨hn, exactLog2_eq_ok_iff.1 h⟩
  · cases h

/-- All that a four-step composite can be. -/
theorem ofFourStep_eq_ok {n : Nat} {sub1 sub2 c : Core} (h : ofFourStep n sub1 sub2 = .ok c) :
    ∃ order, sub1.size * sub2.size = n ∧ 2 ^ order = n ∧
      c = fourStep (.ofLast n order sub2.size sub2.inputOrder) sub1 sub2 := by
  obtain ⟨order, hf, rfl⟩ := map_eq_ok_iff.1 h
  obtain ⟨hprod, hpow⟩ := checkFactors_eq_ok hf
  exact ⟨order, hprod, hpow, rfl⟩

/-- All that a radix-4 composite can be. -/
theorem ofRadix4_eq_ok {n : Nat} {sub1 c : Core} (h : ofRadix4 n sub1 = .ok c) :
    ∃ order, sub1.size * 4 = n ∧ 2 ^ order = n ∧
      c = radix4 (.ofLast n order sub1.size sub1.inputOrder) (radix4Delay n) sub1 := by
  obtain ⟨order, hf, rfl⟩ := map_eq_ok_iff.1 h
  obtain ⟨hprod, hpow⟩ := checkFactors_eq_ok hf
  exact ⟨order, hprod, hpow, rfl⟩

theorem coherent_of_ofFourStep {n : Nat} {sub1 sub2 c : Core} (h1 : sub1.Coherent)
    (h2 : sub2.Coherent) (h : ofFourStep n sub1 sub2 = .ok c) : c.Coherent := by
  obtain ⟨order, hprod, hpow, rfl⟩ := ofFourStep_eq_ok h
  have horder : order = sub1.order + sub2.order := by
    apply Nat.pow_right_injective (le_refl 2)
    change 2 ^ order = 2 ^ (sub1.order + sub2.order)
    rw [hpow, ← hprod, h1.size_eq, h2.size_eq, Nat.pow_add]
  refine ⟨hpow.symm, ⟨hprod.symm, horder⟩, ?_, ?_, ?_, ?_⟩
  · change (BitOrder.natural sub2.order ++ sub1.inputOrder).size = order
    rw [BitOrder.size_append, BitOrder.size_natural, h1.size_inputOrder, horder, Nat.add_comm]
  · change (sub1.outputOrder ++ sub2.outputOrder).size = order
    rw [BitOrder.size_append, h1.size_outputOrder, h2.size_outputOrder, horder]
  · intro s hs
    cases hs
    rfl
  · intro s hs last hl
    cases hs
    cases hl
    rfl

theorem coherent_of_ofRadix4 {n : Nat} {sub1 c : Core} (h1 : sub1.Coherent)
    (h : ofRadix4 n sub1 = .ok c) : c.Coherent := by
  obtain ⟨order, hprod, hpow, rfl⟩ := ofRadix4_eq_ok h
  have horder : order = sub1.order + 2 := by
    apply Nat.pow_right_injective (le_refl 2)
    change 2 ^ order = 2 ^ (sub1.order + 2)
    rw [hpow, ← hprod, h1.size_eq, Nat.pow_add]
  refine ⟨hpow.symm, ⟨?_, horder, rfl⟩, BitOrder.size_natural _, ?_, ?_, ?_⟩
  · rw [Nat.mul_comm]
    exact hprod.symm
  · change (BitOrder.reversed 2 ++ sub1.outputOrder).size = order
    rw [BitOrder.size_append, BitOrder.size_reversed, h1.size_outputOrder, horder, Nat.add_comm]
  · intro s hs
    cases hs
    rfl
  · intro s hs last hl
    cases hs
    cases hl
    rfl

/-- A change that leaves everything but multiplier and twiddle width alone. -/
structure Cosmetic (f : Stage → Stage) : Prop where
  size : ∀ s, (f s).size = s.size
  order : ∀ s, (f s).order = s.order
  twiddleSource : ∀ s, (f s).twiddleSource = s.twiddleSource
  buffer : ∀ s, (f s).buffer = s.buffer

theorem cosmetic_useMultiplier (m : Multiplier) : Cosmetic (·.useMultiplier m) :=
  ⟨fun _ => rfl, fun _ => rfl, fun _ => rfl, fun _ => rfl⟩

theorem cosmetic_useTwiddleWidth (w : TwiddleWidth) : Cosmetic (·.useTwiddleWidth w) :=
  ⟨fun _ => rfl, fun _ => rfl, fun _ => rfl, fun _ => rfl⟩

/-- Two trees that look alike from above. -/
structure SameInterface (c d : Core) : Prop where
  size : d.size = c.size
  order : d.order = c.order
  inputOrder : d.inputOrder = c.inputOrder
  outputOrder : d.outputOrder = c.outputOrder

theorem sameInterface_fourStep {f : Stage → Stage} (hf : Cosmetic f) (s : Stage)
    {a b a' b' : Core} (ha : SameInterface a a') (hb : SameInterface b b') :
    SameInterface (fourStep s a b) (fourStep (f s) a' b') where
  size := hf.size s
  order := hf.order s
  inputOrder := by simp only [inputOrder, hb.order, ha.inputOrder]
  outputOrder := by simp only [outputOrder, ha.outputOrder, hb.outputOrder]

theorem sameInterface_radix4 {f : Stage → Stage} (hf : Cosmetic f) (s : Stage) (d : Nat)
    {a a' : Core} (ha : SameInterface a a') :
    SameInterface (radix4 s d a) (radix4 (f s) d a') where
  size := hf.size s
  order := hf.order s
  inputOrder := by simp only [inputOrder, hf.order]
  outputOrder := by simp only [outputOrder, ha.outputOrder]

/-- A node stays coherent when nothing changes that its own facts speak of. -/
theorem Coherent.transfer {c c' : Core} (h : c.Coherent) (hi : SameInterface c c')
    (hshaped : c'.Shaped)
    (hstage : ∀ s' ∈ c'.stage?, ∃ s ∈ c.stage?, s'.twiddleSource = s.twiddleSource ∧
      s'.buffer = s.buffer)
    (hlast : ∀ l' ∈ c'.last?, ∃ l ∈ c.last?, SameInterface l l') : c'.Coherent := by
  refine ⟨?_, hshaped, ?_, ?_, ?_, ?_⟩
  · rw [hi.size, hi.order, h.size_eq]
  · rw [hi.inputOrder, hi.order, h.size_inputOrder]
  · rw [hi.outputOrder, hi.order, h.size_outputOrder]
  · intro s' hs'
    obtain ⟨s, hs, htwiddle, _⟩ := hstage s' hs'
    rw [htwiddle, hi.size]
    exact h.twiddleSource s hs
  · intro s' hs' l' hl'
    obtain ⟨s, hs, _, hbuffer⟩ := hstage s' hs'
    obtain ⟨l, hl, hsame⟩ := hlast l' hl'
    rw [hbuffer, hsame.inputOrder, hsame.size]
    exact h.buffer s hs l hl

theorem Coherent.fourStep {f : Stage → Stage} (hf : Cosmetic f) {s : Stage} {a b a' b' : Core}
    (ha : SameInterface a a') (hb : SameInterface b b') (h : (fourStep s a b).Coherent) :
    (Core.fourStep (f s) a' b').Coherent := by
  apply h.transfer (sameInterface_fourStep hf s ha hb)
  · have hs := h.shaped
    simp only [Shaped] at hs ⊢
    rwa [hf.size, hf.order, ha.size, hb.size, ha.order, hb.order]
  · intro t ht
    cases ht
    exact ⟨s, rfl, hf.twiddleSource s, hf.buffer s⟩
  · intro t ht
    cases ht
    exact ⟨b, rfl, hb⟩

theorem Coherent.radix4 {f : Stage → Stage} (hf : Cosmetic f) {s : Stage} {d : Nat} {a a' : Core}
    (ha : SameInterface a a') (h : (radix4 s d a).Coherent) :
    (Core.radix4 (f s) d a').Coherent := by
  apply h.transfer (sameInterface_radix4 hf s d ha)
  · have hs := h.shaped
    simp only [Shaped] at hs ⊢
    rwa [hf.size, hf.order, ha.size, ha.order]
  · intro t ht
    cases ht
    exact ⟨s, rfl, hf.twiddleSource s, hf.buffer s⟩
  · intro t ht
    cases ht
    exact ⟨a, rfl, ha⟩

theorem sameInterface_refl (c : Core) : SameInterface c c := ⟨rfl, rfl, rfl, rfl⟩

theorem sameInterface_mapStages {f : Stage → Stage} (hf : Cosmetic f) (c : Core) :
    SameInterface c (c.mapStages f) := by
  induction c with
  | leaf l => exact sameInterface_refl _
  | fourStep s a b iha ihb => exact sameInterface_fourStep hf s iha ihb
  | radix4 s d a iha => exact sameInterface_radix4 hf s d iha

theorem forall_mem_nodes_leaf {P : Core → Prop} {l : Leaf} :
    (∀ node ∈ (leaf l).nodes, P node) ↔ P (leaf l) := by
  simp only [nodes, List.forall_mem_singleton]

theorem forall_mem_nodes_fourStep {P : Core → Prop} {s : Stage} {a b : Core} :
    (∀ node ∈ (fourStep s a b).nodes, P node) ↔
      ((∀ node ∈ a.nodes, P node) ∧ ∀ node ∈ b.nodes, P node) ∧ P (fourStep s a b) := by
  simp only [nodes, List.forall_mem_append, List.forall_mem_singleton]

theorem forall_mem_nodes_radix4 {P : Core → Prop} {s : Stage} {d : Nat} {a : Core} :
    (∀ node ∈ (radix4 s d a).nodes, P node) ↔ (∀ node ∈ a.nodes, P node) ∧ P (radix4 s d a) := by
  simp only [nodes, List.forall_mem_append, List.forall_mem_singleton]

/-- A change of one stage keeps every node coherent. -/
theorem coherent_mapStage {f : Stage → Stage} (hf : Cosmetic f) {c : Core}
    (h : ∀ node ∈ c.nodes, node.Coherent) : ∀ node ∈ (c.mapStage f).nodes, node.Coherent := by
  cases c with
  | leaf l => exact h
  | fourStep s a b =>
    obtain ⟨hsub, hroot⟩ := forall_mem_nodes_fourStep.1 h
    exact forall_mem_nodes_fourStep.2
      ⟨hsub, hroot.fourStep hf (sameInterface_refl a) (sameInterface_refl b)⟩
  | radix4 s d a =>
    obtain ⟨hsub, hroot⟩ := forall_mem_nodes_radix4.1 h
    exact forall_mem_nodes_radix4.2 ⟨hsub, hroot.radix4 hf (sameInterface_refl a)⟩

/-- A change of all stages keeps every node coherent. -/
theorem coherent_mapStages {f : Stage → Stage} (hf : Cosmetic f) {c : Core}
    (h : ∀ node ∈ c.nodes, node.Coherent) : ∀ node ∈ (c.mapStages f).nodes, node.Coherent := by
  induction c with
  | leaf l => exact h
  | fourStep s a b iha ihb =>
    obtain ⟨⟨ha, hb⟩, hroot⟩ := forall_mem_nodes_fourStep.1 h
    exact forall_mem_nodes_fourStep.2 ⟨⟨iha ha, ihb hb⟩,
      hroot.fourStep hf (sameInterface_mapStages hf a) (sameInterface_mapStages hf b)⟩
  | radix4 s d a iha =>
    obtain ⟨ha, hroot⟩ := forall_mem_nodes_radix4.1 h
    exact forall_mem_nodes_radix4.2 ⟨iha ha, hroot.radix4 hf (sameInterface_mapStages hf a)⟩

/-- Every node of a reachable tree is coherent. -/
theorem Reachable.coherent {c : Core} (h : c.Reachable) : ∀ node ∈ c.nodes, node.Coherent := by
  induction h with
  | leaf _ => exact forall_mem_nodes_leaf.2 (coherent_leaf _)
  | declare _ _ _ => exact forall_mem_nodes_leaf.2 (coherent_leaf _)
  | fourStep _ _ hc ih1 ih2 =>
    -- below the new root, the nodes are those of the sub-cores as they were handed over
    have hroot := coherent_of_ofFourStep (ih1 _ (self_mem_nodes _)) (ih2 _ (self_mem_nodes _)) hc
    obtain ⟨order, _, _, rfl⟩ := ofFourStep_eq_ok hc
    exact forall_mem_nodes_fourStep.2 ⟨⟨ih1, ih2⟩, hroot⟩
  | radix4 _ hc ih1 =>
    have hroot := coherent_of_ofRadix4 (ih1 _ (self_mem_nodes _)) hc
    obtain ⟨order, _, _, rfl⟩ := ofRadix4_eq_ok hc
    exact forall_mem_nodes_radix4.2 ⟨ih1, hroot⟩
  | useTwiddleWidth w _ ih => exact coherent_mapStage (cosmetic_useTwiddleWidth w) ih
  | replaceMultiplier m scope _ ih =>
    cases scope with
    | node => exact coherent_mapStage (cosmetic_useMultiplier m) ih
    | tree => exact coherent_mapStages (cosmetic_useMultiplier m) ih

end Core
end StreamingFft
