import StreamingFft.Core.Latency
import StreamingFft.Proofs.Core.Invariant
/-!
The latency of a tree as one sum over its nodes: what every leaf, multiplier, transposer and radix-4 stage
takes, and a frame for every sub-core in front of which samples are reordered.
-/
namespace StreamingFft.Core

/-- The sum of `f` over the nodes for which it has a value. -/
def total (f : Core → Option Nat) (c : Core) : Nat := (c.nodes.filterMap f).sum

theorem sum_filterMap_concat (f : Core → Option Nat) (nodes : List Core) (c : Core) :
    ((nodes ++ [c]).filterMap f).sum = (nodes.filterMap f).sum + (f c).getD 0 := by
  rw [List.filterMap_append, List.sum_append]
  cases h : f c <;> simp [h]

section
variable (f : Core → Option Nat)

theorem total_leaf (l : Leaf) : (leaf l).total f = (f (leaf l)).getD 0 := by
  rw [total, nodes, ← List.nil_append [leaf l], sum_filterMap_concat, List.filterMap_nil,
    List.sum_nil, Nat.zero_add]

theorem total_fourStep (s : Stage) (sub1 sub2 : Core) :
    (fourStep s sub1 sub2).total f =
      sub1.total f + sub2.total f + (f (fourStep s sub1 sub2)).getD 0 := by
  rw [total, nodes, sum_filterMap_concat, List.filterMap_append, List.sum_append]
  rfl

theorem total_radix4 (s : Stage) (d : Nat) (sub1 : Core) :
    (radix4 s d sub1).total f = sub1.total f + (f (radix4 s d sub1)).getD 0 := by
  rw [total, nodes, sum_filterMap_concat]
  rfl

end

/-- The latency of a leaf. -/
def leafDelay? : Core → Option Nat
  | leaf l => some l.delay
  | _ => none

/-- The latency of a composite's multiplier. -/
def multiplierDelay? (c : Core) : Option Nat := c.stage?.map fun s => s.multiplier.delay

/-- A transposer passes a frame on. -/
def transposerDelay? : Core → Option Nat
  | fourStep s _ _ => some s.size
  | _ => none

/-- A radix-4 stage holds back half a frame, then a quarter, and takes three cycles with each. -/
def radix4Delay? : Core → Option Nat
  | radix4 s _ _ => some (s.size / 2 + s.size / 4 + 6)
  | _ => none

/-- A frame of the sub-core behind the multiplier, unless that takes natural order. -/
def reorderDelay? (c : Core) : Option Nat :=
  c.last?.bind fun last => if last.inputOrder.isNatural then none else some last.size

/-- The latency of a tree, kind by kind. -/
def latencySum (c : Core) : Nat :=
  c.total leafDelay? + c.total multiplierDelay? + c.total transposerDelay? +
    c.total radix4Delay? + c.total reorderDelay?

/-- What a buffer takes follows from the sub-core that stands behind it now. -/
theorem bufferDelay_eq {c last : Core} {s : Stage} (hc : c.Coherent) (hs : s ∈ c.stage?)
    (hl : last ∈ c.last?) : s.bufferDelay = c.reorderDelay?.getD 0 := by
  have hlast : c.last? = some last := hl
  rw [Stage.bufferDelay, hc.buffer s hs last hl, reorderDelay?, hlast, Option.bind_some,
    InputBuffer.ofInput]
  by_cases h : last.inputOrder.isNatural = true
  · rw [if_pos h, if_pos h]
    rfl
  · rw [if_neg h, if_neg h]
    rfl

theorem delay_eq_latencySum {c : Core} (hc : ∀ node ∈ c.nodes, node.Coherent) :
    c.delay = c.latencySum := by
  induction c with
  | leaf l => simp [latencySum, total_leaf, delay, leafDelay?, multiplierDelay?, transposerDelay?,
      radix4Delay?, reorderDelay?, stage?, last?]
  | fourStep s sub1 sub2 ih1 ih2 =>
    obtain ⟨⟨h1, h2⟩, hroot⟩ := forall_mem_nodes_fourStep.1 hc
    have hbuffer := bufferDelay_eq hroot (Option.mem_some_self s) (Option.mem_some_self sub2)
    have hsub1 := ih1 h1
    have hsub2 := ih2 h2
    simp only [latencySum, total_fourStep, delay] at hsub1 hsub2 ⊢
    rw [hbuffer]
    simp only [leafDelay?, multiplierDelay?, transposerDelay?, radix4Delay?, stage?, Option.map_some,
      Option.getD_some, Option.getD_none]
    omega
  | radix4 s d sub1 ih1 =>
    obtain ⟨h1, hroot⟩ := forall_mem_nodes_radix4.1 hc
    have hbuffer := bufferDelay_eq hroot (Option.mem_some_self s) (Option.mem_some_self sub1)
    have hstage : d = radix4Delay s.size := hroot.shaped.2.2
    have hsub1 := ih1 h1
    simp only [latencySum, total_radix4, delay] at hsub1 ⊢
    rw [hbuffer, hstage]
    simp only [leafDelay?, multiplierDelay?, transposerDelay?, radix4Delay?, stage?, Option.map_some,
      Option.getD_some, Option.getD_none, radix4Delay]
    omega

/-- A node takes at least as long as its sub-cores one after the other. -/
theorem sum_delay_children_le {c : Core} : (c.children.map delay).sum ≤ c.delay := by
  cases c with
  | leaf l => exact Nat.zero_le _
  | fourStep s sub1 sub2 =>
    simp only [children, List.map_cons, List.map_nil, List.sum_cons, List.sum_nil, delay]
    omega
  | radix4 s d sub1 =>
    simp only [children, List.map_cons, List.map_nil, List.sum_cons, List.sum_nil, delay]
    omega

/-- At every node of a reachable tree the latency is the sum over the nodes below it, and it can be
stated if that is a word. -/
theorem delay_of_reachable {c node : Core} (h : c.Reachable) (hnode : node ∈ c.nodes) :
    node.delay = node.latencySum ∧
      (node.latencySum ≤ maxWord → node.timed delay = .ok node.latencySum) ∧
      (node.children.map delay).sum ≤ node.delay := by
  have hsum : node.delay = node.latencySum :=
    delay_eq_latencySum fun n hn => h.coherent n (nodes_subset hnode hn)
  refine ⟨hsum, ?_, sum_delay_children_le⟩
  intro hword
  exact timed_eq_ok_iff.2 ⟨hsum.trans_le hword, hsum⟩

/-- The pair of swapped leaves got another multiplier before it was put behind the radix-4 stage: two
leaves of four cycles, multipliers of 6 and 9, a transposer of 16, a stage of 54, and frames of 4 and 16
in the buffers. -/
theorem delay_nested :
    nested.Reachable ∧ nested ∈ nested.nodes ∧ nested.latencySum = 8 + 15 + 16 + 54 + 20 ∧
      nested.delay = nested.latencySum ∧ nested.timed delay = .ok nested.latencySum ∧
      (nested.children.map delay).sum ≤ nested.delay := by
  have hmem := self_mem_nodes nested
  have hsum : nested.latencySum = 8 + 15 + 16 + 54 + 20 := by decide
  obtain ⟨hdelay, hword, hchildren⟩ := delay_of_reachable reachable_nested hmem
  exact ⟨reachable_nested, hmem, hsum, hdelay, hword (by rw [hsum]; decide), hchildren⟩

end StreamingFft.Core
