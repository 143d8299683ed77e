import StreamingFft.Proofs.Core.Invariant
import StreamingFft.Proofs.Core.Phase
/-!
Every tree has a run, and in every run each node counts from its first sample on.
-/
namespace StreamingFft
open Vhdl

theorem BitOrder.apply_zero (o : BitOrder) : o.apply 0 = 0 := by
  apply Nat.eq_of_testBit_eq
  intro i
  rw [testBit_apply, Nat.zero_testBit, Nat.zero_testBit, Bool.and_false]

namespace Core

/-- The phase signals of a node, each with its modulus and its lateness, if the node is late by `l`. -/
def phaseTable (c : Core) (l : Int) : List (String × Nat × Int) :=
  ("phase", c.size, l) ::
    match c with
    | leaf _ => []
    | fourStep s sub1 sub2 =>
      [("sub1phase", 2 ^ sub1.order, l), ("ph1", s.size, l + sub1.delay),
        ("ph2", s.size, l + sub1.delay), ("ph3", s.size, l + sub1.delay + s.multiplier.delay),
        ("rbInPhase", 2 ^ sub2.order, l + sub1.delay + s.multiplier.delay),
        ("sub2phase", 2 ^ sub2.order, l + sub1.delay + s.multiplier.delay)]
    | radix4 s d sub1 =>
      [("ph1", s.size, l + d), ("ph2", s.size, l + d + s.multiplier.delay),
        ("rbInPhase", 2 ^ sub1.order, l + d + s.multiplier.delay),
        ("sub1phase", 2 ^ sub1.order, l + d + s.multiplier.delay)]

/-- The phases of a node count, and all other signals rest at zero. -/
def idealSignals (c : Core) (l : Int) : Signals := fun v t =>
  match (c.phaseTable l).lookup v with
  | none => 0
  | some (n, k) => (t - k) % n

theorem inPhase_idealSignals {c : Core} {l k : Int} {v : String} {n : Nat}
    (h : (c.phaseTable l).lookup v = some (n, k)) : InPhase (c.idealSignals l) v n k := by
  intro t
  rw [idealSignals, h]

def phaseNames : List String :=
  ["phase", "sub1phase", "sub2phase", "ph1", "ph2", "ph3", "rbInPhase"]

theorem names_phaseTable (c : Core) (l : Int) : (c.phaseTable l).map Prod.fst ⊆ phaseNames := by
  cases c with
  | leaf _ =>
    change ["phase"] ⊆ phaseNames
    decide
  | fourStep _ _ _ =>
    change ["phase", "sub1phase", "ph1", "ph2", "ph3", "rbInPhase", "sub2phase"] ⊆ phaseNames
    decide
  | radix4 _ _ _ =>
    change ["phase", "ph1", "ph2", "rbInPhase", "sub1phase"] ⊆ phaseNames
    decide

theorem idealSignals_eq_zero {v : String} (hv : v ∉ phaseNames) (c : Core) (l t : Int) :
    c.idealSignals l v t = 0 := by
  have hnone : (c.phaseTable l).lookup v = none := by
    apply List.lookup_eq_none_iff.2
    intro p hp
    apply bne_iff_ne.2
    rintro rfl
    exact hv (names_phaseTable c l (List.mem_map_of_mem hp))
  rw [idealSignals, hnone]

theorem tap_notMem_phaseNames (i : Nat) : PermutationNetwork.tap "" i ∉ phaseNames := by
  intro h
  have htap : (PermutationNetwork.tap "" i).toList.take 2 = ['r', 'P'] := by
    have hdigits : PermutationNetwork.tap "" i = "rP" ++ Nat.repr i := rfl
    rw [hdigits, String.toList_append]
    rfl
  -- `rbInPhase` is the only phase that starts with the same letter
  have hnames : ∀ v ∈ phaseNames, v.toList.take 2 ≠ ['r', 'P'] := by decide
  exact hnames _ h htap

theorem holds_select {σ : Signals} {target source : String} {n : Nat} (o : BitOrder)
    (ht : ∀ t, σ target t = 0) (hs : ∀ t, σ source t = 0) :
    (Statement.assign target (.select o source)).Holds n σ := by
  intro t
  have hvalue := Expr.value_select o (σ := (σ · t)) (x := 0) (hs t) (Nat.two_pow_pos _)
  rw [hvalue, BitOrder.apply_zero, ht t]
  rfl

theorem holds_stageStatements {σ : Signals} {counter : String} {n : Nat}
    (h : ∀ i t, σ (PermutationNetwork.tap "" i) t = 0) (i : Nat) (stages : List BitOrder) :
    ∀ st ∈ PermutationNetwork.stageStatements "" counter i stages, st.Holds n σ := by
  induction stages generalizing i with
  | nil => exact fun st hst => nomatch hst
  | cons q rest ih =>
    refine List.forall_mem_cons.2 ⟨?_, ih (i + 1)⟩
    intro t
    have hselect := holds_select (n := n) q (h (i + 1)) (h i) t
    rw [← hselect]
    have hname : (Expr.name (PermutationNetwork.tap "" i)).value (σ · t) = 0 := h i t
    rw [hname, h (i + 1) t, ite_self]

theorem holds_bufferBody {σ : Signals} {s : Stage} {sub : String} {k m n : Nat} {l : Int}
    (htap : ∀ i t, σ (PermutationNetwork.tap "" i) t = 0)
    (hin : InPhase σ "rbInPhase" n l) (hout : InPhase σ (sub ++ "phase") n l) :
    ∀ st ∈ bufferBody s "" sub k, st.Holds m σ := by
  unfold bufferBody
  split
  · exact fun st hst => nomatch hst
  · refine List.forall_mem_append.2 ⟨holds_stageStatements htap 0 _, ?_⟩
    simp only [List.forall_mem_cons]
    exact ⟨trivial, trivial, trivial, hin.minus_zero_iff.2 hout, by simp⟩

theorem holds_productPhase {σ : Signals} {s : Stage} {source sub : String} {k m n : Nat} {l : Int}
    (hsource : InPhase σ source n l) (hdvd : 2 ^ k ∣ n) (hin : InPhase σ "rbInPhase" (2 ^ k) l)
    (hout : InPhase σ (sub ++ "phase") (2 ^ k) l) :
    (Statement.assign (productPhase s "" sub) (.low source k)).Holds m σ := by
  apply (hsource.low_iff hdvd).2
  unfold productPhase
  split
  · exact hout
  · exact hin

theorem holds_twiddleBody {σ : Signals} (id : String) (m n : Nat) (source : TwiddleSource) :
    ∀ st ∈ source.body id n, st.Holds m σ := by
  refine List.forall_mem_cons.2 ⟨trivial, ?_⟩
  intro st hst
  obtain ⟨i, _, rfl⟩ := List.mem_map.1 hst
  trivial

theorem holds_fourStepBody {s : Stage} {sub1 sub2 : Core} (h1 : 2 ^ sub1.order ∣ s.size)
    (h2 : 2 ^ sub2.order ∣ s.size) (l : Int) :
    ∀ st ∈ fourStepBody s sub1 sub2 "" "sub1" "sub2",
      st.Holds s.size ((fourStep s sub1 sub2).idealSignals l) := by
  have hzero : ∀ v ∉ phaseNames, ∀ t, (fourStep s sub1 sub2).idealSignals l v t = 0 :=
    fun v hv t => idealSignals_eq_zero hv _ l t
  have hcopy : ∀ target ∉ phaseNames, ∀ source ∉ phaseNames,
      (Statement.assign target (.name source)).Holds s.size
        ((fourStep s sub1 sub2).idealSignals l) :=
    fun target ht source hs t => (hzero target ht t).trans (hzero source hs t).symm
  have hphase := inPhase_idealSignals (c := fourStep s sub1 sub2) (l := l) (v := "phase") rfl
  have hph1 := inPhase_idealSignals (c := fourStep s sub1 sub2) (l := l) (v := "ph1") rfl
  have hph2 := inPhase_idealSignals (c := fourStep s sub1 sub2) (l := l) (v := "ph2") rfl
  have hph3 := inPhase_idealSignals (c := fourStep s sub1 sub2) (l := l) (v := "ph3") rfl
  have hsub1 := inPhase_idealSignals (c := fourStep s sub1 sub2) (l := l) (v := "sub1phase") rfl
  have hin := inPhase_idealSignals (c := fourStep s sub1 sub2) (l := l) (v := "rbInPhase") rfl
  have hsub2 := inPhase_idealSignals (c := fourStep s sub1 sub2) (l := l) (v := "sub2phase") rfl
  refine List.forall_mem_append.2 ⟨List.forall_mem_append.2 ⟨?_, ?_⟩, ?_⟩
  · simp only [List.forall_mem_cons]
    refine ⟨trivial, hcopy _ (by decide) _ (by decide), (hphase.low_iff h1).2 hsub1, trivial,
      hphase.delayed_iff.2 hph1, trivial, trivial, trivial, hph1.copy_iff.2 hph2, trivial, trivial,
      trivial, trivial, trivial, hph2.delayed_iff.2 hph3, holds_productPhase hph3 h2 hin hsub2,
      hcopy _ (by decide) _ (by decide),
      holds_select _ (hzero _ (by decide)) (hzero _ (by decide)), by simp⟩
  · exact holds_twiddleBody "" s.size s.size s.twiddleSource
  · exact holds_bufferBody (fun i => hzero _ (tap_notMem_phaseNames i)) hin hsub2

theorem holds_radix4Body {s : Stage} {d : Nat} {sub1 : Core} (h1 : 2 ^ sub1.order ∣ s.size)
    (l : Int) :
    ∀ st ∈ radix4Body s d sub1 "" "sub1", st.Holds s.size ((radix4 s d sub1).idealSignals l) := by
  have hzero : ∀ v ∉ phaseNames, ∀ t, (radix4 s d sub1).idealSignals l v t = 0 :=
    fun v hv t => idealSignals_eq_zero hv _ l t
  have hphase := inPhase_idealSignals (c := radix4 s d sub1) (l := l) (v := "phase") rfl
  have hph1 := inPhase_idealSignals (c := radix4 s d sub1) (l := l) (v := "ph1") rfl
  have hph2 := inPhase_idealSignals (c := radix4 s d sub1) (l := l) (v := "ph2") rfl
  have hin := inPhase_idealSignals (c := radix4 s d sub1) (l := l) (v := "rbInPhase") rfl
  have hsub1 := inPhase_idealSignals (c := radix4 s d sub1) (l := l) (v := "sub1phase") rfl
  have hout : (Statement.assign "dout" (.name "sub1dout")).Holds s.size
      ((radix4 s d sub1).idealSignals l) := fun t =>
    (hzero "dout" (by decide) t).trans (hzero "sub1dout" (by decide) t).symm
  refine List.forall_mem_append.2 ⟨List.forall_mem_append.2 ⟨?_, ?_⟩, ?_⟩
  · simp only [List.forall_mem_cons]
    refine ⟨trivial, trivial, trivial, hphase.delayed_iff.2 hph1, trivial, trivial, trivial, trivial,
      trivial, hph1.delayed_iff.2 hph2, holds_productPhase hph2 h1 hin hsub1, trivial, hout, trivial,
      holds_select _ (hzero _ (by decide)) (hzero _ (by decide)), by simp⟩
  · exact holds_twiddleBody "" s.size s.size s.twiddleSource
  · exact holds_bufferBody (fun i => hzero _ (tap_notMem_phaseNames i)) hin hsub1

/-- The ideal signals of every node, each as late as its samples. -/
def idealRun (c : Core) (l : Int) : (path : List Nat) → Signals
  | [] => c.idealSignals l
  | i :: path =>
    match c.children[i]? with
    | none => fun _ _ => 0
    | some child => child.idealRun (l + c.childLatency i) path

theorem idealRun_cons {c child : Core} {i : Nat} (hi : c.children[i]? = some child) (l : Int)
    (path : List Nat) :
    c.idealRun l (i :: path) = child.idealRun (l + c.childLatency i) path := by
  rw [idealRun, hi]

/-- The ideal signals at the root obey the root's own text. -/
theorem holds_idealSignals {c : Core} (hc : ∀ node ∈ c.nodes, node.Coherent)
    (hnamed : ∀ node ∈ c.nodes, node.Named) {name : String} (hname : Plain name) (l : Int)
    {a : Architecture} (ha : a ∈ c.ownArchitecture name) :
    ∀ st ∈ readAssignments a.bodyText, st.Holds (2 ^ a.order) (c.idealSignals l) := by
  have hself := hc c (self_mem_nodes c)
  have hsize := hself.size_eq
  rw [readAssignments_ownArchitecture hnamed hname ha]
  intro st hst
  have hmem := (List.mem_filter.1 hst).1
  cases c with
  | leaf _ => cases ha
  | fourStep s sub1 sub2 =>
    cases ha
    have h1 := two_pow_order_dvd hself (hc sub1 (child_mem_nodes (i := 0) rfl)) (i := 0) rfl
    have h2 := two_pow_order_dvd hself (hc sub2 (child_mem_nodes (i := 1) rfl)) (i := 1) rfl
    exact hsize ▸ holds_fourStepBody h1 h2 l st hmem
  | radix4 s d sub1 =>
    cases ha
    have h1 := two_pow_order_dvd hself (hc sub1 (child_mem_nodes (i := 0) rfl)) (i := 0) rfl
    exact hsize ▸ holds_radix4Body h1 l st hmem

/-- The ideal phases of a child are those that its parent passes on. -/
theorem ports_idealSignals {c child : Core} {l : Int} {i : Nat} {sub entity : String}
    (hdin : sub ++ "din" ∉ phaseNames) (hdout : sub ++ "dout" ∉ phaseNames)
    (hphase : InPhase (c.idealSignals l) (sub ++ "phase") child.size (l + c.childLatency i)) :
    ∀ port ∈ (child.slot sub entity).inst.ports, ∀ f ∈ port.formal, ∀ t,
      child.idealSignals (l + c.childLatency i) f t =
        port.actual.value (c.idealSignals l · t) := by
  -- all but the phases rest at zero, on both sides of the ports
  have hrest : ∀ f ∉ phaseNames, ∀ v ∉ phaseNames, ∀ t,
      child.idealSignals (l + c.childLatency i) f t = c.idealSignals l v t := by
    intro f hf v hv t
    rw [idealSignals_eq_zero hf, idealSignals_eq_zero hv]
  have hown : InPhase (child.idealSignals (l + c.childLatency i)) "phase" child.size
      (l + c.childLatency i) := inPhase_idealSignals rfl
  rw [ports_slot]
  simp only [corePorts, List.forall_mem_cons]
  refine ⟨?_, ?_, ?_, ?_, by simp⟩
  · intro f hf t
    cases hf
    exact hrest "clk" (by decide) "clk" (by decide) t
  · intro f hf t
    cases hf
    exact hrest "din" (by decide) _ hdin t
  · intro f hf t
    cases hf
    exact (hown t).trans (hphase t).symm
  · intro f hf t
    cases hf
    exact hrest "dout" (by decide) _ hdout t

theorem ports_idealRun {c : Core} (hc : ∀ node ∈ c.nodes, node.Coherent) {name : String} (l : Int)
    {a : Architecture} (ha : a ∈ c.ownArchitecture name) (i : Nat) :
    ∀ slot ∈ a.slots[i]?, ∀ port ∈ slot.inst.ports, ∀ f ∈ port.formal, ∀ t,
      c.idealRun l [i] f t = port.actual.value (c.idealSignals l · t) := by
  have hself := hc c (self_mem_nodes c)
  have hphase : InPhase (c.idealSignals l) "phase" c.size l := inPhase_idealSignals rfl
  intro slot hslot
  cases c with
  | leaf _ => cases ha
  | fourStep s sub1 sub2 =>
    cases ha
    have hc1 := hc sub1 (child_mem_nodes (i := 0) rfl)
    have hc2 := hc sub2 (child_mem_nodes (i := 1) rfl)
    have hbody := holds_fourStepBody (two_pow_order_dvd hself hc1 (i := 0) rfl)
      (two_pow_order_dvd hself hc2 (i := 1) rfl) l
    obtain ⟨h1, h2⟩ := inPhase_fourStep "" "sub1" "sub2" hself hc1 hc2 hbody hphase
    match i, hslot with
    | 0, hslot =>
      cases hslot
      exact ports_idealSignals (by decide) (by decide) h1
    | 1, hslot =>
      cases hslot
      exact ports_idealSignals (by decide) (by decide) h2
  | radix4 s d sub1 =>
    cases ha
    have hc1 := hc sub1 (child_mem_nodes (i := 0) rfl)
    have hbody := holds_radix4Body (d := d) (two_pow_order_dvd hself hc1 (i := 0) rfl) l
    have h1 := inPhase_radix4 "" "sub1" hself hc1 hbody hphase
    match i, hslot with
    | 0, hslot =>
      cases hslot
      exact ports_idealSignals (by decide) (by decide) h1

/-- Every tree runs. -/
theorem run_idealRun {c : Core} (hc : ∀ node ∈ c.nodes, node.Coherent)
    (hnamed : ∀ node ∈ c.nodes, node.Named) {name : String} (hname : Plain name) (l : Int) :
    c.Run name (c.idealRun l) := by
  induction c using children_induction generalizing name l with
  | step c ih =>
    apply run_of_children
    · exact fun a ha => holds_idealSignals hc hnamed hname l ha
    · exact fun a ha => ports_idealRun hc l ha
    · intro i child hi
      have hmem := child_mem_nodes hi
      have hsub := nodes_subset hmem
      have hshift : (fun path => c.idealRun l (i :: path)) =
          child.idealRun (l + c.childLatency i) := funext (idealRun_cons hi l)
      rw [hshift]
      exact ih i child hi (fun n hn => hc n (hsub hn)) (fun n hn => hnamed n (hsub hn))
        (plain_childName hname i (hnamed child hmem)) _

/-- Let the phase at the root count cycles. Then there is a run, and in every run the phase of every
node counts the cycles since the node's first sample, modulo its size. -/
theorem phase_aligned {c : Core} (h : c.Reachable) (hnamed : ∀ node ∈ c.nodes, node.Named)
    {name : String} (hname : isBasicIdentifier name = true) :
    (∃ σ, c.Run name σ ∧ ∀ t, σ [] "phase" t = t % c.size) ∧
      ∀ σ, c.Run name σ → (∀ t, σ [] "phase" t = t % c.size) →
        ∀ path node, c.descend path = some node →
          ∀ t, σ path "phase" t = (t - c.latencyAt 0 path) % node.size := by
  have hplain := plain_of_isBasicIdentifier hname
  constructor
  · have hphase : InPhase (c.idealSignals 0) "phase" c.size 0 := inPhase_idealSignals rfl
    refine ⟨c.idealRun 0, run_idealRun h.coherent hnamed hplain 0, fun t => ?_⟩
    have ht := hphase t
    rwa [Int.sub_zero] at ht
  · intro σ hrun hroot path node hnode
    have hphase : InPhase (σ []) "phase" c.size 0 := fun t => by rw [hroot t, Int.sub_zero]
    exact inPhase_at h.coherent hnamed hplain hrun hphase hnode

/-- The last leaf of the nested tree gets its first sample in cycle 109. -/
theorem phase_aligned_nested :
    nested.Reachable ∧ (∀ node ∈ nested.nodes, node.Named) ∧ isBasicIdentifier "top" = true ∧
      nested.latencyAt 0 [0, 1] = 109 ∧ ∃ σ, nested.Run "top" σ ∧
        (∀ t, σ [] "phase" t = t % 64) ∧ σ [0, 1] "phase" 110 = 1 := by
  have hnamed : ∀ node ∈ nested.nodes, node.Named := by decide
  have hname : isBasicIdentifier "top" = true := by decide
  have hlatency : nested.latencyAt 0 [0, 1] = 109 := by decide
  obtain ⟨⟨σ, hrun, hroot⟩, hphase⟩ := phase_aligned reachable_nested hnamed hname
  refine ⟨reachable_nested, hnamed, hname, hlatency, σ, hrun, hroot, ?_⟩
  have hlast := hphase σ hrun hroot [0, 1] (leaf swappedLeaf) rfl 110
  rw [hlatency] at hlast
  exact hlast

end Core
end StreamingFft
