import StreamingFft.Proofs.Core.Hierarchy
import StreamingFft.Proofs.Core.Reachable
/-!
Phases. Every core counts its phase modulo its size, and starts to count when its first sample comes in.
A latency of whole frames cannot be seen in a phase, and the text of a composite leaves it out.
-/
namespace StreamingFft.Core
open Vhdl

/-- A signal counts cycles modulo `n`, late by `l`. -/
def InPhase (σ : Signals) (v : String) (n : Nat) (l : Int) : Prop := ∀ t, σ v t = (t - l) % n

section
variable {σ : Signals} {source target : String} {m n : Nat} {l l' : Int}

/-- Whole frames of lateness do not count. -/
theorem InPhase.of_dvd (h : InPhase σ source n l) (hdvd : (n : Int) ∣ l' - l) :
    InPhase σ source n l' := by
  intro t
  rw [h t, Int.emod_eq_emod_iff_emod_sub_eq_zero]
  apply Int.emod_eq_zero_of_dvd
  have hdiff : t - l - (t - l') = l' - l := by omega
  rwa [hdiff]

/-- The register of a stage makes its phase late by the latency of the stage. -/
theorem InPhase.delayed_iff (h : InPhase σ source n l) {d : Nat} :
    (delayedPhase target source d).Holds n σ ↔ InPhase σ target n (l + d) := by
  apply forall_congr'
  intro t
  have hvalue : ((σ source (t - 1) - d + 1) % n : Int) = (t - (l + d)) % n := by
    have hsum : (t - 1 - l) % n - d + 1 = (t - 1 - l) % n + (1 - (d : Int)) := by omega
    rw [h (t - 1), hsum, Int.emod_add_emod]
    congr 1
    omega
  rw [← hvalue]
  rfl

theorem InPhase.copy_iff (h : InPhase σ source n l) :
    (Statement.assign target (.name source)).Holds m σ ↔ InPhase σ target n l := by
  apply forall_congr'
  intro t
  rw [← h t]
  rfl

/-- The lowest bits of a phase are the phase of a shorter frame. -/
theorem InPhase.low_iff (h : InPhase σ source n l) {k : Nat} (hdvd : 2 ^ k ∣ n) :
    (Statement.assign target (.low source k)).Holds m σ ↔ InPhase σ target (2 ^ k) l := by
  apply forall_congr'
  intro t
  have hdvd' : ((2 ^ k : Nat) : Int) ∣ n := Int.natCast_dvd_natCast.2 hdvd
  have hvalue : σ source t % 2 ^ k = (t - l) % (2 ^ k : Nat) := by
    rw [h t, ← Int.emod_emod_of_dvd _ hdvd', Nat.cast_pow]
    rfl
  rw [← hvalue]
  rfl

theorem InPhase.minus_zero_iff (h : InPhase σ source n l) :
    (Statement.assign target (.sub (.name source) (.nat 0))).Holds m σ ↔ InPhase σ target n l := by
  apply forall_congr'
  intro t
  rw [← h t, ← Int.sub_zero (σ source t)]
  rfl

/-- With or without a buffer, the last sub-core gets the lowest bits of the phase of the products. -/
theorem InPhase.last (h : InPhase σ source n l) {s : Stage} {id sub : String} {k : Nat}
    (hdvd : 2 ^ k ∣ n)
    (hlow : (Statement.assign (productPhase s id sub) (.low source k)).Holds m σ)
    (hbuffer : ∀ st ∈ bufferBody s id sub k, st.Holds m σ) :
    InPhase σ (sub ++ "phase") (2 ^ k) l := by
  have hproduct := (h.low_iff hdvd).1 hlow
  cases hb : s.buffer with
  | none => rwa [productPhase, hb] at hproduct
  | some b =>
    rw [productPhase, hb] at hproduct
    have hmem : .assign (sub ++ "phase") (.sub (.name (id ++ "rbInPhase")) (.nat 0)) ∈
        bufferBody s id sub k := by
      rw [bufferBody, hb]
      exact List.mem_append_right _ (by simp [InputBuffer.additiveDelay])
    exact hproduct.minus_zero_iff.1 (hbuffer _ hmem)

end

/-- Buffers hold whole frames of the sub-core behind them. -/
theorem size_dvd_bufferDelay {c last : Core} {s : Stage} (hc : c.Coherent) (hs : s ∈ c.stage?)
    (hl : last ∈ c.last?) : last.size ∣ s.bufferDelay := by
  have hbuffer := hc.buffer s hs last hl
  rw [InputBuffer.ofInput] at hbuffer
  unfold Stage.bufferDelay
  split at hbuffer
  · rw [hbuffer]
    exact Nat.dvd_zero _
  · rw [hbuffer]
    exact Nat.dvd_refl _

/-- The frame of a composite is made of whole frames of each sub-core. -/
theorem two_pow_order_dvd {c child : Core} (hc : c.Coherent) (hchild : child.Coherent) {i : Nat}
    (hi : c.children[i]? = some child) : 2 ^ child.order ∣ c.size := by
  rw [← hchild.size_eq]
  have hshaped := hc.shaped
  cases c with
  | leaf l => cases hi
  | fourStep s sub1 sub2 =>
    obtain ⟨_, rfl⟩ | ⟨_, rfl⟩ := getElem?_children_fourStep.1 hi
    · exact ⟨sub2.size, hshaped.1⟩
    · exact ⟨sub1.size, by rw [Nat.mul_comm]; exact hshaped.1⟩
  | radix4 s d sub1 =>
    obtain ⟨_, rfl⟩ := getElem?_children_radix4.1 hi
    exact ⟨4, by rw [Nat.mul_comm]; exact hshaped.1⟩

/-- How much later than its parent a child gets its samples. -/
def childLatency (c : Core) (i : Nat) : Int :=
  match c with
  | leaf _ => 0
  | fourStep s sub1 sub2 => if i = 0 then 0 else (fourStep s sub1 sub2).delay - sub2.delay
  | radix4 s d sub1 => (radix4 s d sub1).delay - sub1.delay

/-- The input latency of the node at a path, if that of the root is `l`. -/
def latencyAt (c : Core) (l : Int) : (path : List Nat) → Int
  | [] => l
  | i :: path =>
    match c.children[i]? with
    | none => 0
    | some child => child.latencyAt (l + c.childLatency i) path

theorem latencyAt_cons {c child : Core} {i : Nat} (hi : c.children[i]? = some child) (l : Int)
    (path : List Nat) :
    c.latencyAt l (i :: path) = child.latencyAt (l + c.childLatency i) path := by
  rw [latencyAt, hi]

/-- The input latency of a child is that of its parent and what the parent adds to it. -/
theorem latencyAt_concat {c node child : Core} {l : Int} {path : List Nat} {i : Nat}
    (hnode : c.descend path = some node) (hi : node.children[i]? = some child) :
    c.latencyAt l (path ++ [i]) = c.latencyAt l path + node.childLatency i := by
  induction path generalizing c l with
  | nil =>
    cases hnode
    rw [List.nil_append, latencyAt_cons hi]
    rfl
  | cons j path ih =>
    obtain ⟨d, hd, hnode⟩ := Option.bind_eq_some_iff.1 hnode
    rw [List.cons_append, latencyAt_cons hd, latencyAt_cons hd]
    exact ih hnode

variable {σ : Signals} {l : Int}

theorem inPhase_fourStep (id id1 id2 : String) {s : Stage} {sub1 sub2 : Core}
    (hc : (fourStep s sub1 sub2).Coherent)
    (h1 : sub1.Coherent) (h2 : sub2.Coherent)
    (hσ : ∀ st ∈ fourStepBody s sub1 sub2 id id1 id2, st.Holds s.size σ)
    (hphase : InPhase σ (id ++ "phase") s.size l) :
    InPhase σ (id1 ++ "phase") sub1.size (l + (fourStep s sub1 sub2).childLatency 0) ∧
      InPhase σ (id2 ++ "phase") sub2.size (l + (fourStep s sub1 sub2).childLatency 1) := by
  have hdvd1 : 2 ^ sub1.order ∣ s.size := two_pow_order_dvd hc h1 (i := 0) rfl
  have hdvd2 : 2 ^ sub2.order ∣ s.size := two_pow_order_dvd hc h2 (i := 1) rfl
  have hsub1 := hσ (.assign (id1 ++ "phase") (.low (id ++ "phase") sub1.order))
    (by simp [fourStepBody])
  have hph1 := hσ (delayedPhase (id ++ "ph1") (id ++ "phase") sub1.delay) (by simp [fourStepBody])
  have hph2 := hσ (.assign (id ++ "ph2") (.name (id ++ "ph1"))) (by simp [fourStepBody])
  have hph3 := hσ (delayedPhase (id ++ "ph3") (id ++ "ph2") s.multiplier.delay)
    (by simp [fourStepBody])
  have hlow := hσ (.assign (productPhase s id id2) (.low (id ++ "ph3") sub2.order))
    (by simp [fourStepBody])
  have hbuffer : ∀ st ∈ bufferBody s id id2 sub2.order, st.Holds s.size σ :=
    fun st hst => hσ st (List.mem_append_right _ hst)
  constructor
  · have hfirst := (hphase.low_iff hdvd1).1 hsub1
    rwa [← h1.size_eq, ← Int.add_zero l] at hfirst
  · have hin := hphase.delayed_iff.1 hph1
    have hproducts := (hin.copy_iff.1 hph2).delayed_iff.1 hph3
    have hlast := hproducts.last hdvd2 hlow hbuffer
    rw [← h2.size_eq] at hlast
    apply hlast.of_dvd
    -- the text counts neither the frame of the transposer nor that of the buffer
    have hframes : sub2.size ∣ s.size + s.bufferDelay :=
      Nat.dvd_add (h2.size_eq ▸ hdvd2) (size_dvd_bufferDelay hc rfl rfl)
    have hdelay : l + (fourStep s sub1 sub2).childLatency 1 -
        (l + sub1.delay + s.multiplier.delay) = ((s.size + s.bufferDelay : Nat) : Int) := by
      simp only [childLatency, delay]
      push_cast
      omega
    rw [hdelay]
    exact Int.natCast_dvd_natCast.2 hframes

theorem inPhase_radix4 (id id1 : String) {s : Stage} {d : Nat} {sub1 : Core}
    (hc : (radix4 s d sub1).Coherent)
    (h1 : sub1.Coherent) (hσ : ∀ st ∈ radix4Body s d sub1 id id1, st.Holds s.size σ)
    (hphase : InPhase σ (id ++ "phase") s.size l) :
    InPhase σ (id1 ++ "phase") sub1.size (l + (radix4 s d sub1).childLatency 0) := by
  have hdvd1 : 2 ^ sub1.order ∣ s.size := two_pow_order_dvd hc h1 (i := 0) rfl
  have hph1 := hσ (delayedPhase (id ++ "ph1") (id ++ "phase") d) (by simp [radix4Body])
  have hph2 := hσ (delayedPhase (id ++ "ph2") (id ++ "ph1") s.multiplier.delay)
    (by simp [radix4Body])
  have hlow := hσ (.assign (productPhase s id id1) (.low (id ++ "ph2") sub1.order))
    (by simp [radix4Body])
  have hbuffer : ∀ st ∈ bufferBody s id id1 sub1.order, st.Holds s.size σ :=
    fun st hst => hσ st (List.mem_append_right _ hst)
  have hproducts := (hphase.delayed_iff.1 hph1).delayed_iff.1 hph2
  have hlast := hproducts.last hdvd1 hlow hbuffer
  rw [← h1.size_eq] at hlast
  apply hlast.of_dvd
  -- the text does not count the frame of the buffer
  have hdelay : l + (radix4 s d sub1).childLatency 0 - (l + d + s.multiplier.delay) =
      ((s.bufferDelay : Nat) : Int) := by
    simp only [childLatency, delay]
    push_cast
    omega
  rw [hdelay]
  exact Int.natCast_dvd_natCast.2 (size_dvd_bufferDelay hc rfl rfl)

/-- In a run, a composite passes on the phases that its sub-cores expect. -/
theorem inPhase_child {c child : Core} (hc : ∀ node ∈ c.nodes, node.Coherent)
    (hnamed : ∀ node ∈ c.nodes, node.Named) {name : String} (hname : Plain name)
    {σ : List Nat → Signals} (hrun : c.Run name σ) (hphase : InPhase (σ []) "phase" c.size l)
    {i : Nat} (hi : c.children[i]? = some child) :
    InPhase (σ [i]) "phase" child.size (l + c.childLatency i) := by
  have hself := hc c (self_mem_nodes c)
  have hchild := hc child (child_mem_nodes hi)
  have hholds := hrun.holds hnamed hname
  rw [← hself.size_eq] at hholds
  cases c with
  | leaf l => cases hi
  | fourStep s sub1 sub2 =>
    have h1 := hc sub1 (child_mem_nodes (i := 0) rfl)
    have h2 := hc sub2 (child_mem_nodes (i := 1) rfl)
    obtain ⟨hsub1, hsub2⟩ := inPhase_fourStep "" "sub1" "sub2" hself h1 h2 hholds hphase
    obtain ⟨rfl, rfl⟩ | ⟨rfl, rfl⟩ := getElem?_children_fourStep.1 hi
    · exact fun t => (hrun.phase_slot rfl rfl t).trans (hsub1 t)
    · exact fun t => (hrun.phase_slot rfl rfl t).trans (hsub2 t)
  | radix4 s d sub1 =>
    obtain ⟨rfl, rfl⟩ := getElem?_children_radix4.1 hi
    have hsub1 := inPhase_radix4 "" "sub1" hself hchild hholds hphase
    exact fun t => (hrun.phase_slot rfl rfl t).trans (hsub1 t)

theorem inPhase_at {c : Core} (hc : ∀ node ∈ c.nodes, node.Coherent)
    (hnamed : ∀ node ∈ c.nodes, node.Named) {name : String} (hname : Plain name)
    {σ : List Nat → Signals} (hrun : c.Run name σ) (hphase : InPhase (σ []) "phase" c.size l)
    {path : List Nat} {node : Core} (hnode : c.descend path = some node) :
    InPhase (σ path) "phase" node.size (c.latencyAt l path) := by
  induction path generalizing c name σ l with
  | nil =>
    cases hnode
    exact hphase
  | cons i path ih =>
    obtain ⟨child, hi, hnode⟩ := Option.bind_eq_some_iff.1 hnode
    have hmem := child_mem_nodes hi
    have hsub := nodes_subset hmem
    rw [latencyAt_cons hi]
    exact ih (fun n hn => hc n (hsub hn)) (fun n hn => hnamed n (hsub hn))
      (plain_childName hname i (hnamed child hmem)) (hrun.child hi)
      (inPhase_child hc hnamed hname hrun hphase hi) hnode

end StreamingFft.Core
