import StreamingFft.Proofs.Core.Names
/-!
What the statements of an entity refer to. The parts between the sub-cores are followed one by one: each
is over names that every entity declares and over the names that it is given.
-/
namespace StreamingFft
open Vhdl Statement

/-- Names that every entity declares. -/
def sharedNames : List String :=
  ["dataBits", "twBits", "clk", "din", "phase", "dout", "sub1din", "sub1dout", "sub1phase",
    "twiddleBits", "twiddleDelay", "order", "ph1", "ph2", "rbIn", "bitPermIn", "bitPermOut", "twAddr",
    "twData", "romAddr", "romData"]

theorem Core.sharedNames_subset {c : Core} (hc : c.isLeaf = false) : sharedNames ⊆ c.fixedNames := by
  cases c with
  | leaf l => cases hc
  | fourStep s sub1 sub2 => rw [fixedNames]; decide
  | radix4 s d sub1 => rw [fixedNames]; decide

/-- The network reads and assigns its own signals. -/
theorem PermutationNetwork.connected_body {names : List String} {p : PermutationNetwork}
    (htap : ∀ i ≤ p.counterBits, tap "" i ∈ names) (hcounter : p.counterSignal "" ∈ names) :
    ∀ st ∈ p.body "", st.Connected names := by
  intro st hst
  rw [body_eq_map] at hst
  obtain ⟨i, hi, rfl⟩ := List.mem_map.1 hst
  rw [List.mem_range] at hi
  have hkept := htap i hi.le
  refine List.forall_mem_cons.2 ⟨htap (i + 1) hi, List.forall_mem_cons.2 ⟨hcounter, ?_⟩⟩
  refine List.forall_mem_append.2 ⟨fun v hv => ?_, List.forall_mem_singleton.2 hkept⟩
  rwa [Expr.mem_signals_select hv]

section Parts
variable {names : List String} (hshared : ∀ v ∈ sharedNames, v ∈ names)
include hshared

theorem TwiddleSource.connected_body (n : Nat) (source : TwiddleSource) :
    ∀ st ∈ source.body "" n, st.Connected names := by
  refine List.forall_mem_cons.2 ⟨connected_blank, ?_⟩
  cases source with
  | table =>
    refine List.forall_mem_singleton.2 ⟨by simp, ?_, by simp⟩
    simp +decide [hshared]
  | rom =>
    refine List.forall_mem_cons.2 ⟨⟨?_, ?_, by simp⟩, List.forall_mem_singleton.2 ⟨by simp, ?_, by simp⟩⟩
    · simp +decide [hshared]
    · simp +decide [hshared]
    · simp +decide [hshared]

namespace Core

theorem connected_addressGenerator (order1 order2 : Nat) {phase : String} (hphase : phase ∈ names) :
    (addressGenerator "" order1 order2 phase).Connected names := by
  refine ⟨?_, ?_, List.cons_ne_nil _ _⟩
  · simp +decide [addressGenerator, hshared]
  · simp +decide [addressGenerator, hshared, hphase]

theorem connected_twiddleMultiplier (m : Multiplier) {data result : String} (hdata : data ∈ names)
    (hresult : result ∈ names) : (twiddleMultiplier "" m data result).Connected names := by
  refine ⟨?_, ?_, List.cons_ne_nil _ _⟩
  · simp +decide [twiddleMultiplier, hshared]
  · simp +decide [twiddleMultiplier, hshared, hdata, hresult]

theorem connected_transposer (order1 order2 : Nat) (hresult : "transpOut" ∈ names) :
    (transposer "" "sub1" order1 order2).Connected names := by
  refine ⟨?_, ?_, List.cons_ne_nil _ _⟩
  · simp +decide [transposer, hshared]
  · simp +decide [transposer, hshared, hresult]

theorem connected_radix4Instance (order : Nat) (hresult : "spdfOut" ∈ names) :
    (radix4Instance "" order).Connected names := by
  refine ⟨?_, ?_, List.cons_ne_nil _ _⟩
  · simp +decide [radix4Instance, hshared]
  · simp +decide [radix4Instance, hshared, hresult]

theorem connected_slot {c : Core} (hc : c.Named) {id entity : String}
    (hsignals : ∀ v ∈ [id ++ "din", id ++ "phase", id ++ "dout"], v ∈ names) :
    (c.slot id entity).inst.Connected names := by
  simp only [List.forall_mem_cons] at hsignals
  have hports : ∀ a ∈ corePorts id, a.Connected names := by
    simp +decide [corePorts, hshared, hsignals]
  have hcomposite : (generatedInstance id entity).Connected names :=
    ⟨by simp +decide [generatedInstance, hshared], hports, List.cons_ne_nil _ _⟩
  cases c with
  | leaf l =>
    have hscale : IsName l.scale := isName_of_isBasicIdentifier hc.2
    refine ⟨List.forall_mem_cons.2 ⟨Or.inl ?_, List.forall_mem_singleton.2 (Or.inr ⟨rfl, hscale⟩)⟩,
      hports, List.cons_ne_nil _ _⟩
    simp +decide [hshared]
  | fourStep s sub1 sub2 => exact hcomposite
  | radix4 s d sub1 => exact hcomposite

theorem connected_bufferBody {s : Stage} (hbuffer : ∀ v ∈ s.bufferNames, v ∈ names) {sub : String}
    (hdin : sub ++ "din" ∈ names) (hphase : sub ++ "phase" ∈ names) (subOrder : Nat) :
    ∀ st ∈ bufferBody s "" sub subOrder, st.Connected names := by
  rw [Stage.bufferNames] at hbuffer
  rw [bufferBody]
  cases hb : s.buffer with
  | none => simp
  | some b =>
    rw [hb] at hbuffer
    obtain ⟨htaps, hown⟩ := List.forall_mem_append.1 hbuffer
    simp only [List.forall_mem_cons] at hown
    obtain ⟨hcounter, hbufferPhase, -⟩ := hown
    have htap : ∀ i ≤ b.network.counterBits, PermutationNetwork.tap "" i ∈ names := fun i hi =>
      htaps _ (List.mem_map.2 ⟨i, List.mem_range.2 (by omega), rfl⟩)
    have hin : b.network.inputSignal "" ∈ names := htap 0 (Nat.zero_le _)
    have hout : b.network.outputSignal "" ∈ names := htap _ le_rfl
    have hcount : b.network.counterSignal "" ∈ names := hcounter
    refine List.forall_mem_append.2 ⟨PermutationNetwork.connected_body htap hcount, ?_⟩
    have hinst : (b.inst "" sub subOrder).Connected names := by
      refine ⟨?_, ?_, List.cons_ne_nil _ _⟩
      · simp +decide [InputBuffer.inst, hshared]
      · simp +decide [InputBuffer.inst, hshared, hbufferPhase, hdin, hin, hout, hcount]
    simp only [List.forall_mem_cons]
    refine ⟨connected_blank, hinst, connected_blank, ?_, by simp⟩
    exact connected_assign hphase (List.forall_mem_singleton.2 hbufferPhase)

end Core
end Parts

namespace Core
variable {s : Stage} {names : List String}

theorem productSignal_mem {sub : String} (hdin : sub ++ "din" ∈ names) (hrbIn : "rbIn" ∈ names) :
    productSignal s "" sub ∈ names := by
  rw [productSignal]
  cases s.buffer with
  | none => exact hdin
  | some b => exact hrbIn

theorem productPhase_mem {sub : String} (hphase : sub ++ "phase" ∈ names)
    (hbuffer : ∀ v ∈ s.bufferNames, v ∈ names) : productPhase s "" sub ∈ names := by
  rw [Stage.bufferNames] at hbuffer
  rw [productPhase]
  cases hb : s.buffer with
  | none => exact hphase
  | some b =>
    rw [hb] at hbuffer
    exact hbuffer "rbInPhase" (List.mem_append_right _ (by decide))

theorem connected_delayedPhase {target source : String} (hclk : "clk" ∈ names)
    (htarget : target ∈ names) (hsource : source ∈ names) (delay : Nat) :
    (delayedPhase target source delay).Connected names := by
  refine List.forall_mem_cons.2 ⟨hclk, List.forall_mem_cons.2 ⟨htarget, ?_⟩⟩
  exact List.forall_mem_singleton.2 hsource

theorem connected_select {o : BitOrder} {target source : String} (htarget : target ∈ names)
    (hsource : source ∈ names) : (Statement.assign target (.select o source)).Connected names :=
  connected_assign htarget fun _ hv => Expr.mem_signals_select hv ▸ hsource

theorem connected_fourStepBody (sub1 sub2 : Core)
    (hfixed : ∀ v ∈ (fourStep s sub1 sub2).fixedNames, v ∈ names)
    (hbuffer : ∀ v ∈ s.bufferNames, v ∈ names) :
    ∀ st ∈ fourStepBody s sub1 sub2 "" "sub1" "sub2", st.Connected names := by
  have hshared : ∀ v ∈ sharedNames, v ∈ names := fun v hv => hfixed v (sharedNames_subset rfl hv)
  rw [fixedNames] at hfixed
  have hname : ∀ {u v}, u ∈ names → v ∈ names → (Statement.assign u (.name v)).Connected names :=
    fun hu hv => connected_assign hu (List.forall_mem_singleton.2 hv)
  have hdelayed : ∀ {u v} d, u ∈ names → v ∈ names → (delayedPhase u v d).Connected names :=
    fun d hu hv => connected_delayedPhase (hshared _ (by decide)) hu hv d
  have hph1 : "ph1" ∈ names := hfixed _ (by decide)
  have hph2 : "ph2" ∈ names := hfixed _ (by decide)
  have hph3 : "ph3" ∈ names := hfixed _ (by decide)
  have hphase : "phase" ∈ names := hfixed _ (by decide)
  have htranspOut : "transpOut" ∈ names := hfixed _ (by decide)
  have hdin : "sub2" ++ "din" ∈ names := hfixed _ (by decide)
  have hphase2 : "sub2" ++ "phase" ∈ names := hfixed _ (by decide)
  have hproduct := productSignal_mem (s := s) hdin (hshared _ (by decide))
  refine List.forall_mem_append.2 ⟨List.forall_mem_append.2 ⟨?_, ?_⟩, ?_⟩
  · simp only [List.forall_mem_cons]
    exact ⟨connected_blank, hname (hfixed _ (by decide)) (hfixed _ (by decide)),
      connected_assign (hfixed _ (by decide)) (List.forall_mem_singleton.2 hphase), connected_blank,
      hdelayed _ hph1 hphase, connected_blank, connected_transposer hshared _ _ htranspOut,
      connected_blank, hname hph2 hph1, connected_blank, connected_addressGenerator hshared _ _ hph2,
      connected_blank, connected_twiddleMultiplier hshared _ htranspOut hproduct, connected_blank,
      hdelayed _ hph3 hph2,
      connected_assign (productPhase_mem hphase2 hbuffer) (List.forall_mem_singleton.2 hph3),
      hname (hfixed _ (by decide)) (hfixed _ (by decide)),
      connected_select (hfixed _ (by decide)) (hfixed _ (by decide)), by simp⟩
  · exact s.twiddleSource.connected_body hshared s.size
  · exact connected_bufferBody hshared hbuffer hdin hphase2 sub2.order

theorem connected_radix4Body (d : Nat) (sub1 : Core)
    (hfixed : ∀ v ∈ (radix4 s d sub1).fixedNames, v ∈ names)
    (hbuffer : ∀ v ∈ s.bufferNames, v ∈ names) :
    ∀ st ∈ radix4Body s d sub1 "" "sub1", st.Connected names := by
  have hshared : ∀ v ∈ sharedNames, v ∈ names := fun v hv => hfixed v (sharedNames_subset rfl hv)
  rw [fixedNames] at hfixed
  have hdelayed : ∀ {u v} d, u ∈ names → v ∈ names → (delayedPhase u v d).Connected names :=
    fun d hu hv => connected_delayedPhase (hshared _ (by decide)) hu hv d
  have hph1 : "ph1" ∈ names := hfixed _ (by decide)
  have hph2 : "ph2" ∈ names := hfixed _ (by decide)
  have hspdfOut : "spdfOut" ∈ names := hfixed _ (by decide)
  have hdin : "sub1" ++ "din" ∈ names := hfixed _ (by decide)
  have hphase1 : "sub1" ++ "phase" ∈ names := hfixed _ (by decide)
  have hdout1 : "sub1" ++ "dout" ∈ names := hfixed _ (by decide)
  have hproduct := productSignal_mem (s := s) hdin (hshared _ (by decide))
  refine List.forall_mem_append.2 ⟨List.forall_mem_append.2 ⟨?_, ?_⟩, ?_⟩
  · simp only [List.forall_mem_cons]
    exact ⟨connected_blank, connected_radix4Instance hshared _ hspdfOut, connected_blank,
      hdelayed _ hph1 (hfixed _ (by decide)), connected_blank,
      connected_addressGenerator hshared _ _ hph1, connected_blank,
      connected_twiddleMultiplier hshared _ hspdfOut hproduct, connected_blank, hdelayed _ hph2 hph1,
      connected_assign (productPhase_mem hphase1 hbuffer) (List.forall_mem_singleton.2 hph2),
      connected_blank, connected_assign (hfixed _ (by decide)) (List.forall_mem_singleton.2 hdout1),
      connected_blank, connected_select (hfixed _ (by decide)) (hfixed _ (by decide)), by simp⟩
  · exact s.twiddleSource.connected_body hshared s.size
  · exact connected_bufferBody hshared hbuffer hdin hphase1 sub1.order

/-- All statements of an entity are over the names that it declares. -/
theorem connected_ownArchitecture {c : Core} (hc : ∀ node ∈ c.nodes, node.Named) {name : String}
    {a : Architecture} (ha : a ∈ c.ownArchitecture name) (hs : s ∈ c.stage?) :
    ∀ st ∈ a.statements, st.Connected (c.fixedNames ++ s.bufferNames) := by
  have hfixed : ∀ v ∈ c.fixedNames, v ∈ c.fixedNames ++ s.bufferNames := fun _ =>
    List.mem_append_left _
  have hbuffer : ∀ v ∈ s.bufferNames, v ∈ c.fixedNames ++ s.bufferNames := fun _ =>
    List.mem_append_right _
  cases c with
  | leaf l => cases ha
  | fourStep s' sub1 sub2 =>
    cases ha
    cases hs
    have hshared := fun v hv => hfixed v (sharedNames_subset rfl hv)
    refine List.forall_mem_append.2 ⟨connected_fourStepBody sub1 sub2 hfixed hbuffer, ?_⟩
    have h1 := hc sub1 (child_mem_nodes (i := 0) rfl)
    have h2 := hc sub2 (child_mem_nodes (i := 1) rfl)
    rw [fixedNames] at hfixed
    exact List.forall_mem_cons.2
      ⟨connected_slot hshared h1 fun v hv => hfixed v (by revert v; decide),
        List.forall_mem_singleton.2
          (connected_slot hshared h2 fun v hv => hfixed v (by revert v; decide))⟩
  | radix4 s' d sub1 =>
    cases ha
    cases hs
    have hshared := fun v hv => hfixed v (sharedNames_subset rfl hv)
    refine List.forall_mem_append.2 ⟨connected_radix4Body d sub1 hfixed hbuffer, ?_⟩
    have h1 := hc sub1 (child_mem_nodes (i := 0) rfl)
    rw [fixedNames] at hfixed
    exact List.forall_mem_singleton.2
      (connected_slot hshared h1 fun v hv => hfixed v (by revert v; decide))

end Core
end StreamingFft
