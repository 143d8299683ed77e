import StreamingFft.Proofs.Core.Connections
/-!
A generated entity as a closed netlist: every name that its body refers to is declared, no name is
declared twice and no signal assigned twice, and the products of its multiplier reach the sub-core
behind it, through the buffer if there is one.
-/
namespace StreamingFft
open Vhdl Statement

/-- What a buffer assigns in the entity around it, or has assigned there, the sub-core's phase aside. -/
def Stage.bufferTargets (s : Stage) : List String :=
  match s.buffer with
  | none => []
  | some b =>
    "rbInPhase" :: (List.range b.network.counterBits).map fun i => PermutationNetwork.tap "" (i + 1)

namespace Core
variable {s : Stage}

theorem nodup_bufferTargets (s : Stage) : s.bufferTargets.Nodup := by
  rw [Stage.bufferTargets]
  cases s.buffer with
  | none => exact List.nodup_nil
  | some b =>
    refine List.nodup_cons.2 ⟨fun hmem => ?_, List.nodup_range.map fun i j h => ?_⟩
    · obtain ⟨i, -, htap⟩ := List.mem_map.1 hmem
      have hlist := congrArg String.toList htap
      rw [PermutationNetwork.toList_tap] at hlist
      exact absurd (congrArg (·[1]?) hlist) (by decide : ¬ some 'P' = some 'b')
    · exact Nat.succ_injective (PermutationNetwork.tap_inj.1 h)

theorem bufferTargets_subset (s : Stage) : s.bufferTargets ⊆ s.bufferNames := by
  rw [Stage.bufferTargets, Stage.bufferNames]
  cases s.buffer with
  | none => exact List.Subset.refl _
  | some b =>
    refine List.cons_subset.2 ⟨List.mem_append_right _ (by decide), fun v hv => ?_⟩
    obtain ⟨i, hi, rfl⟩ := List.mem_map.1 hv
    rw [List.mem_range] at hi
    exact List.mem_append_left _ (List.mem_map.2 ⟨i + 1, List.mem_range.2 (by omega), rfl⟩)

/-- The products bring the phase of the sub-core, or they bring that of the buffer, which then assigns
the former. -/
theorem perm_targets (s : Stage) (before : List String) (sub : String) (after : List String)
    (subOrder : Nat) :
    (before ++ productPhase s "" sub :: after ++
      (bufferBody s "" sub subOrder).filterMap target?).Perm
        (before ++ (sub ++ "phase") :: after ++ s.bufferTargets) := by
  rw [productPhase, bufferBody, Stage.bufferTargets]
  cases s.buffer with
  | none => exact List.Perm.refl _
  | some b =>
    have hbuffer : (b.body "" sub subOrder).filterMap target? =
        (List.range b.network.counterBits).map (fun i => PermutationNetwork.tap "" (i + 1)) ++
          [sub ++ "phase"] := by
      rw [InputBuffer.body, List.filterMap_append, PermutationNetwork.body_eq_map, List.filterMap_map]
      congr 1
      exact congrFun List.filterMap_eq_map' _
    dsimp only
    rw [hbuffer, String.empty_append]
    -- the phases change places, and the network stands behind them on both sides
    refine List.perm_iff_count.2 fun v => ?_
    simp only [List.count_append, List.count_cons, List.count_nil]
    omega

/-- What the entity of a composite assigns, its buffer aside. -/
def fixedTargets : Core → List String
  | leaf _ => []
  | fourStep _ _ _ => ["sub1din", "sub1phase", "ph1", "ph2", "ph3", "sub2phase", "dout", "bitPermOut"]
  | radix4 _ _ _ => ["ph1", "ph2", "sub1phase", "dout", "bitPermOut"]

theorem perm_targets_body {c : Core} (hs : s ∈ c.stage?) :
    ((c.body "" "sub1" "sub2").filterMap target?).Perm (c.fixedTargets ++ s.bufferTargets) := by
  have hsource : (s.twiddleSource.body "" s.size).filterMap target? = [] := by
    cases s.twiddleSource <;> rfl
  cases c with
  | leaf l => cases hs
  | fourStep s' sub1 sub2 =>
    cases hs
    rw [body, fourStepBody, List.filterMap_append, List.filterMap_append, hsource, List.append_nil]
    exact perm_targets s ["sub1din", "sub1phase", "ph1", "ph2", "ph3"] "sub2" ["dout", "bitPermOut"]
      sub2.order
  | radix4 s' d sub1 =>
    cases hs
    rw [body, radix4Body, List.filterMap_append, List.filterMap_append, hsource, List.append_nil]
    exact perm_targets s ["ph1", "ph2"] "sub1" ["dout", "bitPermOut"] sub1.order

theorem disjoint_bufferNames (c : Core) (s : Stage) : c.fixedNames.Disjoint s.bufferNames :=
  (List.nodup_append'.1 (c.nodup_toLower_declared s).of_map).2.2

theorem fixedTargets_subset (c : Core) : c.fixedTargets ⊆ c.fixedNames := by
  cases c <;> (rw [fixedTargets, fixedNames]; decide)

theorem nodup_targets_body {c : Core} (hs : s ∈ c.stage?) :
    ((c.body "" "sub1" "sub2").filterMap target?).Nodup := by
  have hfixed : c.fixedTargets.Nodup := by
    cases c <;> (rw [fixedTargets]; decide)
  refine (perm_targets_body hs).nodup_iff.2
    (List.nodup_append'.2 ⟨hfixed, nodup_bufferTargets s, fun v hv hmem => ?_⟩)
  exact c.disjoint_bufferNames s (c.fixedTargets_subset hv) (bufferTargets_subset s hmem)

/-- The other fixed names are neither assigned nor part of the buffer. -/
theorem notMem_of_notMem_fixedTargets {c : Core} (hs : s ∈ c.stage?) {v : String}
    (h : v ∈ c.fixedNames ∧ v ∉ c.fixedTargets) :
    v ∉ (c.body "" "sub1" "sub2").filterMap target? ∧ v ∉ s.bufferNames := by
  have hbuffer : v ∉ s.bufferNames := fun hmem => c.disjoint_bufferNames s h.1 hmem
  rw [(perm_targets_body hs).mem_iff, List.mem_append, not_or]
  exact ⟨⟨h.2, fun hmem => hbuffer (bufferTargets_subset s hmem)⟩, hbuffer⟩

theorem terminals_network (p : PermutationNetwork) (v : String) :
    (p.body "").flatMap (terminals v) = [] := by
  rw [PermutationNetwork.body_eq_map, List.flatMap_map]
  exact List.flatMap_eq_nil_iff.2 fun _ _ => rfl

/-- The buffer is connected to its own signals, and to those between it and its surroundings. -/
theorem terminals_bufferBody {b : InputBuffer} (hb : s.buffer = some b) (sub : String)
    (subOrder : Nat) {v : String} (hclk : v ≠ "clk") (hv : v ∉ s.bufferNames) :
    (bufferBody s "" sub subOrder).flatMap (terminals v) =
      (if v = "rbIn" then [⟨"rb", "reorderBuffer", some "din"⟩] else []) ++
        if v = sub ++ "din" then [⟨"rb", "reorderBuffer", some "dout"⟩] else [] := by
  rw [Stage.bufferNames, hb] at hv
  simp only [List.mem_append, List.mem_map, List.mem_cons, List.not_mem_nil, or_false, not_or,
    List.mem_range, not_exists, not_and] at hv
  obtain ⟨htap, hcounter, hphase⟩ := hv
  have hin : v ≠ b.network.inputSignal "" := fun h => htap 0 (Nat.succ_pos _) h.symm
  have hout : v ≠ b.network.outputSignal "" := fun h => htap _ (Nat.lt_succ_self _) h.symm
  have hcount : v ≠ b.network.counterSignal "" := hcounter
  rw [bufferBody, hb]
  change (b.body "" sub subOrder).flatMap (terminals v) = _
  rw [InputBuffer.body, List.flatMap_append, terminals_network, List.nil_append]
  change (instantiate (b.inst "" sub subOrder)).terminals v ++ [] = _
  rw [List.append_nil]
  simp only [terminals, InputBuffer.inst, Association.positional, Association.next, Association.line,
    List.filter_cons, Expr.signals, List.contains_cons, List.contains_nil, Bool.or_false, beq_iff_eq,
    hclk, hphase, hin, hout, hcount, String.empty_append, if_false, List.filter_nil]
  split <;> split <;> rfl

/-- How products reach the data input of the sub-core behind the multiplier: at once, or through the
buffer, whose output is then connected to nothing else. No assignment interferes. -/
def ProductPath (s : Stage) (last : Slot) (ss : List Statement) : Prop :=
  let din := last.id ++ "din"
  let out1 : Terminal := ⟨"twMult", s.multiplier.entity, some "out1"⟩
  let input : Terminal := ⟨last.inst.label, last.inst.entity, some "din"⟩
  (∀ v ∈ ["rbIn", din], v ∉ ss.filterMap target?) ∧
  match s.buffer with
  | none => ss.flatMap (terminals din) = [out1, input]
  | some _ =>
    ss.flatMap (terminals "rbIn") = [out1, ⟨"rb", "reorderBuffer", some "din"⟩] ∧
      ss.flatMap (terminals din) = [⟨"rb", "reorderBuffer", some "dout"⟩, input]

/-- Reading keeps the path. -/
theorem ProductPath.shown {last : Slot} {ss : List Statement} (h : ProductPath s last ss)
    {names : List String} (hnames : Vocabulary names) (hss : ∀ st ∈ ss, st.Connected names) :
    ProductPath s last (ss.filterMap shown?) := by
  unfold ProductPath
  rw [filterMap_target?_shown]
  simp only [flatMap_terminals_shown hnames hss]
  exact h

theorem terminals_twiddleSource (n : Nat) (source : TwiddleSource) : ∀ v ∈ ["rbIn", "sub1din", "sub2din"],
    (source.body "" n).flatMap (terminals v) = [] := by
  simp only [List.forall_mem_cons]
  cases source <;> exact ⟨rfl, rfl, rfl, by simp⟩

theorem terminals_fourStepBody (s : Stage) (sub1 sub2 : Core) : ∀ v ∈ ["rbIn", "sub2din"],
    (fourStepBody s sub1 sub2 "" "sub1" "sub2").flatMap (terminals v) =
      (if v = productSignal s "" "sub2" then [⟨"twMult", s.multiplier.entity, some "out1"⟩] else []) ++
        (bufferBody s "" "sub2" sub2.order).flatMap (terminals v) := by
  intro v hv
  have hsource : (s.twiddleSource.body "" s.size).flatMap (terminals v) = [] :=
    terminals_twiddleSource s.size s.twiddleSource v (by revert v; decide)
  rw [fourStepBody, List.flatMap_append, List.flatMap_append, hsource, List.append_nil]
  congr 1
  rw [productSignal]
  simp only [List.mem_cons, List.not_mem_nil, or_false] at hv
  cases s.buffer with
  | none => rcases hv with rfl | rfl <;> rfl
  | some b => rcases hv with rfl | rfl <;> rfl

theorem terminals_radix4Body (s : Stage) (d : Nat) (sub1 : Core) : ∀ v ∈ ["rbIn", "sub1din"],
    (radix4Body s d sub1 "" "sub1").flatMap (terminals v) =
      (if v = productSignal s "" "sub1" then [⟨"twMult", s.multiplier.entity, some "out1"⟩] else []) ++
        (bufferBody s "" "sub1" sub1.order).flatMap (terminals v) := by
  intro v hv
  have hsource : (s.twiddleSource.body "" s.size).flatMap (terminals v) = [] :=
    terminals_twiddleSource s.size s.twiddleSource v (by revert v; decide)
  rw [radix4Body, List.flatMap_append, List.flatMap_append, hsource, List.append_nil]
  congr 1
  rw [productSignal]
  simp only [List.mem_cons, List.not_mem_nil, or_false] at hv
  cases s.buffer with
  | none => rcases hv with rfl | rfl <;> rfl
  | some b => rcases hv with rfl | rfl <;> rfl

/-- A sub-core is connected to its own data input. -/
theorem terminals_slot (c : Core) (entity : String) : ∀ id ∈ ["sub1", "sub2"],
    ∀ v ∈ ["rbIn", "sub1din", "sub2din"], (instantiate (c.slot id entity).inst).terminals v =
      if v = id ++ "din" then
        [⟨(c.slot id entity).inst.label, (c.slot id entity).inst.entity, some "din"⟩]
      else [] := by
  simp only [List.forall_mem_cons]
  cases c <;> exact ⟨⟨rfl, rfl, rfl, by simp⟩, ⟨rfl, rfl, rfl, by simp⟩, by simp⟩

/-- A path can be put together from what the multiplier, the buffer and the sub-core are connected to. -/
theorem productPath_of_terminals {last : Slot} {ss : List Statement} (subOrder : Nat)
    (hid : last.id ∈ ["sub1", "sub2"])
    (hnames : ∀ v ∈ ["rbIn", last.id ++ "din"], v ∉ ss.filterMap target? ∧ v ∉ s.bufferNames)
    (hterminals : ∀ v ∈ ["rbIn", last.id ++ "din"], ss.flatMap (terminals v) =
      (if v = productSignal s "" last.id then [⟨"twMult", s.multiplier.entity, some "out1"⟩] else []) ++
        (bufferBody s "" last.id subOrder).flatMap (terminals v) ++
        if v = last.id ++ "din" then [⟨last.inst.label, last.inst.entity, some "din"⟩] else []) :
    ProductPath s last ss := by
  have hclk : ∀ id ∈ ["sub1", "sub2"], id ++ "din" ≠ "clk" ∧ id ++ "din" ≠ "rbIn" := by decide
  obtain ⟨hdinClk, hdinIn⟩ := hclk last.id hid
  obtain ⟨⟨-, hinBuffer⟩, hdinName⟩ := List.forall_mem_cons.1 hnames
  obtain ⟨hin, hdinWired⟩ := List.forall_mem_cons.1 hterminals
  have hdinBuffer := (List.forall_mem_singleton.1 hdinName).2
  have hdin := List.forall_mem_singleton.1 hdinWired
  refine ⟨fun v hv => (hnames v hv).1, ?_⟩
  rw [productSignal] at hin hdin
  cases hb : s.buffer with
  | none =>
    rw [bufferBody, hb] at hdin
    simpa using hdin
  | some b =>
    rw [hb, terminals_bufferBody hb last.id subOrder (by decide) hinBuffer] at hin
    rw [hb, terminals_bufferBody hb last.id subOrder hdinClk hdinBuffer] at hdin
    exact ⟨by simpa [hdinIn.symm] using hin, by simpa [hdinIn] using hdin⟩

theorem targets_statements (a : Architecture) :
    a.statements.filterMap target? = a.body.filterMap target? := by
  have hslots : (a.slots.map fun s => instantiate s.inst).filterMap target? = [] := by
    rw [List.filterMap_map]
    exact List.filterMap_eq_nil_iff.2 fun _ _ => rfl
  rw [Architecture.statements, List.filterMap_append, hslots, List.append_nil]

theorem terminals_statements (a : Architecture) (v : String) :
    a.statements.flatMap (terminals v) = a.body.flatMap (terminals v) ++
      a.slots.flatMap fun s => (instantiate s.inst).terminals v := by
  rw [Architecture.statements, List.flatMap_append, List.flatMap_map]

/-- Products reach the last sub-core of an entity. -/
theorem productPath_ownArchitecture {c : Core} {name : String} {a : Architecture}
    (ha : a ∈ c.ownArchitecture name) (hs : s ∈ c.stage?) :
    ∃ last ∈ a.slots.getLast?, ProductPath s last a.statements := by
  cases c with
  | leaf l => cases ha
  | fourStep s' sub1 sub2 =>
    cases ha
    have hnames : ∀ v ∈ ["rbIn", "sub2din"], v ∈ (fourStep s' sub1 sub2).fixedNames ∧
        v ∉ (fourStep s' sub1 sub2).fixedTargets := by
      rw [fixedNames, fixedTargets]
      decide
    refine ⟨sub2.slot "sub2" (childName name 1 sub2), rfl,
      productPath_of_terminals sub2.order (by decide : "sub2" ∈ _) (fun v hv => ?_) fun v hv => ?_⟩
    · rw [targets_statements]
      exact notMem_of_notMem_fixedTargets hs (hnames v hv)
    · cases hs
      have hbody := terminals_fourStepBody s sub1 sub2 v hv
      have hclosed : ∀ v ∈ ["rbIn", "sub2din"], v ∈ ["rbIn", "sub1din", "sub2din"] ∧
          v ≠ "sub1" ++ "din" := by decide
      obtain ⟨hmem, hother⟩ := hclosed v hv
      have hsub1 := terminals_slot sub1 (childName name 0 sub1) "sub1" (by decide) v hmem
      have hsub2 := terminals_slot sub2 (childName name 1 sub2) "sub2" (by decide) v hmem
      rw [if_neg hother] at hsub1
      rw [terminals_statements]
      change (fourStepBody s sub1 sub2 "" "sub1" "sub2").flatMap _ ++ ([_, _] : List Slot).flatMap _ = _
      rw [hbody, List.flatMap_cons, hsub1, List.flatMap_singleton, hsub2]
      rfl
  | radix4 s' d sub1 =>
    cases ha
    have hnames : ∀ v ∈ ["rbIn", "sub1din"], v ∈ (radix4 s' d sub1).fixedNames ∧
        v ∉ (radix4 s' d sub1).fixedTargets := by
      rw [fixedNames, fixedTargets]
      decide
    refine ⟨sub1.slot "sub1" (childName name 0 sub1), rfl,
      productPath_of_terminals sub1.order (by decide : "sub1" ∈ _) (fun v hv => ?_) fun v hv => ?_⟩
    · rw [targets_statements]
      exact notMem_of_notMem_fixedTargets hs (hnames v hv)
    · cases hs
      have hbody := terminals_radix4Body s d sub1 v hv
      have hclosed : ["rbIn", "sub1din"] ⊆ ["rbIn", "sub1din", "sub2din"] := by decide
      have hsub1 := terminals_slot sub1 (childName name 0 sub1) "sub1" (by decide) v (hclosed hv)
      rw [terminals_statements]
      change (radix4Body s d sub1 "" "sub1").flatMap _ ++ ([_] : List Slot).flatMap _ = _
      rw [hbody, List.flatMap_singleton, hsub1]
      rfl

/-- What is read from the body of an entity is closed under the names that its text declares, and
products reach its last sub-core. -/
theorem closed_ownArchitecture {c : Core} (hc : ∀ node ∈ c.nodes, node.Named) (hwidth : c.WidthNamed)
    {name : String} (hname : isBasicIdentifier name = true) {a : Architecture}
    (ha : a ∈ c.ownArchitecture name) (hs : s ∈ c.stage?) :
    s.bufferNames ⊆ a.shownNames ∧
    ∃ ss, readStatements a.bodyText = some ss ∧ Closed a.shownNames ss ∧
      ∃ last ∈ a.slots.getLast?, ProductPath s last ss := by
  obtain ⟨hregular, -⟩ := regular_ownArchitecture hc hwidth hname ha
  have hshown := shownNames_ownArchitecture hregular ha hs
  have hnames : Vocabulary (c.fixedNames ++ s.bufferNames) :=
    c.vocabulary_fixedNames.append (vocabulary_bufferNames s)
  have hconnected := connected_ownArchitecture hc ha hs
  have hread : readStatements a.bodyText = some (a.statements.filterMap shown?) := by
    have htext := readStatements_listText fun st hst =>
      ⟨hregular.readable st hst, hregular.labelled st hst, (hconnected st hst).wired hnames⟩
    rwa [readStatements, ← a.scan_bodyText] at htext
  have htargets : (a.statements.filterMap target?).Nodup := by
    rw [targets_statements, (parts_ownArchitecture ha).2.2]
    exact nodup_targets_body hs
  obtain ⟨last, hlast, hpath⟩ := productPath_ownArchitecture ha hs
  rw [hshown]
  exact ⟨List.subset_append_right _ _, _, hread,
    closed_shown hnames hconnected (c.nodup_toLower_declared s) htargets, last, hlast,
    hpath.shown hnames hconnected⟩

end Core
end StreamingFft
