import StreamingFft.Core.Netlist
import StreamingFft.Proofs.Core.Invariant
import StreamingFft.Proofs.Vhdl.Signals
/-!
The orders of a composite as maps of sample numbers. A transform of `N1 * N2` points in two steps
writes a number with the digits of both factors and turns the digits around; the permutation of the
twiddle addresses goes by the same low digit as the output order.
-/
namespace StreamingFft.Core
open Vhdl

/-- Points of the transforms of the first step. -/
def firstFactor : Core → Nat
  | leaf l => l.size
  | fourStep _ sub1 _ => sub1.size
  | radix4 _ _ _ => 4

/-- Points of the transforms of the second step. -/
def secondFactor : Core → Nat
  | leaf _ => 1
  | fourStep _ _ sub2 => sub2.size
  | radix4 _ _ sub1 => sub1.size

/-- Where the samples of a composite come from and where its results go, by digits. -/
def IndexMaps : Core → Prop
  | leaf _ => True
  | fourStep s sub1 sub2 => ∀ t < sub1.size * sub2.size,
    (fourStep s sub1 sub2).outputOrder.apply t =
        sub1.outputOrder.apply (t / sub2.size) +
          sub1.size * sub2.outputOrder.apply (t % sub2.size) ∧
      (fourStep s sub1 sub2).inputOrder.apply t =
        t / sub1.size + sub2.size * sub1.inputOrder.apply (t % sub1.size)
  | radix4 s d sub1 => ∀ t < 4 * sub1.size,
    (radix4 s d sub1).outputOrder.apply t =
      (BitOrder.reversed 2).apply (t / sub1.size) +
        4 * sub1.outputOrder.apply (t % sub1.size)

/-- The statements that assign the permuted twiddle address. -/
def addressDrivers (id : String) (ss : List Statement) : List Statement :=
  ss.filter fun st => st.target? = some (id ++ "bitPermOut")

/-- One statement of the body assigns the permuted twiddle address. Its text reads as what it is, and
its value, at the high part of a time, is the low digit of the output index of that time. -/
def TwiddleDigit (c : Core) (id id1 id2 : String) : Prop :=
  ∃ e, addressDrivers id (c.body id id1 id2) = [.assign (id ++ "bitPermOut") e] ∧
    readAssignments (Statement.assign (id ++ "bitPermOut") e).text =
      [.assign (id ++ "bitPermOut") e] ∧
    ∀ (σ : String → Int) (t : Nat), t < c.size →
      σ (id ++ "bitPermIn") = (t / c.secondFactor : Nat) →
        e.value σ = (c.outputOrder.apply t % c.firstFactor : Nat)

section
variable {s : Stage} {sub1 sub2 : Core} {d : Nat}

theorem indexMaps_fourStep (h1 : sub1.Coherent) (h2 : sub2.Coherent) :
    (fourStep s sub1 sub2).IndexMaps := by
  intro t ht
  constructor
  · rw [outputOrder, BitOrder.apply_append, h1.size_outputOrder, h2.size_outputOrder, ← h1.size_eq,
      ← h2.size_eq]
  · -- the high part of a time is below the second factor, so that the natural order keeps it
    have hhigh : t / sub1.size < sub2.size := Nat.div_lt_of_lt_mul ht
    rw [inputOrder, BitOrder.apply_append, BitOrder.apply_natural, BitOrder.size_natural,
      h1.size_inputOrder, ← h1.size_eq, ← h2.size_eq, Nat.mod_eq_of_lt hhigh]

theorem indexMaps_radix4 (h1 : sub1.Coherent) : (radix4 s d sub1).IndexMaps := by
  intro t _
  rw [outputOrder, BitOrder.apply_append, h1.size_outputOrder, ← h1.size_eq, BitOrder.size_reversed]

end

/-- Names with different ends are different, whatever stands in front. -/
theorem append_ne_append {s t : String} (hst : ¬ s.toList <:+ t.toList)
    (hts : ¬ t.toList <:+ s.toList) (a b : String) : a ++ s ≠ b ++ t := by
  intro h
  have hlist : b.toList ++ t.toList = a.toList ++ s.toList := by
    rw [← String.toList_append, ← String.toList_append, h]
  have hs : s.toList <:+ a.toList ++ s.toList := List.suffix_append ..
  have ht : t.toList <:+ a.toList ++ s.toList := ⟨b.toList, hlist⟩
  exact (List.suffix_or_suffix_of_suffix hs ht).elim hst hts

theorem tap_ne_append {s : String} (hs : s.toList.getLast?.any Char.isDigit = false)
    (hne : s.toList ≠ []) (a b : String) (i : Nat) : PermutationNetwork.tap a i ≠ b ++ s := by
  intro h
  have htap : PermutationNetwork.tap a i = a ++ "rP" ++ Nat.repr i := rfl
  have hlast := congrArg (fun v => v.toList.getLast?) h
  rw [htap] at hlast
  simp only [String.toList_append, Nat.toList_repr] at hlast
  rw [List.getLast?_append_of_ne_nil _ Nat.toDigits_ne_nil,
    List.getLast?_append_of_ne_nil _ hne] at hlast
  -- a tap ends in a digit
  have hdigit : (Nat.toDigits 10 i).getLast?.any Char.isDigit = true := by
    rw [List.getLast?_eq_some_getLast Nat.toDigits_ne_nil, Option.any_some]
    exact Nat.isDigit_of_mem_toDigits (by decide) (by decide) (List.getLast_mem _)
  rw [hlast, hs] at hdigit
  cases hdigit

section
variable {s : Stage} {sub1 sub2 : Core} {d : Nat} (id id1 id2 : String)

theorem addressDrivers_append (ss rest : List Statement) :
    addressDrivers id (ss ++ rest) = addressDrivers id ss ++ addressDrivers id rest :=
  List.filter_append ..

theorem addressDrivers_twiddleBody (n : Nat) (source : TwiddleSource) :
    addressDrivers id (source.body id n) = [] := by
  apply List.filter_eq_nil_iff.2
  refine List.forall_mem_cons.2 ⟨by simp [Statement.target?], ?_⟩
  intro st hst
  obtain ⟨i, _, rfl⟩ := List.mem_map.1 hst
  simp [Statement.target?]

theorem addressDrivers_stageStatements (a counter : String) (i : Nat) (stages : List BitOrder) :
    addressDrivers id (PermutationNetwork.stageStatements a counter i stages) = [] := by
  induction stages generalizing i with
  | nil => rfl
  | cons q rest ih =>
    have hne := tap_ne_append (s := "bitPermOut") (by decide) (by decide) a id (i + 1)
    refine (List.filter_cons_of_neg ?_).trans (ih (i + 1))
    simpa [Statement.target?] using hne

theorem ne_bitPermOut {s : String} (hs : ¬ s.toList <:+ "bitPermOut".toList)
    (hs' : ¬ "bitPermOut".toList <:+ s.toList) (a : String) : a ++ s ≠ id ++ "bitPermOut" :=
  append_ne_append hs hs' a id

theorem addressDrivers_bufferBody (s : Stage) (k : Nat) :
    addressDrivers id (bufferBody s id id2 k) = [] := by
  unfold bufferBody
  split
  · rfl
  · have hphase := ne_bitPermOut id (s := "phase") (by decide) (by decide) id2
    rw [InputBuffer.body, addressDrivers_append, PermutationNetwork.body,
      addressDrivers_stageStatements]
    simp [addressDrivers, Statement.target?, hphase]

theorem productPhase_ne_bitPermOut (s : Stage) : productPhase s id id2 ≠ id ++ "bitPermOut" := by
  unfold productPhase
  split
  · exact ne_bitPermOut id (by decide) (by decide) id2
  · exact ne_bitPermOut id (by decide) (by decide) id

theorem addressDrivers_fourStepBody :
    addressDrivers id (fourStepBody s sub1 sub2 id id1 id2) =
      [.assign (id ++ "bitPermOut") (.select sub1.outputOrder (id ++ "bitPermIn"))] := by
  have hdin := ne_bitPermOut id (s := "din") (by decide) (by decide)
  have hphase := ne_bitPermOut id (s := "phase") (by decide) (by decide)
  have hdout := ne_bitPermOut id (s := "dout") (by decide) (by decide)
  have hph1 := ne_bitPermOut id (s := "ph1") (by decide) (by decide)
  have hph2 := ne_bitPermOut id (s := "ph2") (by decide) (by decide)
  have hph3 := ne_bitPermOut id (s := "ph3") (by decide) (by decide)
  have hproduct := productPhase_ne_bitPermOut id id2 s
  rw [fourStepBody, addressDrivers_append, addressDrivers_append, addressDrivers_twiddleBody,
    addressDrivers_bufferBody]
  simp [addressDrivers, Statement.target?, delayedPhase, hdin, hphase, hdout, hph1, hph2, hph3,
    hproduct]

theorem addressDrivers_radix4Body :
    addressDrivers id (radix4Body s d sub1 id id1) =
      [.assign (id ++ "bitPermOut") (.select (.reversed 2) (id ++ "bitPermIn"))] := by
  have hdout := ne_bitPermOut id (s := "dout") (by decide) (by decide)
  have hph1 := ne_bitPermOut id (s := "ph1") (by decide) (by decide)
  have hph2 := ne_bitPermOut id (s := "ph2") (by decide) (by decide)
  have hproduct := productPhase_ne_bitPermOut id id1 s
  rw [radix4Body, addressDrivers_append, addressDrivers_append, addressDrivers_twiddleBody,
    addressDrivers_bufferBody]
  simp [addressDrivers, Statement.target?, delayedPhase, hdout, hph1, hph2, hproduct]

end

/-- The rearranged address reads from its text as what it is. -/
theorem readAssignments_select {id : String} (hid : id.toList.all isWordChar = true)
    (o : BitOrder) :
    readAssignments
        (Statement.assign (id ++ "bitPermOut") (.select o (id ++ "bitPermIn"))).text =
      [.assign (id ++ "bitPermOut") (.select o (id ++ "bitPermIn"))] := by
  have hout : IsName (id ++ "bitPermOut") := IsName.append hid (by decide)
  have hin : IsName (id ++ "bitPermIn") := IsName.append hid (by decide)
  exact Statement.readAssignments_text ⟨hout, Expr.legible_select o hin⟩ rfl

/-- A rearranged address has the value that the low digit of the output index asks for. -/
theorem value_select_digit {o : BitOrder} {σ : String → Int} {v : String} {b n rest : Nat}
    (hv : σ v = b) (hb : b < n) (hn : n = 2 ^ o.size) :
    (Expr.select o v).value σ = ((o.apply b + n * rest) % n : Nat) := by
  subst hn
  rw [Expr.value_select o hv hb, Nat.add_mul_mod_self_left, Nat.mod_eq_of_lt (o.apply_lt b)]

theorem twiddleDigit_fourStep {s : Stage} {sub1 sub2 : Core} (hc : (fourStep s sub1 sub2).Coherent)
    (h1 : sub1.Coherent) (h2 : sub2.Coherent) {id : String}
    (hid : id.toList.all isWordChar = true) (id1 id2 : String) :
    (fourStep s sub1 sub2).TwiddleDigit id id1 id2 := by
  refine ⟨_, addressDrivers_fourStepBody id id1 id2, readAssignments_select hid _, ?_⟩
  intro σ t ht hin
  have hsize : t < sub1.size * sub2.size := hc.shaped.1 ▸ ht
  have hhigh : t / sub2.size < sub1.size :=
    Nat.div_lt_of_lt_mul (Nat.mul_comm sub1.size sub2.size ▸ hsize)
  rw [(indexMaps_fourStep h1 h2 t hsize).1]
  exact value_select_digit hin hhigh (by rw [h1.size_outputOrder, h1.size_eq])

theorem twiddleDigit_radix4 {s : Stage} {d : Nat} {sub1 : Core} (hc : (radix4 s d sub1).Coherent)
    (h1 : sub1.Coherent) {id : String} (hid : id.toList.all isWordChar = true) (id1 id2 : String) :
    (radix4 s d sub1).TwiddleDigit id id1 id2 := by
  refine ⟨_, addressDrivers_radix4Body id id1, readAssignments_select hid _, ?_⟩
  intro σ t ht hin
  have hsize : t < 4 * sub1.size := hc.shaped.1 ▸ ht
  have hhigh : t / sub1.size < 4 := Nat.div_lt_of_lt_mul (Nat.mul_comm 4 sub1.size ▸ hsize)
  rw [indexMaps_radix4 h1 t hsize]
  exact value_select_digit hin hhigh rfl

/-- The orders of every composite of a reachable tree turn the digits of the sample numbers around,
and its text permutes the twiddle addresses by the low digit of its output order. -/
theorem indexMaps_of_reachable {c node : Core} (h : c.Reachable) (hnode : node ∈ c.nodes)
    (hleaf : node.isLeaf = false) :
    node.IndexMaps ∧ ∀ id id1 id2 : String, id.toList.all isWordChar = true →
      node.TwiddleDigit id id1 id2 := by
  have hsub : ∀ n ∈ node.nodes, n.Coherent := fun n hn => h.coherent n (nodes_subset hnode hn)
  have hself := hsub node (self_mem_nodes node)
  cases node with
  | leaf l => cases hleaf
  | fourStep s sub1 sub2 =>
    have h1 := hsub sub1 (child_mem_nodes (i := 0) rfl)
    have h2 := hsub sub2 (child_mem_nodes (i := 1) rfl)
    exact ⟨indexMaps_fourStep h1 h2, fun _ id1 id2 hid => twiddleDigit_fourStep hself h1 h2 hid id1 id2⟩
  | radix4 s d sub1 =>
    have h1 := hsub sub1 (child_mem_nodes (i := 0) rfl)
    exact ⟨indexMaps_radix4 h1, fun _ id1 id2 hid => twiddleDigit_radix4 hself h1 hid id1 id2⟩

/-- Takes and delivers eight points with the address bits in a cycle. -/
def rotatedLeaf : Leaf where
  order := 3
  entity := "fft8"
  scale := "SCALE_NONE"
  delay := 8
  inputOrder := ⟨[2, 0, 1], by decide, by decide⟩
  outputOrder := ⟨[2, 0, 1], by decide, by decide⟩
  size_inputOrder := rfl
  size_outputOrder := rfl

/-- The leaf before its output order was declared. -/
def halfRotatedLeaf : Leaf :=
  { rotatedLeaf with outputOrder := .natural 3, size_outputOrder := rfl }

/-- The leaf before its orders were declared. -/
def naturalLeaf : Leaf :=
  { halfRotatedLeaf with inputOrder := .natural 3, size_inputOrder := rfl }

/-- Thirty-two points in two steps of eight and four. -/
def unevenPair : Core :=
  fourStep (.ofLast 32 5 4 (.natural 2)) (leaf rotatedLeaf) (leaf plainLeaf)

def unevenTree : Core :=
  radix4 (.ofLast 128 7 32 unevenPair.inputOrder) (radix4Delay 128) unevenPair

theorem reachable_unevenTree : unevenTree.Reachable := by
  have height : Leaf.ofSize 8 "fft8" "SCALE_NONE" 8 = .ok naturalLeaf := rfl
  have hinput : naturalLeaf.declare .input [2, 0, 1] = .ok halfRotatedLeaf := rfl
  have houtput : halfRotatedLeaf.declare .output [2, 0, 1] = .ok rotatedLeaf := rfl
  have hfour : Leaf.ofSize 4 "fft4" "SCALE_NONE" 4 = .ok plainLeaf := rfl
  have hpair : unevenPair.Reachable :=
    .fourStep (n := 32) (((Reachable.leaf height).declare hinput).declare houtput) (.leaf hfour) rfl
  exact .radix4 (n := 128) hpair rfl

theorem indexMaps_unevenPair :
    unevenTree.Reachable ∧ unevenPair ∈ unevenTree.nodes ∧ unevenPair.isLeaf = false ∧
      unevenPair.IndexMaps ∧ unevenPair.TwiddleDigit "" "sub1" "sub2" ∧
      unevenPair.outputOrder.apply 6 = 2 + 8 * 2 ∧ unevenPair.inputOrder.apply 6 = 0 + 4 * 5 := by
  have hmem : unevenPair ∈ unevenTree.nodes := last_mem_nodes rfl
  obtain ⟨hmaps, hdigit⟩ := indexMaps_of_reachable reachable_unevenTree hmem rfl
  refine ⟨reachable_unevenTree, hmem, rfl, hmaps, hdigit "" "sub1" "sub2" (by decide), ?_, ?_⟩
  · exact (hmaps 6 (by decide)).1
  · exact (hmaps 6 (by decide)).2

end StreamingFft.Core
