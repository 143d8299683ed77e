import StreamingFft.Proofs.Core.Components
import StreamingFft.Proofs.Vhdl.Declared
import StreamingFft.Proofs.Vhdl.Netlist
/-!
The names that a generated entity declares: those of its interface, of the sub-cores' signals and of its
own constants and signals, and with a buffer the signals of its network. No two are the same.
-/
namespace StreamingFft
open Vhdl

namespace Architecture

/-- All declarations, in the order of their lines. -/
def allDeclarations (a : Architecture) : List Declaration :=
  a.slotSignals ++ a.constants ++ a.declarations

/-- Generics and ports, then what is declared in front of the body. -/
def declared (a : Architecture) : List String :=
  a.interface.names ++ a.allDeclarations.flatMap Declaration.names

/-- The names that are read from the text of an entity: generics and ports, then signals and constants. -/
def shownNames (a : Architecture) : List String :=
  declaredNames a.interface.text ++ declaredNames a.declarationText

theorem declaredNames_interface (a : Architecture) :
    declaredNames a.interface.text = a.interface.names := by
  have hword : (SignalType.word (.nat a.order)).Harmless :=
    plain_append.2 ⟨plain_append.2 ⟨plain_repr a.order, by decide⟩, by decide⟩
  refine Interface.declaredNames_text ⟨List.cons_ne_nil _ _, List.cons_ne_nil _ _, ?_, ?_⟩
  · simp +decide [interface, coreInterface]
  · simp only [interface, coreInterface, List.forall_mem_cons]
    exact ⟨⟨by decide, trivial⟩, ⟨by decide, trivial⟩, ⟨by decide, hword⟩, ⟨by decide, trivial⟩,
      by simp⟩

/-- The names that are read from the declarations of an entity. -/
theorem Regular.declaredNames_declarationText {a : Architecture} (h : a.Regular)
    (hnames : ∀ d ∈ a.allDeclarations, ∀ v ∈ d.names, IsName v)
    (htidy : a.allDeclarations.all Declaration.tidy = true) :
    declaredNames a.declarationText = a.allDeclarations.flatMap Declaration.names := by
  have hharmless : ∀ d ∈ a.allDeclarations, d.Harmless :=
    List.forall_mem_append.2
      ⟨List.forall_mem_append.2 ⟨h.harmless_slotSignals, h.constants⟩, h.declarations⟩
  have hlegible : ∀ d ∈ a.allDeclarations, d.Legible := fun d hd =>
    (hharmless d hd).legible (hnames d hd) (List.all_eq_true.1 htidy d hd)
  obtain ⟨hpart, hdeclarations⟩ := List.forall_mem_append.1 hlegible
  obtain ⟨hslots, hconstants⟩ := List.forall_mem_append.1 hpart
  have hrule : Lines readNames "\n\t--=======================================\n\n" [] :=
    .of_chars (by decide) (by decide)
  have htext := ((((Declaration.lines_nameList hslots).indent 1).append
    ((Declaration.lines_nameList hconstants).indent 1)).append hrule).append
    ((Declaration.lines_nameList hdeclarations).indent 1)
  rw [declaredNames, declarationText, htext.readColons_eq, List.append_nil, ← List.flatMap_append,
    ← List.flatMap_append]
  exact Declaration.flatten_nameList a.allDeclarations

end Architecture

/-- Numbered names that share a beginning are apart from names without it. -/
theorem nodup_numbered {f : Nat → String} (hf : Function.Injective f) (start : List Char)
    (hstart : ∀ i, start <+: (f i).toList) {fixed : List String} (hfixed : fixed.Nodup)
    (hother : ∀ v ∈ fixed, ¬ start <+: v.toList) {numbers : List Nat} (hnumbers : numbers.Nodup) :
    (numbers.map f ++ fixed).Nodup := by
  refine List.nodup_append'.2 ⟨hnumbers.map hf, hfixed, fun v hv hmem => ?_⟩
  obtain ⟨i, -, rfl⟩ := List.mem_map.1 hv
  exact hother _ hmem (hstart i)

namespace PermutationNetwork

theorem names_declarations (p : PermutationNetwork) :
    (p.declarations "").flatMap Declaration.names =
      (List.range (p.counterBits + 1)).map (tap "") ++ ["rCnt"] := by
  rw [declarations, List.flatMap_append, List.flatMap_map, List.map_eq_flatMap]
  rfl

theorem tidy_declarations (p : PermutationNetwork) :
    (p.declarations "").all Declaration.tidy = true := by
  rw [declarations, List.all_append, List.all_map]
  exact Bool.and_eq_true_iff.2 ⟨List.all_eq_true.2 fun _ _ => rfl, rfl⟩

theorem toList_tap (i : Nat) : (tap "" i).toList = ['r', 'P'] ++ Nat.toDigits 10 i := by
  have htap : tap "" i = "rP" ++ Nat.repr i := rfl
  have hstart : "rP".toList = ['r', 'P'] := by decide
  rw [htap, String.toList_append, Nat.toList_repr, hstart]

theorem toList_toLower_tap (i : Nat) :
    (tap "" i).toLower.toList = ['r', 'p'] ++ Nat.toDigits 10 i := by
  unfold String.toLower
  rw [String.toList_map, toList_tap, List.map_append, map_toLower_toDigits]
  rfl

theorem toLower_tap_injective : Function.Injective fun i => (tap "" i).toLower := by
  intro i j h
  have hlist := congrArg String.toList h
  simp only [toList_toLower_tap] at hlist
  have hdigits := congrArg number? (List.append_cancel_left hlist)
  rw [number?_toDigits, number?_toDigits] at hdigits
  exact Option.some.inj hdigits

end PermutationNetwork

/-- Signals of the buffer: in front of each stage of its network and behind the last, then its counter
and its phase. -/
def Stage.bufferNames (s : Stage) : List String :=
  match s.buffer with
  | none => []
  | some b =>
    (List.range (b.network.counterBits + 1)).map (PermutationNetwork.tap "") ++ ["rCnt", "rbInPhase"]

namespace Core

/-- Names that a composite declares, its buffer aside. -/
def fixedNames : Core → List String
  | leaf _ => []
  | fourStep _ _ _ =>
    ["dataBits", "twBits", "clk", "din", "phase", "dout", "sub1din", "sub1dout", "sub2din", "sub2dout",
      "sub1phase", "sub2phase", "N", "twiddleBits", "twiddleDelay", "order", "delay", "ph1", "ph2",
      "ph3", "rbIn", "transpOut", "bitPermIn", "bitPermOut", "twAddr", "twData", "romAddr", "romData"]
  | radix4 _ _ _ =>
    ["dataBits", "twBits", "clk", "din", "phase", "dout", "sub1din", "sub1dout", "sub1phase", "N",
      "twiddleBits", "twiddleDelay", "order", "delay", "rbIn", "spdfOut", "ph1", "ph2", "bitPermIn",
      "bitPermOut", "twAddr", "twData", "romAddr", "romData"]

theorem names_bufferSignals (s : Stage) (subOrder : Nat) :
    (bufferSignals s "" subOrder).flatMap Declaration.names = s.bufferNames := by
  rw [bufferSignals, Stage.bufferNames]
  cases s.buffer with
  | none => rfl
  | some b =>
    change (b.declarations "" subOrder).flatMap Declaration.names = _
    rw [InputBuffer.declarations, List.flatMap_append, PermutationNetwork.names_declarations, List.append_assoc]
    rfl

theorem names_constants {c : Core} {s : Stage} (hs : c.stage? = some s) :
    (c.constants "").flatMap Declaration.names = ["N", "twiddleBits", "twiddleDelay", "order", "delay"] := by
  rw [constants, hs]
  dsimp only
  split <;> rfl

theorem tidy_bufferSignals (s : Stage) (subOrder : Nat) :
    (bufferSignals s "" subOrder).all Declaration.tidy = true := by
  rw [bufferSignals]
  cases s.buffer with
  | none => rfl
  | some b =>
    change (b.declarations "" subOrder).all Declaration.tidy = true
    rw [InputBuffer.declarations, List.all_append, b.network.tidy_declarations]
    rfl

theorem tidy_constants (c : Core) : (c.constants "").all Declaration.tidy = true := by
  rw [constants]
  cases c.stage? with
  | none => rfl
  | some s =>
    dsimp only
    split <;> rfl

theorem tidy_declarations (c : Core) : (c.declarations "").all Declaration.tidy = true := by
  cases c with
  | leaf l => rfl
  | fourStep s sub1 sub2 =>
    rw [declarations, List.all_append, tidy_bufferSignals]
    rfl
  | radix4 s d sub1 =>
    rw [declarations, List.all_append, tidy_bufferSignals]
    rfl

/-- An entity is made of the parts that its composite brings. -/
theorem parts_ownArchitecture {c : Core} {name : String} {a : Architecture}
    (ha : a ∈ c.ownArchitecture name) : a.constants = c.constants "" ∧
      a.declarations = c.declarations "" ∧ a.body = c.body "" "sub1" "sub2" := by
  cases c <;> cases ha <;> exact ⟨rfl, rfl, rfl⟩

theorem tidy_ownArchitecture {c : Core} {name : String} {a : Architecture}
    (ha : a ∈ c.ownArchitecture name) : a.allDeclarations.all Declaration.tidy = true := by
  obtain ⟨hconstants, hdeclarations, -⟩ := parts_ownArchitecture ha
  have hslots : a.slotSignals.all Declaration.tidy = true := by
    cases c <;> cases ha <;> rfl
  rw [Architecture.allDeclarations, List.all_append, List.all_append, hslots, hconstants,
    hdeclarations, c.tidy_constants, c.tidy_declarations]
  rfl

/-- The declared names of an entity. -/
theorem declared_ownArchitecture {c : Core} {name : String} {a : Architecture}
    (ha : a ∈ c.ownArchitecture name) {s : Stage} (hs : s ∈ c.stage?) :
    a.declared = c.fixedNames ++ s.bufferNames := by
  obtain ⟨hconstants, hdeclarations, -⟩ := parts_ownArchitecture ha
  have hbuffer := names_bufferSignals s
  rw [Architecture.declared, Architecture.allDeclarations, List.flatMap_append, List.flatMap_append,
    hconstants, hdeclarations, names_constants hs]
  cases c with
  | leaf l => cases ha
  | fourStep s' sub1 sub2 =>
    cases ha
    cases hs
    rw [declarations, List.flatMap_append, hbuffer]
    rfl
  | radix4 s' d sub1 =>
    cases ha
    cases hs
    rw [declarations, List.flatMap_append, hbuffer]
    rfl

theorem vocabulary_fixedNames (c : Core) : Vocabulary c.fixedNames := by
  cases c with
  | leaf l => exact fun v hv => nomatch hv
  | fourStep s sub1 sub2 =>
    rw [fixedNames]
    unfold Vocabulary
    decide
  | radix4 s d sub1 =>
    rw [fixedNames]
    unfold Vocabulary
    decide

theorem vocabulary_bufferNames (s : Stage) : Vocabulary s.bufferNames := by
  rw [Stage.bufferNames]
  cases s.buffer with
  | none => exact fun v hv => nomatch hv
  | some b =>
    refine List.forall_mem_append.2 ⟨fun v hv => ?_, by decide⟩
    obtain ⟨i, -, rfl⟩ := List.mem_map.1 hv
    refine ⟨PermutationNetwork.isName_tap (by decide) i, fun hmem => ?_⟩
    -- a tap starts with another letter than the truth values
    have hword : ∀ w ∈ ["true", "false"], w.toList.head? ≠ some 'r' := by decide
    refine hword _ hmem ?_
    rw [PermutationNetwork.toList_tap]
    rfl

/-- No two names of an entity are the same without case. -/
theorem nodup_toLower_declared (c : Core) (s : Stage) :
    ((c.fixedNames ++ s.bufferNames).map String.toLower).Nodup := by
  have hapart : ((c.fixedNames ++ ["rCnt", "rbInPhase"]).map String.toLower).Nodup ∧
      ∀ v ∈ (c.fixedNames ++ ["rCnt", "rbInPhase"]).map String.toLower, ¬ ['r', 'p'] <+: v.toList := by
    cases c <;> (rw [fixedNames]; decide +kernel)
  rw [Stage.bufferNames]
  cases s.buffer with
  | none =>
    rw [List.append_nil]
    rw [List.map_append] at hapart
    exact hapart.1.of_append_left
  | some b =>
    -- the taps are as many as the counter has bits, so they are told apart by how they start
    have htaps := nodup_numbered PermutationNetwork.toLower_tap_injective ['r', 'p']
      (fun i => ⟨Nat.toDigits 10 i, (PermutationNetwork.toList_toLower_tap i).symm⟩) hapart.1 hapart.2
      (List.nodup_range (n := b.network.counterBits + 1))
    refine (List.Perm.nodup_iff ?_).1 htaps
    rw [List.map_append, List.map_append, List.map_append, List.map_map]
    exact List.perm_append_comm_assoc _ _ _

theorem shownNames_ownArchitecture {c : Core} {name : String} {a : Architecture} (h : a.Regular)
    (ha : a ∈ c.ownArchitecture name) {s : Stage} (hs : s ∈ c.stage?) :
    a.shownNames = c.fixedNames ++ s.bufferNames := by
  have hdeclared := declared_ownArchitecture ha hs
  have hnames : ∀ d ∈ a.allDeclarations, ∀ v ∈ d.names, IsName v := by
    intro d hd v hv
    have hmem : v ∈ a.declared := List.mem_append_right _ (List.mem_flatMap.2 ⟨d, hd, hv⟩)
    rw [hdeclared] at hmem
    rcases List.mem_append.1 hmem with hfixed | hbuffer
    · exact (c.vocabulary_fixedNames v hfixed).1
    · exact (vocabulary_bufferNames s v hbuffer).1
  rw [← hdeclared, Architecture.shownNames, a.declaredNames_interface,
    h.declaredNames_declarationText hnames (tidy_ownArchitecture ha), Architecture.declared]

end Core
end StreamingFft
