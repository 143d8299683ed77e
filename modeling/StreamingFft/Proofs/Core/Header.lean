import StreamingFft.Proofs.BitOrder.Caption
import StreamingFft.Proofs.Core.Components
import StreamingFft.Proofs.Core.Configuration
import StreamingFft.Proofs.Text.Lines
/-!
The comments in front of an entity. With the width of the phase port they tell in which orders the entity
takes and gives its data, also to those who have only the text.
-/
namespace StreamingFft
open Vhdl Text

theorem BitOrder.isLine_caption (o : BitOrder) : IsLine o.caption := by
  have htext : IsLine o.text := newline_notMem_natList o.bits
  unfold caption
  split
  · decide
  · split
    · exact isLine_append.2 ⟨by decide, htext⟩
    · exact htext

namespace Text
variable {word line : String}

def startsWith (word line : String) : Bool := word.toList.isPrefixOf line.toList

theorem startsWith_append (h : startsWith word line = true) (rest : String) :
    startsWith word (line ++ rest) = true := by
  rw [startsWith, List.isPrefixOf_iff_prefix] at h
  rw [startsWith, List.isPrefixOf_iff_prefix, String.toList_append]
  exact h.trans (List.prefix_append _ _)

theorem head_of_startsWith {c : Char} (hword : word.toList.head? = some c)
    (h : startsWith word line = true) : line.toList.head? = some c := by
  obtain ⟨rest, hrest⟩ := List.isPrefixOf_iff_prefix.1 h
  rw [← hrest, List.head?_append, hword]
  rfl

/-- A line that starts with another character does not start with the word. -/
theorem startsWith_eq_false {c : Char} (hword : word.toList.head? = some c)
    (hline : line.toList.head? ≠ some c) : startsWith word line = false :=
  Bool.eq_false_iff.2 (mt (head_of_startsWith hword) hline)

end Text

/-- The comments in front of the first entity of a text. -/
def headerComments (text : String) : List String :=
  ((lines text).takeWhile fun line => !startsWith "entity " line).filter (startsWith "--")

/-- The line of a text that declares the port for the phase. -/
def phaseLine? (text : String) : Option String :=
  (lines text).find? (startsWith "\t\tphase: ")

/-- The port for the phase. -/
def Vhdl.Interface.phasePort? (i : Interface) : Option Port :=
  i.ports.find? fun port => port.name = "phase"

section Ports

/-- The lines of an interface in front of the port for the phase. -/
def portLines : List String :=
  ["\tgeneric(dataBits: integer := 24;", "\t\t\ttwBits: integer := 12);", "\tport(clk: in std_logic;",
    "\t\tdin: in complex;"]

def phaseLine (order : Nat) : String :=
  "\t\tphase: in unsigned(" ++ toString order ++ "-1 downto 0);"

theorem startsWith_phaseLine (order : Nat) : startsWith "\t\tphase: " (phaseLine order) = true :=
  startsWith_append (startsWith_append (by decide) _) _

theorem text_word (n : Nat) :
    (SignalType.word (.nat n)).text = "unsigned(" ++ toString n ++ "-1 downto 0)" := by
  have hn : (toString n).toList = Nat.toDigits 10 n := Nat.toList_repr
  rw [← String.toList_inj, Declaration.toList_text_word, String.toList_append, String.toList_append, hn]

theorem order_eq_of_phasePort? {m n : Nat}
    (h : (coreInterface m).phasePort? = (coreInterface n).phasePort?) : m = n := by
  have hport : ∀ k, (coreInterface k).phasePort? = some ⟨"phase", .input, .word (.nat k)⟩ := fun _ => rfl
  rw [hport, hport, Option.some.injEq, Port.mk.injEq] at h
  obtain ⟨-, -, htype⟩ := h
  injection htype with hbound
  injection hbound with hwidth
  injection hwidth

theorem text_coreInterface (order : Nat) : (coreInterface order).text =
    unlines portLines ++ (phaseLine order ++ "\n" ++ "\t\tdout: out complex\n\t\t);\n") := by
  have hgenerics : (coreInterface order).generics.map Generic.text =
      ["dataBits: integer := 24", "twBits: integer := 12"] := rfl
  have hports : (coreInterface order).ports.map Port.text = ["clk: in std_logic", "din: in complex",
      "phase: in " ++ (SignalType.word (.nat order)).text, "dout: out complex"] := rfl
  have hopen : "\tgeneric(" ++ ("dataBits: integer := 24" ++ ";\n\t\t\t" ++ "twBits: integer := 12") ++
      ");\n" ++ "\tport(" ++ "clk: in std_logic" ++ ";\n\t\t" ++ "din: in complex" ++ ";\n\t\t" ++
      "phase: in " ++ "unsigned(" = unlines portLines ++ "\t\tphase: in unsigned(" := by decide
  have hclose : "-1 downto 0)" ++ ";\n\t\t" ++ "dout: out complex" ++ "\n\t\t);\n" =
      "-1 downto 0);" ++ "\n" ++ "\t\tdout: out complex\n\t\t);\n" := by decide
  -- only the number is unknown, and what stands on its two sides is evaluated
  calc (coreInterface order).text
      = "\tgeneric(" ++ ("dataBits: integer := 24" ++ ";\n\t\t\t" ++ "twBits: integer := 12") ++
          ");\n" ++ "\tport(" ++ "clk: in std_logic" ++ ";\n\t\t" ++ "din: in complex" ++ ";\n\t\t" ++
          "phase: in " ++ "unsigned(" ++ toString order ++
          ("-1 downto 0)" ++ ";\n\t\t" ++ "dout: out complex" ++ "\n\t\t);\n") := by
        simp only [Interface.text, hgenerics, hports, text_word, String.intercalate_cons_cons,
          String.intercalate_singleton, String.append_assoc]
    _ = unlines portLines ++ "\t\tphase: in unsigned(" ++ toString order ++
          ("-1 downto 0);" ++ "\n" ++ "\t\tdout: out complex\n\t\t);\n") :=
        congrArg₂ (· ++ toString order ++ ·) hopen hclose
    _ = _ := by
        unfold phaseLine
        simp only [String.append_assoc]

end Ports

/-- The lines that stand in front of every entity. -/
def contextLines : List String :=
  ["", "library ieee;", "library work;", "use ieee.numeric_std.all;", "use ieee.std_logic_1164.all;",
    "USE ieee.math_real.log2;", "USE ieee.math_real.ceil;", "use work.fft_types.all;"]

theorem contextClause_eq : contextClause = unlines contextLines := by
  have hieee : "\nlibrary ieee;\nlibrary work;\nuse ieee.numeric_std.all;\nuse ieee.std_logic_1164.all;\n" =
      unlines (contextLines.take 5) := by decide
  have hreal : "USE ieee.math_real.log2;\nUSE ieee.math_real.ceil;\nuse work.fft_types.all;\n" =
      unlines (contextLines.drop 5) := by decide
  rw [← List.take_append_drop 5 contextLines, unlines_append]
  exact congrArg₂ (· ++ ·) hieee hreal

namespace Architecture
variable (a : Architecture)

def clauseLines : List String := a.components.names.map fun name => "use work." ++ name ++ ";"

def noteLines : List String :=
  ["-- data input bit order: " ++ a.inputOrder.caption,
    "-- data output bit order: " ++ a.outputOrder.caption, "-- phase should be 0,1,2,3,4,5,6,...",
    "-- delay is " ++ toString a.delay]

/-- All lines in front of the entity. -/
def frontLines : List String := contextLines ++ a.clauseLines ++ [""] ++ a.noteLines

def entityLine : String := "entity " ++ a.name ++ " is"

theorem startsWith_entityLine : startsWith "entity " a.entityLine = true :=
  startsWith_append (startsWith_append (by decide) _) _

theorem componentClauses_eq : componentClauses a.components = unlines a.clauseLines := by
  rw [componentClauses, unlines, clauseLines, List.map_map]
  congr 1
  apply List.map_congr_left
  intro name _
  have hend : ";\n" = ";" ++ "\n" := by decide
  change "use work." ++ name ++ ";\n" = "use work." ++ name ++ ";" ++ "\n"
  rw [hend, ← String.append_assoc]

theorem notes_eq : a.notes = unlines a.noteLines := by
  have hphase : "-- phase should be 0,1,2,3,4,5,6,...\n" =
      "-- phase should be 0,1,2,3,4,5,6,..." ++ "\n" := by decide
  change "-- data input bit order: " ++ a.inputOrder.caption ++ "\n" ++
    ("-- data output bit order: " ++ a.outputOrder.caption ++ "\n") ++
    "-- phase should be 0,1,2,3,4,5,6,...\n" ++ ("-- delay is " ++ toString a.delay ++ "\n") = _
  rw [hphase]
  simp only [unlines, noteLines, List.map_cons, List.map_nil, String.join_cons, String.join_nil,
    String.append_assoc, String.append_empty]

/-- What stands behind the port for the phase. -/
def restText : String :=
  "\t\tdout: out complex\n\t\t);\n" ++ "end entity;\n" ++ s!"architecture ar of {a.name} is\n" ++
    a.declarationText ++ "\nbegin\n" ++ a.bodyText ++ "\nend ar;\n"

/-- A text is the lines in front of the entity, the line that opens it, its ports, and the rest. -/
theorem text_eq_unlines : a.text = unlines a.frontLines ++ (a.entityLine ++ "\n" ++
    (unlines portLines ++ (phaseLine a.order ++ "\n" ++ a.restText))) := by
  have hopen : s!"entity {a.name} is\n" = a.entityLine ++ "\n" := by
    have hend : " is\n" = " is" ++ "\n" := by decide
    change "entity " ++ a.name ++ " is\n" = "entity " ++ a.name ++ " is" ++ "\n"
    rw [hend, ← String.append_assoc]
  have hfront : contextClause ++ componentClauses a.components ++ "\n" ++ a.notes =
      unlines a.frontLines := by
    rw [contextClause_eq, a.componentClauses_eq, a.notes_eq, frontLines, unlines_append,
      unlines_append, unlines_append]
    rfl
  unfold restText
  rw [text, entityText, hfront, hopen, interface, text_coreInterface]
  simp only [String.append_assoc]

variable {a}

section Lines

theorem isLine_noteLines : ∀ line ∈ a.noteLines, IsLine line := by
  simp only [noteLines, List.forall_mem_cons, isLine_append]
  exact ⟨⟨by decide, a.inputOrder.isLine_caption⟩, ⟨by decide, a.outputOrder.isLine_caption⟩,
    by decide, ⟨by decide, Vhdl.notMem_repr rfl a.delay⟩, List.forall_mem_nil _⟩

theorem noteLines_eq_of_notes_eq {b : Architecture} (h : a.notes = b.notes) :
    a.noteLines = b.noteLines := by
  have hlines : lines (unlines a.noteLines ++ "") = lines (unlines b.noteLines ++ "") := by
    rw [← a.notes_eq, ← b.notes_eq, h]
  rw [lines_unlines_append isLine_noteLines, lines_unlines_append isLine_noteLines] at hlines
  exact List.append_cancel_right hlines

theorem isLine_frontLines (h : ∀ x ∈ a.components, IsLine x) : ∀ line ∈ a.frontLines, IsLine line := by
  have hcontext : ∀ line ∈ contextLines ++ [""], IsLine line := by decide
  have hclauses : ∀ line ∈ a.clauseLines, IsLine line := by
    intro line hline
    obtain ⟨x, hx, rfl⟩ := List.mem_map.1 hline
    exact isLine_between (by decide) (h x hx) (by decide)
  rw [List.forall_mem_append] at hcontext
  simp only [frontLines, List.forall_mem_append]
  exact ⟨⟨⟨hcontext.1, hclauses⟩, hcontext.2⟩, isLine_noteLines⟩

theorem head_clauseLines : ∀ line ∈ a.clauseLines, line.toList.head? = some 'u' := by
  intro line hline
  obtain ⟨x, -, rfl⟩ := List.mem_map.1 hline
  have hstart : startsWith "use work." "use work." = true := by decide
  exact head_of_startsWith (by decide) (startsWith_append (startsWith_append hstart x) ";")

theorem startsWith_noteLines : ∀ line ∈ a.noteLines, startsWith "--" line = true := by
  simp only [noteLines, List.forall_mem_cons]
  exact ⟨startsWith_append (by decide) _, startsWith_append (by decide) _, by decide,
    startsWith_append (by decide) _, List.forall_mem_nil _⟩

/-- In front of the entity there are clauses, comments and empty lines. -/
theorem head_frontLines : ∀ line ∈ a.frontLines,
    line.toList.head? ∈ [none, some 'l', some 'u', some 'U', some '-'] := by
  have hcontext : ∀ line ∈ contextLines ++ [""],
      line.toList.head? ∈ [none, some 'l', some 'u', some 'U', some '-'] := by decide
  rw [List.forall_mem_append] at hcontext
  simp only [frontLines, List.forall_mem_append]
  refine ⟨⟨⟨hcontext.1, ?_⟩, hcontext.2⟩, ?_⟩
  · intro line hline
    rw [head_clauseLines line hline]
    decide
  · intro line hline
    rw [head_of_startsWith (c := '-') (by decide) (startsWith_noteLines line hline)]
    decide

theorem startsWith_frontLines {word : String} {c : Char} (hword : word.toList.head? = some c)
    (hc : some c ∉ [none, some 'l', some 'u', some 'U', some '-']) :
    ∀ line ∈ a.frontLines, startsWith word line = false := by
  intro line hline
  refine startsWith_eq_false hword fun h => hc ?_
  rw [← h]
  exact head_frontLines line hline

theorem filter_frontLines : a.frontLines.filter (startsWith "--") = a.noteLines := by
  have hcontext : contextLines.filter (startsWith "--") = [] := by decide
  have hblank : [""].filter (startsWith "--") = [] := by decide
  have hclauses : a.clauseLines.filter (startsWith "--") = [] := by
    rw [List.filter_eq_nil_iff]
    intro line hline h
    have hhead := head_of_startsWith (c := '-') (by decide) h
    exact absurd ((head_clauseLines line hline).symm.trans hhead) (by decide)
  rw [frontLines, List.filter_append, List.filter_append, List.filter_append, hcontext, hblank,
    hclauses, List.filter_eq_self.2 startsWith_noteLines]
  rfl

end Lines

section Text
variable (hname : IsLine a.name) (hcomponents : ∀ x ∈ a.components, IsLine x)
include hname hcomponents

theorem lines_text : lines a.text =
    a.frontLines ++ a.entityLine :: (portLines ++ phaseLine a.order :: lines a.restText) := by
  have hentity : IsLine a.entityLine := isLine_between (by decide) hname (by decide)
  have hports : ∀ line ∈ portLines, IsLine line := by decide
  have hphase : IsLine (phaseLine a.order) :=
    isLine_between (by decide) (Vhdl.notMem_repr rfl a.order) (by decide)
  rw [a.text_eq_unlines, lines_unlines_append (isLine_frontLines hcomponents), lines_append,
    lines_of_isLine hentity, lines_unlines_append hports, lines_append, lines_of_isLine hphase]
  rfl

theorem headerComments_text : headerComments a.text = a.noteLines := by
  have hfront : ∀ line ∈ a.frontLines, (!startsWith "entity " line) = true := by
    intro line hline
    rw [startsWith_frontLines (c := 'e') (by decide) (by decide) line hline]
    rfl
  have hentity : ¬ (!startsWith "entity " a.entityLine) = true := by
    rw [a.startsWith_entityLine]
    decide
  rw [headerComments, lines_text hname hcomponents, List.takeWhile_append_of_pos hfront,
    List.takeWhile_cons_of_neg (p := fun line => !startsWith "entity " line) hentity,
    List.append_nil, filter_frontLines]

theorem phaseLine?_text : phaseLine? a.text = some (phaseLine a.order) := by
  have hfront : a.frontLines.find? (startsWith "\t\tphase: ") = none := by
    rw [List.find?_eq_none]
    intro line hline
    rw [startsWith_frontLines (c := '\t') (by decide) (by decide) line hline]
    exact Bool.false_ne_true
  have hentity : ¬ startsWith "\t\tphase: " a.entityLine = true := by
    intro h
    have hstart := head_of_startsWith (c := 'e') (by decide) a.startsWith_entityLine
    exact absurd (hstart.symm.trans (head_of_startsWith (c := '\t') (by decide) h)) (by decide)
  have hports : portLines.find? (startsWith "\t\tphase: ") = none := by decide
  rw [phaseLine?, lines_text hname hcomponents, List.find?_append, hfront, Option.none_or,
    List.find?_cons_of_neg hentity, List.find?_append, hports, Option.none_or,
    List.find?_cons_of_pos (startsWith_phaseLine a.order)]

end Text

end Architecture

theorem phaseLine_injective : Function.Injective phaseLine := by
  intro m n h
  have hmn : toString m = toString n :=
    (String.append_right_inj _).1 ((String.append_left_inj _).1 h)
  have hdigits : Nat.toDigits 10 m ++ [] = Nat.toDigits 10 n ++ [] := by
    rw [← Nat.toList_repr, ← Nat.toList_repr]
    exact congrArg (fun s : String => s.toList ++ []) hmn
  exact (toDigits_append_inj rfl rfl hdigits).1

namespace Core

theorem order_ownArchitecture {c : Core} {name : String} {a : Architecture}
    (h : a ∈ c.ownArchitecture name) : a.order = c.order := by
  cases c with
  | leaf l => cases h
  | fourStep s sub1 sub2 =>
    cases h
    rfl
  | radix4 s d sub1 =>
    cases h
    rfl

section Generated
variable {c d : Core} {name other : String} {as bs : List Architecture} {a b : Architecture}

theorem isLine_name_of_generate (h : c.generate name = .ok as) (ha : a ∈ as) : IsLine a.name := by
  obtain ⟨⟨hname, -⟩, rfl⟩ := generate_eq_ok_iff.1 h
  obtain ⟨-, -, hself, -⟩ := exists_node_of_mem_architectures hname ha
  exact notMem_of_isWordChar rfl (all_isWordChar_of_isBasicIdentifier hself)

/-- The orders of an entity fit the port for the phase. -/
theorem sizes_of_generate (hc : c.Reachable) (h : c.generate name = .ok as) (ha : a ∈ as) :
    a.inputOrder.size = a.order ∧ a.outputOrder.size = a.order := by
  obtain ⟨⟨hname, -⟩, rfl⟩ := generate_eq_ok_iff.1 h
  obtain ⟨node, hnode, -, hown⟩ := exists_node_of_mem_architectures hname ha
  have hdescribes := describes_ownArchitecture hown
  have hcoherent := hc.coherent node hnode
  rw [hdescribes.inputOrder, hdescribes.outputOrder, order_ownArchitecture hown]
  exact ⟨hcoherent.size_inputOrder, hcoherent.size_outputOrder⟩

/-- The comments tell the orders of the entities that are as wide. -/
theorem orders_eq_of_noteLines (hc : c.Reachable) (hd : d.Reachable) (has : c.generate name = .ok as)
    (hbs : d.generate other = .ok bs) (ha : a ∈ as) (hb : b ∈ bs) (horder : a.order = b.order)
    (hnotes : a.noteLines = b.noteLines) :
    a.inputOrder = b.inputOrder ∧ a.outputOrder = b.outputOrder := by
  obtain ⟨hainput, haoutput⟩ := sizes_of_generate hc has ha
  obtain ⟨hbinput, hboutput⟩ := sizes_of_generate hd hbs hb
  rw [Architecture.noteLines, Architecture.noteLines, List.cons.injEq, List.cons.injEq] at hnotes
  obtain ⟨hinput, houtput, -⟩ := hnotes
  constructor
  · refine (BitOrder.caption_inj ?_).1 ((String.append_right_inj _).1 hinput)
    rw [hainput, hbinput, horder]
  · refine (BitOrder.caption_inj ?_).1 ((String.append_right_inj _).1 houtput)
    rw [haoutput, hboutput, horder]

end Generated

/-- A caption tells an order among those of its size; and the comments in front of an entity tell its orders
among the entities whose phase ports are as wide. What stands in front of an entity can be read off its
text if no name there ends a line. -/
theorem orders_identified :
    (∀ o p : BitOrder, o.size = p.size → (o.caption = p.caption ↔ o = p)) ∧
      (∀ o : BitOrder, (o.caption = "natural" ↔ o = .natural o.size) ∧
        ("bit-reversed".toList <+: o.caption.toList ↔ o = .reversed o.size ∧ o ≠ .natural o.size)) ∧
      ∀ (c d : Core) (name other : String) (as bs : List Architecture), c.Reachable → d.Reachable →
        c.generate name = .ok as → d.generate other = .ok bs → ∀ a ∈ as, ∀ b ∈ bs,
          (a.interface.phasePort? = b.interface.phasePort? → a.notes = b.notes →
            a.inputOrder = b.inputOrder ∧ a.outputOrder = b.outputOrder) ∧
          ((∀ x ∈ a.components, IsLine x) → (∀ x ∈ b.components, IsLine x) →
            phaseLine? a.text = phaseLine? b.text → headerComments a.text = headerComments b.text →
            a.inputOrder = b.inputOrder ∧ a.outputOrder = b.outputOrder) := by
  refine ⟨fun o p => BitOrder.caption_inj,
    fun o => ⟨BitOrder.caption_eq_natural_iff, BitOrder.prefix_caption_iff⟩, ?_⟩
  intro c d name other as bs hc hd has hbs a ha b hb
  constructor
  · intro hport hnotes
    exact orders_eq_of_noteLines hc hd has hbs ha hb (order_eq_of_phasePort? hport)
      (Architecture.noteLines_eq_of_notes_eq hnotes)
  · intro hacomponents hbcomponents hport hnotes
    have haname := isLine_name_of_generate has ha
    have hbname := isLine_name_of_generate hbs hb
    rw [Architecture.phaseLine?_text haname hacomponents,
      Architecture.phaseLine?_text hbname hbcomponents] at hport
    rw [Architecture.headerComments_text haname hacomponents,
      Architecture.headerComments_text hbname hbcomponents] at hnotes
    exact orders_eq_of_noteLines hc hd has hbs ha hb (phaseLine_injective (Option.some.inj hport)) hnotes

/-- The entity of the pair by itself. -/
def singleArchitecture : Architecture :=
  (swappedPair.replaceMultiplier .wide .tree).architectureOf "pair"
    [(leaf swappedLeaf).slot "sub1" "fft4", (leaf swappedLeaf).slot "sub2" "fft4"]

/-- The pair has the same comments and ports whether it stands below a radix-4 stage or by itself. -/
theorem orders_identified_pair :
    (BitOrder.reversed 2).size = (BitOrder.natural 2).size ∧
      (BitOrder.reversed 2).caption ≠ (BitOrder.natural 2).caption ∧
      nested.Reachable ∧ (swappedPair.replaceMultiplier .wide .tree).Reachable ∧
      nested.generate "top" = .ok (nested.architectures "top") ∧
      (swappedPair.replaceMultiplier .wide .tree).generate "pair" = .ok [singleArchitecture] ∧
      pairArchitecture ∈ nested.architectures "top" ∧
      pairArchitecture.interface.phasePort? = singleArchitecture.interface.phasePort? ∧
      pairArchitecture.notes = singleArchitecture.notes ∧
      (∀ x ∈ pairArchitecture.components, IsLine x) ∧ (∀ x ∈ singleArchitecture.components, IsLine x) ∧
      phaseLine? pairArchitecture.text = phaseLine? singleArchitecture.text ∧
      headerComments pairArchitecture.text = headerComments singleArchitecture.text ∧
      pairArchitecture.inputOrder = singleArchitecture.inputOrder ∧
      pairArchitecture.outputOrder = singleArchitecture.outputOrder := by
  have hswapped : swappedPair.Reachable :=
    .fourStep (n := 16) reachable_swappedLeaf reachable_swappedLeaf rfl
  have hpair := hswapped.replaceMultiplier .wide .tree
  have htop : nested.generate "top" = .ok (nested.architectures "top") :=
    generate_eq_ok_iff.2 ⟨by decide, rfl⟩
  have hsingle : (swappedPair.replaceMultiplier .wide .tree).generate "pair" =
      .ok [singleArchitecture] := generate_eq_ok_iff.2 ⟨by decide, rfl⟩
  have hmem : pairArchitecture ∈ nested.architectures "top" := .head _
  have hcomponents : ∀ x ∈ pairArchitecture.components, IsLine x := by decide
  have hcomponents' : ∀ x ∈ singleArchitecture.components, IsLine x := by decide
  have hport : phaseLine? pairArchitecture.text = phaseLine? singleArchitecture.text := by
    rw [Architecture.phaseLine?_text (by decide) hcomponents,
      Architecture.phaseLine?_text (by decide) hcomponents']
    rfl
  have hcomments : headerComments pairArchitecture.text = headerComments singleArchitecture.text := by
    rw [Architecture.headerComments_text (by decide) hcomponents,
      Architecture.headerComments_text (by decide) hcomponents']
    rfl
  obtain ⟨hcaption, -, hheader⟩ := orders_identified
  obtain ⟨hdata, htext⟩ := hheader nested (swappedPair.replaceMultiplier .wide .tree) "top" "pair" _ _
    reachable_nested hpair htop hsingle _ hmem _ (List.mem_singleton_self _)
  have hne : (BitOrder.reversed 2).caption ≠ (BitOrder.natural 2).caption :=
    mt (hcaption (.reversed 2) (.natural 2) rfl).1 (by decide)
  exact ⟨rfl, hne, reachable_nested, hpair, htop, hsingle, hmem, rfl, rfl, hcomponents, hcomponents',
    hport, hcomments, (hdata rfl rfl).1, (htext hcomponents hcomponents' hport hcomments).2⟩

end Core
end StreamingFft
