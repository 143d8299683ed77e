import StreamingFft.Proofs.Core.Assignments
import StreamingFft.Proofs.Vhdl.Instantiation
/-!
The text of an architecture, piece by piece. Where all names in it are words, the entities that it
instantiates are those of its statements.
-/
namespace StreamingFft
open Vhdl Token

namespace BitOrder

theorem plain_text (o : BitOrder) : Plain o.text := by
  have hlist : Plain (", ".intercalate (o.bits.map toString)) := by
    apply plain_intercalate (by decide)
    intro s hs
    obtain ⟨b, _, rfl⟩ := List.mem_map.1 hs
    exact plain_repr b
  exact plain_append.2 ⟨plain_append.2 ⟨by decide, hlist⟩, by decide⟩

theorem plain_caption (o : BitOrder) : Plain o.caption := by
  unfold caption
  split
  · decide
  · split
    · exact plain_append.2 ⟨by decide, o.plain_text⟩
    · exact o.plain_text

theorem head_scan_caption (o : BitOrder) :
    ∃ t ∈ (scan o.caption.toList).head?, t ≠ entityWord := by
  have hopen : ∀ s : String, (scan ("[" ++ s).toList).head? = some (.mark '[') := by
    intro s
    rw [String.toList_append, scan_append (Or.inl (by decide))]
    rfl
  unfold caption
  split
  · exact ⟨.word "natural".toList, by decide, by decide⟩
  · split
    · refine ⟨.word "bit".toList, ?_, by decide⟩
      change _ ∈ (scan ("bit-reversed " ++ o.text).toList).head?
      rw [String.toList_append, scan_append (Or.inl (by decide))]
      rfl
    · refine ⟨.mark '[', ?_, by decide⟩
      have h := hopen (", ".intercalate (o.bits.map toString) ++ "]")
      rwa [← String.append_assoc] at h

end BitOrder

theorem lines_componentClauses {m : Manifest} (h : ∀ x ∈ m, Plain x) :
    Lines readEntity (componentClauses m) [] := by
  unfold componentClauses
  have hnames : ∀ x ∈ m.names, Plain x := h
  generalize m.names = names at hnames
  induction names with
  | nil => exact .nil
  | cons x names ih =>
    rw [List.forall_mem_cons] at hnames
    have hclause : Brings readEntity ("use work." ++ x) [] :=
      .of_plain (plain_append.2 ⟨by decide, hnames.1⟩)
    rw [List.map_cons, String.join_cons]
    exact (Lines.of_brings hclause (by decide) (by decide)).append (ih hnames.2)

namespace Architecture

/-- The names and values that an architecture is written with are words, and it names in front what it
instantiates. -/
structure Regular (a : Architecture) : Prop where
  name : Plain a.name
  slots : ∀ s ∈ a.slots, Plain s.id
  constants : ∀ d ∈ a.constants, d.Harmless
  declarations : ∀ d ∈ a.declarations, d.Harmless
  readable : ∀ st ∈ a.statements, st.Readable
  labelled : ∀ st ∈ a.statements, st.Labelled
  components : ∀ x, x ∈ a.components ↔ x ∈ a.statements.flatMap Statement.entities

/-- A comment that shows an order. -/
theorem lines_order {label start : String} (hlabel : label = start ++ ": ") (hstart : Plain start)
    (o : BitOrder) : Lines readEntity (label ++ o.caption ++ "\n") [] := by
  have hshown := brings_typed hstart o.plain_caption o.head_scan_caption
  rw [hlabel]
  exact .of_brings hshown (by decide) (by decide)

theorem lines_notes (a : Architecture) : Lines readEntity a.notes [] := by
  have hinput : Lines readEntity ("-- data input bit order: " ++ a.inputOrder.caption ++ "\n") [] :=
    lines_order (by decide : _ = "-- data input bit order" ++ ": ") (by decide) _
  have houtput : Lines readEntity ("-- data output bit order: " ++ a.outputOrder.caption ++ "\n") [] :=
    lines_order (by decide : _ = "-- data output bit order" ++ ": ") (by decide) _
  have hphase : Lines readEntity "-- phase should be 0,1,2,3,4,5,6,...\n" [] :=
    .of_chars (by decide) (by decide)
  have hdelay : Brings readEntity ("-- delay is " ++ Nat.repr a.delay) [] :=
    .of_plain (plain_append.2 ⟨by decide, plain_repr a.delay⟩)
  have hdelayLine : Lines readEntity ("-- delay is " ++ Nat.repr a.delay ++ "\n") [] :=
    .of_brings hdelay (by decide) (by decide)
  exact ((hinput.append houtput).append hphase).append hdelayLine

theorem lines_interface (a : Architecture) : Lines readEntity a.interface.text [] := by
  have hword : (SignalType.word (.nat a.order)).Harmless :=
    plain_append.2 ⟨plain_append.2 ⟨plain_repr a.order, by decide⟩, by decide⟩
  apply Interface.lines_text
  · simp +decide [interface, coreInterface]
  · simp only [interface, coreInterface, List.forall_mem_cons]
    exact ⟨⟨by decide, trivial⟩, ⟨by decide, trivial⟩, ⟨by decide, hword⟩, ⟨by decide, trivial⟩,
      by simp⟩

/-- A line with the name of the entity in it. -/
theorem lines_name {start : String} (hstart : Plain start) {name : String} (hname : Plain name) :
    Lines readEntity (start ++ name ++ " is\n") [] :=
  .of_brings (.of_plain (plain_append.2 ⟨hstart, hname⟩)) (by decide) (by decide)

namespace Regular
variable {a : Architecture}

theorem isName_components (h : a.Regular) : ∀ x ∈ a.components, IsName x := by
  intro x hx
  obtain ⟨st, hst, hmem⟩ := List.mem_flatMap.1 ((h.components x).1 hx)
  cases st with
  | instantiate i =>
    have hentity : IsName i.entity := (h.labelled _ hst).2.1
    rwa [List.mem_singleton.1 hmem]
  | _ => cases hmem

theorem plain_components (h : a.Regular) : ∀ x ∈ a.components, Plain x :=
  fun x hx => plain_of_isWordChar (h.isName_components x hx).word

theorem lines_entityText (h : a.Regular) : Lines readEntity a.entityText [] := by
  have hcontext : Lines readEntity contextClause [] :=
    (Lines.of_chars (by decide) (by decide)).append (.of_chars (by decide) (by decide))
  have hclauses := hcontext.append (lines_componentClauses h.plain_components)
  have hblank : Lines readEntity "\n" [] := .of_chars (by decide) (by decide)
  have hname : Lines readEntity ("entity " ++ a.name ++ " is\n") [] := lines_name (by decide) h.name
  have hend : Lines readEntity "end entity;\n" [] := .of_chars (by decide) (by decide)
  exact ((((hclauses.append hblank).append a.lines_notes).append hname).append
    a.lines_interface).append hend

theorem harmless_slotSignals (h : a.Regular) : ∀ d ∈ a.slotSignals, d.Harmless := by
  refine List.forall_mem_cons.2 ⟨⟨by decide, ?_, trivial⟩, ?_⟩
  · intro v hv
    obtain ⟨s, hs, hv⟩ := List.mem_flatMap.1 hv
    have hport : ∀ port, Plain port → Plain (s.id ++ port) := fun _ hport =>
      plain_append.2 ⟨h.slots s hs, hport⟩
    simp only [List.mem_cons, List.not_mem_nil, or_false] at hv
    rcases hv with rfl | rfl
    · exact hport "din" (by decide)
    · exact hport "dout" (by decide)
  · intro d hd
    obtain ⟨s, hs, rfl⟩ := List.mem_map.1 hd
    have hphase : Plain (s.id ++ "phase") := plain_append.2 ⟨h.slots s hs, by decide⟩
    exact ⟨by decide, List.forall_mem_singleton.2 hphase,
      plain_append.2 ⟨plain_append.2 ⟨plain_repr s.order, by decide⟩, by decide⟩⟩

theorem lines_declarationText (h : a.Regular) : Lines readEntity a.declarationText [] := by
  have hrule : Lines readEntity "\n\t--=======================================\n\n" [] :=
    .of_chars (by decide) (by decide)
  have hsignals := (Declaration.lines_listText h.harmless_slotSignals).indent 1
  have hconstants := (Declaration.lines_listText h.constants).indent 1
  have hdeclarations := (Declaration.lines_listText h.declarations).indent 1
  exact ((hsignals.append hconstants).append hrule).append hdeclarations

theorem lines_listText (h : a.Regular) :
    Lines readEntity (Statement.listText a.statements) (a.statements.flatMap Statement.entities) :=
  .join fun st hst => .of_brings (Statement.brings_text (h.readable st hst) (h.labelled st hst))
    (by decide) (by decide)

/-- What a regular architecture instantiates are the entities of its statements. -/
theorem instantiated_text (h : a.Regular) :
    instantiated a.text = a.statements.flatMap Statement.entities := by
  have hname : Lines readEntity ("architecture ar of " ++ a.name ++ " is\n") [] :=
    lines_name (by decide) h.name
  have hbegin : Lines readEntity "\nbegin\n" [] := .of_chars (by decide) (by decide)
  have hbody : Brings readEntity a.bodyText (a.statements.flatMap Statement.entities) := by
    constructor
    rw [scan_bodyText]
    exact h.lines_listText.eq
  have hend : Lines readEntity (a.bodyText ++ "\nend ar;\n") (a.statements.flatMap Statement.entities) :=
    .of_brings hbody (by decide) (by decide)
  have htext := (((h.lines_entityText.append hname).append h.lines_declarationText).append
    hbegin).append hend
  rw [← String.append_assoc] at htext
  exact htext.readColons_eq

end Regular

/-- A text starts with its clauses and the orders of its ports. -/
theorem exists_text_eq (a : Architecture) : ∃ rest, a.text =
    contextClause ++ componentClauses a.components ++ "\n" ++
      "-- data input bit order: " ++ a.inputOrder.caption ++ "\n" ++
      "-- data output bit order: " ++ a.outputOrder.caption ++ "\n" ++ rest := by
  have hnotes : a.notes = "-- data input bit order: " ++ a.inputOrder.caption ++ "\n" ++
      ("-- data output bit order: " ++ a.outputOrder.caption ++ "\n") ++
      "-- phase should be 0,1,2,3,4,5,6,...\n" ++ s!"-- delay is {a.delay}\n" := rfl
  refine ⟨"-- phase should be 0,1,2,3,4,5,6,...\n" ++ s!"-- delay is {a.delay}\n" ++
    s!"entity {a.name} is\n" ++ a.interface.text ++ "end entity;\n" ++
    s!"architecture ar of {a.name} is\n" ++ a.declarationText ++ "\nbegin\n" ++ a.bodyText ++
    "\nend ar;\n", ?_⟩
  rw [text, entityText, hnotes]
  simp only [String.append_assoc]

end Architecture

end StreamingFft
