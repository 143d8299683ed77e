import StreamingFft.Proofs.Vhdl.Colon
import StreamingFft.Proofs.Vhdl.Reading
import StreamingFft.Vhdl.Interface
/-!
The entities that a text instantiates, wherever in the text. Labels of instances end in a colon with a
word of its own behind it; no declaration has that word there.
-/
namespace StreamingFft.Vhdl
open Token

/-- The word between the colon and the entity of an instance. -/
def entityWord : Token := .word "entity".toList

/-- The entity of an instance with its label in front of the colon. -/
def readEntity : List Token → List Token → Option String
  | .word _ :: _, kind :: .word x :: _ =>
    if kind = entityWord then some (String.ofList x) else none
  | _, _ => none

/-- All `x` that stand in a text as `label: entity x`. -/
def instantiated (text : String) : List String := readColons readEntity [] (scan text.toList)

example : instantiated "a: in b; c: entity d port map(e=>f);" = ["d"] := by decide

theorem readEntity_eq_none {t : Token} (ht : t ≠ entityWord) (before ts : List Token) :
    readEntity before (t :: ts) = none := by
  unfold readEntity
  split
  · next heq =>
    cases heq
    exact if_neg ht
  · rfl

/-- The text of an instance up to its semicolon. -/
theorem brings_instance {label entity rest : String} (hlabel : IsName label)
    (hentity : IsName entity) (hrest : Plain rest) (hcut : startsInWord rest.toList = false) :
    Brings readEntity (label ++ ": entity " ++ entity ++ rest) [entity] := by
  have hword : scan ("entity " ++ entity ++ rest).toList =
      entityWord :: .word entity.toList :: scan rest.toList := by
    rw [String.toList_append, String.toList_append, scan_append (Or.inr hcut),
      scan_append (Or.inl (by decide)), hentity.scan]
    rfl
  have hbehind : Brings readEntity ("entity " ++ entity ++ rest) [] :=
    .of_plain (plain_append.2
      ⟨plain_append.2 ⟨by decide, plain_of_isWordChar hentity.word⟩, hrest⟩)
  have hfound : ∀ before ts,
      readEntity ((scan label.toList).reverse ++ before)
        (scan ("entity " ++ entity ++ rest).toList ++ ts) = some entity := by
    intro before ts
    rw [hlabel.scan, hword]
    simp [readEntity]
  have h := Brings.colon ((plain_of_isWordChar hlabel.word).mark_notMem (by decide)) hbehind hfound
    (by decide : IsSeparator ": ".toList) (by decide)
  change Brings readEntity _ [entity] at h
  have htext : ": entity " = ": " ++ "entity " := by decide
  rw [htext]
  simpa only [String.append_assoc] using h

theorem Gap.startsInWord_append {g : Gap} (hg : g ≠ .none) (s : String) :
    startsInWord (g.text ++ s).toList = false := by
  cases g with
  | none => exact absurd rfl hg
  | blank =>
    rw [String.toList_append]
    rfl
  | line tabs =>
    rw [Gap.text, String.append_assoc, String.toList_append]
    rfl

theorem Instance.startsInWord_mapText {i : Instance} (hgeneric : i.generics ≠ [] → i.genericGap ≠ .none)
    (hport : i.portGap ≠ .none) : startsInWord i.mapText.toList = false := by
  unfold mapText genericText
  split
  · rw [String.empty_append, String.append_assoc, String.append_assoc]
    exact Gap.startsInWord_append hport _
  · next hne =>
    have hgap := hgeneric fun h => hne (by rw [h]; rfl)
    simp only [String.append_assoc]
    exact Gap.startsInWord_append hgap _

namespace Statement

/-- The entity that a statement instantiates. -/
def entities : Statement → List String
  | instantiate i => [i.entity]
  | _ => []

/-- An instance has a label and an entity that are words and end where its maps start. -/
def Labelled : Statement → Prop
  | instantiate i => IsName i.label ∧ IsName i.entity ∧
    (i.generics ≠ [] → i.genericGap ≠ .none) ∧ i.portGap ≠ .none
  | _ => True

theorem brings_text {s : Statement} (hs : s.Readable) (hl : s.Labelled) :
    Brings readEntity s.text s.entities := by
  have hexpr : ∀ {e : Expr}, e.Legible → .mark ':' ∉ scan e.text.toList := fun h =>
    (Expr.plain_text h).mark_notMem (by decide)
  cases s with
  | blank => exact .nil
  | assign target value =>
    apply Brings.of_notMem
    simp [scan_text_assign hs.1, hexpr hs.2]
  | register target value =>
    apply Brings.of_notMem
    simp [scan_text_register hs.1, hexpr hs.2, clockEdge_eq]
  | choose target taken counter bit kept =>
    obtain ⟨htarget, htaken, hcounter, hkept⟩ := hs
    apply Brings.of_notMem
    simp [scan_text_choose htarget hcounter, hexpr htaken, hexpr hkept]
  | instantiate i =>
    obtain ⟨hlabel, hentity, hgeneric, hport⟩ := hl
    have hcut := i.startsInWord_mapText hgeneric hport
    have hsemi : Brings readEntity ";" [] := .of_notMem (by decide)
    rw [text, i.text_eq]
    exact (brings_instance hlabel hentity hs.2.2 hcut).append hsemi (Or.inr (by decide))

end Statement

/-- What goes on behind a colon with another word is no instance. -/
theorem brings_other {a b sep : String} {xs : List String} (ha : Plain a)
    (hb : Brings readEntity b xs) (hother : ∃ t ∈ (scan b.toList).head?, t ≠ entityWord)
    (hsep : IsSeparator sep.toList) (hmark : scan sep.toList = [.mark ':']) :
    Brings readEntity (a ++ sep ++ b) xs := by
  obtain ⟨t, hhead, ht⟩ := hother
  exact .skip (ha.mark_notMem (by decide)) hb ⟨t, hhead, readEntity_eq_none ht⟩ hsep hmark

theorem brings_typed {a kind : String} (ha : Plain a) (hkind : Plain kind)
    (hother : ∃ t ∈ (scan kind.toList).head?, t ≠ entityWord) :
    Brings readEntity (a ++ ": " ++ kind) [] :=
  brings_other ha (.of_plain hkind) hother (by decide) (by decide)

theorem brings_integer {a value : String} (ha : Plain a) (hvalue : Plain value) :
    Brings readEntity (a ++ ": integer := " ++ value) [] := by
  have hbehind : Brings readEntity ("= " ++ value) [] :=
    .of_plain (plain_append.2 ⟨by decide, hvalue⟩)
  have hequals : ∃ t ∈ (scan ("= " ++ value).toList).head?, t ≠ entityWord := by
    rw [String.toList_append, scan_append (Or.inl (by decide))]
    exact ⟨.mark '=', rfl, by decide⟩
  have hassigned : Brings readEntity ("integer " ++ ":" ++ ("= " ++ value)) [] :=
    brings_other (by decide) hbehind hequals (by decide) (by decide)
  have hinteger : ∃ t ∈ (scan ("integer " ++ ":" ++ ("= " ++ value)).toList).head?,
      t ≠ entityWord := by
    rw [String.toList_append, scan_append (Or.inl (by decide))]
    exact ⟨.word "integer".toList, rfl, by decide⟩
  have h : Brings readEntity (a ++ ": " ++ ("integer " ++ ":" ++ ("= " ++ value))) [] :=
    brings_other ha hassigned hinteger (by decide) (by decide)
  have htext : ": integer := " = ": " ++ ("integer " ++ ":" ++ "= ") := by decide
  rw [htext]
  simpa only [String.append_assoc] using h

namespace SignalType

/-- Types whose bounds bring nothing that readers stop at. -/
def Harmless : SignalType → Prop
  | unsigned high => Plain high.text
  | logicVector high => Plain high.text
  | _ => True

instance : DecidablePred Harmless
  | logic => inferInstanceAs (Decidable True)
  | complex => inferInstanceAs (Decidable True)
  | unsigned high => inferInstanceAs (Decidable (Plain high.text))
  | logicVector high => inferInstanceAs (Decidable (Plain high.text))

theorem Harmless.plain_text {type : SignalType} (h : type.Harmless) : Plain type.text := by
  cases type with
  | logic => exact (by decide : Plain "std_logic")
  | complex => exact (by decide : Plain "complex")
  | unsigned high => exact plain_append.2 ⟨plain_append.2 ⟨by decide, h⟩, by decide⟩
  | logicVector high => exact plain_append.2 ⟨plain_append.2 ⟨by decide, h⟩, by decide⟩

theorem head_scan_text (type : SignalType) :
    ∃ t ∈ (scan type.text.toList).head?, t ≠ entityWord := by
  cases type with
  | logic => exact ⟨.word "std_logic".toList, by decide, by decide⟩
  | complex => exact ⟨.word "complex".toList, by decide, by decide⟩
  | unsigned high =>
    refine ⟨.word "unsigned".toList, ?_, by decide⟩
    change _ ∈ (scan ("unsigned(" ++ high.text ++ " downto 0)").toList).head?
    rw [String.append_assoc, String.toList_append, scan_append (Or.inl (by decide))]
    rfl
  | logicVector high =>
    refine ⟨.word "std_logic_vector".toList, ?_, by decide⟩
    change _ ∈ (scan ("std_logic_vector(" ++ high.text ++ " downto 0)").toList).head?
    rw [String.append_assoc, String.toList_append, scan_append (Or.inl (by decide))]
    rfl

end SignalType

namespace Declaration

/-- Declarations whose names, types and values bring nothing that readers stop at. -/
def Harmless : Declaration → Prop
  | blank => True
  | comment t => Plain t
  | signals gap names type => Plain gap ∧ (∀ v ∈ names, Plain v) ∧ type.Harmless
  | integerConstant name value => Plain name ∧ Plain value.text

instance : DecidablePred Harmless
  | blank => inferInstanceAs (Decidable True)
  | comment t => inferInstanceAs (Decidable (Plain t))
  | signals gap names type =>
    inferInstanceAs (Decidable (Plain gap ∧ (∀ v ∈ names, Plain v) ∧ type.Harmless))
  | integerConstant name value => inferInstanceAs (Decidable (Plain name ∧ Plain value.text))

theorem brings_text {d : Declaration} (h : d.Harmless) : Brings readEntity d.text [] := by
  have hsemi : Brings readEntity ";" [] := .of_notMem (by decide)
  cases d with
  | blank => exact .nil
  | comment t => exact .of_plain (plain_append.2 ⟨by decide, h⟩)
  | signals gap names type =>
    obtain ⟨hgap, hnames, htype⟩ := h
    have hlist : Plain ((",".append gap).intercalate names) :=
      plain_intercalate (plain_append.2 ⟨by decide, hgap⟩) hnames
    have hdeclared := brings_typed (plain_append.2 ⟨(by decide : Plain "signal "), hlist⟩)
      htype.plain_text type.head_scan_text
    exact hdeclared.append hsemi (Or.inr (by decide))
  | integerConstant name value =>
    have hconstant := brings_integer (plain_append.2 ⟨(by decide : Plain "constant "), h.1⟩) h.2
    exact hconstant.append hsemi (Or.inr (by decide))

theorem lines_listText {ds : List Declaration} (h : ∀ d ∈ ds, d.Harmless) :
    Lines readEntity (listText ds) [] := by
  have hlines : Lines readEntity (listText ds) (ds.flatMap fun _ => []) :=
    .join fun d hd => .of_brings (brings_text (h d hd)) (by decide) (by decide)
  have hnone : ds.flatMap (fun _ => ([] : List String)) = [] := by simp
  rwa [hnone] at hlines

end Declaration

theorem Port.brings_text {p : Port} (hname : IsName p.name) (htype : p.type.Harmless) :
    Brings readEntity p.text [] := by
  have hdirection : Plain p.direction.text ∧
      ∃ t ∈ (scan p.direction.text.toList).head?, t ≠ entityWord := by
    cases p.direction with
    | input => exact ⟨by decide, .word "in".toList, by decide, by decide⟩
    | output => exact ⟨by decide, .word "out".toList, by decide, by decide⟩
  obtain ⟨hplain, t, hhead, ht⟩ := hdirection
  have hkind : Plain (p.direction.text ++ (" " ++ p.type.text)) :=
    plain_append.2 ⟨hplain, plain_append.2 ⟨by decide, htype.plain_text⟩⟩
  have hother : ∃ t ∈ (scan (p.direction.text ++ (" " ++ p.type.text)).toList).head?,
      t ≠ entityWord := by
    have hblank : startsInWord (" " ++ p.type.text).toList = false := by
      rw [String.toList_append]
      rfl
    obtain ⟨ts, hscan⟩ := List.head?_eq_some_iff.1 hhead
    rw [String.toList_append, scan_append (Or.inr hblank), hscan]
    exact ⟨t, rfl, ht⟩
  have h := brings_typed (plain_of_isWordChar hname.word) hkind hother
  rwa [← String.append_assoc, ← String.append_assoc] at h

theorem Interface.lines_text {i : Interface} (hgenerics : ∀ g ∈ i.generics, IsName g.name)
    (hports : ∀ p ∈ i.ports, IsName p.name ∧ p.type.Harmless) : Lines readEntity i.text [] := by
  have hgeneric : ∀ s ∈ i.generics.map Generic.text, Brings readEntity s [] := by
    intro s hs
    obtain ⟨g, hg, rfl⟩ := List.mem_map.1 hs
    exact brings_integer (plain_of_isWordChar (hgenerics g hg).word) (plain_repr g.default)
  have hport : ∀ s ∈ i.ports.map Port.text, Brings readEntity s [] := by
    intro s hs
    obtain ⟨p, hp, rfl⟩ := List.mem_map.1 hs
    exact p.brings_text (hports p hp).1 (hports p hp).2
  have hopen : Lines readEntity "\tgeneric(" [] := ⟨.of_notMem (by decide), by decide⟩
  have hbetween : Lines readEntity "\tport(" [] := .of_separator (by decide) (by decide)
  have hgenericList :
      Lines readEntity (";\n\t\t\t".intercalate (i.generics.map Generic.text) ++ ");\n") [] :=
    .of_brings (.intercalate (by decide) (by decide) hgeneric) (by decide) (by decide)
  have hportList :
      Lines readEntity (";\n\t\t".intercalate (i.ports.map Port.text) ++ "\n\t\t);\n") [] :=
    .of_brings (.intercalate (by decide) (by decide) hport) (by decide) (by decide)
  have h := ((hopen.append hgenericList).append hbetween).append hportList
  rwa [← String.append_assoc, ← String.append_assoc] at h

end StreamingFft.Vhdl
