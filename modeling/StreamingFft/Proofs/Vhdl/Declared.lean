import StreamingFft.Proofs.Vhdl.Instantiation
/-!
The names that a text declares. They stand in front of a colon, with commas between them; a colon that
is part of an assignment sign or stands behind a label declares nothing.
-/
namespace StreamingFft.Vhdl
open Token

/-- The names in front of a colon, read backwards from there. -/
def namesBefore : List Token → List String
  | .word v :: .mark ',' :: ts => namesBefore ts ++ [String.ofList v]
  | .word v :: _ => [String.ofList v]
  | _ => []

/-- The names that a colon declares. -/
def readNames (before : List Token) : List Token → Option (List String)
  | [] => none
  | t :: _ => if t = .mark '=' ∨ t = entityWord then none else some (namesBefore before)

/-- All names that a text declares, in their order. -/
def declaredNames (text : String) : List String :=
  (readColons readNames [] (scan text.toList)).flatten

example : declaredNames "signal a, b: c; constant d: integer := 1; e: entity f;" = ["a", "b", "d"] := by
  decide

theorem namesBefore_word (v : String) {ts : List Token} (h : ts.head? ≠ some (.mark ',')) :
    namesBefore (.word v.toList :: ts) = [v] := by
  unfold namesBefore
  split
  · next heq =>
    cases heq
    exact absurd rfl h
  · next heq =>
    cases heq
    rw [String.ofList_toList]
  · next hword => exact absurd rfl (hword _ _)

theorem readNames_word {w : List Char} (h : .word w ≠ entityWord) (before ts : List Token) :
    readNames before (.word w :: ts) = some (namesBefore before) :=
  if_neg (not_or.2 ⟨nofun, h⟩)

/-- The tokens of a list of names. -/
def nameTokens (vs : List String) : List Token :=
  [.mark ','].intercalate (vs.map fun v => [.word v.toList])

/-- The first name of a list decides how far the list reaches back. -/
theorem namesBefore_reverse_append (v : String) (vs : List String) (before : List Token) :
    namesBefore ((nameTokens (v :: vs)).reverse ++ before) =
      namesBefore (.word v.toList :: before) ++ vs := by
  induction vs generalizing v before with
  | nil =>
    rw [List.append_nil]
    rfl
  | cons w vs ih =>
    have hsplit : (nameTokens (v :: w :: vs)).reverse ++ before =
        (nameTokens (w :: vs)).reverse ++ (.mark ',' :: .word v.toList :: before) := by
      rw [nameTokens, nameTokens, List.map_cons, List.map_cons, List.intercalate_cons_cons,
        List.reverse_append, List.reverse_append, List.append_assoc, List.append_assoc]
      rfl
    rw [hsplit, ih, namesBefore, String.ofList_toList, List.append_assoc]
    rfl

namespace Declaration

/-- Declarations whose names are words, with a keyword in front of them and nothing that readers stop
at behind them. -/
def Legible : Declaration → Prop
  | blank => True
  | comment t => Plain t
  | signals gap names type =>
    gap ∈ ["", " "] ∧ names ≠ [] ∧ (∀ v ∈ names, IsName v) ∧ type.Harmless
  | integerConstant name value => IsName name ∧ Plain value.text

instance : DecidablePred Legible
  | blank => inferInstanceAs (Decidable True)
  | comment t => inferInstanceAs (Decidable (Plain t))
  | signals gap names type =>
    inferInstanceAs (Decidable
      (gap ∈ ["", " "] ∧ names ≠ [] ∧ (∀ v ∈ names, IsName v) ∧ type.Harmless))
  | integerConstant name value => inferInstanceAs (Decidable (IsName name ∧ Plain value.text))

/-- Whether signals are declared at all, and with a separator that readers know. -/
def tidy : Declaration → Bool
  | signals gap names _ => ["", " "].contains gap && !names.isEmpty
  | _ => true

theorem Harmless.legible {d : Declaration} (h : d.Harmless) (hnames : ∀ v ∈ d.names, IsName v)
    (htidy : d.tidy = true) : d.Legible := by
  cases d with
  | blank => trivial
  | comment t => exact h
  | signals gap names type =>
    rw [tidy, Bool.and_eq_true, List.contains_iff_mem, Bool.not_eq_true', List.isEmpty_eq_false_iff]
      at htidy
    exact ⟨htidy.1, htidy.2, hnames, h.2.2⟩
  | integerConstant name value => exact ⟨hnames name List.mem_cons_self, h.2⟩

theorem scan_names {gap : String} (hgap : gap ∈ ["", " "]) {names : List String}
    (hnames : ∀ v ∈ names, IsName v) :
    scan (("," ++ gap).intercalate names).toList = nameTokens names := by
  have hsep : ∀ gap ∈ ["", " "], IsSeparator ("," ++ gap).toList ∧
      scan ("," ++ gap).toList = [.mark ','] := by decide
  rw [scan_intercalate (hsep gap hgap).1, (hsep gap hgap).2, nameTokens]
  congr 1
  exact List.map_congr_left fun v hv => (hnames v hv).scan

end Declaration

theorem SignalType.scan_text_eq (type : SignalType) :
    ∃ w ts, scan type.text.toList = .word w :: ts ∧ .word w ≠ entityWord := by
  have hstart : startsInWord type.text.toList = true := by
    cases type with
    | logic => decide
    | complex => decide
    | unsigned high =>
      change startsInWord ("unsigned(" ++ high.text ++ " downto 0)").toList = true
      rw [String.append_assoc, String.toList_append]
      rfl
    | logicVector high =>
      change startsInWord ("std_logic_vector(" ++ high.text ++ " downto 0)").toList = true
      rw [String.append_assoc, String.toList_append]
      rfl
  obtain ⟨w, ts, hscan⟩ := exists_scan_eq_word hstart
  obtain ⟨t, hhead, ht⟩ := type.head_scan_text
  rw [hscan] at hhead
  cases hhead
  exact ⟨w, ts, hscan, ht⟩

section Typed
variable {a b : String} {vs : List String} {w : List Char} {us : List Token}

/-- Names in front of the colon of a type. -/
theorem brings_names (ha : ∀ before, namesBefore ((scan a.toList).reverse ++ before) = vs)
    (hcolon : .mark ':' ∉ scan a.toList) (hb : Brings readNames b []) (hscan : scan b.toList = .word w :: us)
    (hw : .word w ≠ entityWord) : Brings readNames (a ++ ": " ++ b) [vs] := by
  have hfound : ∀ before ts,
      readNames ((scan a.toList).reverse ++ before) (scan b.toList ++ ts) = some vs := by
    intro before ts
    rw [hscan, List.cons_append, readNames_word hw, ha]
  exact .colon hcolon hb hfound (by decide) (by decide)

/-- Names in front of an integer and its value, whose assignment sign has a colon of its own. -/
theorem brings_integers (ha : ∀ before, namesBefore ((scan a.toList).reverse ++ before) = vs)
    (hcolon : .mark ':' ∉ scan a.toList) {value : String} (hvalue : Plain value) :
    Brings readNames (a ++ ": integer := " ++ value) [vs] := by
  have hsign : scan ("= " ++ value).toList = .mark '=' :: scan value.toList := by
    rw [String.toList_append, scan_append (Or.inl (by decide))]
    rfl
  have hbehind : Brings readNames ("= " ++ value) [] :=
    .of_plain (plain_append.2 ⟨by decide, hvalue⟩)
  have hassigned : Brings readNames ("integer " ++ ":" ++ ("= " ++ value)) [] :=
    .skip (by decide) hbehind ⟨.mark '=', by rw [hsign]; rfl, fun _ _ => rfl⟩ (by decide) (by decide)
  have htype : scan ("integer " ++ ":" ++ ("= " ++ value)).toList =
      .word "integer".toList :: .mark ':' :: .mark '=' :: scan value.toList := by
    rw [String.toList_append, scan_append (Or.inl (by decide)), hsign]
    rfl
  have htext : ": integer := " = ": " ++ ("integer " ++ ":" ++ "= ") := by decide
  have hline := brings_names ha hcolon hassigned htype (by decide)
  rw [htext]
  simpa only [String.append_assoc] using hline

end Typed

namespace Declaration

/-- The names of a declaration, if it is one. -/
def nameList : Declaration → List (List String)
  | blank => []
  | comment _ => []
  | signals _ names _ => [names]
  | integerConstant name _ => [[name]]

theorem flatten_nameList (ds : List Declaration) :
    (ds.flatMap nameList).flatten = ds.flatMap names := by
  rw [List.flatMap_def, List.flatten_flatten, List.map_map, ← List.flatMap_def]
  apply List.flatMap_congr
  intro d _
  cases d <;> simp only [Function.comp, nameList, names, List.flatten_nil, List.flatten_singleton]

theorem namesBefore_keyword {vs : List String} (hvs : vs ≠ []) (w : List Char) (before : List Token) :
    namesBefore ((.word w :: nameTokens vs).reverse ++ before) = vs := by
  obtain ⟨v, vs, rfl⟩ := List.exists_cons_of_ne_nil hvs
  rw [List.reverse_cons, List.append_assoc, namesBefore_reverse_append, List.singleton_append,
    namesBefore_word v (by simp)]
  rfl

theorem brings_nameList {d : Declaration} (h : d.Legible) : Brings readNames d.text d.nameList := by
  have hsemi : Brings readNames ";" [] := .of_notMem (by decide)
  have hend : ∀ {a xs}, Brings readNames a xs → Brings readNames (a ++ ";") xs := by
    intro a xs ha
    have hline := ha.append hsemi (Or.inr (by decide))
    rwa [List.append_nil] at hline
  cases d with
  | blank => exact .nil
  | comment t => exact .of_plain (plain_append.2 ⟨by decide, h⟩)
  | signals gap names type =>
    obtain ⟨hgap, hne, hnames, htype⟩ := h
    obtain ⟨w, us, hscan, hw⟩ := type.scan_text_eq
    have hcomma : Plain ("," ++ gap) := plain_append.2 ⟨by decide, by revert gap; decide⟩
    have hlist : Plain (("," ++ gap).intercalate names) :=
      plain_intercalate hcomma fun v hv => plain_of_isWordChar (hnames v hv).word
    have hfound : ∀ before, namesBefore
        ((scan ("signal " ++ ("," ++ gap).intercalate names).toList).reverse ++ before) = names := by
      intro before
      rw [String.toList_append, scan_append (Or.inl (by decide)), scan_names hgap hnames]
      exact namesBefore_keyword hne _ before
    have hplain : Plain ("signal " ++ ("," ++ gap).intercalate names) :=
      plain_append.2 ⟨by decide, hlist⟩
    exact hend (brings_names hfound (hplain.mark_notMem (by decide)) (.of_plain htype.plain_text)
      hscan hw)
  | integerConstant name value =>
    have hfound : ∀ before,
        namesBefore ((scan ("constant " ++ name).toList).reverse ++ before) = [name] := by
      intro before
      rw [String.toList_append, scan_append (Or.inl (by decide)), h.1.scan]
      exact namesBefore_keyword (List.cons_ne_nil name []) _ before
    have hplain : Plain ("constant " ++ name) :=
      plain_append.2 ⟨by decide, plain_of_isWordChar h.1.word⟩
    exact hend (brings_integers hfound (hplain.mark_notMem (by decide)) h.2)

theorem lines_nameList {ds : List Declaration} (h : ∀ d ∈ ds, d.Legible) :
    Lines readNames (listText ds) (ds.flatMap nameList) :=
  .join fun d hd => .of_brings (brings_nameList (h d hd)) (by decide) (by decide)

end Declaration

section Lists
variable {α β : Type*} {read : List Token → List Token → Option α} {text : β → String}
  {found : β → List α} {sep : String}

/-- Items behind an opening and behind separators bring what each brings. -/
theorem Brings.delimited {opening : String} {l : List β} (hne : l ≠ [])
    (hsep : IsSeparator sep.toList)
    (h : ∀ start ∈ [opening, sep], ∀ x ∈ l, Brings read (start ++ text x) (found x)) :
    Brings read (opening ++ sep.intercalate (l.map text)) (l.flatMap found) := by
  induction l generalizing opening with
  | nil => exact absurd rfl hne
  | cons x l ih =>
    have hfirst := h opening List.mem_cons_self x List.mem_cons_self
    cases l with
    | nil =>
      rw [List.map_singleton, String.intercalate_singleton, List.flatMap_singleton]
      exact hfirst
    | cons y l =>
      have hstart : ∀ start ∈ [sep, sep], ∀ x ∈ y :: l, Brings read (start ++ text x) (found x) := by
        intro start hstart z hz
        refine h start ?_ z (List.mem_cons_of_mem x hz)
        simp only [List.mem_cons, List.not_mem_nil, or_false, or_self] at hstart ⊢
        exact Or.inr hstart
      have hrest := ih (List.cons_ne_nil y l) hstart
      have hcut : startsInWord (sep ++ sep.intercalate ((y :: l).map text)).toList = false := by
        rw [String.toList_append, startsInWord, List.head?_append_of_ne_nil _ hsep.ne_nil]
        exact hsep.start
      have hboth := hfirst.append hrest (Or.inr hcut)
      rw [List.map_cons, List.map_cons, String.intercalate_cons_cons, ← List.map_cons,
        List.flatMap_cons]
      simpa only [String.append_assoc] using hboth

end Lists

theorem Direction.scan_text_eq (d : Direction) :
    ∃ w, scan d.text.toList = [.word w] ∧ .word w ≠ entityWord := by
  cases d with
  | input => exact ⟨"in".toList, by decide, by decide⟩
  | output => exact ⟨"out".toList, by decide, by decide⟩

namespace Interface

def Legible (i : Interface) : Prop :=
  i.generics ≠ [] ∧ i.ports ≠ [] ∧ (∀ g ∈ i.generics, IsName g.name) ∧
    ∀ p ∈ i.ports, IsName p.name ∧ p.type.Harmless

/-- What stands in front of the names of an interface. -/
def openings : List String := ["\tgeneric(", ";\n\t\t\t", "\tport(", ";\n\t\t"]

theorem scan_opening : ∀ start ∈ openings, endsInWord start.toList = false ∧
    .mark ':' ∉ scan start.toList ∧ (scan start.toList).getLast? ∈ [some (.mark '('), some (.mark ';')] := by
  decide

section Items
variable {start v : String} (hstart : start ∈ openings) (hv : IsName v)
include hstart hv

theorem scan_item : scan (start ++ v).toList = scan start.toList ++ [.word v.toList] := by
  rw [String.toList_append, scan_append (Or.inl (scan_opening start hstart).1), hv.scan]

theorem colon_notMem_item : .mark ':' ∉ scan (start ++ v).toList := by
  rw [scan_item hstart hv, List.mem_append, not_or]
  exact ⟨(scan_opening start hstart).2.1, by simp⟩

/-- A name behind a parenthesis or a semicolon stands alone. -/
theorem namesBefore_item (before : List Token) :
    namesBefore ((scan (start ++ v).toList).reverse ++ before) = [v] := by
  have hlast := (scan_opening start hstart).2.2
  simp only [List.mem_cons, List.not_mem_nil, or_false] at hlast
  have hmark : ((scan start.toList).reverse ++ before).head? ≠ some (.mark ',') := by
    rw [List.head?_append, List.head?_reverse]
    rcases hlast with hlast | hlast <;> simp [hlast]
  rw [scan_item hstart hv, List.reverse_append, List.append_assoc]
  exact namesBefore_word v hmark

end Items

/-- An interface declares its generics and its ports. -/
theorem declaredNames_text {i : Interface} (h : i.Legible) : declaredNames i.text = i.names := by
  obtain ⟨hgenerics, hports, hgeneric, hport⟩ := h
  have hgenericList : Brings readNames ("\tgeneric(" ++ ";\n\t\t\t".intercalate
      (i.generics.map Generic.text)) (i.generics.flatMap fun g => [[g.name]]) := by
    apply Brings.delimited hgenerics (by decide)
    intro start hstart g hg
    have hmem : start ∈ openings := by
      revert start
      decide
    have hline := brings_integers (namesBefore_item hmem (hgeneric g hg))
      (colon_notMem_item hmem (hgeneric g hg)) (plain_repr g.default)
    change Brings readNames (start ++ (g.name ++ ": integer := " ++ Nat.repr g.default)) [[g.name]]
    simpa only [String.append_assoc] using hline
  have hportList : Brings readNames ("\tport(" ++ ";\n\t\t".intercalate
      (i.ports.map Port.text)) (i.ports.flatMap fun p => [[p.name]]) := by
    apply Brings.delimited hports (by decide)
    intro start hstart p hp
    have hmem : start ∈ openings := by
      revert start
      decide
    obtain ⟨hname, htype⟩ := hport p hp
    obtain ⟨w, hscan, hw⟩ := p.direction.scan_text_eq
    have hkind : scan (p.direction.text ++ (" " ++ p.type.text)).toList =
        .word w :: scan (" " ++ p.type.text).toList := by
      have hblank : startsInWord (" " ++ p.type.text).toList = false := by
        rw [String.toList_append]
        rfl
      rw [String.toList_append, scan_append (Or.inr hblank), hscan]
      rfl
    have hplain : Plain (p.direction.text ++ (" " ++ p.type.text)) :=
      plain_append.2 ⟨by cases p.direction <;> decide, plain_append.2 ⟨by decide, htype.plain_text⟩⟩
    have hline := brings_names (namesBefore_item hmem hname) (colon_notMem_item hmem hname)
      (.of_plain hplain) hkind hw
    change Brings readNames (start ++ (p.name ++ ": " ++ p.direction.text ++ " " ++ p.type.text))
      [[p.name]]
    simpa only [String.append_assoc] using hline
  have hgenericEnd := Lines.of_brings hgenericList (by decide : IsSeparator ");\n".toList) (by decide)
  have hportEnd := Lines.of_brings hportList (by decide : IsSeparator "\n\t\t);\n".toList) (by decide)
  have htext := (hgenericEnd.append hportEnd).readColons_eq
  rw [declaredNames, names, text]
  rw [← String.append_assoc, ← String.append_assoc] at htext
  rw [htext, List.flatten_append]
  simp only [← List.map_eq_flatMap, ← List.flatMap_def]

end Interface

end StreamingFft.Vhdl
