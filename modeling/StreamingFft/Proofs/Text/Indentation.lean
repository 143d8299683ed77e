import StreamingFft.Proofs.Text.Lines
import StreamingFft.Text.Depth
/-!
Indentations add up, go through a text line by line, and can be taken back.
-/
namespace StreamingFft.Text

/-- Takes so many tabs off a line that is not empty; a line with less of them has no such form. -/
def outdentLine? (levels : Nat) (line : String) : Option String :=
  if line = "" then some ""
  else (line.toList.dropPrefix? (tabs levels).toList).map String.ofList

/-- Takes the tabs off all lines. -/
def outdent? (levels : Nat) (text : String) : Option String :=
  ((lines text).mapM (outdentLine? levels)).map "\n".intercalate

example : outdent? 1 "\ta\n\n\t\tb\n" = some "a\n\n\tb\n" ∧ outdent? 2 "\ta" = none := by decide

variable (a b : Nat)

theorem indentLine_indentLine (line : String) :
    indentLine b (indentLine a line) = indentLine (a + b) line := by
  by_cases h : line = ""
  · rw [h]
    rfl
  · rw [indentLine_of_ne b (mt indentLine_eq_empty_iff.1 h), indentLine_of_ne a h,
      indentLine_of_ne (a + b) h, Nat.add_comm, tabs_add, String.append_assoc]

theorem indent_indent (text : String) : indent b (indent a text) = indent (a + b) text := by
  induction text using line_induction with
  | line s hs =>
    rw [indent_of_isLine a hs, indent_of_isLine b (isLine_indentLine a hs), indent_of_isLine _ hs,
      indentLine_indentLine]
  | join s t hs ih =>
    rw [indent_append, indent_append, indent_append, ih, indent_of_isLine a hs,
      indent_of_isLine b (isLine_indentLine a hs), indent_of_isLine _ hs, indentLine_indentLine]

theorem outdentLine?_indentLine (line : String) :
    outdentLine? a (indentLine a line) = some line := by
  by_cases h : line = ""
  · rw [h]
    rfl
  · have hdrop : ((tabs a).toList ++ line.toList).dropPrefix? (tabs a).toList = some line.toList :=
      List.dropPrefix?_append_of_beq _ (beq_self_eq_true _)
    rw [outdentLine?, if_neg (mt indentLine_eq_empty_iff.1 h), indentLine_of_ne a h,
      String.toList_append, hdrop, Option.map_some, String.ofList_toList]

theorem outdent?_indent (text : String) : outdent? a (indent a text) = some text := by
  have hline : outdentLine? a ∘ indentLine a = some := funext (outdentLine?_indentLine a)
  have hlines : (lines text).mapM some = some (lines text) :=
    (List.mapM_pure (f := id)).trans (congrArg some (List.map_id _))
  rw [outdent?, lines_indent, List.mapM_map, hline, hlines, Option.map_some, intercalate_lines]

theorem indent_injective : Function.Injective (indent a) := by
  intro s t h
  apply Option.some.inj
  rw [← outdent?_indent a s, ← outdent?_indent a t, h]

theorem indentBy_bind_indentBy (s t : String) : (indentBy a s >>= indentBy b) = .ok t ↔
    HasRoom a s ∧ HasRoom b (indent a s) ∧ t = indent (a + b) s := by
  rw [← indent_indent]
  by_cases ha : HasRoom a s
  · have hfirst : indentBy a s = .ok (indent a s) := indentBy_eq_ok_iff.2 ⟨ha, rfl⟩
    have hbind : (indentBy a s >>= indentBy b) = indentBy b (indent a s) := by
      rw [hfirst]
      rfl
    rw [hbind, indentBy_eq_ok_iff, eq_comm (a := t)]
    exact (and_iff_right ha).symm
  · have hfirst : indentBy a s = .error (.overflow .indentation) := if_neg ha
    rw [hfirst]
    refine iff_of_false ?_ fun h => ha h.1
    intro h
    cases h

/-- What holds of the indentations of two texts by any two numbers of tabs. -/
structure IndentationLaws (a b : Nat) (s t : String) : Prop where
  add : indent b (indent a s) = indent (a + b) s
  /-- The steps are made just where both have room, and then they make the same. -/
  add_checked : ∀ t, (indentBy a s >>= indentBy b) = .ok t ↔
    HasRoom a s ∧ HasRoom b (indent a s) ∧ t = indent (a + b) s
  join : indent a (s ++ "\n" ++ t) = indent a s ++ "\n" ++ indent a t
  length_lines : (lines (indent a s)).length = (lines s).length
  empty_line : ∀ i : Nat, (lines (indent a s))[i]? = some "" ↔ (lines s)[i]? = some ""
  outdent : outdent? a (indent a s) = some s
  injective : Function.Injective (indent a)

/-- Indentations add up, keep the lines apart and the empty ones empty, and can be taken back. -/
theorem indentationLaws (s t : String) : IndentationLaws a b s t where
  add := indent_indent a b s
  add_checked := indentBy_bind_indentBy a b s
  join := indent_append a s t
  length_lines := by rw [lines_indent, List.length_map]
  empty_line i := by
    rw [lines_indent, List.getElem?_map, Option.map_eq_some_iff]
    constructor
    · rintro ⟨line, hline, hempty⟩
      rw [hline, indentLine_eq_empty_iff.1 hempty]
    · exact fun hline => ⟨"", hline, rfl⟩
  outdent := outdent?_indent a s
  injective := indent_injective a

/-- The last line is empty, and one of the lines begins with a tab of its own. -/
theorem indentationLaws_tabbed :
    HasRoom 1 "a\n\n\tb\n" ∧ HasRoom 2 (indent 1 "a\n\n\tb\n") ∧
      (indentBy 1 "a\n\n\tb\n" >>= indentBy 2) = .ok "\t\t\ta\n\n\t\t\t\tb\n" ∧
      outdent? 1 "\ta\n\n\t\tb\n" = some "a\n\n\tb\n" := by
  have hlaws := indentationLaws 1 2 "a\n\n\tb\n" ""
  have hfirst : HasRoom 1 "a\n\n\tb\n" := by decide
  have hsecond : HasRoom 2 (indent 1 "a\n\n\tb\n") := by decide
  have hthree : "\t\t\ta\n\n\t\t\t\tb\n" = indent (1 + 2) "a\n\n\tb\n" := by decide
  have hone : indent 1 "a\n\n\tb\n" = "\ta\n\n\t\tb\n" := by decide
  refine ⟨hfirst, hsecond, (hlaws.add_checked _).2 ⟨hfirst, hsecond, hthree⟩, ?_⟩
  rw [← hone]
  exact hlaws.outdent

end StreamingFft.Text
