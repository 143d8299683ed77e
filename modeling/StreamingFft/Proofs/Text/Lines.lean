import StreamingFft.Proofs.Text.Layout
/-!
The lines of a text. A text is its first line, or that line in front of another text, and indentation puts
tabs in front of each line that is not empty, whatever stands on the lines around it.
-/
namespace StreamingFft.Text

/-- What stands between the line ends; behind the last one there is a line too, which may be empty. -/
def lines (text : String) : List String :=
  (text.toList.splitOn '\n').map String.ofList

example : lines "a\n\n\tb\n" = ["a", "", "\tb", ""] := by decide

/-- A text on one line, without an end. -/
def IsLine (text : String) : Prop := '\n' ∉ text.toList

instance (text : String) : Decidable (IsLine text) :=
  inferInstanceAs (Decidable ('\n' ∉ text.toList))

section Lines
variable {s t : String}

theorem isLine_append : IsLine (s ++ t) ↔ IsLine s ∧ IsLine t := by
  rw [IsLine, String.toList_append, List.mem_append, not_or]
  rfl

theorem isLine_between {front back : String} (hfront : IsLine front) (hs : IsLine s) (hback : IsLine back) :
    IsLine (front ++ s ++ back) :=
  isLine_append.2 ⟨isLine_append.2 ⟨hfront, hs⟩, hback⟩

theorem toList_append_newline (s t : String) :
    (s ++ "\n" ++ t).toList = s.toList ++ '\n' :: t.toList := by
  rw [String.toList_append, String.toList_append, List.append_assoc]
  rfl

theorem lines_of_isLine (h : IsLine s) : lines s = [s] := by
  rw [lines, List.splitOn_eq_singleton h, List.map_singleton, String.ofList_toList]

theorem lines_append (s t : String) : lines (s ++ "\n" ++ t) = lines s ++ lines t := by
  rw [lines, toList_append_newline, List.splitOn_append_cons_self, List.map_append]
  rfl

/-- Lines, each with its end. -/
def unlines (ls : List String) : String := String.join (ls.map (· ++ "\n"))

theorem unlines_append (ls ms : List String) : unlines (ls ++ ms) = unlines ls ++ unlines ms := by
  rw [unlines, List.map_append, String.join_append]
  rfl

theorem lines_unlines_append {ls : List String} (h : ∀ line ∈ ls, IsLine line) (rest : String) :
    lines (unlines ls ++ rest) = ls ++ lines rest := by
  induction ls with
  | nil => rw [unlines, List.map_nil, String.join_nil, String.empty_append, List.nil_append]
  | cons line ls ih =>
    rw [List.forall_mem_cons] at h
    rw [unlines, List.map_cons, String.join_cons, String.append_assoc, lines_append,
      lines_of_isLine h.1, ← unlines, ih h.2]
    rfl

theorem lines_ne_nil (text : String) : lines text ≠ [] :=
  mt List.map_eq_nil_iff.1 (List.splitOn_ne_nil _ _)

/-- What holds of lines, and of a line in front of a text if it holds of the text, holds of all texts. -/
theorem line_induction {P : String → Prop} (line : ∀ s, IsLine s → P s)
    (join : ∀ s t, IsLine s → P t → P (s ++ "\n" ++ t)) (text : String) : P text := by
  -- the induction is on what is left of the text behind the beginning of a line
  have hrest : ∀ cs start : List Char, '\n' ∉ start → P (String.ofList (start ++ cs)) := by
    intro cs
    induction cs with
    | nil =>
      intro start hstart
      rw [List.append_nil]
      exact line _ (by rwa [IsLine, String.toList_ofList])
    | cons c cs ih =>
      intro start hstart
      by_cases hc : c = '\n'
      · have hjoin : String.ofList start ++ "\n" ++ String.ofList cs =
            String.ofList (start ++ c :: cs) := by
          rw [← String.toList_inj, toList_append_newline, String.toList_ofList, String.toList_ofList,
            String.toList_ofList, hc]
        rw [← hjoin]
        exact join _ _ (by rwa [IsLine, String.toList_ofList]) (ih [] List.not_mem_nil)
      · rw [List.append_cons]
        refine ih (start ++ [c]) fun h => ?_
        rcases List.mem_append.1 h with h | h
        · exact hstart h
        · exact hc (List.mem_singleton.1 h).symm
  rw [← String.ofList_toList (s := text)]
  exact hrest text.toList [] List.not_mem_nil

theorem intercalate_lines (text : String) : "\n".intercalate (lines text) = text := by
  induction text using line_induction with
  | line s hs => rw [lines_of_isLine hs, String.intercalate_singleton]
  | join s t hs ih =>
    rw [lines_append, lines_of_isLine hs, List.singleton_append,
      String.intercalate_cons_of_ne_nil (lines_ne_nil t), ih]

end Lines

section Indentation

/-- So many tabs. -/
def tabs (levels : Nat) : String := String.ofList (List.replicate levels '\t')

theorem isLine_tabs (levels : Nat) : IsLine (tabs levels) := by
  rw [IsLine, tabs, String.toList_ofList]
  intro h
  exact absurd (List.eq_of_mem_replicate h) (by decide)

theorem tabs_add (a b : Nat) : tabs (a + b) = tabs a ++ tabs b := by
  rw [tabs, ← List.replicate_append_replicate, String.ofList_append]
  rfl

/-- A line behind so many tabs; an empty line stays empty. -/
def indentLine (levels : Nat) (line : String) : String :=
  if line = "" then "" else tabs levels ++ line

theorem indentLine_of_ne (levels : Nat) {line : String} (h : line ≠ "") :
    indentLine levels line = tabs levels ++ line := if_neg h

theorem indentLine_eq_empty_iff {levels : Nat} {line : String} :
    indentLine levels line = "" ↔ line = "" := by
  by_cases h : line = ""
  · rw [h, indentLine, if_pos rfl]
  · rw [indentLine_of_ne levels h, String.append_eq_empty_iff]
    exact and_iff_right_of_imp fun h' => absurd h' h

theorem isLine_indentLine (levels : Nat) {line : String} (h : IsLine line) :
    IsLine (indentLine levels line) := by
  unfold indentLine
  split
  · decide
  · exact isLine_append.2 ⟨isLine_tabs levels, h⟩

theorem indent_of_isLine (levels : Nat) {line : String} (h : IsLine line) :
    indent levels line = indentLine levels line := by
  by_cases hline : line = ""
  · rw [hline]
    rfl
  · obtain ⟨c, cs, hcs⟩ := List.exists_cons_of_ne_nil (mt String.toList_eq_nil_iff.1 hline)
    have hc : c ≠ '\n' := fun hc => h (hcs ▸ hc ▸ List.mem_cons_self)
    have hrest := indentChars_append (List.replicate levels '\t') h []
    rw [List.append_nil, indentChars, List.append_nil] at hrest
    rw [indentLine_of_ne levels hline, indent, indentChars_fresh _ (hcs ▸ List.head?_cons) hc, hrest,
      String.ofList_append, String.ofList_toList]
    rfl

theorem indentChars_append_newline (front : List Char) (fresh : Bool) (cs ds : List Char) :
    indentChars front fresh (cs ++ '\n' :: ds) =
      indentChars front fresh cs ++ '\n' :: indentChars front true ds := by
  induction cs generalizing fresh with
  | nil => exact indentChars_newline front fresh ds
  | cons c cs ih =>
    rw [List.cons_append, indentChars, indentChars]
    split
    · rw [ih, List.cons_append]
    · split
      · rw [ih, List.append_assoc, List.cons_append]
      · rw [ih, List.cons_append]

theorem indent_append (levels : Nat) (s t : String) :
    indent levels (s ++ "\n" ++ t) = indent levels s ++ "\n" ++ indent levels t := by
  rw [← String.toList_inj, toList_append_newline, indent, indent, indent, toList_append_newline,
    String.toList_ofList, String.toList_ofList, String.toList_ofList, indentChars_append_newline]

/-- Every line is indented for itself. -/
theorem lines_indent (levels : Nat) (text : String) :
    lines (indent levels text) = (lines text).map (indentLine levels) := by
  induction text using line_induction with
  | line s hs =>
    rw [indent_of_isLine levels hs, lines_of_isLine (isLine_indentLine levels hs), lines_of_isLine hs,
      List.map_singleton]
  | join s t hs ih =>
    rw [indent_append, lines_append, ih, indent_of_isLine levels hs,
      lines_of_isLine (isLine_indentLine levels hs), lines_append, lines_of_isLine hs, List.map_append,
      List.map_singleton]

end Indentation

end StreamingFft.Text
