import StreamingFft.Proofs.Core.Header
/-!
The clauses of an entity read off its text. What stands behind the interface is indented or starts with a
word of its own, so the only clauses are those in front, and they name what the manifest lists.
-/
namespace StreamingFft
open Vhdl Text

namespace Text

/-- Whether no line of a text starts with a character. -/
def NoLineStarts (c : Char) (text : String) : Prop := ∀ line ∈ lines text, line.toList.head? ≠ some c

instance (c : Char) (text : String) : Decidable (NoLineStarts c text) :=
  inferInstanceAs (Decidable (∀ line ∈ lines text, line.toList.head? ≠ some c))

variable {c : Char} {s t : String}

theorem noLineStarts_of_isLine (h : IsLine s) : NoLineStarts c s ↔ s.toList.head? ≠ some c := by
  rw [NoLineStarts, lines_of_isLine h, List.forall_mem_singleton]

theorem noLineStarts_newline : NoLineStarts c (s ++ "\n" ++ t) ↔ NoLineStarts c s ∧ NoLineStarts c t := by
  rw [NoLineStarts, lines_append, List.forall_mem_append]
  rfl

/-- A line in front of a text becomes part of its first line. -/
theorem noLineStarts_line_append (hs : IsLine s) (h : NoLineStarts c s) (ht : NoLineStarts c t) :
    NoLineStarts c (s ++ t) := by
  have hline : ∀ {u : String}, IsLine u → NoLineStarts c u → NoLineStarts c (s ++ u) := by
    intro u hu hc
    rw [noLineStarts_of_isLine hu] at hc
    rw [noLineStarts_of_isLine hs] at h
    rw [noLineStarts_of_isLine (isLine_append.2 ⟨hs, hu⟩), String.toList_append, List.head?_append]
    cases hhead : s.toList.head? with
    | none => exact hc
    | some d =>
      rw [hhead] at h
      exact h
  induction t using line_induction with
  | line u hu => exact hline hu ht
  | join u v hu _ =>
    rw [noLineStarts_newline] at ht
    rw [← String.append_assoc, ← String.append_assoc, noLineStarts_newline]
    exact ⟨hline hu ht.1, ht.2⟩

theorem noLineStarts_append (hs : NoLineStarts c s) (ht : NoLineStarts c t) : NoLineStarts c (s ++ t) := by
  induction s using line_induction with
  | line u hu => exact noLineStarts_line_append hu hs ht
  | join u v hu ih =>
    rw [noLineStarts_newline] at hs
    rw [String.append_assoc, noLineStarts_newline]
    exact ⟨hs.1, ih hs.2⟩

theorem noLineStarts_join {ss : List String} (h : ∀ s ∈ ss, NoLineStarts c s) :
    NoLineStarts c (String.join ss) := by
  induction ss with
  | nil =>
    rw [String.join_nil, noLineStarts_of_isLine (by decide)]
    exact nofun
  | cons s ss ih =>
    rw [List.forall_mem_cons] at h
    rw [String.join_cons]
    exact noLineStarts_append h.1 (ih h.2)

/-- Indented lines start with a tab. -/
theorem noLineStarts_indent (hc : c ≠ '\t') (text : String) : NoLineStarts c (indent 1 text) := by
  intro line hline
  rw [lines_indent] at hline
  obtain ⟨plain, -, rfl⟩ := List.mem_map.1 hline
  by_cases hplain : plain = ""
  · rw [hplain]
    exact nofun
  · have htab : (tabs 1).toList.head? = some '\t' := by decide
    rw [indentLine_of_ne 1 hplain, String.toList_append, List.head?_append, htab]
    exact fun h => hc (Option.some.inj h).symm

end Text

/-- The component that a line names for use. -/
def useClause? (line : String) : Option String :=
  (line.toList.dropPrefix? "use work.".toList).bind fun rest =>
    (rest.dropSuffix? [';']).map String.ofList

/-- The components that the clauses of a text name, apart from the package that all entities share. -/
def usedComponents (text : String) : List String :=
  ((lines text).filterMap useClause?).filter (· ≠ "fft_types.all")

theorem useClause?_clause (name : String) : useClause? ("use work." ++ name ++ ";") = some name := by
  have hdrop : ("use work.".toList ++ (name.toList ++ [';'])).dropPrefix? "use work.".toList =
      some (name.toList ++ [';']) := List.dropPrefix?_append_of_beq _ (beq_self_eq_true _)
  have hend : (name.toList ++ [';']).dropSuffix? [';'] = some name.toList :=
    List.dropSuffix?_eq_some_iff.2 ⟨[';'], rfl, beq_self_eq_true _⟩
  have hclause : ("use work." ++ name ++ ";").toList = "use work.".toList ++ (name.toList ++ [';']) := by
    rw [String.toList_append, String.toList_append, List.append_assoc]
    rfl
  rw [useClause?, hclause, hdrop, Option.bind_some, hend, Option.map_some, String.ofList_toList]

theorem useClause?_eq_none {line : String} (h : line.toList.head? ≠ some 'u') : useClause? line = none := by
  have hdrop : line.toList.dropPrefix? "use work.".toList = none := by
    rw [Option.eq_none_iff_forall_not_mem]
    intro rest hrest
    obtain ⟨start, hline, hstart⟩ := List.dropPrefix?_eq_some_iff.1 hrest
    rw [hline, beq_iff_eq.1 hstart] at h
    exact h rfl
  rw [useClause?, hdrop, Option.bind_none]

namespace Architecture
variable {a : Architecture}

theorem noLineStarts_declarationText : NoLineStarts 'u' a.declarationText :=
  noLineStarts_append (noLineStarts_append (noLineStarts_append (noLineStarts_indent (by decide) _)
    (noLineStarts_indent (by decide) _)) (by decide)) (noLineStarts_indent (by decide) _)

theorem noLineStarts_bodyText : NoLineStarts 'u' a.bodyText := by
  refine noLineStarts_append (noLineStarts_indent (by decide) _) (noLineStarts_join ?_)
  intro text htext
  obtain ⟨s, -, rfl⟩ := List.mem_map.1 htext
  exact noLineStarts_append (by decide) (noLineStarts_indent (by decide) _)

theorem noLineStarts_restText (hname : IsLine a.name) : NoLineStarts 'u' a.restText := by
  have harchitecture : NoLineStarts 'u' s!"architecture ar of {a.name} is\n" := by
    have hline : IsLine ("architecture ar of " ++ a.name ++ " is") :=
      isLine_between (by decide) hname (by decide)
    have hstart : startsWith "architecture " ("architecture ar of " ++ a.name ++ " is") = true :=
      startsWith_append (startsWith_append (by decide) _) _
    have hend : " is\n" = " is" ++ "\n" ++ "" := by decide
    change NoLineStarts 'u' ("architecture ar of " ++ a.name ++ " is\n")
    rw [hend, ← String.append_assoc, ← String.append_assoc, noLineStarts_newline,
      noLineStarts_of_isLine hline, head_of_startsWith (c := 'a') (by decide) hstart]
    exact ⟨by decide, by decide⟩
  have hopen := noLineStarts_append (noLineStarts_append
    (by decide : NoLineStarts 'u' "\t\tdout: out complex\n\t\t);\n")
    (by decide : NoLineStarts 'u' "end entity;\n")) harchitecture
  have hdeclarations := noLineStarts_append hopen a.noLineStarts_declarationText
  have hbody := noLineStarts_append (noLineStarts_append hdeclarations
    (by decide : NoLineStarts 'u' "\nbegin\n")) a.noLineStarts_bodyText
  exact noLineStarts_append hbody (by decide)

/-- Every line behind the clauses is read as none. -/
theorem usedComponents_text (hname : IsLine a.name) (hcomponents : ∀ x ∈ a.components, IsLine x) :
    usedComponents a.text = a.components.names.filter (· ≠ "fft_types.all") := by
  have hnone : ∀ {ls : List String}, (∀ line ∈ ls, line.toList.head? ≠ some 'u') →
      ls.filterMap useClause? = [] := fun h =>
    List.filterMap_eq_nil_iff.2 fun line hline => useClause?_eq_none (h line hline)
  have hcontext : contextLines.filterMap useClause? = ["fft_types.all"] := by decide
  have hclauses : a.clauseLines.filterMap useClause? = a.components.names := by
    have hread : (useClause? ∘ fun name => "use work." ++ name ++ ";") = some :=
      funext useClause?_clause
    rw [clauseLines, List.filterMap_map, hread, List.filterMap_some]
  have hblank : [""].filterMap useClause? = [] := by decide
  have hnotes : a.noteLines.filterMap useClause? = [] := by
    refine hnone fun line hline => ?_
    rw [head_of_startsWith (c := '-') (by decide) (startsWith_noteLines line hline)]
    decide
  have hentity : useClause? a.entityLine = none := by
    apply useClause?_eq_none
    rw [head_of_startsWith (c := 'e') (by decide) a.startsWith_entityLine]
    decide
  have hports : portLines.filterMap useClause? = [] := by decide
  have hphase : useClause? (phaseLine a.order) = none := by
    apply useClause?_eq_none
    rw [head_of_startsWith (c := '\t') (by decide) (startsWith_phaseLine a.order)]
    decide
  have hrest : (lines a.restText).filterMap useClause? = [] := hnone (noLineStarts_restText hname)
  rw [usedComponents, lines_text hname hcomponents, frontLines]
  simp only [List.filterMap_append, hcontext, hclauses, hblank, hnotes,
    List.filterMap_cons_none hentity, hports, List.filterMap_cons_none hphase, hrest,
    List.append_nil, List.singleton_append]
  exact List.filter_cons_of_neg (by decide)

end Architecture

/-- The clauses in the text of a generated entity name what its manifest lists, in its order. -/
theorem Core.usedComponents_of_generate {c : Core}
    (hc : ∀ node ∈ c.nodes, node.Named ∧ node.WidthNamed) {name : String} {as : List Architecture}
    (h : c.generate name = .ok as) {a : Architecture} (ha : a ∈ as) :
    usedComponents a.text = a.imports.names := by
  obtain ⟨hregular, hcomponents⟩ := regular_of_generate hc h ha
  have hword : ∀ x ∈ a.components, x.toList.all isWordChar = true := fun x hx =>
    (hregular.isName_components x hx).word
  have hlines : ∀ x ∈ a.components, IsLine x := fun x hx => notMem_of_isWordChar rfl (hword x hx)
  rw [Architecture.usedComponents_text (isLine_name_of_generate h ha) hlines, hcomponents,
    List.filter_eq_self]
  intro x hx
  -- the package has a dot in its name
  have hpackage : x ≠ "fft_types.all" := by
    rintro rfl
    exact absurd (hword _ (hcomponents ▸ hx)) (by decide)
  exact decide_eq_true hpackage

end StreamingFft
