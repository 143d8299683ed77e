import StreamingFft.Proofs.TwiddleTable.Words
import StreamingFft.Proofs.Vhdl.Literal
import StreamingFft.TwiddleTable.Module
/-!
The contents of the memory hold the words of the table and nothing else: rows cut the list of words
without loss, and the comma between two rows is one like those inside a row.
-/
namespace StreamingFft
open Vhdl Token

section Rows
variable {α β : Type} (length : Nat)

theorem flatten_rowsOf (l : List α) : (rowsOf length l).flatten = l := by
  fun_induction rowsOf length l with
  | case1 => rfl
  | case2 x xs ih => rw [List.flatten_cons, ih, List.cons_append, List.take_append_drop]

theorem ne_nil_of_mem_rowsOf {l row : List α} (h : row ∈ rowsOf length l) : row ≠ [] := by
  fun_induction rowsOf length l with
  | case1 => cases h
  | case2 x xs ih =>
    rcases List.mem_cons.1 h with rfl | h
    · exact List.cons_ne_nil _ _
    · exact ih h

theorem rowsOf_map (f : α → β) (l : List α) :
    rowsOf length (l.map f) = (rowsOf length l).map (List.map f) := by
  fun_induction rowsOf length l with
  | case1 => rw [List.map_nil, rowsOf, List.map_nil]
  | case2 x xs ih =>
    rw [List.map_cons, rowsOf, ← List.map_drop, ih, ← List.map_take, List.map_cons, List.map_cons]

end Rows

theorem intercalate_append {α : Type*} {sep : List α} {xs ys : List (List α)} (hx : xs ≠ [])
    (hy : ys ≠ []) :
    sep.intercalate (xs ++ ys) = sep.intercalate xs ++ sep ++ sep.intercalate ys := by
  induction xs with
  | nil => exact absurd rfl hx
  | cons x xs ih =>
    by_cases hxs : xs = []
    · rw [hxs, List.singleton_append, List.intercalate_singleton, List.intercalate_cons_of_ne_nil hy]
    · rw [List.cons_append, List.intercalate_cons_of_ne_nil (List.append_ne_nil_of_left_ne_nil hxs _),
        List.intercalate_cons_of_ne_nil hxs, ih hxs]
      simp only [List.append_assoc]

theorem intercalate_flatten {α : Type*} {sep : List α} {rows : List (List (List α))}
    (h : ∀ row ∈ rows, row ≠ []) :
    sep.intercalate (rows.map sep.intercalate) = sep.intercalate rows.flatten := by
  induction rows with
  | nil => rfl
  | cons row rows ih =>
    rw [List.forall_mem_cons] at h
    by_cases hrows : rows = []
    · rw [hrows, List.map_singleton, List.intercalate_singleton, List.flatten_singleton]
    · have hflat : rows.flatten ≠ [] := by
        obtain ⟨r, hr⟩ := List.exists_mem_of_ne_nil rows hrows
        rw [Ne, List.flatten_eq_nil_iff]
        exact fun hnil => h.2 r hr (hnil r hr)
      rw [List.map_cons, List.intercalate_cons_of_ne_nil (List.map_eq_nil_iff.not.2 hrows), ih h.2,
        List.flatten_cons, intercalate_append h.1 hflat]

namespace SampledTable

/-- The characters of the contents. -/
def contentsChars : List Char := "\t\n ,\"01".toList

variable {t : SampledTable} {w : WordWidth}

theorem isBinary_of_mem_words {s : String} (hs : s ∈ t.words w) : IsBinary s.toList :=
  forall_mem_words (P := fun s => IsBinary s.toList) (fun i _ => t.isBinary_word i w) s hs

/-- The words in the rows in which they are printed. -/
def rows (t : SampledTable) (w : WordWidth) : List (List String) :=
  rowsOf (TwiddleTable.rowLength - 1) (t.words w)

theorem flatten_rows (t : SampledTable) (w : WordWidth) : (t.rows w).flatten = t.words w :=
  flatten_rowsOf _ _

theorem contents_eq (t : SampledTable) (w : WordWidth) :
    t.contents w = ",\n".intercalate ((t.rows w).map fun row =>
      "\t\t\t" ++ ", ".intercalate (row.map fun s => "\"" ++ s ++ "\"")) := by
  rw [contents, rowsOf_map, List.map_map]
  rfl

theorem mem_words_of_mem_rows {row : List String} (hrow : row ∈ t.rows w) {s : String}
    (hs : s ∈ row) : s ∈ t.words w := by
  rw [← flatten_rows]
  exact List.mem_flatten_of_mem hrow hs

theorem mem_contentsChars (t : SampledTable) (w : WordWidth) :
    ∀ c ∈ (t.contents w).toList, c ∈ contentsChars := by
  rw [contents_eq]
  refine forall_mem_intercalate (by decide) ?_
  intro line hline
  obtain ⟨row, hrow, rfl⟩ := List.mem_map.1 hline
  rw [String.toList_append, List.forall_mem_append]
  refine ⟨by decide, forall_mem_intercalate (by decide) ?_⟩
  intro quote hquote
  obtain ⟨s, hs, rfl⟩ := List.mem_map.1 hquote
  have hbits : ∀ c ∈ s.toList, c ∈ contentsChars := by
    intro c hc
    rcases isBinary_of_mem_words (mem_words_of_mem_rows hrow hs) c hc with rfl | rfl
    · decide
    · decide
  rw [String.toList_append, String.toList_append, List.forall_mem_append, List.forall_mem_append]
  exact ⟨⟨by decide, hbits⟩, by decide⟩

theorem notMem_contents (t : SampledTable) (w : WordWidth) {c : Char} (hc : c ∉ contentsChars) :
    c ∉ (t.contents w).toList :=
  fun h => hc (t.mem_contentsChars w c h)

theorem quotes_contents (t : SampledTable) (w : WordWidth) : Quotes (t.contents w) (t.words w) := by
  have hrows : Quotes (t.contents w)
      ((t.rows w).flatMap fun row => row.flatMap fun s => [s]) := by
    rw [contents_eq]
    apply Quotes.intercalate (by decide)
    intro row hrow
    have hrowText : Quotes (", ".intercalate (row.map fun s => "\"" ++ s ++ "\""))
        (row.flatMap fun s => [s]) := by
      apply Quotes.intercalate (by decide)
      intro s hs
      apply Quotes.literal
      intro hmem
      exact absurd (isBinary_of_mem_words (mem_words_of_mem_rows hrow hs) _ hmem) (by decide)
    exact (Quotes.of_notMem (by decide)).append hrowText
  have hflat : (t.rows w).flatMap (fun row => row.flatMap fun s => [s]) = t.words w := by
    simp only [List.flatMap_singleton', List.flatMap_id', flatten_rows]
  rwa [hflat] at hrows

theorem toList_ne_nil_of_mem_words (h : t.OnCircle) {s : String} (hs : s ∈ t.words w) :
    s.toList ≠ [] := by
  have hlength := forall_mem_words (P := fun s => s.toList.length = t.wordBits w * 2)
    (fun i hi => length_word (h i hi) w) s hs
  have hpos := t.wordBits_pos w
  intro hnil
  rw [hnil, List.length_nil] at hlength
  omega

theorem scan_contents (h : t.OnCircle) (w : WordWidth) :
    scan (t.contents w).toList = [.mark ','].intercalate ((t.words w).map literal) := by
  have hliteral : ∀ s ∈ t.words w, scan ("\"" ++ s ++ "\"").toList = literal s := by
    intro s hs
    apply scan_literal (toList_ne_nil_of_mem_words h hs)
    rw [List.all_eq_true]
    intro c hc
    rcases isBinary_of_mem_words hs c hc with rfl | rfl
    · rfl
    · rfl
  have hrow : ∀ row ∈ t.rows w,
      scan ("\t\t\t" ++ ", ".intercalate (row.map fun s => "\"" ++ s ++ "\"")).toList =
        [.mark ','].intercalate (row.map literal) := by
    intro row hrow
    rw [String.toList_append, scan_append (Or.inl (by decide)), scan_intercalate (by decide),
      List.map_map]
    have hmap := List.map_congr_left fun s hs => hliteral s (mem_words_of_mem_rows hrow hs)
    exact congrArg [Token.mark ','].intercalate hmap
  have hrows : ∀ row ∈ (t.rows w).map (List.map literal), row ≠ [] := by
    intro row hmem
    obtain ⟨r, hr, rfl⟩ := List.mem_map.1 hmem
    exact List.map_eq_nil_iff.not.2 (ne_nil_of_mem_rowsOf _ hr)
  calc scan (t.contents w).toList
      = [.mark ','].intercalate ((t.rows w).map fun row =>
          [.mark ','].intercalate (row.map literal)) := by
        rw [contents_eq, scan_intercalate (by decide), List.map_map]
        exact congrArg [Token.mark ','].intercalate (List.map_congr_left hrow)
    _ = [.mark ','].intercalate ((t.rows w).map (List.map literal)).flatten := by
        rw [← intercalate_flatten hrows, List.map_map]
        rfl
    _ = [.mark ','].intercalate ((t.words w).map literal) := by
        rw [← List.map_flatten, flatten_rows]

end SampledTable
end StreamingFft
