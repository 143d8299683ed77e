import StreamingFft.Proofs.TwiddleTable.Contents
import StreamingFft.Proofs.TwiddleTable.Widths
import StreamingFft.Proofs.Vhdl.Items
import StreamingFft.Proofs.Vhdl.Signals
/-!
A table and the text of its module. Contents, declared sizes and digests are written by separate
functions; read back from the text, they are those of one table, for every list of widths that is
accepted.
-/
namespace StreamingFft
open Vhdl Token

theorem all_isWordChar_hex (cv : Blake3.ChainingValue) :
    (Blake3.hex cv).toList.all isWordChar = true := by
  have hdigit : ∀ b < 16, isWordChar (Nat.digitChar b) = true := by decide
  rw [Blake3.hex, String.toList_ofList, List.all_eq_true]
  intro c hc
  obtain ⟨_, _, hc⟩ := List.mem_flatMap.1 hc
  obtain ⟨_, _, hc⟩ := List.mem_flatMap.1 hc
  rcases List.mem_pair.1 hc with rfl | rfl
  · exact hdigit _ (Nat.mod_lt _ (by decide))
  · exact hdigit _ (Nat.mod_lt _ (by decide))

namespace TwiddleTable
variable (t : TwiddleTable)

/-- The comment on the sizes, behind its hyphens. -/
def sizeNote : String :=
  " minor table of " ++ Nat.repr t.size ++ " entries for a transform of size " ++ Nat.repr t.modulus

theorem yields_preamble :
    Yields t.preamble ["--" ++ " read delay is 2 cycles", "--" ++ t.sizeNote] [] [] := by
  have hlibraries : Yields
      "\nlibrary ieee;\nlibrary work;\nuse ieee.numeric_std.all;\nuse ieee.std_logic_1164.all;\n"
      [] [] [] := .of_inert (by decide) (by decide)
  have htypes : Yields "use work.fft_types.all;\n" [] [] [] := .of_inert (by decide) (by decide)
  have hdelay : Yields ("--" ++ " read delay is 2 cycles" ++ "\n") ["--" ++ " read delay is 2 cycles"]
      [] [] := .of_comment (by decide) (by decide)
  have hsize : Yields ("--" ++ t.sizeNote ++ "\n") ["--" ++ t.sizeNote] [] [] := by
    have hnote : ∀ c, c ∉ (" minor table of " ++ " entries for a transform of size ").toList →
        isWordChar c = false → c ∉ t.sizeNote.toList := by
      intro c hc hword
      rw [String.toList_append, List.mem_append, not_or] at hc
      unfold sizeNote
      simp only [String.toList_append, List.mem_append, not_or]
      exact ⟨⟨⟨hc.1, notMem_repr hword _⟩, hc.2⟩, notMem_repr hword _⟩
    exact .of_comment (hnote '\n' (by decide) rfl) (hnote '"' (by decide) rfl)
  -- in front of the sizes, hyphens and note are one literal
  have hdelayText : "--" ++ " read delay is 2 cycles" ++ "\n" =
      s!"-- read delay is {readDelay} cycles\n" := by decide
  have hsizeText : "--" ++ t.sizeNote ++ "\n" =
      s!"-- minor table of {t.size} entries for a transform of size {t.modulus}\n" := by
    have hstart : "-- minor table of " = "--" ++ " minor table of " := by decide
    change _ = "-- minor table of " ++ Nat.repr t.size ++ " entries for a transform of size " ++
      Nat.repr t.modulus ++ "\n"
    unfold sizeNote
    rw [hstart]
    simp only [String.append_assoc]
  rw [hdelayText] at hdelay
  rw [hsizeText] at hsize
  exact ((hlibraries.append htypes).append hdelay).append hsize

/-- The name stands in lines that yield nothing. -/
theorem yields_named {a b : String} (ha : ∀ c ∈ a.toList, c ∉ [':', '-', '"'])
    (hb : ∀ c ∈ b.toList, c ∉ [':', '-', '"']) (hsep : IsSeparator b.toList) :
    Yields (a ++ t.entityName ++ b) [] [] [] := by
  have hword : t.entityName.toList.all isWordChar = true := by
    have hname : t.entityName = "twiddleGeneratorPartial" ++ Nat.repr t.size := rfl
    rw [hname, String.toList_append, List.all_append, Nat.toList_repr, all_isWordChar_toDigits,
      Bool.and_true]
    decide
  have hmarks : ∀ c ∈ [':', '-', '"'], isWordChar c = false := by decide
  have hname : ∀ c ∈ t.entityName.toList, c ∉ [':', '-', '"'] := fun c hc hmark =>
    notMem_of_isWordChar (hmarks c hmark) hword hc
  apply Yields.of_notMem
  · simp only [String.toList_append, List.forall_mem_append]
    exact ⟨⟨ha, hname⟩, hb⟩
  · rw [String.toList_append, endsInWord_append hsep.ne_nil]
    exact hsep.stop

/-- The generic has a default like a constant, but it is none. -/
theorem yields_generic : Yields "\tgeneric(twBits: integer := 17);\n" [] [] [] := by
  have hname : scan "\tgeneric(twBits".toList =
      [.word "generic".toList, .mark '(', .word "twBits".toList] := by decide
  have hvalue : scan "integer := 17);\n".toList =
      integerWord :: scan ":= 17);\n".toList := by decide
  have hfound : ∀ before ts, readItem ((scan "\tgeneric(twBits".toList).reverse ++ before)
      (scan "integer := 17);\n".toList ++ ts) = none := by
    intro before ts
    rw [hname, hvalue]
    rfl
  have hcode : Lines readItem "\tgeneric(twBits: integer := 17);\n" [] :=
    ⟨.colon (by decide) (brings_of_inert (by decide)) hfound (by decide : IsSeparator ": ".toList)
      (by decide), by decide⟩
  exact .of_code hcode (by decide) (.of_notMem (by decide))

theorem yields_entityText : Yields t.entityText [] [] [] := by
  have hentity : Yields ("\nentity " ++ t.entityName ++ " is\n") [] [] [] :=
    t.yields_named (by decide) (by decide) (by decide)
  have hclock : Yields "\tport(clk: in std_logic;\n" [] [] [] := .of_inert (by decide) (by decide)
  have haddress : Yields ("\t\t\ttwAddr: in unsigned(" ++ Nat.repr t.depth ++ "-1 downto 0);\n")
      [] [] [] := .of_number (by decide) (by decide) _ (by decide) (by decide)
  have hdata : Yields "\t\t\ttwData: out complex\n" [] [] [] := .of_inert (by decide) (by decide)
  have hclose : Yields "\t\t\t);\n" [] [] [] := .of_inert (by decide) (by decide)
  have hend : Yields "end entity;\n" [] [] [] := .of_inert (by decide) (by decide)
  exact (((((hentity.append yields_generic).append hclock).append haddress).append hdata).append
    hclose).append hend

/-- The width of a word as an expression. -/
def width : Expr :=
  .mul (if t.reduced then .name "twBits" else .add (.name "twBits") (.nat 1)) (.nat 2)

theorem value_width {w : WordWidth} {σ : String → Int} (hσ : σ "twBits" = w.bits) :
    t.width.value σ = (t.wordBits w * 2 : Nat) := by
  unfold width wordBits
  split
  · simp only [Expr.value, hσ]
    rfl
  · simp only [Expr.value, hσ]
    rfl

theorem yields_constants :
    Yields t.constants []
      [.constant "romDepthOrder" (some (.nat t.depth)), .constant "romDepth" none,
        .constant "romWidth" (some t.width)] [] := by
  have hdepth : Yields ("\tconstant romDepthOrder: integer := " ++ Nat.repr t.depth ++ ";\n") []
      [.constant "romDepthOrder" (some (.nat t.depth))] [] := by
    have hname : "\tconstant " ++ "romDepthOrder" ++ ": integer := " =
        "\tconstant romDepthOrder: integer := " := by decide
    apply Yields.constant (by decide) (plain_repr t.depth) (notMem_repr rfl _) (notMem_repr rfl _)
    · rw [hname]
    · rw [Nat.toList_repr, scan_toDigits, readValue, number?_toDigits]
      rfl
  have hsize : Yields "\tconstant romDepth: integer := 2**romDepthOrder;\n" []
      [.constant "romDepth" none] [] :=
    .constant (by decide) (by decide : Plain "2**romDepthOrder") (by decide) (by decide)
      (by decide +kernel) (by decide +kernel)
  have hwidth : Yields ("\tconstant romWidth: integer := (" ++ t.widthExpression ++ ")*2;\n") []
      [.constant "romWidth" (some t.width)] [] := by
    unfold widthExpression width
    split
    · exact .constant (by decide) (by decide : Plain "(twBits)*2") (by decide) (by decide)
        (by decide +kernel) (by decide +kernel)
    · exact .constant (by decide) (by decide : Plain "(twBits + 1)*2") (by decide) (by decide)
        (by decide +kernel) (by decide +kernel)
  exact (hdepth.append hsize).append hwidth

theorem yields_memoryText : Yields memoryText ["--ram"] [] [] := by
  have htab : Yields "\t" [] [] [] := .of_inert (by decide) (by decide)
  have hnote : Yields ("--" ++ "ram" ++ "\n") ["--ram"] [] [] := .of_comment (by decide) (by decide)
  have htext : "\t" ++ ("--" ++ "ram" ++ "\n") = "\t--ram\n" := by decide
  have hram : Yields "\t--ram\n" ["--ram"] [] [] := htext ▸ htab.append hnote
  unfold memoryText
  iterate 10 refine Yields.line ?_ (by decide) (by decide)
  exact hram

end TwiddleTable

namespace SampledTable

/-- The comment with the digest for one width. -/
def digestNote (t : SampledTable) (w : WordWidth) : String :=
  "-- twBits=" ++ Nat.repr w.bits ++ " contents: blake3 " ++ t.fingerprint w

theorem yields_digestLine (t : SampledTable) (w : WordWidth) :
    Yields (t.digestLine w) [t.digestNote w] [] [] := by
  have hnote : ∀ c, c ∉ (" twBits=" ++ " contents: blake3 ").toList → isWordChar c = false →
      c ∉ (" twBits=" ++ (Nat.repr w.bits ++ (" contents: blake3 " ++ t.fingerprint w))).toList := by
    intro c hc hword
    simp only [String.toList_append, List.mem_append, not_or] at hc ⊢
    exact ⟨hc.1, notMem_repr hword _, hc.2, notMem_of_isWordChar hword (all_isWordChar_hex _)⟩
  have h := Yields.of_comment (hnote '\n' (by decide) rfl) (hnote '"' (by decide) rfl)
  have hstart : "-- twBits=" = "--" ++ " twBits=" := by decide
  have hline : t.digestLine w = t.digestNote w ++ "\n" := rfl
  rw [hline]
  unfold digestNote
  rw [hstart]
  simpa only [String.append_assoc] using h

theorem words_ne_nil (t : SampledTable) (w : WordWidth) : t.words w ≠ [] := by
  apply List.ne_nil_of_length_pos
  rw [t.length_words]
  exact Nat.two_pow_pos t.depth

theorem yields_variant {t : SampledTable} (h : t.OnCircle) (w : WordWidth) :
    Yields (t.variant w) [] [.block (some ⟨"g" ++ Nat.repr w.bits, w.bits, t.words w⟩)]
      (t.words w) := by
  have htext : t.variant w = "\n" ++ ("g" ++ Nat.repr w.bits) ++ ":\n\tif twBits = " ++
      Nat.repr w.bits ++ " generate\n\t\trom <= (\n" ++ t.contents w ++
      ");\n\tend generate;\n" := by
    have hstart : "\ng" = "\n" ++ "g" := by decide
    change "\ng" ++ Nat.repr w.bits ++ ":\n\tif twBits = " ++ Nat.repr w.bits ++
      " generate\n\t\trom <= (\n" ++ t.contents w ++ ");\n\tend generate;\n" = _
    rw [hstart]
    simp only [String.append_assoc]
  have hlabel : IsName ("g" ++ Nat.repr w.bits) := .append_repr (by decide) w.bits
  have hcode := lines_block hlabel w.bits (t.words_ne_nil w) (scan_contents h w)
    (t.notMem_contents w (by decide))
  -- around the contents there are no marks that matter
  have hopen : ∀ c, isWordChar c = false →
      c ∉ ("\n" ++ "g" ++ ":\n\tif twBits = " ++ " generate\n\t\trom <= (\n").toList →
        c ∉ ("\n" ++ ("g" ++ Nat.repr w.bits) ++ ":\n\tif twBits = " ++ Nat.repr w.bits ++
          " generate\n\t\trom <= (\n").toList := by
    intro c hword hc
    simp only [String.toList_append, List.mem_append, not_or] at hc ⊢
    exact ⟨⟨⟨⟨hc.1.1.1, hc.1.1.2, notMem_repr hword _⟩, hc.1.2⟩, notMem_repr hword _⟩, hc.2⟩
  have happart : Parts (t.variant w) (t.variant w) [] := by
    rw [htext]
    exact ((Parts.of_notMem (hopen '-' rfl (by decide))).append
      (.of_notMem (t.notMem_contents w (by decide)))).append (.of_notMem (by decide))
  have hquotes : Quotes (t.variant w) ([] ++ t.words w ++ []) := by
    rw [htext]
    exact ((Quotes.of_notMem (hopen '"' rfl (by decide))).append (t.quotes_contents w)).append
      (.of_notMem (by decide))
  rw [List.nil_append, List.append_nil] at hquotes
  exact ⟨⟨_, happart, htext ▸ hcode⟩, hquotes⟩

/-- A table in the text of its module: the sizes of the memory, a block of words for each width, and a
digest of each block. -/
structure Carries (t : SampledTable) (ws : List WordWidth) (text : String) (depth : Nat)
    (width : Expr) : Prop where
  /-- The blocks follow the order of the widths; nothing else is declared but three constants. -/
  items : items (code text) =
    .constant "romDepthOrder" (some (.nat depth)) :: .constant "romDepth" none ::
      .constant "romWidth" (some width) ::
        ws.map fun w => .block (some ⟨"g" ++ Nat.repr w.bits, w.bits, t.words w⟩)
  /-- Quoted are the words of the blocks and nothing else. -/
  literals : quoted text = ws.flatMap t.words
  size : t.size = 2 ^ depth ∧ ∀ w ∈ ws, (t.words w).length = t.size
  bits : ∀ w ∈ ws, ∀ σ : String → Int, σ "twBits" = w.bits →
    ∀ s ∈ t.words w, IsBinary s.toList ∧ width.value σ = s.toList.length
  digests : (comments text).filter (fun c => "-- twBits=".toList.isPrefixOf c.toList) =
    ws.map fun w => "-- twBits=" ++ Nat.repr w.bits ++ " contents: blake3 " ++
      Blake3.hex (Blake3.digest (String.join ((t.words w).map (· ++ "\n"))).toUTF8.toList)

theorem yields_moduleText {t : SampledTable} (h : t.OnCircle) (ws : List WordWidth) :
    Yields (t.moduleText ws)
      (["-- read delay is 2 cycles", "--" ++ t.sizeNote] ++ ws.map t.digestNote ++ ["--ram"])
      ([.constant "romDepthOrder" (some (.nat t.depth)), .constant "romDepth" none,
        .constant "romWidth" (some t.width)] ++
          ws.map fun w => .block (some ⟨"g" ++ Nat.repr w.bits, w.bits, t.words w⟩))
      (ws.flatMap t.words) := by
  have hdigests := Yields.join fun w (_ : w ∈ ws) => t.yields_digestLine w
  have hvariants := Yields.join fun w (_ : w ∈ ws) => yields_variant h w
  have hbody : Yields ("architecture a of " ++ t.entityName ++ " is\n") [] [] [] :=
    t.yields_named (by decide) (by decide) (by decide)
  have hframe : Yields t.frame ([] ++ [] ++ [] ++ ["--ram"]) _ ([] ++ [] ++ [] ++ []) :=
    ((t.yields_entityText.append hbody).append t.yields_constants).append
      TwiddleTable.yields_memoryText
  have hend : Yields "\nend a;\n" [] [] [] := .of_inert (by decide) (by decide)
  have hmodule := (((t.yields_preamble.append hdigests).append hframe).append hvariants).append hend
  have hnone : ∀ {α : Type}, ws.flatMap (fun _ => ([] : List α)) = [] := by simp
  simp only [hnone, ← List.map_eq_flatMap, List.append_nil, List.nil_append] at hmodule
  exact hmodule

/-- What the comments with digests start with. -/
def digestStart : List Char := "-- twBits=".toList

theorem filter_digestStart (t : SampledTable) (ws : List WordWidth) :
    (["-- read delay is 2 cycles", "--" ++ t.sizeNote] ++ ws.map t.digestNote ++ ["--ram"]).filter
      (fun c => digestStart.isPrefixOf c.toList) = ws.map t.digestNote := by
  have hsize : digestStart.isPrefixOf ("--" ++ t.sizeNote).toList = false := by
    unfold TwiddleTable.sizeNote
    simp only [String.toList_append]
    rfl
  have hdelay : digestStart.isPrefixOf "-- read delay is 2 cycles".toList = false := by decide
  have hram : digestStart.isPrefixOf "--ram".toList = false := by decide
  have hdigest : ∀ c ∈ ws.map t.digestNote, digestStart.isPrefixOf c.toList = true := by
    intro c hc
    obtain ⟨w, _, rfl⟩ := List.mem_map.1 hc
    rw [List.isPrefixOf_iff_prefix]
    unfold digestNote
    simp only [String.toList_append, List.append_assoc]
    exact List.prefix_append _ _
  rw [List.filter_append, List.filter_append, List.filter_eq_self.2 hdigest]
  simp only [List.filter_cons, List.filter_nil, hdelay, hsize, hram, Bool.false_eq_true, if_false,
    List.nil_append, List.append_nil]

theorem carries_moduleText {t : SampledTable} (h : t.OnCircle) (ws : List WordWidth) :
    t.Carries ws (t.moduleText ws) t.depth t.width := by
  have hmodule := yields_moduleText h ws
  constructor
  case items => exact hmodule.items_eq
  case literals => exact hmodule.quoted_eq
  case size => exact ⟨rfl, fun w _ => t.length_words w⟩
  case bits =>
    intro w _ σ hσ s hs
    refine ⟨isBinary_of_mem_words hs, ?_⟩
    have hlength := forall_mem_words (P := fun s => s.toList.length = t.wordBits w * 2)
      (fun i hi => length_word (h i hi) w) s hs
    rw [hlength, t.value_width hσ]
  case digests =>
    rw [hmodule.comments_eq]
    exact t.filter_digestStart ws

/-- Every accepted request for widths is answered with a module that carries the table. -/
theorem render_carries {t : SampledTable} (h : t.OnCircle) {widths : List Nat} {ws : List WordWidth}
    (hws : WordWidth.ofList widths = .ok ws) :
    ∃ text depth width, t.render widths = .ok text ∧ ws.map WordWidth.bits = widths ∧
      widths.Nodup ∧ t.Carries ws text depth width := by
  obtain ⟨hmap, _, hnodup⟩ := WordWidth.ofList_eq_ok_iff.1 hws
  refine ⟨t.moduleText ws, t.depth, t.width, ?_, hmap, hnodup, carries_moduleText h ws⟩
  rw [render, hws]
  rfl

/-- The first two eighths of a turn, sampled from doubles nearest to their coordinates. -/
def eighths : SampledTable where
  depth := 1
  modulus := 8
  reduced := false
  depth_pos := Nat.le_refl 1
  modulus_pos := Nat.zero_lt_succ 7
  quarter_dvd := by decide
  point
    | 0 => ⟨.ofBits 0x3FF0000000000000, .ofBits 0⟩
    | _ => ⟨.ofBits 0x3FE6A09E667F3BCD, .ofBits 0x3FE6A09E667F3BCC⟩

def narrow : WordWidth := ⟨2, by decide, by decide⟩

def wide : WordWidth := ⟨12, by decide, by decide⟩

example : eighths.words narrow = ["000010", "001001"] := by decide +kernel

theorem render_carries_eighths :
    ∃ text depth width, eighths.render [12, 2] = .ok text ∧
      [wide, narrow].map WordWidth.bits = [12, 2] ∧ [12, 2].Nodup ∧
        eighths.Carries [wide, narrow] text depth width := by
  have hpoints : eighths.OnCircle := by decide +kernel
  exact render_carries hpoints rfl

end SampledTable
end StreamingFft
