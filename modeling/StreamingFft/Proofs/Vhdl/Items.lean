import StreamingFft.Proofs.Vhdl.Colon
import StreamingFft.Proofs.Vhdl.Comment
import StreamingFft.Proofs.Vhdl.Literal
import StreamingFft.Proofs.Vhdl.Reading
/-!
What a memory is declared with: constants, and blocks that fill it where a generic has a given value.
Both have a colon behind their name. They are read from the code of a text, whose comments and literals
are found beside them.
-/
namespace StreamingFft.Vhdl
open Token

/-- A block that is generated where `twBits` equals the guard; it assigns literals to the memory. -/
structure Block where
  label : String
  guard : Nat
  literals : List String
deriving DecidableEq, Repr

inductive Item where
  /-- An integer; its value is an expression if it is one that is read. -/
  | constant (name : String) (value : Option Expr)
  /-- Anything that is generated under a condition, and the block that it is, if it has that form. -/
  | block (found : Option Block)
deriving DecidableEq, Repr

def ifWord : Token := .word "if".toList

def integerWord : Token := .word "integer".toList

/-- What stands behind the literals of a block. -/
def blockEnd : List Token := scan "); end generate;".toList

/-- Reads a block behind its `if`. -/
def readBlock : List Token → List Token → Option Block
  | .word l :: _, .word v :: .mark '=' :: .word n :: .word g :: .word m :: .mark '<' :: .mark '=' ::
      .mark '(' :: ts =>
    if v = "twBits".toList ∧ g = "generate".toList ∧ m = "rom".toList then
      match number? n, readLiterals ts with
      | some n, some (ws, rest) =>
        if blockEnd <+: rest then some ⟨String.ofList l, n, ws⟩ else none
      | _, _ => none
    else none
  | _, _ => none

/-- Reads a number, or a multiple of an expression in parentheses. -/
def readValue : List Token → Option Expr
  | [.word n] => (number? n).map .nat
  | .mark '(' :: ts =>
    match readExpr ts with
    | some (e, [.mark ')', .mark '*', .word n]) => (number? n).map fun n => .mul e (.nat n)
    | _ => none
  | _ => none

/-- Reads a constant behind its type. -/
def readConstant : List Token → List Token → Option Item
  | .word v :: .word c :: _, .mark ':' :: .mark '=' :: ts =>
    if c = "constant".toList then
      some (.constant (String.ofList v) (readValue (ts.takeWhile (· != .mark ';'))))
    else none
  | _, _ => none

def readItem (before : List Token) : List Token → Option Item
  | t :: ts =>
    if t = ifWord then some (.block (readBlock before ts))
    else if t = integerWord then readConstant before ts
    else none
  | [] => none

/-- The constants and blocks of a text, in their order. -/
def items (text : String) : List Item := readColons readItem [] (scan text.toList)

theorem readItem_eq_none {before : List Token} {t : Token} {ts : List Token}
    (ht : t ∉ [ifWord, integerWord]) : readItem before (t :: ts) = none := by
  simp only [List.mem_cons, List.not_mem_nil, or_false, not_or] at ht
  rw [readItem, if_neg ht.1, if_neg ht.2]

section Constants
variable {v value : String}

theorem scan_assigned (value : String) :
    scan ("= " ++ value ++ ";\n").toList = .mark '=' :: (scan value.toList ++ [.mark ';']) := by
  rw [String.toList_append, String.toList_append, scan_append (Or.inr (by decide)),
    scan_append (Or.inl (by decide))]
  rfl

/-- The text of a constant behind its name. -/
theorem scan_typed (value : String) :
    scan ("integer " ++ ":" ++ ("= " ++ value ++ ";\n")).toList =
      integerWord :: .mark ':' :: .mark '=' :: (scan value.toList ++ [.mark ';']) := by
  rw [String.toList_append, scan_append (Or.inl (by decide)), scan_assigned]
  rfl

theorem brings_typedValue (hvalue : Plain value) :
    Brings readItem ("integer " ++ ":" ++ ("= " ++ value ++ ";\n")) [] := by
  have hcolon : .mark ':' ∉ scan value.toList := hvalue.mark_notMem (by decide)
  apply Brings.skip (by decide) _ _ (by decide) (by decide)
  · apply Brings.of_notMem
    rw [scan_assigned]
    simp [hcolon]
  · rw [scan_assigned]
    exact ⟨.mark '=', rfl, fun _ _ => readItem_eq_none (by decide)⟩

theorem readItem_constant (v : String) (hvalue : Plain value) (before ts : List Token) :
    readItem (.word v.toList :: .word "constant".toList :: before)
      (integerWord :: .mark ':' :: .mark '=' :: (scan value.toList ++ .mark ';' :: ts)) =
        some (.constant v (readValue (scan value.toList))) := by
  have htake : (scan value.toList ++ .mark ';' :: ts).takeWhile (· != .mark ';') =
      scan value.toList := by
    have hbefore : ∀ t ∈ scan value.toList, (t != .mark ';') = true := fun t ht =>
      bne_iff_ne.2 fun heq => hvalue.mark_notMem (by decide) (heq ▸ ht)
    rw [List.takeWhile_append_of_pos hbefore, List.takeWhile_cons_of_neg (by decide),
      List.append_nil]
  rw [readItem, if_neg (by decide), if_pos rfl, readConstant, if_pos rfl, htake,
    String.ofList_toList]

theorem lines_constant (hv : IsName v) (hvalue : Plain value) :
    Lines readItem ("\tconstant " ++ v ++ ": integer := " ++ value ++ ";\n")
      [.constant v (readValue (scan value.toList))] := by
  have hname : scan ("\tconstant " ++ v).toList = [.word "constant".toList, .word v.toList] := by
    rw [String.toList_append, scan_append (Or.inl (by decide)), hv.scan]
    rfl
  have hcolon : .mark ':' ∉ scan ("\tconstant " ++ v).toList := by
    rw [hname]
    simp
  have hfound : ∀ before ts,
      readItem ((scan ("\tconstant " ++ v).toList).reverse ++ before)
        (scan ("integer " ++ ":" ++ ("= " ++ value ++ ";\n")).toList ++ ts) =
          some (.constant v (readValue (scan value.toList))) := by
    intro before ts
    rw [hname, scan_typed]
    simp only [List.cons_append, List.append_assoc, List.nil_append]
    exact readItem_constant v hvalue before ts
  have h : Brings readItem _ [.constant v (readValue (scan value.toList))] :=
    .colon hcolon (brings_typedValue hvalue) hfound (by decide : IsSeparator ": ".toList) (by decide)
  have htext : ": integer := " = ": " ++ ("integer " ++ ":" ++ "= ") := by decide
  constructor
  · rw [htext]
    simpa only [String.append_assoc] using h
  · rw [String.toList_append, endsInWord_append (by decide)]
    decide

end Constants

section Blocks
variable {label contents : String} {ws : List String}

/-- The text of a block behind its label. -/
theorem scan_guarded (n : Nat)
    (hcontents : scan contents.toList = [.mark ','].intercalate (ws.map literal)) :
    scan ("if twBits = " ++ Nat.repr n ++ " generate\n\t\trom <= (\n" ++ contents ++
      ");\n\tend generate;\n").toList =
        ifWord :: .word "twBits".toList :: .mark '=' :: .word (Nat.toDigits 10 n) ::
          .word "generate".toList :: .word "rom".toList :: .mark '<' :: .mark '=' :: .mark '(' ::
            ([.mark ','].intercalate (ws.map literal) ++ blockEnd) := by
  have hopen : IsSeparator " generate\n\t\trom <= (\n".toList := by decide
  simp only [String.toList_append]
  rw [scan_append (Or.inr (by decide)), scan_around _ _ hopen, scan_append (Or.inl (by decide)),
    Nat.toList_repr, scan_toDigits, hcontents]
  simp only [List.append_assoc]
  rfl

theorem readItem_block (label : String) (n : Nat) (hne : ws ≠ []) (before ts : List Token) :
    readItem (.word label.toList :: before)
      (ifWord :: .word "twBits".toList :: .mark '=' :: .word (Nat.toDigits 10 n) ::
        .word "generate".toList :: .word "rom".toList :: .mark '<' :: .mark '=' :: .mark '(' ::
          ([.mark ','].intercalate (ws.map literal) ++ (blockEnd ++ ts))) =
      some (.block (some ⟨label, n, ws⟩)) := by
  have hhead : (blockEnd ++ ts).head? ≠ some (.mark ',') := by
    have hclose : blockEnd.head? = some (.mark ')') := by decide
    rw [List.head?_append, hclose, Option.some_or]
    decide
  rw [readItem, if_pos rfl, readBlock, if_pos ⟨rfl, rfl, rfl⟩, number?_toDigits,
    readLiterals_intercalate hne hhead]
  dsimp only
  rw [if_pos (List.prefix_append blockEnd ts), String.ofList_toList]

theorem lines_block (hlabel : IsName label) (n : Nat) (hne : ws ≠ [])
    (hcontents : scan contents.toList = [.mark ','].intercalate (ws.map literal))
    (hcolon : ':' ∉ contents.toList) :
    Lines readItem ("\n" ++ label ++ ":\n\tif twBits = " ++ Nat.repr n ++
        " generate\n\t\trom <= (\n" ++ contents ++ ");\n\tend generate;\n")
      [.block (some ⟨label, n, ws⟩)] := by
  have hname : scan ("\n" ++ label).toList = [.word label.toList] := by
    rw [String.toList_append, scan_append (Or.inl (by decide)), hlabel.scan]
    rfl
  have hnone : .mark ':' ∉ scan ("\n" ++ label).toList := by
    rw [hname]
    simp
  have hbehind : Brings readItem ("if twBits = " ++ Nat.repr n ++ " generate\n\t\trom <= (\n" ++
      contents ++ ");\n\tend generate;\n") [] := by
    refine .of_notMem fun h => absurd (mem_of_mark_mem_scan h) ?_
    simp only [String.toList_append, List.mem_append, not_or]
    exact ⟨⟨⟨⟨by decide, notMem_repr rfl n⟩, by decide⟩, hcolon⟩, by decide⟩
  have hfound : ∀ before ts,
      readItem ((scan ("\n" ++ label).toList).reverse ++ before)
        (scan ("if twBits = " ++ Nat.repr n ++ " generate\n\t\trom <= (\n" ++ contents ++
          ");\n\tend generate;\n").toList ++ ts) = some (.block (some ⟨label, n, ws⟩)) := by
    intro before ts
    rw [hname, scan_guarded n hcontents]
    simp only [List.cons_append, List.append_assoc]
    exact readItem_block label n hne before ts
  have h : Brings readItem _ [.block (some ⟨label, n, ws⟩)] :=
    .colon hnone hbehind hfound (by decide : IsSeparator ":\n\t".toList) (by decide)
  have htext : ":\n\tif twBits = " = ":\n\t" ++ "if twBits = " := by decide
  constructor
  · rw [htext]
    simpa only [String.append_assoc] using h
  · rw [String.toList_append, endsInWord_append (by decide)]
    decide

end Blocks

/-- Text without comments, literals, and colons at which anything is found. -/
def inert (cs : List Char) : Bool :=
  quiet [ifWord, integerWord] (scan cs) && apart cs && !cs.contains '"'

section Inert
variable {cs : List Char} (h : inert cs = true)
include h

-- a literal is unified with the text, so that its characters are there for evaluation
theorem brings_of_inert : Brings readItem (String.ofList cs) [] := by
  rw [inert, Bool.and_eq_true, Bool.and_eq_true] at h
  refine .of_quiet (fun _ _ _ => readItem_eq_none) ?_
  rw [String.toList_ofList]
  exact h.1.1

theorem parts_of_inert : Parts (String.ofList cs) (String.ofList cs) [] := by
  rw [inert, Bool.and_eq_true, Bool.and_eq_true] at h
  apply Parts.of_apart
  rw [String.toList_ofList]
  exact h.1.2

theorem quotes_of_inert : Quotes (String.ofList cs) [] := by
  rw [inert, Bool.and_eq_true, Bool.not_eq_true', ← Bool.not_eq_true, List.contains_iff_mem] at h
  apply Quotes.of_notMem
  rw [String.toList_ofList]
  exact h.2

end Inert

/-- Whatever lines stand around the text, it adds these comments, items of its code, and literals. -/
structure Yields (text : String) (cs : List String) (xs : List Item) (ws : List String) : Prop where
  code : ∃ kept, Parts text kept cs ∧ Lines readItem kept xs
  quotes : Quotes text ws

namespace Yields
variable {a b : String} {cs ds : List String} {xs ys : List Item} {us vs : List String}

theorem comments_eq (h : Yields a cs xs us) : comments a = cs := by
  obtain ⟨_, hparts, _⟩ := h.code
  exact hparts.comments_eq

theorem items_eq (h : Yields a cs xs us) : items (Vhdl.code a) = xs := by
  obtain ⟨_, hparts, hlines⟩ := h.code
  rw [hparts.code_eq]
  exact hlines.readColons_eq

theorem quoted_eq (h : Yields a cs xs us) : quoted a = us := h.quotes.quoted_eq

theorem append (ha : Yields a cs xs us) (hb : Yields b ds ys vs) :
    Yields (a ++ b) (cs ++ ds) (xs ++ ys) (us ++ vs) where
  code := by
    obtain ⟨ka, hpa, hla⟩ := ha.code
    obtain ⟨kb, hpb, hlb⟩ := hb.code
    exact ⟨ka ++ kb, hpa.append hpb, hla.append hlb⟩
  quotes := ha.quotes.append hb.quotes

theorem of_code (hcode : Lines readItem a xs) (h : apart a.toList = true) (hquotes : Quotes a us) :
    Yields a [] xs us :=
  ⟨⟨a, .of_apart h, hcode⟩, hquotes⟩

/-- Text without the characters that matter. -/
theorem of_notMem (h : ∀ c ∈ a.toList, c ∉ [':', '-', '"']) (hstop : endsInWord a.toList = false) :
    Yields a [] [] [] := by
  have hcolon : .mark ':' ∉ scan a.toList := fun hmem => h _ (mem_of_mark_mem_scan hmem) (by decide)
  have hhyphen : '-' ∉ a.toList := fun hmem => h _ hmem (by decide)
  have hquote : '"' ∉ a.toList := fun hmem => h _ hmem (by decide)
  exact of_code ⟨.of_notMem hcolon, hstop⟩ (apart_of_notMem hhyphen) (.of_notMem hquote)

theorem of_inert {text : List Char} (h : inert text = true) (hstop : endsInWord text = false) :
    Yields (String.ofList text) [] [] [] where
  code := ⟨_, parts_of_inert h, brings_of_inert h, by rwa [String.toList_ofList]⟩
  quotes := quotes_of_inert h

/-- One more line that yields nothing. -/
theorem line {text : List Char} (ha : Yields a cs xs us) (h : inert text = true)
    (hstop : endsInWord text = false) : Yields (a ++ String.ofList text) cs xs us := by
  have hline := ha.append (of_inert h hstop)
  rwa [List.append_nil, List.append_nil, List.append_nil] at hline

/-- A number inside a line that yields nothing. -/
theorem of_number {start stop : List Char} (hstart : inert start = true)
    (hopen : endsInWord start = false) (n : Nat) (hstop : inert stop = true)
    (hsep : IsSeparator stop) :
    Yields (String.ofList start ++ Nat.repr n ++ String.ofList stop) [] [] [] := by
  have hnumber : Brings readItem (Nat.repr n) [] := .of_plain (plain_repr n)
  have hend : Brings readItem (Nat.repr n ++ String.ofList stop) [] := by
    apply hnumber.append (brings_of_inert hstop)
    rw [String.toList_ofList]
    exact Or.inr hsep.start
  have hcode : Brings readItem (String.ofList start ++ Nat.repr n ++ String.ofList stop) [] := by
    rw [String.append_assoc]
    apply (brings_of_inert hstart).append hend
    rw [String.toList_ofList]
    exact Or.inl hopen
  have hparts := ((parts_of_inert hstart).append (.of_notMem (notMem_repr rfl n))).append
    (parts_of_inert hstop)
  have hquotes := ((quotes_of_inert hstart).append (.of_notMem (notMem_repr rfl n))).append
    (quotes_of_inert hstop)
  refine ⟨⟨_, hparts, hcode, ?_⟩, hquotes⟩
  rw [String.toList_append, String.toList_ofList, endsInWord_append hsep.ne_nil]
  exact hsep.stop

theorem constant {text v value : String} {found : Option Expr} (hv : IsName v) (hvalue : Plain value)
    (hhyphen : '-' ∉ value.toList) (hquote : '"' ∉ value.toList)
    (htext : "\tconstant " ++ v ++ ": integer := " ++ value ++ ";\n" = text)
    (hfound : readValue (scan value.toList) = found) : Yields text [] [.constant v found] [] := by
  have hmark : ∀ c, isWordChar c = false → c ∉ ("\tconstant " ++ ": integer := " ++ ";\n").toList →
      c ∉ value.toList → c ∉ ("\tconstant " ++ v ++ ": integer := " ++ value ++ ";\n").toList := by
    intro c hc hclosed hopen
    simp only [String.toList_append, List.mem_append, not_or] at hclosed ⊢
    exact ⟨⟨⟨⟨hclosed.1.1, notMem_of_isWordChar hc hv.word⟩, hclosed.1.2⟩, hopen⟩, hclosed.2⟩
  rw [← htext, ← hfound]
  exact of_code (lines_constant hv hvalue) (apart_of_notMem (hmark '-' rfl (by decide) hhyphen))
    (.of_notMem (hmark '"' rfl (by decide) hquote))

theorem of_comment (hline : '\n' ∉ a.toList) (hquote : '"' ∉ a.toList) :
    Yields ("--" ++ a ++ "\n") ["--" ++ a] [] [] where
  code := ⟨"\n", .comment hline, .of_separator (by decide) (by decide)⟩
  quotes := by
    apply Quotes.of_notMem
    simp only [String.toList_append, List.mem_append, not_or]
    exact ⟨⟨by decide, hquote⟩, by decide⟩

theorem join {α : Type*} {text : α → String} {cs : α → List String} {xs : α → List Item}
    {us : α → List String} {l : List α} (h : ∀ x ∈ l, Yields (text x) (cs x) (xs x) (us x)) :
    Yields (String.join (l.map text)) (l.flatMap cs) (l.flatMap xs) (l.flatMap us) := by
  induction l with
  | nil => exact of_notMem nofun rfl
  | cons x l ih =>
    rw [List.forall_mem_cons] at h
    rw [List.map_cons, String.join_cons]
    exact h.1.append (ih h.2)

end Yields
end StreamingFft.Vhdl
