import StreamingFft.Proofs.Vhdl.Token
import StreamingFft.Vhdl.Declaration
import StreamingFft.Vhdl.Statement
/-!
Reading assignments back from text. Every statement ends in a semicolon; those that are no assignments
are passed over. What is read from the text of statements is just their assignments.
-/
namespace StreamingFft.Vhdl
open Token

/-- The value of a word of digits. -/
def number? (w : List Char) : Option Nat :=
  if w.all Char.isDigit = true ∧ w ≠ [] then some (Nat.ofDigitChars 10 w 0) else none

/-- Reads a vector, one of its bits, its lowest bits, or a vector of one bit. -/
def readFactor : List Token → Option (Expr × List Token)
  | .mark '(' :: .word ['0'] :: .mark '=' :: .mark '>' :: .word v :: .mark '(' :: .word i ::
      .mark ')' :: .mark ')' :: ts =>
    (number? i).map fun i => (.single (.bit (String.ofList v) i), ts)
  | .word v :: .mark '(' :: .word n :: .mark '-' :: .word ['1'] ::
      .word ['d', 'o', 'w', 'n', 't', 'o'] :: .word ['0'] :: .mark ')' :: ts =>
    (number? n).map fun n => (.low (String.ofList v) n, ts)
  | .word v :: .mark '(' :: .word i :: .mark ')' :: ts =>
    (number? i).map fun i => (.bit (String.ofList v) i, ts)
  | .word v :: ts => if (number? v).isNone then some (.name (String.ofList v), ts) else none
  | _ => none

/-- Reads on behind an operand; all operators have one rank and group to the left. -/
def readTail (e : Expr) : List Token → Option (Expr × List Token)
  | .mark '&' :: .word v :: .mark '(' :: .word i :: .mark ')' :: ts =>
    match number? i with
    | some i => readTail (.concat e (.bit (String.ofList v) i)) ts
    | none => none
  | .mark '-' :: .word d :: ts =>
    match number? d with
    | some d => readTail (.sub e (.nat d)) ts
    | none => none
  | .mark '+' :: .word d :: ts =>
    match number? d with
    | some d => readTail (.add e (.nat d)) ts
    | none => none
  | ts => some (e, ts)

def readExpr (ts : List Token) : Option (Expr × List Token) :=
  readFactor ts >>= fun r => readTail r.1 r.2

/-- The words that make an assignment wait for the clock. -/
def clockEdge : List Token := scan "when rising_edge(clk)".toList

/-- Reads the condition and the other value of a choice. -/
def readChoice (target : String) (taken : Expr) : List Token → Option Statement
  | .word w :: .word c :: .mark '(' :: .word i :: .mark ')' :: .mark '=' :: .mark '\'' ::
      .word ['1'] :: .mark '\'' :: .word l :: ts =>
    if w = "when".toList ∧ l = "else".toList then
      match number? i, readExpr ts with
      | some i, some (kept, []) => some (.choose target taken (String.ofList c) i kept)
      | _, _ => none
    else none
  | _ => none

/-- Reads a statement without its semicolon. -/
def readAssignment : List Token → Option Statement
  | .word t :: .mark '<' :: .mark '=' :: ts =>
    match readExpr ts with
    | none => none
    | some (e, rest) =>
      if rest = [] then some (.assign (String.ofList t) e)
      else if rest = clockEdge then some (.register (String.ofList t) e)
      else readChoice (String.ofList t) e rest
  | _ => none

/-- The assignments of a text, in their order. -/
def readAssignments (text : String) : List Statement :=
  ((scan text.toList).splitOn (.mark ';')).filterMap readAssignment

/-- What stands behind the number of bits in the type of a vector. -/
def bounds : List Token := scan "-1 downto 0)".toList

/-- Reads the name of a signal and its number of bits. -/
def readSignal : List Token → Option (String × Nat)
  | .word s :: .word v :: .mark ':' :: .word u :: .mark '(' :: .word n :: ts =>
    if s = "signal".toList ∧ u = "unsigned".toList ∧ ts = bounds then
      (number? n).map fun n => (String.ofList v, n)
    else none
  | _ => none

/-- The signals that a text declares with a number for their width. -/
def readSignals (text : String) : List (String × Nat) :=
  ((scan text.toList).splitOn (.mark ';')).filterMap readSignal

/-- A word that is no number. -/
structure IsName (s : String) : Prop where
  word : s.toList.all isWordChar = true
  not_number : s.toList.all Char.isDigit = false

instance (s : String) : Decidable (IsName s) :=
  decidable_of_iff (s.toList.all isWordChar = true ∧ s.toList.all Char.isDigit = false)
    ⟨fun h => ⟨h.1, h.2⟩, fun h => ⟨h.word, h.not_number⟩⟩

theorem number?_toDigits (n : Nat) : number? (Nat.toDigits 10 n) = some n := by
  have hdigits : (Nat.toDigits 10 n).all Char.isDigit = true :=
    List.all_eq_true.2 fun c hc => Nat.isDigit_of_mem_toDigits (by decide) (by decide) hc
  rw [number?, if_pos ⟨hdigits, Nat.toDigits_ne_nil⟩, Nat.ofDigitChars_ten_toDigits]

theorem scan_toDigits (n : Nat) : scan (Nat.toDigits 10 n) = [.word (Nat.toDigits 10 n)] :=
  scan_word Nat.toDigits_ne_nil (all_isWordChar_toDigits n)

theorem IsName.number? {s : String} (h : IsName s) : number? s.toList = none := by
  apply if_neg
  intro h
  rcases h with ⟨hall, _⟩
  rw [h.not_number] at hall
  cases hall

theorem IsName.ne_nil {s : String} (h : IsName s) : s.toList ≠ [] := by
  intro hnil
  have hall := h.not_number
  rw [hnil] at hall
  cases hall

theorem IsName.append {id s : String} (hid : id.toList.all isWordChar = true) (h : IsName s) :
    IsName (id ++ s) where
  word := by rw [String.toList_append, List.all_append, hid, h.word, Bool.and_self]
  not_number := by rw [String.toList_append, List.all_append, h.not_number, Bool.and_false]

theorem IsName.append_repr {s : String} (h : IsName s) (n : Nat) : IsName (s ++ Nat.repr n) where
  word := by
    rw [String.toList_append, List.all_append, h.word, Nat.toList_repr, all_isWordChar_toDigits,
      Bool.and_self]
  not_number := by rw [String.toList_append, List.all_append, h.not_number, Bool.false_and]

theorem IsName.scan {s : String} (h : IsName s) : scan s.toList = [.word s.toList] :=
  scan_word h.ne_nil h.word

/-- Nothing at all, or one clause with its semicolon, of which the reader makes `found`. -/
def IsClause {β : Type*} (read : List Token → Option β) (ts : List Token) (found : Option β) :
    Prop :=
  ts = [] ∧ found = none ∨ ∃ us, ts = us ++ [.mark ';'] ∧ .mark ';' ∉ us ∧ read us = found

/-- Clause by clause, the reader makes of the items what it makes of each. -/
theorem filterMap_splitOn {α β : Type*} {read : List Token → Option β}
    {tokens : α → List Token} {found : α → Option β} {xs : List α}
    (h : ∀ x ∈ xs, IsClause read (tokens x) (found x)) (ts : List Token) :
    ((xs.flatMap tokens ++ ts).splitOn (.mark ';')).filterMap read =
      xs.filterMap found ++ (ts.splitOn (.mark ';')).filterMap read := by
  induction xs with
  | nil => rfl
  | cons x xs ih =>
    have ih' := ih fun y hy => h y (List.mem_cons_of_mem x hy)
    rw [List.flatMap_cons, List.append_assoc]
    obtain ⟨hnil, hfound⟩ | ⟨us, hus, hsemi, hread⟩ := h x List.mem_cons_self
    · rw [hnil, List.nil_append, ih', List.filterMap_cons, hfound]
    · rw [hus, List.append_assoc, List.singleton_append,
        List.splitOn_append_cons_self_of_not_mem hsemi, List.filterMap_cons, hread, ih',
        List.filterMap_cons]
      cases found x <;> rfl

/-- The line ends of a list of lines leave only its words and marks. -/
theorem scan_join_lines {α : Type*} (text : α → String) (xs : List α) :
    scan (String.join (xs.map fun x => text x ++ "\n")).toList =
      xs.flatMap fun x => scan (text x).toList := by
  have hline : scan "\n".toList = [] := by decide
  induction xs with
  | nil => rfl
  | cons x xs ih =>
    rw [List.map_cons, String.join_cons, String.toList_append, String.toList_append,
      scan_around _ _ (by decide), hline, List.append_nil, ih,
      List.flatMap_cons]

namespace Expr

/-- Expressions that the reader knows: operands joined to the left, with names for vectors. -/
def Legible : Expr → Prop
  | name v => IsName v
  | bit v _ => IsName v
  | low v _ => IsName v
  | single (bit v _) => IsName v
  | concat a (bit v _) => a.Legible ∧ IsName v
  | add a (nat _) => a.Legible
  | sub a (nat _) => a.Legible
  | _ => False

theorem toList_text_bit (v : String) (i : Nat) :
    (bit v i).text.toList = v.toList ++ "(".toList ++ Nat.toDigits 10 i ++ ")".toList := by
  simp only [text, String.toList_append]
  rw [← Nat.toList_repr]
  rfl

theorem scan_text_bit {v : String} (hv : IsName v) (i : Nat) :
    Token.scan (bit v i).text.toList =
      [.word v.toList, .mark '(', .word (Nat.toDigits 10 i), .mark ')'] := by
  rw [toList_text_bit, scan_append (Or.inr (by decide)),
    scan_around _ _ (by decide), hv.scan, scan_toDigits]
  rfl

theorem scan_text_low {v : String} (hv : IsName v) (n : Nat) :
    Token.scan (low v n).text.toList =
      [.word v.toList, .mark '(', .word (Nat.toDigits 10 n), .mark '-', .word "1".toList,
        .word "downto".toList, .word "0".toList, .mark ')'] := by
  have htext : (low v n).text.toList =
      v.toList ++ "(".toList ++ Nat.toDigits 10 n ++ "-1 downto 0)".toList := by
    simp only [text, String.toList_append]
    rw [← Nat.toList_repr]
    rfl
  rw [htext, scan_append (Or.inr (by decide)),
    scan_around _ _ (by decide), hv.scan, scan_toDigits]
  rfl

theorem scan_text_single (e : Expr) :
    Token.scan (single e).text.toList =
      [.mark '(', .word "0".toList, .mark '=', .mark '>'] ++ Token.scan e.text.toList ++
        [.mark ')'] := by
  have htext : (single e).text.toList = "(0 => ".toList ++ e.text.toList ++ ")".toList := by
    simp only [text, String.toList_append]
    rfl
  rw [htext, scan_append (Or.inr (by decide)), scan_append (Or.inl (by decide))]
  rfl

theorem scan_text_concat (a b : Expr) :
    Token.scan (concat a b).text.toList =
      Token.scan a.text.toList ++ [.mark '&'] ++ Token.scan b.text.toList := by
  have htext : (concat a b).text.toList = a.text.toList ++ " & ".toList ++ b.text.toList := by
    simp only [text, String.toList_append]
    rfl
  rw [htext, scan_around _ _ (by decide)]
  rfl

theorem scan_operator {op : Char} (hword : isWordChar op = false) (hspace : isSpace op = false)
    (cs : List Char) (n : Nat) :
    Token.scan (cs ++ [op] ++ Nat.toDigits 10 n) =
      Token.scan cs ++ [.mark op, .word (Nat.toDigits 10 n)] := by
  have hop : Token.scan [op] = [.mark op] := by
    rw [Token.scan, hword, hspace]
    rfl
  have hsep : IsSeparator [op] := ⟨hword, hword, List.cons_ne_nil op []⟩
  rw [scan_around _ _ hsep, hop, scan_toDigits, List.append_assoc]
  rfl

theorem scan_text_sub (a : Expr) (n : Nat) :
    Token.scan (sub a (nat n)).text.toList =
      Token.scan a.text.toList ++ [.mark '-', .word (Nat.toDigits 10 n)] := by
  rw [← scan_operator rfl rfl, ← Nat.toList_repr]
  simp only [text, String.toList_append]
  rfl

theorem scan_text_add (a : Expr) (n : Nat) :
    Token.scan (add a (nat n)).text.toList =
      Token.scan a.text.toList ++ [.mark '+', .word (Nat.toDigits 10 n)] := by
  rw [← scan_operator rfl rfl, ← Nat.toList_repr]
  simp only [text, String.toList_append]
  rfl

theorem readFactor_name {v : String} (hv : IsName v) {ts : List Token}
    (hts : ts.head? ≠ some (.mark '(')) :
    readFactor (.word v.toList :: ts) = some (name v, ts) := by
  have hnone : ((Vhdl.number? v.toList).isNone) = true := by rw [hv.number?]; rfl
  unfold readFactor
  split
  · next h => cases h
  · next h => cases h; exact absurd rfl hts
  · next h => cases h; exact absurd rfl hts
  · next h => cases h; rw [if_pos hnone, String.ofList_toList]
  · next h => exact absurd rfl (h _ _)

/-- Behind a text that it knows, the reader goes on from the expression of that text. -/
theorem readExpr_scan {e : Expr} (he : e.Legible) {ts : List Token}
    (hts : ts.head? ≠ some (.mark '(')) :
    readExpr (Token.scan e.text.toList ++ ts) = readTail e ts := by
  -- operators group to the left: behind the left operand, the reader finds the operator
  induction e generalizing ts with
  | name v =>
    have hv : IsName v := he
    change readExpr (Token.scan v.toList ++ ts) = _
    rw [hv.scan, List.singleton_append, readExpr, readFactor_name hv hts]
    rfl
  | bit v i =>
    have hv : IsName v := he
    rw [scan_text_bit hv]
    simp only [List.cons_append, List.nil_append, readExpr, readFactor, number?_toDigits,
      Option.map_some, String.ofList_toList]
    rfl
  | low v n =>
    have hv : IsName v := he
    rw [scan_text_low hv]
    change readExpr (.word v.toList :: .mark '(' :: .word (Nat.toDigits 10 n) :: .mark '-' ::
      .word ['1'] :: .word ['d', 'o', 'w', 'n', 't', 'o'] :: .word ['0'] :: .mark ')' :: ts) = _
    simp only [readExpr, readFactor, number?_toDigits, Option.map_some, String.ofList_toList]
    rfl
  | single b =>
    cases b with
    | bit v i =>
      have hv : IsName v := he
      rw [scan_text_single, scan_text_bit hv]
      change readExpr (.mark '(' :: .word ['0'] :: .mark '=' :: .mark '>' :: .word v.toList ::
        .mark '(' :: .word (Nat.toDigits 10 i) :: .mark ')' :: .mark ')' :: ts) = _
      simp only [readExpr, readFactor, number?_toDigits, Option.map_some, String.ofList_toList]
      rfl
    | _ => exact absurd he (by simp [Legible])
  | concat a b iha =>
    cases b with
    | bit v i =>
      have hv : IsName v := he.2
      rw [scan_text_concat, scan_text_bit hv, List.append_assoc, List.append_assoc,
        iha he.1 (by simp)]
      simp only [List.cons_append, List.nil_append, readTail, number?_toDigits,
        String.ofList_toList]
    | _ => exact absurd he (by simp [Legible])
  | add a b iha =>
    cases b with
    | nat n =>
      rw [scan_text_add, List.append_assoc, iha he (by simp)]
      simp only [List.cons_append, List.nil_append, readTail, number?_toDigits]
    | _ => exact absurd he (by simp [Legible])
  | sub a b iha =>
    cases b with
    | nat n =>
      rw [scan_text_sub, List.append_assoc, iha he (by simp)]
      simp only [List.cons_append, List.nil_append, readTail, number?_toDigits]
    | _ => exact absurd he (by simp [Legible])
  | _ => exact absurd he (by simp [Legible])

/-- An expression ends with its text. -/
theorem readExpr_text {e : Expr} (he : e.Legible) :
    readExpr (Token.scan e.text.toList) = some (e, []) := by
  have hnil : ([] : List Token).head? ≠ some (.mark '(') := by simp
  have h := readExpr_scan he hnil
  rwa [List.append_nil] at h

/-- An expression ends where a word follows. -/
theorem readExpr_text_word {e : Expr} (he : e.Legible) (w : List Char) (ts : List Token) :
    readExpr (Token.scan e.text.toList ++ .word w :: ts) = some (e, .word w :: ts) :=
  readExpr_scan he (by simp)

theorem plain_text {e : Expr} (he : e.Legible) : Plain e.text := by
  have hname : ∀ {v : String}, IsName v → Plain v := fun hv => plain_of_isWordChar hv.word
  have hbit : ∀ {v : String} (i : Nat), IsName v → Plain (bit v i).text := fun i hv =>
    plain_append.2 ⟨plain_append.2 ⟨plain_append.2 ⟨hname hv, by decide⟩, plain_repr i⟩, by decide⟩
  induction e with
  | name v => exact hname he
  | bit v i => exact hbit i he
  | low v n =>
    exact plain_append.2
      ⟨plain_append.2 ⟨plain_append.2 ⟨hname he, by decide⟩, plain_repr n⟩, by decide⟩
  | single b =>
    cases b with
    | bit v i => exact plain_append.2 ⟨plain_append.2 ⟨by decide, hbit i he⟩, by decide⟩
    | _ => exact absurd he (by simp [Legible])
  | concat a b iha =>
    cases b with
    | bit v i => exact plain_append.2 ⟨plain_append.2 ⟨iha he.1, by decide⟩, hbit i he.2⟩
    | _ => exact absurd he (by simp [Legible])
  | add a b iha =>
    cases b with
    | nat n => exact plain_append.2 ⟨plain_append.2 ⟨iha he, by decide⟩, plain_repr n⟩
    | _ => exact absurd he (by simp [Legible])
  | sub a b iha =>
    cases b with
    | nat n => exact plain_append.2 ⟨plain_append.2 ⟨iha he, by decide⟩, plain_repr n⟩
    | _ => exact absurd he (by simp [Legible])
  | _ => exact absurd he (by simp [Legible])

theorem semicolon_notMem {e : Expr} (he : e.Legible) : .mark ';' ∉ Token.scan e.text.toList :=
  (plain_text he).mark_notMem (by decide)

end Expr

/-- What stands between the entity and the semicolon of an instance. -/
def Instance.mapText (i : Instance) : String :=
  i.genericText ++ i.portGap.text ++ "port map(" ++ Association.listText i.ports ++ ")"

theorem Instance.text_eq (i : Instance) :
    i.text = i.label ++ ": entity " ++ i.entity ++ i.mapText ++ ";" := by
  have hend : ");" = ")" ++ ";" := by decide
  have htext : i.text = i.label ++ ": entity " ++ i.entity ++ i.genericText ++ i.portGap.text ++
      "port map(" ++ Association.listText i.ports ++ ");" := rfl
  rw [htext, hend, mapText]
  simp only [String.append_assoc]

namespace Statement

/-- Statements of which the reader makes what they are: legible assignments, and instances that end in
their only semicolon, have no arrow of an assignment in their text and name one entity. -/
def Readable : Statement → Prop
  | blank => True
  | assign target value => IsName target ∧ value.Legible
  | register target value => IsName target ∧ value.Legible
  | choose target taken counter _ kept =>
    IsName target ∧ taken.Legible ∧ IsName counter ∧ kept.Legible
  | instantiate i => Plain i.label ∧ Plain i.entity ∧ Plain i.mapText

def isAssignment : Statement → Bool
  | assign _ _ => true
  | register _ _ => true
  | choose _ _ _ _ _ => true
  | _ => false

theorem scan_text_assign {target : String} (ht : IsName target) (value : Expr) :
    scan (assign target value).text.toList =
      .word target.toList :: .mark '<' :: .mark '=' :: scan value.text.toList ++ [.mark ';'] := by
  have htext : (assign target value).text.toList =
      target.toList ++ " <= ".toList ++ value.text.toList ++ ";".toList := by
    simp only [text, String.toList_append]
    rfl
  rw [htext, scan_append (Or.inr (by decide)),
    scan_around _ _ (by decide), ht.scan]
  rfl

theorem scan_text_register {target : String} (ht : IsName target) (value : Expr) :
    scan (register target value).text.toList =
      .word target.toList :: .mark '<' :: .mark '=' :: scan value.text.toList ++ clockEdge ++
        [.mark ';'] := by
  have htext : (register target value).text.toList =
      target.toList ++ " <= ".toList ++ value.text.toList ++ " when rising_edge(clk);".toList := by
    simp only [text, String.toList_append]
    rfl
  rw [htext, scan_append (Or.inr (by decide)),
    scan_around _ _ (by decide), ht.scan, List.append_assoc _ clockEdge]
  rfl

theorem scan_text_choose {target counter : String} (ht : IsName target) (hc : IsName counter)
    (taken : Expr) (i : Nat) (kept : Expr) :
    scan (choose target taken counter i kept).text.toList =
      .word target.toList :: .mark '<' :: .mark '=' :: scan taken.text.toList ++
        (.word "when".toList :: .word counter.toList :: .mark '(' :: .word (Nat.toDigits 10 i) ::
          .mark ')' :: .mark '=' :: .mark '\'' :: .word ['1'] :: .mark '\'' ::
          .word "else".toList :: scan kept.text.toList) ++ [.mark ';'] := by
  have htext : (choose target taken counter i kept).text.toList =
      target.toList ++ " <= ".toList ++ taken.text.toList ++ " when ".toList ++ counter.toList ++
        "(".toList ++ Nat.toDigits 10 i ++ ")='1' else ".toList ++ kept.text.toList ++
        ";".toList := by
    simp only [text, String.toList_append]
    rw [← Nat.toList_repr]
    rfl
  rw [htext, scan_append (Or.inr (by decide)),
    scan_around _ _ (by decide),
    scan_around _ _ (by decide),
    scan_around _ _ (by decide),
    scan_around _ _ (by decide), ht.scan, hc.scan, scan_toDigits]
  simp only [List.append_assoc]
  rfl

theorem clockEdge_eq : clockEdge = [.word "when".toList, .word "rising_edge".toList, .mark '(',
    .word "clk".toList, .mark ')'] := by
  decide

theorem readChoice_eq (target : String) (taken : Expr) {counter : String} (i : Nat) {kept : Expr}
    (hk : kept.Legible) :
    readChoice target taken (.word "when".toList :: .word counter.toList :: .mark '(' ::
      .word (Nat.toDigits 10 i) :: .mark ')' :: .mark '=' :: .mark '\'' :: .word ['1'] ::
      .mark '\'' :: .word "else".toList :: scan kept.text.toList) =
        some (choose target taken counter i kept) := by
  simp only [readChoice, and_self, if_true, number?_toDigits, Expr.readExpr_text hk,
    String.ofList_toList]

theorem readAssignment_eq_none {ts : List Token} (h : .mark '<' ∉ ts) :
    readAssignment ts = none := by
  unfold readAssignment
  split
  · exact absurd (List.mem_cons_of_mem _ List.mem_cons_self) h
  · rfl

/-- A statement is read if it is an assignment, and passed over if not. -/
theorem isClause_text {s : Statement} (hs : s.Readable) :
    IsClause readAssignment (scan s.text.toList) (Option.guard isAssignment s) := by
  cases s with
  | blank => exact Or.inl ⟨rfl, rfl⟩
  | assign target value =>
    obtain ⟨ht, hv⟩ := hs
    refine Or.inr ⟨_, scan_text_assign ht value, ?_, ?_⟩
    · simp [Expr.semicolon_notMem hv]
    · simp [readAssignment, Expr.readExpr_text hv, isAssignment, Option.guard]
  | register target value =>
    obtain ⟨ht, hv⟩ := hs
    refine Or.inr ⟨_, scan_text_register ht value, ?_, ?_⟩
    · simp [Expr.semicolon_notMem hv, clockEdge_eq]
    · -- the value ends where the clock's condition starts with a word
      have hread := Expr.readExpr_text_word hv "when".toList (clockEdge.drop 1)
      change readExpr (scan value.text.toList ++ clockEdge) = some (value, clockEdge) at hread
      have hne : clockEdge ≠ [] := by decide
      simp [readAssignment, hread, hne, isAssignment, Option.guard]
  | choose target taken counter i kept =>
    obtain ⟨ht, ha, hc, hk⟩ := hs
    refine Or.inr ⟨_, scan_text_choose ht hc taken i kept, ?_, ?_⟩
    · simp [Expr.semicolon_notMem ha, Expr.semicolon_notMem hk]
    · simp only [List.cons_append, readAssignment, Expr.readExpr_text_word ha, clockEdge_eq]
      rw [if_neg (List.cons_ne_nil _ _), if_neg (by simp), readChoice_eq _ _ _ hk,
        String.ofList_toList]
      rfl
  | instantiate i =>
    obtain ⟨hlabel, hentity, hmap⟩ := hs
    -- the colon is the only stop in front of the last semicolon
    have hhead : ∀ c ∈ [';', '<'],
        c ∉ (i.label ++ ": entity " ++ i.entity ++ i.mapText).toList := by
      intro c hc
      have hstop : c ∈ stops := by revert c; decide
      have hgap : c ∉ ": entity ".toList := by revert c; decide
      simp only [String.toList_append, List.mem_append, not_or]
      exact ⟨⟨⟨fun h => hlabel c h hstop, hgap⟩, fun h => hentity c h hstop⟩,
        fun h => hmap c h hstop⟩
    refine Or.inr ⟨scan (i.label ++ ": entity " ++ i.entity ++ i.mapText).toList, ?_, ?_, ?_⟩
    · change scan i.text.toList = _
      rw [i.text_eq, String.toList_append, scan_append (Or.inr (by decide))]
      rfl
    · exact fun h => hhead ';' (by decide) (mem_of_mark_mem_scan h)
    · exact readAssignment_eq_none fun h => hhead '<' (by decide) (mem_of_mark_mem_scan h)

theorem readAssignments_listText {ss : List Statement} (h : ∀ s ∈ ss, s.Readable) :
    readAssignments (listText ss) = ss.filter isAssignment := by
  have hread := filterMap_splitOn (fun s hs => isClause_text (h s hs)) []
  rw [List.append_nil, List.filterMap_eq_filter] at hread
  rw [readAssignments, listText, scan_join_lines, hread]
  exact List.append_nil _

theorem readAssignments_text {s : Statement} (hs : s.Readable) (ha : s.isAssignment = true) :
    readAssignments s.text = [s] := by
  have hread := readAssignments_listText (List.forall_mem_singleton.2 hs)
  rw [List.filter_cons_of_pos ha, readAssignments, listText, scan_join_lines,
    List.flatMap_singleton] at hread
  exact hread

end Statement

namespace Declaration

/-- A vector of a number of bits. -/
def vector (v : String × Nat) : Declaration := signal v.1 (.word (.nat v.2))

theorem toList_text_word (n : Nat) :
    (SignalType.word (.nat n)).text.toList =
      "unsigned(".toList ++ Nat.toDigits 10 n ++ "-1 downto 0)".toList := by
  have htext : (SignalType.word (.nat n)).text =
      "unsigned(" ++ (toString n ++ "-" ++ toString 1) ++ " downto 0)" := by
    unfold SignalType.word SignalType.text
    rfl
  -- the bound is a difference, and its subtrahend is printed like any number
  have hbounds : "-1 downto 0)".toList =
      "-".toList ++ (toString 1).toList ++ " downto 0)".toList := by decide
  have hn : (toString n).toList = Nat.toDigits 10 n := Nat.toList_repr
  rw [htext, hbounds]
  simp only [String.toList_append, hn, List.append_assoc]

theorem scan_text_vector {v : String × Nat} (hv : IsName v.1) :
    scan (vector v).text.toList =
      .word "signal".toList :: .word v.1.toList :: .mark ':' :: .word "unsigned".toList ::
        .mark '(' :: .word (Nat.toDigits 10 v.2) :: bounds ++ [.mark ';'] := by
  have htext : (vector v).text.toList =
      "signal ".toList ++ v.1.toList ++ ": ".toList ++ (SignalType.word (.nat v.2)).text.toList ++
        ";".toList := by
    simp only [vector, signal, text, String.intercalate_singleton, String.toList_append]
    rfl
  have htype : scan (SignalType.word (.nat v.2)).text.toList =
      .word "unsigned".toList :: .mark '(' :: .word (Nat.toDigits 10 v.2) :: bounds := by
    rw [toList_text_word, scan_append (Or.inr (by decide)), scan_append (Or.inl (by decide)),
      scan_toDigits]
    rfl
  rw [htext, scan_append (Or.inr (by decide)),
    scan_around _ _ (by decide), scan_append (Or.inl (by decide)),
    hv.scan, htype]
  rfl

theorem isClause_vector {v : String × Nat} (hv : IsName v.1) :
    IsClause readSignal (scan (vector v).text.toList) (some v) := by
  refine Or.inr ⟨_, scan_text_vector hv, ?_, ?_⟩
  · have hbounds : .mark ';' ∉ bounds := by decide
    simp [hbounds]
  · simp [readSignal, number?_toDigits]

/-- Vectors are read back with their numbers of bits. -/
theorem readSignals_vectors {vs : List (String × Nat)} (h : ∀ v ∈ vs, IsName v.1) :
    readSignals (listText (vs.map vector)) = vs := by
  have hread := filterMap_splitOn (fun v hv => isClause_vector (h v hv)) []
  rw [List.append_nil, List.filterMap_some] at hread
  rw [readSignals, listText, scan_join_lines, List.flatMap_map, hread]
  exact List.append_nil _

end Declaration
end StreamingFft.Vhdl
