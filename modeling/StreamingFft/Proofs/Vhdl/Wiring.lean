import StreamingFft.Proofs.Vhdl.Instantiation
/-!
Reading all statements back from text: assignments, and instances with what their maps connect. No clause
is passed over. What is read from the text of statements are the statements, but for the gaps in maps,
and for text of the caller's choice, which is read as the word that it is.
-/
namespace StreamingFft.Vhdl
open Token

namespace Expr

/-- A word on its own: a truth value, a number or a name. -/
def ofWord (w : List Char) : Expr :=
  if w = "true".toList then flag true
  else if w = "false".toList then flag false
  else (number? w).elim (name (String.ofList w)) nat

/-- The expression that the text of an expression shows. -/
def shown : Expr → Expr
  | name v => ofWord v.toList
  | verbatim t => ofWord t.toList
  | e => e

/-- Expressions that stand in maps: words, and names to which a number is added. -/
def Wired : Expr → Prop
  | name v => IsName v
  | verbatim t => IsName t
  | nat _ => True
  | flag _ => True
  | add (name v) (nat _) => IsName v
  | _ => False

end Expr

/-- Reads a word or a sum. -/
def readActual : List Token → Option Expr
  | [.word w] => some (.ofWord w)
  | ts =>
    match readExpr ts with
    | some (e, []) => some e
    | _ => none

/-- Reads an item of a map, with its formal or placed by position. -/
def readAssociation : List Token → Option Association
  | .word f :: .mark '=' :: .mark '>' :: ts =>
    (readActual ts).map fun e => ⟨.none, some (String.ofList f), e⟩
  | ts => (readActual ts).map fun e => ⟨.none, none, e⟩

/-- Reads the items of a map up to its parenthesis, and keeps what follows. -/
def readMap (ts : List Token) : Option (List Association × List Token) :=
  (((ts.takeWhile (· != .mark ')')).splitOn (.mark ',')).mapM readAssociation).map fun as =>
    (as, (ts.dropWhile (· != .mark ')')).tail)

def genericMap : List Token := scan "generic map(".toList

def portMap : List Token := scan "port map(".toList

/-- Reads the port map of an instance whose generic map is known. -/
def readPorts (label entity : String) (generics : List Association) (ts : List Token) :
    Option Instance :=
  if portMap <+: ts then
    match readMap (ts.drop portMap.length) with
    | some (ports, []) => some ⟨label, entity, .none, generics, .none, ports⟩
    | _ => none
  else none

/-- Reads an instance without its semicolon. -/
def readInstance : List Token → Option Instance
  | .word l :: .mark ':' :: kind :: .word x :: ts =>
    if kind = entityWord then
      if genericMap <+: ts then
        match readMap (ts.drop genericMap.length) with
        | some (generics, rest) => readPorts (String.ofList l) (String.ofList x) generics rest
        | none => none
      else readPorts (String.ofList l) (String.ofList x) [] ts
    else none
  | _ => none

/-- Reads a statement without its semicolon. -/
def readStatement (ts : List Token) : Option Statement :=
  match readAssignment ts with
  | some s => some s
  | none => (readInstance ts).map .instantiate

/-- All statements of a text, if each of its clauses is one. -/
def readStatements (text : String) : Option (List Statement) :=
  (((scan text.toList).splitOn (.mark ';')).filter (· != [])).mapM readStatement

namespace Expr

theorem ofWord_toDigits (n : Nat) : ofWord (Nat.toDigits 10 n) = nat n := by
  have hword : ∀ w : String, w.toList.any (!·.isDigit) = true → Nat.toDigits 10 n ≠ w.toList := by
    intro w hw heq
    obtain ⟨c, hc, hdigit⟩ := List.any_eq_true.1 (heq ▸ hw)
    rw [Nat.isDigit_of_mem_toDigits (by decide) (by decide) hc] at hdigit
    cases hdigit
  rw [ofWord, if_neg (hword "true" (by decide)), if_neg (hword "false" (by decide)),
    number?_toDigits]
  rfl

theorem ofWord_name {v : String} (hv : IsName v) (hlit : v ∉ ["true", "false"]) :
    ofWord v.toList = name v := by
  simp only [List.mem_cons, List.not_mem_nil, or_false, not_or] at hlit
  rw [ofWord, if_neg fun h => hlit.1 (String.toList_inj.1 h),
    if_neg fun h => hlit.2 (String.toList_inj.1 h), hv.number?, Option.elim_none, String.ofList_toList]

/-- The tokens of an expression in a map are a word or a sum. -/
theorem scan_wired {e : Expr} (h : e.Wired) :
    (∃ w, Token.scan e.text.toList = [.word w] ∧ e.shown = ofWord w) ∨
      ∃ v n, e = add (name v) (nat n) ∧ IsName v ∧
        Token.scan e.text.toList = [.word v.toList, .mark '+', .word (Nat.toDigits 10 n)] := by
  cases e with
  | name v =>
    have hv : IsName v := h
    exact Or.inl ⟨v.toList, hv.scan, rfl⟩
  | verbatim t =>
    have ht : IsName t := h
    exact Or.inl ⟨t.toList, ht.scan, rfl⟩
  | nat n =>
    refine Or.inl ⟨Nat.toDigits 10 n, ?_, (ofWord_toDigits n).symm⟩
    rw [← scan_toDigits, ← Nat.toList_repr]
    rfl
  | flag b =>
    cases b with
    | true => exact Or.inl ⟨"true".toList, by decide, by decide⟩
    | false => exact Or.inl ⟨"false".toList, by decide, by decide⟩
  | add a b =>
    cases a with
    | name v =>
      cases b with
      | nat n =>
        have hv : IsName v := h
        refine Or.inr ⟨v, n, rfl, hv, ?_⟩
        rw [scan_text_add]
        change Token.scan v.toList ++ _ = _
        rw [hv.scan]
        rfl
      | _ => exact absurd h (by simp [Wired])
    | _ => exact absurd h (by simp [Wired])
  | _ => exact absurd h (by simp [Wired])

theorem readActual_text {e : Expr} (h : e.Wired) : readActual (Token.scan e.text.toList) = some e.shown := by
  obtain ⟨w, hscan, hshown⟩ | ⟨v, n, rfl, hv, hscan⟩ := scan_wired h
  · rw [hscan, hshown, readActual]
  · have hread := readExpr_text (e := add (name v) (nat n)) hv
    rw [hscan] at hread ⊢
    rw [readActual, hread]
    · rfl
    · exact nofun

/-- No comma, parenthesis or semicolon stands in an expression of a map. -/
theorem mark_notMem_wired {e : Expr} (h : e.Wired) {c : Char} (hc : c ≠ '+') :
    .mark c ∉ Token.scan e.text.toList := by
  obtain ⟨w, hscan, -⟩ | ⟨v, n, -, -, hscan⟩ := scan_wired h
  · simp [hscan]
  · simp [hscan, hc]

end Expr

theorem Gap.scan_text (g : Gap) : scan g.text.toList = [] ∧ endsInWord g.text.toList = false := by
  cases g with
  | none => decide
  | blank => decide
  | line tabs =>
    have hspace : scan (List.replicate tabs '\t') = [] := by
      have h := scan_tabs_append tabs []
      rwa [List.append_nil] at h
    have hend : ∀ cs : List Char, (∀ c ∈ cs, isWordChar c = false) → endsInWord cs = false := by
      intro cs hcs
      rw [endsInWord]
      cases h : cs.getLast? with
      | none => rfl
      | some c => exact hcs c (List.mem_of_getLast? h)
    have htabs : (String.ofList (List.replicate tabs '\t')).toList = List.replicate tabs '\t' :=
      String.toList_ofList
    rw [Gap.text, String.toList_append, htabs]
    refine ⟨?_, hend _ (List.forall_mem_append.2 ⟨by decide, ?_⟩)⟩
    · rw [scan_append (Or.inl (by decide)), hspace]
      decide
    · intro c hc
      rw [List.eq_of_mem_replicate hc]
      decide

namespace Association

/-- Formals are words, and actuals are what stands in maps. -/
def Wired (a : Association) : Prop := (∀ f ∈ a.formal, IsName f) ∧ a.actual.Wired

/-- The item without its gap. -/
def bare (a : Association) : Association := ⟨.none, a.formal, a.actual.shown⟩

def tokens (a : Association) : List Token :=
  (match a.formal with
    | some f => [.word f.toList, .mark '=', .mark '>']
    | none => []) ++ scan a.actual.text.toList

theorem scan_text {a : Association} (h : a.Wired) : scan a.text.toList = a.tokens := by
  obtain ⟨gap, formal, actual⟩ := a
  obtain ⟨hscan, hend⟩ := gap.scan_text
  cases formal with
  | none =>
    change scan (gap.text ++ actual.text).toList = _
    rw [String.toList_append, scan_append (Or.inl hend), hscan]
    rfl
  | some f =>
    have hf : IsName f := h.1 f rfl
    have harrow : scan ("=>" ++ actual.text).toList =
        .mark '=' :: .mark '>' :: scan actual.text.toList := by
      rw [String.toList_append, scan_append (Or.inl (by decide))]
      rfl
    change scan (gap.text ++ f ++ "=>" ++ actual.text).toList = _
    have hcut : startsInWord ("=>" ++ actual.text).toList = false := by
      rw [String.toList_append]
      rfl
    rw [String.append_assoc, String.append_assoc, String.toList_append, scan_append (Or.inl hend),
      hscan, String.toList_append, scan_append (Or.inr hcut), hf.scan, harrow]
    rfl

theorem readAssociation_tokens {a : Association} (h : a.Wired) :
    readAssociation a.tokens = some a.bare := by
  obtain ⟨gap, formal, actual⟩ := a
  have hread := Expr.readActual_text h.2
  cases formal with
  | none =>
    -- the tokens of an actual do not look like a formal
    have hscan := Expr.scan_wired h.2
    change readAssociation (scan actual.text.toList) = _
    unfold readAssociation
    split
    · next heq =>
      dsimp only at hscan
      rw [heq] at hscan
      obtain ⟨w, hw, -⟩ | ⟨v, n, -, -, hv⟩ := hscan
      · cases hw
      · cases hv
    · rw [hread]
      rfl
  | some f =>
    have htokens : tokens ⟨gap, some f, actual⟩ =
        .word f.toList :: .mark '=' :: .mark '>' :: scan actual.text.toList := rfl
    rw [htokens, readAssociation, hread, String.ofList_toList]
    rfl

theorem mark_notMem_tokens {a : Association} (h : a.Wired) {c : Char} (hc : c ∉ ['=', '>', '+']) :
    .mark c ∉ a.tokens := by
  simp only [List.mem_cons, List.not_mem_nil, or_false, not_or] at hc
  have hactual := Expr.mark_notMem_wired h.2 hc.2.2
  obtain ⟨gap, formal, actual⟩ := a
  cases formal with
  | none => exact hactual
  | some f => simp [tokens, hc, hactual]

end Association

theorem notMem_intercalate {α : Type*} {x s : α} (hs : x ≠ s) {ls : List (List α)}
    (h : ∀ l ∈ ls, x ∉ l) : x ∉ [s].intercalate ls := by
  induction ls with
  | nil => exact List.not_mem_nil
  | cons l ls ih =>
    rw [List.forall_mem_cons] at h
    cases ls with
    | nil =>
      rw [List.intercalate_singleton]
      exact h.1
    | cons m ls =>
      rw [List.intercalate_cons_cons]
      simp only [List.mem_append, List.mem_singleton, not_or]
      exact ⟨⟨h.1, hs⟩, ih h.2⟩

theorem mapM_eq_some_map {α β γ : Type*} {read : α → Option β} {f : γ → α} {g : γ → β} {xs : List γ}
    (h : ∀ x ∈ xs, read (f x) = some (g x)) : (xs.map f).mapM read = some (xs.map g) := by
  induction xs with
  | nil => rfl
  | cons x xs ih =>
    rw [List.forall_mem_cons] at h
    rw [List.map_cons, List.mapM_cons, h.1, ih h.2]
    rfl

namespace Association
variable {as : List Association} (h : ∀ a ∈ as, a.Wired)
include h

theorem scan_listText : scan (listText as).toList = [.mark ','].intercalate (as.map tokens) := by
  have hcomma : scan ",".toList = [.mark ','] := by decide
  rw [listText, scan_intercalate (by decide), hcomma, List.map_map]
  congr 1
  exact List.map_congr_left fun a ha => scan_text (h a ha)

theorem mark_notMem_listText {c : Char} (hc : c ∉ ['=', '>', '+', ',']) :
    .mark c ∉ scan (listText as).toList := by
  simp only [List.mem_cons, List.not_mem_nil, or_false, not_or] at hc
  rw [scan_listText h]
  refine notMem_intercalate (by simp [hc]) fun ts hts => ?_
  obtain ⟨a, ha, rfl⟩ := List.mem_map.1 hts
  exact mark_notMem_tokens (h a ha) (by simp [hc])

/-- A map is read up to its parenthesis. -/
theorem readMap_listText (hne : as ≠ []) (ts : List Token) :
    readMap (scan (listText as).toList ++ .mark ')' :: ts) = some (as.map bare, ts) := by
  have hsplit : ([.mark ','].intercalate (as.map tokens)).splitOn (.mark ',') = as.map tokens := by
    refine List.splitOn_intercalate _ (fun ts hts => ?_) (by simpa using hne)
    obtain ⟨a, ha, rfl⟩ := List.mem_map.1 hts
    exact mark_notMem_tokens (h a ha) (by decide)
  have hitems : ∀ t ∈ scan (listText as).toList, (t != .mark ')') = true := fun t ht =>
    bne_iff_ne.2 fun heq => mark_notMem_listText h (by decide : ')' ∉ _) (heq ▸ ht)
  rw [readMap, List.takeWhile_append_of_pos hitems, List.dropWhile_append_of_pos hitems,
    List.takeWhile_cons_of_neg (by decide), List.dropWhile_cons_of_neg (by decide), List.append_nil,
    scan_listText h, hsplit, mapM_eq_some_map fun a ha => readAssociation_tokens (h a ha)]
  rfl

end Association

namespace Instance

/-- Both maps of an instance can be read. -/
structure Wired (i : Instance) : Prop where
  generics : ∀ a ∈ i.generics, a.Wired
  ports : ∀ a ∈ i.ports, a.Wired
  ports_ne_nil : i.ports ≠ []

/-- The instance without the gaps in its maps. -/
def bare (i : Instance) : Instance :=
  { i with genericGap := .none, generics := i.generics.map Association.bare
           portGap := .none, ports := i.ports.map Association.bare }

/-- The tokens of the generic map, with its keywords. -/
def genericTokens (i : Instance) : List Token :=
  if i.generics.isEmpty then []
  else genericMap ++ scan (Association.listText i.generics).toList ++ [.mark ')']

theorem scan_genericText (i : Instance) : scan i.genericText.toList = i.genericTokens := by
  have hclose : scan ")".toList = [.mark ')'] := by decide
  obtain ⟨hscan, hend⟩ := i.genericGap.scan_text
  rw [genericText, genericTokens]
  split
  · rfl
  · change scan (i.genericGap.text ++ "generic map(" ++ Association.listText i.generics ++ ")").toList = _
    rw [String.append_assoc, String.append_assoc, String.toList_append, scan_append (Or.inl hend),
      hscan, String.toList_append, scan_append (Or.inl (by decide)), String.toList_append,
      scan_append (Or.inr (by decide)), hclose, ← List.append_assoc]
    rfl

/-- The tokens of an instance behind its entity. -/
def mapTokens (i : Instance) : List Token :=
  i.genericTokens ++ portMap ++ scan (Association.listText i.ports).toList ++ [.mark ')']

theorem scan_mapText {i : Instance} (hport : i.portGap ≠ .none) :
    scan i.mapText.toList = i.mapTokens := by
  have hclose : scan ")".toList = [.mark ')'] := by decide
  have hcut := Gap.startsInWord_append hport ("port map(" ++ (Association.listText i.ports ++ ")"))
  obtain ⟨hscan, hend⟩ := i.portGap.scan_text
  simp only [mapText, String.append_assoc]
  rw [String.toList_append, scan_append (Or.inr hcut), scan_genericText, String.toList_append,
    scan_append (Or.inl hend), hscan, String.toList_append, scan_append (Or.inl (by decide)),
    String.toList_append, scan_append (Or.inr (by decide)), hclose, mapTokens]
  simp only [List.nil_append, List.append_assoc]
  rfl

theorem readPorts_text (label entity : String) (generics : List Association) {i : Instance}
    (h : i.Wired) : readPorts label entity generics
      (portMap ++ scan (Association.listText i.ports).toList ++ [.mark ')']) =
        some ⟨label, entity, .none, generics, .none, i.ports.map Association.bare⟩ := by
  rw [List.append_assoc, readPorts, if_pos (List.prefix_append ..), List.drop_left,
    Association.readMap_listText h.ports h.ports_ne_nil]

/-- An instance is read from its tokens. -/
theorem readInstance_tokens {i : Instance} (h : i.Wired) :
    readInstance (.word i.label.toList :: .mark ':' :: entityWord :: .word i.entity.toList ::
      i.mapTokens) = some i.bare := by
  rw [readInstance, if_pos rfl, String.ofList_toList, String.ofList_toList, mapTokens, genericTokens,
    bare]
  cases hgenerics : i.generics with
  | nil =>
    have hother : ¬ genericMap <+:
        portMap ++ scan (Association.listText i.ports).toList ++ [.mark ')'] := by
      rintro ⟨ts, heq⟩
      have hgeneric : genericMap.head? = some (.word "generic".toList) := by decide
      have hport : portMap.head? = some (.word "port".toList) := by decide
      have hhead := congrArg List.head? heq
      rw [List.append_assoc, List.head?_append, List.head?_append, hgeneric, hport] at hhead
      exact absurd hhead (by decide : ¬ some (Token.word "generic".toList) = some (.word "port".toList))
    simp only [List.isEmpty_nil, if_true, List.nil_append, List.map_nil]
    rw [if_neg hother, readPorts_text _ _ _ h]
  | cons g gs =>
    have hne : i.generics ≠ [] := by
      rw [hgenerics]
      exact List.cons_ne_nil g gs
    simp only [List.isEmpty_cons, Bool.false_eq_true, if_false]
    rw [← hgenerics]
    simp only [List.append_assoc]
    rw [if_pos (List.prefix_append ..), List.drop_left, List.singleton_append,
      Association.readMap_listText h.generics hne]
    dsimp only
    rw [← List.append_assoc, readPorts_text _ _ _ h]

end Instance

/-- Clause by clause, the reader makes of the items what it makes of each, if it makes something of all
that are not empty. -/
theorem mapM_splitOn {α β : Type*} {read : List Token → Option β} (hread : read [] = none)
    {tokens : α → List Token} {found : α → Option β} {xs : List α}
    (h : ∀ x ∈ xs, IsClause read (tokens x) (found x) ∧ (tokens x ≠ [] → (found x).isSome)) :
    (((xs.flatMap tokens).splitOn (.mark ';')).filter (· != [])).mapM read =
      some (xs.filterMap found) := by
  induction xs with
  | nil => rfl
  | cons x xs ih =>
    rw [List.forall_mem_cons] at h
    obtain ⟨⟨hclause, hsome⟩, hrest⟩ := h
    obtain ⟨hnil, hfound⟩ | ⟨us, hus, hsemi, hus'⟩ := hclause
    · rw [List.flatMap_cons, hnil, List.nil_append, ih hrest, List.filterMap_cons, hfound]
    · obtain ⟨y, hy⟩ := Option.isSome_iff_exists.1 (hsome (by simp [hus]))
      rw [hy] at hus'
      have hne : (us != []) = true := by
        rw [bne_iff_ne]
        rintro rfl
        exact absurd (hread.symm.trans hus') nofun
      rw [List.flatMap_cons, hus, List.append_assoc, List.singleton_append,
        List.splitOn_append_cons_self_of_not_mem hsemi, List.filter_cons, if_pos hne, List.mapM_cons,
        hus', ih hrest, List.filterMap_cons, hy]
      rfl

namespace Statement

/-- The statement without the gaps in its maps. -/
def bare : Statement → Statement
  | instantiate i => instantiate i.bare
  | s => s

/-- Instances have maps that can be read. -/
def Wired : Statement → Prop
  | instantiate i => i.Wired
  | _ => True

/-- What is read for a statement; nothing for an empty line. -/
def shown? : Statement → Option Statement
  | blank => none
  | s => some s.bare

theorem scan_text_instantiate {i : Instance} (hl : (instantiate i).Labelled) :
    scan (instantiate i).text.toList =
      .word i.label.toList :: .mark ':' :: entityWord :: .word i.entity.toList :: i.mapTokens ++
        [.mark ';'] := by
  obtain ⟨hlabel, hentity, hgeneric, hport⟩ := hl
  have hcut := i.startsInWord_mapText hgeneric hport
  have hsep : IsSeparator ": ".toList := by decide
  have htext : (instantiate i).text =
      i.label ++ ": " ++ ("entity " ++ (i.entity ++ i.mapText)) ++ ";" := by
    have hentity : ": entity " = ": " ++ "entity " := by decide
    rw [text, i.text_eq, hentity]
    simp only [String.append_assoc]
  rw [htext, String.toList_append, scan_append (Or.inr (by decide)), String.toList_append,
    String.toList_append, scan_around _ _ hsep, hlabel.scan, String.toList_append,
    scan_append (Or.inl (by decide)), String.toList_append, scan_append (Or.inr hcut), hentity.scan,
    Instance.scan_mapText hport]
  rfl

/-- Each statement is one clause, and is read. -/
theorem isClause_shown {s : Statement} (hs : s.Readable) (hl : s.Labelled) (hw : s.Wired) :
    IsClause readStatement (scan s.text.toList) s.shown? := by
  have hclause := isClause_text hs
  have hassignment : ∀ {ts}, IsClause readAssignment ts (some s) → IsClause readStatement ts (some s) := by
    rintro ts (⟨-, hnone⟩ | ⟨us, hus, hsemi, hread⟩)
    · cases hnone
    · exact Or.inr ⟨us, hus, hsemi, by rw [readStatement, hread]⟩
  cases s with
  | blank => exact Or.inl ⟨rfl, rfl⟩
  | assign target value => exact hassignment hclause
  | register target value => exact hassignment hclause
  | choose target taken counter bit kept => exact hassignment hclause
  | instantiate i =>
    obtain ⟨hnil, -⟩ | ⟨us, hus, hsemi, -⟩ := hclause
    · rw [scan_text_instantiate hl] at hnil
      exact absurd hnil (by simp)
    · have htokens := (scan_text_instantiate hl).symm.trans hus
      rw [← List.append_cancel_right htokens] at hsemi
      refine Or.inr ⟨_, scan_text_instantiate hl, hsemi, ?_⟩
      have hnone : readAssignment (.word i.label.toList :: .mark ':' :: entityWord ::
          .word i.entity.toList :: i.mapTokens) = none := rfl
      rw [readStatement, hnone, Instance.readInstance_tokens hw]
      rfl

/-- All statements are read from their text. -/
theorem readStatements_listText {ss : List Statement}
    (h : ∀ s ∈ ss, s.Readable ∧ s.Labelled ∧ s.Wired) :
    readStatements (listText ss) = some (ss.filterMap shown?) := by
  have hclause : ∀ s ∈ ss, IsClause readStatement (scan s.text.toList) s.shown? ∧
      (scan s.text.toList ≠ [] → s.shown?.isSome) := by
    intro s hs
    obtain ⟨hreadable, hlabelled, hwired⟩ := h s hs
    refine ⟨isClause_shown hreadable hlabelled hwired, fun hne => ?_⟩
    cases s with
    | blank => exact absurd rfl hne
    | _ => rfl
  rw [readStatements, listText, scan_join_lines]
  exact mapM_splitOn rfl hclause

end Statement

end StreamingFft.Vhdl
