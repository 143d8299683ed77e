import StreamingFft.Core.Listing
import StreamingFft.Proofs.Core.Invariant
import StreamingFft.Proofs.Core.Rebuilding
import StreamingFft.Proofs.Text.Layout
import StreamingFft.Proofs.Vhdl.Token
/-!
The text that builds a tree again is the text of the tree's description, with one more tab in front of
its lines for each composite around it. If no string in it ends a quotation or a line, the description
can be read off the front of the text, and the description builds the tree.
-/
namespace StreamingFft

namespace Text

/-- Text that can stand between quotes on one line. -/
def Quotable (s : String) : Prop := '"' ∉ s.toList ∧ '\n' ∉ s.toList

instance (s : String) : Decidable (Quotable s) :=
  inferInstanceAs (Decidable ('"' ∉ s.toList ∧ '\n' ∉ s.toList))

def quotedChars (s : String) : List Char := '"' :: (s.toList ++ ['"'])

/-- The start of a line behind so many tabs. -/
def lineStart (depth : Nat) : List Char := '\n' :: List.replicate depth '\t'

/-- A name with a parenthesis behind it. -/
def call (name : String) : List Char := name.toList ++ ['(']

def key (name : String) : List Char := name.toList ++ ['=']

end Text
open Text

def Side.call : Side → List Char
  | .input => Text.call ".input"
  | .output => Text.call ".output"

/-- The call that declares an order; none for the natural one. -/
def orderCall (side : Side) : Option (List Nat) → List Char
  | none => []
  | some bits => side.call ++ (natList bits).toList ++ [')']

namespace TwiddleWidth

def strings : TwiddleWidth → List String
  | symbol name => [name]
  | literal _ => []

def chars : TwiddleWidth → List Char
  | symbol name => quotedChars name
  | literal bits => Nat.toDigits 10 bits

end TwiddleWidth

def Multiplier.chars (m : Multiplier) : List Char :=
  call "Multiplier" ++ quotedChars m.entity ++ [',', ' '] ++ Nat.toDigits 10 m.delay ++ [')']

namespace Settings

def strings (s : Settings) : List String := s.multiplier.entity :: s.twiddleWidth.strings

def chars (depth : Nat) (s : Settings) : List Char :=
  lineStart depth ++ key "multiplier" ++ s.multiplier.chars ++ [','] ++
    lineStart depth ++ key "twiddleBits" ++ s.twiddleWidth.chars ++ [')']

end Settings

def LeafRecipe.chars (r : LeafRecipe) : List Char :=
  call "FftBase" ++ Nat.toDigits 10 r.size ++ [',', ' '] ++ quotedChars r.entity ++
    [',', ' '] ++ quotedChars r.scale ++ [',', ' '] ++ Nat.toDigits 10 r.delay ++ [')'] ++
      orderCall .input r.input ++ orderCall .output r.output

namespace Recipe

/-- All strings in a description. -/
def strings : Recipe → List String
  | leaf r => [r.entity, r.scale]
  | fourStep _ r1 r2 settings => r1.strings ++ r2.strings ++ settings.strings
  | radix4 _ r1 settings => r1.strings ++ settings.strings

/-- The text of a description inside so many composites, its first line without tabs. -/
def chars (depth : Nat) : Recipe → List Char
  | leaf r => r.chars
  | fourStep n r1 r2 settings =>
    call "Fft4Step" ++ Nat.toDigits 10 n ++ [','] ++
      lineStart (depth + 1) ++ r1.chars (depth + 1) ++ [','] ++
      lineStart (depth + 1) ++ r2.chars (depth + 1) ++ [','] ++ settings.chars (depth + 1)
  | radix4 n r1 settings =>
    call "FftSpdf" ++ Nat.toDigits 10 n ++ [','] ++
      lineStart (depth + 1) ++ r1.chars (depth + 1) ++ [','] ++ settings.chars (depth + 1)

end Recipe

section Reading
variable {r s : List Char}

theorem append_ne_append_of_apart {a b : List Char} (hab : ¬ a <+: b) (hba : ¬ b <+: a) :
    a ++ r ≠ b ++ s := by
  intro h
  have hprefix : b <+: a ++ r := h ▸ List.prefix_append b s
  exact (List.prefix_or_prefix_of_prefix (List.prefix_append a r) hprefix).elim hab hba

theorem quotedChars_append_inj {a b : String} (ha : Quotable a) (hb : Quotable b)
    (h : quotedChars a ++ r = quotedChars b ++ s) : a = b ∧ r = s := by
  simp only [quotedChars, List.cons_append, List.append_assoc, List.nil_append, List.cons.injEq,
    true_and] at h
  obtain ⟨hab, hrs⟩ := append_cons_inj ha.1 hb.1 h
  exact ⟨String.toList_inj.1 hab, hrs⟩

theorem orderCall_append_inj {side : Side} {o p : Option (List Nat)} (hr : ¬ side.call <+: r)
    (hs : ¬ side.call <+: s) (h : orderCall side o ++ r = orderCall side p ++ s) :
    o = p ∧ r = s := by
  cases o with
  | none =>
    cases p with
    | none => exact ⟨rfl, h⟩
    | some bits =>
      rw [orderCall, orderCall, List.append_assoc, List.append_assoc] at h
      exact absurd ⟨_, h.symm⟩ hr
  | some bits =>
    cases p with
    | none =>
      rw [orderCall, orderCall, List.append_assoc, List.append_assoc] at h
      exact absurd ⟨_, h⟩ hs
    | some bits' =>
      simp only [orderCall, List.append_assoc] at h
      obtain ⟨rfl, hrs⟩ := natList_append_inj (List.append_cancel_left h)
      exact ⟨rfl, List.append_cancel_left hrs⟩

theorem TwiddleWidth.chars_append_inj {v w : TwiddleWidth} (hv : ∀ s ∈ v.strings, Quotable s)
    (hw : ∀ s ∈ w.strings, Quotable s) (h : v.chars ++ ')' :: r = w.chars ++ ')' :: s) :
    v = w ∧ r = s := by
  cases v with
  | symbol a =>
    cases w with
    | symbol b =>
      obtain ⟨rfl, hrs⟩ := quotedChars_append_inj (hv a List.mem_cons_self) (hw b List.mem_cons_self) h
      exact ⟨rfl, List.tail_eq_of_cons_eq hrs⟩
    | literal n => exact absurd h.symm (toDigits_append_ne_cons (by decide))
  | literal m =>
    cases w with
    | symbol b => exact absurd h (toDigits_append_ne_cons (by decide))
    | literal n =>
      obtain ⟨rfl, hrs⟩ := toDigits_append_inj rfl rfl h
      exact ⟨rfl, List.tail_eq_of_cons_eq hrs⟩

theorem Multiplier.chars_append_inj {a b : Multiplier} (ha : Quotable a.entity)
    (hb : Quotable b.entity) (h : a.chars ++ r = b.chars ++ s) : a = b ∧ r = s := by
  simp only [chars, List.append_assoc] at h
  obtain ⟨hentity, h⟩ := quotedChars_append_inj ha hb (List.append_cancel_left h)
  obtain ⟨hdelay, h⟩ := toDigits_append_inj rfl rfl (List.append_cancel_left h)
  have hrs := List.append_cancel_left h
  cases a
  cases b
  cases hentity
  cases hdelay
  exact ⟨rfl, hrs⟩

theorem Settings.chars_append_inj {depth : Nat} {a b : Settings} (ha : ∀ s ∈ a.strings, Quotable s)
    (hb : ∀ s ∈ b.strings, Quotable s) (h : a.chars depth ++ r = b.chars depth ++ s) :
    a = b ∧ r = s := by
  rw [strings, List.forall_mem_cons] at ha hb
  simp only [chars, List.append_assoc] at h
  have hmultiplier := List.append_cancel_left (List.append_cancel_left h)
  obtain ⟨hm, h⟩ := Multiplier.chars_append_inj ha.1 hb.1 hmultiplier
  have hwidth := List.append_cancel_left (List.append_cancel_left (List.append_cancel_left h))
  obtain ⟨hw, hrs⟩ := TwiddleWidth.chars_append_inj ha.2 hb.2 hwidth
  cases a
  cases b
  cases hm
  cases hw
  exact ⟨rfl, hrs⟩

theorem not_starts_call (side : Side) (hr : r.head? ≠ some '.') : ¬ side.call <+: r := by
  have hdot : side.call.head? = some '.' := by cases side <;> decide
  rintro ⟨t, rfl⟩
  rw [List.head?_append, hdot] at hr
  exact hr rfl

/-- A call for the output is none for the input. -/
theorem not_starts_input (hr : r.head? ≠ some '.') (o : Option (List Nat)) :
    ¬ Side.input.call <+: orderCall .output o ++ r := by
  cases o with
  | none => exact not_starts_call .input hr
  | some bits =>
    rintro ⟨t, h⟩
    rw [orderCall, List.append_assoc, List.append_assoc] at h
    exact append_ne_append_of_apart (by decide) (by decide) h

theorem LeafRecipe.chars_append_inj {a b : LeafRecipe} (ha : ∀ s ∈ [a.entity, a.scale], Quotable s)
    (hb : ∀ s ∈ [b.entity, b.scale], Quotable s) (hr : r.head? ≠ some '.')
    (hs : s.head? ≠ some '.') (h : a.chars ++ r = b.chars ++ s) : a = b ∧ r = s := by
  rw [List.forall_mem_cons, List.forall_mem_singleton] at ha hb
  simp only [chars, List.append_assoc] at h
  obtain ⟨hsize, h⟩ := toDigits_append_inj rfl rfl (List.append_cancel_left h)
  obtain ⟨hentity, h⟩ := quotedChars_append_inj ha.1 hb.1 (List.append_cancel_left h)
  obtain ⟨hscale, h⟩ := quotedChars_append_inj ha.2 hb.2 (List.append_cancel_left h)
  obtain ⟨hdelay, h⟩ := toDigits_append_inj rfl rfl (List.append_cancel_left h)
  obtain ⟨hinput, h⟩ := orderCall_append_inj (not_starts_input hr _) (not_starts_input hs _)
    (List.append_cancel_left h)
  obtain ⟨houtput, hrs⟩ := orderCall_append_inj (not_starts_call .output hr)
    (not_starts_call .output hs) h
  cases a
  cases b
  cases hsize
  cases hentity
  cases hscale
  cases hdelay
  cases hinput
  cases houtput
  exact ⟨rfl, hrs⟩

/-- The name of the call that the text of a description is. -/
def Recipe.name : Recipe → String
  | .leaf _ => "FftBase"
  | .fourStep .. => "Fft4Step"
  | .radix4 .. => "FftSpdf"

def Recipe.names : List String := ["FftBase", "Fft4Step", "FftSpdf"]

theorem Recipe.name_mem (a : Recipe) : a.name ∈ names := by
  cases a <;> simp only [name, names, List.mem_cons, true_or, or_true]

theorem Recipe.call_prefix_chars (depth : Nat) (a : Recipe) : call a.name <+: a.chars depth := by
  cases a with
  | leaf a =>
    simp only [chars, LeafRecipe.chars, List.append_assoc]
    exact List.prefix_append ..
  | fourStep n a1 a2 t =>
    simp only [chars, List.append_assoc]
    exact List.prefix_append ..
  | radix4 n a1 t =>
    simp only [chars, List.append_assoc]
    exact List.prefix_append ..

/-- No name starts another one, so that the text tells which one it is. -/
theorem Recipe.name_eq {a b : Recipe} {depth : Nat} (h : a.chars depth ++ r = b.chars depth ++ s) :
    a.name = b.name := by
  have hapart : ∀ v ∈ names, ∀ w ∈ names, call v <+: call w → v = w := by decide
  have ha : call a.name <+: a.chars depth ++ r :=
    (call_prefix_chars depth a).trans (List.prefix_append ..)
  have hb : call b.name <+: a.chars depth ++ r :=
    h ▸ (call_prefix_chars depth b).trans (List.prefix_append ..)
  rcases List.prefix_or_prefix_of_prefix ha hb with hab | hba
  · exact hapart _ a.name_mem _ b.name_mem hab
  · exact (hapart _ b.name_mem _ a.name_mem hba).symm

/-- A description is read off the front of its text, unless a leaf's calls might go on. -/
theorem Recipe.chars_append_inj {a b : Recipe} (ha : ∀ s ∈ a.strings, Quotable s)
    (hb : ∀ s ∈ b.strings, Quotable s) {depth : Nat} (hr : r.head? ≠ some '.')
    (hs : s.head? ≠ some '.') (h : a.chars depth ++ r = b.chars depth ++ s) : a = b ∧ r = s := by
  have hcomma : ∀ t : List Char, ([','] ++ t).head? ≠ some '.' := by
    intro t heq
    cases heq
  have hname := name_eq h
  induction a generalizing b depth r s with
  | leaf a =>
    cases b with
    | leaf b =>
      obtain ⟨rfl, hrs⟩ := LeafRecipe.chars_append_inj ha hb hr hs h
      exact ⟨rfl, hrs⟩
    | fourStep n b1 b2 t => exact absurd hname (by decide : "FftBase" ≠ "Fft4Step")
    | radix4 n b1 t => exact absurd hname (by decide : "FftBase" ≠ "FftSpdf")
  | fourStep m a1 a2 t ih1 ih2 =>
    cases b with
    | leaf b => exact absurd hname (by decide : "Fft4Step" ≠ "FftBase")
    | radix4 n b1 u => exact absurd hname (by decide : "Fft4Step" ≠ "FftSpdf")
    | fourStep n b1 b2 u =>
      simp only [strings, List.forall_mem_append] at ha hb
      simp only [chars, List.append_assoc] at h
      obtain ⟨rfl, hsub⟩ := toDigits_append_inj rfl rfl (List.append_cancel_left h)
      have h1 := List.append_cancel_left (List.append_cancel_left hsub)
      obtain ⟨rfl, hnext⟩ := ih1 ha.1.1 hb.1.1 (hcomma _) (hcomma _) h1 (name_eq h1)
      have h2 := List.append_cancel_left (List.append_cancel_left hnext)
      obtain ⟨rfl, hset⟩ := ih2 ha.1.2 hb.1.2 (hcomma _) (hcomma _) h2 (name_eq h2)
      obtain ⟨rfl, hrs⟩ := Settings.chars_append_inj ha.2 hb.2 (List.append_cancel_left hset)
      exact ⟨rfl, hrs⟩
  | radix4 m a1 t ih1 =>
    cases b with
    | leaf b => exact absurd hname (by decide : "FftSpdf" ≠ "FftBase")
    | fourStep n b1 b2 u => exact absurd hname (by decide : "FftSpdf" ≠ "Fft4Step")
    | radix4 n b1 u =>
      simp only [strings, List.forall_mem_append] at ha hb
      simp only [chars, List.append_assoc] at h
      obtain ⟨rfl, hsub⟩ := toDigits_append_inj rfl rfl (List.append_cancel_left h)
      have h1 := List.append_cancel_left (List.append_cancel_left hsub)
      obtain ⟨rfl, hset⟩ := ih1 ha.1 hb.1 (hcomma _) (hcomma _) h1 (name_eq h1)
      obtain ⟨rfl, hrs⟩ := Settings.chars_append_inj ha.2 hb.2 (List.append_cancel_left hset)
      exact ⟨rfl, hrs⟩

end Reading

section Lines

theorem newline_notMem_toDigits (n : Nat) : '\n' ∉ Nat.toDigits 10 n :=
  Vhdl.notMem_of_isWordChar rfl (Vhdl.all_isWordChar_toDigits n)

theorem newline_notMem_quotedChars {s : String} (h : Quotable s) : '\n' ∉ quotedChars s := by
  simp only [quotedChars, List.mem_cons, List.mem_append, List.not_mem_nil, or_false, not_or]
  exact ⟨by decide, h.2, by decide⟩

theorem newline_notMem_natList (ns : List Nat) : '\n' ∉ (natList ns).toList := by
  have hitems : ∀ c ∈ (", ".intercalate (ns.map toString)).toList, c ≠ '\n' := by
    refine Vhdl.forall_mem_intercalate (by decide) fun s hs c hc heq => ?_
    obtain ⟨n, -, rfl⟩ := List.mem_map.1 hs
    exact Vhdl.notMem_repr rfl n (heq ▸ hc)
  rw [toList_natList]
  simp only [List.mem_cons, List.mem_append, List.not_mem_nil, or_false, not_or]
  exact ⟨by decide, fun h => hitems _ h rfl, by decide⟩

theorem newline_notMem_orderCall (side : Side) (o : Option (List Nat)) :
    '\n' ∉ orderCall side o := by
  cases o with
  | none => exact List.not_mem_nil
  | some bits =>
    have hcall : '\n' ∉ side.call := by cases side <;> decide
    simp only [orderCall, List.mem_append, not_or]
    exact ⟨⟨hcall, newline_notMem_natList bits⟩, by decide⟩

theorem LeafRecipe.newline_notMem_chars {r : LeafRecipe} (h : ∀ s ∈ [r.entity, r.scale], Quotable s) :
    '\n' ∉ r.chars := by
  rw [List.forall_mem_cons, List.forall_mem_singleton] at h
  have hcomma : '\n' ∉ [',', ' '] := by decide
  simp only [chars, List.mem_append, not_or]
  exact ⟨⟨⟨⟨⟨⟨⟨⟨⟨⟨by decide, newline_notMem_toDigits _⟩, hcomma⟩, newline_notMem_quotedChars h.1⟩,
    hcomma⟩, newline_notMem_quotedChars h.2⟩, hcomma⟩, newline_notMem_toDigits _⟩, by decide⟩,
    newline_notMem_orderCall _ _⟩, newline_notMem_orderCall _ _⟩

theorem Multiplier.newline_notMem_chars {m : Multiplier} (h : Quotable m.entity) :
    '\n' ∉ m.chars := by
  simp only [chars, List.mem_append, not_or]
  exact ⟨⟨⟨⟨by decide, newline_notMem_quotedChars h⟩, by decide⟩, newline_notMem_toDigits _⟩, by decide⟩

theorem TwiddleWidth.newline_notMem_chars {w : TwiddleWidth} (h : ∀ s ∈ w.strings, Quotable s) :
    '\n' ∉ w.chars := by
  cases w with
  | symbol name => exact newline_notMem_quotedChars (h name List.mem_cons_self)
  | literal bits => exact newline_notMem_toDigits bits

end Lines

section Indentation
variable {depth : Nat} {rest : List Char}

/-- Every line inside a composite has a tab, and gets another one. -/
theorem indentChars_lineStart :
    indentChars ['\t'] false (lineStart (depth + 1) ++ rest) =
      lineStart (depth + 2) ++ indentChars ['\t'] false rest := by
  have htabs : '\n' ∉ List.replicate (depth + 1) '\t' := by
    intro h
    exact absurd (List.eq_of_mem_replicate h) (by decide)
  rw [lineStart, List.cons_append, indentChars_newline, indentChars_fresh _ rfl (by decide),
    indentChars_append _ htabs]
  rfl

theorem Settings.indentChars_chars {t : Settings} (h : ∀ s ∈ t.strings, Quotable s) :
    indentChars ['\t'] false (t.chars (depth + 1) ++ rest) =
      t.chars (depth + 2) ++ indentChars ['\t'] false rest := by
  rw [strings, List.forall_mem_cons] at h
  have hm := Multiplier.newline_notMem_chars h.1
  have hw := TwiddleWidth.newline_notMem_chars h.2
  simp only [chars, List.append_assoc]
  rw [indentChars_lineStart, indentChars_append _ (by decide), indentChars_append _ hm,
    indentChars_append _ (by decide), indentChars_lineStart, indentChars_append _ (by decide),
    indentChars_append _ hw, indentChars_append _ (by decide)]

/-- The text one composite further in is the indented text. -/
theorem Recipe.indentChars_chars {a : Recipe} (h : ∀ s ∈ a.strings, Quotable s) :
    indentChars ['\t'] false (a.chars depth ++ rest) =
      a.chars (depth + 1) ++ indentChars ['\t'] false rest := by
  induction a generalizing depth rest with
  | leaf r => exact indentChars_append _ (LeafRecipe.newline_notMem_chars h) _
  | fourStep n a1 a2 t ih1 ih2 =>
    simp only [strings, List.forall_mem_append] at h
    simp only [chars, List.append_assoc]
    rw [indentChars_append _ (by decide), indentChars_append _ (newline_notMem_toDigits n),
      indentChars_append _ (by decide), indentChars_lineStart, ih1 h.1.1,
      indentChars_append _ (by decide), indentChars_lineStart, ih2 h.1.2,
      indentChars_append _ (by decide), Settings.indentChars_chars h.2]
  | radix4 n a1 t ih1 =>
    simp only [strings, List.forall_mem_append] at h
    simp only [chars, List.append_assoc]
    rw [indentChars_append _ (by decide), indentChars_append _ (newline_notMem_toDigits n),
      indentChars_append _ (by decide), indentChars_lineStart, ih1 h.1,
      indentChars_append _ (by decide), Settings.indentChars_chars h.2]

end Indentation

section Texts

theorem toList_toString_nat (n : Nat) : (toString n).toList = Nat.toDigits 10 n := Nat.toList_repr

theorem toList_toString_string (s : String) : (toString s).toList = s.toList := rfl

theorem TwiddleWidth.toList_configuration (w : TwiddleWidth) : w.configuration.toList = w.chars := by
  cases w with
  | symbol name =>
    rw [configuration, String.toList_append, String.toList_append, List.append_assoc]
    rfl
  | literal bits => exact toList_toString_nat bits

theorem Multiplier.toList_configuration (m : Multiplier) : m.configuration.toList = m.chars := by
  have hopen : (toString "Multiplier(\"").toList = call "Multiplier" ++ ['"'] := by decide
  have hnext : (toString "\", ").toList = ['"', ',', ' '] := by decide
  have hclose : (toString ")").toList = [')'] := by decide
  unfold configuration chars quotedChars
  simp only [String.toList_append, hopen, hnext, hclose, toList_toString_nat, toList_toString_string,
    List.append_assoc, List.cons_append, List.nil_append]

theorem orderCall_declared (side : Side) {name : String} (hname : side.call = call name)
    (o : BitOrder) :
    (if o.isNatural then "" else name ++ "(" ++ o.text ++ ")").toList = orderCall side o.declared := by
  rw [BitOrder.declared]
  split
  · rfl
  · rw [orderCall, hname, String.toList_append, String.toList_append, String.toList_append]
    rfl

theorem Leaf.toList_configuration (l : Leaf) : l.configuration.toList = l.recipe.chars := by
  have hopen : (toString "FftBase(").toList = call "FftBase" := by decide
  have hquote : (toString ", \"").toList = [',', ' ', '"'] := by decide
  have hnext : (toString "\", \"").toList = ['"', ',', ' ', '"'] := by decide
  have hlast : (toString "\", ").toList = ['"', ',', ' '] := by decide
  have hclose : (toString ")").toList = [')'] := by decide
  have hinput : (if l.inputOrder.isNatural then "" else
      toString ".input(" ++ toString l.inputOrder.text ++ toString ")").toList =
        orderCall .input l.inputOrder.declared := orderCall_declared .input rfl l.inputOrder
  have houtput : (if l.outputOrder.isNatural then "" else
      toString ".output(" ++ toString l.outputOrder.text ++ toString ")").toList =
        orderCall .output l.outputOrder.declared := orderCall_declared .output rfl l.outputOrder
  unfold configuration LeafRecipe.chars
  simp only [String.toList_append, hopen, hquote, hnext, hlast, hclose, hinput, houtput,
    toList_toString_nat, toList_toString_string, recipe, quotedChars,
    List.append_assoc, List.cons_append, List.nil_append]

end Texts

/-- A description on the lines that it has inside a composite. -/
theorem Recipe.indentChars_fresh {a : Recipe} (h : ∀ s ∈ a.strings, Quotable s) :
    indentChars ['\t'] true (a.chars 0) = '\t' :: a.chars 1 := by
  have hname : ∀ v ∈ names, (call v).head? = some 'F' := by decide
  have hhead : (a.chars 0).head? = some 'F' := by
    obtain ⟨cs, hcs⟩ := a.call_prefix_chars 0
    rw [← hcs, List.head?_append, hname _ a.name_mem, Option.some_or]
  have hindent : indentChars ['\t'] false (a.chars 0 ++ []) =
      a.chars 1 ++ indentChars ['\t'] false [] := indentChars_chars h
  rw [List.append_nil, indentChars, List.append_nil] at hindent
  rw [Text.indentChars_fresh _ hhead (by decide), hindent]
  rfl

namespace Core

theorem toList_indent_configuration {c : Core} (h : ∀ s ∈ c.recipe.strings, Quotable s)
    (hc : c.configuration.toList = c.recipe.chars 0) :
    (toString (indent 1 c.configuration)).toList = '\t' :: c.recipe.chars 1 := by
  rw [← Recipe.indentChars_fresh h, ← hc]
  exact String.toList_ofList

theorem toList_configuration {c : Core} (h : ∀ s ∈ c.recipe.strings, Quotable s) :
    c.configuration.toList = c.recipe.chars 0 := by
  have hline : (toString ",\n").toList = [',', '\n'] := by decide
  have hmultiplier : (toString "\tmultiplier=").toList = '\t' :: key "multiplier" := by decide
  have hwidth : (toString "\ttwiddleBits=").toList = '\t' :: key "twiddleBits" := by decide
  have hclose : (toString ")").toList = [')'] := by decide
  induction c with
  | leaf l => exact l.toList_configuration
  | fourStep s sub1 sub2 ih1 ih2 =>
    have hopen : (toString "Fft4Step(").toList = call "Fft4Step" := by decide
    simp only [recipe, Recipe.strings, List.forall_mem_append] at h
    have h1 := toList_indent_configuration h.1.1 (ih1 h.1.1)
    have h2 := toList_indent_configuration h.1.2 (ih2 h.1.2)
    unfold configuration recipe Recipe.chars Settings.chars lineStart
    simp only [String.toList_append, hopen, hline, hmultiplier, hwidth, hclose, h1, h2,
      toList_toString_nat, toList_toString_string, TwiddleWidth.toList_configuration,
      Multiplier.toList_configuration, List.append_assoc, List.cons_append, List.nil_append,
      List.replicate_succ, List.replicate_zero]
  | radix4 s d sub1 ih1 =>
    have hopen : (toString "FftSpdf(").toList = call "FftSpdf" := by decide
    simp only [recipe, Recipe.strings, List.forall_mem_append] at h
    have h1 := toList_indent_configuration h.1 (ih1 h.1)
    unfold configuration recipe Recipe.chars Settings.chars lineStart
    simp only [String.toList_append, hopen, hline, hmultiplier, hwidth, hclose, h1,
      toList_toString_nat, toList_toString_string, TwiddleWidth.toList_configuration,
      Multiplier.toList_configuration, List.append_assoc, List.cons_append, List.nil_append,
      List.replicate_succ, List.replicate_zero]

/-- Of trees that callers can make, no two have the same text. -/
theorem configuration_eq_iff {a b : Core} (ha : a.Reachable) (hb : b.Reachable)
    (hqa : ∀ s ∈ a.recipe.strings, Quotable s) (hqb : ∀ s ∈ b.recipe.strings, Quotable s) :
    a.configuration = b.configuration ↔ a = b := by
  refine ⟨fun h => ?_, congrArg configuration⟩
  have hchars : a.recipe.chars 0 ++ [] = b.recipe.chars 0 ++ [] := by
    rw [← toList_configuration hqa, ← toList_configuration hqb, h]
  have hend : ([] : List Char).head? ≠ some '.' := nofun
  obtain ⟨hrecipe, -⟩ := Recipe.chars_append_inj hqa hqb hend hend hchars
  have hbuilt : Except.ok (ε := Fault) a = .ok b := by
    rw [← build_recipe ha.coherent, ← build_recipe hb.coherent, hrecipe]
  exact Except.ok.inj hbuilt

/-- The nested core with this width of twiddles at its root. -/
def nestedWith (w : TwiddleWidth) : Core := nested.mapStage (·.useTwiddleWidth w)

theorem configuration_nestedWith_ne :
    (∀ w, (nestedWith w).Reachable) ∧
      (∀ s ∈ (nestedWith (.symbol "16")).recipe.strings, Quotable s) ∧
      (∀ s ∈ (nestedWith (.literal 16)).recipe.strings, Quotable s) ∧
      (nestedWith (.symbol "16")).configuration ≠ (nestedWith (.literal 16)).configuration := by
  have hreachable : ∀ w, (nestedWith w).Reachable := fun w => reachable_nested.useTwiddleWidth w
  have hsymbol : ∀ s ∈ (nestedWith (.symbol "16")).recipe.strings, Quotable s := by decide
  have hliteral : ∀ s ∈ (nestedWith (.literal 16)).recipe.strings, Quotable s := by decide
  refine ⟨hreachable, hsymbol, hliteral, fun h => ?_⟩
  have heq := (configuration_eq_iff (hreachable _) (hreachable _) hsymbol hliteral).1 h
  exact absurd heq (by decide)

end Core
end StreamingFft
