import Mathlib.Data.List.Basic
import StreamingFft.Text.Layout
/-!
The words and marks of a text. Blanks, tabs and line ends only keep words apart, so that a text may be
cut wherever no word is cut, and indentation changes nothing. Text without the few characters that
readers look for is passed over.
-/
namespace StreamingFft.Vhdl

/-- What names and numbers are made of. -/
def isWordChar (c : Char) : Bool := c.isAlphanum || c == '_'

def isSpace (c : Char) : Bool := c == ' ' || c == '\t' || c == '\n'

inductive Token where
  | word (text : List Char)
  | mark (c : Char)
deriving DecidableEq, Repr

namespace Token

def startsInWord (cs : List Char) : Bool := cs.head?.any isWordChar

def endsInWord (cs : List Char) : Bool := cs.getLast?.any isWordChar

/-- Adds a character to the word that follows; without one, it is a word of its own. -/
def attach (c : Char) (adjacent : Bool) : List Token → List Token
  | word w :: ts => if adjacent then word (c :: w) :: ts else word [c] :: word w :: ts
  | ts => word [c] :: ts

def scan : List Char → List Token
  | [] => []
  | c :: cs =>
    if isWordChar c then attach c (startsInWord cs) (scan cs)
    else if isSpace c then scan cs
    else mark c :: scan cs

theorem attach_false (c : Char) (ts : List Token) : attach c false ts = word [c] :: ts := by
  unfold attach
  split <;> rfl

theorem scan_of_isWordChar {c : Char} (hc : isWordChar c = true) (cs : List Char) :
    scan (c :: cs) = attach c (startsInWord cs) (scan cs) :=
  if_pos hc

theorem exists_scan_eq_word {cs : List Char} (h : startsInWord cs = true) :
    ∃ w ts, scan cs = word w :: ts := by
  cases cs with
  | nil => cases h
  | cons c cs =>
    rw [scan_of_isWordChar h]
    unfold attach
    split
    · split
      · exact ⟨_, _, rfl⟩
      · exact ⟨_, _, rfl⟩
    · exact ⟨_, _, rfl⟩

theorem attach_append {c : Char} {cs : List Char} (ts : List Token) :
    attach c (startsInWord cs) (scan cs ++ ts) = attach c (startsInWord cs) (scan cs) ++ ts := by
  cases h : startsInWord cs with
  | false => rw [attach_false, attach_false, List.cons_append]
  | true =>
    obtain ⟨w, us, hw⟩ := exists_scan_eq_word h
    rw [hw]
    rfl

/-- A text may be cut where no word is cut. -/
theorem scan_append {a b : List Char} (h : endsInWord a = false ∨ startsInWord b = false) :
    scan (a ++ b) = scan a ++ scan b := by
  induction a with
  | nil => rfl
  | cons c a ih =>
    cases a with
    | nil =>
      by_cases hc : isWordChar c = true
      · have hb : startsInWord b = false := by
          rcases h with h | h
          · exact absurd (hc.symm.trans h) (by decide)
          · exact h
        rw [List.singleton_append, scan_of_isWordChar hc, scan_of_isWordChar hc, hb, attach_false]
        rfl
      · simp only [List.singleton_append, scan, hc, Bool.false_eq_true, if_false]
        split <;> rfl
    | cons d a =>
      have ih' := ih (by rwa [endsInWord, List.getLast?_cons_cons] at h)
      -- whether `c` joins the word behind it depends on `d` alone
      have hstart : startsInWord (d :: a ++ b) = startsInWord (d :: a) := rfl
      by_cases hc : isWordChar c = true
      · rw [List.cons_append, scan_of_isWordChar hc, scan_of_isWordChar hc, hstart, ih', attach_append]
      · rw [List.cons_append, scan, scan, if_neg hc, if_neg hc, ih']
        split <;> rfl

theorem endsInWord_append {a b : List Char} (hb : b ≠ []) : endsInWord (a ++ b) = endsInWord b := by
  rw [endsInWord, endsInWord, List.getLast?_append_of_ne_nil a hb]

/-- Text that no word reaches into from either side. -/
structure IsSeparator (sep : List Char) : Prop where
  start : startsInWord sep = false
  stop : endsInWord sep = false
  ne_nil : sep ≠ []

instance (sep : List Char) : Decidable (IsSeparator sep) :=
  decidable_of_iff (startsInWord sep = false ∧ endsInWord sep = false ∧ sep ≠ [])
    ⟨fun h => ⟨h.1, h.2.1, h.2.2⟩, fun h => ⟨h.start, h.stop, h.ne_nil⟩⟩

theorem scan_around (a : List Char) {sep : List Char} (b : List Char) (h : IsSeparator sep) :
    scan (a ++ sep ++ b) = scan a ++ scan sep ++ scan b := by
  have hend : endsInWord (a ++ sep) = false := (endsInWord_append h.ne_nil).trans h.stop
  rw [scan_append (Or.inl hend), scan_append (Or.inr h.start)]

/-- Separators stay between the pieces. -/
theorem scan_intercalate {sep : String} (hsep : IsSeparator sep.toList) (ss : List String) :
    scan (sep.intercalate ss).toList = (scan sep.toList).intercalate (ss.map (scan ·.toList)) := by
  induction ss with
  | nil =>
    rw [String.intercalate_nil]
    rfl
  | cons s ss ih =>
    cases ss with
    | nil => rw [String.intercalate_singleton, List.map_singleton, List.intercalate_singleton]
    | cons r ss =>
      rw [String.intercalate_cons_cons, String.toList_append, String.toList_append,
        scan_around _ _ hsep, ih]
      exact List.intercalate_cons_cons.symm

/-- A run of word characters is one word. -/
theorem scan_word {w : List Char} (hne : w ≠ []) (hw : w.all isWordChar = true) :
    scan w = [word w] := by
  induction w with
  | nil => exact absurd rfl hne
  | cons c w ih =>
    rw [List.all_cons, Bool.and_eq_true] at hw
    rw [scan_of_isWordChar hw.1]
    cases w with
    | nil => rfl
    | cons d w =>
      have hd : startsInWord (d :: w) = true := by
        rw [List.all_cons, Bool.and_eq_true] at hw
        exact hw.2.1
      rw [ih (List.cons_ne_nil d w) hw.2, hd]
      rfl

theorem mem_of_mark_mem_scan {c : Char} {cs : List Char} (h : mark c ∈ scan cs) : c ∈ cs := by
  induction cs with
  | nil => cases h
  | cons d cs ih =>
    rw [scan] at h
    split at h
    · have hmem : mark c ∈ scan cs := by
        revert h
        unfold attach
        split
        · split <;> simp_all
        · simp
      exact List.mem_cons_of_mem d (ih hmem)
    · split at h
      · exact List.mem_cons_of_mem d (ih h)
      · rcases List.mem_cons.1 h with h | h
        · cases h
          exact List.mem_cons_self
        · exact List.mem_cons_of_mem d (ih h)

theorem startsInWord_indentChars (tabs cs : List Char) :
    startsInWord (Text.indentChars tabs false cs) = startsInWord cs := by
  cases cs with
  | nil => rfl
  | cons c cs =>
    rw [Text.indentChars]
    split <;> rfl

theorem scan_tabs_append (k : Nat) (cs : List Char) :
    scan (List.replicate k '\t' ++ cs) = scan cs := by
  induction k with
  | zero => rfl
  | succ k ih => exact ih

theorem scan_indentChars (k : Nat) (fresh : Bool) (cs : List Char) :
    scan (Text.indentChars (List.replicate k '\t') fresh cs) = scan cs := by
  induction cs generalizing fresh with
  | nil => rfl
  | cons c cs ih =>
    have hcons : scan (c :: Text.indentChars (List.replicate k '\t') false cs) = scan (c :: cs) := by
      rw [scan, scan, startsInWord_indentChars, ih]
    rw [Text.indentChars]
    split
    · next h =>
      subst h
      exact ih true
    · split
      · rw [scan_tabs_append, hcons]
      · exact hcons

/-- Indented or not, a text has the same words and marks. -/
theorem scan_indent (levels : Nat) (text : String) :
    scan (Text.indent levels text).toList = scan text.toList := by
  rw [Text.indent, String.toList_ofList, scan_indentChars]

theorem endsInWord_cons {c : Char} {cs : List Char} (h : cs ≠ []) :
    endsInWord (c :: cs) = endsInWord cs :=
  endsInWord_append (a := [c]) h

theorem indentChars_ne_nil {tabs : List Char} {fresh : Bool} {cs : List Char} (h : cs ≠ []) :
    Text.indentChars tabs fresh cs ≠ [] := by
  cases cs with
  | nil => exact absurd rfl h
  | cons c cs =>
    rw [Text.indentChars]
    split
    · exact List.cons_ne_nil _ _
    · split
      · exact List.append_ne_nil_of_right_ne_nil _ (List.cons_ne_nil _ _)
      · exact List.cons_ne_nil _ _

theorem endsInWord_indentChars (tabs : List Char) (fresh : Bool) (cs : List Char) :
    endsInWord (Text.indentChars tabs fresh cs) = endsInWord cs := by
  induction cs generalizing fresh with
  | nil => rfl
  | cons c cs ih =>
    have hcons : ∀ fresh, endsInWord (c :: Text.indentChars tabs fresh cs) = endsInWord (c :: cs) := by
      intro fresh
      by_cases hne : cs = []
      · rw [hne]
        rfl
      · rw [endsInWord_cons hne, endsInWord_cons (indentChars_ne_nil hne), ih]
    rw [Text.indentChars]
    split
    · exact hcons true
    · split
      · rw [endsInWord_append (List.cons_ne_nil _ _)]
        exact hcons false
      · exact hcons false

theorem endsInWord_indent (levels : Nat) (text : String) :
    endsInWord (Text.indent levels text).toList = endsInWord text.toList := by
  rw [Text.indent, String.toList_ofList, endsInWord_indentChars]

end Token

-- There are finitely many characters; what is said of those in a list is still decided along the list.
attribute [instance (1100)] List.decidableBAll

/-- What readers of text look for: the end of a clause, the arrow of an assignment, and the colon in
front of a type or an entity. -/
def stops : List Char := [';', '<', ':']

/-- Text in which readers find nothing to stop at. -/
def Plain (s : String) : Prop := ∀ c ∈ s.toList, c ∉ stops

instance (s : String) : Decidable (Plain s) := inferInstanceAs (Decidable (∀ c ∈ s.toList, c ∉ stops))

theorem Plain.mark_notMem {s : String} (h : Plain s) {c : Char} (hc : c ∈ stops) :
    .mark c ∉ Token.scan s.toList :=
  fun hmem => h c (Token.mem_of_mark_mem_scan hmem) hc

@[simp] theorem plain_append {s t : String} : Plain (s ++ t) ↔ Plain s ∧ Plain t := by
  unfold Plain
  rw [String.toList_append, List.forall_mem_append]

/-- No character of a word is a mark. -/
theorem notMem_of_isWordChar {c : Char} (hc : isWordChar c = false) {s : List Char}
    (hs : s.all isWordChar = true) : c ∉ s :=
  fun h => absurd (hc.symm.trans (List.all_eq_true.1 hs c h)) (by decide)

theorem plain_of_isWordChar {s : String} (h : s.toList.all isWordChar = true) : Plain s := by
  have hword : ∀ c ∈ stops, isWordChar c = false := by decide
  exact fun c hc hstop => notMem_of_isWordChar (hword c hstop) h hc

theorem all_isWordChar_toDigits (n : Nat) : (Nat.toDigits 10 n).all isWordChar = true := by
  apply List.all_eq_true.2
  intro c hc
  have hdigit : c.isDigit = true := Nat.isDigit_of_mem_toDigits (by decide) (by decide) hc
  rw [isWordChar, Char.isAlphanum, hdigit, Bool.or_true, Bool.true_or]

theorem notMem_repr {c : Char} (hc : isWordChar c = false) (n : Nat) : c ∉ (Nat.repr n).toList := by
  rw [Nat.toList_repr]
  exact notMem_of_isWordChar hc (all_isWordChar_toDigits n)

theorem plain_repr (n : Nat) : Plain (Nat.repr n) := by
  apply plain_of_isWordChar
  rw [Nat.toList_repr]
  exact all_isWordChar_toDigits n

/-- What holds of the characters of the pieces and of the separator holds of all characters. -/
theorem forall_mem_intercalate {P : Char → Prop} {separator : String}
    (hsep : ∀ c ∈ separator.toList, P c) {ss : List String} (h : ∀ s ∈ ss, ∀ c ∈ s.toList, P c) :
    ∀ c ∈ (separator.intercalate ss).toList, P c := by
  induction ss with
  | nil =>
    rw [String.intercalate_nil]
    exact fun c hc => absurd hc List.not_mem_nil
  | cons s ss ih =>
    rw [List.forall_mem_cons] at h
    cases ss with
    | nil =>
      rw [String.intercalate_singleton]
      exact h.1
    | cons r ss =>
      rw [String.intercalate_cons_cons, String.toList_append, String.toList_append,
        List.forall_mem_append, List.forall_mem_append]
      exact ⟨⟨h.1, hsep⟩, ih h.2⟩

theorem plain_intercalate {separator : String} (hsep : Plain separator) {ss : List String}
    (h : ∀ s ∈ ss, Plain s) : Plain (separator.intercalate ss) :=
  forall_mem_intercalate hsep h

end StreamingFft.Vhdl
