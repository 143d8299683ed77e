/-!
Layout of text: bracketed lists and tab indentation.
-/
namespace StreamingFft.Text

/-- Items between brackets, separated by a comma and a blank. -/
def bracketed (items : List String) : String :=
  "[" ++ ", ".intercalate items ++ "]"

/-- Numbers in decimal between brackets. -/
def natList (ns : List Nat) : String :=
  bracketed (ns.map toString)

/-- Puts `tabs` in front of each line that is not empty; `fresh` says that a line starts here. -/
def indentChars (tabs : List Char) : (fresh : Bool) → List Char → List Char
  | _, [] => []
  | fresh, c :: rest =>
    if c = '\n' then c :: indentChars tabs true rest
    else if fresh then tabs ++ c :: indentChars tabs false rest
    else c :: indentChars tabs false rest

/-- Indents every line that is not empty by `levels` tabs. -/
def indent (levels : Nat) (text : String) : String :=
  String.ofList (indentChars (List.replicate levels '\t') true text.toList)

end StreamingFft.Text
