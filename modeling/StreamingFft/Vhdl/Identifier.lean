/-!
Basic identifiers: a letter, then letters and digits, with single underlines between them.
-/
namespace StreamingFft.Vhdl

/-- Letters and digits, each preceded by at most one underline. -/
def continuesIdentifier : List Char → Bool
  | [] => true
  | '_' :: c :: rest => c.isAlphanum && continuesIdentifier rest
  | c :: rest => c.isAlphanum && continuesIdentifier rest

/-- Whether a name is a basic identifier. -/
def isBasicIdentifier (name : String) : Bool :=
  match name.toList with
  | [] => false
  | c :: rest => c.isAlpha && continuesIdentifier rest

end StreamingFft.Vhdl
