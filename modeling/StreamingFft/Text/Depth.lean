import StreamingFft.Fault
/-!
Indentation to a depth that has room in memory.
-/
namespace StreamingFft.Text

/-- Whether memory has the bytes that are set aside for an indented text: its own, and eight for each
level. -/
def HasRoom (levels : Nat) (text : String) : Prop :=
  text.utf8ByteSize + levels * 8 ≤ maxTextBytes

instance (levels : Nat) (text : String) : Decidable (HasRoom levels text) :=
  inferInstanceAs (Decidable (_ ≤ _))

/-- Indents by any number of tabs for which there is room. -/
def indentBy (levels : Nat) (text : String) : Except Fault String :=
  if HasRoom levels text then .ok (indent levels text) else .error (.overflow .indentation)

theorem indentBy_eq_ok_iff {levels : Nat} {text result : String} :
    indentBy levels text = .ok result ↔ HasRoom levels text ∧ indent levels text = result := by
  rw [indentBy, ite_eq_ok_iff, Except.ok.injEq]

end StreamingFft.Text
