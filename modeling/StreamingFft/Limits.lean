import StreamingFft.Numeric.Power
/-!
Bounds shared by the checks: words, the memory behind them, and the admissible twiddle widths.
-/
namespace StreamingFft

/-- Sizes, moduli and addresses are 64-bit words; a product that does not fit is reported as this. -/
def maxWord : Nat := 2 ^ 64 - 1

/-- Bits of a word. -/
def wordBits : Nat := 64

/-- A list in memory has less than `2 ^ 63` bytes, and a word takes eight of them. -/
def maxEntries : Nat := 2 ^ 60 - 1

/-- Most bytes of a text in memory. -/
def maxTextBytes : Nat := 2 ^ 63 - 1

/-- Narrowest twiddle word: a sign and one more bit. -/
def narrowestWord : Nat := 2

/-- Widest twiddle word: scaled samples stay exact well inside a double. -/
def widestWord : Nat := 32

end StreamingFft
