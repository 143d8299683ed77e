import StreamingFft.BitOrder.Basic
/-!
Expressions on the right of an assignment, in a port or generic map, and in the bounds of a type.
-/
namespace StreamingFft.Vhdl

inductive Expr where
  /-- A signal, constant, generic or port. -/
  | name (id : String)
  | nat (n : Nat)
  | flag (value : Bool)
  | add (a b : Expr)
  | sub (a b : Expr)
  | mul (a b : Expr)
  /-- One bit of a vector. -/
  | bit (vector : String) (index : Nat)
  /-- The lowest `count` bits of a vector. -/
  | low (vector : String) (count : Nat)
  /-- Bits side by side, the higher ones on the left. -/
  | concat (high low : Expr)
  /-- A vector of one bit. -/
  | single (bit : Expr)
  /-- Text chosen by the caller. -/
  | verbatim (text : String)
deriving DecidableEq, Repr

namespace Expr

def text : Expr → String
  | name id => id
  | nat n => toString n
  | flag value => if value then "true" else "false"
  | add a b => s!"{a.text}+{b.text}"
  | sub a b => s!"{a.text}-{b.text}"
  | mul a b => s!"{a.text}*{b.text}"
  | bit v i => s!"{v}({i})"
  | low v n => s!"{v}({n}-1 downto 0)"
  | concat a b => s!"{a.text} & {b.text}"
  | single e => s!"(0 => {e.text})"
  | verbatim t => t

/-- The listed bits of a vector side by side, the last entry on the left. -/
def bits (vector : String) (first : Nat) : List Nat → Expr
  | [] => bit vector first
  | i :: rest => concat (bits vector i rest) (bit vector first)

/-- The vector rearranged by an order. -/
def select (o : BitOrder) (vector : String) : Expr :=
  match o.bits with
  | [] => name vector
  | [i] => single (bit vector i)
  | i :: rest => bits vector i rest

end Expr
end StreamingFft.Vhdl
