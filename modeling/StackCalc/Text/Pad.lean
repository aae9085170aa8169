/-
Fixed-width columns.

A column never cuts: a text wider than its column is written whole.  Widths count
characters, and every text padded here is ASCII.
-/

namespace StackCalc

/-- One character `n` times. -/
def repeated (n : Nat) (c : Char) : String :=
  String.ofList (List.replicate n c)

/-- The text at the right edge of a column. -/
def padLeft (width : Nat) (fill : Char) (s : String) : String :=
  repeated (width - s.length) fill ++ s

/-- The text at the left edge of a column. -/
def padRight (width : Nat) (s : String) : String :=
  s ++ repeated (width - s.length) ' '

/-- A byte offset, with zeros up to four digits. -/
def fourDigits (n : Nat) : String :=
  padLeft 4 '0' (toString n)

end StackCalc
