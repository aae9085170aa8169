/-
Blank characters, and cutting them off the end of a text.

The class is the one Unicode calls white space: twenty-five code points, of which six are
in ASCII.  It decides when a line of a session is empty and where its text ends, and
nothing else; what separates tokens is a smaller class that the scanner keeps for itself.
-/

namespace StackCalc

/-- The white space of Unicode: the five controls from tab to carriage return, the space,
and the blanks beyond ASCII. -/
def isBlank (c : Char) : Bool :=
  let n := c.toNat
  (0x09 ≤ n && n ≤ 0x0D) || n == 0x20 || n == 0x85 || n == 0xA0 || n == 0x1680 ||
    (0x2000 ≤ n && n ≤ 0x200A) || n == 0x2028 || n == 0x2029 || n == 0x202F ||
    n == 0x205F || n == 0x3000

/-- The characters up to the last one that fails `p`. -/
def dropEndWhile (p : Char → Bool) (cs : List Char) : List Char :=
  (cs.reverse.dropWhile p).reverse

/-- The text without the blanks at its end. -/
def trimEnd (s : String) : String :=
  String.ofList (dropEndWhile isBlank s.toList)

end StackCalc
