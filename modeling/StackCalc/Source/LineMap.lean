/-
The lines of a source text.

The text is cut after every newline, so there is one line more than there are newlines and
the last one may be empty.  An offset belongs to the last line that starts at or before it:
a newline belongs to the line it ends, and an offset past the end to the last line.
-/
import StackCalc.Source.Span
import StackCalc.Text.Blank

namespace StackCalc

/-- One line: the offset of its first byte, and its characters with the newline that ends
it. -/
structure Line where
  start : Nat
  chars : List Char

namespace Line

/-- A character that ends a line. -/
def isTerminator (c : Char) : Bool :=
  c == '\n' || c == '\r'

/-- The characters that show: those before the terminators. -/
def visible (l : Line) : List Char :=
  dropEndWhile isTerminator l.chars

/-- The text that shows. -/
def text (l : Line) : String :=
  String.ofList l.visible

/-- The bytes of the text that shows. -/
def span (l : Line) : Span :=
  ⟨l.start, l.start + byteLength l.visible⟩

/-- Cuts the rest of a text into lines.  `start` is where the current line starts and
`seen` holds what has been read of it, last character first. -/
def cut (start : Nat) (seen : List Char) (done : Array Line) : List Char → Array Line
  | [] => done.push ⟨start, seen.reverse⟩
  | c :: cs =>
    if c = '\n' then
      let chars := (c :: seen).reverse
      cut (start + byteLength chars) [] (done.push ⟨start, chars⟩) cs
    else cut start (c :: seen) done cs

end Line

/-- The lines of one source text, in order. -/
structure LineMap where
  lines : Array Line

namespace LineMap

def ofSource (source : String) : LineMap :=
  ⟨Line.cut 0 [] #[] source.toList⟩

def lineCount (m : LineMap) : Nat :=
  m.lines.size

/-- The line with a number, counted from one. -/
def line? (m : LineMap) (number : Nat) : Option Line :=
  match number with
  | 0 => none
  | n + 1 => m.lines[n]?

/-- The position of a byte offset. -/
def lookup (m : LineMap) (offset : Nat) : Position :=
  let number := max 1 (m.lines.countP fun l => decide (l.start ≤ offset))
  let start := (m.line? number).elim 0 Line.start
  ⟨number, offset - start + 1⟩

/-- The text of a line without its terminator; empty when there is no such line. -/
def lineText (m : LineMap) (number : Nat) : String :=
  (m.line? number).elim "" Line.text

/-- The bytes of a line without its terminator. -/
def lineSpan? (m : LineMap) (number : Nat) : Option Span :=
  (m.line? number).map Line.span

end LineMap

end StackCalc
