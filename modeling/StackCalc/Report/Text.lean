/-
Reports for people.

Below the message stands the line of the source text that the first label starts on, and
under it a row of carets.  Columns count bytes, as everywhere; the carets stop at the end
of the line and there is always at least one.

Colour is a matter of paint alone.  The coloured form is laid out by the same function as
the plain one and differs from it only in the escapes that `paint` puts around a piece of
text.
-/
import StackCalc.Report.Basic
import StackCalc.Source.LineMap
import StackCalc.Text.Pad

namespace StackCalc

/-! ### The excerpt under the message -/

/-- The line of the source text that a label starts on, and its carets. -/
structure Excerpt where
  position : Position
  /-- The line's text. -/
  text : String
  /-- How many columns stand before the carets. -/
  indent : Nat
  carets : Nat
  message : String
deriving DecidableEq, Repr

/-- The excerpt that shows a label. -/
def Excerpt.ofLabel (source : String) (label : Label) : Excerpt :=
  let map := LineMap.ofSource source
  let position := map.lookup label.span.start
  let text := map.lineText position.line
  let indent := position.column - 1
  let room := max 1 (text.utf8ByteSize - indent)
  { position := position
    text := text
    indent := indent
    carets := max 1 (min (label.span.stop - label.span.start) room)
    message := label.message }

/-- The excerpt of a report: it needs a source text and a label. -/
def Report.excerpt? (r : Report) : Option Excerpt :=
  match r.source, r.labels with
  | some source, label :: _ => some (.ofLabel source label)
  | _, _ => none

/-! ### Paint -/

/-- How a piece of text stands out. -/
inductive Style where
  | bold
  | boldRed
  | cyan
  | dim
deriving DecidableEq, Repr

/-- The parameters of the escape that starts the style. -/
def Style.parameters : Style → String
  | bold => "1"
  | boldRed => "1;31"
  | cyan => "36"
  | dim => "2"

/-- The text in a style, if there is to be colour at all. -/
def paint (colour : Bool) (style : Style) (text : String) : String :=
  if colour then "\x1b[" ++ style.parameters ++ "m" ++ text ++ "\x1b[0m" else text

/-! ### Layout -/

/-- The first line: the code, if there is one, and the message. -/
def Report.headline (colour : Bool) (r : Report) : String :=
  let head := match r.code with
    | some code => "error[" ++ code ++ "]"
    | none => "error"
  paint colour .boldRed head ++ ": " ++ paint colour .bold r.message ++ "\n"

/-- The excerpt, in five lines with a gutter as wide as the line number. -/
def Excerpt.layout (colour : Bool) (e : Excerpt) : String :=
  let number := toString e.position.line
  let pad := repeated number.length ' '
  let bar := paint colour .cyan "|"
  let message := if e.message = "" then "" else " " ++ paint colour .boldRed e.message
  "  " ++ paint colour .cyan "-->" ++ " " ++ number ++ ":" ++ toString e.position.column ++ "\n" ++
    pad ++ " " ++ bar ++ "\n" ++
    paint colour .cyan number ++ " " ++ bar ++ " " ++ e.text ++ "\n" ++
    pad ++ " " ++ bar ++ " " ++ repeated e.indent ' ' ++
      paint colour .boldRed (repeated e.carets '^') ++ message ++ "\n" ++
    pad ++ " " ++ bar ++ "\n"

/-- A line of further information. -/
def remark (colour : Bool) (kind text : String) : String :=
  "  " ++ paint colour .dim "=" ++ " " ++ kind ++ ": " ++ text ++ "\n"

/-- The whole report. -/
def Report.layout (colour : Bool) (r : Report) : String :=
  r.headline colour ++
    r.excerpt?.elim "" (Excerpt.layout colour) ++
    String.join (r.notes.map (remark colour "note")) ++
    r.suggestion.elim "" (remark colour "suggestion")

end StackCalc
