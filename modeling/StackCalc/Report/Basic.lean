/-
Reports of errors.

A report says what went wrong, under which code it is explained, which bytes of the source
text are to blame, and anything that may help.  Only the first label is drawn under the
source text; all of them appear in the JSON form.
-/
import StackCalc.Source.Span

namespace StackCalc

/-- Bytes of the source text, with what is to be said about them. -/
structure Label where
  span : Span
  message : String
deriving DecidableEq, Repr

/-- An error as it is shown to a reader. -/
structure Report where
  message : String
  code : Option String := none
  labels : List Label := []
  notes : List String := []
  suggestion : Option String := none
  /-- The text that the labels are about. -/
  source : Option String := none
deriving DecidableEq, Repr

end StackCalc
