/-
The formats that a report can be written in.
-/
import StackCalc.Report.Json
import StackCalc.Report.Text

namespace StackCalc

/-- How reports are written. -/
inductive Format where
  | text
  | ansi
  | json
deriving DecidableEq, Repr

/-- A report in a format; it always ends its last line. -/
def Report.render (format : Format) (r : Report) : String :=
  match format with
  | .text => r.layout false
  | .ansi => r.layout true
  | .json => r.toJson.compact ++ "\n"

end StackCalc
