/-
Reports for programs.

A report is one JSON object on one line.  Fields stand in alphabetical order, and those
that a report does not have are left out.  The position of a label is known only when there
is a source text to look it up in.
-/
import StackCalc.Report.Basic
import StackCalc.Source.LineMap
import StackCalc.Text.Json

namespace StackCalc

/-- A label, with its position if there is a source text. -/
def Label.toJson (map : Option LineMap) (l : Label) : Json :=
  match map with
  | some map =>
    let position := map.lookup l.span.start
    .obj [("col", .num position.column), ("end", .num l.span.stop), ("line", .num position.line),
      ("message", .str l.message), ("start", .num l.span.start)]
  | none => .obj [("end", .num l.span.stop), ("message", .str l.message), ("start", .num l.span.start)]

namespace Report

/-- A field that is there only when it has something to say. -/
def optionalField (name : String) (text : Option String) : List (String × Json) :=
  match text with
  | some s => [(name, .str s)]
  | none => []

/-- The report as a JSON object. -/
def toJson (r : Report) : Json :=
  let map := r.source.map LineMap.ofSource
  .obj (optionalField "code" r.code ++
    [("labels", .arr (r.labels.map (Label.toJson map))),
      ("message", .str r.message),
      ("notes", .arr (r.notes.map Json.str)),
      ("severity", .str "error")] ++
    optionalField "suggestion" r.suggestion)

end Report

end StackCalc
