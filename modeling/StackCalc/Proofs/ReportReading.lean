/-
A report in JSON can be read back.

A program that reads reports takes them line by line and looks up fields by their names.  Two
things have to hold for it.  A report is one line, whatever texts are in it: every control
character of a text is written as an escape, and nothing else that is written is a control.  And
what it finds under the names is what the report says.

`ShownReport` is all that a report says in this form.  Its source is not part of it, but the
positions of its labels are, and these are there exactly when there is a source to look them up
in.  The reader below knows nothing but names.  It takes the fields in any order, and it refuses
an object that gives a field twice.
-/
import StackCalc.Proofs.JsonReading
import StackCalc.Report.Render

namespace StackCalc

namespace Json

/-! ### One line -/

/-- No control character is in the text. -/
def Printable (cs : List Char) : Prop :=
  ∀ c ∈ cs, 0x20 ≤ c.toNat

instance (cs : List Char) : Decidable (Printable cs) :=
  List.decidableBAll _ cs

theorem Printable.append {as bs : List Char} (ha : Printable as) (hb : Printable bs) :
    Printable (as ++ bs) :=
  List.forall_mem_append.mpr ⟨ha, hb⟩

theorem Printable.cons {c : Char} {cs : List Char} (hc : 0x20 ≤ c.toNat) (hcs : Printable cs) :
    Printable (c :: cs) :=
  List.forall_mem_cons.mpr ⟨hc, hcs⟩

theorem printable_hexByte :
    ∀ n < 0x20, Printable ('\\' :: 'u' :: '0' :: '0' :: hexByte n) := by
  decide

theorem printable_escapeChar (c : Char) : Printable (escapeChar c) := by
  by_cases hshort : c ∈ ['"', '\\', '\x08', '\x0c', '\n', '\r', '\t']
  · simp only [List.mem_cons, List.not_mem_nil, or_false] at hshort
    rcases hshort with rfl | rfl | rfl | rfl | rfl | rfl | rfl
    all_goals decide
  · rw [escapeChar_of_notMem hshort]
    by_cases hcontrol : c.toNat < 0x20
    · rw [if_pos hcontrol]
      exact printable_hexByte c.toNat hcontrol
    · rw [if_neg hcontrol]
      exact .cons (Nat.not_lt.mp hcontrol) (by decide)

theorem printable_flatMap_escapeChar (cs : List Char) : Printable (cs.flatMap escapeChar) := by
  intro x hx
  obtain ⟨c, -, hc⟩ := List.mem_flatMap.mp hx
  exact printable_escapeChar c x hc

theorem printable_quote (s : String) : Printable (quote s).toList := by
  rw [toList_quote]
  exact .cons (by decide) ((printable_flatMap_escapeChar s.toList).append (by decide))

theorem printable_toString (n : Nat) : Printable (toString n).toList := by
  intro c hc
  rw [Nat.toString_eq_ofList_toDigits, String.toList_ofList] at hc
  have hdigit : c.isDigit = true := Nat.isDigit_of_mem_toDigits (by omega) (by omega) hc
  have hzero : '0'.val ≤ c.val := of_decide_eq_true (Bool.and_eq_true_iff.mp hdigit).1
  have hle : '0'.toNat ≤ c.toNat := hzero
  exact Nat.le_trans (by decide) hle

mutual

/-- **A document without blanks is one line.** -/
theorem printable_compact : ∀ j : Json, Printable j.compact.toList
  | null => by decide
  | bool true => by decide
  | bool false => by decide
  | num n => printable_toString n
  | str s => printable_quote s
  | arr items => by
      rw [toList_compact_arr]
      exact .cons (by decide) ((printable_compactItems items).append (by decide))
  | obj fields => by
      rw [toList_compact_obj]
      exact .cons (by decide) ((printable_compactFields fields).append (by decide))

theorem printable_compactItems : ∀ items : List Json, Printable (compactItems items).toList
  | [] => by decide
  | [j] => printable_compact j
  | j :: k :: items => by
      rw [toList_compactItems]
      exact (printable_compact j).append (.cons (by decide) (printable_compactItems (k :: items)))

theorem printable_compactFields :
    ∀ fields : List (String × Json), Printable (compactFields fields).toList
  | [] => by decide
  | [(name, j)] => by
      rw [toList_compactFields_single]
      exact .cons (by decide) ((printable_flatMap_escapeChar name.toList).append
        (.cons (by decide) (.cons (by decide) (printable_compact j))))
  | (name, j) :: field :: fields => by
      rw [toList_compactFields]
      exact .cons (by decide) ((printable_flatMap_escapeChar name.toList).append
        (.cons (by decide) (.cons (by decide) ((printable_compact j).append
          (.cons (by decide) (printable_compactFields (field :: fields)))))))

end

/-! ### Fields by name -/

/-- All that an object says under a name. -/
def valuesOf (name : String) : Json → List Json
  | obj fields => fields.filterMap fun field => if field.1 = name then some field.2 else none
  | _ => []

/-- Reads a field that stands once. -/
def required? {α : Type} (read : Json → Option α) (name : String) (j : Json) : Option α :=
  match j.valuesOf name with
  | [value] => read value
  | _ => none

/-- Reads a field that may be missing. -/
def optional? {α : Type} (read : Json → Option α) (name : String) (j : Json) :
    Option (Option α) :=
  match j.valuesOf name with
  | [] => some none
  | [value] => (read value).map some
  | _ => none

def text? : Json → Option String
  | str s => some s
  | _ => none

def number? : Json → Option Nat
  | num n => some n
  | _ => none

def list? {α : Type} (read : Json → Option α) : Json → Option (List α)
  | arr items => items.mapM read
  | _ => none

/-- A list of what can be read is read. -/
theorem list?_map {α : Type} {read : Json → Option α} {write : α → Json}
    (h : ∀ a, read (write a) = some a) (l : List α) : (arr (l.map write)).list? read = some l := by
  show (l.map write).mapM read = some l
  induction l with
  | nil => rfl
  | cons a l ih => simp [h, ih]

end Json

/-! ### What a report says -/

/-- A label as a program sees it. -/
structure ShownLabel where
  span : Span
  message : String
  line : Option Nat
  column : Option Nat
deriving DecidableEq, Repr

/-- A report as a program sees it. -/
structure ShownReport where
  severity : String
  message : String
  code : Option String
  labels : List ShownLabel
  notes : List String
  suggestion : Option String
deriving DecidableEq, Repr

namespace ShownLabel

def ofJson? (j : Json) : Option ShownLabel := do
  let start ← j.required? Json.number? "start"
  let stop ← j.required? Json.number? "end"
  let message ← j.required? Json.text? "message"
  let line ← j.optional? Json.number? "line"
  let column ← j.optional? Json.number? "col"
  some ⟨⟨start, stop⟩, message, line, column⟩

def toJson (l : ShownLabel) : Json :=
  .obj ((l.column.map fun n => ("col", .num n)).toList ++ ("end", .num l.span.stop) ::
    ((l.line.map fun n => ("line", .num n)).toList ++
      [("message", .str l.message), ("start", .num l.span.start)]))

theorem ofJson?_toJson (l : ShownLabel) : ofJson? l.toJson = some l := by
  obtain ⟨span, message, line, column⟩ := l
  cases line <;> cases column <;>
    simp [ofJson?, toJson, Json.required?, Json.optional?, Json.valuesOf, Json.number?, Json.text?]

end ShownLabel

namespace ShownReport

def ofJson? (j : Json) : Option ShownReport := do
  let severity ← j.required? Json.text? "severity"
  let message ← j.required? Json.text? "message"
  let code ← j.optional? Json.text? "code"
  let labels ← j.required? (Json.list? ShownLabel.ofJson?) "labels"
  let notes ← j.required? (Json.list? Json.text?) "notes"
  let suggestion ← j.optional? Json.text? "suggestion"
  some ⟨severity, message, code, labels, notes, suggestion⟩

def toJson (r : ShownReport) : Json :=
  .obj (Report.optionalField "code" r.code ++
    [("labels", .arr (r.labels.map ShownLabel.toJson)),
      ("message", .str r.message),
      ("notes", .arr (r.notes.map Json.str)),
      ("severity", .str r.severity)] ++
    Report.optionalField "suggestion" r.suggestion)

/-- Each field is found under its name, and the optional ones when they are there. -/
theorem ofJson?_toJson (r : ShownReport) : ofJson? r.toJson = some r := by
  obtain ⟨severity, message, code, labels, notes, suggestion⟩ := r
  have hlabels := Json.list?_map ShownLabel.ofJson?_toJson labels
  have hnotes := Json.list?_map (fun s => show (Json.str s).text? = some s from rfl) notes
  cases code <;> cases suggestion <;>
    simp [ofJson?, toJson, Report.optionalField, Json.required?, Json.optional?, Json.valuesOf,
      Json.text?, hlabels, hnotes]

end ShownReport

namespace Label

/-- What is said of a label where this is the source. -/
def shown (source : Option String) (l : Label) : ShownLabel where
  span := l.span
  message := l.message
  line := source.map fun text => ((LineMap.ofSource text).lookup l.span.start).line
  column := source.map fun text => ((LineMap.ofSource text).lookup l.span.start).column

theorem toJson_eq (source : Option String) (l : Label) :
    l.toJson (source.map LineMap.ofSource) = (l.shown source).toJson := by
  cases source <;> rfl

end Label

namespace Report

/-- What the report says. -/
def shown (r : Report) : ShownReport where
  severity := "error"
  message := r.message
  code := r.code
  labels := r.labels.map (Label.shown r.source)
  notes := r.notes
  suggestion := r.suggestion

theorem toJson_eq (r : Report) : r.toJson = r.shown.toJson := by
  have hlabels : r.labels.map (Label.toJson (r.source.map LineMap.ofSource)) =
      r.shown.labels.map ShownLabel.toJson := by
    rw [shown, List.map_map]
    exact List.map_congr_left fun l _ => l.toJson_eq r.source
  simp only [toJson, ShownReport.toJson, hlabels]
  rfl

/-- **A report in JSON is a line that says all of it.**  But for the newline at its end it has no
control character, and reading it back gives the severity, the message, the code and the
suggestion if there are any, and all notes and labels in order, the labels with the positions
that their starts are looked up at if there is a source.  So reports are written the same exactly
when they say the same. -/
theorem render_json_reads_back (r : Report) :
    (∃ line, r.render .json = line ++ "\n" ∧ (∀ c ∈ line.toList, 0x20 ≤ c.toNat) ∧
      (Json.read? line).bind ShownReport.ofJson? = some r.shown) ∧
    ∀ r' : Report, r.render .json = r'.render .json ↔ r.shown = r'.shown := by
  constructor
  · refine ⟨r.toJson.compact, rfl, Json.printable_compact r.toJson, ?_⟩
    rw [Json.read?_compact, Option.bind_some, toJson_eq, ShownReport.ofJson?_toJson]
  · intro r'
    constructor
    · intro h
      have hcompact : r.toJson.compact = r'.toJson.compact := (String.append_left_inj "\n").mp h
      have hjson : r.shown.toJson = r'.shown.toJson := by
        rw [← toJson_eq, ← toJson_eq, Json.compact_inj hcompact]
      have hread := ShownReport.ofJson?_toJson r.shown
      rw [hjson, ShownReport.ofJson?_toJson] at hread
      exact (Option.some.inj hread).symm
    · intro h
      show r.toJson.compact ++ "\n" = r'.toJson.compact ++ "\n"
      rw [toJson_eq, toJson_eq, h]

/-- Controls, quotes and a backslash in the texts, and two labels, one on a second line and one
past the end of the source. -/
def unruly : Report where
  message := "a\nb\x01\\"
  labels := [⟨⟨3, 2⟩, "\"\t\x7f"⟩, ⟨⟨9, 9⟩, ""⟩]
  notes := ["é", ""]
  source := some "x\né"

/-- The text that is read has no newline, and what is read has them all. -/
theorem read_unruly :
    (Json.read? (String.join ["\x7b\"labels\":[",
      "\x7b\"col\":2,\"end\":2,\"line\":2,\"message\":\"\\\"\\t\x7f\",\"start\":3\x7d,",
      "\x7b\"col\":8,\"end\":9,\"line\":2,\"message\":\"\",\"start\":9\x7d],",
      "\"message\":\"a\\nb\\u0001\\\\\",\"notes\":[\"é\",\"\"],",
      "\"severity\":\"error\"\x7d"])).bind ShownReport.ofJson? =
    some ⟨"error", "a\nb\x01\\", none,
      [⟨⟨3, 2⟩, "\"\t\x7f", some 2, some 2⟩, ⟨⟨9, 9⟩, "", some 2, some 8⟩], ["é", ""], none⟩ := by
  obtain ⟨line, hline, -, hread⟩ := (render_json_reads_back unruly).1
  have hsame : line = unruly.toJson.compact := ((String.append_left_inj "\n").mp hline).symm
  rw [hsame] at hread
  exact hread

end Report

end StackCalc
