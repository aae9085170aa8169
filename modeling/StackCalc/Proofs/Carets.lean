/-
Carets stand under the bytes that a label is about.

A label may start and stop anywhere: inside a character, on the newline that ends a line, past
all that shows of it, or it may stop before it starts.  Its start alone decides which line is
shown, and how far the carets are set in is the distance from the front of that line, in bytes.

The number of carets is cut off at both ends: there are no more than there is room for in what
shows of the line, and there is never none.  For a label that starts in what shows and is not
empty the lower bound does nothing, so its carets stop where the label stops or where the line
does, whichever comes first.  Any other label has one caret.
-/
import StackCalc.Proofs.SourceLines
import StackCalc.Report.Render

namespace StackCalc

/-! ### The line of an offset -/

/-- The line with this number, which begins at `start`, holds the offset: it begins no later,
and no newline stands between the two.  So a newline is held by the line that it ends. -/
structure LineHolds (source : String) (offset number start : Nat) : Prop where
  starts : LineStart source.toUTF8.data.toList number start
  start_le : start ≤ offset
  newline_notMem : 10 ∉ (source.toUTF8.data.toList.take offset).drop start
  inside : offset ≤ source.utf8ByteSize

theorem count_take_of_le (bytes : List UInt8) {start offset : Nat} (h : start ≤ offset) :
    (bytes.take offset).count 10 =
      (bytes.take start).count 10 + ((bytes.take offset).drop start).count 10 := by
  have hfront : (bytes.take offset).take start = bytes.take start := by
    rw [List.take_take, Nat.min_eq_left h]
  rw [← hfront, ← List.count_append, List.take_append_drop]

/-- Between the start of a line and an offset on it there is no newline. -/
theorem LineStart.newline_notMem {bytes : List UInt8} {number start offset : Nat}
    (h : LineStart bytes number start) (hle : start ≤ offset)
    (hnumber : number = 1 + (bytes.take offset).count 10) :
    10 ∉ (bytes.take offset).drop start := by
  have hcount := count_take_of_le bytes hle
  have hstart := h.newlines
  exact List.count_eq_zero.mp (by omega)

/-- Only one line holds an offset. -/
theorem LineHolds.number_eq {source : String} {offset number start : Nat}
    (h : LineHolds source offset number start) :
    number = 1 + (source.toUTF8.data.toList.take offset).count 10 := by
  have hcount := count_take_of_le source.toUTF8.data.toList h.start_le
  have hnone := List.count_eq_zero.mpr h.newline_notMem
  have hstart := h.starts.newlines
  omega

namespace LineMap

/-- An offset is looked up on the line that holds it. -/
theorem lineHolds_lookup {source : String} {offset start : Nat}
    (hstart : LineStart source.toUTF8.data.toList ((ofSource source).lookup offset).line start)
    (hle : start ≤ offset) (hinside : offset ≤ source.utf8ByteSize) :
    LineHolds source offset ((ofSource source).lookup offset).line start := by
  have hline := line_lookup source offset
  rw [← toUTF8_eq_utf8] at hline
  exact ⟨hstart, hle, hstart.newline_notMem hle hline, hinside⟩

/-- The line that an offset is looked up on starts where the column says. -/
theorem column_lookup {source : String} {offset start : Nat}
    (hstart : LineStart source.toUTF8.data.toList ((ofSource source).lookup offset).line start) :
    start ≤ offset ∧ offset + 1 = start + ((ofSource source).lookup offset).column := by
  obtain ⟨start', hstart', hle, hcolumn⟩ := exists_lineStart source offset
  rw [← toUTF8_eq_utf8] at hstart'
  obtain rfl := hstart.unique hstart'
  exact ⟨hle, hcolumn⟩

end LineMap

/-! ### The carets -/

/-- The carets under what shows of a line, as a span asks for them. -/
structure CaretsUnder (line span : Span) (indent carets : Nat) : Prop where
  start_eq : line.start + indent = span.start
  pos : 1 ≤ carets
  /-- A span that is not empty and starts in what shows is underlined to its end, or to the end
  of what shows. -/
  stop_eq : span.start < line.stop → span.start < span.stop →
    line.start + indent + carets = min span.stop line.stop
  /-- Of any other span only the start is marked. -/
  single : line.stop ≤ span.start ∨ span.stop ≤ span.start → carets = 1

namespace Excerpt

theorem caretsUnder {source : String} {label : Label} {line : Span} {ending : String}
    (h : LineMap.ShowsLine source ((LineMap.ofSource source).lookup label.span.start).line line
      ending) :
    CaretsUnder line label.span (ofLabel source label).indent (ofLabel source label).carets := by
  obtain ⟨hle, hcolumn⟩ := LineMap.column_lookup h.starts
  have hstop : line.stop = line.start + (ofLabel source label).text.utf8ByteSize := by
    obtain ⟨before, after, -, hline⟩ := h.text
    rw [hline]
    rfl
  have hindent : (ofLabel source label).indent =
      ((LineMap.ofSource source).lookup label.span.start).column - 1 := rfl
  have hcarets : (ofLabel source label).carets =
      max 1 (min (label.span.stop - label.span.start)
        (max 1 ((ofLabel source label).text.utf8ByteSize - (ofLabel source label).indent))) := rfl
  refine ⟨?_, ?_, ?_, ?_⟩
  · omega
  · omega
  · intro hshows hsome
    omega
  · intro hnothing
    omega

/-! ### The rows -/

/-- A row of the excerpt: the gutter, a bar and what stands behind it. -/
def row (gutter content : String) : String :=
  gutter ++ " | " ++ content ++ "\n"

/-- What stands behind the carets. -/
def caption (message : String) : String :=
  if message = "" then "" else " " ++ message

/-- The plain excerpt shows the line under its number, and the carets in the row below. -/
theorem exists_layout_plain (e : Excerpt) :
    ∃ below, e.layout false =
      "  --> " ++ toString e.position.line ++ ":" ++ toString e.position.column ++ "\n" ++
        repeated (toString e.position.line).length ' ' ++ " |\n" ++
        row (toString e.position.line) e.text ++
        row (repeated (toString e.position.line).length ' ')
          (repeated e.indent ' ' ++ repeated e.carets '^' ++ caption e.message) ++ below := by
  have harrow : "  --> " = "  " ++ "-->" ++ " " := rfl
  have hbar : " | " = " " ++ "|" ++ " " := rfl
  have hlast : " |\n" = " " ++ "|" ++ "\n" := rfl
  refine ⟨repeated (toString e.position.line).length ' ' ++ " |\n", ?_⟩
  unfold layout row caption
  rw [harrow, hbar, hlast]
  simp only [paint, Bool.false_eq_true, if_false, String.append_assoc]

end Excerpt

namespace Report

/-- The plain report shows the label in the line with this number, of which the bytes of `line`
show, and draws this many carets, set in so far. -/
structure ShowsLabel (r : Report) (source : String) (label : Label) (number : Nat) (line : Span)
    (indent carets : Nat) : Prop where
  holds : LineHolds source label.span.start number line.start
  shows : ∃ ending, LineMap.ShowsLine source number line ending
  under : CaretsUnder line label.span indent carets
  /-- The row of the carets comes right below that of the line, with a gutter as wide. -/
  rows : ∃ below, r.render .text =
    r.headline false ++ "  --> " ++ toString number ++ ":" ++ toString (indent + 1) ++ "\n" ++
      repeated (toString number).length ' ' ++ " |\n" ++
      Excerpt.row (toString number) ((LineMap.ofSource source).lineText number) ++
      Excerpt.row (repeated (toString number).length ' ')
        (repeated indent ' ' ++ repeated carets '^' ++ Excerpt.caption label.message) ++ below

/-- **The carets of a plain report stand under its label.**  The first label is shown in the line
that holds its start, under the number of that line, wherever the label stops.  In the row below
the carets are set in by the bytes between the front of the line and the label, and they
underline the label as far as the line shows it. -/
theorem exists_showsLabel {r : Report} {source : String} {label : Label} {others : List Label}
    (hsource : r.source = some source) (hlabels : r.labels = label :: others)
    (hstart : label.span.start ≤ source.utf8ByteSize) :
    ∃ number line indent carets, r.ShowsLabel source label number line indent carets := by
  obtain ⟨line, hshows⟩ := LineMap.exists_showsLine_lookup source label.span.start
  obtain ⟨hle, hcolumn⟩ := LineMap.column_lookup hshows.starts
  obtain ⟨below, hlayout⟩ := (Excerpt.ofLabel source label).exists_layout_plain
  have hexcerpt : r.excerpt? = some (.ofLabel source label) := by
    rw [excerpt?, hsource, hlabels]
  have hindent : (Excerpt.ofLabel source label).position.column =
      (Excerpt.ofLabel source label).indent + 1 := by
    show ((LineMap.ofSource source).lookup label.span.start).column =
      ((LineMap.ofSource source).lookup label.span.start).column - 1 + 1
    omega
  refine ⟨_, line, _, _, LineMap.lineHolds_lookup hshows.starts hle hstart, ⟨_, hshows⟩,
    Excerpt.caretsUnder hshows, below ++ (String.join (r.notes.map (remark false "note")) ++
      r.suggestion.elim "" (remark false "suggestion")), ?_⟩
  show r.layout false = _
  rw [layout, hexcerpt, Option.elim_some, hlayout, hindent]
  simp only [String.append_assoc]
  rfl

/-- A label that starts inside a character and goes on past the end of its line. -/
def clipped : Report where
  message := "bad"
  labels := [⟨⟨7, 40⟩, "here"⟩]
  source := some "1 +\r\n\"é\" * 2\r\n3"

/-- The line has eight bytes and two of them are before the label, so there are six carets. -/
theorem render_clipped :
    ∃ below, clipped.render .text =
      "error: bad\n  --> 2:3\n  |\n2 | \"é\" * 2\n  |   ^^^^^^ here\n" ++ below := by
  obtain ⟨number, line, indent, carets, hlabel⟩ := exists_showsLabel
    (r := clipped) rfl rfl (show 7 ≤ "1 +\r\n\"é\" * 2\r\n3".utf8ByteSize by decide)
  have hnumber : number = 2 := hlabel.holds.number_eq.trans (by decide)
  subst hnumber
  obtain ⟨ending, hshows⟩ := hlabel.shows
  have hstart : line.start = 5 :=
    hshows.starts.unique ⟨by decide, by decide, Or.inr (by decide)⟩
  have hstop : line.stop = 13 := by
    obtain ⟨before, after, -, hline⟩ := hshows.text
    have hsize : ((LineMap.ofSource "1 +\r\n\"é\" * 2\r\n3").lineText 2).utf8ByteSize = 8 := by
      decide
    rw [hline, hsize] at hstart ⊢
    exact congrArg (· + 8) hstart
  have hindent := hlabel.under.start_eq
  have hcarets := hlabel.under.stop_eq
  simp only [hstart, hstop] at hindent hcarets
  obtain rfl : indent = 2 := by omega
  obtain rfl : carets = 6 := by omega
  exact hlabel.rows

end Report

end StackCalc
