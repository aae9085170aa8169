/-
One error, one position.

The position of an error is computed more than once.  The scanner counts lines and columns as it
goes.  The parser takes over the position of a token or, where the input ends too early, adds
the length of the last token to its column.  And each way of showing a report looks up the
first byte to blame in the lines of the text.

All of these agree for one reason: looking up an offset gives the position that the scanner had
there.  For the end of the input one more fact is needed.  No token holds a newline, so the
place just past the last one is on its line, even if blank lines follow.
-/
import StackCalc.Proofs.Layout
import StackCalc.Proofs.NodeSpans
import StackCalc.Proofs.ParseErrors
import StackCalc.Proofs.ScanErrors

namespace StackCalc

/-! ### The end of a token -/

/-- A token stands on one line. -/
theorem IsLexeme.newline_notMem {kind : TokenKind} {text : List Char} (h : IsLexeme kind text) :
    '\n' ∉ text := by
  by_cases hkind : kind = .string
  · subst hkind
    cases h with
    | string _ hline => simpa using hline
  · intro hmem
    exact h.notMem_gapStarts hkind '\n' hmem (by decide)

theorem LineMap.column_lookup_le (m : LineMap) (offset : Nat) :
    (m.lookup offset).column ≤ offset + 1 :=
  Nat.succ_le_succ (Nat.sub_le offset _)

/-- Text without a newline moves a place to the right on its line. -/
theorem Place.position_after_of_notMem {cs : List Char} (h : '\n' ∉ cs) (p : Place) :
    (p.after cs).position = ⟨p.position.line, p.position.column + byteLength cs⟩ := by
  have hline := line_after cs p
  rw [List.count_eq_zero.mpr h, Nat.add_zero] at hline
  rw [← hline, ← column_after_of_notMem cs p h]

namespace Token.Placed

variable {source : String} {t : Token}

/-- The place just past a token is as far behind its start as the token is long. -/
theorem lookup_stop (h : t.Placed source) :
    (LineMap.ofSource source).lookup t.site.span.stop =
      ⟨t.site.position.line,
        t.site.position.column + (t.site.span.stop - t.site.span.start)⟩ := by
  obtain ⟨before, after, hsource, hspan⟩ := h.covers
  have hstart : source.toList = before.toList ++ (t.written.toList ++ after.toList) := by
    rw [hsource]
    simp
  have hstop : source.toList = (before.toList ++ t.written.toList) ++ after.toList := by
    rw [hstart, List.append_assoc]
  have hposition : t.site.position = (Place.start.after before.toList).position := by
    rw [h.position, hspan, ← byteLength_toList, LineMap.lookup_ofSource hstart]
  calc (LineMap.ofSource source).lookup t.site.span.stop
      = (LineMap.ofSource source).lookup (byteLength (before.toList ++ t.written.toList)) := by
        rw [hspan, byteLength_append, byteLength_toList, byteLength_toList]
    _ = ((Place.start.after before.toList).after t.written.toList).position := by
        rw [LineMap.lookup_ofSource hstop, Place.after_append]
    _ = ⟨t.site.position.line, t.site.position.column + byteLength t.written.toList⟩ := by
        rw [Place.position_after_of_notMem h.lexeme.newline_notMem, hposition]
    _ = _ := by
        rw [hspan, byteLength_toList, Nat.add_sub_cancel_left]

theorem stop_le (h : t.Placed source) : t.site.span.stop ≤ source.utf8ByteSize := by
  obtain ⟨before, after, rfl, hspan⟩ := h.covers
  rw [hspan, String.utf8ByteSize_append, String.utf8ByteSize_append]
  exact Nat.le_add_right _ _

end Token.Placed

/-! ### The sites that the parser blames -/

namespace Parser

/-- The error is that input is missing, at its end, or is at one of the tokens. -/
inductive BlamedAt (finish : Site) (tokens : List Token) (err : ParseError) : Prop
  | finish (hcode : err.code = "PL0-P002") (hsite : err.site = finish)
  | token (t : Token) (ht : t ∈ tokens) (hcode : err.code ≠ "PL0-P002") (hsite : err.site = t.site)

/-- A reading that fails has a place to blame, and what is left by one that does not are some of
the tokens. -/
def Located (finish : Site) {tokens : List Token} : Except ParseError (Parsed tokens) → Prop
  | .ok p => p.rest ⊆ tokens
  | .error err => BlamedAt finish tokens err

variable {finish : Site} {tokens : List Token}

theorem BlamedAt.mono {part : List Token} {err : ParseError} (h : BlamedAt finish part err)
    (hpart : part ⊆ tokens) : BlamedAt finish tokens err := by
  cases h with
  | finish hcode hsite => exact .finish hcode hsite
  | token t ht hcode hsite => exact .token t (hpart ht) hcode hsite

/-- A height is checked in the name of one of the tokens. -/
theorem Located.checkHeight {height : Nat} {blamed : Token}
    {next : Unit → Except ParseError (Parsed tokens)} (hblamed : blamed ∈ tokens)
    (hnext : Located finish (next ())) :
    Located finish (Parser.checkHeight height blamed >>= next) := by
  by_cases hheight : maxHeight < height
  · rw [Parser.checkHeight, if_pos hheight]
    exact .token blamed hblamed (by simp [ParseError.code, ParseFault.code]) rfl
  · rw [Parser.checkHeight, if_neg hheight]
    exact hnext

/-- What was read of some of the tokens can be gone on with. -/
theorem Located.bind {part : List Token} {first : Except ParseError (Parsed part)}
    {next : Parsed part → Except ParseError (Parsed tokens)} (h : Located finish first)
    (hpart : part ⊆ tokens)
    (hnext : ∀ x : Parsed part, x.rest ⊆ tokens → Located finish (next x)) :
    Located finish (first >>= next) := by
  cases first with
  | error err => exact BlamedAt.mono h hpart
  | ok x => exact hnext x (List.Subset.trans h hpart)

theorem chainFrom_located {level : Level} {operand : Category}
    (h : ∀ part, Located finish (operand part)) (left : Parsed tokens) :
    left.rest ⊆ tokens → Located finish (chainFrom level operand left) := by
  fun_induction chainFrom level operand left with
  | case1 left hrest =>
      intro hleft
      exact hleft
  | case2 left op afterOp hrest haccepts ih =>
      -- What is left after the right operand is part of what was left after the left one, so the
      -- loop never blames a token from outside.
      intro hleft
      rw [hrest, List.cons_subset] at hleft
      refine (h afterOp).bind hleft.2 ?_
      intro right hright
      exact .checkHeight hleft.1 (ih right hright)
  | case3 left op afterOp hrest haccepts =>
      intro hleft
      exact hleft

theorem chain_located {level : Level} {operand : Category}
    (h : ∀ part, Located finish (operand part)) (tokens : List Token) :
    Located finish (chain level operand tokens) :=
  (h tokens).bind (List.Subset.refl _) fun first hfirst => chainFrom_located h first hfirst

theorem expressionOf_located {operand : Category} (h : ∀ part, Located finish (operand part)) :
    ∀ tokens, Located finish (expressionOf operand tokens) :=
  chain_located (chain_located (chain_located (chain_located h)))

theorem closed_located {opener : Token} {rest : List Token} (x : Parsed rest)
    (hx : x.rest ⊆ opener :: rest) : Located finish (closed finish opener x) := by
  cases hrest : x.rest with
  | nil =>
      rw [closed_of_nil hrest]
      exact .finish rfl rfl
  | cons t afterParen =>
      rw [hrest, List.cons_subset] at hx
      by_cases hcloser : t.kind = .mark .rightParen
      · obtain ⟨p, hp, -, -, hafter⟩ := closed_of_paren finish opener hrest hcloser
        rw [hp]
        refine .checkHeight List.mem_cons_self ?_
        show p.rest ⊆ opener :: rest
        rw [hafter]
        exact hx.2
      · rw [closed_of_other finish opener hrest hcloser]
        exact .token t hx.1 (by simp [ParseError.code, ParseFault.code]) rfl

theorem operandStep_located {inner : Option Category}
    (hinner : ∀ operand, inner = some operand → ∀ part, Located finish (operand part))
    (tokens : List Token) : Located finish (operandStep finish inner tokens) := by
  cases tokens with
  | nil => exact .finish rfl rfl
  | cons t rest =>
      have ht : t ∈ t :: rest := List.mem_cons_self
      have hrest : rest ⊆ t :: rest := List.subset_cons_self t rest
      simp only [operandStep]
      split
      · split
        · exact .token t ht (by simp [ParseError.code, ParseFault.code]) rfl
        · rename_i operand
          refine (hinner operand rfl rest).bind hrest ?_
          intro x hx
          exact .checkHeight ht hx
      · split
        · exact hrest
        · split
          · split
            · exact .token t ht (by simp [ParseError.code, ParseFault.code]) rfl
            · rename_i operand
              refine (expressionOf_located (hinner operand rfl) rest).bind hrest ?_
              exact closed_located
          · refine .token t ht ?_ rfl
            intro hcode
            have hcodes := (code_refusal t).1
            rw [show (refusal t).code = _ from hcode] at hcodes
            simp at hcodes

theorem operand_located (finish : Site) (budget : Nat) :
    ∀ tokens, Located finish (operand finish budget tokens) := by
  induction budget with
  | zero =>
      intro tokens
      refine @operandStep_located finish none ?_ tokens
      intro operand h
      cases h
  | succ budget ih =>
      intro tokens
      refine @operandStep_located finish (some (operand finish budget)) ?_ tokens
      intro operand h
      rw [← Option.some.inj h]
      exact ih

theorem dropDot_subset (ts : List Token) : dropDot ts ⊆ ts := by
  cases ts with
  | nil => exact List.Subset.refl _
  | cons t rest =>
      rw [dropDot]
      split
      · exact List.subset_cons_self t rest
      · exact List.Subset.refl _

/-- **The parser blames a token or, where input is missing, its end.** -/
theorem blamedAt_of_ofTokens {err : ParseError} (h : Expr.ofTokens tokens = .error err) :
    BlamedAt (endOf tokens) tokens err := by
  have hlocated : Located (endOf tokens) (expression (endOf tokens) maxNesting tokens) :=
    expressionOf_located (operand_located (endOf tokens) maxNesting) tokens
  rcases bind_eq_error h with herr | ⟨p, hp, herr⟩
  · rw [herr] at hlocated
    exact hlocated
  · rw [hp] at hlocated
    have hleft : dropDot p.rest ⊆ tokens := List.Subset.trans (dropDot_subset p.rest) hlocated
    split at herr
    · cases herr
    · rename_i t rest hdrop
      rw [hdrop] at hleft
      rw [← Except.error.inj herr]
      exact .token t (hleft List.mem_cons_self) (by simp [ParseError.code, ParseFault.code]) rfl

end Parser

/-! ### Positions of the errors of a source text -/

theorem LineMap.lookup_zero (source : String) : (ofSource source).lookup 0 = ⟨1, 1⟩ :=
  @lookup_ofSource source [] source.toList rfl

theorem Token.position_of_scan_error {source : String} {e : LexError}
    (h : scan source = .error e) :
    e.site.position = (LineMap.ofSource source).lookup e.site.span.start := by
  obtain ⟨before, tiles, bad, rest, -, -, -, rfl⟩ := scan_eq_error_iff.mp h
  rfl

namespace Parser

variable {source : String} {ts : List Token}

/-- The end of the input is just past the last token.  In a text that fits in memory its column
is a word like all others. -/
theorem endOf_of_scan (hscan : Token.scan source = .ok ts)
    (hsize : source.utf8ByteSize + 1 < wordValues) {last : Token}
    (hlast : ts.getLast? = some last) :
    endOf ts = ⟨(LineMap.ofSource source).lookup last.site.span.stop,
      ⟨last.site.span.stop, last.site.span.stop⟩⟩ := by
  have hplaced := Token.placed_of_scan hscan last (List.mem_of_getLast? hlast)
  have hstop := hplaced.lookup_stop
  have hcolumn : last.site.position.column + (last.site.span.stop - last.site.span.start) ≤
      last.site.span.stop + 1 := by
    have hle := (LineMap.ofSource source).column_lookup_le last.site.span.stop
    rwa [hstop] at hle
  have hwithin := hplaced.stop_le
  rw [endOf_of_getLast? hlast (Nat.le_of_lt hplaced.nonempty), hstop,
    Nat.mod_eq_of_lt (by omega)]

/-- Only the column of the end of the input is computed, so only there its size matters. -/
theorem position_of_ofTokens_error (hscan : Token.scan source = .ok ts) {err : ParseError}
    (h : Expr.ofTokens ts = .error err)
    (hsize : err.code = "PL0-P002" → source.utf8ByteSize + 1 < wordValues) :
    err.site.position = (LineMap.ofSource source).lookup err.site.span.start := by
  cases blamedAt_of_ofTokens h with
  | finish hcode hsite =>
      rw [hsite]
      cases hlast : ts.getLast? with
      | none =>
          rw [endOf, hlast]
          exact (LineMap.lookup_zero source).symm
      | some last => rw [endOf_of_scan hscan (hsize hcode) hlast]
  | token t ht _ hsite =>
      rw [hsite]
      exact (Token.placed_of_scan hscan t ht).position

end Parser

/-! ### What is shown -/

/-- A position as readers see it. -/
def Position.text (p : Position) : String :=
  toString p.line ++ ":" ++ toString p.column

/-- The value of a field of an object. -/
def Json.field? (name : String) : Json → Option Json
  | obj fields => fields.lookup name
  | _ => none

/-- Everything that is shown of the error of a text shows the position: the message of its
stage, the arrow of the report, plain or coloured, and the one label of the report in JSON. -/
structure ShownAt (source stage : String) (error : CompileError) (p : Position) : Prop where
  interpreted : interpret source = .error (.compile error source)
  message : ∃ detail, error.message = stage ++ " error at " ++ p.text ++ ": " ++ detail
  text : ∃ rest, (RunError.compile error source).report.render .text =
    (RunError.compile error source).report.headline false ++ "  --> " ++ p.text ++ "\n" ++ rest
  ansi : ∃ rest, (RunError.compile error source).report.render .ansi =
    (RunError.compile error source).report.headline true ++ "  \x1b[36m-->\x1b[0m " ++ p.text ++
      "\n" ++ rest
  json : ∃ label, (RunError.compile error source).report.render .json =
      (RunError.compile error source).report.toJson.compact ++ "\n" ∧
    (RunError.compile error source).report.toJson.field? "labels" = some (.arr [label]) ∧
    label.field? "line" = some (.num p.line) ∧ label.field? "col" = some (.num p.column)

theorem Excerpt.exists_layout (e : Excerpt) (colour : Bool) :
    ∃ rest, e.layout colour =
      ("  " ++ paint colour .cyan "-->" ++ " ") ++ e.position.text ++ "\n" ++ rest := by
  unfold Excerpt.layout
  simp only [Position.text, String.append_assoc, String.append_right_inj, exists_eq']

/-- The arrow of a report points at where its label starts. -/
theorem Report.exists_layout {r : Report} {source : String} {label : Label}
    (hsource : r.source = some source) (hlabels : r.labels = [label]) (colour : Bool) :
    ∃ rest, r.layout colour = r.headline colour ++ ("  " ++ paint colour .cyan "-->" ++ " ") ++
      ((LineMap.ofSource source).lookup label.span.start).text ++ "\n" ++ rest := by
  obtain ⟨rest, hexcerpt⟩ := (Excerpt.ofLabel source label).exists_layout colour
  have hshown : r.excerpt? = some (.ofLabel source label) := by
    rw [excerpt?, hsource, hlabels]
  refine ⟨rest ++ (String.join (r.notes.map (remark colour "note")) ++
    r.suggestion.elim "" (remark colour "suggestion")), ?_⟩
  rw [layout, hshown, Option.elim_some, hexcerpt]
  simp only [String.append_assoc]
  rfl

/-- The one label of a report in JSON has the position where it starts. -/
theorem Report.exists_label {r : Report} {source : String} {label : Label}
    (hsource : r.source = some source) (hlabels : r.labels = [label]) :
    ∃ object, r.toJson.field? "labels" = some (.arr [object]) ∧
      object.field? "line" = some (.num ((LineMap.ofSource source).lookup label.span.start).line) ∧
      object.field? "col" =
        some (.num ((LineMap.ofSource source).lookup label.span.start).column) := by
  refine ⟨label.toJson (some (LineMap.ofSource source)), ?_, rfl, rfl⟩
  rw [toJson, hsource, hlabels]
  cases r.code <;> rfl

/-- A report is drawn from the source text alone, so what it shows is the position that the
start of its label is looked up at. -/
theorem ShownAt.ofLabel {source stage detail : String} {error : CompileError} {label : Label}
    (hsource : Chunk.ofSource source = .error error) (hlabels : error.report.labels = [label])
    {p : Position} (hp : p = (LineMap.ofSource source).lookup label.span.start)
    (hmessage : error.message = stage ++ " error at " ++ p.text ++ ": " ++ detail) :
    ShownAt source stage error p := by
  subst hp
  have hreport : (RunError.compile error source).report.labels = [label] := hlabels
  refine ⟨?_, ⟨detail, hmessage⟩, Report.exists_layout rfl hreport false,
    Report.exists_layout rfl hreport true, ?_⟩
  · rw [interpret, hsource]
  · obtain ⟨object, hobject, hline, hcolumn⟩ := Report.exists_label rfl hreport
    exact ⟨object, rfl, hobject, hline, hcolumn⟩

theorem Chunk.ofSource_of_scan_error {source : String} {e : LexError}
    (h : Token.scan source = .error e) : Chunk.ofSource source = .error (.lex e) := by
  unfold Chunk.ofSource Expr.ofSource
  rw [h]
  rfl

theorem Chunk.ofSource_of_ofTokens_error {source : String} {ts : List Token} {e : ParseError}
    (hscan : Token.scan source = .ok ts) (h : Expr.ofTokens ts = .error e) :
    Chunk.ofSource source = .error (.parse e) := by
  unfold Chunk.ofSource Expr.ofSource
  rw [hscan]
  show (do let e ← (Expr.ofTokens ts).mapError _; _) = _
  rw [h]
  rfl

theorem LexError.message_eq (e : LexError) :
    e.message = "lexical" ++ " error at " ++ e.site.position.text ++ ": " ++
      ("'" ++ e.snippet ++ "'. " ++ e.suggestion) := by
  have hstage : "lexical error at " = "lexical" ++ " error at " := rfl
  have hquote : ": '" = ": " ++ "'" := rfl
  unfold message Position.text
  rw [hstage, hquote]
  simp only [String.append_assoc]

theorem ParseError.message_eq (e : ParseError) :
    e.message = "parse" ++ " error at " ++ e.site.position.text ++ ": " ++ e.detail := by
  have hstage : "parse error at " = "parse" ++ " error at " := rfl
  unfold message Position.text
  rw [hstage]
  simp only [String.append_assoc]

/-- **One error, one position.**  When a source text cannot be scanned or parsed, the position in
the error is the one at which the first byte to blame is looked up, and it is the position that
every message and every form of the report shows.  Where input is missing that byte is just past
the last token, which never ends before it starts, or at the start of a text without tokens.
Only there the column is computed, in a word of 64 bits, and a text that fits in memory is
shorter than such a word can say. -/
theorem position_of_error (source : String) :
    (∀ e, Token.scan source = .error e →
      e.site.position = (LineMap.ofSource source).lookup e.site.span.start ∧
      ShownAt source "lexical" (.lex e) e.site.position) ∧
    ∀ ts e, Token.scan source = .ok ts → Expr.ofTokens ts = .error e →
      (e.code = "PL0-P002" → source.utf8ByteSize + 1 < Parser.wordValues) →
      e.site.position = (LineMap.ofSource source).lookup e.site.span.start ∧
      ShownAt source "parse" (.parse e) e.site.position ∧
      (e.code = "PL0-P002" →
        (ts = [] → e.site = ⟨⟨1, 1⟩, ⟨0, 0⟩⟩) ∧
        ∀ last ∈ ts.getLast?, last.site.span.start ≤ last.site.span.stop ∧
          e.site = ⟨⟨last.site.position.line,
              last.site.position.column + (last.site.span.stop - last.site.span.start)⟩,
            ⟨last.site.span.stop, last.site.span.stop⟩⟩) := by
  constructor
  · intro e h
    have hposition := Token.position_of_scan_error h
    exact ⟨hposition, .ofLabel (Chunk.ofSource_of_scan_error h) rfl hposition e.message_eq⟩
  · intro ts e hscan h hsize
    have hposition := Parser.position_of_ofTokens_error hscan h hsize
    have hsource := Chunk.ofSource_of_ofTokens_error hscan h
    refine ⟨hposition, .ofLabel hsource rfl hposition e.message_eq, ?_⟩
    intro hcode
    cases Parser.blamedAt_of_ofTokens h with
    | token _ _ hother _ => exact absurd hcode hother
    | finish _ hsite =>
        rw [hsite]
        constructor
        · rintro rfl
          rfl
        · intro last hlast
          have hplaced := Token.placed_of_scan hscan last (List.mem_of_getLast? hlast)
          refine ⟨Nat.le_of_lt hplaced.nonempty, ?_⟩
          rw [Parser.endOf_of_scan hscan (hsize hcode) hlast, hplaced.lookup_stop]

/-- An open parenthesis and a sum that lacks an operand.  The string holds a character of two
bytes, and the lines end in two characters. -/
def openSum : String :=
  "(1 -\r\n\"é\"+\r\n\r\n"

def openSumTokens : List Token :=
  [⟨.mark .leftParen, "(", ⟨⟨1, 1⟩, ⟨0, 1⟩⟩⟩, ⟨.number .integer, "1", ⟨⟨1, 2⟩, ⟨1, 2⟩⟩⟩,
    ⟨.mark .minus, "-", ⟨⟨1, 4⟩, ⟨3, 4⟩⟩⟩, ⟨.string, "é", ⟨⟨2, 1⟩, ⟨6, 10⟩⟩⟩,
    ⟨.mark .plus, "+", ⟨⟨2, 5⟩, ⟨10, 11⟩⟩⟩]

/-- The blank lines at the end do not count: the place just past the plus is to blame. -/
theorem shownAt_openSum :
    ShownAt openSum "parse" (.parse ⟨.missingExpression, ⟨⟨2, 6⟩, ⟨11, 11⟩⟩⟩) ⟨2, 6⟩ ∧
      (LineMap.ofSource openSum).lookup 11 = ⟨2, 6⟩ := by
  have hscan : Token.scan openSum = .ok openSumTokens := by decide +kernel
  have hparse : Expr.ofTokens openSumTokens =
      .error ⟨.missingExpression, ⟨⟨2, 6⟩, ⟨11, 11⟩⟩⟩ := by
    decide +kernel
  have hsize : openSum.utf8ByteSize + 1 < Parser.wordValues := by decide
  obtain ⟨hposition, hshown, -⟩ := (position_of_error openSum).2 _ _ hscan hparse fun _ => hsize
  exact ⟨hshown, hposition.symm⟩

end StackCalc
