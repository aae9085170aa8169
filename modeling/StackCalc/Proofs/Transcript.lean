/-
What a session writes.

A session is a loop that may be ended at any byte it writes, and between two lines it keeps
nothing but the output.  `Sink.holding` says that where a sink fills up is of no consequence
to what it holds; so one exchange adds one text to the output, whatever happens inside it,
and the session as a whole adds the texts of its lines, one after another, and a last prompt.
What is left to tell apart is how it ended: with the write that did not fit, if there was
one, and else as the input did.

The text of an exchange is a prompt and an answer, and the answer is a function of the line
and the format alone.
-/
import StackCalc.Proofs.Output
import StackCalc.Session

namespace StackCalc

/-! ### Text without the blanks at its end -/

/-- Blanks after something else are all that is cut off. -/
theorem dropEndWhile_append {p : Char → Bool} {front blanks : List Char}
    (hblanks : ∀ c ∈ blanks, p c = true) (hfront : ∀ c ∈ front.getLast?, p c = false) :
    dropEndWhile p (front ++ blanks) = front := by
  unfold dropEndWhile
  rw [List.reverse_append, List.dropWhile_append_of_pos (by simpa using hblanks)]
  rcases List.eq_nil_or_concat front with rfl | ⟨before, c, rfl⟩
  · rfl
  · have hc : p c = false := hfront c (by simp)
    rw [List.concat_eq_append, List.reverse_append, List.reverse_singleton, List.singleton_append,
      List.dropWhile_cons_of_neg (by simp [hc])]
    simp

theorem trimEnd_append {source blanks : String} (hblanks : ∀ c ∈ blanks.toList, isBlank c = true)
    (hsource : ∀ c ∈ source.toList.getLast?, isBlank c = false) :
    trimEnd (source ++ blanks) = source := by
  rw [trimEnd, String.toList_append, dropEndWhile_append hblanks hsource, String.ofList_toList]

/-- Bytes are those of at most one text. -/
theorem fromUTF8?_toUTF8 (text : String) : String.fromUTF8? text.toUTF8 = some text := by
  unfold String.fromUTF8?
  rw [String.toUTF8_eq_toByteArray, dif_pos text.isValidUTF8]
  rfl

theorem fromUTF8?_eq_none {bytes : ByteArray} (h : ∀ text : String, text.toUTF8 ≠ bytes) :
    String.fromUTF8? bytes = none := by
  unfold String.fromUTF8?
  by_cases hvalid : bytes.IsValidUTF8
  · exact absurd rfl (h (String.fromUTF8 bytes hvalid))
  · rw [dif_neg hvalid]

namespace Session

/-! ### The lines of an input -/

/-- The input is made of the lines, a newline after each, and then the rest. -/
structure CutInto (input : List UInt8) (lines : List (List UInt8)) (rest : List UInt8) :
    Prop where
  joined : input = lines.flatMap (fun line => line ++ [newline]) ++ rest
  inLines : ∀ line ∈ lines, newline ∉ line
  inRest : newline ∉ rest

/-- Every input can be cut so. -/
theorem exists_cutInto (input : List UInt8) : ∃ lines rest, CutInto input lines rest := by
  induction input with
  | nil => exact ⟨[], [], rfl, by simp, by simp⟩
  | cons b input ih =>
      obtain ⟨lines, rest, rfl, hlines, hrest⟩ := ih
      by_cases hb : b = newline
      · subst hb
        refine ⟨[] :: lines, rest, rfl, ?_, hrest⟩
        simpa using hlines
      · rcases lines with _ | ⟨line, lines⟩
        · refine ⟨[], b :: rest, rfl, by simp, ?_⟩
          simp [hrest, Ne.symm hb]
        · refine ⟨(b :: line) :: lines, rest, rfl, ?_, hrest⟩
          intro other hother
          rcases List.mem_cons.mp hother with rfl | hother
          · simp [hlines line (by simp), Ne.symm hb]
          · exact hlines other (by simp [hother])

theorem cutLines_append {bytes : List UInt8} (h : newline ∉ bytes) :
    ∀ (seen : List UInt8) (done : Array (List UInt8)) (input : List UInt8),
      cutLines seen done (bytes ++ input) = cutLines (bytes.reverse ++ seen) done input := by
  induction bytes with
  | nil => intro seen done input; rfl
  | cons b bytes ih =>
      intro seen done input
      obtain ⟨hb, hbytes⟩ : newline ≠ b ∧ newline ∉ bytes := by simpa using h
      rw [List.cons_append, cutLines, if_neg (Ne.symm hb), ih hbytes]
      simp

theorem cutLines_of_cutInto {rest : List UInt8} (hrest : newline ∉ rest) :
    ∀ {lines : List (List UInt8)}, (∀ line ∈ lines, newline ∉ line) →
      ∀ done : Array (List UInt8),
        cutLines [] done (lines.flatMap (fun line => line ++ [newline]) ++ rest) =
          (done ++ lines.toArray, rest) := by
  intro lines
  induction lines with
  | nil =>
      intro _ done
      have hlast := cutLines_append hrest [] done []
      rw [List.append_nil] at hlast
      rw [List.flatMap_nil, List.nil_append, hlast]
      simp [cutLines]
  | cons line lines ih =>
      intro hlines done
      have htail : ∀ other ∈ lines, newline ∉ other := fun other hother =>
        hlines other (by simp [hother])
      rw [List.flatMap_cons, List.append_assoc, List.append_assoc,
        cutLines_append (hlines line (by simp)), List.singleton_append, cutLines, if_pos rfl,
        ih htail]
      simp

/-- A session answers the lines that a newline ends, and the rest if the input ends after
it. -/
theorem linesOf_of_cutInto {input rest : List UInt8} {lines : List (List UInt8)}
    (h : CutInto input lines rest) (breaks : Bool) :
    linesOf breaks input = if breaks ∨ rest = [] then lines else lines ++ [rest] := by
  have hcut := cutLines_of_cutInto h.inRest h.inLines #[]
  rw [← h.joined] at hcut
  unfold linesOf
  rw [hcut]
  by_cases hlast : breaks = true ∨ rest = []
  · simp [hlast]
  · simp [hlast]

/-! ### Answers -/

theorem answerLogged_untraced (format : Format) (line : List UInt8) (log : String) :
    answerLogged { format := format } line log = (answer format line, log) := by
  unfold answer answerLogged
  cases String.fromUTF8? ⟨line.toArray⟩ with
  | none => rfl
  | some text =>
      by_cases hempty : trimEnd text = ""
      · simp [hempty]
      · simp only [hempty, if_false, interpretLogged]
        cases interpret (trimEnd text) with
        | ok v => rfl
        | error e => rfl

/-- A line that is no text is reported as such. -/
theorem answer_of_not_text {line : List UInt8} (h : ∀ text : String, text.toUTF8 ≠ ⟨line.toArray⟩)
    (format : Format) :
    answer format line = (RunError.encoding "<stdin>").report.render format := by
  unfold answer answerLogged
  rw [fromUTF8?_eq_none h]

/-- A line of blanks has no answer. -/
theorem answer_of_blank {line : List UInt8} {text : String} (htext : text.toUTF8 = ⟨line.toArray⟩)
    (h : ∀ c ∈ text.toList, isBlank c = true) (format : Format) : answer format line = "" := by
  have hempty : trimEnd text = "" := by
    rw [← @String.empty_append text]
    exact trimEnd_append h (by simp)
  unfold answer answerLogged
  rw [← htext, fromUTF8?_toUTF8]
  simp [hempty]

/-- Any other line is run, without the blanks at its end. -/
theorem answer_of_program {line : List UInt8} {source blanks : String}
    (htext : (source ++ blanks).toUTF8 = ⟨line.toArray⟩)
    (hblanks : ∀ c ∈ blanks.toList, isBlank c = true) {last : Char}
    (hlast : source.toList.getLast? = some last) (hend : isBlank last = false) (format : Format) :
    answer format line =
      match interpret source with
      | .ok v => v.text ++ "\n"
      | .error e => e.report.render format := by
  have htrim : trimEnd (source ++ blanks) = source := by
    refine trimEnd_append hblanks ?_
    intro c hc
    rw [hlast, Option.mem_some_iff] at hc
    rw [← hc]
    exact hend
  have hsource : source ≠ "" := by
    rintro rfl
    simp at hlast
  unfold answer answerLogged
  rw [← htext, fromUTF8?_toUTF8]
  simp only [htrim, hsource, if_false, interpretLogged]
  cases interpret source with
  | ok v => rfl
  | error e => rfl

/-! ### One exchange, and all of them -/

/-- What is written for some lines. -/
def exchanges (format : Format) (lines : List (List UInt8)) : String :=
  String.join (lines.map fun line => "> " ++ answer format line)

@[simp] theorem exchanges_nil (format : Format) : exchanges format [] = "" := rfl

@[simp] theorem exchanges_cons (format : Format) (line : List UInt8) (lines : List (List UInt8)) :
    exchanges format (line :: lines) = "> " ++ answer format line ++ exchanges format lines := by
  simp [exchanges]

/-- How a session stands after a write: it goes on with the sink unless the write did not
fit. -/
def standing (out : Sink) (log : String) : Except (Record Sink) (Sink × String) :=
  if out.overflowed then .error ⟨out, log, some .brokenPipe⟩ else .ok (out, log)

theorem standing_of_overflowed {out : Sink} (h : out.overflowed = true) (log : String) :
    standing out log = .error ⟨out, log, some .brokenPipe⟩ := by
  rw [standing, if_pos h]

theorem standing_of_room {out : Sink} (h : ¬ out.overflowed = true) (log : String) :
    standing out log = .ok (out, log) := by
  rw [standing, if_neg h]

theorem failed_sink (out : Sink) : Output.failed out = out.overflowed := rfl

theorem write_sink (room : Option Nat) (done text : String) :
    Output.write (Sink.holding room done) text = Sink.holding room (done ++ text) :=
  Sink.write_holding room done text

/-- **An exchange adds the prompt and the answer**, wherever in them the sink fills up. -/
theorem exchange_holding (format : Format) (room : Option Nat) (done log : String)
    (line : List UInt8) :
    exchange { format := format } (Sink.holding room done) log line =
      standing (Sink.holding room (done ++ ("> " ++ answer format line))) log := by
  unfold exchange
  simp only [prompt, write_sink, failed_sink, answerLogged_untraced]
  rw [← String.append_assoc]
  by_cases hover : (Sink.holding room (done ++ "> ")).overflowed = true
  · rw [if_pos hover, Sink.holding_append_of_overflowed hover, standing_of_overflowed hover]
  · rw [if_neg hover]
    rfl

/-- **The exchanges of a session add the prompts and answers of its lines**, up to the write that
does not fit. -/
theorem foldlM_exchange (format : Format) (room : Option Nat) (log : String)
    (lines : List (List UInt8)) :
    ∀ {done : String}, ¬ (Sink.holding room done).overflowed = true →
      lines.foldlM (fun (out, log) line => exchange { format := format } out log line)
          (Sink.holding room done, log) =
        standing (Sink.holding room (done ++ exchanges format lines)) log := by
  induction lines with
  | nil =>
      intro done hroom
      rw [exchanges_nil, String.append_empty, standing_of_room hroom]
      rfl
  | cons line lines ih =>
      intro done _
      rw [List.foldlM_cons, exchanges_cons, ← String.append_assoc]
      simp only [exchange_holding]
      by_cases hover : (Sink.holding room (done ++ ("> " ++ answer format line))).overflowed = true
      · rw [standing_of_overflowed hover, Sink.holding_append_of_overflowed hover,
          standing_of_overflowed hover]
        rfl
      · rw [standing_of_room hover]
        exact ih hover

/-! ### The end of a session -/

/-- What is written where the next line does not come. -/
def closing (breaks : Bool) : String :=
  if breaks then "> " else "> \n"

/-- How a session ends: the first write that did not fit ends it, and else the input does. -/
def endingOf (breaks : Bool) (out : Sink) : Option Breakdown :=
  if out.overflowed then some .brokenPipe
  else if breaks then some .connectionReset
  else none

theorem close_holding (breaks : Bool) (room : Option Nat) (done log : String) :
    close breaks (Sink.holding room done) log =
      ⟨Sink.holding room (done ++ closing breaks), log,
        endingOf breaks (Sink.holding room (done ++ closing breaks))⟩ := by
  unfold close
  simp only [prompt, write_sink, failed_sink, String.append_assoc]
  by_cases hover : (Sink.holding room (done ++ "> ")).overflowed = true
  · have hclosing : Sink.holding room (done ++ closing breaks) =
        Sink.holding room (done ++ "> ") := by
      cases breaks with
      | true => rfl
      | false =>
          rw [show closing false = "> " ++ "\n" from rfl, ← String.append_assoc]
          exact Sink.holding_append_of_overflowed hover "\n"
    rw [if_pos hover, hclosing, endingOf, if_pos hover]
  · rw [if_neg hover]
    cases breaks with
    | true => rw [if_pos rfl, closing, if_pos rfl, endingOf, if_neg hover, if_pos rfl]
    | false => rfl

/-- A session leaves its whole text in the sink, as far as it fits. -/
theorem serve_holding (format : Format) (breaks : Bool) (input : List UInt8) (room : Option Nat)
    (log : String) :
    serve { format := format } breaks input (Sink.ofRoom room) log =
      ⟨Sink.holding room (exchanges format (linesOf breaks input) ++ closing breaks), log,
        endingOf breaks
          (Sink.holding room (exchanges format (linesOf breaks input) ++ closing breaks))⟩ := by
  have hroom : ¬ (Sink.holding room "").overflowed = true := by
    rw [← Sink.ofRoom_eq_holding]
    exact Bool.false_ne_true
  unfold serve
  rw [Sink.ofRoom_eq_holding, foldlM_exchange format room log _ hroom, String.empty_append]
  by_cases hover : (Sink.holding room (exchanges format (linesOf breaks input))).overflowed = true
  · rw [standing_of_overflowed hover, Sink.holding_append_of_overflowed hover, endingOf,
      if_pos hover]
  · rw [standing_of_room hover]
    exact close_holding breaks room _ log

/-- What is written for an input that ends: the lines and, unless it is empty, the rest are
answered, and one more prompt finds no line. -/
def transcript (format : Format) (lines : List (List UInt8)) (rest : List UInt8) : String :=
  exchanges format (if rest = [] then lines else lines ++ [rest]) ++ "> \n"

theorem transcript_of_cutInto {input rest : List UInt8} {lines : List (List UInt8)}
    (h : CutInto input lines rest) (format : Format) :
    exchanges format (linesOf false input) ++ closing false = transcript format lines rest := by
  rw [linesOf_of_cutInto h]
  simp [transcript, closing]

/-- What the answer to a line is.  A line that is no text, one of blanks and one that ends in
something else, before its blanks, are all the lines that there are. -/
structure AnswersLine (format : Format) (line : List UInt8) (text : String) : Prop where
  notText : (∀ read : String, read.toUTF8 ≠ ⟨line.toArray⟩) →
    text = (RunError.encoding "<stdin>").report.render format
  blank : ∀ read : String, read.toUTF8 = ⟨line.toArray⟩ → (∀ c ∈ read.toList, isBlank c = true) →
    text = ""
  program : ∀ (source blanks : String) (last : Char),
    (source ++ blanks).toUTF8 = ⟨line.toArray⟩ → (∀ c ∈ blanks.toList, isBlank c = true) →
    source.toList.getLast? = some last → isBlank last = false →
    text = match interpret source with
      | .ok v => v.text ++ "\n"
      | .error e => e.report.render format

theorem answer_answersLine (format : Format) (line : List UInt8) :
    AnswersLine format line (answer format line) where
  notText h := answer_of_not_text h format
  blank _ hread h := answer_of_blank hread h format
  program _ _ _ hread hblanks hlast hend := answer_of_program hread hblanks hlast hend format

/-- **A session answers each line of its input by itself.**  Its output is, for each line in
order, a prompt and the answer to that line, and a last prompt and newline; no line ends it.
An output for `n` bytes takes the first `n` of these, and the session fails for it exactly when
there are more.  When the input breaks off, the lines that a newline ends have been answered,
what follows the last newline is not run, and the session fails for the input. -/
theorem serve_transcript (format : Format) (input : List UInt8) (log : String) :
    (∃ lines rest, CutInto input lines rest) ∧
    (∀ lines rest, CutInto input lines rest →
      (serve { format := format } false input (Sink.ofRoom none) log).out.taken =
        (transcript format lines rest).toUTF8 ∧
      (serve { format := format } false input (Sink.ofRoom none) log).breakdown = none ∧
      (∀ n, (serve { format := format } false input (Sink.ofRoom (some n)) log).out.taken =
          (transcript format lines rest).toUTF8.extract 0 n ∧
        (serve { format := format } false input (Sink.ofRoom (some n)) log).breakdown =
          if n < (transcript format lines rest).toUTF8.size then some .brokenPipe else none) ∧
      (serve { format := format } true input (Sink.ofRoom none) log).out.taken =
        (exchanges format lines ++ "> ").toUTF8 ∧
      (serve { format := format } true input (Sink.ofRoom none) log).breakdown =
        some .connectionReset) ∧
    (∀ line, AnswersLine format line (answer format line)) ∧
    (RunError.encoding "<stdin>").report.code = some "PL0-R007" := by
  refine ⟨exists_cutInto input, ?_, answer_answersLine format, rfl⟩
  intro lines rest h
  have hends := transcript_of_cutInto h format
  have hbreaks : exchanges format (linesOf true input) ++ closing true =
      exchanges format lines ++ "> " := by
    rw [linesOf_of_cutInto h]
    simp [closing]
  simp only [serve_holding, hends, hbreaks]
  refine ⟨rfl, rfl, ?_, rfl, rfl⟩
  intro n
  refine ⟨rfl, ?_⟩
  simp [endingOf, Sink.holding]

end Session

end StackCalc
