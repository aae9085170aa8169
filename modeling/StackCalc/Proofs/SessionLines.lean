/-
Lines of a session and whole programs.

A session cuts the blanks off the end of a line before it runs it, and a program from elsewhere
is run as it is.  Blanks are all the white space there is, and what separates tokens is only five
characters of it.  So a line can end in something that a session drops and that no program may
hold, and then the session finds a value where the program has none.

That is the only difference.  A token does not end in a blank, and nor does a comment, so the
blanks at the end of a text that scans are all separators, behind its last token and its last
comment.  What they are cut off from is the same sequence of tokens, at the same places.
-/
import Mathlib.Data.List.DropRight
import StackCalc.Proofs.Layout
import StackCalc.Proofs.Transcript

namespace StackCalc

/-! ### What ends in a blank -/

theorem isBlank_of_isNameChar {c : Char} (h : isNameChar c = true) : isBlank c = false := by
  have hrange : ∀ low high : Char, 0x20 < low.toNat → high.toNat < 0x7F →
      low.val ≤ c.val → c.val ≤ high.val → 0x20 < c.toNat ∧ c.toNat < 0x7F := by
    intro low high hlow hhigh hle hge
    have hle : low.toNat ≤ c.toNat := UInt32.le_iff_toNat_le.mp hle
    have hge : c.toNat ≤ high.toNat := UInt32.le_iff_toNat_le.mp hge
    omega
  have hvisible : 0x20 < c.toNat ∧ c.toNat < 0x7F := by
    rcases Bool.or_eq_true_iff.mp h with h | h
    · rcases Bool.or_eq_true_iff.mp h with h | h
      · rcases Bool.or_eq_true_iff.mp h with h | h
        · obtain ⟨hle, hge⟩ := of_decide_eq_true h
          exact hrange 'A' 'Z' (by decide) (by decide) hle hge
        · obtain ⟨hle, hge⟩ := Bool.and_eq_true_iff.mp h
          exact hrange 'a' 'z' (by decide) (by decide) (of_decide_eq_true hle)
            (of_decide_eq_true hge)
      · obtain ⟨hle, hge⟩ := Bool.and_eq_true_iff.mp h
        exact hrange '0' '9' (by decide) (by decide) (of_decide_eq_true hle)
          (of_decide_eq_true hge)
    · obtain rfl := beq_iff_eq.mp h
      decide
  unfold isBlank
  simp only [Bool.or_eq_false_iff, Bool.and_eq_false_iff, decide_eq_false_iff_not,
    beq_eq_false_iff_ne]
  omega

/-- No token ends in a blank. -/
theorem IsLexeme.isBlank_getLast? {kind : TokenKind} {text : List Char} (h : IsLexeme kind text) :
    ∀ c ∈ text.getLast?, isBlank c = false := by
  have hdigit : ∀ {c : Char}, c.isDigit = true → isBlank c = false := by
    intro c hc
    exact isBlank_of_isNameChar (by simp [isNameChar, Char.isAlphanum, hc])
  have hnumber : ∀ {c : Char}, isNumberChar c = true → isBlank c = false := by
    intro c hc
    rcases Bool.or_eq_true_iff.mp hc with hc | hc
    · exact hdigit hc
    · obtain rfl := beq_iff_eq.mp hc
      decide
  have hname : ∀ {c : Char} {cs : List Char}, isNameStart c = true →
      (∀ x ∈ cs, isNameChar x = true) → ∀ x ∈ c :: cs, isBlank x = false := by
    intro c cs hc hcs x hx
    rcases List.mem_cons.mp hx with rfl | hx
    · refine isBlank_of_isNameChar ?_
      rcases Bool.or_eq_true_iff.mp hc with hc | hc
      · simp [isNameChar, Char.isAlphanum, hc]
      · simp [isNameChar, hc]
    · exact isBlank_of_isNameChar (hcs x hx)
  intro c hc
  cases h with
  | keyword k =>
      obtain ⟨x, xs, hspelling, hx, hxs⟩ := k.spelling_name
      rw [hspelling] at hc
      exact hname hx hxs c (List.mem_of_getLast? hc)
  | mark m =>
      have hall : ∀ m : Mark, ∀ c ∈ m.spelling.toList, isBlank c = false := by
        intro m
        cases m <;> simp [Mark.spelling, isBlank]
      exact hall m c (List.mem_of_getLast? hc)
  | @integer d ds hd hds =>
      rcases List.mem_cons.mp (List.mem_of_getLast? hc) with rfl | hc
      · exact hdigit hd
      · exact hnumber (hds c hc)
  | @double d f ds fs hd hds hf hfs =>
      rw [← List.cons_append, List.getLast?_append_of_ne_nil _ (by simp),
        List.getLast?_cons_cons] at hc
      rcases List.mem_cons.mp (List.mem_of_getLast? hc) with rfl | hc
      · exact hdigit hf
      · exact hnumber (hfs c hc)
  | @string body _ _ =>
      rw [← List.cons_append, List.getLast?_concat, Option.mem_some_iff] at hc
      rw [← hc]
      decide
  | identifier hx hxs _ => exact hname hx hxs c (List.mem_of_getLast? hc)

/-- Blanks at the end of a text are behind what does not end in one. -/
theorem append_eq_of_blank {as rest front blanks : List Char}
    (has : ∀ c ∈ as.getLast?, isBlank c = false) (hblanks : ∀ c ∈ blanks, isBlank c = true)
    (h : as ++ rest = front ++ blanks) :
    ∃ front', front = as ++ front' ∧ rest = front' ++ blanks := by
  rcases List.append_eq_append_iff.mp h with ⟨front', rfl, rfl⟩ | ⟨more, rfl, rfl⟩
  · exact ⟨front', rfl, rfl⟩
  · -- The text would end among the blanks, unless it ends right before them.
    rcases List.eq_nil_or_concat more with rfl | ⟨before, c, rfl⟩
    · exact ⟨[], by simp, by simp⟩
    · have hnot := has c (by simp)
      rw [hblanks c (by simp)] at hnot
      cases hnot

/-- The blanks at the end of a gap are separators, and what is before them is a gap. -/
theorem IsGap.trim {gap : List Char} (h : IsGap gap) :
    ∀ {front blanks : List Char}, (∀ c ∈ blanks, isBlank c = true) → gap = front ++ blanks →
      IsGap front ∧ ∀ c ∈ blanks, isSeparator c = true := by
  induction h with
  | empty =>
      intro front blanks _ heq
      obtain ⟨rfl, rfl⟩ := List.append_eq_nil_iff.mp heq.symm
      exact ⟨.empty, by simp⟩
  | @separator c rest hc _ ih =>
      intro front blanks hblanks heq
      cases front with
      | nil =>
          obtain rfl : c :: rest = blanks := heq
          obtain ⟨-, hall⟩ := ih (List.forall_mem_cons.mp hblanks).2 (List.nil_append rest).symm
          exact ⟨.empty, List.forall_mem_cons.mpr ⟨isSeparator_iff.mpr hc, hall⟩⟩
      | cons x front =>
          obtain ⟨rfl, hrest⟩ := List.cons.inj heq
          obtain ⟨hfront, hall⟩ := ih hblanks hrest
          exact ⟨.separator hc hfront, hall⟩
  | @comment body rest hbody _ ih =>
      intro front blanks hblanks heq
      have hsplit : ('\x7b' :: (body ++ ['\x7d'])) ++ rest = front ++ blanks := by
        rw [← heq]
        simp
      have hbrace : ∀ c ∈ ('\x7b' :: (body ++ ['\x7d'])).getLast?, isBlank c = false := by
        intro c hc
        rw [← List.cons_append, List.getLast?_concat, Option.mem_some_iff] at hc
        rw [← hc]
        decide
      obtain ⟨front', rfl, hrest⟩ := append_eq_of_blank hbrace hblanks hsplit
      obtain ⟨hfront, hall⟩ := ih hblanks hrest
      refine ⟨?_, hall⟩
      rw [List.cons_append, List.append_assoc]
      exact .comment hbody hfront

/-- **The blanks at the end of a text that scans are separators**, and what is before them
scans. -/
theorem Tiling.trim {cs : List Char} {tiles : List Tile} {last : List Char}
    (h : Tiling cs tiles last) {blanks : List Char} (hblanks : ∀ c ∈ blanks, isBlank c = true) :
    ∀ {front : List Char}, cs = front ++ blanks →
      (∃ last', Tiling front tiles last') ∧ ∀ c ∈ blanks, isSeparator c = true := by
  induction h with
  | last hgap =>
      intro front heq
      obtain ⟨hfront, hall⟩ := hgap.trim hblanks heq
      exact ⟨⟨front, .last hfront⟩, hall⟩
  | @cons tile rest last tiles hgap hlexeme hlongest _ ih =>
      intro front heq
      have hlast : ∀ c ∈ (tile.gap ++ tile.text).getLast?, isBlank c = false := by
        intro c hc
        rw [List.getLast?_append_of_ne_nil _ hlexeme.ne_nil] at hc
        exact hlexeme.isBlank_getLast? c hc
      rw [← List.append_assoc] at heq
      obtain ⟨front', rfl, hrest⟩ := append_eq_of_blank hlast hblanks heq
      obtain ⟨⟨last', htiling⟩, hall⟩ := ih hrest
      refine ⟨⟨last', ?_⟩, hall⟩
      rw [List.append_assoc]
      exact .cons tile hgap hlexeme
        (hlongest.shorten (hrest ▸ List.prefix_append front' blanks)) htiling

/-! ### Separators at the end of a text -/

namespace Token

/-- Separators behind a text that scans are skipped. -/
theorem scanFrom_append {cs : List Char} {tiles : List Tile} {last : List Char}
    (h : Tiling cs tiles last) {blanks : List Char} (hblanks : ∀ c ∈ blanks, isSeparator c = true) :
    ∀ (p : Place) (done : Array Token), scanFrom p done (cs ++ blanks) = scanFrom p done cs := by
  have hgap := isGap_of_separators hblanks
  have hparted : Parted blanks := by
    intro c hc
    exact List.mem_append_left ['\x7b'] (isSeparator_iff.mp (hblanks c (List.mem_of_head? hc)))
  induction h with
  | @last gap hlast =>
      intro p done
      have hwhole := scanFrom_gap (hlast.append hgap) p done []
      have hpart := scanFrom_gap hlast p done []
      rw [List.append_nil, scanFrom] at hwhole hpart
      rw [hwhole, hpart]
  | @cons tile rest last tiles hfirst hlexeme hlongest _ ih =>
      intro p done
      rw [List.append_assoc, List.append_assoc, scanFrom_gap hfirst, scanFrom_gap hfirst,
        scanFrom_lexeme hlexeme (hlongest.append_parted hlexeme hparted),
        scanFrom_lexeme hlexeme hlongest, ih]

end Token

/-- A value depends on the tokens alone. -/
theorem interpret_eq_ok_of_scan {source source' : String}
    (h : Token.scan source = Token.scan source') (v : Value) :
    interpret source = .ok v ↔ interpret source' = .ok v := by
  have hcode : Chunk.ofSource source = Chunk.ofSource source' := by
    unfold Chunk.ofSource Expr.ofSource
    rw [h]
  rw [interpret_eq_ok, interpret_eq_ok, hcode]

/-- A text with a value scans. -/
theorem exists_tiling_of_interpret {source : String} {v : Value} (h : interpret source = .ok v) :
    ∃ tiles last, Tiling source.toList tiles last := by
  obtain ⟨c, hcode, -⟩ := interpret_eq_ok.mp h
  obtain ⟨ts, -, hscan, -, -⟩ := Chunk.ofSource_eq_ok hcode
  obtain ⟨tiles, last, htiling, -⟩ := Token.exists_tiling_of_scan hscan
  exact ⟨tiles, last, htiling⟩

/-- The blanks at the end of a program are separators, and it has the same value without them. -/
theorem interpret_trimEnd (line : String) (v : Value) :
    interpret line = .ok v ↔ interpret (trimEnd line) = .ok v ∧
      ∀ c ∈ line.toList.rtakeWhile isBlank, isSeparator c = true := by
  have hcut : line.toList = (trimEnd line).toList ++ line.toList.rtakeWhile isBlank := by
    rw [trimEnd, String.toList_ofList]
    exact List.rdropWhile_append_rtakeWhile.symm
  have hsame : ∀ {tiles last}, Tiling (trimEnd line).toList tiles last →
      (∀ c ∈ line.toList.rtakeWhile isBlank, isSeparator c = true) →
      (interpret line = .ok v ↔ interpret (trimEnd line) = .ok v) := by
    intro tiles last htiling hseparators
    refine interpret_eq_ok_of_scan ?_ v
    unfold Token.scan
    rw [hcut, Token.scanFrom_append htiling hseparators]
  constructor
  · intro hv
    obtain ⟨tiles, last, htiling⟩ := exists_tiling_of_interpret hv
    obtain ⟨⟨last', htrimmed⟩, hseparators⟩ :=
      htiling.trim (fun c hc => List.mem_rtakeWhile_imp hc) hcut
    exact ⟨(hsame htrimmed hseparators).mp hv, hseparators⟩
  · rintro ⟨hv, hseparators⟩
    obtain ⟨tiles, last, htiling⟩ := exists_tiling_of_interpret hv
    exact (hsame htiling hseparators).mpr hv

theorem interpret_empty_ne_ok (v : Value) : interpret "" ≠ .ok v := by
  have hempty : (interpret "").toOption = none := by decide +kernel
  intro h
  rw [h] at hempty
  cases hempty

namespace Session

/-- What a session evaluates for a line: nothing for a line of blanks, and else the line without
the blanks at its end. -/
def evaluation (line : String) : Option (Except RunError Value) :=
  if trimEnd line = "" then none else some (interpret (trimEnd line))

/-- What is written for an evaluation. -/
def shown (format : Format) : Option (Except RunError Value) → String
  | none => ""
  | some (.ok v) => v.text ++ "\n"
  | some (.error e) => e.report.render format

/-- The answer to a line is its evaluation. -/
theorem answer_eq_shown (format : Format) (line : String) :
    answer format line.toUTF8.data.toList = shown format (evaluation line) := by
  unfold answer answerLogged evaluation
  rw [Array.toArray_toList, fromUTF8?_toUTF8]
  by_cases hempty : trimEnd line = ""
  · simp [hempty, shown]
  · simp only [hempty, if_false, interpretLogged]
    cases interpret (trimEnd line) with
    | ok v => rfl
    | error e => rfl

/-- **A program is a line that a session evaluates, with nothing but separators at its end.**  What
a session writes for a line is what it evaluates.  A text has a value exactly when a session finds
that value for it as a line and all the blanks that the session cuts off separate tokens. -/
theorem interpret_iff_evaluation (line : String) :
    (∀ format, answer format line.toUTF8.data.toList = shown format (evaluation line)) ∧
    ∀ v, interpret line = .ok v ↔
      evaluation line = some (.ok v) ∧
        ∀ c ∈ line.toList.rtakeWhile isBlank, isSeparator c = true := by
  refine ⟨fun format => answer_eq_shown format line, ?_⟩
  intro v
  rw [interpret_trimEnd, evaluation]
  by_cases hempty : trimEnd line = ""
  · rw [if_pos hempty, hempty]
    simp [interpret_empty_ne_ok]
  · rw [if_neg hempty, Option.some.injEq]

/-- A session finds a value for a line that no program may be: it ends in a no-break space. -/
theorem not_evaluation_iff_interpret :
    ¬ ∀ (line : String) (v : Value), '\n' ∉ line.toList →
      (evaluation line = some (.ok v) ↔ interpret line = .ok v) := by
  intro h
  have hline := h "1\u00a0" (.integer 1) (by decide)
  have hsession : evaluation "1\u00a0" = some (.ok (.integer 1)) := by decide +kernel
  have hprogram : interpret "1\u00a0" =
      .error (.compile (.lex ⟨⟨⟨1, 2⟩, ⟨1, 3⟩⟩, "\u00a0"⟩) "1\u00a0") := by
    decide +kernel
  rw [hline.mp hsession] at hprogram
  cases hprogram

end Session

end StackCalc
