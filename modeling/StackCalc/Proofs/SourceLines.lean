/-
The lines of a text, byte by byte.

An offset is a number of bytes and need not lie between two characters, while the lines are cut
out of the text character by character.  What brings the two together is that the byte of a
newline is part of no other character.  So counting newlines among the characters of a line's
front and among its bytes is the same, and the lines that start at or before an offset are
counted by the newline bytes before it, wherever the offset lies.

`LineStart` says of bytes alone where a line starts.  A line has one start, and a line that
starts at or before an offset is one whose number the newlines before the offset reach; that
offsets and positions go up together is a consequence of this.

What shows of a line needs no bytes.  `Line.Stands` puts a line that was cut between two other
parts of the text, and where it starts, what shows of it and what comes next are read off there.
-/
import StackCalc.Proofs.Tiling

namespace StackCalc

/-! ### Bytes -/

/-- The bytes of a run of characters. -/
def utf8 (cs : List Char) : List UInt8 :=
  cs.flatMap String.utf8EncodeChar

@[simp] theorem utf8_cons (c : Char) (cs : List Char) :
    utf8 (c :: cs) = String.utf8EncodeChar c ++ utf8 cs := rfl

@[simp] theorem utf8_append (as bs : List Char) : utf8 (as ++ bs) = utf8 as ++ utf8 bs :=
  List.flatMap_append

/-- The bytes of a text are those of its characters. -/
theorem toUTF8_eq_utf8 (source : String) : source.toUTF8.data.toList = utf8 source.toList := by
  rw [String.toUTF8_eq_toByteArray, ← String.utf8Encode_toList]
  exact List.toList_data_toByteArray

@[simp] theorem length_utf8 (cs : List Char) : (utf8 cs).length = byteLength cs := by
  induction cs with
  | nil => rfl
  | cons c cs ih =>
      rw [utf8_cons, List.length_append, String.length_utf8EncodeChar, ih, byteLength_cons]

/-- The byte of a newline is part of no other character. -/
theorem newline_notMem_utf8EncodeChar {c : Char} (h : c ≠ '\n') :
    (10 : UInt8) ∉ String.utf8EncodeChar c := by
  have hval : c.val.toNat ≠ 10 := by
    intro hten
    apply h
    apply Char.ext
    apply UInt32.toNat_inj.mp
    exact hten
  have hbyte : ∀ n, (10 : UInt8) = UInt8.ofNat n → n % 256 = 10 := by
    intro n hn
    simpa using (congrArg UInt8.toNat hn).symm
  intro hmem
  unfold String.utf8EncodeChar at hmem
  simp only at hmem
  split at hmem
  · have hten := hbyte _ (List.mem_singleton.mp hmem)
    omega
  · -- Every byte of a longer character has its highest bit set.
    split at hmem
    · simp only [List.mem_cons, List.not_mem_nil, or_false] at hmem
      rcases hmem with hten | hten
      all_goals
        have := hbyte _ hten
        omega
    · split at hmem
      · simp only [List.mem_cons, List.not_mem_nil, or_false] at hmem
        rcases hmem with hten | hten | hten
        all_goals
          have := hbyte _ hten
          omega
      · simp only [List.mem_cons, List.not_mem_nil, or_false] at hmem
        rcases hmem with hten | hten | hten | hten
        all_goals
          have := hbyte _ hten
          omega

theorem utf8EncodeChar_newline : String.utf8EncodeChar '\n' = [10] := by decide

/-- Newlines are counted among the bytes as among the characters. -/
theorem count_utf8 (cs : List Char) : (utf8 cs).count 10 = cs.count '\n' := by
  induction cs with
  | nil => rfl
  | cons c cs ih =>
      rw [utf8_cons, List.count_append, ih]
      by_cases h : c = '\n'
      · subst h
        rw [utf8EncodeChar_newline, List.count_cons_self]
        simp [Nat.add_comm]
      · rw [List.count_eq_zero.mpr (newline_notMem_utf8EncodeChar h), List.count_cons_of_ne h,
          Nat.zero_add]

/-- The starts at or before an offset are counted by the newline bytes before it. -/
theorem countP_lineStarts (limit : Nat) (cs : List Char) : ∀ offset,
    (lineStarts offset cs).countP (fun start => decide (start ≤ limit)) =
      ((utf8 cs).take (limit - offset)).count 10 := by
  induction cs with
  | nil => intro offset; simp [lineStarts, utf8]
  | cons c cs ih =>
      intro offset
      by_cases h : c = '\n'
      · subst h
        have hsize : '\n'.utf8Size = 1 := by decide
        rw [lineStarts_newline, utf8_cons, utf8EncodeChar_newline, List.singleton_append, hsize]
        by_cases hlimit : offset + 1 ≤ limit
        · have hnext : limit - offset = (limit - (offset + 1)) + 1 := by omega
          rw [List.countP_cons_of_pos (by simpa using hlimit), ih, hnext, List.take_succ_cons,
            List.count_cons_self]
        · have hnone : limit - offset = 0 := by omega
          have hnone' : limit - (offset + 1) = 0 := by omega
          rw [List.countP_cons_of_neg (by simpa using hlimit), ih, hnone, hnone']
          rfl
      · have hinside : ((String.utf8EncodeChar c).take (limit - offset)).count 10 = 0 := by
          rw [List.count_eq_zero]
          exact fun hmem => newline_notMem_utf8EncodeChar h (List.mem_of_mem_take hmem)
        rw [lineStarts_cons_of_ne h, ih, utf8_cons, List.take_append, List.count_append, hinside,
          Nat.zero_add, String.length_utf8EncodeChar, Nat.sub_sub]

/-! ### Where a line starts -/

/-- The line with this number starts at the offset: as many newlines come before it as there are
lines before, and the last byte before it, if there is one, is a newline. -/
structure LineStart (bytes : List UInt8) (number offset : Nat) : Prop where
  inside : offset ≤ bytes.length
  newlines : (bytes.take offset).count 10 + 1 = number
  behind : offset = 0 ∨ bytes[offset - 1]? = some 10

/-- A line starts at or before an offset if the newlines before the offset reach its number. -/
theorem LineStart.le {bytes : List UInt8} {number start offset : Nat}
    (h : LineStart bytes number start) (hnumber : number ≤ (bytes.take offset).count 10 + 1) :
    start ≤ offset := by
  apply Nat.le_of_not_lt
  intro hlt
  rcases h.behind with hzero | hbyte
  · omega
  · -- The newline right before the start would be one more than there are before the offset.
    have hstart : start = start - 1 + 1 := by omega
    have hfront : bytes.take offset <+: bytes.take (start - 1) :=
      List.take_prefix_take_left (by omega)
    have hfewer := hfront.sublist.count_le 10
    have hcount := h.newlines
    rw [hstart, List.take_add_one, hbyte, List.count_append, Option.toList_some,
      List.count_singleton_self] at hcount
    omega

theorem LineStart.unique {bytes : List UInt8} {number a b : Nat} (ha : LineStart bytes number a)
    (hb : LineStart bytes number b) : a = b :=
  Nat.le_antisymm (ha.le (Nat.le_of_eq hb.newlines.symm)) (hb.le (Nat.le_of_eq ha.newlines.symm))

/-- A line starts where the text is cut at its front or behind a newline. -/
theorem lineStart_of_cut {text before after : List Char} (h : text = before ++ after)
    (hbehind : before = [] ∨ ∃ front, before = front ++ ['\n']) :
    LineStart (utf8 text) (before.count '\n' + 1) (byteLength before) := by
  subst h
  refine ⟨by simp, ?_, ?_⟩
  · rw [utf8_append, List.take_left' (length_utf8 before), count_utf8]
  · rcases hbehind with rfl | ⟨front, rfl⟩
    · exact Or.inl rfl
    · right
      have hlast : byteLength (front ++ ['\n']) - 1 = (utf8 front).length := by
        have hsize : '\n'.utf8Size = 1 := by decide
        simp [hsize]
      rw [hlast, utf8_append, utf8_append, List.append_assoc,
        List.getElem?_append_right (Nat.le_refl _), Nat.sub_self]
      rfl

theorem Span.covers_of_cut {source : String} {before text after : List Char}
    (h : source.toList = before ++ (text ++ after)) :
    (⟨byteLength before, byteLength before + byteLength text⟩ : Span).Covers source
      (String.ofList text) := by
  refine ⟨String.ofList before, String.ofList after, ?_, ?_⟩
  · rw [← @String.ofList_toList source, h, ← String.ofList_append, ← String.ofList_append,
      List.append_assoc]
  · rw [utf8ByteSize_ofList, utf8ByteSize_ofList]

/-! ### The lines that are cut -/

namespace Line

/-- The line with this number stands in the text between two other parts of it. -/
structure Stands (text : List Char) (number : Nat) (line : Line) (before after : List Char) :
    Prop where
  text_eq : text = before ++ (line.chars ++ after)
  start_eq : line.start = byteLength before
  number_eq : before.count '\n' + 1 = number
  behind : before = [] ∨ ∃ front, before = front ++ ['\n']
  /-- The line is the last one, or it ends with its only newline. -/
  ends : ('\n' ∉ line.chars ∧ after = []) ∨ ∃ body, line.chars = body ++ ['\n'] ∧ '\n' ∉ body

theorem Stands.lineStart {text : List Char} {number : Nat} {line : Line}
    {before after : List Char} (h : Stands text number line before after) :
    LineStart (utf8 text) number line.start := by
  have hstart := lineStart_of_cut h.text_eq h.behind
  rwa [h.number_eq, ← h.start_eq] at hstart

/-- All of the lines stand in the text, numbered from one. -/
def AllStand (text : List Char) (lines : Array Line) : Prop :=
  ∀ index line, lines[index]? = some line →
    ∃ before after, Stands text (index + 1) line before after

theorem AllStand.push {text : List Char} {lines : Array Line} (h : AllStand text lines)
    {line : Line} {before after : List Char}
    (hline : Stands text (lines.size + 1) line before after) :
    AllStand text (lines.push line) := by
  intro index line' hmem
  rw [Array.getElem?_push] at hmem
  split at hmem
  · rename_i hlast
    obtain rfl := Option.some.inj hmem
    subst hlast
    exact ⟨before, after, hline⟩
  · exact h index line' hmem

/-- Cutting goes on with lines that stand in the text. -/
theorem allStand_cut {text : List Char} (cs : List Char) :
    ∀ (before : List Char) {start : Nat} {seen : List Char} {done : Array Line},
      text = before ++ (seen.reverse ++ cs) → start = byteLength before →
      before.count '\n' = done.size → (before = [] ∨ ∃ front, before = front ++ ['\n']) →
      '\n' ∉ seen → AllStand text done → AllStand text (cut start seen done cs) := by
  induction cs with
  | nil =>
      intro before start seen done htext hstart hcount hbehind hseen hdone
      have hlast : Stands text (done.size + 1) ⟨start, seen.reverse⟩ before [] :=
        ⟨htext, hstart, by rw [hcount], hbehind, Or.inl ⟨by simpa using hseen, rfl⟩⟩
      exact hdone.push hlast
  | cons c cs ih =>
      intro before start seen done htext hstart hcount hbehind hseen hdone
      rw [cut]
      by_cases hc : c = '\n'
      · subst hc
        have hcut : text = before ++ (('\n' :: seen).reverse ++ cs) := by
          rw [htext]
          simp
        have hnext : Stands text (done.size + 1) ⟨start, ('\n' :: seen).reverse⟩ before cs :=
          ⟨hcut, hstart, by rw [hcount], hbehind,
            Or.inr ⟨seen.reverse, by simp, by simpa using hseen⟩⟩
        have hlines : (before ++ ('\n' :: seen).reverse).count '\n' =
            (done.push ⟨start, ('\n' :: seen).reverse⟩).size := by
          have hnone : seen.count '\n' = 0 := List.count_eq_zero.mpr hseen
          simp [hcount, hnone]
        rw [if_pos rfl]
        refine ih (before ++ ('\n' :: seen).reverse) ?_ ?_ hlines ?_ (by simp) (hdone.push hnext)
        · rw [hcut]
          simp
        · rw [hstart, byteLength_append]
        · exact Or.inr ⟨before ++ seen.reverse, by simp⟩
      · rw [if_neg hc]
        refine ih before ?_ hstart hcount hbehind ?_ hdone
        · rw [htext]
          simp
        · simpa using ⟨Ne.symm hc, hseen⟩

/-- The lines, put together again, are the text. -/
theorem flatMap_chars_cut (cs : List Char) : ∀ (start : Nat) (seen : List Char) (done : Array Line),
    (cut start seen done cs).toList.flatMap chars =
      done.toList.flatMap chars ++ (seen.reverse ++ cs) := by
  induction cs with
  | nil => intro start seen done; simp [cut]
  | cons c cs ih =>
      intro start seen done
      rw [cut]
      by_cases hc : c = '\n'
      · rw [if_pos hc]
        simp [ih]
      · rw [if_neg hc, ih]
        simp

/-! ### What shows of a line -/

/-- The characters that do not show. -/
def ending (l : Line) : List Char :=
  (l.chars.reverse.takeWhile isTerminator).reverse

theorem visible_append_ending (l : Line) : l.visible ++ l.ending = l.chars := by
  rw [visible, ending, dropEndWhile, ← List.reverse_append, List.takeWhile_append_dropWhile,
    List.reverse_reverse]

theorem isTerminator_of_mem_ending {l : Line} {c : Char} (h : c ∈ l.ending) :
    c = '\r' ∨ c = '\n' := by
  have hc := List.all_eq_true.mp List.all_takeWhile c (List.mem_reverse.mp h)
  simpa [isTerminator, or_comm] using hc

/-- No newline shows. -/
theorem Stands.newline_notMem {text : List Char} {number : Nat} {line : Line}
    {before after : List Char} (h : Stands text number line before after) :
    '\n' ∉ line.visible := by
  intro hmem
  rcases h.ends with ⟨hnone, -⟩ | ⟨body, hchars, hbody⟩
  · exact hnone (line.visible_append_ending ▸ List.mem_append_left _ hmem)
  · -- The newline at the end is the first thing that is dropped.
    have hvisible : line.visible = (body.reverse.dropWhile isTerminator).reverse := by
      rw [visible, hchars, dropEndWhile, List.reverse_append, List.reverse_singleton,
        List.singleton_append, List.dropWhile_cons_of_pos (by decide)]
    rw [hvisible, List.mem_reverse] at hmem
    exact hbody (List.mem_reverse.mp ((List.dropWhile_sublist _).subset hmem))

/-- What comes behind a line is the next one, or there is nothing behind it. -/
theorem Stands.next {text : List Char} {number : Nat} {line : Line} {before after : List Char}
    (h : Stands text number line before after) :
    if number < text.count '\n' + 1 then
      LineStart (utf8 text) (number + 1) (byteLength (before ++ line.chars))
    else byteLength (before ++ line.chars) = byteLength text := by
  have htext : text = (before ++ line.chars) ++ after := by
    rw [h.text_eq, List.append_assoc]
  have hnumber := h.number_eq
  rcases h.ends with ⟨hnone, rfl⟩ | ⟨body, hchars, hbody⟩
  · have hlast : ¬ number < text.count '\n' + 1 := by
      rw [htext, List.append_nil, List.count_append, List.count_eq_zero.mpr hnone]
      omega
    rw [if_neg hlast, htext, List.append_nil]
  · have hone : line.chars.count '\n' = 1 := by
      rw [hchars, List.count_append, List.count_eq_zero.mpr hbody, List.count_singleton_self]
    have hfront : (before ++ line.chars).count '\n' = number := by
      rw [List.count_append, hone, hnumber]
    have hmore : number < text.count '\n' + 1 := by
      rw [htext, List.count_append, hfront]
      omega
    have hnext := lineStart_of_cut htext
      (Or.inr ⟨before ++ body, by rw [hchars, List.append_assoc]⟩)
    rw [hfront] at hnext
    rwa [if_pos hmore]

end Line

/-! ### The map -/

/-- The line comes first, or the lines are the same and the column comes first. -/
def Position.Precedes (p q : Position) : Prop :=
  p.line < q.line ∨ p.line = q.line ∧ p.column < q.column

theorem Position.Precedes.ne {p q : Position} (h : p.Precedes q) : p ≠ q := by
  rintro rfl
  rcases h with hline | ⟨-, hcolumn⟩
  · exact Nat.lt_irrefl _ hline
  · exact Nat.lt_irrefl _ hcolumn

namespace LineMap

variable {source : String}

/-- The line of an offset is counted by the newline bytes before it. -/
theorem line_lookup (source : String) (offset : Nat) :
    ((ofSource source).lookup offset).line =
      1 + ((utf8 source.toList).take offset).count 10 := by
  have hcount : (ofSource source).lines.countP (fun l => decide (l.start ≤ offset)) =
      1 + ((utf8 source.toList).take offset).count 10 := by
    calc (ofSource source).lines.countP (fun l => decide (l.start ≤ offset))
        = ((ofSource source).lines.toList.map Line.start).countP
            (fun start => decide (start ≤ offset)) := by
          rw [List.countP_map, ← Array.countP_toList]
          rfl
      _ = 1 + ((utf8 source.toList).take offset).count 10 := by
          rw [starts_ofSource, List.countP_cons_of_pos (by simp), countP_lineStarts, Nat.sub_zero,
            Nat.add_comm]
  show max 1 _ = _
  rw [hcount]
  omega

theorem line_lookup_le (source : String) (offset : Nat) :
    ((ofSource source).lookup offset).line ≤ (ofSource source).lineCount := by
  have hfewer := (List.take_sublist offset (utf8 source.toList)).count_le 10
  rw [line_lookup, lineCount_ofSource, ← count_utf8]
  omega

/-- Every number up to the count is that of a line of the text. -/
theorem exists_stands {number : Nat} (hpos : 1 ≤ number)
    (hle : number ≤ (ofSource source).lineCount) :
    ∃ line before after, (ofSource source).line? number = some line ∧
      Line.Stands source.toList number line before after := by
  obtain ⟨index, rfl⟩ := Nat.exists_eq_add_of_le' hpos
  have hlt : index < (ofSource source).lines.size := hle
  have hstand : Line.AllStand source.toList (ofSource source).lines :=
    Line.allStand_cut source.toList [] rfl rfl rfl (Or.inl rfl) (by simp)
      (by intro index line hline; simp at hline)
  have hline : (ofSource source).lines[index]? = some (ofSource source).lines[index] :=
    Array.getElem?_eq_getElem hlt
  obtain ⟨before, after, hstands⟩ := hstand index _ hline
  exact ⟨_, before, after, hline, hstands⟩

/-- **An offset is as far into its line as its column says.** -/
theorem exists_lineStart (source : String) (offset : Nat) :
    ∃ start, LineStart (utf8 source.toList) ((ofSource source).lookup offset).line start ∧
      start ≤ offset ∧ offset + 1 = start + ((ofSource source).lookup offset).column := by
  have hline := line_lookup source offset
  obtain ⟨line, before, after, hfound, hstands⟩ :=
    exists_stands (show 1 ≤ ((ofSource source).lookup offset).line by omega)
      (line_lookup_le source offset)
  have hstart := hstands.lineStart
  have hle : line.start ≤ offset := hstart.le (by omega)
  have hcolumn : ((ofSource source).lookup offset).column = offset - line.start + 1 := by
    show offset - ((ofSource source).line? ((ofSource source).lookup offset).line).elim 0 Line.start
      + 1 = _
    rw [hfound]
    rfl
  exact ⟨line.start, hstart, hle, by omega⟩

/-- Positions go up with the offsets. -/
theorem lookup_precedes (source : String) {a b : Nat} (h : a < b) :
    ((ofSource source).lookup a).Precedes ((ofSource source).lookup b) := by
  have hfront : (utf8 source.toList).take a <+: (utf8 source.toList).take b :=
    List.take_prefix_take_left (Nat.le_of_lt h)
  have hcount := hfront.sublist.count_le 10
  have hla := line_lookup source a
  have hlb := line_lookup source b
  by_cases hline : ((ofSource source).lookup a).line = ((ofSource source).lookup b).line
  · obtain ⟨start, hstart, -, hcolumn⟩ := exists_lineStart source a
    obtain ⟨start', hstart', -, hcolumn'⟩ := exists_lineStart source b
    obtain rfl : start = start' := (hline ▸ hstart).unique hstart'
    exact Or.inr ⟨hline, by omega⟩
  · exact Or.inl (by omega)

/-- What the map says of a line, held against the text: where it starts, what shows of it, and
the ending that does not show. -/
structure ShowsLine (source : String) (number : Nat) (span : Span) (ending : String) : Prop where
  starts : LineStart source.toUTF8.data.toList number span.start
  text : span.Covers source ((ofSource source).lineText number)
  newline_notMem : '\n' ∉ ((ofSource source).lineText number).toList
  terminators : ∀ c ∈ ending.toList, c = '\r' ∨ c = '\n'
  /-- The ending reaches from what shows to the next line, or to the end of the text. -/
  next : ∃ next, (⟨span.stop, next⟩ : Span).Covers source ending ∧
    if number < (ofSource source).lineCount then
      LineStart source.toUTF8.data.toList (number + 1) next
    else next = source.utf8ByteSize

/-- The characters of the line that do not show; none if there is no such line. -/
def endingOf (m : LineMap) (number : Nat) : String :=
  (m.line? number).elim "" fun l => String.ofList l.ending

/-- Every line shows as the map says. -/
theorem exists_showsLine {number : Nat} (hpos : 1 ≤ number)
    (hle : number ≤ (ofSource source).lineCount) :
    ∃ span, (ofSource source).lineSpan? number = some span ∧
      ShowsLine source number span ((ofSource source).endingOf number) := by
  obtain ⟨line, before, after, hfound, hstands⟩ := exists_stands hpos hle
  have hspan : (ofSource source).lineSpan? number = some line.span := by
    rw [lineSpan?, hfound]
    rfl
  have htext : (ofSource source).lineText number = String.ofList line.visible := by
    rw [lineText, hfound]
    rfl
  have hending : (ofSource source).endingOf number = String.ofList line.ending := by
    rw [endingOf, hfound]
    rfl
  have hsource : source.toList = before ++ (line.visible ++ (line.ending ++ after)) := by
    rw [hstands.text_eq, ← line.visible_append_ending, List.append_assoc]
  refine ⟨line.span, hspan, ?_⟩
  rw [hending]
  refine ⟨?_, ?_, ?_, ?_, byteLength (before ++ line.chars), ?_, ?_⟩
  · rw [toUTF8_eq_utf8]
    exact hstands.lineStart
  · rw [htext, Line.span, hstands.start_eq]
    exact Span.covers_of_cut hsource
  · rw [htext, String.toList_ofList]
    exact hstands.newline_notMem
  · intro c hc
    rw [String.toList_ofList] at hc
    exact Line.isTerminator_of_mem_ending hc
  · have hstop : line.span.stop = byteLength (before ++ line.visible) := by
      rw [Line.span, hstands.start_eq, byteLength_append]
    have hnext : byteLength (before ++ line.chars) =
        byteLength (before ++ line.visible) + byteLength line.ending := by
      rw [← byteLength_append, List.append_assoc, line.visible_append_ending]
    have hcut : source.toList = (before ++ line.visible) ++ (line.ending ++ after) := by
      rw [hsource, List.append_assoc]
    rw [hstop, hnext]
    exact Span.covers_of_cut hcut
  · rw [lineCount_ofSource, toUTF8_eq_utf8, ← byteLength_toList]
    exact hstands.next

/-- The line that an offset is looked up on is a line of the text. -/
theorem exists_showsLine_lookup (source : String) (offset : Nat) :
    ∃ span, ShowsLine source ((ofSource source).lookup offset).line span
      ((ofSource source).endingOf ((ofSource source).lookup offset).line) := by
  have hpos : 1 ≤ ((ofSource source).lookup offset).line := by
    rw [line_lookup]
    exact Nat.le_add_right 1 _
  obtain ⟨span, -, hshows⟩ := exists_showsLine hpos (line_lookup_le source offset)
  exact ⟨span, hshows⟩

/-- The lines with their endings, one after another, are the text. -/
theorem join_lines (source : String) :
    String.join ((List.range (ofSource source).lineCount).map fun index =>
      (ofSource source).lineText (index + 1) ++ (ofSource source).endingOf (index + 1)) =
        source := by
  have hlines : ((List.range (ofSource source).lineCount).map fun index =>
      (ofSource source).lineText (index + 1) ++ (ofSource source).endingOf (index + 1)) =
        (ofSource source).lines.toList.map fun line => String.ofList line.chars := by
    apply List.ext_getElem (by simp [lineCount])
    intro index hleft hright
    have hlt : index < (ofSource source).lines.size := by simpa using hright
    have hfound : (ofSource source).line? (index + 1) = some (ofSource source).lines[index] :=
      Array.getElem?_eq_getElem hlt
    rw [List.getElem_map, List.getElem_map, List.getElem_range, lineText, endingOf, hfound,
      Array.getElem_toList, ← Line.visible_append_ending, String.ofList_append]
    rfl
  rw [hlines, ← String.toList_inj, String.toList_join, List.flatMap_map]
  simp only [String.toList_ofList]
  exact Line.flatMap_chars_cut source.toList 0 [] #[]

theorem line?_eq_none {m : LineMap} {number : Nat} (h : number = 0 ∨ m.lineCount < number) :
    m.line? number = none := by
  cases number with
  | zero => rfl
  | succ index =>
      have hle : m.lines.size ≤ index := by
        have hlt : m.lines.size < index + 1 := by simpa [lineCount] using h
        omega
      exact Array.getElem?_eq_none hle

/-- **The map locates every offset and shows every line.**  The line of an offset is counted by
the newline bytes before it and the column by the bytes since that line starts, so that offsets
and positions go up together.  What shows of a line is the text at its span and has no newline,
and between it and the next line, or the end of the text, there is nothing but terminators; with
these the lines give the text back.  Other numbers have no line. -/
theorem ofSource_locates (source : String) :
    (∀ offset ≤ source.utf8ByteSize,
      ((ofSource source).lookup offset).line =
        1 + (source.toUTF8.data.toList.take offset).count 10 ∧
      1 ≤ ((ofSource source).lookup offset).line ∧
      ((ofSource source).lookup offset).line ≤ (ofSource source).lineCount ∧
      ∃ start, LineStart source.toUTF8.data.toList ((ofSource source).lookup offset).line start ∧
        start ≤ offset ∧ offset + 1 = start + ((ofSource source).lookup offset).column) ∧
    (∀ a b, a < b → b ≤ source.utf8ByteSize →
      ((ofSource source).lookup a).Precedes ((ofSource source).lookup b)) ∧
    (∀ a b, a ≤ source.utf8ByteSize → b ≤ source.utf8ByteSize →
      (ofSource source).lookup a = (ofSource source).lookup b → a = b) ∧
    (∃ endings : Nat → String,
      String.join ((List.range (ofSource source).lineCount).map fun index =>
        (ofSource source).lineText (index + 1) ++ endings (index + 1)) = source ∧
      ∀ number, 1 ≤ number → number ≤ (ofSource source).lineCount →
        ∃ span, (ofSource source).lineSpan? number = some span ∧
          ShowsLine source number span (endings number)) ∧
    (∀ number, number = 0 ∨ (ofSource source).lineCount < number →
      (ofSource source).lineText number = "" ∧ (ofSource source).lineSpan? number = none) := by
  refine ⟨?_, ?_, ?_, ⟨(ofSource source).endingOf, join_lines source, ?_⟩, ?_⟩
  · intro offset _
    have hline := line_lookup source offset
    rw [toUTF8_eq_utf8]
    exact ⟨hline, by omega, line_lookup_le source offset, exists_lineStart source offset⟩
  · intro a b hlt _
    exact lookup_precedes source hlt
  · intro a b _ _ heq
    rcases Nat.lt_trichotomy a b with hlt | rfl | hlt
    · exact absurd heq (lookup_precedes source hlt).ne
    · rfl
    · exact absurd heq.symm (lookup_precedes source hlt).ne
  · intro number hpos hle
    exact exists_showsLine hpos hle
  · intro number hno
    rw [lineText, lineSpan?, line?_eq_none hno]
    exact ⟨rfl, rfl⟩

/-- An offset inside a character has a position too, and returns before a newline do not show. -/
theorem ofSource_locates_accented :
    (1 < 5 ∧ 5 ≤ "é\r\r\n\n".utf8ByteSize ∧ (ofSource "é\r\r\n\n").lineCount = 3) ∧
    (ofSource "é\r\r\n\n").lookup 1 = ⟨1, 2⟩ ∧ (ofSource "é\r\r\n\n").lookup 5 = ⟨2, 1⟩ ∧
    ((ofSource "é\r\r\n\n").lookup 1).Precedes ((ofSource "é\r\r\n\n").lookup 5) ∧
    (ofSource "é\r\r\n\n").lineText 1 = "é" ∧
    (∃ ending, ShowsLine "é\r\r\n\n" 1 ⟨0, 2⟩ ending) ∧
    (∃ ending, ShowsLine "é\r\r\n\n" 3 ⟨6, 6⟩ ending) ∧
    (ofSource "é\r\r\n\n").lineText 4 = "" ∧ (ofSource "é\r\r\n\n").lineSpan? 4 = none := by
  have hsize : "é\r\r\n\n".utf8ByteSize = 6 := by decide
  have hcount : (ofSource "é\r\r\n\n").lineCount = 3 := by decide
  obtain ⟨-, hprecedes, -, ⟨endings, -, hshows⟩, hnone⟩ := ofSource_locates "é\r\r\n\n"
  have hfirst : (ofSource "é\r\r\n\n").lineSpan? 1 = some ⟨0, 2⟩ := by decide
  have hlast : (ofSource "é\r\r\n\n").lineSpan? 3 = some ⟨6, 6⟩ := by decide
  obtain ⟨span, hspan, hshow⟩ := hshows 1 (by omega) (by omega)
  obtain ⟨span', hspan', hshow'⟩ := hshows 3 (by omega) (by omega)
  obtain rfl := Option.some.inj (hfirst.symm.trans hspan)
  obtain rfl := Option.some.inj (hlast.symm.trans hspan')
  exact ⟨⟨by omega, by omega, hcount⟩, by decide, by decide, hprecedes 1 5 (by omega) (by omega),
    by decide, ⟨_, hshow⟩, ⟨_, hshow'⟩, hnone 4 (Or.inr (by omega))⟩

end LineMap

end StackCalc
