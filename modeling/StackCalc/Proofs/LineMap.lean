/-
Positions from the line map and positions from the scanner.

The line map of a text is made from the whole text and answers for any offset; the scanner
counts lines and columns as it goes.  Both depend on nothing but where lines start.  A line
starts at the front of the text and after each newline, and `lineStarts` lists the latter.
Cutting the text at an offset splits this list into the starts that are not beyond the
offset and those that are, so the map finds the line by counting, and the column is the
distance to the last start that counts.  The scanner's column is that same distance.

The starts increase.  That is what makes the count the place where the starts go beyond the
offset, so that a search by halves would find it.
-/
import StackCalc.Proofs.Places

namespace StackCalc

/-! ### Where lines start -/

/-- The offsets right after the newlines of a text that starts at `offset`. -/
def lineStarts (offset : Nat) : List Char → List Nat
  | [] => []
  | c :: cs =>
    let next := offset + c.utf8Size
    if c = '\n' then next :: lineStarts next cs else lineStarts next cs

theorem lineStarts_newline (offset : Nat) (cs : List Char) :
    lineStarts offset ('\n' :: cs) =
      (offset + '\n'.utf8Size) :: lineStarts (offset + '\n'.utf8Size) cs := rfl

theorem lineStarts_cons_of_ne {c : Char} (h : c ≠ '\n') (offset : Nat) (cs : List Char) :
    lineStarts offset (c :: cs) = lineStarts (offset + c.utf8Size) cs := by
  simp [lineStarts, h]

theorem lineStarts_append (as bs : List Char) : ∀ offset,
    lineStarts offset (as ++ bs) =
      lineStarts offset as ++ lineStarts (offset + byteLength as) bs := by
  induction as with
  | nil => intro offset; simp [lineStarts]
  | cons c as ih =>
      intro offset
      by_cases h : c = '\n'
      · subst h
        rw [List.cons_append, lineStarts_newline, lineStarts_newline, ih, byteLength_cons,
          Nat.add_assoc, List.cons_append]
      · rw [List.cons_append, lineStarts_cons_of_ne h, lineStarts_cons_of_ne h, ih,
          byteLength_cons, Nat.add_assoc]

theorem length_lineStarts (cs : List Char) : ∀ offset,
    (lineStarts offset cs).length = cs.count '\n' := by
  induction cs with
  | nil => intro offset; rfl
  | cons c cs ih =>
      intro offset
      by_cases h : c = '\n'
      · subst h
        rw [lineStarts_newline, List.length_cons, ih, List.count_cons_self]
      · rw [lineStarts_cons_of_ne h, ih, List.count_cons_of_ne h]

/-- Every start lies behind a newline of the text. -/
theorem lineStarts_bounds (cs : List Char) : ∀ offset,
    ∀ start ∈ lineStarts offset cs, offset < start ∧ start ≤ offset + byteLength cs := by
  induction cs with
  | nil => intro offset start h; simp [lineStarts] at h
  | cons c cs ih =>
      intro offset start hmem
      have hpos := c.utf8Size_pos
      rw [byteLength_cons]
      by_cases h : c = '\n'
      · subst h
        rw [lineStarts_newline, List.mem_cons] at hmem
        rcases hmem with rfl | hmem
        · omega
        · have := ih _ start hmem
          omega
      · rw [lineStarts_cons_of_ne h] at hmem
        have := ih _ start hmem
        omega

/-- Each start lies behind the ones before it. -/
theorem lineStarts_increasing (cs : List Char) : ∀ offset,
    (lineStarts offset cs).Pairwise (· < ·) := by
  induction cs with
  | nil => intro offset; exact .nil
  | cons c cs ih =>
      intro offset
      by_cases h : c = '\n'
      · subst h
        rw [lineStarts_newline]
        refine .cons ?_ (ih _)
        intro start hmem
        exact (lineStarts_bounds cs _ start hmem).1
      · rw [lineStarts_cons_of_ne h]
        exact ih _

theorem byteLength_reverse (cs : List Char) : byteLength cs.reverse = byteLength cs := by
  induction cs with
  | nil => rfl
  | cons c cs ih => simp [ih, Nat.add_comm]

/-- The lines of a text start at its front and after each newline. -/
theorem Line.start_cut (cs : List Char) : ∀ (start : Nat) (seen : List Char) (done : Array Line),
    (cut start seen done cs).toList.map Line.start =
      done.toList.map Line.start ++ start :: lineStarts (start + byteLength seen) cs := by
  induction cs with
  | nil => intro start seen done; simp [cut, lineStarts]
  | cons c cs ih =>
      intro start seen done
      have hnext : start + (c.utf8Size + byteLength seen) =
          start + byteLength seen + c.utf8Size := by omega
      rw [cut]
      by_cases h : c = '\n'
      · subst h
        rw [if_pos rfl]
        simp only [ih, byteLength_reverse, byteLength_cons, lineStarts_newline, hnext]
        simp
      · rw [if_neg h, ih, lineStarts_cons_of_ne h, byteLength_cons, hnext]

theorem LineMap.starts_ofSource (source : String) :
    (ofSource source).lines.toList.map Line.start = 0 :: lineStarts 0 source.toList :=
  Line.start_cut source.toList 0 [] #[]

/-- The lines of a text are in the order of their starts. -/
theorem LineMap.starts_increasing (source : String) :
    ((ofSource source).lines.toList.map Line.start).Pairwise (· < ·) := by
  rw [starts_ofSource]
  refine .cons ?_ (lineStarts_increasing _ 0)
  intro start hmem
  exact (lineStarts_bounds _ 0 start hmem).1

/-! ### The scanner's place -/

theorem Place.offset_advance (p : Place) (c : Char) :
    (p.advance c).offset = p.offset + c.utf8Size := by
  unfold advance
  split <;> rfl

theorem Place.offset_after (cs : List Char) : ∀ p : Place,
    (p.after cs).offset = p.offset + byteLength cs := by
  induction cs with
  | nil => intro p; rfl
  | cons c cs ih =>
      intro p
      show ((p.advance c).after cs).offset = _
      rw [ih, offset_advance, byteLength_cons, Nat.add_assoc]

/-- The scanner's column is the distance to the last start of a line, where `start` is that
of the line it begins on. -/
theorem Place.column_after (cs : List Char) : ∀ {p : Place} {start : Nat}, start ≤ p.offset →
    p.position.column = p.offset - start + 1 →
    (p.after cs).position.column =
      (p.after cs).offset - (lineStarts p.offset cs).getLast?.getD start + 1 := by
  induction cs with
  | nil =>
      intro p start _ hcolumn
      exact hcolumn
  | cons c cs ih =>
      intro p start hle hcolumn
      show ((p.advance c).after cs).position.column = ((p.advance c).after cs).offset - _ + 1
      by_cases h : c = '\n'
      · subst h
        have hnext : (p.advance '\n').offset = p.offset + '\n'.utf8Size := p.offset_advance '\n'
        have hfirst : (p.advance '\n').position.column =
            (p.advance '\n').offset - (p.advance '\n').offset + 1 := by
          rw [Nat.sub_self]
          rfl
        rw [ih (Nat.le_refl _) hfirst, hnext, lineStarts_newline, List.getLast?_cons,
          Option.getD_some]
      · have hnext : (p.advance c).offset = p.offset + c.utf8Size := p.offset_advance c
        have hsame : (p.advance c).position.column = (p.advance c).offset - start + 1 := by
          rw [hnext]
          simp only [advance, if_neg h]
          omega
        rw [ih (by omega) hsame, hnext, lineStarts_cons_of_ne h]

/-! ### Lookups -/

namespace LineMap

variable {source : String} {before after : List Char}

/-- In an increasing list the numbers up to a limit come first, and their count is the place
where they end. -/
theorem le_iff_lt_countP {starts : List Nat} (h : starts.Pairwise (· < ·)) (limit : Nat) :
    ∀ {index start : Nat}, starts[index]? = some start →
      (start ≤ limit ↔ index < starts.countP fun s => decide (s ≤ limit)) := by
  induction h with
  | nil =>
      intro index start hstart
      simp at hstart
  | @cons first rest hfirst _ ih =>
      intro index start hstart
      by_cases hle : first ≤ limit
      · rw [List.countP_cons_of_pos (by simpa using hle)]
        rcases index with _ | index
        · obtain rfl : first = start := by simpa using hstart
          simp [hle]
        · rw [ih hstart, Nat.add_lt_add_iff_right]
      · have hnone : rest.countP (fun s => decide (s ≤ limit)) = 0 := by
          rw [List.countP_eq_zero]
          intro s hs
          have := hfirst s hs
          simp
          omega
        have hbeyond : first ≤ start := by
          rcases List.mem_cons.mp (List.mem_of_getElem? hstart) with rfl | hmem
          · exact Nat.le_refl _
          · exact Nat.le_of_lt (hfirst start hmem)
        rw [List.countP_cons_of_neg (by simpa using hle), hnone]
        omega

/-- **The lines that start at or before an offset are the first ones**, and their number is the
place where the starts go beyond the offset. -/
theorem start_le_iff {index : Nat} {line : Line} (h : (ofSource source).lines[index]? = some line)
    (offset : Nat) : line.start ≤ offset ↔
      index < (ofSource source).lines.countP fun l => decide (l.start ≤ offset) := by
  have hstart : ((ofSource source).lines.toList.map Line.start)[index]? = some line.start := by
    rw [List.getElem?_map, Array.getElem?_toList, h]
    rfl
  rw [le_iff_lt_countP (starts_increasing source) offset hstart, List.countP_map,
    ← Array.countP_toList]
  rfl

/-- The lines that start at or before an offset are counted by the newlines before it. -/
theorem countP_starts (h : source.toList = before ++ after) :
    (ofSource source).lines.countP (fun l => decide (l.start ≤ byteLength before)) =
      before.count '\n' + 1 := by
  have hbefore : (lineStarts 0 before).countP (fun s => decide (s ≤ byteLength before)) =
      (lineStarts 0 before).length := by
    rw [List.countP_eq_length]
    intro start hmem
    have := lineStarts_bounds before 0 start hmem
    simp
    omega
  have hafter : (lineStarts (0 + byteLength before) after).countP
      (fun s => decide (s ≤ byteLength before)) = 0 := by
    rw [List.countP_eq_zero]
    intro start hmem
    have := lineStarts_bounds after _ start hmem
    simp
    omega
  calc (ofSource source).lines.countP (fun l => decide (l.start ≤ byteLength before))
      = ((ofSource source).lines.toList.map Line.start).countP
          (fun s => decide (s ≤ byteLength before)) := by
        rw [List.countP_map, ← Array.countP_toList]
        rfl
    _ = before.count '\n' + 1 := by
        rw [starts_ofSource, h, lineStarts_append, List.countP_cons_of_pos (by simp),
          List.countP_append, hbefore, hafter, length_lineStarts, Nat.add_zero]

/-- The line on which an offset lies starts after the last newline before the offset. -/
theorem start_line? (h : source.toList = before ++ after) :
    ((ofSource source).line? (before.count '\n' + 1)).map Line.start =
      some ((lineStarts 0 before).getLast?.getD 0) := by
  have hlast : (0 :: lineStarts 0 before)[(lineStarts 0 before).length]? =
      some ((lineStarts 0 before).getLast?.getD 0) := by
    rw [← List.getLast?_cons, List.getLast?_eq_getElem?]
    rfl
  show ((ofSource source).lines[before.count '\n']?).map Line.start = _
  rw [← Array.getElem?_toList, ← List.getElem?_map, starts_ofSource, h, lineStarts_append,
    ← List.cons_append, ← length_lineStarts before 0, List.getElem?_append_left (by simp), hlast]

/-- **The map gives an offset the position that the scanner shows there.** -/
theorem lookup_ofSource (h : source.toList = before ++ after) :
    (ofSource source).lookup (byteLength before) = (Place.start.after before).position := by
  have hstart : ((ofSource source).line? (before.count '\n' + 1)).elim 0 Line.start =
      (lineStarts 0 before).getLast?.getD 0 := by
    have hmap := start_line? h
    obtain ⟨line, hline, hs⟩ := Option.map_eq_some_iff.mp hmap
    rw [hline]
    exact hs
  have hline := Place.line_after before .start
  have hcolumn := Place.column_after before (p := .start) (Nat.zero_le _) rfl
  have hoffset := Place.offset_after before .start
  have hmax : max 1 (before.count '\n' + 1) = before.count '\n' + 1 := by omega
  simp only [lookup, countP_starts h, hmax, hstart]
  show _ = Position.mk (Place.start.after before).position.line _
  rw [hline, hcolumn, hoffset, Nat.add_comm]
  simp [Place.start]

end LineMap

end StackCalc
