/-
Where tokens stand.

The scanner carries its place along and never looks back, while the line map of a text is
made from the whole text at once.  What connects them is the text before a token: the
scanner's place there is the one reached over exactly that text, so the token's line is one
more than the newlines in it, and a text has one line more than it has newlines.  Hence the
line of a token is always a line of the text.
-/
import StackCalc.Proofs.Except
import StackCalc.Source.LineMap
import StackCalc.Token.Lexer

namespace StackCalc

namespace Place

theorem after_append (p : Place) (as bs : List Char) :
    p.after (as ++ bs) = (p.after as).after bs :=
  List.foldl_append

theorem line_advance (p : Place) (c : Char) :
    (p.advance c).position.line = p.position.line + if c = '\n' then 1 else 0 := by
  unfold advance
  by_cases h : c = '\n'
  · rw [if_pos h, if_pos h]
  · rw [if_neg h, if_neg h]
    rfl

/-- A place moves down one line for each newline. -/
theorem line_after : ∀ (cs : List Char) (p : Place),
    (p.after cs).position.line = p.position.line + cs.count '\n' := by
  intro cs
  induction cs with
  | nil => intro p; rfl
  | cons c cs ih =>
      intro p
      show ((p.advance c).after cs).position.line = _
      rw [ih, line_advance, List.count_cons]
      by_cases h : c = '\n'
      · rw [if_pos h, if_pos (by simpa using h)]
        omega
      · rw [if_neg h, if_neg (by simpa using h)]
        omega

end Place

namespace Token

/-! ### The text of a token -/

/-- The token stands at a part of the text that starts at `p`. -/
def StandsIn (p : Place) (cs : List Char) (t : Token) : Prop :=
  ∃ before text after, cs = before ++ text ++ after ∧ t.site = (p.after before).siteOf text

theorem StandsIn.behind {p : Place} {cs : List Char} {t : Token} (piece : List Char)
    (h : StandsIn (p.after piece) cs t) : StandsIn p (piece ++ cs) t := by
  obtain ⟨before, text, after, rfl, hsite⟩ := h
  refine ⟨piece ++ before, text, after, by simp, ?_⟩
  rw [Place.after_append]
  exact hsite

/-- A text is its first piece and the rest. -/
theorem cons_eq_piece (c : Char) (cs : List Char) (more : Nat) :
    c :: cs = (c :: cs.take more) ++ cs.drop more := by
  rw [List.cons_append, List.take_append_drop]

theorem standsIn_of_scanFrom (p : Place) (done : Array Token) (cs : List Char) :
    ∀ {ts : Array Token}, scanFrom p done cs = .ok ts → ∀ t ∈ ts, t ∈ done ∨ StandsIn p cs t := by
  fun_induction scanFrom p done cs
  case case1 p done =>
      intro ts h t ht
      rw [← Except.ok.inj h] at ht
      exact Or.inl ht
  case case2 p done c cs more hfront ih =>
      intro ts h t ht
      rw [cons_eq_piece c cs more]
      rcases ih h t ht with hdone | hrest
      · exact Or.inl hdone
      · exact Or.inr (hrest.behind _)
  case case3 p done c cs kind more hfront text ih =>
      intro ts h t ht
      rw [cons_eq_piece c cs more]
      rcases ih h t ht with hdone | hrest
      · rcases Array.mem_push.mp hdone with hdone | rfl
        · exact Or.inl hdone
        · exact Or.inr ⟨[], text, cs.drop more, rfl, rfl⟩
      · exact Or.inr (hrest.behind text)
  case case4 p done c cs more hfront =>
      intro ts h
      simp at h

/-- Every token of a text stands in it. -/
theorem standsIn_of_scan {source : String} {ts : List Token} (h : scan source = .ok ts) :
    ∀ t ∈ ts, StandsIn .start source.toList t := by
  intro t ht
  unfold scan at h
  cases hscan : scanFrom .start #[] source.toList with
  | error e =>
      rw [hscan] at h
      cases h
  | ok done =>
      rw [hscan] at h
      rw [← Except.ok.inj h] at ht
      rcases standsIn_of_scanFrom .start #[] source.toList hscan t (by simpa using ht) with
        hempty | hstands
      · simp at hempty
      · exact hstands

end Token

/-! ### The lines of a text -/

theorem Line.size_cut : ∀ (cs : List Char) (start : Nat) (seen : List Char) (done : Array Line),
    (cut start seen done cs).size = done.size + cs.count '\n' + 1 := by
  intro cs
  induction cs with
  | nil => intro start seen done; simp [cut]
  | cons c cs ih =>
      intro start seen done
      rw [cut, List.count_cons]
      by_cases h : c = '\n'
      · rw [if_pos h, if_pos (by simpa using h)]
        simp only [ih, Array.size_push]
        omega
      · rw [if_neg h, if_neg (by simpa using h), ih]
        rfl

namespace LineMap

/-- A text has one line more than it has newlines. -/
theorem lineCount_ofSource (source : String) :
    (ofSource source).lineCount = source.toList.count '\n' + 1 := by
  show (Line.cut 0 [] #[] source.toList).size = _
  rw [Line.size_cut]
  simp

/-- Every line that there is has a span. -/
theorem exists_lineSpan? {m : LineMap} {number : Nat} (hpos : 1 ≤ number)
    (hle : number ≤ m.lineCount) : ∃ span, m.lineSpan? number = some span := by
  obtain ⟨n, rfl⟩ := Nat.exists_eq_add_of_le' hpos
  have hn : n < m.lines.size := hle
  exact ⟨m.lines[n].span, by simp [lineSpan?, line?, hn]⟩

end LineMap

/-- The line of a token is a line of the text. -/
theorem Token.StandsIn.line_bounds {source : String} {t : Token}
    (h : StandsIn .start source.toList t) :
    1 ≤ t.site.position.line ∧ t.site.position.line ≤ (LineMap.ofSource source).lineCount := by
  obtain ⟨before, text, after, hsource, hsite⟩ := h
  have hline : t.site.position.line = 1 + before.count '\n' := by
    rw [hsite]
    exact Place.line_after before .start
  have hcount : before.count '\n' ≤ source.toList.count '\n' := by
    rw [hsource, List.count_append, List.count_append]
    omega
  rw [LineMap.lineCount_ofSource]
  omega

end StackCalc
