/-
Colour only adds escapes.

Take the escapes out of a coloured report, and the plain one is left.  What stands between the
escapes is any text at all, so this could fail where two pieces meet: the end of one and the
front of the next might make an escape that neither of them has.  It does not, since an escape
starts with a character of its own, and a text without that character has no part in any escape
but those that `paint` puts around it.

`Fades` says this of a coloured and a plain text with anything at all behind them.  It holds of
what is painted and of what is not, it goes through when texts are put together, and a report is
put together the same way in both forms.
-/
import StackCalc.Proofs.SourceLines
import StackCalc.Report.Render

namespace StackCalc

/-! ### Escapes -/

/-- What may stand between the bracket of an escape and its end. -/
def isParameter (c : Char) : Bool :=
  c.isDigit || c == ';'

/-- An escape that changes the style of what follows. -/
def IsEscape (text : List Char) : Prop :=
  ∃ parameters, (∀ c ∈ parameters, isParameter c = true) ∧
    text = '\x1b' :: '[' :: (parameters ++ ['m'])

/-- What stands behind the escape that starts the text, if one does. -/
def behindEscape? : List Char → Option (List Char)
  | '\x1b' :: '[' :: cs =>
    match cs.dropWhile isParameter with
    | 'm' :: rest => some rest
    | _ => none
  | _ => none

theorem behindEscape?_eq_some_iff {cs rest : List Char} :
    behindEscape? cs = some rest ↔ ∃ escape, IsEscape escape ∧ cs = escape ++ rest := by
  constructor
  · intro h
    unfold behindEscape? at h
    split at h
    · rename_i cs
      split at h
      · rename_i rest' hdrop
        obtain rfl := Option.some.inj h
        refine ⟨_, ⟨cs.takeWhile isParameter, List.all_eq_true.mp List.all_takeWhile, rfl⟩, ?_⟩
        rw [List.cons_append, List.cons_append, List.append_assoc, List.singleton_append, ← hdrop,
          List.takeWhile_append_dropWhile]
      · cases h
    · cases h
  · rintro ⟨escape, ⟨parameters, hparameters, rfl⟩, rfl⟩
    have hdrop : (parameters ++ 'm' :: rest).dropWhile isParameter = 'm' :: rest := by
      rw [List.dropWhile_append_of_pos hparameters, List.dropWhile_cons_of_neg (by decide)]
    simp only [List.cons_append, List.append_assoc, List.nil_append, behindEscape?, hdrop]

/-- The text without any of its escapes. -/
def withoutEscapes : List Char → List Char
  | [] => []
  | c :: cs =>
    match _h : behindEscape? (c :: cs) with
    | some rest => withoutEscapes rest
    | none => c :: withoutEscapes cs
termination_by cs => cs.length
decreasing_by
  · obtain ⟨escape, ⟨parameters, -, rfl⟩, hcs⟩ := behindEscape?_eq_some_iff.mp _h
    rw [hcs]
    simp only [List.length_append, List.length_cons]
    omega
  · simp

theorem withoutEscapes_escape {escape : List Char} (h : IsEscape escape) (cs : List Char) :
    withoutEscapes (escape ++ cs) = withoutEscapes cs := by
  have hbehind : behindEscape? (escape ++ cs) = some cs :=
    behindEscape?_eq_some_iff.mpr ⟨escape, h, rfl⟩
  obtain ⟨parameters, -, rfl⟩ := h
  rw [List.cons_append] at hbehind ⊢
  rw [withoutEscapes]
  split
  · rename_i rest hrest
    rw [Option.some.inj (hrest.symm.trans hbehind)]
  · rename_i hnone
    rw [hnone] at hbehind
    cases hbehind

/-- A character that starts no escape stays. -/
theorem withoutEscapes_cons {c : Char} (h : c ≠ '\x1b') (cs : List Char) :
    withoutEscapes (c :: cs) = c :: withoutEscapes cs := by
  rw [withoutEscapes]
  split
  · rename_i rest hrest
    obtain ⟨escape, ⟨parameters, -, rfl⟩, hcs⟩ := behindEscape?_eq_some_iff.mp hrest
    exact absurd (List.cons.inj hcs).1 h
  · rfl

theorem withoutEscapes_append {as : List Char} (h : '\x1b' ∉ as) (cs : List Char) :
    withoutEscapes (as ++ cs) = as ++ withoutEscapes cs := by
  induction as with
  | nil => rfl
  | cons a as ih =>
      rw [List.mem_cons, not_or] at h
      rw [List.cons_append, withoutEscapes_cons (Ne.symm h.1), ih h.2, List.cons_append]

theorem isEscape_parameters (style : Style) :
    IsEscape ("\x1b[" ++ style.parameters ++ "m").toList := by
  refine ⟨style.parameters.toList, List.all_eq_true.mp ?_, by simp⟩
  cases style <;> decide

/-! ### Coloured and plain texts -/

/-- The text does not hold the character that starts an escape. -/
def EscapeFree (text : String) : Prop :=
  '\x1b' ∉ text.toList

instance (text : String) : Decidable (EscapeFree text) :=
  inferInstanceAs (Decidable ('\x1b' ∉ text.toList))

/-- Without its escapes the coloured text is the plain one, whatever comes behind it. -/
structure Fades (coloured plain : String) : Prop where
  without : ∀ rest,
    withoutEscapes (coloured.toList ++ rest) = plain.toList ++ withoutEscapes rest
  free : EscapeFree plain

namespace Fades

theorem plain {text : String} (h : EscapeFree text) : Fades text text :=
  ⟨withoutEscapes_append h, h⟩

theorem append {a a' b b' : String} (ha : Fades a a') (hb : Fades b b') :
    Fades (a ++ b) (a' ++ b') := by
  refine ⟨?_, ?_⟩
  · intro rest
    rw [String.toList_append, String.toList_append, List.append_assoc, ha.without, hb.without,
      List.append_assoc]
  · unfold EscapeFree
    rw [String.toList_append, List.mem_append, not_or]
    exact ⟨ha.free, hb.free⟩

theorem join {α : Type} {f g : α → String} {l : List α} (h : ∀ a ∈ l, Fades (f a) (g a)) :
    Fades (String.join (l.map f)) (String.join (l.map g)) := by
  induction l with
  | nil => exact plain (show EscapeFree "" by decide)
  | cons a l ih =>
      rw [List.map_cons, List.map_cons, String.join_cons, String.join_cons]
      exact (h a List.mem_cons_self).append (ih fun b hb => h b (List.mem_cons_of_mem a hb))

theorem elim {α : Type} {f g : α → String} {o : Option α} (h : ∀ a ∈ o, Fades (f a) (g a)) :
    Fades (o.elim "" f) (o.elim "" g) := by
  cases o with
  | none => exact plain (show EscapeFree "" by decide)
  | some a => exact h a rfl

/-- Paint is put on by escapes before and behind the text. -/
theorem paint {text : String} (h : EscapeFree text) (style : Style) :
    Fades (paint true style text) (paint false style text) := by
  have hstop : IsEscape "\x1b[0m".toList := ⟨['0'], List.all_eq_true.mp (by decide), by decide⟩
  refine ⟨?_, h⟩
  intro rest
  show withoutEscapes ((("\x1b[" ++ style.parameters ++ "m") ++ text ++ "\x1b[0m").toList ++ rest) =
    text.toList ++ withoutEscapes rest
  rw [String.toList_append, String.toList_append, List.append_assoc, List.append_assoc,
    withoutEscapes_escape (isEscape_parameters style), withoutEscapes_append h,
    withoutEscapes_escape hstop]

end Fades

/-! ### The pieces of a report -/

theorem escapeFree_toString (n : Nat) : EscapeFree (toString n) := by
  intro hmem
  rw [Nat.toString_eq_ofList_toDigits, String.toList_ofList] at hmem
  exact absurd (Nat.isDigit_of_mem_toDigits (by omega) (by omega) hmem) (by decide)

theorem escapeFree_repeated {c : Char} (h : c ≠ '\x1b') (n : Nat) : EscapeFree (repeated n c) := by
  intro hmem
  rw [repeated, String.toList_ofList] at hmem
  exact h (List.eq_of_mem_replicate hmem).symm

/-- A line that is shown is part of the text. -/
theorem LineMap.escapeFree_lineText {source : String} (h : EscapeFree source) (offset : Nat) :
    EscapeFree ((ofSource source).lineText ((ofSource source).lookup offset).line) := by
  obtain ⟨span, hshows⟩ := exists_showsLine_lookup source offset
  obtain ⟨before, after, hsource, -⟩ := hshows.text
  intro hmem
  apply h
  rw [hsource, String.toList_append, String.toList_append]
  exact List.mem_append_left _ (List.mem_append_right _ hmem)

theorem Excerpt.fades_layout {e : Excerpt} (htext : EscapeFree e.text)
    (hmessage : EscapeFree e.message) : Fades (e.layout true) (e.layout false) := by
  have hnumber := escapeFree_toString e.position.line
  have hcolumn := Fades.plain (escapeFree_toString e.position.column)
  have hpad := Fades.plain
    (escapeFree_repeated (show ' ' ≠ '\x1b' by decide) (toString e.position.line).length)
  have hindent := Fades.plain (escapeFree_repeated (show ' ' ≠ '\x1b' by decide) e.indent)
  have hcarets := escapeFree_repeated (show '^' ≠ '\x1b' by decide) e.carets
  have hbar := Fades.paint (show EscapeFree "|" by decide) .cyan
  have harrow := Fades.paint (show EscapeFree "-->" by decide) .cyan
  have hblank := Fades.plain (show EscapeFree " " by decide)
  have hend := Fades.plain (show EscapeFree "\n" by decide)
  have hcaption : Fades (if e.message = "" then "" else " " ++ paint true .boldRed e.message)
      (if e.message = "" then "" else " " ++ paint false .boldRed e.message) := by
    by_cases hempty : e.message = ""
    · rw [if_pos hempty, if_pos hempty]
      exact .plain (by decide)
    · rw [if_neg hempty, if_neg hempty]
      exact hblank.append (.paint hmessage _)
  -- Piece by piece, one line of the excerpt after another.
  exact (Fades.plain (show EscapeFree "  " by decide))
    |>.append harrow |>.append hblank |>.append (.plain hnumber) |>.append (.plain (by decide))
      |>.append hcolumn |>.append hend
    |>.append hpad |>.append hblank |>.append hbar |>.append hend
    |>.append (.paint hnumber _) |>.append hblank |>.append hbar |>.append hblank
      |>.append (.plain htext) |>.append hend
    |>.append hpad |>.append hblank |>.append hbar |>.append hblank |>.append hindent
      |>.append (.paint hcarets _) |>.append hcaption |>.append hend
    |>.append hpad |>.append hblank |>.append hbar |>.append hend

theorem fades_remark {kind text : String} (hkind : EscapeFree kind) (htext : EscapeFree text) :
    Fades (remark true kind text) (remark false kind text) :=
  (Fades.plain (show EscapeFree "  " by decide))
    |>.append (.paint (by decide) _) |>.append (.plain (by decide)) |>.append (.plain hkind)
    |>.append (.plain (by decide)) |>.append (.plain htext) |>.append (.plain (by decide))

namespace Report

/-- All the texts of a report. -/
def texts (r : Report) : List String :=
  r.message :: (r.code.toList ++ r.labels.map Label.message ++ r.notes ++ r.suggestion.toList ++
    r.source.toList)

theorem fades_headline {r : Report} (h : ∀ text ∈ r.texts, EscapeFree text) :
    Fades (r.headline true) (r.headline false) := by
  have hcolon := Fades.plain (show EscapeFree ": " by decide)
  have hmessage := Fades.paint (h r.message (by simp [texts])) .bold
  have hend := Fades.plain (show EscapeFree "\n" by decide)
  cases hcode : r.code with
  | none =>
      simp only [headline, hcode]
      exact (Fades.paint (by decide) _) |>.append hcolon |>.append hmessage |>.append hend
  | some code =>
      have hhead : EscapeFree ("error[" ++ code ++ "]") :=
        ((Fades.plain (by decide)).append (.plain (h code (by simp [texts, hcode])))
          |>.append (.plain (by decide))).free
      simp only [headline, hcode]
      exact (Fades.paint hhead _) |>.append hcolon |>.append hmessage |>.append hend

/-- What a report shows of its source and its first label is part of them. -/
theorem fades_excerpt {r : Report} (h : ∀ text ∈ r.texts, EscapeFree text) :
    Fades (r.excerpt?.elim "" (Excerpt.layout true))
      (r.excerpt?.elim "" (Excerpt.layout false)) := by
  apply Fades.elim
  intro e he
  unfold excerpt? at he
  split at he
  · rename_i source label others hsource hlabels
    obtain rfl := Option.some.inj he
    apply Excerpt.fades_layout
    · exact LineMap.escapeFree_lineText (h source (by simp [texts, hsource])) label.span.start
    · exact h label.message (by simp [texts, hlabels])
  · cases he

theorem fades_layout {r : Report} (h : ∀ text ∈ r.texts, EscapeFree text) :
    Fades (r.layout true) (r.layout false) := by
  have hnotes : Fades (String.join (r.notes.map (remark true "note")))
      (String.join (r.notes.map (remark false "note"))) := by
    apply Fades.join
    intro note hnote
    exact fades_remark (by decide) (h note (by simp [texts, hnote]))
  have hsuggestion : Fades (r.suggestion.elim "" (remark true "suggestion"))
      (r.suggestion.elim "" (remark false "suggestion")) := by
    apply Fades.elim
    intro suggestion hsome
    exact fades_remark (by decide) (h suggestion (by simp [texts, Option.mem_def.mp hsome]))
  exact (fades_headline h).append (fades_excerpt h) |>.append hnotes |>.append hsuggestion

/-- The first thing that is painted is the head of the message. -/
theorem exists_layout_coloured (r : Report) :
    ∃ rest, r.layout true = "\x1b[" ++ Style.boldRed.parameters ++ "m" ++ rest := by
  unfold layout headline paint
  simp only [if_true, String.append_assoc, String.append_right_inj, exists_eq']

/-- **Colour only adds escapes.**  Where no text of a report holds the character that starts an
escape, the plain form does not hold it either, and it is what is left of the coloured form when
all escapes are taken out.  There always are some, since the coloured form starts with one. -/
theorem render_ansi_withoutEscapes {r : Report} (h : ∀ text ∈ r.texts, EscapeFree text) :
    String.ofList (withoutEscapes (r.render .ansi).toList) = r.render .text ∧
      EscapeFree (r.render .text) ∧
      ∃ escape rest, IsEscape escape ∧ (r.render .ansi).toList = escape ++ rest := by
  have hfades := fades_layout h
  have hwithout := hfades.without []
  refine ⟨?_, hfades.free, ?_⟩
  · rw [withoutEscapes, List.append_nil, List.append_nil] at hwithout
    show String.ofList (withoutEscapes (r.layout true).toList) = r.layout false
    rw [hwithout, String.ofList_toList]
  · obtain ⟨rest, hrest⟩ := r.exists_layout_coloured
    refine ⟨_, rest.toList, isEscape_parameters .boldRed, ?_⟩
    show (r.layout true).toList = _
    rw [hrest, String.toList_append]

/-- A note and a suggestion, and texts that have all of an escape but its first character. -/
def bracketed : Report where
  message := "[1m is no escape"
  code := some "[0m"
  labels := [⟨⟨2, 9⟩, "[36m"⟩]
  notes := ["[2;31m", ""]
  suggestion := some "\x7b[0m\x7d"
  source := some "1\n[0m;\n"

theorem render_bracketed :
    (∀ text ∈ bracketed.texts, EscapeFree text) ∧
      String.ofList (withoutEscapes (bracketed.render .ansi).toList) =
        "error[[0m]: [1m is no escape\n  --> 2:1\n  |\n2 | [0m;\n  | ^^^^ [36m\n  |\n" ++
          "  = note: [2;31m\n  = note: \n  = suggestion: \x7b[0m\x7d\n" := by
  have htexts : ∀ text ∈ bracketed.texts, EscapeFree text := by decide
  exact ⟨htexts, (render_ansi_withoutEscapes htexts).1.trans (by decide)⟩

end Report

end StackCalc
