/-
What stands in a source text.

Between tokens there are gaps, made of separators and closed comments, and the tokens
themselves are lexemes, each of a kind.  Both are said here by their shape alone, without a
scanner.

A text can start with lexemes of several lengths, and the scanner takes the longest one.
That has one direction which needs work: if a lexeme stands at the front of a text and no
longer one does, then the scanner finds just this one.  The other direction is free.  What
the scanner finds is a lexeme, so the text starts with some lexeme, so it starts with a
longest one, and that is the one the scanner finds.
-/
import StackCalc.Token.Lexer

namespace StackCalc

/-! ### Gaps and lexemes -/

/-- Text between tokens: separators and closed comments, in any order. -/
inductive IsGap : List Char → Prop
  | empty : IsGap []
  | separator {c : Char} {rest : List Char} (hc : c ∈ [' ', '\t', '\r', '\n', '\x0c'])
      (hrest : IsGap rest) : IsGap (c :: rest)
  | comment {body rest : List Char} (hbody : '\x7d' ∉ body) (hrest : IsGap rest) :
      IsGap ('\x7b' :: (body ++ '\x7d' :: rest))

/-- The text is that of a token of the kind.  A keyword is its spelling and nothing else, and
a name is any other text of that shape.  A double has a digit on both sides of its point. -/
inductive IsLexeme : TokenKind → List Char → Prop
  | keyword (k : Keyword) : IsLexeme (.keyword k) k.spelling.toList
  | mark (m : Mark) : IsLexeme (.mark m) m.spelling.toList
  | integer {d : Char} {ds : List Char} (hd : d.isDigit = true)
      (hds : ∀ c ∈ ds, isNumberChar c = true) : IsLexeme (.number .integer) (d :: ds)
  | double {d f : Char} {ds fs : List Char} (hd : d.isDigit = true)
      (hds : ∀ c ∈ ds, isNumberChar c = true) (hf : f.isDigit = true)
      (hfs : ∀ c ∈ fs, isNumberChar c = true) :
      IsLexeme (.number .double) (d :: (ds ++ '.' :: f :: fs))
  | string {body : List Char} (hquote : '"' ∉ body) (hline : '\n' ∉ body) :
      IsLexeme .string ('"' :: (body ++ ['"']))
  | identifier {c : Char} {cs : List Char} (hc : isNameStart c = true)
      (hcs : ∀ x ∈ cs, isNameChar x = true) (hkey : ∀ k : Keyword, k.spelling.toList ≠ c :: cs) :
      IsLexeme .identifier (c :: cs)

/-- No lexeme that starts where `text` does, with `rest` after it, is longer. -/
def Longest (text rest : List Char) : Prop :=
  ∀ ⦃kind : TokenKind⦄ ⦃other : List Char⦄, IsLexeme kind other → other <+: text ++ rest →
    other.length ≤ text.length

theorem isSeparator_iff {c : Char} :
    isSeparator c = true ↔ c ∈ [' ', '\t', '\r', '\n', '\x0c'] := by
  simp [isSeparator, or_assoc]

theorem IsGap.append {as bs : List Char} (ha : IsGap as) (hb : IsGap bs) : IsGap (as ++ bs) := by
  induction ha with
  | empty => exact hb
  | separator hc _ ih => exact .separator hc ih
  | @comment body rest hbody _ ih =>
      rw [List.cons_append, List.append_assoc, List.cons_append]
      exact .comment hbody ih

theorem isGap_of_separators {cs : List Char} (h : ∀ c ∈ cs, isSeparator c = true) : IsGap cs := by
  induction cs with
  | nil => exact .empty
  | cons c cs ih =>
      exact .separator (isSeparator_iff.mp (h c (by simp))) (ih fun x hx => h x (by simp [hx]))

/-- A text of the shape of a name is a keyword or an identifier. -/
theorem exists_isLexeme_of_name {c : Char} {cs : List Char} (hc : isNameStart c = true)
    (hcs : ∀ x ∈ cs, isNameChar x = true) : ∃ kind, IsLexeme kind (c :: cs) := by
  by_cases h : ∃ k : Keyword, k.spelling.toList = c :: cs
  · obtain ⟨k, hk⟩ := h
    exact ⟨.keyword k, hk ▸ .keyword k⟩
  · exact ⟨.identifier, .identifier hc hcs fun k hk => h ⟨k, hk⟩⟩

/-- A keyword has the shape of a name. -/
theorem Keyword.spelling_name (k : Keyword) :
    ∃ c cs, k.spelling.toList = c :: cs ∧ isNameStart c = true ∧
      ∀ x ∈ cs, isNameChar x = true := by
  cases k <;> exact ⟨_, _, rfl, by decide, List.all_eq_true.mp (by decide)⟩

namespace Piece

/-! ### Runs of one class -/

theorem run_append {p : Char → Bool} {as : List Char} (h : ∀ c ∈ as, p c = true)
    (bs : List Char) : run p (as ++ bs) = as.length + run p bs := by
  rw [run, List.takeWhile_append_of_pos h, List.length_append, run]

theorem run_le (p : Char → Bool) (cs : List Char) : run p cs ≤ cs.length :=
  (List.takeWhile_prefix p).length_le

theorem take_run (p : Char → Bool) (cs : List Char) : cs.take (run p cs) = cs.takeWhile p :=
  (List.prefix_iff_eq_take.mp (List.takeWhile_prefix p)).symm

theorem all_take_run (p : Char → Bool) (cs : List Char) :
    ∀ c ∈ cs.take (run p cs), p c = true := by
  rw [take_run]
  exact List.all_eq_true.mp List.all_takeWhile

/-- A run that is not empty starts with a character of the class. -/
theorem exists_of_run_pos {p : Char → Bool} {cs : List Char} (h : run p cs ≠ 0) :
    ∃ c rest, cs = c :: rest ∧ p c = true := by
  cases cs with
  | nil => exact absurd rfl h
  | cons c rest =>
      by_cases hc : p c = true
      · exact ⟨c, rest, rfl, hc⟩
      · exact absurd (by simp [run, hc]) h

theorem run_cons_of_not {p : Char → Bool} {c : Char} (h : p c = false) (cs : List Char) :
    run p (c :: cs) = 0 := by
  simp [run, h]

/-! ### Which rule the first character selects -/

theorem front_of_separator {c : Char} (h : isSeparator c = true) (cs : List Char) :
    front c cs = .gap (run isSeparator cs) := by
  rw [front, if_pos h]

theorem front_brace (cs : List Char) : front '\x7b' cs = comment cs := rfl

theorem front_quote (cs : List Char) : front '"' cs = string cs := rfl

/-- A character that is neither a separator nor an opening brace or quote. -/
theorem front_of_plain {c : Char} (h : c ∉ [' ', '\t', '\r', '\n', '\x0c', '\x7b', '"'])
    (cs : List Char) :
    front c cs =
      if c.isDigit then number cs else if isNameStart c then name c cs else mark c cs := by
  simp only [List.mem_cons, List.not_mem_nil, or_false, not_or] at h
  simp [front, isSeparator, h]

/-- A class without any of some characters. -/
theorem notMem_of_all_not {p : Char → Bool} {cs : List Char} (hcs : cs.all (fun x => !p x) = true)
    {c : Char} (h : p c = true) : c ∉ cs := by
  intro hc
  have hnot := List.all_eq_true.mp hcs c hc
  simp [h] at hnot

theorem front_of_digit {c : Char} (h : c.isDigit = true) (cs : List Char) :
    front c cs = number cs := by
  rw [front_of_plain (notMem_of_all_not (by decide) h), if_pos h]

theorem not_isDigit_of_isNameStart {c : Char} (h : isNameStart c = true) : c.isDigit = false := by
  rw [Bool.eq_false_iff]
  intro hd
  have hnine : c.val ≤ '9'.val := of_decide_eq_true (Bool.and_eq_true_iff.mp hd).2
  rcases Bool.or_eq_true_iff.mp h with hletter | hunder
  · rcases Bool.or_eq_true_iff.mp hletter with hupper | hlower
    · have hle : 'A'.val ≤ c.val := (of_decide_eq_true hupper).1
      exact absurd (UInt32.le_trans hle hnine) (by decide)
    · have hle : 'a'.val ≤ c.val := of_decide_eq_true (Bool.and_eq_true_iff.mp hlower).1
      exact absurd (UInt32.le_trans hle hnine) (by decide)
  · obtain rfl := eq_of_beq hunder
    exact absurd hd (by decide)

theorem front_of_isNameStart {c : Char} (h : isNameStart c = true) (cs : List Char) :
    front c cs = name c cs := by
  rw [front_of_plain (notMem_of_all_not (by decide) h),
    if_neg (by simp [not_isDigit_of_isNameStart h]), if_pos h]

theorem front_of_mark {m : Mark} {c : Char} {cs : List Char} (h : m.spelling.toList = c :: cs)
    (rest : List Char) : front c rest = mark c rest := by
  cases m <;> obtain ⟨rfl, -⟩ := List.cons.inj h <;> rfl

end Piece

/-- A longest lexeme stays so when there is less after it. -/
theorem Longest.shorten {text rest rest' : List Char} (h : Longest text rest)
    (hrest : rest' <+: rest) : Longest text rest' := by
  intro kind other hother hfront
  exact h hother (hfront.trans ((List.prefix_append_right_inj text).mpr hrest))

/-- Where one more character of a class would make a longer lexeme, none follows. -/
theorem Longest.run_eq_zero {p : Char → Bool} {text rest : List Char} (h : Longest text rest)
    (hmore : ∀ c, p c = true → ∃ kind, IsLexeme kind (text ++ [c])) : Piece.run p rest = 0 := by
  by_cases hrun : Piece.run p rest = 0
  · exact hrun
  · obtain ⟨c, tail, rfl, hc⟩ := Piece.exists_of_run_pos hrun
    obtain ⟨kind, hkind⟩ := hmore c hc
    have hle := h hkind (by simp)
    rw [List.length_append, List.length_singleton] at hle
    omega

namespace Piece

/-! ### A longest lexeme is found -/

theorem name_of_longest {c : Char} {cs rest : List Char} (hc : isNameStart c = true)
    (hcs : ∀ x ∈ cs, isNameChar x = true) (hl : Longest (c :: cs) rest) :
    name c (cs ++ rest) =
      match Keyword.ofSpelling? (String.ofList (c :: cs)) with
      | some k => .lexeme (.keyword k) cs.length
      | none => .lexeme .identifier cs.length := by
  have hstop : run isNameChar rest = 0 := by
    apply hl.run_eq_zero
    intro x hx
    exact exists_isLexeme_of_name hc (List.forall_mem_append.mpr ⟨hcs, by simpa using hx⟩)
  cases hk : Keyword.ofSpelling? (String.ofList (c :: cs)) with
  | some k => simp only [name, run_append hcs, hstop, Nat.add_zero, List.take_left', hk]
  | none => simp only [name, run_append hcs, hstop, Nat.add_zero, List.take_left', hk]

theorem number_of_longest_integer {d : Char} {ds rest : List Char} (hd : d.isDigit = true)
    (hds : ∀ c ∈ ds, isNumberChar c = true) (hl : Longest (d :: ds) rest) :
    number (ds ++ rest) = .lexeme (.number .integer) ds.length := by
  have hstop : run isNumberChar rest = 0 := by
    apply hl.run_eq_zero
    intro x hx
    exact ⟨_, .integer hd (List.forall_mem_append.mpr ⟨hds, by simpa using hx⟩)⟩
  simp only [number, run_append hds, hstop, Nat.add_zero, List.drop_left']
  split
  · rename_i f tail
    split
    · rename_i hf
      have hle := hl (.double hd hds hf (by simp : ∀ c ∈ [], isNumberChar c = true)) (by simp)
      simp only [List.length_cons, List.length_append] at hle
      omega
    · rfl
  · rfl

theorem number_of_longest_double {d f : Char} {ds fs rest : List Char} (hd : d.isDigit = true)
    (hds : ∀ c ∈ ds, isNumberChar c = true) (hf : f.isDigit = true)
    (hfs : ∀ c ∈ fs, isNumberChar c = true) (hl : Longest (d :: (ds ++ '.' :: f :: fs)) rest) :
    number (ds ++ '.' :: f :: fs ++ rest) =
      .lexeme (.number .double) (ds ++ '.' :: f :: fs).length := by
  have hstop : run isNumberChar rest = 0 := by
    apply hl.run_eq_zero
    intro x hx
    have hmore : ∀ y ∈ fs ++ [x], isNumberChar y = true :=
      List.forall_mem_append.mpr ⟨hfs, by simpa using hx⟩
    exact ⟨.number .double, by simpa using IsLexeme.double hd hds hf hmore⟩
  have hpoint : run isNumberChar ('.' :: f :: (fs ++ rest)) = 0 := run_cons_of_not (by decide) _
  simp only [number, List.append_assoc, List.cons_append, run_append hds, hpoint, Nat.add_zero,
    List.drop_left', hf, if_true, run_append hfs, hstop]
  simp
  omega

theorem mark_of_longest {m : Mark} {c : Char} {cs rest : List Char}
    (h : m.spelling.toList = c :: cs) (hl : Longest (c :: cs) rest) :
    mark c (cs ++ rest) = .lexeme (.mark m) cs.length := by
  have hfound : Mark.ofSpelling? (String.ofList (c :: cs)) = some m := by
    rw [Mark.ofSpelling?_eq_some_iff, ← h, String.ofList_toList]
  cases cs with
  | cons x cs =>
      obtain rfl : cs = [] := by cases m <;> simp_all [Mark.spelling]
      simp only [mark, List.cons_append, List.take_succ_cons, List.take_zero, hfound]
  | nil =>
      cases rest with
      | nil => simp only [mark, List.append_nil, List.take_nil, hfound]
      | cons x rest =>
          -- A mark of two symbols here would be a longer lexeme.
          have hnone : Mark.ofSpelling? (String.ofList [c, x]) = none := by
            rw [Option.eq_none_iff_forall_ne_some]
            intro other hother
            have hspelling : other.spelling.toList = [c, x] := by
              rw [Mark.ofSpelling?_eq_some_iff.mp hother, String.toList_ofList]
            have hle := hl (.mark other) (by simp [hspelling])
            rw [hspelling] at hle
            simp at hle
          simp only [mark, List.nil_append, List.take_succ_cons, List.take_zero, hfound, hnone,
            List.length_nil]

theorem all_isStringChar {body : List Char} (hquote : '"' ∉ body) (hline : '\n' ∉ body) :
    ∀ c ∈ body, isStringChar c = true := by
  intro c hc
  have hq : c ≠ '"' := fun h => hquote (h ▸ hc)
  have hn : c ≠ '\n' := fun h => hline (h ▸ hc)
  simp [isStringChar, hq, hn]

theorem all_isCommentChar {body : List Char} (hbody : '\x7d' ∉ body) :
    ∀ c ∈ body, isCommentChar c = true := by
  intro c hc
  have hne : c ≠ '\x7d' := fun h => hbody (h ▸ hc)
  simp [isCommentChar, hne]

theorem string_of_closed {body : List Char} (hquote : '"' ∉ body) (hline : '\n' ∉ body)
    (rest : List Char) : string (body ++ '"' :: rest) = .lexeme .string (body.length + 1) := by
  have hbody := all_isStringChar hquote hline
  have hclose : run isStringChar ('"' :: rest) = 0 := run_cons_of_not (by decide) _
  simp only [string, run_append hbody, hclose, Nat.add_zero, List.drop_left']

theorem comment_of_closed {body : List Char} (hbody : '\x7d' ∉ body) (rest : List Char) :
    comment (body ++ '\x7d' :: rest) = .gap (body.length + 1) := by
  have hall := all_isCommentChar hbody
  have hclose : run isCommentChar ('\x7d' :: rest) = 0 := run_cons_of_not (by decide) _
  simp only [comment, run_append hall, hclose, Nat.add_zero, List.drop_left']

/-- **A longest lexeme is found.** -/
theorem front_of_longest {kind : TokenKind} {text : List Char} (h : IsLexeme kind text) :
    ∀ {c : Char} {cs rest : List Char}, text = c :: cs → Longest text rest →
      front c (cs ++ rest) = .lexeme kind cs.length := by
  intro c cs rest htext hl
  cases h with
  | keyword k =>
      obtain ⟨c', cs', hname, hc, hcs⟩ := k.spelling_name
      obtain ⟨rfl, rfl⟩ := List.cons.inj (hname.symm.trans htext)
      have hfound : Keyword.ofSpelling? (String.ofList (c' :: cs')) = some k := by
        rw [Keyword.ofSpelling?_eq_some_iff, ← hname, String.ofList_toList]
      rw [front_of_isNameStart hc, name_of_longest hc hcs (hname ▸ hl), hfound]
  | mark m => rw [front_of_mark htext, mark_of_longest htext (htext ▸ hl)]
  | integer hd hds =>
      obtain ⟨rfl, rfl⟩ := List.cons.inj htext
      rw [front_of_digit hd, number_of_longest_integer hd hds hl]
  | double hd hds hf hfs =>
      obtain ⟨rfl, rfl⟩ := List.cons.inj htext
      rw [front_of_digit hd, number_of_longest_double hd hds hf hfs hl]
  | string hquote hline =>
      obtain ⟨rfl, rfl⟩ := List.cons.inj htext
      rw [front_quote, List.append_assoc, List.cons_append, List.nil_append,
        string_of_closed hquote hline, List.length_append, List.length_singleton]
  | @identifier c' cs' hc hcs hkey =>
      obtain ⟨rfl, rfl⟩ := List.cons.inj htext
      have hnone : Keyword.ofSpelling? (String.ofList (c' :: cs')) = none := by
        rw [Option.eq_none_iff_forall_ne_some]
        intro k hk
        apply hkey k
        rw [Keyword.ofSpelling?_eq_some_iff.mp hk, String.toList_ofList]
      rw [front_of_isNameStart hc, name_of_longest hc hcs hl, hnone]

/-! ### What is found is a lexeme or a gap -/

theorem take_succ_of_drop {cs tail : List Char} {x : Char} {n : Nat} (h : cs.drop n = x :: tail) :
    n + 1 ≤ cs.length ∧ cs.take (n + 1) = cs.take n ++ [x] := by
  constructor
  · have hlen := congrArg List.length h
    rw [List.length_drop, List.length_cons] at hlen
    omega
  · rw [List.take_add, h, List.take_succ_cons, List.take_zero]

theorem isLexeme_of_string {cs : List Char} {kind : TokenKind} {more : Nat}
    (h : string cs = .lexeme kind more) :
    more ≤ cs.length ∧ IsLexeme kind ('"' :: cs.take more) := by
  simp only [string] at h
  split at h
  · rename_i tail hdrop
    injection h with hkind hmore
    obtain ⟨hle, htake⟩ := take_succ_of_drop hdrop
    have hbody := all_take_run isStringChar cs
    rw [← hkind, ← hmore, htake]
    refine ⟨hle, .string ?_ ?_⟩
    · intro hmem
      exact absurd (hbody _ hmem) (by decide)
    · intro hmem
      exact absurd (hbody _ hmem) (by decide)
  · simp at h

theorem isGap_of_comment {cs : List Char} {more : Nat} (h : comment cs = .gap more) :
    more ≤ cs.length ∧ IsGap ('\x7b' :: cs.take more) := by
  simp only [comment] at h
  split at h
  · rename_i tail hdrop
    injection h with hmore
    obtain ⟨hle, htake⟩ := take_succ_of_drop hdrop
    have hbody := all_take_run isCommentChar cs
    rw [← hmore, htake]
    refine ⟨hle, .comment ?_ .empty⟩
    intro hmem
    exact absurd (hbody _ hmem) (by decide)
  · simp at h

theorem isLexeme_of_number {d : Char} {cs : List Char} {kind : TokenKind} {more : Nat}
    (hd : d.isDigit = true) (h : number cs = .lexeme kind more) :
    more ≤ cs.length ∧ IsLexeme kind (d :: cs.take more) := by
  have hwhole := all_take_run isNumberChar cs
  have hinteger := And.intro (run_le isNumberChar cs) (IsLexeme.integer hd hwhole)
  simp only [number] at h
  split at h
  · rename_i f rest hdrop
    split at h
    · rename_i hf
      injection h with hkind hmore
      have hlen := congrArg List.length hdrop
      rw [List.length_drop, List.length_cons, List.length_cons] at hlen
      have hrun := run_le isNumberChar rest
      refine ⟨by omega, ?_⟩
      have htake : cs.take more =
          cs.take (run isNumberChar cs) ++ '.' :: f :: rest.take (run isNumberChar rest) := by
        rw [← hmore, Nat.add_assoc, List.take_add, hdrop, Nat.add_comm 2, List.take_succ_cons,
          List.take_succ_cons]
      rw [← hkind, htake]
      exact .double hd hwhole hf (all_take_run isNumberChar rest)
    · injection h with hkind hmore
      rw [← hkind, ← hmore]
      exact hinteger
  · injection h with hkind hmore
    rw [← hkind, ← hmore]
    exact hinteger

theorem isLexeme_of_name {c : Char} {cs : List Char} {kind : TokenKind} {more : Nat}
    (hc : isNameStart c = true) (h : name c cs = .lexeme kind more) :
    more ≤ cs.length ∧ IsLexeme kind (c :: cs.take more) := by
  simp only [name] at h
  split at h
  · rename_i k hk
    injection h with hkind hmore
    have htext : k.spelling.toList = c :: cs.take (run isNameChar cs) := by
      rw [Keyword.ofSpelling?_eq_some_iff.mp hk, String.toList_ofList]
    rw [← hkind, ← hmore, ← htext]
    exact ⟨run_le _ _, .keyword k⟩
  · rename_i hnone
    injection h with hkind hmore
    rw [← hkind, ← hmore]
    refine ⟨run_le _ _, .identifier hc (all_take_run isNameChar cs) ?_⟩
    intro k hk
    rw [← hk, String.ofList_toList, Keyword.ofSpelling?_eq_some_iff.mpr rfl] at hnone
    simp at hnone

theorem isLexeme_of_mark {c : Char} {cs : List Char} {kind : TokenKind} {more : Nat}
    (h : mark c cs = .lexeme kind more) :
    more ≤ cs.length ∧ IsLexeme kind (c :: cs.take more) := by
  unfold mark at h
  split at h
  · rename_i m hm
    injection h with hkind hmore
    have htext : m.spelling.toList = c :: cs.take 1 := by
      rw [Mark.ofSpelling?_eq_some_iff.mp hm, String.toList_ofList]
    have htake : cs.take more = cs.take 1 := by
      rw [← hmore, List.length_take, List.take_eq_take_iff]
      omega
    rw [← hkind, htake, ← htext]
    refine ⟨?_, .mark m⟩
    rw [← hmore, List.length_take]
    omega
  · rename_i m _ hm
    injection h with hkind hmore
    have htext : m.spelling.toList = [c] := by
      rw [Mark.ofSpelling?_eq_some_iff.mp hm, String.toList_ofList]
    rw [← hkind, ← hmore, List.take_zero, ← htext]
    exact ⟨Nat.zero_le _, .mark m⟩
  · simp at h

theorem comment_ne_lexeme (cs : List Char) (kind : TokenKind) (more : Nat) :
    comment cs ≠ .lexeme kind more := by
  simp only [comment]
  split <;> simp

theorem isLexeme_of_front {c : Char} {cs : List Char} {kind : TokenKind} {more : Nat}
    (h : front c cs = .lexeme kind more) :
    more ≤ cs.length ∧ IsLexeme kind (c :: cs.take more) := by
  unfold front at h
  split at h
  · simp at h
  · split at h
    · exact absurd h (comment_ne_lexeme cs kind more)
    · split at h
      · rename_i hquote
        rw [hquote]
        exact isLexeme_of_string h
      · split at h
        · rename_i hd
          exact isLexeme_of_number hd h
        · split at h
          · rename_i hc
            exact isLexeme_of_name hc h
          · exact isLexeme_of_mark h

/-- Only a separator or a closed comment is passed over. -/
theorem isGap_of_front {c : Char} {cs : List Char} {more : Nat} (h : front c cs = .gap more) :
    more ≤ cs.length ∧ IsGap (c :: cs.take more) := by
  unfold front at h
  split at h
  · rename_i hc
    injection h with hmore
    rw [← hmore]
    refine ⟨run_le _ _, isGap_of_separators ?_⟩
    exact List.forall_mem_cons.mpr ⟨hc, all_take_run isSeparator cs⟩
  · split at h
    · rename_i hbrace
      rw [hbrace]
      exact isGap_of_comment h
    · exfalso
      revert h
      simp only [string, number, name, mark]
      split
      · split <;> simp
      · split
        · split
          · split <;> simp
          · simp
        · split
          · split <;> simp
          · split <;> simp

end Piece

/-! ### The longest lexeme at the front of a text -/

theorem IsLexeme.ne_nil {kind : TokenKind} {text : List Char} (h : IsLexeme kind text) :
    text ≠ [] := by
  cases h with
  | keyword k => cases k <;> decide
  | mark m => cases m <;> decide
  | integer | double | string | identifier => simp

/-- A text that starts with a lexeme starts with a longest one. -/
theorem exists_longest {cs : List Char} :
    ∀ {kind : TokenKind} {text : List Char}, IsLexeme kind text → text <+: cs →
      ∃ kind' text' rest, IsLexeme kind' text' ∧ cs = text' ++ rest ∧ Longest text' rest := by
  -- A longer lexeme leaves less of the text after it, so going on to longer ones ends.
  intro kind text
  induction hn : cs.length - text.length using Nat.strongRecOn generalizing kind text with
  | ind n ih =>
      intro h hfront
      obtain ⟨rest, rfl⟩ := hfront
      by_cases hlonger : ∃ kind' other, IsLexeme kind' other ∧ other <+: text ++ rest ∧
          text.length < other.length
      · obtain ⟨kind', other, hother, hfront, hlt⟩ := hlonger
        have hlen := hfront.length_le
        exact ih _ (by omega) rfl hother hfront
      · refine ⟨kind, text, rest, h, rfl, ?_⟩
        intro kind' other hother hfront
        exact Nat.not_lt.mp fun hlt => hlonger ⟨kind', other, hother, hfront, hlt⟩

namespace Piece

/-- Where a lexeme starts, one is found. -/
theorem exists_front_of_isLexeme {kind : TokenKind} {text : List Char} {c : Char} {cs : List Char}
    (h : IsLexeme kind text) (hfront : text <+: c :: cs) :
    ∃ kind' more, front c cs = .lexeme kind' more := by
  obtain ⟨kind', text', rest, h', hcs, hl⟩ := exists_longest h hfront
  obtain ⟨x, xs, rfl⟩ := List.exists_cons_of_ne_nil h'.ne_nil
  rw [List.cons_append] at hcs
  obtain ⟨rfl, rfl⟩ := List.cons.inj hcs
  exact ⟨kind', xs.length, front_of_longest h' rfl hl⟩

/-- **What is found is the longest lexeme.** -/
theorem front_eq_lexeme_iff {c : Char} {cs : List Char} {kind : TokenKind} {more : Nat} :
    front c cs = .lexeme kind more ↔
      more ≤ cs.length ∧ IsLexeme kind (c :: cs.take more) ∧
        Longest (c :: cs.take more) (cs.drop more) := by
  constructor
  · intro h
    obtain ⟨hle, hlexeme⟩ := isLexeme_of_front h
    have hfront : c :: cs.take more <+: c :: cs := ⟨cs.drop more, by simp⟩
    obtain ⟨kind', text', rest, h', hcs, hl⟩ := exists_longest hlexeme hfront
    obtain ⟨x, xs, rfl⟩ := List.exists_cons_of_ne_nil h'.ne_nil
    rw [List.cons_append] at hcs
    obtain ⟨rfl, rfl⟩ := List.cons.inj hcs
    -- The longest lexeme is found too, so it is the one at hand.
    rw [front_of_longest h' rfl hl] at h
    injection h with hkind hmore
    subst hmore
    refine ⟨hle, hlexeme, ?_⟩
    simpa using hl
  · rintro ⟨hle, hlexeme, hl⟩
    have h := front_of_longest hlexeme rfl hl
    rwa [List.take_append_drop, List.length_take, Nat.min_eq_left hle] at h

end Piece

/-- No lexeme starts like a gap. -/
theorem IsLexeme.head_not_gap {kind : TokenKind} {c : Char} {cs : List Char}
    (h : IsLexeme kind (c :: cs)) : isSeparator c = false ∧ c ≠ '\x7b' := by
  obtain ⟨kind', more, hfront⟩ := Piece.exists_front_of_isLexeme h (List.prefix_refl _)
  constructor
  · rw [Bool.eq_false_iff]
    intro hc
    rw [Piece.front_of_separator hc] at hfront
    simp at hfront
  · rintro rfl
    exact Piece.comment_ne_lexeme cs kind' more hfront

end StackCalc
