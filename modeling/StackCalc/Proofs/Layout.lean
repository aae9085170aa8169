/-
Layout does not matter.

The tokens of a text can be written out again with other gaps around them.  As long as there
is some gap between two of them, each is found again: a lexeme before a separator or a comment
cannot go on, because the only lexemes that hold such characters are strings, and a string
ends at its quote.  So the new text scans to the same tokens at other places.  The stages that
follow do not decide anything by places.
-/
import StackCalc.Proofs.RuntimeErrors
import StackCalc.Proofs.SameTokens
import StackCalc.Proofs.Tiling

namespace StackCalc

/-! ### Lexemes before a gap -/

/-- What a gap can start with. -/
def gapStarts : List Char :=
  [' ', '\t', '\r', '\n', '\x0c', '\x7b']

/-- The text is empty, or starts like a gap. -/
def Parted (cs : List Char) : Prop :=
  ∀ c ∈ cs.head?, c ∈ gapStarts

theorem IsGap.parted {gap : List Char} (h : IsGap gap) (hne : gap ≠ []) (rest : List Char) :
    Parted (gap ++ rest) := by
  intro c hc
  cases h with
  | empty => exact absurd rfl hne
  | separator hmem _ =>
      obtain rfl := Option.some.inj hc
      exact List.mem_append_left ['\x7b'] hmem
  | comment _ _ =>
      obtain rfl := Option.some.inj hc
      decide

/-- Only strings hold characters that a gap can start with. -/
theorem IsLexeme.notMem_gapStarts {kind : TokenKind} {text : List Char} (h : IsLexeme kind text)
    (hkind : kind ≠ .string) : ∀ c ∈ text, c ∉ gapStarts := by
  have hdigit : ∀ {c : Char}, c.isDigit = true → c ∉ gapStarts :=
    fun hc => Piece.notMem_of_all_not (by decide) hc
  have hnumber : ∀ {c : Char}, isNumberChar c = true → c ∉ gapStarts :=
    fun hc => Piece.notMem_of_all_not (by decide) hc
  have hname : ∀ {c : Char} {cs : List Char}, isNameStart c = true →
      (∀ x ∈ cs, isNameChar x = true) → ∀ x ∈ c :: cs, x ∉ gapStarts := by
    intro c cs hc hcs x hx
    rcases List.mem_cons.mp hx with rfl | hx
    · exact Piece.notMem_of_all_not (by decide) hc
    · exact Piece.notMem_of_all_not (by decide) (hcs x hx)
  cases h with
  | keyword k =>
      obtain ⟨c, cs, hspelling, hc, hcs⟩ := k.spelling_name
      rw [hspelling]
      exact hname hc hcs
  | mark m => cases m <;> simp [Mark.spelling, gapStarts]
  | integer hd hds =>
      intro c hc
      rcases List.mem_cons.mp hc with rfl | hc
      · exact hdigit hd
      · exact hnumber (hds c hc)
  | @double d f ds fs hd hds hf hfs =>
      intro c hc
      simp only [List.mem_cons, List.mem_append] at hc
      rcases hc with rfl | hc | rfl | rfl | hc
      · exact hdigit hd
      · exact hnumber (hds c hc)
      · decide
      · exact hdigit hf
      · exact hnumber (hfs c hc)
  | string _ _ => exact absurd rfl hkind
  | identifier hc hcs _ => exact hname hc hcs

/-- A lexeme that starts with a quote is a string. -/
theorem IsLexeme.eq_string {kind : TokenKind} {cs : List Char} (h : IsLexeme kind ('"' :: cs)) :
    ∃ body, cs = body ++ ['"'] := by
  generalize htext : '"' :: cs = text at h
  cases h with
  | keyword k => cases k <;> cases htext
  | mark m => cases m <;> cases htext
  | integer hd _ =>
      obtain ⟨rfl, -⟩ := List.cons.inj htext
      exact absurd hd (by decide)
  | double hd _ _ _ =>
      obtain ⟨rfl, -⟩ := List.cons.inj htext
      exact absurd hd (by decide)
  | @string body _ _ => exact ⟨body, (List.cons.inj htext).2⟩
  | identifier hc _ _ =>
      obtain ⟨rfl, -⟩ := List.cons.inj htext
      exact absurd hc (by decide)

/-- At the end of the text nothing can be longer. -/
theorem longest_nil (text : List Char) : Longest text [] := by
  intro kind other _ hfront
  simpa using hfront.length_le

/-- **No lexeme goes on into a gap.**  A lexeme that is the longest before some text is so too
when a gap follows that. -/
theorem Longest.append_parted {kind : TokenKind} {text rest tail : List Char}
    (h : Longest text rest) (hlexeme : IsLexeme kind text) (htail : Parted tail) :
    Longest text (rest ++ tail) := by
  intro kind' other hother hfront
  by_contra hlonger
  have hlt : text.length < other.length := Nat.lt_of_not_le hlonger
  obtain ⟨more, rfl⟩ : text <+: other :=
    List.prefix_of_prefix_length_le (List.prefix_append text (rest ++ tail)) hfront
      (Nat.le_of_lt hlt)
  rw [List.prefix_append_right_inj] at hfront
  by_cases hwithin : more.length ≤ rest.length
  · have hmore := List.prefix_of_prefix_length_le hfront (List.prefix_append rest tail) hwithin
    exact hlonger (h hother ((List.prefix_append_right_inj text).mpr hmore))
  -- A longer lexeme would be this one, the text behind it, a character that starts a gap, and more.
  · obtain ⟨more, rfl⟩ : rest <+: more :=
      List.prefix_of_prefix_length_le (List.prefix_append rest tail) hfront (by omega)
    rw [List.prefix_append_right_inj] at hfront
    cases more with
    | nil => simp at hwithin
    | cons c more =>
        have hgap : c ∈ gapStarts := by
          obtain ⟨after, rfl⟩ := hfront
          exact htail c rfl
        by_cases hkind : kind' = .string
        · subst hkind
          generalize hbody : text ++ (rest ++ c :: more) = cs at hother
          cases hother with
          | @string body hquote _ =>
              obtain ⟨x, xs, rfl⟩ := List.exists_cons_of_ne_nil hlexeme.ne_nil
              obtain ⟨rfl, hxs⟩ := List.cons.inj hbody
              obtain ⟨inner, rfl⟩ := hlexeme.eq_string
              -- The quote at the end of this string would stand inside the longer one.
              have hinside : '"' ∈ body := by
                have hlast := congrArg List.dropLast hxs
                rw [List.dropLast_concat] at hlast
                rw [← hlast, List.append_eq, ← List.append_assoc, List.dropLast_append_cons]
                simp
              exact hquote hinside
        · exact hother.notMem_gapStarts hkind c (by simp) hgap

theorem IsLexeme.longest {kind : TokenKind} {text rest : List Char} (h : IsLexeme kind text)
    (hrest : Parted rest) : Longest text rest :=
  (longest_nil text).append_parted h hrest

/-! ### Tokens written out -/

namespace Token

/-- The tokens as they are written, with a gap before the first and after each of them. -/
def layOut (first : List Char) (spaced : List (Token × List Char)) : String :=
  String.ofList (first ++ spaced.flatMap fun p => p.1.written.toList ++ p.2)

theorem literalOf_written (t : Token) : literalOf t.kind t.written.toList = t.literal := by
  obtain ⟨kind, literal, site⟩ := t
  cases kind <;> simp [literalOf, written]

/-- What is laid out is tiled by the tokens. -/
theorem exists_tiling_layOut :
    ∀ (spaced : List (Token × List Char)) {first : List Char}, IsGap first →
      (∀ p ∈ spaced, IsLexeme p.1.kind p.1.written.toList ∧ IsGap p.2) →
      (∀ p ∈ spaced.dropLast, p.2 ≠ []) →
      ∃ tiles last, Tiling (first ++ spaced.flatMap fun p => p.1.written.toList ++ p.2) tiles last ∧
        (tiles.map fun tile => (tile.kind, literalOf tile.kind tile.text)) =
          spaced.map fun p => p.1.content := by
  intro spaced
  induction spaced with
  | nil =>
      intro first hfirst _ _
      rw [List.flatMap_nil, List.append_nil]
      exact ⟨[], first, .last hfirst, rfl⟩
  | cons p spaced ih =>
      intro first hfirst hall hapart
      obtain ⟨hlexeme, hgap⟩ := hall p (by simp)
      have hlater : ∀ q ∈ spaced.dropLast, q.2 ≠ [] := by
        intro q hq
        cases spaced with
        | nil => simp at hq
        | cons r spaced => exact hapart q (List.mem_cons_of_mem p hq)
      obtain ⟨tiles, last, htiling, htiles⟩ := ih hgap (fun q hq => hall q (by simp [hq])) hlater
      -- Only the gap after the last token may be empty, and nothing follows that one.
      have hparted : Parted (p.2 ++ spaced.flatMap fun p => p.1.written.toList ++ p.2) := by
        cases spaced with
        | nil =>
            by_cases hne : p.2 = []
            · rw [hne]
              intro c hc
              simp at hc
            · exact hgap.parted hne _
        | cons q spaced => exact hgap.parted (hapart p (by simp)) _
      refine ⟨⟨first, p.1.kind, p.1.written.toList⟩ :: tiles, last, ?_, ?_⟩
      · rw [List.flatMap_cons, List.append_assoc]
        exact .cons ⟨first, p.1.kind, p.1.written.toList⟩ hfirst hlexeme (hlexeme.longest hparted)
          htiling
      · rw [List.map_cons, List.map_cons, htiles, literalOf_written]
        rfl

theorem content_tokens (source : String) (tiles : List Tile) : ∀ offset,
    (Tile.tokens source offset tiles).map content =
      tiles.map fun tile => (tile.kind, literalOf tile.kind tile.text) := by
  induction tiles with
  | nil =>
      intro offset
      rfl
  | cons tile tiles ih =>
      intro offset
      rw [Tile.tokens, List.map_cons, List.map_cons, ih]
      rfl

/-- The tokens of a text are found again in every layout of them. -/
theorem scan_layOut {source : String} {ts : List Token} (hscan : scan source = .ok ts)
    {first : List Char} {spaced : List (Token × List Char)} (hspaced : spaced.map Prod.fst = ts)
    (hfirst : IsGap first) (hgaps : ∀ p ∈ spaced, IsGap p.2)
    (hapart : ∀ p ∈ spaced.dropLast, p.2 ≠ []) :
    ∃ us, scan (layOut first spaced) = .ok us ∧ Alike ts us := by
  obtain ⟨tiles, last, htiling, rfl⟩ := exists_tiling_of_scan hscan
  have hplaced := @Tiling.placed source _ tiles last htiling [] rfl
  have hall : ∀ p ∈ spaced, IsLexeme p.1.kind p.1.written.toList ∧ IsGap p.2 := by
    intro p hp
    refine ⟨(hplaced p.1 ?_).lexeme, hgaps p hp⟩
    rw [byteLength_nil, ← hspaced]
    exact List.mem_map_of_mem hp
  obtain ⟨tiles', last', htiling', hcontents⟩ := exists_tiling_layOut spaced hfirst hall hapart
  have hlaid : (layOut first spaced).toList =
      first ++ spaced.flatMap fun p => p.1.written.toList ++ p.2 := String.toList_ofList
  refine ⟨_, scan_of_tiling (hlaid ▸ htiling'), ?_⟩
  show List.map content _ = List.map content _
  rw [content_tokens (layOut first spaced), hcontents, ← hspaced, List.map_map]
  rfl

end Token

/-! ### All stages -/

/-- Texts with the same instructions have the same value, or stop alike. -/
theorem interpret_of_sameCode {source source' : String} {c c' : Chunk}
    (h : Chunk.ofSource source = .ok c) (h' : Chunk.ofSource source' = .ok c')
    (hsame : c.SameCode c') :
    Matched (fun err err' => ∃ m m', err = .execute m source ∧ err' = .execute m' source' ∧
        MachineError.SameStop m m') Eq (interpret source) (interpret source') := by
  unfold interpret
  rw [h, h']
  refine (hsame.ending 0 []).mapError ?_
  intro m m' hstop
  exact ⟨m, m', rfl, rfl, hstop⟩

/-- **Layout does not matter.**  The tokens of a text are written out with any gaps around
them, none of them empty between two tokens.  The new text scans to the same kinds and
literals in the same order; it is parsed to the same tree but for places, or refused for the
same fault; and if both texts have code, they have the same instructions and constants, and
running them gives the same value, or the same fault at the same offset. -/
theorem interpret_layOut {source : String} {ts : List Token} (hscan : Token.scan source = .ok ts)
    {first : List Char} {spaced : List (Token × List Char)} (hspaced : spaced.map Prod.fst = ts)
    (hfirst : IsGap first) (hgaps : ∀ p ∈ spaced, IsGap p.2)
    (hapart : ∀ p ∈ spaced.dropLast, p.2 ≠ []) :
    ∃ us, Token.scan (Token.layOut first spaced) = .ok us ∧
      us.map (fun u => (u.kind, u.literal)) = ts.map (fun t => (t.kind, t.literal)) ∧
      Matched (fun err err' => err.code = err'.code ∧ err.fault = err'.fault)
        (fun e e' => e.bare = e'.bare) (Expr.ofTokens ts) (Expr.ofTokens us) ∧
      ∀ c c', Chunk.ofSource source = .ok c →
        Chunk.ofSource (Token.layOut first spaced) = .ok c' →
        c.code = c'.code ∧ c.constants = c'.constants ∧
        Matched (fun err err' => ∃ m m', err = .execute m source ∧
            err' = .execute m' (Token.layOut first spaced) ∧ m.fault = m'.fault ∧
            m.offset = m'.offset) Eq
          (interpret source) (interpret (Token.layOut first spaced)) := by
  obtain ⟨us, hus, halike⟩ := Token.scan_layOut hscan hspaced hfirst hgaps hapart
  have hparsed := Parser.matched_ofTokens halike
  refine ⟨us, hus, halike.symm, hparsed.imp ?_ id, ?_⟩
  · intro err err' hfault
    exact ⟨congrArg ParseFault.code hfault, hfault⟩
  · intro c c' hc hc'
    obtain ⟨ts', e, hts', he, hlower⟩ := Chunk.ofSource_eq_ok hc
    obtain ⟨us', e', hus', he', hlower'⟩ := Chunk.ofSource_eq_ok hc'
    obtain rfl := Except.ok.inj (hscan.symm.trans hts')
    obtain rfl := Except.ok.inj (hus.symm.trans hus')
    rw [he, he'] at hparsed
    cases hparsed with
    | ok hbare =>
        have hsame := Expr.sameCode_of_lower hbare hlower hlower'
        refine ⟨hsame.code, hsame.constants, (interpret_of_sameCode hc hc' hsame).imp ?_ id⟩
        rintro err err' ⟨m, m', herr, herr', hstop⟩
        exact ⟨m, m', herr, herr', hstop.fault, hstop.offset⟩

/-- Tokens that touch are spread over four lines, with comments that look like tokens.  The
division fails at the same instruction. -/
theorem interpret_spread_division :
    interpret "1/0" = .error (.execute ⟨.value .divisionByZero, 1, 4⟩ "1/0") ∧
      ∃ err, interpret "\n1\x7b/\x7d\n/\n0\x7b.\x7d" =
          .error (.execute err "\n1\x7b/\x7d\n/\n0\x7b.\x7d") ∧
        err.fault = .value .divisionByZero ∧ err.offset = 4 := by
  have hscan : Token.scan "1/0" = .ok [⟨.number .integer, "1", ⟨⟨1, 1⟩, ⟨0, 1⟩⟩⟩,
      ⟨.mark .slash, "/", ⟨⟨1, 2⟩, ⟨1, 2⟩⟩⟩, ⟨.number .integer, "0", ⟨⟨1, 3⟩, ⟨2, 3⟩⟩⟩] := by
    decide +kernel
  have hcode : Chunk.ofSource "1/0" =
      .ok ⟨#[1, 0, 1, 1, 7, 0], #[.integer 1, .integer 0], ⟨#[⟨1, 5⟩, ⟨0, 1⟩]⟩⟩ := by
    decide +kernel
  have hcode' : Chunk.ofSource "\n1\x7b/\x7d\n/\n0\x7b.\x7d" =
      .ok ⟨#[1, 0, 1, 1, 7, 0], #[.integer 1, .integer 0],
        ⟨#[⟨2, 2⟩, ⟨4, 2⟩, ⟨3, 1⟩, ⟨0, 1⟩]⟩⟩ := by
    decide +kernel
  have hrun : interpret "1/0" = .error (.execute ⟨.value .divisionByZero, 1, 4⟩ "1/0") := by
    decide +kernel
  have hline : IsGap ['\n'] := .separator (by decide) .empty
  have hslash : IsGap ['\x7b', '/', '\x7d', '\n'] := @IsGap.comment ['/'] ['\n'] (by decide) hline
  have hdot : IsGap ['\x7b', '.', '\x7d'] := @IsGap.comment ['.'] [] (by decide) .empty
  obtain ⟨us, -, -, -, hboth⟩ := @interpret_layOut "1/0" _ hscan ['\n']
    [(_, ['\x7b', '/', '\x7d', '\n']), (_, ['\n']), (_, ['\x7b', '.', '\x7d'])] rfl hline
    (by simp [hline, hslash, hdot]) (by simp)
  have hmatched := (hboth _ _ hcode hcode').2.2
  refine ⟨hrun, ?_⟩
  rw [hrun] at hmatched
  generalize hrun' : interpret _ = outcome at hmatched
  cases hmatched with
  | error h =>
      obtain ⟨err, err', herr, rfl, hfault, hoffset⟩ := h
      obtain ⟨rfl, -⟩ := RunError.execute.inj herr
      exact ⟨err', hrun', hfault.symm, hoffset.symm⟩

end StackCalc
