/-
Where scanning stops.

A text that cannot be scanned is tiled up to some place, and at that place stands something
that is neither a lexeme nor a gap.  There are four such things: a string or a comment that
nobody closed, a colon on its own, and a character that nothing starts with.  The error
covers exactly that, and nothing of what stands before it is to blame: lexemes that were the
longest with the rest of the text behind them are so without it.

The tiling has to be made with the rest of the text in view.  A tick starts no token, but
the one in `1'` is part of a number and no error, although `1` can be tiled on its own.
-/
import StackCalc.Proofs.Tiling

namespace StackCalc

/-! ### What cannot be scanned -/

/-- The text `bad`, with `rest` after it, is all that could have become a piece here and did
not. -/
inductive Unscannable : List Char → List Char → Prop
  /-- A quote and the rest of its line, on which it is not closed. -/
  | openString {body rest : List Char} (hquote : '"' ∉ body) (hline : '\n' ∉ body)
      (hrest : ∀ c ∈ rest.head?, c = '\n') : Unscannable ('"' :: body) rest
  /-- An opening brace and the rest of the text, in which it is not closed. -/
  | openComment {body : List Char} (hbody : '\x7d' ∉ body) : Unscannable ('\x7b' :: body) []
  | loneColon {rest : List Char} (hrest : '=' ∉ rest.head?) : Unscannable [':'] rest
  /-- A character that starts no lexeme and no gap. -/
  | stranger {c : Char} {rest : List Char} (hgap : c ∉ [' ', '\t', '\r', '\n', '\x0c', '\x7b'])
      (hlexeme : ∀ kind cs, ¬ IsLexeme kind (c :: cs)) : Unscannable [c] rest

theorem Unscannable.ne_nil {bad rest : List Char} (h : Unscannable bad rest) : bad ≠ [] := by
  cases h <;> simp

/-- Every mark but the assignment starts with a mark. -/
theorem Mark.exists_first {m : Mark} {c : Char} {cs : List Char} (h : m.spelling.toList = c :: cs)
    (hcolon : c ≠ ':') : ∃ m' : Mark, m'.spelling.toList = [c] := by
  have hfirst : ∀ m : Mark, m ≠ .assign →
      (Mark.ofSpelling? (String.ofList (m.spelling.toList.take 1))).isSome = true := by
    intro m hm
    cases m with
    | assign => exact absurd rfl hm
    | _ => rfl
  have hm : m ≠ .assign := by
    rintro rfl
    exact hcolon (List.cons.inj h).1.symm
  obtain ⟨m', hm'⟩ := Option.isSome_iff_exists.mp (hfirst m hm)
  refine ⟨m', ?_⟩
  rw [Mark.ofSpelling?_eq_some_iff.mp hm', String.toList_ofList, h, List.take_succ_cons,
    List.take_zero]

namespace Piece

theorem string_of_open {body rest : List Char} (hquote : '"' ∉ body) (hline : '\n' ∉ body)
    (hrest : ∀ c ∈ rest.head?, c = '\n') : string (body ++ rest) = .bad body.length := by
  have hbody := all_isStringChar hquote hline
  rcases rest with _ | ⟨c, rest⟩
  · simp only [string, run_append hbody]
    simp [run]
  · obtain rfl := hrest c rfl
    have hstop : run isStringChar ('\n' :: rest) = 0 := run_cons_of_not (by decide) _
    simp only [string, run_append hbody, hstop, Nat.add_zero, List.drop_left']
    rfl

theorem comment_of_open {body : List Char} (hbody : '\x7d' ∉ body) :
    comment body = .bad body.length := by
  have hall := all_isCommentChar hbody
  have hrun : run isCommentChar body = body.length := by
    have hrun := run_append hall []
    rwa [List.append_nil] at hrun
  simp only [comment, hrun, List.drop_length]

/-- Symbols that no mark starts with are no mark. -/
theorem mark_of_unspelled {c : Char} {rest : List Char}
    (hone : ∀ m : Mark, m.spelling.toList ≠ [c])
    (htwo : ∀ m : Mark, m.spelling.toList ≠ c :: rest.take 1) : mark c rest = .bad 0 := by
  have hnone : ∀ {cs : List Char}, (∀ m : Mark, m.spelling.toList ≠ cs) →
      Mark.ofSpelling? (String.ofList cs) = none := by
    intro cs hcs
    rw [Option.eq_none_iff_forall_ne_some]
    intro m hm
    apply hcs m
    rw [Mark.ofSpelling?_eq_some_iff.mp hm, String.toList_ofList]
  simp only [mark, hnone hone, hnone htwo]

theorem front_of_stranger {c : Char} (hgap : c ∉ [' ', '\t', '\r', '\n', '\x0c', '\x7b'])
    (hlexeme : ∀ kind cs, ¬ IsLexeme kind (c :: cs)) (rest : List Char) :
    front c rest = .bad 0 := by
  have hquote : c ≠ '"' := by
    rintro rfl
    exact hlexeme .string ['"'] (@IsLexeme.string [] (by simp) (by simp))
  have hdigit : ¬ c.isDigit = true := fun hd => hlexeme _ [] (.integer hd (by simp))
  have hname : ¬ isNameStart c = true := by
    intro hc
    obtain ⟨kind, hkind⟩ := @exists_isLexeme_of_name c [] hc (by simp)
    exact hlexeme kind [] hkind
  have hmark : ∀ (m : Mark) (cs : List Char), m.spelling.toList ≠ c :: cs :=
    fun m cs hm => hlexeme (.mark m) cs (hm ▸ .mark m)
  rw [front_of_plain (by simpa [hquote] using hgap), if_neg hdigit, if_neg hname]
  exact mark_of_unspelled (fun m => hmark m []) (fun m => hmark m _)

theorem front_of_colon {rest : List Char} (h : '=' ∉ rest.head?) : front ':' rest = .bad 0 := by
  show mark ':' rest = .bad 0
  refine mark_of_unspelled ?_ ?_
  · intro m
    cases m <;> decide
  · intro m hm
    rcases rest with _ | ⟨x, rest⟩
    · cases m <;> simp [Mark.spelling] at hm
    · have hx : '=' ≠ x := by simpa [eq_comm] using h
      cases m <;> simp [Mark.spelling, hx] at hm

/-- What cannot be scanned is not scanned. -/
theorem front_of_unscannable {bad rest : List Char} (h : Unscannable bad rest) :
    ∀ {c : Char} {cs : List Char}, bad = c :: cs → front c (cs ++ rest) = .bad cs.length := by
  intro c cs hbad
  cases h with
  | openString hquote hline hrest =>
      obtain ⟨rfl, rfl⟩ := List.cons.inj hbad
      rw [front_quote, string_of_open hquote hline hrest]
  | openComment hbody =>
      obtain ⟨rfl, rfl⟩ := List.cons.inj hbad
      rw [front_brace, List.append_nil, comment_of_open hbody]
  | loneColon hrest =>
      obtain ⟨rfl, rfl⟩ := List.cons.inj hbad
      exact front_of_colon hrest
  | stranger hgap hlexeme =>
      obtain ⟨rfl, rfl⟩ := List.cons.inj hbad
      exact front_of_stranger hgap hlexeme rest

/-! ### Nothing else stops the scan -/

/-- The character behind a run is not of its class. -/
theorem not_of_drop_run {p : Char → Bool} {cs tail : List Char} {x : Char}
    (h : cs.drop (run p cs) = x :: tail) : p x = false := by
  have hsplit : cs.takeWhile p ++ cs.dropWhile p = cs.takeWhile p ++ x :: tail := by
    rw [List.takeWhile_append_dropWhile, ← h, ← take_run, List.take_append_drop]
  have hdrop := List.append_cancel_left hsplit
  have hhead := List.head_dropWhile_not p (l := cs) (by simp [hdrop])
  simpa [hdrop] using hhead

theorem unscannable_of_string {cs : List Char} {more : Nat} (h : string cs = .bad more) :
    more ≤ cs.length ∧ Unscannable ('"' :: cs.take more) (cs.drop more) := by
  simp only [string] at h
  split at h
  · simp at h
  · rename_i hopen
    injection h with hmore
    subst hmore
    have hbody := all_take_run isStringChar cs
    refine ⟨run_le _ _, .openString ?_ ?_ ?_⟩
    · intro hmem
      exact absurd (hbody _ hmem) (by decide)
    · intro hmem
      exact absurd (hbody _ hmem) (by decide)
    · intro c hc
      obtain ⟨tail, htail⟩ := List.head?_eq_some_iff.mp hc
      have hstop := not_of_drop_run htail
      have hquote : c ≠ '"' := fun hq => hopen tail (hq ▸ htail)
      simpa [isStringChar, hquote] using hstop

theorem unscannable_of_comment {cs : List Char} {more : Nat} (h : comment cs = .bad more) :
    more ≤ cs.length ∧ Unscannable ('\x7b' :: cs.take more) (cs.drop more) := by
  simp only [comment] at h
  split at h
  · simp at h
  · rename_i hopen
    injection h with hmore
    subst hmore
    have hbody := all_take_run isCommentChar cs
    have hend : cs.drop (run isCommentChar cs) = [] := by
      rcases hdrop : cs.drop (run isCommentChar cs) with _ | ⟨x, tail⟩
      · rfl
      · have hx : x = '\x7d' := by simpa [isCommentChar] using not_of_drop_run hdrop
        exact absurd (hx ▸ hdrop) (hopen tail)
    rw [hend]
    refine ⟨run_le _ _, .openComment ?_⟩
    intro hmem
    exact absurd (hbody _ hmem) (by decide)

theorem unscannable_of_mark {c : Char} {cs : List Char} {more : Nat}
    (hgap : c ∉ [' ', '\t', '\r', '\n', '\x0c', '\x7b']) (hquote : c ≠ '"')
    (hdigit : ¬ c.isDigit = true) (hname : ¬ isNameStart c = true) (h : mark c cs = .bad more) :
    more ≤ cs.length ∧ Unscannable (c :: cs.take more) (cs.drop more) := by
  have hunspelled : Mark.ofSpelling? (String.ofList (c :: cs.take 1)) = none ∧
      Mark.ofSpelling? (String.ofList [c]) = none ∧ more = 0 := by
    unfold mark at h
    split at h
    · simp at h
    · simp at h
    · rename_i htwo hone
      exact ⟨htwo, hone, (Piece.bad.inj h).symm⟩
  obtain ⟨htwo, hone, rfl⟩ := hunspelled
  refine ⟨Nat.zero_le _, ?_⟩
  by_cases hcolon : c = ':'
  · subst hcolon
    refine .loneColon ?_
    intro heq
    obtain ⟨tail, rfl⟩ := List.head?_eq_some_iff.mp heq
    rw [List.take_succ_cons, List.take_zero] at htwo
    exact absurd htwo (by decide)
  · refine .stranger hgap ?_
    intro kind text hlexeme
    rw [Option.eq_none_iff_forall_ne_some] at hone
    generalize hcs : c :: text = cs at hlexeme
    cases hlexeme with
    | keyword k =>
        obtain ⟨c', cs', hspelling, hc, -⟩ := k.spelling_name
        obtain ⟨rfl, -⟩ := List.cons.inj (hcs.trans hspelling)
        exact hname hc
    | mark m =>
        obtain ⟨m', hm'⟩ := m.exists_first hcs.symm hcolon
        apply hone m'
        rw [Mark.ofSpelling?_eq_some_iff, ← hm', String.ofList_toList]
    | integer hd _ =>
        obtain ⟨rfl, -⟩ := List.cons.inj hcs
        exact hdigit hd
    | double hd _ _ _ =>
        obtain ⟨rfl, -⟩ := List.cons.inj hcs
        exact hdigit hd
    | string _ _ => exact hquote (List.cons.inj hcs).1
    | identifier hc _ _ =>
        obtain ⟨rfl, -⟩ := List.cons.inj hcs
        exact hname hc

theorem number_ne_bad (cs : List Char) (more : Nat) : number cs ≠ .bad more := by
  simp only [number]
  split
  · split <;> simp
  · simp

theorem name_ne_bad (c : Char) (cs : List Char) (more : Nat) : name c cs ≠ .bad more := by
  simp only [name]
  split <;> simp

theorem unscannable_of_front {c : Char} {cs : List Char} {more : Nat}
    (h : front c cs = .bad more) :
    more ≤ cs.length ∧ Unscannable (c :: cs.take more) (cs.drop more) := by
  by_cases hsep : isSeparator c = true
  · rw [front_of_separator hsep] at h
    simp at h
  by_cases hbrace : c = '\x7b'
  · subst hbrace
    exact unscannable_of_comment h
  by_cases hquote : c = '"'
  · subst hquote
    exact unscannable_of_string h
  have hgap : c ∉ [' ', '\t', '\r', '\n', '\x0c', '\x7b'] := by
    rw [isSeparator_iff] at hsep
    simp_all
  rw [front_of_plain (by simpa [hquote] using hgap)] at h
  split at h
  · exact absurd h (number_ne_bad cs more)
  · split at h
    · exact absurd h (name_ne_bad c cs more)
    · rename_i hdigit hname
      exact unscannable_of_mark hgap hquote hdigit hname h

/-- **The scan stops where nothing can be scanned.** -/
theorem front_eq_bad_iff {c : Char} {cs : List Char} {more : Nat} :
    front c cs = .bad more ↔
      more ≤ cs.length ∧ Unscannable (c :: cs.take more) (cs.drop more) := by
  constructor
  · exact unscannable_of_front
  · rintro ⟨hle, hbad⟩
    have h := front_of_unscannable hbad rfl
    rwa [List.take_append_drop, List.length_take, Nat.min_eq_left hle] at h

end Piece

/-- Neither a lexeme nor a gap starts the text. -/
structure StartsNothing (cs : List Char) : Prop where
  lexeme : ∀ {kind : TokenKind} {text : List Char}, IsLexeme kind text → ¬ text <+: cs
  gap : ∀ {gap : List Char}, IsGap gap → gap <+: cs → gap = []

/-- What cannot be scanned starts with nothing that can. -/
theorem Unscannable.startsNothing {bad rest : List Char} (h : Unscannable bad rest) :
    StartsNothing (bad ++ rest) := by
  obtain ⟨c, cs, rfl⟩ := List.exists_cons_of_ne_nil h.ne_nil
  have hfront := Piece.front_of_unscannable h rfl
  rw [List.cons_append]
  constructor
  · intro kind text hlexeme hprefix
    obtain ⟨kind', more, hfound⟩ := Piece.exists_front_of_isLexeme hlexeme hprefix
    rw [hfront] at hfound
    simp at hfound
  · intro gap hgap hprefix
    obtain ⟨after, hafter⟩ := hprefix
    cases hgap with
    | empty => rfl
    | separator hc _ =>
        obtain ⟨rfl, -⟩ := List.cons.inj hafter
        rw [Piece.front_of_separator (isSeparator_iff.mpr hc)] at hfront
        simp at hfront
    | @comment body inner hbody _ =>
        rw [List.cons_append, List.append_assoc, List.cons_append] at hafter
        obtain ⟨rfl, hcs⟩ := List.cons.inj hafter
        rw [← hcs, Piece.front_brace, Piece.comment_of_closed hbody] at hfront
        simp at hfront

/-! ### The tiling up to a place -/

/-- The text is tiled as far as it goes, with `back` after it: each lexeme is the longest that
starts where it does, what stands in `back` included. -/
inductive TiledBefore (back : List Char) : List Char → List Tile → Prop
  | last {gap : List Char} (hgap : IsGap gap) : TiledBefore back gap []
  | cons (tile : Tile) {rest : List Char} {tiles : List Tile} (hgap : IsGap tile.gap)
      (hlexeme : IsLexeme tile.kind tile.text) (hlongest : Longest tile.text (rest ++ back))
      (hrest : TiledBefore back rest tiles) :
      TiledBefore back (tile.gap ++ (tile.text ++ rest)) (tile :: tiles)

namespace TiledBefore

variable {back cs : List Char} {tiles : List Tile}

/-- What is tiled before the rest of a text is tiled on its own. -/
theorem tiling (h : TiledBefore back cs tiles) : ∃ last, Tiling cs tiles last := by
  induction h with
  | last hgap => exact ⟨_, .last hgap⟩
  | cons tile hgap hlexeme hlongest _ ih =>
      obtain ⟨last, hrest⟩ := ih
      exact ⟨last, .cons tile hgap hlexeme (hlongest.shorten (List.prefix_append ..)) hrest⟩

/-- A gap in front makes the first gap longer. -/
theorem behind {gap : List Char} (hgap : IsGap gap) (h : TiledBefore back cs tiles) :
    ∃ tiles', TiledBefore back (gap ++ cs) tiles' := by
  cases h with
  | last hlast => exact ⟨[], .last (hgap.append hlast)⟩
  | @cons tile rest tiles hfirst hlexeme hlongest hrest =>
      rw [← List.append_assoc]
      exact ⟨⟨gap ++ tile.gap, tile.kind, tile.text⟩ :: tiles,
        .cons ⟨gap ++ tile.gap, tile.kind, tile.text⟩ (hgap.append hfirst) hlexeme hlongest hrest⟩

/-- The scanner gets as far as the tiling does. -/
theorem scanFrom_eq (h : TiledBefore back cs tiles) : ∀ (p : Place) (done : Array Token),
    ∃ done', Token.scanFrom p done (cs ++ back) = Token.scanFrom (p.after cs) done' back := by
  induction h with
  | last hgap =>
      intro p done
      exact ⟨done, Token.scanFrom_gap hgap p done back⟩
  | @cons tile rest tiles hgap hlexeme hlongest _ ih =>
      intro p done
      obtain ⟨done', hscan⟩ := ih ((p.after tile.gap).after tile.text)
        (done.push ⟨tile.kind, Token.literalOf tile.kind tile.text,
          (p.after tile.gap).siteOf tile.text⟩)
      refine ⟨done', ?_⟩
      rw [List.append_assoc, List.append_assoc, Token.scanFrom_gap hgap,
        Token.scanFrom_lexeme hlexeme hlongest, hscan, Place.after_append, Place.after_append]

end TiledBefore

/-! ### Scanning that fails -/

namespace Token

/-- A scan that fails has tiled the text up to what cannot be scanned. -/
theorem exists_unscannable_of_scanFrom (p : Place) (done : Array Token) (cs : List Char) :
    ∀ {e : LexError}, scanFrom p done cs = .error e →
      ∃ before tiles bad rest, cs = before ++ (bad ++ rest) ∧
        TiledBefore (bad ++ rest) before tiles ∧ Unscannable bad rest ∧
        e = ⟨(p.after before).siteOf bad, String.ofList bad⟩ := by
  fun_induction scanFrom p done cs
  case case1 p done =>
      intro e h
      simp at h
  case case2 p done c cs more hfront ih =>
      intro e h
      obtain ⟨before, tiles, bad, rest, hcs, htiled, hbad, rfl⟩ := ih h
      obtain ⟨tiles', htiled'⟩ := htiled.behind (Piece.isGap_of_front hfront).2
      refine ⟨c :: cs.take more ++ before, tiles', bad, rest, ?_, htiled', hbad, ?_⟩
      · rw [cons_eq_piece c cs more, hcs, List.append_assoc]
      · rw [Place.after_append]
  case case3 p done c cs kind more hfront text ih =>
      intro e h
      obtain ⟨before, tiles, bad, rest, hcs, htiled, hbad, rfl⟩ := ih h
      obtain ⟨-, hlexeme, hlongest⟩ := Piece.front_eq_lexeme_iff.mp hfront
      rw [hcs] at hlongest
      refine ⟨text ++ before, ⟨[], kind, text⟩ :: tiles, bad, rest, ?_,
        .cons ⟨[], kind, text⟩ .empty hlexeme hlongest htiled, hbad, ?_⟩
      · rw [cons_eq_piece c cs more, hcs, List.append_assoc]
      · rw [Place.after_append]
  case case4 p done c cs more hfront text =>
      intro e h
      obtain ⟨-, hbad⟩ := Piece.front_eq_bad_iff.mp hfront
      refine ⟨[], [], text, cs.drop more, cons_eq_piece c cs more, .last .empty, hbad, ?_⟩
      exact (Except.error.inj h).symm

/-- The error for a text that cannot be used, when `before` stands before it. -/
def stuckAt (source : String) (before bad : List Char) : LexError :=
  ⟨⟨(LineMap.ofSource source).lookup (byteLength before),
    ⟨byteLength before, byteLength before + byteLength bad⟩⟩, String.ofList bad⟩

theorem scan_eq_error {source : String} {e : LexError} :
    scan source = .error e ↔ scanFrom .start #[] source.toList = .error e := by
  unfold scan
  cases scanFrom .start #[] source.toList <;> simp [Except.map]

/-- A text cannot be scanned exactly when it is tiled up to something that cannot. -/
theorem scan_eq_error_iff {source : String} {e : LexError} :
    scan source = .error e ↔ ∃ before tiles bad rest, source.toList = before ++ (bad ++ rest) ∧
      TiledBefore (bad ++ rest) before tiles ∧ Unscannable bad rest ∧
      e = stuckAt source before bad := by
  rw [scan_eq_error]
  constructor
  · intro h
    obtain ⟨before, tiles, bad, rest, hsource, htiled, hbad, rfl⟩ :=
      exists_unscannable_of_scanFrom _ _ _ h
    refine ⟨before, tiles, bad, rest, hsource, htiled, hbad, ?_⟩
    rw [siteOf_after hsource, stuckAt]
  · rintro ⟨before, tiles, bad, rest, hsource, htiled, hbad, rfl⟩
    obtain ⟨done, hscan⟩ := htiled.scanFrom_eq .start #[]
    obtain ⟨c, cs, rfl⟩ := List.exists_cons_of_ne_nil hbad.ne_nil
    rw [hsource, hscan, List.cons_append, scanFrom, Piece.front_of_unscannable hbad rfl]
    simp only [List.take_left', siteOf_after hsource, stuckAt]

/-- **A scan fails at the first place where nothing can be scanned.**  The text is tiled up to
there, so what stands before is scanned on its own; no lexeme and no gap starts there; and
the error covers an unclosed string up to the end of its line, an unclosed comment up to the
end of the text, a lone colon, or one character that starts nothing.  Where the tiling comes
to such a place, the scan does fail. -/
theorem scan_fails_iff_unscannable (source : String) (e : LexError) :
    (scan source = .error e ↔ ∃ before tiles bad rest, source.toList = before ++ (bad ++ rest) ∧
      TiledBefore (bad ++ rest) before tiles ∧ Unscannable bad rest ∧
      e = ⟨⟨(LineMap.ofSource source).lookup (byteLength before),
        ⟨byteLength before, byteLength before + byteLength bad⟩⟩, String.ofList bad⟩) ∧
    (scan source = .error e →
      e.site.span.start < e.site.span.stop ∧
      String.Pos.Raw.IsValid source ⟨e.site.span.start⟩ ∧
      String.Pos.Raw.IsValid source ⟨e.site.span.stop⟩ ∧
      ∃ before rest : String, source = before ++ e.snippet ++ rest ∧
        e.site.span = ⟨before.utf8ByteSize, before.utf8ByteSize + e.snippet.utf8ByteSize⟩ ∧
        (∃ ts, scan before = .ok ts) ∧ StartsNothing (e.snippet ++ rest).toList ∧
        Unscannable e.snippet.toList rest.toList) := by
  refine ⟨scan_eq_error_iff, ?_⟩
  intro h
  obtain ⟨before, tiles, bad, rest, hsource, htiled, hbad, rfl⟩ := scan_eq_error_iff.mp h
  obtain ⟨last, htiling⟩ := htiled.tiling
  have hcut : source = String.ofList before ++ String.ofList bad ++ String.ofList rest := by
    rw [← @String.ofList_toList source, hsource, ← String.ofList_append, ← String.ofList_append,
      List.append_assoc]
  have hspan : (stuckAt source before bad).site.span =
      ⟨(String.ofList before).utf8ByteSize,
        (String.ofList before).utf8ByteSize + (String.ofList bad).utf8ByteSize⟩ := by
    rw [utf8ByteSize_ofList, utf8ByteSize_ofList]
    rfl
  have hcovers : (stuckAt source before bad).site.span.Covers source (String.ofList bad) :=
    ⟨_, _, hcut, hspan⟩
  refine ⟨Nat.lt_add_of_pos_right (byteLength_pos hbad.ne_nil), hcovers.isValid.1,
    hcovers.isValid.2, String.ofList before, String.ofList rest, hcut, hspan,
    ⟨_, scan_of_tiling (by rwa [String.toList_ofList])⟩, ?_, ?_⟩
  · rw [stuckAt, String.toList_append, String.toList_ofList, String.toList_ofList]
    exact hbad.startsNothing
  · rw [stuckAt, String.toList_ofList, String.toList_ofList]
    exact hbad

/-- The number keeps its tick, the comment is passed over, and the string that is not closed on
the second line is to blame. -/
theorem scan_openString :
    scan "1'\x7bé\x7d\n\"é\n2" = .error ⟨⟨⟨2, 1⟩, ⟨7, 10⟩⟩, "\"é"⟩ ∧
      ∃ before rest : String, "1'\x7bé\x7d\n\"é\n2" = before ++ "\"é" ++ rest ∧
        (⟨7, 10⟩ : Span) = ⟨before.utf8ByteSize, before.utf8ByteSize + 3⟩ ∧
        ∃ ts, scan before = .ok ts := by
  have hnumber : Piece.front '1' ['\'', '\x7b', 'é', '\x7d', '\n', '"', 'é', '\n', '2'] =
      .lexeme (.number .integer) 1 := by decide
  have hgap : IsGap ['\x7b', 'é', '\x7d', '\n'] :=
    @IsGap.comment ['é'] ['\n'] (by decide) (.separator (by decide) .empty)
  obtain ⟨-, hlexeme, hlongest⟩ := Piece.front_eq_lexeme_iff.mp hnumber
  have htiled : TiledBefore ['"', 'é', '\n', '2'] ['1', '\'', '\x7b', 'é', '\x7d', '\n'] _ :=
    .cons ⟨[], .number .integer, ['1', '\'']⟩ .empty hlexeme hlongest (.last hgap)
  have hbad : Unscannable ['"', 'é'] ['\n', '2'] :=
    .openString (by decide) (by decide) (by simp)
  have h : scan "1'\x7bé\x7d\n\"é\n2" = .error ⟨⟨⟨2, 1⟩, ⟨7, 10⟩⟩, "\"é"⟩ :=
    (scan_fails_iff_unscannable _ _).1.mpr ⟨_, _, _, _, rfl, htiled, hbad, rfl⟩
  obtain ⟨-, -, -, before, rest, hcut, hspan, hts, -⟩ := (scan_fails_iff_unscannable _ _).2 h
  exact ⟨h, before, rest, hcut, hspan, hts⟩

end Token

end StackCalc
