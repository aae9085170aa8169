/-
Scanning tiles the text.

A tiling cuts a text into lexemes and the gaps between them, so that no lexeme could have
been longer.  It says nothing about offsets or positions; those can be read off the lengths
of what comes before a lexeme and off the line map of the text.

A text has at most one tiling.  The gap before a lexeme is all the gap there is, because no
lexeme starts like one, and two longest lexemes at the same place are the same.  The scanner
follows a tiling piece by piece if there is one, and what it finds on its own is one.
-/
import StackCalc.Proofs.Lexeme
import StackCalc.Proofs.LineMap

namespace StackCalc

/-! ### Tilings -/

/-- A lexeme and the gap before it. -/
structure Tile where
  gap : List Char
  kind : TokenKind
  text : List Char

/-- The text consists of the tiles and a last gap, and each lexeme is the longest that starts
where it does. -/
inductive Tiling : List Char → List Tile → List Char → Prop
  | last {gap : List Char} (hgap : IsGap gap) : Tiling gap [] gap
  | cons (tile : Tile) {rest last : List Char} {tiles : List Tile} (hgap : IsGap tile.gap)
      (hlexeme : IsLexeme tile.kind tile.text) (hlongest : Longest tile.text rest)
      (hrest : Tiling rest tiles last) :
      Tiling (tile.gap ++ (tile.text ++ rest)) (tile :: tiles) last

/-- The tokens of the tiles that stand in the source from an offset on. -/
def Tile.tokens (source : String) : Nat → List Tile → List Token
  | _, [] => []
  | offset, tile :: tiles =>
    let start := offset + byteLength tile.gap
    let stop := start + byteLength tile.text
    ⟨tile.kind, Token.literalOf tile.kind tile.text,
      ⟨(LineMap.ofSource source).lookup start, ⟨start, stop⟩⟩⟩ :: tokens source stop tiles

/-! ### One tiling -/

/-- No gap starts the text. -/
def StartsNoGap (cs : List Char) : Prop :=
  ∀ ⦃c : Char⦄ ⦃rest : List Char⦄, cs = c :: rest → isSeparator c = false ∧ c ≠ '\x7b'

theorem IsLexeme.startsNoGap {kind : TokenKind} {text : List Char} (h : IsLexeme kind text)
    (rest : List Char) : StartsNoGap (text ++ rest) := by
  obtain ⟨x, xs, rfl⟩ := List.exists_cons_of_ne_nil h.ne_nil
  intro c tail hcs
  obtain ⟨rfl, -⟩ := List.cons.inj hcs
  exact h.head_not_gap

/-- What starts with a gap starts with its first character or brace. -/
theorem IsGap.eq_nil_of_startsNoGap {gap cs : List Char} (h : IsGap gap)
    (hcs : StartsNoGap (gap ++ cs)) : gap = [] := by
  cases h with
  | empty => rfl
  | separator hc _ =>
      have hno := (hcs rfl).1
      rw [isSeparator_iff.mpr hc] at hno
      simp at hno
  | comment _ _ => exact absurd rfl (hcs rfl).2

/-- A gap that ends where no gap starts is determined by the text. -/
theorem IsGap.unique {gap : List Char} (h : IsGap gap) :
    ∀ {gap' cs cs' : List Char}, IsGap gap' → StartsNoGap cs → StartsNoGap cs' →
      gap ++ cs = gap' ++ cs' → gap = gap' ∧ cs = cs' := by
  induction h with
  | empty =>
      intro gap' cs cs' h' hcs _ heq
      rw [List.nil_append] at heq
      subst heq
      obtain rfl := h'.eq_nil_of_startsNoGap hcs
      exact ⟨rfl, rfl⟩
  | @separator c rest hc _ ih =>
      intro gap' cs cs' h' hcs hcs' heq
      have hsep := isSeparator_iff.mpr hc
      cases h' with
      | empty =>
          have hno := (hcs' heq.symm).1
          rw [hsep] at hno
          simp at hno
      | separator _ hrest' =>
          rw [List.cons_append, List.cons_append] at heq
          obtain ⟨rfl, htail⟩ := List.cons.inj heq
          obtain ⟨rfl, rfl⟩ := ih hrest' hcs hcs' htail
          exact ⟨rfl, rfl⟩
      | comment _ _ =>
          obtain ⟨rfl, -⟩ := List.cons.inj heq
          exact absurd hsep (by decide)
  | @comment body rest hbody _ ih =>
      intro gap' cs cs' h' hcs hcs' heq
      cases h' with
      | empty => exact absurd rfl (hcs' heq.symm).2
      | separator hc' _ =>
          obtain ⟨rfl, -⟩ := List.cons.inj heq
          exact absurd hc' (by decide)
      | @comment body' rest' hbody' hrest' =>
          simp only [List.cons_append, List.append_assoc] at heq
          obtain ⟨-, heq⟩ := List.cons.inj heq
          have hlength := Piece.comment_of_closed hbody (rest ++ cs)
          rw [heq, Piece.comment_of_closed hbody', Piece.gap.injEq, Nat.add_right_cancel_iff]
            at hlength
          obtain ⟨rfl, htail⟩ := List.append_inj heq hlength.symm
          obtain ⟨rfl, rfl⟩ := ih hrest' hcs hcs' (List.cons.inj htail).2
          exact ⟨rfl, rfl⟩

/-- Two longest lexemes at the front of a text are the same. -/
theorem Longest.unique {kind kind' : TokenKind} {text text' rest rest' : List Char}
    (hl : Longest text rest) (h : IsLexeme kind text) (h' : IsLexeme kind' text')
    (hl' : Longest text' rest') (heq : text ++ rest = text' ++ rest') :
    kind = kind' ∧ text = text' ∧ rest = rest' := by
  have hle := hl h' ⟨rest', heq.symm⟩
  have hle' := hl' h ⟨rest, heq⟩
  obtain ⟨rfl, rfl⟩ := List.append_inj heq (Nat.le_antisymm hle' hle)
  obtain ⟨c, cs, rfl⟩ := List.exists_cons_of_ne_nil h.ne_nil
  have hkind := (Piece.front_of_longest h rfl hl).symm.trans (Piece.front_of_longest h' rfl hl')
  injection hkind with hkind
  exact ⟨hkind, rfl, rfl⟩

theorem startsNoGap_nil : StartsNoGap [] := by
  intro c rest h
  simp at h

/-- **A text has one tiling.** -/
theorem Tiling.unique {cs : List Char} {tiles : List Tile} {last : List Char}
    (h : Tiling cs tiles last) :
    ∀ {cs' : List Char} {tiles' : List Tile} {last' : List Char}, Tiling cs' tiles' last' →
      cs = cs' → tiles = tiles' ∧ last = last' := by
  induction h with
  | @last gap hgap =>
      intro cs' tiles' last' h' heq
      cases h' with
      | last _ => exact ⟨rfl, heq⟩
      | @cons tile rest _ _ hgap' hlexeme _ _ =>
          rw [← List.append_nil gap] at heq
          obtain ⟨-, hnil⟩ := hgap.unique hgap' startsNoGap_nil (hlexeme.startsNoGap rest) heq
          exact absurd (List.append_eq_nil_iff.mp hnil.symm).1 hlexeme.ne_nil
  | @cons tile rest last tiles hgap hlexeme hlongest _ ih =>
      intro cs' tiles' last' h' heq
      cases h' with
      | @last gap' hgap' =>
          rw [← List.append_nil cs'] at heq
          obtain ⟨-, hnil⟩ := hgap.unique hgap' (hlexeme.startsNoGap rest) startsNoGap_nil heq
          exact absurd (List.append_eq_nil_iff.mp hnil).1 hlexeme.ne_nil
      | @cons tile' rest' _ tiles' hgap' hlexeme' hlongest' hrest' =>
          obtain ⟨hg, heq⟩ := hgap.unique hgap' (hlexeme.startsNoGap rest)
            (hlexeme'.startsNoGap rest') heq
          obtain ⟨hk, ht, hr⟩ := hlongest.unique hlexeme hlexeme' hlongest' heq
          obtain ⟨rfl, rfl⟩ := ih hrest' hr
          cases tile
          cases tile'
          simp_all

/-! ### The scanner follows a tiling -/

namespace Token

theorem scanFrom_separator {c : Char} (h : isSeparator c = true) (p : Place) (done : Array Token)
    (cs : List Char) : scanFrom p done (c :: cs) = scanFrom (p.advance c) done cs := by
  rw [scanFrom, Piece.front_of_separator h]
  cases cs with
  | nil => rfl
  | cons x cs =>
      -- A separator right after this one is taken along, and is skipped alike on its own.
      by_cases hx : isSeparator x = true
      · have hrun : Piece.run isSeparator (x :: cs) = Piece.run isSeparator cs + 1 := by
          simp [Piece.run, hx]
        rw [scanFrom, Piece.front_of_separator hx]
        simp only [hrun, List.take_succ_cons, List.drop_succ_cons]
        rfl
      · rw [Piece.run_cons_of_not (by simpa using hx)]
        rfl

theorem scanFrom_comment {body : List Char} (h : '\x7d' ∉ body) (p : Place) (done : Array Token)
    (cs : List Char) :
    scanFrom p done ('\x7b' :: (body ++ '\x7d' :: cs)) =
      scanFrom (p.after ('\x7b' :: (body ++ ['\x7d']))) done cs := by
  rw [scanFrom, Piece.front_brace, Piece.comment_of_closed h]
  simp only [List.take_length_add_append, List.drop_length_add_append, List.take_succ_cons,
    List.take_zero, List.drop_succ_cons, List.drop_zero]

theorem scanFrom_gap {gap : List Char} (h : IsGap gap) :
    ∀ (p : Place) (done : Array Token) (cs : List Char),
      scanFrom p done (gap ++ cs) = scanFrom (p.after gap) done cs := by
  induction h with
  | empty => intro p done cs; rfl
  | separator hc _ ih =>
      intro p done cs
      rw [List.cons_append, scanFrom_separator (isSeparator_iff.mpr hc), ih]
      rfl
  | @comment body rest hbody _ ih =>
      intro p done cs
      rw [List.cons_append, List.append_assoc, List.cons_append, scanFrom_comment hbody, ih,
        ← Place.after_append, List.cons_append, List.append_assoc, List.cons_append,
        List.nil_append]

theorem scanFrom_lexeme {kind : TokenKind} {text rest : List Char} (h : IsLexeme kind text)
    (hl : Longest text rest) (p : Place) (done : Array Token) :
    scanFrom p done (text ++ rest) =
      scanFrom (p.after text) (done.push ⟨kind, literalOf kind text, p.siteOf text⟩) rest := by
  obtain ⟨c, cs, rfl⟩ := List.exists_cons_of_ne_nil h.ne_nil
  rw [List.cons_append, scanFrom, Piece.front_of_longest h rfl hl]
  simp only [List.take_left', List.drop_left']

/-- The scanner's place after the text before is what the line map says of it. -/
theorem siteOf_after {source : String} {before after : List Char}
    (h : source.toList = before ++ after) (text : List Char) :
    (Place.start.after before).siteOf text =
      ⟨(LineMap.ofSource source).lookup (byteLength before),
        ⟨byteLength before, byteLength before + byteLength text⟩⟩ := by
  rw [LineMap.lookup_ofSource h, Place.siteOf, Place.offset_after]
  simp [Place.start]

theorem scanFrom_of_tiling {source : String} {cs : List Char} {tiles : List Tile}
    {last : List Char} (h : Tiling cs tiles last) :
    ∀ {before : List Char} (done : Array Token), source.toList = before ++ cs →
      scanFrom (Place.start.after before) done cs =
        .ok (done ++ Tile.tokens source (byteLength before) tiles) := by
  induction h with
  | @last gap hgap =>
      intro before done _
      rw [← List.append_nil gap, scanFrom_gap hgap, scanFrom]
      simp [Tile.tokens]
  | @cons tile rest last tiles hgap hlexeme hlongest _ ih =>
      intro before done hsource
      have hbefore : source.toList = (before ++ tile.gap) ++ (tile.text ++ rest) := by
        rw [hsource, List.append_assoc]
      have hthrough : source.toList = (before ++ tile.gap ++ tile.text) ++ rest := by
        rw [hbefore, List.append_assoc (before ++ tile.gap)]
      rw [scanFrom_gap hgap, ← Place.after_append, scanFrom_lexeme hlexeme hlongest,
        ← Place.after_append, ih _ hthrough, siteOf_after hbefore]
      simp [Tile.tokens, Nat.add_assoc]

/-! ### What the scanner finds is a tiling -/

/-- A gap in front of a tiled text makes the first gap longer. -/
theorem exists_tiling_behind {gap cs : List Char} (hgap : IsGap gap)
    (h : ∃ tiles last, Tiling cs tiles last) : ∃ tiles last, Tiling (gap ++ cs) tiles last := by
  obtain ⟨tiles, last, h⟩ := h
  cases h with
  | last hlast => exact ⟨[], _, .last (hgap.append hlast)⟩
  | @cons tile rest _ tiles hfirst hlexeme hlongest hrest =>
      rw [← List.append_assoc]
      exact ⟨⟨gap ++ tile.gap, tile.kind, tile.text⟩ :: tiles, last,
        .cons ⟨gap ++ tile.gap, tile.kind, tile.text⟩ (hgap.append hfirst) hlexeme hlongest hrest⟩

theorem exists_tiling_of_scanFrom (p : Place) (done : Array Token) (cs : List Char) :
    ∀ {out : Array Token}, scanFrom p done cs = .ok out → ∃ tiles last, Tiling cs tiles last := by
  fun_induction scanFrom p done cs
  case case1 p done =>
      intro out _
      exact ⟨[], [], .last .empty⟩
  case case2 p done c cs more hfront ih =>
      intro out h
      rw [cons_eq_piece c cs more]
      exact exists_tiling_behind (Piece.isGap_of_front hfront).2 (ih h)
  case case3 p done c cs kind more hfront text ih =>
      intro out h
      obtain ⟨tiles, last, hrest⟩ := ih h
      obtain ⟨-, hlexeme, hlongest⟩ := Piece.front_eq_lexeme_iff.mp hfront
      rw [cons_eq_piece c cs more]
      exact ⟨⟨[], kind, text⟩ :: tiles, last,
        .cons ⟨[], kind, text⟩ .empty hlexeme hlongest hrest⟩
  case case4 p done c cs more hfront =>
      intro out h
      simp at h

end Token

/-! ### The spans of the tokens -/

/-- The span holds the text, with whole characters of the source on both sides. -/
def Span.Covers (span : Span) (source text : String) : Prop :=
  ∃ before after, source = before ++ text ++ after ∧
    span = ⟨before.utf8ByteSize, before.utf8ByteSize + text.utf8ByteSize⟩

/-- The ends of the span lie between characters. -/
theorem Span.Covers.isValid {span : Span} {source text : String} (h : span.Covers source text) :
    String.Pos.Raw.IsValid source ⟨span.start⟩ ∧ String.Pos.Raw.IsValid source ⟨span.stop⟩ := by
  obtain ⟨before, after, rfl, rfl⟩ := h
  rw [String.Pos.Raw.isValid_iff_exists_append, String.Pos.Raw.isValid_iff_exists_append]
  refine ⟨⟨before, text ++ after, String.append_assoc .., rfl⟩, ⟨before ++ text, after, rfl, ?_⟩⟩
  rw [String.rawEndPos, String.utf8ByteSize_append]

/-- The token as it is written, a string in its quotes. -/
def Token.written (t : Token) : String :=
  match t.kind with
  | .string => "\"" ++ t.literal ++ "\""
  | _ => t.literal

theorem IsLexeme.written_literalOf {kind : TokenKind} {text : List Char} (h : IsLexeme kind text)
    (site : Site) : Token.written ⟨kind, Token.literalOf kind text, site⟩ = String.ofList text := by
  cases h with
  | string =>
      rw [← String.toList_inj]
      simp [Token.written, Token.literalOf]
  | keyword | mark | integer | double | identifier => rfl

/-- What the place of a token in the source says about it. -/
structure Token.Placed (source : String) (t : Token) : Prop where
  nonempty : t.site.span.start < t.site.span.stop
  covers : t.site.span.Covers source t.written
  lexeme : IsLexeme t.kind t.written.toList
  position : t.site.position = (LineMap.ofSource source).lookup t.site.span.start

theorem byteLength_pos {cs : List Char} (h : cs ≠ []) : 0 < byteLength cs := by
  obtain ⟨c, cs, rfl⟩ := List.exists_cons_of_ne_nil h
  have hpos := c.utf8Size_pos
  rw [byteLength_cons]
  omega

/-- The tokens of a tiling are where their texts are. -/
theorem Tiling.placed {source : String} {cs : List Char} {tiles : List Tile} {last : List Char}
    (h : Tiling cs tiles last) :
    ∀ {before : List Char}, source.toList = before ++ cs →
      ∀ t ∈ Tile.tokens source (byteLength before) tiles, t.Placed source := by
  induction h with
  | last _ =>
      intro before _ t ht
      simp [Tile.tokens] at ht
  | @cons tile rest last tiles _ hlexeme _ _ ih =>
      intro before hsource t ht
      rcases List.mem_cons.mp ht with rfl | ht
      · have hpos := byteLength_pos hlexeme.ne_nil
        refine ⟨?_, ?_, ?_, rfl⟩
        · exact Nat.lt_add_of_pos_right hpos
        · rw [hlexeme.written_literalOf]
          refine ⟨String.ofList (before ++ tile.gap), String.ofList rest, ?_, ?_⟩
          · rw [← @String.ofList_toList source, hsource, ← String.ofList_append,
              ← String.ofList_append]
            simp
          · simp [utf8ByteSize_ofList]
        · rw [hlexeme.written_literalOf, String.toList_ofList]
          exact hlexeme
      · refine @ih (before ++ tile.gap ++ tile.text) ?_ t ?_
        · rw [hsource]
          simp
        · rw [byteLength_append, byteLength_append]
          exact ht

theorem Tile.le_start (source : String) (tiles : List Tile) :
    ∀ offset, ∀ t ∈ tokens source offset tiles, offset ≤ t.site.span.start := by
  induction tiles with
  | nil => intro offset t ht; simp [tokens] at ht
  | cons tile tiles ih =>
      intro offset t ht
      rcases List.mem_cons.mp ht with rfl | ht
      · exact Nat.le_add_right ..
      · have hle := ih _ t ht
        omega

/-- Each token ends before the next ones start. -/
theorem Tile.tokens_ordered (source : String) (tiles : List Tile) : ∀ offset,
    (tokens source offset tiles).Pairwise fun a b => a.site.span.stop ≤ b.site.span.start := by
  induction tiles with
  | nil => intro offset; exact .nil
  | cons tile tiles ih =>
      intro offset
      exact .cons (fun t ht => le_start source tiles _ t ht) (ih _)

/-! ### Scanning -/

namespace Token

theorem scan_of_tiling {source : String} {tiles : List Tile} {last : List Char}
    (h : Tiling source.toList tiles last) : scan source = .ok (Tile.tokens source 0 tiles) := by
  have hscan := @scanFrom_of_tiling source _ tiles last h [] #[] rfl
  show (scanFrom .start #[] source.toList).map Array.toList = _
  rw [show Place.start = Place.start.after [] from rfl, hscan]
  simp [Except.map]

theorem exists_tiling_of_scan {source : String} {ts : List Token} (h : scan source = .ok ts) :
    ∃ tiles last, Tiling source.toList tiles last ∧ ts = Tile.tokens source 0 tiles := by
  have htiling : ∃ tiles last, Tiling source.toList tiles last := by
    unfold scan at h
    cases hscan : scanFrom .start #[] source.toList with
    | ok out => exact exists_tiling_of_scanFrom _ _ _ hscan
    | error e =>
        rw [hscan] at h
        cases h
  obtain ⟨tiles, last, htiling⟩ := htiling
  exact ⟨tiles, last, htiling, Except.ok.inj (h.symm.trans (scan_of_tiling htiling))⟩

theorem placed_of_scan {source : String} {ts : List Token} (h : scan source = .ok ts) :
    ∀ t ∈ ts, t.Placed source := by
  obtain ⟨tiles, last, htiling, rfl⟩ := exists_tiling_of_scan h
  exact @Tiling.placed source _ tiles last htiling [] rfl

/-- **Scanning tiles the text.**  A text is scanned exactly when it has a tiling, there is only
one, and the tokens are its lexemes in order.  Each stands at a span of its own that starts
and ends between characters and holds the token as it is written, and its position is the
one that the line map gives for the start of the span. -/
theorem scan_eq_ok_iff_tiling (source : String) :
    (∀ ts, scan source = .ok ts ↔
      ∃ tiles last, Tiling source.toList tiles last ∧ ts = Tile.tokens source 0 tiles) ∧
    (∀ tiles last tiles' last', Tiling source.toList tiles last →
      Tiling source.toList tiles' last' → tiles = tiles' ∧ last = last') ∧
    (∀ ts, scan source = .ok ts →
      (ts.Pairwise fun a b => a.site.span.stop ≤ b.site.span.start) ∧
      ∀ t ∈ ts, t.site.span.start < t.site.span.stop ∧
        String.Pos.Raw.IsValid source ⟨t.site.span.start⟩ ∧
        String.Pos.Raw.IsValid source ⟨t.site.span.stop⟩ ∧
        t.site.span.Covers source t.written ∧ IsLexeme t.kind t.written.toList ∧
        t.site.position = (LineMap.ofSource source).lookup t.site.span.start) := by
  refine ⟨?_, ?_, ?_⟩
  · intro ts
    constructor
    · exact exists_tiling_of_scan
    · rintro ⟨tiles, last, h, rfl⟩
      exact scan_of_tiling h
  · intro tiles last tiles' last' h h'
    exact h.unique h' rfl
  · intro ts h
    obtain ⟨tiles, last, htiling, rfl⟩ := exists_tiling_of_scan h
    refine ⟨Tile.tokens_ordered source tiles 0, ?_⟩
    intro t ht
    have hplaced := @Tiling.placed source _ tiles last htiling [] rfl t ht
    obtain ⟨hstart, hstop⟩ := hplaced.covers.isValid
    exact ⟨hplaced.nonempty, hstart, hstop, hplaced.covers, hplaced.lexeme, hplaced.position⟩

/-- A point after a double is a token of its own, and a comment of several bytes is a gap. -/
theorem scan_pointed :
    scan "1.5.\x7bé\x7d\nif" =
        .ok [⟨.number .double, "1.5", ⟨⟨1, 1⟩, ⟨0, 3⟩⟩⟩, ⟨.mark .dot, ".", ⟨⟨1, 4⟩, ⟨3, 4⟩⟩⟩,
          ⟨.keyword .ifWord, "if", ⟨⟨2, 1⟩, ⟨9, 11⟩⟩⟩] ∧
      (⟨9, 11⟩ : Span).Covers "1.5.\x7bé\x7d\nif" "if" := by
  have hnumber : Piece.front '1' ['.', '5', '.', '\x7b', 'é', '\x7d', '\n', 'i', 'f'] =
      .lexeme (.number .double) 2 := by decide
  have hdot : Piece.front '.' ['\x7b', 'é', '\x7d', '\n', 'i', 'f'] = .lexeme (.mark .dot) 0 := by
    decide
  have hword : Piece.front 'i' ['f'] = .lexeme (.keyword .ifWord) 1 := by decide
  have hgap : IsGap ['\x7b', 'é', '\x7d', '\n'] :=
    @IsGap.comment ['é'] ['\n'] (by decide) (.separator (by decide) .empty)
  obtain ⟨-, hlexeme₁, hlongest₁⟩ := Piece.front_eq_lexeme_iff.mp hnumber
  obtain ⟨-, hlexeme₂, hlongest₂⟩ := Piece.front_eq_lexeme_iff.mp hdot
  obtain ⟨-, hlexeme₃, hlongest₃⟩ := Piece.front_eq_lexeme_iff.mp hword
  have htiling := Tiling.cons ⟨[], .number .double, ['1', '.', '5']⟩ .empty hlexeme₁ hlongest₁
    (Tiling.cons ⟨[], .mark .dot, ['.']⟩ .empty hlexeme₂ hlongest₂
      (Tiling.cons ⟨['\x7b', 'é', '\x7d', '\n'], .keyword .ifWord, ['i', 'f']⟩ hgap hlexeme₃
        hlongest₃ (.last .empty)))
  have h : scan "1.5.\x7bé\x7d\nif" =
      .ok [⟨.number .double, "1.5", ⟨⟨1, 1⟩, ⟨0, 3⟩⟩⟩, ⟨.mark .dot, ".", ⟨⟨1, 4⟩, ⟨3, 4⟩⟩⟩,
        ⟨.keyword .ifWord, "if", ⟨⟨2, 1⟩, ⟨9, 11⟩⟩⟩] :=
    ((scan_eq_ok_iff_tiling _).1 _).mpr ⟨_, _, htiling, rfl⟩
  obtain ⟨-, -, -, hcovers, -⟩ :=
    ((scan_eq_ok_iff_tiling _).2.2 _ h).2 ⟨.keyword .ifWord, "if", ⟨⟨2, 1⟩, ⟨9, 11⟩⟩⟩ (by simp)
  exact ⟨h, hcovers⟩

end Token

end StackCalc
