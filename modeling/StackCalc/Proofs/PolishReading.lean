/-
The Polish form can be read in one way only.

Literals are printed as they were written, and a node in parentheses: a word that says what the
node is, and its operands, each with a blank before it.  So where the printed form of a tree
ends can be told from the text alone.  A string goes on to the next quote, whatever stands in
it, because no string holds a quote; any other literal has neither blanks nor parentheses in
it.  After an operand there is a blank if one more follows and a parenthesis if none does, which
is all that tells a sign before one operand from the same sign between two.

What is not printed follows from what is.  The word names the level of the node, since no two
levels share an operator, and a literal looks like one kind of token only.
-/
import StackCalc.Expr.Printer
import StackCalc.Proofs.Layout
import StackCalc.Proofs.Literals
import StackCalc.Proofs.NodeSpans

namespace StackCalc

open Grammar

/-! ### Where a word ends -/

/-- Two words that end at a character of a class are the same. -/
theorem append_inj_of_stop {p : Char → Bool} {as bs rest rest' : List Char}
    (has : ∀ c ∈ as, p c = false) (hbs : ∀ c ∈ bs, p c = false)
    (hrest : ∀ c ∈ rest.head?, p c = true) (hrest' : ∀ c ∈ rest'.head?, p c = true)
    (h : as ++ rest = bs ++ rest') : as = bs ∧ rest = rest' := by
  have htake : ∀ {cs more : List Char}, (∀ c ∈ cs, p c = false) →
      (∀ c ∈ more.head?, p c = true) → (cs ++ more).takeWhile (fun c => !p c) = cs := by
    intro cs more hcs hmore
    rw [List.takeWhile_append_of_pos (by simpa using hcs)]
    cases more with
    | nil => simp
    | cons c more => simp [hmore c rfl]
  have hword : as = bs := by
    rw [← htake has hrest, h, htake hbs hrest']
  exact ⟨hword, List.append_cancel_left (hword ▸ h)⟩

/-- Two words that go on to the next `x` are the same. -/
theorem append_cons_inj_of_stop {x : Char} {as bs rest rest' : List Char} (has : x ∉ as)
    (hbs : x ∉ bs) (h : as ++ x :: rest = bs ++ x :: rest') : as = bs ∧ rest = rest' := by
  have hinside : ∀ {cs : List Char}, x ∉ cs → ∀ c ∈ cs, (c == x) = false := by
    intro cs hcs c hc
    rw [beq_eq_false_iff_ne]
    rintro rfl
    exact hcs hc
  obtain ⟨hword, htail⟩ :=
    append_inj_of_stop (hinside has) (hinside hbs) (by simp) (by simp) h
  exact ⟨hword, (List.cons.inj htail).2⟩

/-- What may follow the printed form of an operand. -/
def isPolishStop (c : Char) : Bool :=
  c == ' ' || c == ')'

/-- Nothing follows, or something that ends an operand. -/
def Ended (rest : List Char) : Prop :=
  ∀ c ∈ rest.head?, isPolishStop c = true

theorem ended_blank (rest : List Char) : Ended (' ' :: rest) := by
  intro c hc
  obtain rfl := Option.some.inj hc
  rfl

theorem ended_paren (rest : List Char) : Ended (')' :: rest) := by
  intro c hc
  obtain rfl := Option.some.inj hc
  rfl

/-! ### Literals -/

/-- How a literal can be written: in quotes, or as one word. -/
inductive LiteralText : List Char → Prop
  | quoted {body : List Char} (hbody : '"' ∉ body) : LiteralText ('"' :: (body ++ ['"']))
  | word {c : Char} {cs : List Char} (h : ∀ x ∈ c :: cs, x ∉ ['(', ')', ' ', '"']) :
      LiteralText (c :: cs)

theorem LiteralText.head_ne_paren {text : List Char} (h : LiteralText text)
    (rest tail : List Char) : text ++ rest ≠ '(' :: tail := by
  intro heq
  cases h with
  | quoted hbody => simp at heq
  | word hword =>
      obtain ⟨rfl, -⟩ := List.cons.inj heq
      exact hword '(' (by simp) (by simp)

/-- The end of a literal can be told from the text. -/
theorem LiteralText.unique {text text' rest rest' : List Char} (h : LiteralText text)
    (h' : LiteralText text') (hrest : Ended rest) (hrest' : Ended rest')
    (heq : text ++ rest = text' ++ rest') : text = text' ∧ rest = rest' := by
  have hstop : ∀ {cs : List Char}, (∀ x ∈ cs, x ∉ ['(', ')', ' ', '"']) →
      ∀ x ∈ cs, isPolishStop x = false := by
    intro cs hcs x hx
    have hx := hcs x hx
    simp only [List.mem_cons, List.not_mem_nil, or_false, not_or] at hx
    simp [isPolishStop, hx]
  cases h with
  | @quoted body hbody =>
      cases h' with
      | @quoted body' hbody' =>
          simp only [List.cons_append, List.append_assoc, List.nil_append] at heq
          obtain ⟨-, heq⟩ := List.cons.inj heq
          obtain ⟨rfl, htail⟩ := append_cons_inj_of_stop hbody hbody' heq
          exact ⟨rfl, htail⟩
      | word hword =>
          obtain ⟨rfl, -⟩ := List.cons.inj heq
          exact absurd (by simp) (hword '"' (by simp))
  | word hword =>
      cases h' with
      | quoted _ =>
          obtain ⟨rfl, -⟩ := List.cons.inj heq
          exact absurd (by simp) (hword '"' (by simp))
      | word hword' => exact append_inj_of_stop (hstop hword) (hstop hword') hrest hrest' heq

theorem IsLexeme.literalText_of_number {n : NumberKind} {text : List Char}
    (h : IsLexeme (.number n) text) : LiteralText text := by
  have hdigit : ∀ {c : Char}, c.isDigit = true → c ∉ ['(', ')', ' ', '"'] :=
    fun hc => Piece.notMem_of_all_not (by decide) hc
  have hnumber : ∀ {c : Char}, isNumberChar c = true → c ∉ ['(', ')', ' ', '"'] :=
    fun hc => Piece.notMem_of_all_not (by decide) hc
  cases h with
  | integer hd hds =>
      refine .word ?_
      intro c hc
      rcases List.mem_cons.mp hc with rfl | hc
      · exact hdigit hd
      · exact hnumber (hds c hc)
  | double hd hds hf hfs =>
      refine .word ?_
      intro c hc
      simp only [List.mem_cons, List.mem_append] at hc
      rcases hc with rfl | hc | rfl | rfl | hc
      · exact hdigit hd
      · exact hnumber (hds c hc)
      · decide
      · exact hdigit hf
      · exact hnumber (hfs c hc)

theorem IsLexeme.literalText_of_string {text : List Char} (h : IsLexeme .string text) :
    LiteralText text := by
  cases h with
  | string hquote _ => exact .quoted hquote

/-- The tokens that are literals, and which literals they are. -/
theorem literal_of_terminalOf {t : Token} {kind : LiteralKind} {text : String}
    (h : terminalOf t = .literal kind text) :
    t.literal = text ∧ ((∃ n, t.kind = .number n ∧ kind = .number n) ∨
      (t.kind = .string ∧ kind = .string) ∨
      ∃ k ∈ [Keyword.trueWord, Keyword.falseWord], t.kind = .keyword k ∧ kind = .bool) := by
  unfold terminalOf at h
  split at h
  · obtain ⟨rfl, rfl⟩ := Terminal.literal.inj h
    exact ⟨rfl, Or.inl ⟨_, ‹_›, rfl⟩⟩
  · obtain ⟨rfl, rfl⟩ := Terminal.literal.inj h
    exact ⟨rfl, Or.inr (Or.inl ⟨‹_›, rfl⟩)⟩
  · obtain ⟨rfl, rfl⟩ := Terminal.literal.inj h
    exact ⟨rfl, Or.inr (Or.inr ⟨.trueWord, by simp, ‹_›, rfl⟩)⟩
  · obtain ⟨rfl, rfl⟩ := Terminal.literal.inj h
    exact ⟨rfl, Or.inr (Or.inr ⟨.falseWord, by simp, ‹_›, rfl⟩)⟩
  · simp at h

/-- The token is one that a text can hold, and it is this literal. -/
structure Token.Reads (t : Token) (kind : LiteralKind) (text : String) : Prop where
  lexeme : IsLexeme t.kind t.written.toList
  terminal : terminalOf t = .literal kind text

namespace Token.Reads

variable {t t' : Token} {kind kind' : LiteralKind} {text text' : String}

theorem literalText (h : t.Reads kind text) : LiteralText t.written.toList := by
  have hlexeme := h.lexeme
  obtain ⟨-, ⟨n, hkind, -⟩ | ⟨hkind, -⟩ | ⟨k, hk, hkind, -⟩⟩ := literal_of_terminalOf h.terminal
  · rw [hkind] at hlexeme
    exact hlexeme.literalText_of_number
  · rw [hkind] at hlexeme
    exact hlexeme.literalText_of_string
  · rw [hkind] at hlexeme
    rw [hlexeme.eq_spelling]
    simp only [List.mem_cons, List.not_mem_nil, or_false] at hk
    rcases hk with rfl | rfl
    · exact @LiteralText.word 't' ['r', 'u', 'e'] (by simp)
    · exact @LiteralText.word 'f' ['a', 'l', 's', 'e'] (by simp)

/-- A literal is printed as it is written. -/
theorem polish (h : t.Reads kind text) (s : Site) :
    (Expr.literal s kind text).polish = t.written := by
  unfold written
  obtain ⟨rfl, ⟨n, hkind, rfl⟩ | ⟨hkind, rfl⟩ | ⟨k, -, hkind, rfl⟩⟩ :=
    literal_of_terminalOf h.terminal
  · rw [hkind]
    rfl
  · rw [hkind]
    rfl
  · rw [hkind]
    rfl

/-- A literal that looks the same is the same. -/
theorem unique (h : t.Reads kind text) (h' : t'.Reads kind' text')
    (hwritten : t.written = t'.written) : kind = kind' ∧ text = text' := by
  obtain ⟨hkind, -, -⟩ := (longest_nil _).unique h.lexeme h'.lexeme (longest_nil _)
    (congrArg (·.toList ++ []) hwritten)
  have hliteral : t.literal = t'.literal := by
    rw [← literalOf_written t, ← literalOf_written t', hkind, hwritten]
  have hterminal : terminalOf t = terminalOf t' := by
    unfold terminalOf
    rw [hkind, hliteral]
  rw [h.terminal, h'.terminal] at hterminal
  exact Terminal.literal.inj hterminal

end Token.Reads

namespace Expr

/-! ### Nodes -/

/-- What stands behind the opening parenthesis of a node. -/
def word : Expr → String
  | unary _ op _ | binary _ _ op _ _ => op.symbol
  | grouping _ _ => "group"
  | literal _ _ _ | primary _ _ => ""

/-- The operands of a node in parentheses. -/
def operands : Expr → List Expr
  | unary _ _ e | grouping _ e => [e]
  | binary _ _ _ l r => [l, r]
  | literal _ _ _ | primary _ _ => []

/-- The node is one that the grammar builds and that is printed in parentheses. -/
def Opens : Expr → Prop
  | unary _ op _ => op ∈ prefixOperators
  | binary _ level op _ _ => op ∈ operatorsOf level
  | grouping _ _ => True
  | literal _ _ _ | primary _ _ => False

/-- The operands as they are printed, with a blank before each. -/
def spaced (es : List Expr) : List Char :=
  es.flatMap fun e => ' ' :: e.polish.toList

theorem Opens.polish {e : Expr} (h : e.Opens) :
    e.polish.toList = '(' :: (e.word.toList ++ (spaced e.operands ++ [')'])) := by
  cases e with
  | literal s kind text => cases h
  | unary s op e => simp [Expr.polish, word, operands, spaced]
  | binary s level op l r => simp [Expr.polish, word, operands, spaced]
  | grouping s e => simp [Expr.polish, word, operands, spaced]
  | primary s e => cases h

theorem Opens.blank_notMem {e : Expr} (h : e.Opens) : ' ' ∉ e.word.toList := by
  cases e with
  | literal s kind text => cases h
  | unary s op e =>
      have hall : ∀ op ∈ prefixOperators, ' ' ∉ op.symbol.toList := by decide
      exact hall op h
  | binary s level op l r =>
      have hall : ∀ op ∈ operatorsOf level, ' ' ∉ op.symbol.toList := by cases level <;> decide
      exact hall op h
  | grouping s e => simp [word]
  | primary s e => cases h

/-- A word ends at the blank before the first operand. -/
theorem Opens.spaced_operands {e : Expr} (h : e.Opens) :
    ∃ tail, spaced e.operands = ' ' :: tail := by
  cases e with
  | literal s kind text => cases h
  | unary s op e => exact ⟨_, rfl⟩
  | binary s level op l r => exact ⟨_, rfl⟩
  | grouping s e => exact ⟨_, rfl⟩
  | primary s e => cases h

theorem Opens.word_unique {e e' : Expr} (h : e.Opens) (h' : e'.Opens) {rest rest' : List Char}
    (heq : e.word.toList ++ (spaced e.operands ++ rest) =
      e'.word.toList ++ (spaced e'.operands ++ rest')) :
    e.word = e'.word ∧ spaced e.operands ++ rest = spaced e'.operands ++ rest' := by
  obtain ⟨tail, htail⟩ := h.spaced_operands
  obtain ⟨tail', htail'⟩ := h'.spaced_operands
  rw [htail, htail', List.cons_append, List.cons_append] at heq ⊢
  obtain ⟨hword, hrest⟩ := append_cons_inj_of_stop h.blank_notMem h'.blank_notMem heq
  exact ⟨String.toList_inj.mp hword, congrArg (' ' :: ·) hrest⟩

/-- No two levels have an operator that is printed the same. -/
theorem infixSymbol_inj {level level' : Level} {op op' : TokenKind} (h : op ∈ operatorsOf level)
    (h' : op' ∈ operatorsOf level') (heq : op.symbol = op'.symbol) :
    level = level' ∧ op = op' := by
  have hall : ∀ op ∈ operatorsOf level, ∀ op' ∈ operatorsOf level',
      op.symbol = op'.symbol → level = level' ∧ op = op' := by
    cases level <;> cases level' <;> decide
  exact hall op h op' h' heq

theorem prefixSymbol_inj {op op' : TokenKind} (h : op ∈ prefixOperators)
    (h' : op' ∈ prefixOperators) (heq : op.symbol = op'.symbol) : op = op' := by
  have hall : ∀ op ∈ prefixOperators, ∀ op' ∈ prefixOperators,
      op.symbol = op'.symbol → op = op' := by decide
  exact hall op h op' h' heq

theorem prefixSymbol_ne_group {op : TokenKind} (h : op ∈ prefixOperators) :
    op.symbol ≠ "group" := by
  have hall : ∀ op ∈ prefixOperators, op.symbol ≠ "group" := by decide
  exact hall op h

/-- The word and the operands of a node are all there is to it but its place. -/
theorem Opens.bare_eq {e e' : Expr} (h : e.Opens) (h' : e'.Opens) (hword : e.word = e'.word)
    (hoperands : e.operands.map bare = e'.operands.map bare) : e.bare = e'.bare := by
  cases e with
  | literal s kind text => cases h
  | unary s op e =>
      cases e' with
      | literal s kind text => cases h'
      | unary s' op' e' =>
          obtain rfl := prefixSymbol_inj h h' hword
          simp only [operands, List.map_cons, List.map_nil, List.cons.injEq, and_true] at hoperands
          rw [bare, bare, hoperands]
      | binary s' level op' l r => simp [operands] at hoperands
      | grouping s' e' => exact absurd hword (prefixSymbol_ne_group h)
      | primary s e => cases h'
  | binary s level op l r =>
      cases e' with
      | literal s kind text => cases h'
      | unary s' op' e' => simp [operands] at hoperands
      | binary s' level' op' l' r' =>
          obtain ⟨rfl, rfl⟩ := infixSymbol_inj h h' hword
          simp only [operands, List.map_cons, List.map_nil, List.cons.injEq, and_true] at hoperands
          rw [bare, bare, hoperands.1, hoperands.2]
      | grouping s' e' => simp [operands] at hoperands
      | primary s e => cases h'
  | grouping s e =>
      cases e' with
      | literal s kind text => cases h'
      | unary s' op' e' => exact absurd hword.symm (prefixSymbol_ne_group h')
      | binary s' level op' l r => simp [operands] at hoperands
      | grouping s' e' =>
          simp only [operands, List.map_cons, List.map_nil, List.cons.injEq, and_true] at hoperands
          rw [bare, bare, hoperands]
      | primary s e => cases h'
  | primary s e => cases h

/-! ### Trees -/

/-- A tree of literals that a text can hold and of nodes that the grammar builds. -/
inductive Legible : Expr → Prop
  | literal {s s' : Site} {kind : LiteralKind} {text : String} {t : Token}
      (ht : t.Reads kind text) : Legible (.primary s (.literal s' kind text))
  | node {e : Expr} (hopens : e.Opens) (hoperands : ∀ x ∈ e.operands, Legible x) : Legible e

/-- A legible tree that is printed at the same place is the same, and ends at the same place. -/
def Unmistakable (e : Expr) : Prop :=
  ∀ {e' : Expr} {rest rest' : List Char}, Legible e' → Ended rest → Ended rest' →
    e.polish.toList ++ rest = e'.polish.toList ++ rest' → e.bare = e'.bare ∧ rest = rest'

/-- The character after an operand tells whether there is another one. -/
theorem spaced_unique {es : List Expr} (h : ∀ e ∈ es, Unmistakable e) :
    ∀ {es' : List Expr} {rest rest' : List Char}, (∀ e ∈ es', Legible e) →
      spaced es ++ ')' :: rest = spaced es' ++ ')' :: rest' →
      es.map bare = es'.map bare ∧ rest = rest' := by
  have hended : ∀ (es : List Expr) (rest : List Char), Ended (spaced es ++ ')' :: rest) := by
    intro es rest
    cases es with
    | nil => exact ended_paren rest
    | cons e es => exact ended_blank _
  induction es with
  | nil =>
      intro es' rest rest' _ heq
      cases es' with
      | nil => exact ⟨rfl, (List.cons.inj heq).2⟩
      | cons e' es' => simp [spaced] at heq
  | cons e es ih =>
      intro es' rest rest' hes' heq
      cases es' with
      | nil => simp [spaced] at heq
      | cons e' es' =>
          simp only [spaced, List.flatMap_cons, List.cons_append, List.append_assoc] at heq
          obtain ⟨-, heq⟩ := List.cons.inj heq
          obtain ⟨hfirst, heq⟩ := h e (by simp) (hes' e' (by simp)) (hended es rest)
            (hended es' rest') heq
          obtain ⟨hmore, hrest⟩ := ih (fun x hx => h x (by simp [hx]))
            (fun x hx => hes' x (by simp [hx])) heq
          exact ⟨by rw [List.map_cons, List.map_cons, hfirst, hmore], hrest⟩

/-- **A legible tree is printed in one way only**, whatever follows. -/
theorem Legible.unmistakable {e : Expr} (h : Legible e) : Unmistakable e := by
  induction h with
  | @literal s s₀ kind text t ht =>
      intro e' rest rest' h' hrest hrest' heq
      rw [Expr.polish, ht.polish] at heq
      cases h' with
      | @literal s' s₀' kind' text' t' ht' =>
          rw [Expr.polish, ht'.polish] at heq
          obtain ⟨hwritten, hrest⟩ := ht.literalText.unique ht'.literalText hrest hrest' heq
          obtain ⟨rfl, rfl⟩ := ht.unique ht' (String.toList_inj.mp hwritten)
          exact ⟨rfl, hrest⟩
      | node hopens _ =>
          rw [hopens.polish] at heq
          exact absurd heq (ht.literalText.head_ne_paren _ _)
  | @node e hopens hoperands ih =>
      intro e' rest rest' h' hrest hrest' heq
      rw [hopens.polish] at heq
      cases h' with
      | @literal s' s₀' kind' text' t' ht' =>
          rw [Expr.polish, ht'.polish] at heq
          exact absurd heq.symm (ht'.literalText.head_ne_paren _ _)
      | node hopens' hoperands' =>
          rw [hopens'.polish] at heq
          simp only [List.cons_append, List.append_assoc, List.nil_append] at heq
          obtain ⟨-, heq⟩ := List.cons.inj heq
          obtain ⟨hword, heq⟩ := hopens.word_unique hopens' heq
          obtain ⟨hbare, hrest⟩ := spaced_unique ih hoperands' heq
          exact ⟨hopens.bare_eq hopens' hword hbare, hrest⟩

end Expr

/-- What is read from a text is legible. -/
theorem Grammar.Derives.legible {rank : Rank} {ts : List Token} {e : Expr} (h : Derives rank ts e) :
    (∀ t ∈ ts, IsLexeme t.kind t.written.toList) → e.Legible := by
  induction h using Derives.linkInduction with
  | inner _ _ ih => exact ih
  | @snoc rank inner level ts us op l r _ _ hop _ ihl ihr =>
      intro hlexemes
      have hl := ihl fun t ht => hlexemes t (by simp [ht])
      have hr := ihr fun t ht => hlexemes t (by simp [ht])
      exact .node hop (by simpa [joined, Expr.operands] using ⟨hl, hr⟩)
  | @prefixed op ts e hop _ ih =>
      intro hlexemes
      have he := ih fun t ht => hlexemes t (by simp [ht])
      exact .node hop (by simpa [Expr.operands] using he)
  | primary _ ih => exact ih
  | @literal t kind text ht =>
      intro hlexemes
      exact .literal ⟨hlexemes t (by simp), ht⟩
  | @grouping opener closer ts e _ _ _ ih =>
      intro hlexemes
      have he := ih fun t ht => hlexemes t (by simp [ht])
      exact .node trivial (by simpa [Expr.operands] using he)

namespace Expr

theorem legible_of_ofSource {source : String} {e : Expr} (h : ofSource source = .ok e) :
    e.Legible := by
  obtain ⟨ts, hscan, hparse⟩ := ofSource_eq_ok h
  obtain ⟨⟨body, tail, hderives, -, rfl⟩, -, -⟩ := Parser.program_of_ofTokens hparse
  refine hderives.legible ?_
  intro t ht
  exact (Token.placed_of_scan hscan t (by simp [ht])).lexeme

/-- Places are not printed. -/
theorem polish_bare (e : Expr) : e.bare.polish = e.polish := by
  induction e with
  | literal s kind text => cases kind <;> rfl
  | unary s op e ih => rw [bare, polish, polish, ih]
  | binary s level op l r ihl ihr => rw [bare, polish, polish, ihl, ihr]
  | grouping s e ih => rw [bare, polish, polish, ih]
  | primary s e ih => rw [bare, polish, polish, ih]

/-- **The Polish form determines the tree.**  Two texts that parse are printed the same exactly
when their trees have the same nodes, operators and literals, and differ in places only. -/
theorem polish_eq_iff_bare_eq {source source' : String} {e e' : Expr}
    (h : ofSource source = .ok e) (h' : ofSource source' = .ok e') :
    e.polish = e'.polish ↔ e.bare = e'.bare := by
  have hend : Ended [] := by
    intro c hc
    cases hc
  constructor
  · intro hpolish
    exact ((legible_of_ofSource h).unmistakable (legible_of_ofSource h') hend hend
      (congrArg (·.toList ++ []) hpolish)).1
  · intro hbare
    rw [← polish_bare e, ← polish_bare e', hbare]

/-- A sign before an operand, the same sign between two, and a string that looks like more of
the form: the trees of both layouts are the same but for places. -/
theorem polish_eq_twoLayouts :
    ∃ e e', ofSource "-1-\")(- \"" = .ok e ∧ ofSource "- 1\n- \")(- \"." = .ok e' ∧
      e.polish = "(- (- 1) \")(- \")" ∧ e'.polish = "(- (- 1) \")(- \")" ∧
      e ≠ e' ∧ e.bare = e'.bare := by
  have h : ofSource "-1-\")(- \"" = .ok (.binary ⟨⟨1, 3⟩, ⟨0, 9⟩⟩ .term (.mark .minus)
      (.unary ⟨⟨1, 1⟩, ⟨0, 2⟩⟩ (.mark .minus) (.primary ⟨⟨1, 2⟩, ⟨1, 2⟩⟩
        (.literal ⟨⟨1, 2⟩, ⟨1, 2⟩⟩ (.number .integer) "1")))
      (.primary ⟨⟨1, 4⟩, ⟨3, 9⟩⟩ (.literal ⟨⟨1, 4⟩, ⟨3, 9⟩⟩ .string ")(- "))) := by
    decide +kernel
  have h' : ofSource "- 1\n- \")(- \"." = .ok (.binary ⟨⟨2, 1⟩, ⟨0, 12⟩⟩ .term (.mark .minus)
      (.unary ⟨⟨1, 1⟩, ⟨0, 3⟩⟩ (.mark .minus) (.primary ⟨⟨1, 3⟩, ⟨2, 3⟩⟩
        (.literal ⟨⟨1, 3⟩, ⟨2, 3⟩⟩ (.number .integer) "1")))
      (.primary ⟨⟨2, 3⟩, ⟨6, 12⟩⟩ (.literal ⟨⟨2, 3⟩, ⟨6, 12⟩⟩ .string ")(- "))) := by
    decide +kernel
  exact ⟨_, _, h, h', by decide, by decide, by decide,
    (polish_eq_iff_bare_eq h h').mp (by decide)⟩

end Expr

end StackCalc
