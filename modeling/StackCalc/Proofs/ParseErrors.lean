/-
Where the parser puts the blame.

The parser reads from left to right and never goes back, so it can be compared with the plain
automaton that follows what is awaited.  Every way in which it fails is one of three: a bound
is exceeded, or the first token that is not awaited is blamed, or the tokens end where more is
awaited.  Which fault is reported depends on nothing but what was awaited and on the token.

This holds of each category that the parser is built from, at any depth of parentheses.  To
go on from one operand to the next, two more facts are carried along: what has been read is a
phrase, and it is not followed by an operator that would continue it.
-/
import StackCalc.Proofs.ViablePrefix

namespace StackCalc

open Grammar

namespace Parser

/-! ### Blame -/

/-- Why a token that is not awaited is refused. -/
def faultAt : Awaits → Token → ParseFault
  | .operand _, t => refusal t
  | .operator 0, t => .trailing t.literal
  | .operator (_ + 1), t => .notParen t.literal
  | .nothing, t => .trailing t.literal

/-- Why the tokens must not end here. -/
def faultAtEnd : Awaits → ParseFault
  | .operand _ => .missingExpression
  | .operator _ => .missingParen
  | .nothing => .missingParen

/-- The error is what reading the tokens as an operand inside `depth` parentheses deserves. -/
inductive Blames (finish : Site) (depth : Nat) (ts : List Token) : ParseError → Prop
  | bound {err : ParseError} (h : err.fault = .tooNested ∨ err.fault = .tooTall) :
      Blames finish depth ts err
  | token {before after : List Token} {t : Token} {s : Awaits} (hts : ts = before ++ t :: after)
      (hs : (Awaits.operand depth).after before = some s) (ht : s.next t = none) :
      Blames finish depth ts ⟨faultAt s t, t.site⟩
  | finish {s : Awaits} (hs : (Awaits.operand depth).after ts = some s)
      (hmore : s ≠ .nothing ∧ s ≠ .operator 0) : Blames finish depth ts ⟨faultAtEnd s, finish⟩

/-- Tokens that were read before do not change what is blamed. -/
theorem Blames.behind {finish : Site} {depth depth' : Nat} {before ts : List Token}
    {err : ParseError} (h : Blames finish depth ts err)
    (hbefore : (Awaits.operand depth').after before = some (.operand depth)) :
    Blames finish depth' (before ++ ts) err := by
  cases h with
  | bound h => exact .bound h
  | @token before' after t s hts hs ht =>
      subst hts
      refine .token (List.append_assoc before before' (t :: after)).symm ?_ ht
      rw [Awaits.after_append_of_after hbefore]
      exact hs
  | finish hs hmore =>
      refine .finish ?_ hmore
      rw [Awaits.after_append_of_after hbefore]
      exact hs

theorem blames_checkHeight {finish : Site} {depth height : Nat} {ts : List Token} {blamed : Token}
    {err : ParseError} (h : checkHeight height blamed = .error err) :
    Blames finish depth ts err := by
  unfold checkHeight at h
  split at h
  · rw [← Except.error.inj h]
    exact .bound (Or.inr rfl)
  · simp at h

/-- No operand starts with the token. -/
theorem next_operand_eq_none {t : Token} (hsign : t.kind ∉ prefixOperators)
    (hliteral : t.kind.literalKind? = none) (hparen : t.kind ≠ .mark .leftParen) (depth : Nat) :
    (Awaits.operand depth).next t = none := by
  cases hnext : (Awaits.operand depth).next t with
  | none => rfl
  | some s =>
      cases Awaits.step_of_next hnext with
      | prefixed hop => exact absurd hop hsign
      | opener hopener => exact absurd hopener hparen
      | literal ht =>
          rw [(literalKind?_of_terminalOf ht).1] at hliteral
          simp at hliteral

/-- The token neither continues an expression nor ends it. -/
theorem next_operator_eq_none {t : Token} {depth : Nat} (hop : t.kind ∉ Rank.equality.operators)
    (hparen : t.kind = .mark .rightParen → depth = 0) (hdot : t.kind = .mark .dot → depth ≠ 0) :
    (Awaits.operator depth).next t = none := by
  cases hnext : (Awaits.operator depth).next t with
  | none => rfl
  | some s =>
      cases Awaits.step_of_next hnext with
      | operator h => exact absurd h hop
      | closer h => exact absurd (hparen h) (Nat.succ_ne_zero _)
      | dot h => exact absurd rfl (hdot h)

/-! ### Categories -/

/-- The parser reads phrases of the category, as far as they go, and blames what stops it. -/
structure Faithful (finish : Site) (rank : Rank) (budget : Nat) (category : Category) : Prop where
  sound : Sound rank budget category
  stops : ∀ {tokens : List Token} {p : Parsed tokens}, category tokens = .ok p →
    Stops rank p.rest
  blames : ∀ {tokens : List Token} {err : ParseError}, category tokens = .error err →
    ∀ depth, Blames finish depth tokens err

/-- What has been read takes the place of an operand. -/
theorem Reads.exists_read {rank : Rank} {budget : Nat} {tokens : List Token} {p : Parsed tokens}
    (h : Reads rank budget p) (depth : Nat) :
    ∃ read, tokens = read ++ p.rest ∧
      (Awaits.operand depth).after read = some (.operator depth) := by
  obtain ⟨read, hread, hderives⟩ := h.derives
  exact ⟨read, hread, hderives.after depth⟩

section Chain

variable {finish : Site} {rank inner : Rank} {level : Level} {budget : Nat} {operand : Category}

/-- A chain ends before a token that is no operator of its own, nor of its operands. -/
theorem chainFrom_stops (hrank : rank.joins = some (level, inner))
    (h : Faithful finish inner budget operand) {tokens : List Token} (left : Parsed tokens) :
    Stops inner left.rest → ∀ {p : Parsed tokens}, chainFrom level operand left = .ok p →
      Stops rank p.rest := by
  fun_induction chainFrom level operand left with
  | case1 left hrest =>
      intro _ p hp
      rw [← Except.ok.inj hp, hrest]
      exact stops_nil rank
  | case2 left op afterOp hrest haccepts ih =>
      intro _ p hp
      obtain ⟨right, hright, hp⟩ := bind_eq_ok hp
      obtain ⟨u, -, hp⟩ := bind_eq_ok hp
      have hstops := h.stops hright
      exact ih right hstops hp
  | case3 left op afterOp hrest haccepts =>
      intro hleft p hp
      rw [← Except.ok.inj hp]
      intro t ht hmem
      rcases (operators_of_joins hrank t.kind).mp hmem with hmem | hmem
      · rw [hrest, List.head?_cons, Option.mem_some_iff] at ht
        rw [← ht] at hmem
        exact haccepts (accepts_iff.mpr hmem)
      · exact hleft t ht hmem

/-- What stops a chain stops one of its operands, behind what was read before. -/
theorem chainFrom_blames (hrank : rank.joins = some (level, inner))
    (h : Faithful finish inner budget operand) {tokens : List Token} (left : Parsed tokens)
    {depth : Nat} {err : ParseError} :
    (∃ read, tokens = read ++ left.rest ∧
      (Awaits.operand depth).after read = some (.operator depth)) →
      chainFrom level operand left = .error err → Blames finish depth tokens err := by
  fun_induction chainFrom level operand left with
  | case1 left hrest =>
      intro _ herr
      cases herr
  | case2 left op afterOp hrest haccepts ih =>
      rintro ⟨read, hread, hafter⟩ herr
      have hop : Awaits.Step (.operator depth) op (.operand depth) :=
        .operator (mem_operators_of_joins hrank (accepts_iff.mp haccepts))
      rcases bind_eq_error herr with herr | ⟨right, hright, herr⟩
      · rw [hread, hrest, List.append_cons]
        refine (h.blames herr depth).behind ?_
        rw [Awaits.after_append_of_after hafter, hop.after_cons]
        rfl
      · rcases bind_eq_error herr with herr | ⟨u, -, herr⟩
        · exact blames_checkHeight herr
        · obtain ⟨read', hread', hafter'⟩ := (h.sound afterOp right hright).exists_read depth
          refine ih right ⟨read ++ op :: read', ?_, ?_⟩ herr
          · calc tokens = read ++ left.rest := hread
              _ = read ++ op :: afterOp := by rw [hrest]
              _ = read ++ op :: (read' ++ right.rest) := congrArg (fun ts => read ++ op :: ts) hread'
              _ = read ++ op :: read' ++ right.rest := by simp
          · rw [Awaits.after_append_of_after hafter, hop.after_cons]
            exact hafter'
  | case3 left op afterOp hrest haccepts =>
      intro _ herr
      cases herr

theorem Faithful.chain (hrank : rank.joins = some (level, inner))
    (h : Faithful finish inner budget operand) :
    Faithful finish rank budget (chain level operand) := by
  refine ⟨h.sound.chain hrank, ?_, ?_⟩
  · intro tokens p hp
    obtain ⟨first, hfirst, hp⟩ := bind_eq_ok hp
    exact chainFrom_stops hrank h first (h.stops hfirst) hp
  · intro tokens err herr depth
    rcases bind_eq_error herr with herr | ⟨first, hfirst, herr⟩
    · exact h.blames herr depth
    · exact chainFrom_blames hrank h first ((h.sound tokens first hfirst).exists_read depth) herr

end Chain

theorem Faithful.expressionOf {finish : Site} {budget : Nat} {operand : Category}
    (h : Faithful finish .unary budget operand) :
    Faithful finish .equality budget (expressionOf operand) :=
  have hfactor : Faithful finish .factor budget (Parser.chain .factor operand) := .chain rfl h
  have hterm : Faithful finish .term budget (Parser.chain .term _) := .chain rfl hfactor
  have hcomparison : Faithful finish .comparison budget (Parser.chain .comparison _) :=
    .chain rfl hterm
  .chain rfl hcomparison

/-! ### Operands -/

theorem blames_prefixed {finish : Site} {depth : Nat} {op : Token} {rest : List Token}
    {x : Parsed rest} {err : ParseError} (h : prefixed op x = .error err) :
    Blames finish depth (op :: rest) err := by
  rcases bind_eq_error h with herr | ⟨u, -, herr⟩
  · exact blames_checkHeight herr
  · cases herr

/-- An expression in parentheses must be followed by the one that closes. -/
theorem blames_closed {finish : Site} {budget depth : Nat} {opener : Token} {rest : List Token}
    {x : Parsed rest} {err : ParseError} (hopener : opener.kind = .mark .leftParen)
    (hx : Reads .equality budget x) (hstops : Stops .equality x.rest)
    (h : closed finish opener x = .error err) : Blames finish depth (opener :: rest) err := by
  obtain ⟨read, hread, hafter⟩ := hx.exists_read (depth + 1)
  have hopened : (Awaits.operand depth).after (opener :: read) = some (.operator (depth + 1)) := by
    rw [(Awaits.Step.opener hopener).after_cons]
    exact hafter
  cases hrest : x.rest with
  | nil =>
      rw [closed_of_nil hrest] at h
      rw [← Except.error.inj h]
      rw [hrest, List.append_nil] at hread
      rw [hread]
      exact .finish hopened ⟨by simp, by simp⟩
  | cons t afterParen =>
      by_cases hcloser : t.kind = .mark .rightParen
      · obtain ⟨p, hp, -⟩ := closed_of_paren finish opener hrest hcloser
        rw [hp] at h
        rcases bind_eq_error h with herr | ⟨u, -, herr⟩
        · exact blames_checkHeight herr
        · cases herr
      · rw [closed_of_other finish opener hrest hcloser] at h
        rw [← Except.error.inj h]
        rw [hrest] at hread hstops
        refine .token (congrArg (opener :: ·) hread) hopened ?_
        exact next_operator_eq_none (hstops t rfl) (fun hparen => absurd hparen hcloser) (by simp)

/-- An operand puts the blame right if the operands one level further in do. -/
theorem operandStep_blames {finish : Site} {inner : Option Category} {budget : Nat}
    (hinner : ∀ operand, inner = some operand → Faithful finish .unary budget operand)
    {tokens : List Token} {err : ParseError} (h : operandStep finish inner tokens = .error err)
    (depth : Nat) : Blames finish depth tokens err := by
  cases tokens with
  | nil =>
      rw [← Except.error.inj h]
      exact @Blames.finish finish depth [] (.operand depth) rfl ⟨by simp, by simp⟩
  | cons t rest =>
      simp only [operandStep] at h
      split at h
      · rename_i hop
        split at h
        · rw [← Except.error.inj h]
          exact .bound (Or.inl rfl)
        · rename_i operand
          have hstep : Awaits.Step (.operand depth) t (.operand depth) :=
            .prefixed (isPrefixOperator_iff.mp hop)
          rcases bind_eq_error h with herr | ⟨x, -, herr⟩
          · exact ((hinner operand rfl).blames herr depth).behind (hstep.after_cons [])
          · exact blames_prefixed herr
      · rename_i hsign
        split at h
        · cases h
        · rename_i hliteral
          split at h
          · rename_i hopener
            split at h
            · rw [← Except.error.inj h]
              exact .bound (Or.inl rfl)
            · rename_i operand
              have hexpression := (hinner operand rfl).expressionOf
              rcases bind_eq_error h with herr | ⟨x, hx, herr⟩
              · exact (hexpression.blames herr (depth + 1)).behind
                  ((Awaits.Step.opener hopener).after_cons [])
              · exact blames_closed hopener (hexpression.sound rest x hx) (hexpression.stops hx) herr
          · rename_i hparen
            rw [← Except.error.inj h]
            have hnext := next_operand_eq_none (mt isPrefixOperator_iff.mpr hsign) hliteral hparen
              depth
            exact @Blames.token finish depth (t :: rest) [] rest t (.operand depth) rfl rfl hnext

theorem faithful_operand (finish : Site) (budget : Nat) :
    Faithful finish .unary budget (operand finish budget) := by
  -- Nothing continues an operand, so it may be followed by anything.
  have hstops : ∀ rest, Stops .unary rest := fun rest t _ => List.not_mem_nil
  induction budget with
  | zero =>
      refine ⟨operand_sound finish 0, fun _ => hstops _, ?_⟩
      intro tokens err herr
      refine @operandStep_blames finish none 0 ?_ tokens err herr
      intro operand h
      cases h
  | succ budget ih =>
      refine ⟨operand_sound finish (budget + 1), fun _ => hstops _, ?_⟩
      intro tokens err herr
      refine @operandStep_blames finish (some (operand finish budget)) budget ?_ tokens err herr
      intro operand h
      rw [← Option.some.inj h]
      exact ih

/-! ### Whole programs -/

/-- **The parser blames the first token that is not awaited**, or the end of the tokens where
more is awaited, unless a bound is exceeded before. -/
theorem blames_ofTokens {ts : List Token} {err : ParseError} (h : Expr.ofTokens ts = .error err) :
    Blames (endOf ts) 0 ts err := by
  have hexpression := (faithful_operand (endOf ts) maxNesting).expressionOf
  rcases bind_eq_error h with herr | ⟨p, hp, herr⟩
  · exact hexpression.blames herr 0
  · obtain ⟨read, hread, hafter⟩ := (hexpression.sound ts p hp).exists_read 0
    have hstops := hexpression.stops hp
    cases hrest : p.rest with
    | nil =>
        rw [hrest] at herr
        cases herr
    | cons t rest =>
        rw [hrest] at hread hstops herr
        by_cases hdot : t.kind = .mark .dot
        · rw [dropDot, if_pos hdot] at herr
          cases rest with
          | nil => cases herr
          | cons u rest =>
              rw [← Except.error.inj herr]
              rw [List.append_cons] at hread
              refine @Blames.token (endOf ts) 0 ts (read ++ [t]) rest u .nothing hread ?_ rfl
              rw [Awaits.after_append_of_after hafter, (Awaits.Step.dot hdot).after_cons]
              rfl
        · rw [dropDot, if_neg hdot] at herr
          rw [← Except.error.inj herr]
          have hnext := @next_operator_eq_none t 0 (hstops t rfl) (fun _ => rfl)
            (fun h => absurd h hdot)
          exact @Blames.token (endOf ts) 0 ts read rest t (.operator 0) hread hafter hnext

/-! ### What is reported -/

/-- The token belongs to statements and declarations: a name, one of their words, or the sign
of an assignment. -/
def OfStatements (kind : TokenKind) : Prop :=
  kind = .identifier ∨ kind = .mark .assign ∨
    ∃ word ∈ [Keyword.varWord, .constWord, .procedureWord, .callWord, .beginWord, .endWord, .ifWord,
      .thenWord, .elseWord, .whileWord, .doWord, .forWord, .printWord], kind = .keyword word

theorem isStatementWord_iff {kind : TokenKind} :
    kind.isStatementWord = true ↔ OfStatements kind ∧ kind ≠ .identifier := by
  cases kind with
  | keyword word => cases word <;> simp [TokenKind.isStatementWord, OfStatements]
  | mark m => cases m <;> simp [TokenKind.isStatementWord, OfStatements]
  | number n => simp [TokenKind.isStatementWord, OfStatements]
  | string => simp [TokenKind.isStatementWord, OfStatements]
  | identifier => simp [TokenKind.isStatementWord]

/-- A word of statements is told from other tokens that start no operand. -/
theorem code_refusal (t : Token) :
    (refusal t).code ∈ ["PL0-P001", "PL0-P003"] ∧
      ((refusal t).code = "PL0-P003" ↔ OfStatements t.kind) := by
  unfold refusal
  by_cases hname : t.kind = .identifier
  · rw [if_pos hname]
    simp [ParseFault.code, OfStatements, hname]
  · rw [if_neg hname]
    by_cases hword : t.kind.isStatementWord = true
    · rw [if_pos hword]
      simp [ParseFault.code, (isStatementWord_iff.mp hword).1]
    · rw [if_neg hword]
      have hkind : ¬ OfStatements t.kind := fun h => hword (isStatementWord_iff.mpr ⟨h, hname⟩)
      simp [ParseFault.code, hkind]

/-- That is done only where an operand is awaited. -/
theorem code_faultAt (s : Awaits) (t : Token) :
    (faultAt s t).code ∈ ["PL0-P001", "PL0-P003"] ∧
      ((faultAt s t).code = "PL0-P003" ↔ (∃ depth, s = .operand depth) ∧ OfStatements t.kind) := by
  cases s with
  | operand depth => simpa [faultAt] using code_refusal t
  | operator depth => cases depth <;> simp [faultAt, ParseFault.code]
  | nothing => simp [faultAt, ParseFault.code]

theorem code_faultAtEnd (s : Awaits) : (faultAtEnd s).code = "PL0-P002" := by
  cases s <;> rfl

/-- The input ends just past its last token. -/
theorem endOf_of_getLast? {ts : List Token} {last : Token} (h : ts.getLast? = some last)
    (hspan : last.site.span.start ≤ last.site.span.stop) :
    endOf ts = ⟨⟨last.site.position.line,
        (last.site.position.column + (last.site.span.stop - last.site.span.start)) % wordValues⟩,
      ⟨last.site.span.stop, last.site.span.stop⟩⟩ := by
  unfold endOf
  rw [h]
  have hcolumn : (last.site.position.column + last.site.span.stop : Int) - last.site.span.start =
      (last.site.position.column + (last.site.span.stop - last.site.span.start) : Nat) := by
    omega
  simp only [hcolumn, ← Int.natCast_emod, Int.toNat_natCast]

/-- A token that is blamed is the first one that no program goes on with. -/
theorem first_impossible {before after : List Token} {t : Token} {s : Awaits}
    (hs : (Awaits.operand 0).after before = some s) (ht : s.next t = none) :
    Viable ((before ++ t :: after).take before.length) ∧
      ¬ Viable ((before ++ t :: after).take (before.length + 1)) := by
  rw [List.take_left' rfl, List.take_length_add_append, List.take_succ_cons, List.take_zero]
  refine ⟨viable_iff.mpr ⟨s, hs⟩, ?_⟩
  intro hviable
  obtain ⟨s', hafter⟩ := hviable.exists_after
  rw [Awaits.after_append_of_after hs, Awaits.after_cons, ht] at hafter
  cases hafter

/-- **Parse errors blame the first impossible token.**  A refused token has its own site
reported; what stands before it begins a program and with it no more, and the code tells
whether a word of statements stands where an operand was expected.  Where input is missing,
all of it begins a program and is none, and the place just past its end is reported.  Columns
are words of 64 bits. -/
theorem ofTokens_eq_error {ts : List Token} {err : ParseError}
    (h : Expr.ofTokens ts = .error err) :
    err.code ∈ ["PL0-P001", "PL0-P002", "PL0-P003", "PL0-P004"] ∧
    (err.code = "PL0-P001" ∨ err.code = "PL0-P003" →
      ∃ i t, ts[i]? = some t ∧ err.site = t.site ∧ Viable (ts.take i) ∧
        ¬ Viable (ts.take (i + 1)) ∧
        (err.code = "PL0-P003" ↔ OperandNext (ts.take i) ∧ OfStatements t.kind)) ∧
    (err.code = "PL0-P002" →
      Viable ts ∧ (¬ ∃ e, Program ts e) ∧ (ts = [] → err.site = ⟨⟨1, 1⟩, ⟨0, 0⟩⟩) ∧
      ∀ last ∈ ts.getLast?, last.site.span.start ≤ last.site.span.stop →
        err.site.span = ⟨last.site.span.stop, last.site.span.stop⟩ ∧
        err.site.position.line = last.site.position.line ∧
        err.site.position.column =
          (last.site.position.column + (last.site.span.stop - last.site.span.start)) %
            wordValues ∧
        (last.site.position.column + (last.site.span.stop - last.site.span.start) < wordValues →
          err.site.position.column =
            last.site.position.column + (last.site.span.stop - last.site.span.start))) := by
  cases blames_ofTokens h with
  | bound hbound =>
      have hcode : err.code = "PL0-P004" := by
        rcases hbound with hfault | hfault <;> simp [ParseError.code, hfault, ParseFault.code]
      simp [hcode]
  | @token before after t s hts hs ht =>
      obtain ⟨hbefore, hthrough⟩ := @first_impossible before after t s hs ht
      obtain ⟨hcodes, hcode⟩ := code_faultAt s t
      have hmissing : (faultAt s t).code ≠ "PL0-P002" := by
        intro hmissing
        rw [hmissing] at hcodes
        simp at hcodes
      subst hts
      refine ⟨?_, fun _ => ⟨before.length, t, by simp, rfl, hbefore, hthrough, ?_⟩,
        fun h => absurd h hmissing⟩
      · exact List.Sublist.subset (by decide) hcodes
      · rw [List.take_left' rfl, operandNext_iff hs]
        exact hcode
  | @finish s hs hmore =>
      have hcode : (ParseError.mk (faultAtEnd s) (endOf ts)).code = "PL0-P002" := code_faultAtEnd s
      refine ⟨by simp [hcode], by simp [hcode], fun _ => ⟨viable_iff.mpr ⟨s, hs⟩, ?_, ?_, ?_⟩⟩
      · rintro ⟨e, hprogram⟩
        rcases hprogram.after with hafter | hafter
        · exact hmore.2 (Option.some.inj (hs.symm.trans hafter))
        · exact hmore.1 (Option.some.inj (hs.symm.trans hafter))
      · rintro rfl
        rfl
      · intro last hlast hspan
        rw [endOf_of_getLast? hlast hspan]
        exact ⟨rfl, rfl, rfl, fun hfits => Nat.mod_eq_of_lt hfits⟩

/-- The tokens of `(1-`, on two lines. -/
def openDifference : List Token :=
  [⟨.mark .leftParen, "(", ⟨⟨1, 1⟩, ⟨0, 1⟩⟩⟩, ⟨.number .integer, "1", ⟨⟨1, 2⟩, ⟨1, 2⟩⟩⟩,
    ⟨.mark .minus, "-", ⟨⟨2, 3⟩, ⟨5, 6⟩⟩⟩]

/-- A sign of assignment right behind it. -/
def assignSign : Token :=
  ⟨.mark .assign, ":=", ⟨⟨2, 4⟩, ⟨6, 8⟩⟩⟩

/-- After the minus an operand is expected, so a sign of assignment is the first impossible
token; and where the tokens end there, the place after the minus is reported. -/
theorem ofTokens_openDifference :
    Expr.ofTokens (openDifference ++ [assignSign]) = .error ⟨.unsupported ":=", assignSign.site⟩ ∧
      (∃ i t, (openDifference ++ [assignSign])[i]? = some t ∧ t.site = assignSign.site ∧
        OperandNext ((openDifference ++ [assignSign]).take i)) ∧
      Expr.ofTokens openDifference = .error ⟨.missingExpression, ⟨⟨2, 4⟩, ⟨6, 6⟩⟩⟩ ∧
      Viable openDifference ∧ ¬ ∃ e, Program openDifference e := by
  have hrefused : Expr.ofTokens (openDifference ++ [assignSign]) =
      .error ⟨.unsupported ":=", assignSign.site⟩ := by
    cbv
  have hmissing : Expr.ofTokens openDifference =
      .error ⟨.missingExpression, ⟨⟨2, 4⟩, ⟨6, 6⟩⟩⟩ := by
    cbv
  obtain ⟨i, t, hi, hsite, -, -, hcode⟩ := (ofTokens_eq_error hrefused).2.1 (Or.inr rfl)
  obtain ⟨hviable, hnot, -⟩ := (ofTokens_eq_error hmissing).2.2 rfl
  exact ⟨hrefused, ⟨i, t, hi, hsite.symm, (hcode.mp rfl).1⟩, hmissing, hviable, hnot⟩

end Parser

end StackCalc
