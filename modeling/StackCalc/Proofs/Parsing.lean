/-
The parser reads the grammar.

Both directions rest on one parser for each category of the grammar, all built from the
parser for operands.  A parser that succeeds has read a phrase of its category from the
front of the tokens, and the tree is that of the phrase, with its height counted right and
both bounds kept; here the loop over a chain adds one link at a time.  Conversely, a phrase
whose tree keeps the bounds, followed by something that does not continue it, is read whole.
The second is by induction on the derivation, for every budget that the tree's nesting
allows, because an operand behind an opener is read with a smaller one.
-/
import StackCalc.Proofs.Except
import StackCalc.Proofs.GrammarTree

namespace StackCalc

open Grammar

namespace Parser

/-! ### The classes of tokens -/

theorem accepts_iff {level : Level} {kind : TokenKind} :
    level.accepts kind = true ↔ kind ∈ operatorsOf level := by
  cases kind <;> cases level <;>
    simp [Level.accepts, Level.operators, operatorsOf]

theorem isPrefixOperator_iff {kind : TokenKind} :
    kind.isPrefixOperator = true ↔ kind ∈ prefixOperators := by
  unfold TokenKind.isPrefixOperator prefixOperators
  split <;> simp_all

theorem literalKind?_eq_some_iff {t : Token} {kind : LiteralKind} :
    t.kind.literalKind? = some kind ↔ terminalOf t = .literal kind t.literal := by
  unfold TokenKind.literalKind? terminalOf
  split <;> simp_all

theorem literalKind?_of_terminalOf {t : Token} {kind : LiteralKind} {text : String}
    (h : terminalOf t = .literal kind text) :
    t.kind.literalKind? = some kind ∧ t.literal = text := by
  have htext : t.literal = text := by
    unfold terminalOf at h
    split at h <;> simp_all
  subst htext
  exact ⟨literalKind?_eq_some_iff.mpr h, rfl⟩

/-! ### One parser for each category -/

/-- The parser for a category, given how an operand is read. -/
def parserOf (operand : Category) : Rank → Category
  | .equality => expressionOf operand
  | .comparison => chain .comparison (chain .term (chain .factor operand))
  | .term => chain .term (chain .factor operand)
  | .factor => chain .factor operand
  | .unary => operand
  | .primary => operand

theorem parserOf_joins {rank inner : Rank} {level : Level}
    (hrank : rank.joins = some (level, inner)) (operand : Category) :
    parserOf operand rank = chain level (parserOf operand inner) := by
  cases rank <;> cases hrank <;> rfl

/-- How operands behind an opener are read, if there may be any. -/
def innerOf (finish : Site) : Nat → Option Category
  | 0 => none
  | budget + 1 => some (operand finish budget)

theorem operand_eq (finish : Site) (budget : Nat) :
    operand finish budget = operandStep finish (innerOf finish budget) := by
  cases budget <;> rfl

theorem checkHeight_eq_ok {height : Nat} {blamed : Token} {u : Unit}
    (h : checkHeight height blamed = .ok u) : height ≤ maxHeight := by
  unfold checkHeight at h
  split at h
  · simp at h
  · omega

theorem checkHeight_of_le {height : Nat} (h : height ≤ maxHeight) (blamed : Token) :
    checkHeight height blamed = .ok () := by
  unfold checkHeight
  rw [if_neg (by omega)]

section ChainFrom

variable (level : Level) (operand : Category) {tokens : List Token} {left : Parsed tokens}
  {op : Token} {afterOp : List Token}

theorem chainFrom_of_nil (hrest : left.rest = []) : chainFrom level operand left = .ok left := by
  rw [chainFrom]
  split
  · rfl
  · rename_i hcons
    rw [hcons] at hrest
    simp at hrest

theorem chainFrom_of_refused (hrest : left.rest = op :: afterOp)
    (hop : ¬ level.accepts op.kind = true) : chainFrom level operand left = .ok left := by
  rw [chainFrom]
  split
  · rfl
  · rename_i op' afterOp' hcons
    obtain ⟨rfl, rfl⟩ := List.cons.inj (hcons.symm.trans hrest)
    rw [if_neg hop]

/-- With an operator ahead, the chain grows by an operand and goes on. -/
theorem chainFrom_of_accepted (hrest : left.rest = op :: afterOp)
    (hop : level.accepts op.kind = true) :
    ∃ grown : Parsed afterOp → Parsed tokens,
      (chainFrom level operand left = do
        let right ← operand afterOp
        checkHeight (max left.height right.height + 1) op
        chainFrom level operand (grown right)) ∧
      ∀ right, (grown right).expr = joined level op left.expr right.expr ∧
        (grown right).height = max left.height right.height + 1 ∧
        (grown right).rest = right.rest := by
  rw [chainFrom]
  split
  · rename_i hnil
    rw [hnil] at hrest
    simp at hrest
  · rename_i op' afterOp' hcons
    obtain ⟨rfl, rfl⟩ := List.cons.inj (hcons.symm.trans hrest)
    rw [if_pos hop]
    exact ⟨_, rfl, fun _ => ⟨rfl, rfl, rfl⟩⟩

end ChainFrom

section Closed

variable (finish : Site) (opener : Token) {rest : List Token} {x : Parsed rest} {t : Token}
  {after : List Token}

theorem closed_of_nil {finish : Site} {opener : Token} (hrest : x.rest = []) :
    closed finish opener x = .error ⟨.missingParen, finish⟩ := by
  rw [closed]
  split
  · rfl
  · rename_i hcons
    rw [hcons] at hrest
    simp at hrest

theorem closed_of_other (hrest : x.rest = t :: after) (ht : t.kind ≠ .mark .rightParen) :
    closed finish opener x = .error ⟨.notParen t.literal, t.site⟩ := by
  rw [closed]
  split
  · rename_i hnil
    rw [hnil] at hrest
    simp at hrest
  · rename_i t' after' hcons
    obtain ⟨rfl, rfl⟩ := List.cons.inj (hcons.symm.trans hrest)
    rw [if_neg ht]

theorem closed_of_paren (hrest : x.rest = t :: after) (ht : t.kind = .mark .rightParen) :
    ∃ p : Parsed (opener :: rest),
      closed finish opener x = (checkHeight (x.height + 1) opener >>= fun _ => .ok p) ∧
      p.expr = .grouping ⟨opener.site.position, opener.site.span.merge t.site.span⟩ x.expr ∧
      p.height = x.height + 1 ∧ p.rest = after := by
  rw [closed]
  split
  · rename_i hnil
    rw [hnil] at hrest
    simp at hrest
  · rename_i t' after' hcons
    obtain ⟨rfl, rfl⟩ := List.cons.inj (hcons.symm.trans hrest)
    rw [if_pos ht]
    exact ⟨_, rfl, rfl, rfl, rfl⟩

end Closed

/-! ### What has been read is a phrase -/

/-- A phrase of the category has been read from the front of the tokens, within the
bounds. -/
structure Reads (rank : Rank) (budget : Nat) {tokens : List Token} (p : Parsed tokens) : Prop where
  derives : ∃ read, tokens = read ++ p.rest ∧ Derives rank read p.expr
  /-- The height that is carried along is that of the tree. -/
  height : p.height = p.expr.height
  short : p.expr.height ≤ maxHeight
  nesting : p.expr.nesting ≤ budget

/-- The parser only reads phrases of the category. -/
def Sound (rank : Rank) (budget : Nat) (category : Category) : Prop :=
  ∀ (tokens : List Token) (p : Parsed tokens), category tokens = .ok p → Reads rank budget p

theorem Reads.ofInner {rank inner : Rank} {level : Level} {budget : Nat} {tokens : List Token}
    {p : Parsed tokens} (hrank : rank.joins = some (level, inner)) (h : Reads inner budget p) :
    Reads rank budget p := by
  obtain ⟨read, hread, hderives⟩ := h.derives
  exact ⟨⟨read, hread, hderives.ofInner hrank⟩, h.height, h.short, h.nesting⟩

theorem chainFrom_reads {rank inner : Rank} {level : Level} {budget : Nat} {operand : Category}
    (hrank : rank.joins = some (level, inner)) (hoperand : Sound inner budget operand)
    {tokens : List Token} (left : Parsed tokens) :
    Reads rank budget left → ∀ {p : Parsed tokens}, chainFrom level operand left = .ok p →
      Reads rank budget p := by
  fun_induction chainFrom level operand left with
  | case1 left hrest =>
      intro hleft p h
      rw [← Except.ok.inj h]
      exact hleft
  | case2 left op afterOp hrest haccepts ih =>
      intro hleft p h
      obtain ⟨right, hright, h⟩ := bind_eq_ok h
      obtain ⟨u, hheight, h⟩ := bind_eq_ok h
      have hright := hoperand afterOp right hright
      obtain ⟨read, hread, hderives⟩ := hleft.derives
      obtain ⟨read', hread', hderives'⟩ := hright.derives
      have hbound := checkHeight_eq_ok hheight
      rw [hleft.height, hright.height] at hbound
      refine ih right ⟨⟨read ++ op :: read', ?_, ?_⟩, ?_, hbound, ?_⟩ h
      · calc tokens = read ++ left.rest := hread
          _ = read ++ op :: afterOp := by rw [hrest]
          _ = read ++ op :: (read' ++ right.rest) := congrArg (fun ts => read ++ op :: ts) hread'
          _ = read ++ op :: read' ++ right.rest := by simp
      · exact hderives.snoc hrank (accepts_iff.mp haccepts) hderives'
      · show max left.height right.height + 1 = max left.expr.height right.expr.height + 1
        rw [hleft.height, hright.height]
      · exact Nat.max_le.mpr ⟨hleft.nesting, hright.nesting⟩
  | case3 left op afterOp hrest haccepts =>
      intro hleft p h
      rw [← Except.ok.inj h]
      exact hleft

/-- A chain of operands is read soundly if an operand is. -/
theorem Sound.chain {rank inner : Rank} {level : Level} {budget : Nat} {operand : Category}
    (hrank : rank.joins = some (level, inner)) (h : Sound inner budget operand) :
    Sound rank budget (chain level operand) := by
  intro tokens p hp
  obtain ⟨first, hfirst, hp⟩ := bind_eq_ok hp
  exact chainFrom_reads hrank h first ((h tokens first hfirst).ofInner hrank) hp

theorem Sound.parserOf {budget : Nat} {operand : Category} (h : Sound .unary budget operand) :
    Sound .equality budget (parserOf operand .equality) :=
  have hfactor : Sound .factor budget (Parser.chain .factor operand) := .chain rfl h
  have hterm : Sound .term budget (Parser.chain .term _) := .chain rfl hfactor
  have hcomparison : Sound .comparison budget (Parser.chain .comparison _) := .chain rfl hterm
  .chain rfl hcomparison

theorem prefixed_reads {op : Token} {rest : List Token} {x : Parsed rest} {budget : Nat}
    {p : Parsed (op :: rest)} (hop : op.kind.isPrefixOperator = true) (hx : Reads .unary budget x)
    (h : prefixed op x = .ok p) : Reads .unary (budget + 1) p := by
  obtain ⟨u, hheight, h⟩ := bind_eq_ok h
  obtain ⟨read, hread, hderives⟩ := hx.derives
  have hbound := checkHeight_eq_ok hheight
  rw [hx.height] at hbound
  rw [← Except.ok.inj h]
  refine ⟨⟨op :: read, ?_, ?_⟩, ?_, hbound, Nat.succ_le_succ hx.nesting⟩
  · exact congrArg (op :: ·) hread
  · exact .prefixed (isPrefixOperator_iff.mp hop) hderives
  · show x.height + 1 = x.expr.height + 1
    rw [hx.height]

theorem closed_reads {finish : Site} {opener : Token} {rest : List Token} {x : Parsed rest}
    {budget : Nat} {p : Parsed (opener :: rest)} (hopener : opener.kind = .mark .leftParen)
    (hx : Reads .equality budget x) (h : closed finish opener x = .ok p) :
    Reads .unary (budget + 1) p := by
  obtain ⟨read, hread, hderives⟩ := hx.derives
  cases hrest : x.rest with
  | nil =>
      rw [closed_of_nil hrest] at h
      simp at h
  | cons t afterParen =>
      by_cases hcloser : t.kind = .mark .rightParen
      · obtain ⟨q, hq, hexpr, hheight, hafter⟩ := closed_of_paren finish opener hrest hcloser
        rw [hq] at h
        obtain ⟨u, hcheck, h⟩ := bind_eq_ok h
        have hbound := checkHeight_eq_ok hcheck
        rw [hx.height] at hbound
        rw [← Except.ok.inj h]
        refine ⟨⟨opener :: read ++ [t], ?_, ?_⟩, ?_, ?_, ?_⟩
        · rw [hrest] at hread
          simp [hread, hafter]
        · rw [hexpr]
          exact .primary (.grouping hopener hcloser hderives)
        · rw [hheight, hexpr, hx.height]
          rfl
        · rw [hexpr]
          exact hbound
        · rw [hexpr]
          exact Nat.succ_le_succ hx.nesting
      · rw [closed_of_other finish opener hrest hcloser] at h
        simp at h

/-- An operand is read soundly if the operands one level further in are. -/
theorem operandStep_sound {finish : Site} {inner : Option Category} {budget : Nat}
    (hinner : ∀ operand, inner = some operand →
      ∃ b, budget = b + 1 ∧ Sound .unary b operand) :
    Sound .unary budget (operandStep finish inner) := by
  intro tokens p h
  cases tokens with
  | nil => cases h
  | cons t rest =>
      simp only [operandStep] at h
      split at h
      · rename_i hop
        split at h
        · simp at h
        · rename_i operand
          obtain ⟨b, rfl, hsound⟩ := hinner operand rfl
          obtain ⟨x, hx, h⟩ := bind_eq_ok h
          exact prefixed_reads hop (hsound rest x hx) h
      · split at h
        · rename_i kind hkind
          rw [← Except.ok.inj h]
          refine ⟨⟨[t], rfl, ?_⟩, rfl, ?_, Nat.zero_le _⟩
          · exact .primary (.literal (literalKind?_eq_some_iff.mp hkind))
          · show 2 ≤ 1024
            omega
        · split at h
          · rename_i hopener
            split at h
            · simp at h
            · rename_i operand
              obtain ⟨b, rfl, hsound⟩ := hinner operand rfl
              obtain ⟨x, hx, h⟩ := bind_eq_ok h
              exact closed_reads hopener (hsound.parserOf rest x hx) h
          · simp at h

/-- **An operand that is read is a phrase**, with at most `budget` openers inside one
another. -/
theorem operand_sound (finish : Site) : ∀ budget, Sound .unary budget (operand finish budget) := by
  intro budget
  induction budget with
  | zero =>
      refine operandStep_sound ?_
      intro operand h
      simp at h
  | succ budget ih =>
      refine operandStep_sound ?_
      intro operand h
      obtain rfl := Option.some.inj h
      exact ⟨budget, rfl, ih⟩

/-! ### A phrase is read whole -/

/-- The outcome is the tree, with nothing read but its phrase. -/
def Gives {tokens : List Token} (outcome : Except ParseError (Parsed tokens)) (e : Expr)
    (rest : List Token) : Prop :=
  ∃ p, outcome = .ok p ∧ p.expr = e ∧ p.height = e.height ∧ p.rest = rest

/-- The tree of a chain is no lower than its parts, and no less nested. -/
theorem le_fold (level : Level) :
    ∀ (links : List Link) (first : Expr),
      (first.height ≤ (fold level first links).height ∧
        first.nesting ≤ (fold level first links).nesting) ∧
      ∀ k ∈ links, k.operand.height ≤ (fold level first links).height ∧
        k.operand.nesting ≤ (fold level first links).nesting := by
  intro links
  induction links with
  | nil => intro first; simp
  | cons k links ih =>
      intro first
      rw [fold_cons]
      obtain ⟨⟨hheight, hnesting⟩, hrest⟩ := ih (joined level k.op first k.operand)
      have hjoined : (joined level k.op first k.operand).height =
          max first.height k.operand.height + 1 := rfl
      have hjoined' : (joined level k.op first k.operand).nesting =
          max first.nesting k.operand.nesting := rfl
      refine ⟨⟨by omega, by omega⟩, ?_⟩
      intro j hj
      rcases List.mem_cons.mp hj with rfl | hj
      · exact ⟨by omega, by omega⟩
      · exact hrest j hj

/-- The loop over a chain reads all of its links and then stops. -/
theorem chainFrom_gives {rank inner : Rank} {level : Level} {operand : Category}
    (hrank : rank.joins = some (level, inner)) {rest : List Token} (hrest : Stops rank rest) :
    ∀ {links : List Link} {tokens : List Token} (left : Parsed tokens),
      left.height = left.expr.height → left.rest = links.flatMap Link.phrase ++ rest →
      (∀ k ∈ links, k.op.kind ∈ operatorsOf level) →
      (∀ k ∈ links, ∀ tail, Stops inner tail →
        Gives (operand (k.tokens ++ tail)) k.operand tail) →
      (fold level left.expr links).height ≤ maxHeight →
      Gives (chainFrom level operand left) (fold level left.expr links) rest := by
  intro links
  induction links with
  | nil =>
      intro tokens left hheight hleft _ _ _
      refine ⟨left, ?_, rfl, hheight, hleft⟩
      cases hop : left.rest with
      | nil => exact chainFrom_of_nil level operand hop
      | cons op afterOp =>
          -- An operator of this level would have to be among the links.
          refine chainFrom_of_refused level operand hop ?_
          intro haccepts
          have hhead : op ∈ rest.head? := by
            rw [← List.nil_append rest, ← List.flatMap_nil (f := Link.phrase), ← hleft, hop]
            rfl
          exact hrest op hhead
            ((operators_of_joins hrank op.kind).mpr (Or.inl (accepts_iff.mp haccepts)))
  | cons k links ih =>
      intro tokens left hheight hleft hops hoperands hbound
      have htail : ∀ j ∈ links, j.op.kind ∈ operatorsOf level := fun j hj => hops j (by simp [hj])
      have hnext : left.rest = k.op :: (k.tokens ++ (links.flatMap Link.phrase ++ rest)) := by
        rw [hleft]
        simp [Link.phrase]
      obtain ⟨grown, hgrown, hparts⟩ :=
        chainFrom_of_accepted level operand hnext (accepts_iff.mpr (hops k (by simp)))
      obtain ⟨right, hright, hexpr, hrightHeight, hrightRest⟩ :=
        hoperands k (by simp) _ (stops_links hrank htail hrest)
      obtain ⟨hgrownExpr, hgrownHeight, hgrownRest⟩ := hparts right
      rw [hexpr] at hgrownExpr
      have hnode : max left.height right.height + 1 =
          (joined level k.op left.expr k.operand).height := by
        rw [hheight, hrightHeight]
        rfl
      rw [fold_cons] at hbound ⊢
      have hle := Nat.le_trans (le_fold level links _).1.1 hbound
      rw [← hnode] at hle
      rw [hgrown, hright]
      show Gives (checkHeight (max left.height right.height + 1) k.op >>= _) _ _
      rw [checkHeight_of_le hle, ← hgrownExpr]
      refine ih (grown right) ?_ (hgrownRest.trans hrightRest) htail
        (fun j hj => hoperands j (by simp [hj])) ?_
      · rw [hgrownHeight, hnode, hgrownExpr]
      · rw [hgrownExpr]
        exact hbound

theorem operandStep_literal {t : Token} {kind : LiteralKind} {text : String}
    (ht : terminalOf t = .literal kind text) (finish : Site) (inner : Option Category)
    (rest : List Token) :
    Gives (operandStep finish inner (t :: rest)) (.primary t.site (.literal t.site kind text))
      rest := by
  have hnot : ¬ t.kind.isPrefixOperator = true := by
    intro hop
    rw [terminalOf_prefixOperator (isPrefixOperator_iff.mp hop)] at ht
    simp at ht
  obtain ⟨hkind, rfl⟩ := literalKind?_of_terminalOf ht
  simp only [operandStep, if_neg hnot, hkind]
  exact ⟨_, rfl, rfl, rfl, rfl⟩

theorem operandStep_prefixed {op : Token} {rest tail : List Token} {e : Expr} {operand : Category}
    (hop : op.kind ∈ prefixOperators) (he : Gives (operand rest) e tail)
    (hbound : e.height + 1 ≤ maxHeight) (finish : Site) :
    Gives (operandStep finish (some operand) (op :: rest))
      (.unary ⟨op.site.position, op.site.span.merge e.site.span⟩ op.kind e) tail := by
  obtain ⟨x, hx, rfl, hheight, hrest⟩ := he
  simp only [operandStep, if_pos (isPrefixOperator_iff.mpr hop), hx]
  show Gives (checkHeight (x.height + 1) op >>= _) _ _
  rw [checkHeight_of_le (by rw [hheight]; exact hbound)]
  exact ⟨_, rfl, rfl, congrArg (· + 1) hheight, hrest⟩

theorem operandStep_grouping {opener closer : Token} {rest tail : List Token} {e : Expr}
    {operand : Category} (hopener : opener.kind = .mark .leftParen)
    (hcloser : closer.kind = .mark .rightParen)
    (he : Gives (expressionOf operand rest) e (closer :: tail))
    (hbound : e.height + 1 ≤ maxHeight) (finish : Site) :
    Gives (operandStep finish (some operand) (opener :: rest))
      (.grouping ⟨opener.site.position, opener.site.span.merge closer.site.span⟩ e) tail := by
  obtain ⟨x, hx, rfl, hheight, hrest⟩ := he
  have hnot : ¬ opener.kind.isPrefixOperator = true := by rw [hopener]; decide
  have hnone : opener.kind.literalKind? = none := by rw [hopener]; rfl
  simp only [operandStep, if_neg hnot, hnone, if_pos hopener, hx]
  show Gives (closed finish opener x) _ _
  obtain ⟨p, hp, hexpr, hpHeight, hpRest⟩ := closed_of_paren finish opener hrest hcloser
  rw [hp, checkHeight_of_le (by rw [hheight]; exact hbound)]
  refine ⟨p, rfl, hexpr, ?_, hpRest⟩
  rw [hpHeight, hheight]
  rfl

/-- **A phrase whose tree keeps the bounds is read whole**, if what follows does not continue
it. -/
theorem gives_of_derives (finish : Site) {rank : Rank} {read : List Token} {e : Expr}
    (h : Derives rank read e) :
    ∀ {budget : Nat} {rest : List Token}, e.nesting ≤ budget → e.height ≤ maxHeight →
      Stops rank rest → Gives (parserOf (operand finish budget) rank (read ++ rest)) e rest := by
  induction h with
  | @chain rank inner level ts first links hrank hfirst hops hlinks ihfirst ihlinks =>
      intro budget rest hnesting hheight hrest
      obtain ⟨hfirstLe, hlinksLe⟩ := le_fold level links first
      obtain ⟨left, hleft, rfl, hleftHeight, hleftRest⟩ :=
        ihfirst (Nat.le_trans hfirstLe.2 hnesting) (Nat.le_trans hfirstLe.1 hheight)
          (stops_links hrank hops hrest)
      rw [parserOf_joins hrank, List.append_assoc]
      show Gives (parserOf (operand finish budget) inner _ >>= _) _ _
      rw [hleft]
      refine chainFrom_gives hrank hrest left hleftHeight hleftRest hops ?_ hheight
      intro k hk tail htail
      obtain ⟨hkHeight, hkNesting⟩ := hlinksLe k hk
      exact ihlinks k hk (Nat.le_trans hkNesting hnesting) (Nat.le_trans hkHeight hheight) htail
  | prefixed hop _ ih =>
      intro budget rest hnesting hheight hrest
      cases budget with
      | zero => cases hnesting
      | succ budget =>
          exact operandStep_prefixed hop
            (ih (Nat.le_of_succ_le_succ hnesting) (Nat.le_of_succ_le hheight) hrest) hheight finish
  | primary _ ih =>
      intro budget rest hnesting hheight hrest
      exact ih hnesting hheight hrest
  | literal ht =>
      intro budget rest _ _ _
      show Gives (operand finish budget _) _ _
      rw [operand_eq]
      exact operandStep_literal ht finish _ rest
  | @grouping opener closer ts e hopener hcloser _ ih =>
      intro budget rest hnesting hheight _
      cases budget with
      | zero => cases hnesting
      | succ budget =>
          have hinner := ih (Nat.le_of_succ_le_succ hnesting) (Nat.le_of_succ_le hheight)
            (stops_rightParen hcloser rest)
          have hassoc : opener :: ts ++ [closer] ++ rest = opener :: (ts ++ closer :: rest) := by simp
          rw [hassoc]
          exact operandStep_grouping hopener hcloser hinner hheight finish

/-! ### Whole programs -/

theorem dropDot_eq_nil_iff {tail : List Token} : dropDot tail = [] ↔ FullStop tail := by
  cases tail with
  | nil => simp [dropDot, FullStop]
  | cons t rest =>
      by_cases hdot : t.kind = .mark .dot
      · rw [dropDot, if_pos hdot]
        constructor
        · rintro rfl
          exact Or.inr ⟨t, hdot, rfl⟩
        · rintro (h | ⟨dot, -, h⟩)
          · simp at h
          · exact (List.cons.inj h).2
      · rw [dropDot, if_neg hdot]
        constructor
        · intro h
          simp at h
        · rintro (h | ⟨dot, hkind, h⟩)
          · simp at h
          · rw [(List.cons.inj h).1] at hdot
            exact absurd hkind hdot

/-- A token list that is accepted is a program within the bounds, and the tree is its own. -/
theorem program_of_ofTokens {ts : List Token} {e : Expr} (h : Expr.ofTokens ts = .ok e) :
    Program ts e ∧ e.nesting ≤ maxNesting ∧ e.height ≤ maxHeight := by
  obtain ⟨p, hp, h⟩ := bind_eq_ok h
  have hreads := (operand_sound (endOf ts) maxNesting).parserOf ts p hp
  obtain ⟨body, hbody, hderives⟩ := hreads.derives
  split at h
  · rename_i hdot
    rw [← Except.ok.inj h]
    exact ⟨⟨body, p.rest, hderives, dropDot_eq_nil_iff.mp hdot, hbody⟩, hreads.nesting, hreads.short⟩
  · simp at h

theorem ofTokens_of_program {ts : List Token} {e : Expr} (h : Program ts e)
    (hnesting : e.nesting ≤ maxNesting) (hheight : e.height ≤ maxHeight) :
    Expr.ofTokens ts = .ok e := by
  obtain ⟨body, tail, hderives, htail, rfl⟩ := h
  obtain ⟨p, hp, rfl, -, hrest⟩ :=
    gives_of_derives (endOf (body ++ tail)) hderives hnesting hheight htail.stops
  show (parserOf (operand (endOf (body ++ tail)) maxNesting) .equality (body ++ tail) >>= _) = _
  rw [hp]
  simp only [bind, Except.bind, hrest, dropDot_eq_nil_iff.mpr htail]
  rfl

/-- **The parser accepts exactly the programs of the grammar whose tree keeps the two
bounds**, and answers with that tree.  The tree of a program yields its tokens without the
dot and fits the grammar's levels; no other tree is derived from them, and none that differs
in more than its places has that yield and fits. -/
theorem ofTokens_eq_ok_iff_program (ts : List Token) (e : Expr) :
    (Expr.ofTokens ts = .ok e ↔ Program ts e ∧ e.nesting ≤ 128 ∧ e.height ≤ 1024) ∧
    (Program ts e →
      e.yield = (withoutDot ts).map terminalOf ∧ e.Fits .equality ∧
      (∀ e', Program ts e' → e' = e) ∧
      ∀ e' : Expr, e'.Fits .equality → e'.yield = (withoutDot ts).map terminalOf →
        e'.bare = e.bare) := by
  refine ⟨⟨program_of_ofTokens, ?_⟩, ?_⟩
  · rintro ⟨hprogram, hnesting, hheight⟩
    exact ofTokens_of_program hprogram hnesting hheight
  · intro h
    have hderives := h.derives_withoutDot
    refine ⟨hderives.yield, hderives.fits, ?_, ?_⟩
    · intro e' h'
      exact h'.unique h
    · intro e' hfits hyield
      exact h.bare_unique hfits hyield

end Parser

end StackCalc
