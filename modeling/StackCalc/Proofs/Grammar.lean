/-
The grammar of expressions.

`Derives` has one rule for each alternative of the grammar and says, with each phrase, which
tree it stands for.  A category of operators is read as it is written: a first operand, and
then any number of operators that are each followed by an operand; the tree folds them to
the left.  Nothing here is bounded, and nothing refers to how a parser works.

The grammar is unambiguous.  That is proved for phrases at the front of a longer list, which
is what the induction needs: two phrases of one category that start at the same place are
the same phrase, provided that neither is followed by an operator that would continue it.
The operators of two categories are never the same, so an operand ends exactly where the
next operator of its own chain, or of a looser one, stands.
-/
import StackCalc.Expr.Parser

namespace StackCalc

namespace Expr

/-- The most openers, parentheses or prefix operators, on any way down. -/
def nesting : Expr → Nat
  | literal _ _ _ => 0
  | unary _ _ e => e.nesting + 1
  | binary _ _ _ l r => max l.nesting r.nesting
  | grouping _ e => e.nesting + 1
  | primary _ e => e.nesting

/-- The tree without its places. -/
def bare : Expr → Expr
  | literal _ kind text => .literal ⟨⟨0, 0⟩, .unknown⟩ kind text
  | unary _ op e => .unary ⟨⟨0, 0⟩, .unknown⟩ op e.bare
  | binary _ level op l r => .binary ⟨⟨0, 0⟩, .unknown⟩ level op l.bare r.bare
  | grouping _ e => .grouping ⟨⟨0, 0⟩, .unknown⟩ e.bare
  | primary _ e => .primary ⟨⟨0, 0⟩, .unknown⟩ e.bare

end Expr

namespace Grammar

/-! ### Tokens as the grammar sees them -/

/-- What a token is to the grammar: a literal with its text, or a fixed symbol. -/
inductive Terminal where
  | literal (kind : LiteralKind) (text : String)
  | fixed (kind : TokenKind)
deriving DecidableEq, Repr

def terminalOf (t : Token) : Terminal :=
  match t.kind with
  | .number n => .literal (.number n) t.literal
  | .string => .literal .string t.literal
  | .keyword .trueWord => .literal .bool t.literal
  | .keyword .falseWord => .literal .bool t.literal
  | kind => .fixed kind

/-- The operators of a level. -/
def operatorsOf : Level → List TokenKind
  | .equality => [.mark .equalEqual, .mark .equal, .mark .bangEqual, .mark .hash]
  | .comparison => [.mark .greater, .mark .greaterEqual, .mark .less, .mark .lessEqual]
  | .term => [.mark .plus, .mark .minus]
  | .factor => [.mark .star, .mark .slash]
  | .binary => []

/-- The operators that stand before an operand. -/
def prefixOperators : List TokenKind :=
  [.mark .minus, .mark .plus, .mark .bang, .keyword .oddWord]

/-! ### The grammar -/

/-- The categories, from the loosest to the tightest. -/
inductive Rank where
  | equality
  | comparison
  | term
  | factor
  | unary
  | primary
deriving DecidableEq, Repr

/-- The level whose operators join operands to a phrase of the category, and the category
of the operands. -/
def Rank.joins : Rank → Option (Level × Rank)
  | equality => some (.equality, .comparison)
  | comparison => some (.comparison, .term)
  | term => some (.term, .factor)
  | factor => some (.factor, .unary)
  | unary => none
  | primary => none

/-- The node of an operator and its operands. -/
def joined (level : Level) (op : Token) (l r : Expr) : Expr :=
  .binary ⟨op.site.position, l.site.span.merge r.site.span⟩ level op.kind l r

/-- An operator in a chain, with the operand after it. -/
structure Link where
  op : Token
  tokens : List Token
  operand : Expr

/-- The tokens of a link. -/
def Link.phrase (k : Link) : List Token :=
  k.op :: k.tokens

/-- The tree of a chain. -/
def fold (level : Level) (first : Expr) (links : List Link) : Expr :=
  links.foldl (fun left k => joined level k.op left k.operand) first

/-- The tokens are a phrase of the category, and the expression is its tree. -/
inductive Derives : Rank → List Token → Expr → Prop
  /-- `operand { operator operand }` -/
  | chain {rank inner : Rank} {level : Level} {ts : List Token} {first : Expr} {links : List Link}
      (hrank : rank.joins = some (level, inner)) (hfirst : Derives inner ts first)
      (hops : ∀ k ∈ links, k.op.kind ∈ operatorsOf level)
      (hlinks : ∀ k ∈ links, Derives inner k.tokens k.operand) :
      Derives rank (ts ++ links.flatMap Link.phrase) (fold level first links)
  /-- `( "-" | "+" | "!" | "odd" ) unary` -/
  | prefixed {op : Token} {ts : List Token} {e : Expr} (hop : op.kind ∈ prefixOperators)
      (he : Derives .unary ts e) :
      Derives .unary (op :: ts)
        (.unary ⟨op.site.position, op.site.span.merge e.site.span⟩ op.kind e)
  | primary {ts : List Token} {e : Expr} (he : Derives .primary ts e) : Derives .unary ts e
  /-- `NUMBER | STRING | "true" | "false"` -/
  | literal {t : Token} {kind : LiteralKind} {text : String}
      (ht : terminalOf t = .literal kind text) :
      Derives .primary [t] (.primary t.site (.literal t.site kind text))
  /-- `"(" expression ")"` -/
  | grouping {opener closer : Token} {ts : List Token} {e : Expr}
      (hopener : opener.kind = .mark .leftParen) (hcloser : closer.kind = .mark .rightParen)
      (he : Derives .equality ts e) :
      Derives .primary (opener :: ts ++ [closer])
        (.grouping ⟨opener.site.position, opener.site.span.merge closer.site.span⟩ e)

/-- What may stand after the expression of a program. -/
def FullStop (tail : List Token) : Prop :=
  tail = [] ∨ ∃ dot : Token, dot.kind = .mark .dot ∧ tail = [dot]

/-- The tokens are a whole program, and the expression is its tree. -/
def Program (ts : List Token) (e : Expr) : Prop :=
  ∃ body tail, Derives .equality body e ∧ FullStop tail ∧ ts = body ++ tail

/-! ### Chains -/

@[simp] theorem fold_nil (level : Level) (first : Expr) : fold level first [] = first := rfl

@[simp] theorem fold_cons (level : Level) (first : Expr) (k : Link) (links : List Link) :
    fold level first (k :: links) = fold level (joined level k.op first k.operand) links := rfl

theorem fold_concat (level : Level) (first : Expr) (links : List Link) (k : Link) :
    fold level first (links ++ [k]) = joined level k.op (fold level first links) k.operand := by
  simp [fold]

/-- A phrase of the operands is a chain without operators. -/
theorem Derives.ofInner {rank inner : Rank} {level : Level} {ts : List Token} {e : Expr}
    (hrank : rank.joins = some (level, inner)) (h : Derives inner ts e) : Derives rank ts e := by
  have hchain : Derives rank (ts ++ [].flatMap Link.phrase) (fold level e []) :=
    .chain hrank h (by simp) (by simp)
  simpa using hchain

/-- A phrase of a category of operators is a chain. -/
theorem Derives.exists_chain {rank inner : Rank} {level : Level} {ts : List Token} {e : Expr}
    (hrank : rank.joins = some (level, inner)) (h : Derives rank ts e) :
    ∃ us first links, Derives inner us first ∧ (∀ k ∈ links, k.op.kind ∈ operatorsOf level) ∧
      (∀ k ∈ links, Derives inner k.tokens k.operand) ∧ ts = us ++ links.flatMap Link.phrase ∧
      e = fold level first links := by
  cases h with
  | chain hrank' hfirst hops hlinks =>
      obtain ⟨rfl, rfl⟩ := Prod.mk.inj (Option.some.inj (hrank.symm.trans hrank'))
      exact ⟨_, _, _, hfirst, hops, hlinks, rfl, rfl⟩
  | prefixed _ _ => cases hrank
  | primary _ => cases hrank
  | literal _ => cases hrank
  | grouping _ _ _ => cases hrank

/-- One more operator and operand at the end of a chain. -/
theorem Derives.snoc {rank inner : Rank} {level : Level} {ts us : List Token} {op : Token}
    {l r : Expr} (hrank : rank.joins = some (level, inner)) (hl : Derives rank ts l)
    (hop : op.kind ∈ operatorsOf level) (hr : Derives inner us r) :
    Derives rank (ts ++ op :: us) (joined level op l r) := by
  obtain ⟨vs, first, links, hfirst, hops, hlinks, rfl, rfl⟩ := hl.exists_chain hrank
  have hchain : Derives rank (vs ++ (links ++ [Link.mk op us r]).flatMap Link.phrase)
      (fold level first (links ++ [Link.mk op us r])) := by
    refine .chain hrank hfirst ?_ ?_
    · intro k hk
      rcases List.mem_append.mp hk with hk | hk
      · exact hops k hk
      · rw [List.mem_singleton.mp hk]
        exact hop
    · intro k hk
      rcases List.mem_append.mp hk with hk | hk
      · exact hlinks k hk
      · rw [List.mem_singleton.mp hk]
        exact hr
  rw [fold_concat] at hchain
  simpa [Link.phrase] using hchain

/-- A chain grows by one link at a time.  A property of phrases that survives this, and the
other rules, holds of all phrases. -/
@[elab_as_elim]
theorem Derives.linkInduction
    {motive : (rank : Rank) → (ts : List Token) → (e : Expr) → Derives rank ts e → Prop}
    (inner : ∀ {rank inner : Rank} {level : Level} {ts : List Token} {e : Expr}
      (hrank : rank.joins = some (level, inner)) (h : Derives inner ts e),
      motive inner ts e h → motive rank ts e (h.ofInner hrank))
    (snoc : ∀ {rank inner : Rank} {level : Level} {ts us : List Token} {op : Token} {l r : Expr}
      (hrank : rank.joins = some (level, inner)) (hl : Derives rank ts l)
      (hop : op.kind ∈ operatorsOf level) (hr : Derives inner us r),
      motive rank ts l hl → motive inner us r hr →
        motive rank (ts ++ op :: us) (joined level op l r) (hl.snoc hrank hop hr))
    (prefixed : ∀ {op : Token} {ts : List Token} {e : Expr} (hop : op.kind ∈ prefixOperators)
      (h : Derives .unary ts e), motive .unary ts e h → motive .unary _ _ (.prefixed hop h))
    (primary : ∀ {ts : List Token} {e : Expr} (h : Derives .primary ts e),
      motive .primary ts e h → motive .unary ts e (.primary h))
    (literal : ∀ {t : Token} {kind : LiteralKind} {text : String}
      (ht : terminalOf t = .literal kind text), motive .primary _ _ (.literal ht))
    (grouping : ∀ {opener closer : Token} {ts : List Token} {e : Expr}
      (hopener : opener.kind = .mark .leftParen) (hcloser : closer.kind = .mark .rightParen)
      (h : Derives .equality ts e), motive .equality ts e h →
        motive .primary _ _ (.grouping hopener hcloser h))
    {rank : Rank} {ts : List Token} {e : Expr} (h : Derives rank ts e) : motive rank ts e h := by
  have hfold : ∀ {rank inner : Rank} {level : Level}, rank.joins = some (level, inner) →
      ∀ {links : List Link} {ts : List Token} {first : Expr} (hfirst : Derives rank ts first),
        motive rank ts first hfirst → (∀ k ∈ links, k.op.kind ∈ operatorsOf level) →
        (∀ k ∈ links, ∃ h : Derives inner k.tokens k.operand, motive inner k.tokens k.operand h) →
        ∃ h : Derives rank (ts ++ links.flatMap Link.phrase) (fold level first links),
          motive rank _ _ h := by
    intro rank inner level hrank links
    induction links with
    | nil =>
        intro ts first hfirst hmotive _ _
        rw [List.flatMap_nil, List.append_nil, fold_nil]
        exact ⟨hfirst, hmotive⟩
    | cons k links ih =>
        intro ts first hfirst hmotive hops hlinks
        obtain ⟨hk, hkMotive⟩ := hlinks k (by simp)
        have hgrown := ih _ (snoc hrank hfirst (hops k (by simp)) hk hmotive hkMotive)
          (fun j hj => hops j (by simp [hj])) (fun j hj => hlinks j (by simp [hj]))
        rwa [List.append_assoc] at hgrown
  induction h with
  | chain hrank hfirst hops hlinks ihfirst ihlinks =>
      exact (hfold hrank _ (inner hrank hfirst ihfirst) hops
        (fun k hk => ⟨hlinks k hk, ihlinks k hk⟩)).2
  | prefixed hop h ih => exact prefixed hop h ih
  | primary h ih => exact primary h ih
  | literal ht => exact literal ht
  | grouping hopener hcloser h ih => exact grouping hopener hcloser h ih

/-! ### Where a phrase ends -/

/-- The operators that continue a phrase of the category. -/
def Rank.operators : Rank → List TokenKind
  | equality =>
    operatorsOf .equality ++ operatorsOf .comparison ++ operatorsOf .term ++ operatorsOf .factor
  | comparison => operatorsOf .comparison ++ operatorsOf .term ++ operatorsOf .factor
  | term => operatorsOf .term ++ operatorsOf .factor
  | factor => operatorsOf .factor
  | unary => []
  | primary => []

/-- What follows does not continue a phrase of the category. -/
def Stops (rank : Rank) (rest : List Token) : Prop :=
  ∀ t ∈ rest.head?, t.kind ∉ rank.operators

theorem operators_of_joins {rank inner : Rank} {level : Level}
    (hrank : rank.joins = some (level, inner)) :
    ∀ kind, kind ∈ rank.operators ↔ kind ∈ operatorsOf level ∨ kind ∈ inner.operators := by
  intro kind
  cases rank <;> cases hrank <;> simp [Rank.operators]

/-- An operator of a chain does not continue its operands. -/
theorem operator_stops_inner {rank inner : Rank} {level : Level}
    (hrank : rank.joins = some (level, inner)) {kind : TokenKind}
    (h : kind ∈ operatorsOf level) : kind ∉ inner.operators := by
  cases rank <;> cases hrank <;> simp only [operatorsOf, List.mem_cons, List.not_mem_nil,
    or_false] at h <;> rcases h with rfl | rfl | rfl | rfl <;> decide

theorem stops_nil (rank : Rank) : Stops rank [] := by
  intro t ht
  simp at ht

theorem stops_cons {rank : Rank} {t : Token} (h : t.kind ∉ rank.operators) (rest : List Token) :
    Stops rank (t :: rest) := by
  intro t' ht'
  rw [List.head?_cons, Option.mem_some_iff] at ht'
  rw [← ht']
  exact h

/-- The links of a chain and what follows it end the operand before them. -/
theorem stops_links {rank inner : Rank} {level : Level} (hrank : rank.joins = some (level, inner))
    {links : List Link} (hops : ∀ k ∈ links, k.op.kind ∈ operatorsOf level) {rest : List Token}
    (hrest : Stops rank rest) : Stops inner (links.flatMap Link.phrase ++ rest) := by
  cases links with
  | nil =>
      intro t ht hmem
      exact hrest t ht ((operators_of_joins hrank t.kind).mpr (Or.inr hmem))
  | cons k links => exact stops_cons (operator_stops_inner hrank (hops k (by simp))) _

theorem stops_rightParen {t : Token} (h : t.kind = .mark .rightParen) (rest : List Token) :
    Stops .equality (t :: rest) := by
  refine stops_cons ?_ rest
  rw [h]
  decide

theorem FullStop.stops {tail : List Token} (h : FullStop tail) : Stops .equality tail := by
  rcases h with rfl | ⟨dot, hdot, rfl⟩
  · exact stops_nil _
  · exact stops_cons (by rw [hdot]; decide) _

/-! ### One phrase at a place -/

/-- A phrase of the category that starts where this one does is this one. -/
def Unrivalled (rank : Rank) (ts : List Token) (e : Expr) : Prop :=
  ∀ {ts' : List Token} {e' : Expr} {rest rest' : List Token}, Derives rank ts' e' →
    Stops rank rest → Stops rank rest' → ts ++ rest = ts' ++ rest' → ts = ts' ∧ e = e'

theorem terminalOf_prefixOperator {t : Token} (h : t.kind ∈ prefixOperators) :
    terminalOf t = .fixed t.kind := by
  simp only [prefixOperators, List.mem_cons, List.not_mem_nil, or_false] at h
  rcases h with h | h | h | h <;> simp [terminalOf, h]

theorem terminalOf_mark {t : Token} {m : Mark} (h : t.kind = .mark m) :
    terminalOf t = .fixed (.mark m) := by
  simp [terminalOf, h]

/-- What is not under a prefix operator does not start with one. -/
theorem Derives.head_primary {ts : List Token} {e : Expr} (h : Derives .primary ts e) :
    ∃ t rest, ts = t :: rest ∧ t.kind ∉ prefixOperators := by
  cases h with
  | chain hrank _ _ _ => cases hrank
  | @literal t kind text ht =>
      refine ⟨t, [], rfl, ?_⟩
      intro hmem
      rw [terminalOf_prefixOperator hmem] at ht
      simp at ht
  | @grouping opener closer ts e hopener _ _ =>
      refine ⟨opener, ts ++ [closer], rfl, ?_⟩
      rw [hopener]
      decide

/-- Two chains that start after the same operand have the same links. -/
theorem links_unique {rank inner : Rank} {level : Level}
    (hrank : rank.joins = some (level, inner)) {rest rest' : List Token}
    (hrest : Stops rank rest) (hrest' : Stops rank rest') :
    ∀ {links links' : List Link}, (∀ k ∈ links, k.op.kind ∈ operatorsOf level) →
      (∀ k ∈ links, Unrivalled inner k.tokens k.operand) →
      (∀ k ∈ links', k.op.kind ∈ operatorsOf level) →
      (∀ k ∈ links', Derives inner k.tokens k.operand) →
      links.flatMap Link.phrase ++ rest = links'.flatMap Link.phrase ++ rest' → links = links' := by
  have hclash : ∀ {k : Link} {rest tail : List Token}, k.op.kind ∈ operatorsOf level →
      Stops rank rest → rest ≠ k.op :: tail := by
    intro k rest tail hop hstops heq
    rw [heq] at hstops
    exact hstops k.op rfl ((operators_of_joins hrank k.op.kind).mpr (Or.inl hop))
  intro links
  induction links with
  | nil =>
      intro links' _ _ hops' _ heq
      cases links' with
      | nil => rfl
      | cons k' links' => exact absurd heq (hclash (hops' k' (by simp)) hrest)
  | cons k links ih =>
      intro links' hops hrivals hops' hderives' heq
      cases links' with
      | nil => exact absurd heq.symm (hclash (hops k (by simp)) hrest')
      | cons k' links' =>
          simp only [List.flatMap_cons, Link.phrase, List.cons_append, List.append_assoc] at heq
          obtain ⟨hop, heq⟩ := List.cons.inj heq
          have htail : ∀ j ∈ links, j.op.kind ∈ operatorsOf level :=
            fun j hj => hops j (by simp [hj])
          have htail' : ∀ j ∈ links', j.op.kind ∈ operatorsOf level :=
            fun j hj => hops' j (by simp [hj])
          obtain ⟨htokens, hoperand⟩ := hrivals k (by simp) (hderives' k' (by simp))
            (stops_links hrank htail hrest) (stops_links hrank htail' hrest') heq
          have hk : k = k' := by
            cases k
            cases k'
            simp_all
          rw [htokens] at heq
          rw [hk, ih htail (fun j hj => hrivals j (by simp [hj])) htail'
            (fun j hj => hderives' j (by simp [hj])) (List.append_cancel_left heq)]

/-- **The grammar is unambiguous**: at one place starts one phrase of a category, with one
tree. -/
theorem Derives.unrivalled {rank : Rank} {ts : List Token} {e : Expr} (h : Derives rank ts e) :
    Unrivalled rank ts e := by
  induction h with
  | chain hrank hfirst hops hlinks ihfirst ihlinks =>
      intro ts' e' rest rest' h' hrest hrest' heq
      obtain ⟨us, first', links', hfirst', hops', hlinks', rfl, rfl⟩ := h'.exists_chain hrank
      rw [List.append_assoc, List.append_assoc] at heq
      obtain ⟨rfl, rfl⟩ := ihfirst hfirst' (stops_links hrank hops hrest)
        (stops_links hrank hops' hrest') heq
      obtain rfl := links_unique hrank hrest hrest' hops ihlinks hops' hlinks'
        (List.append_cancel_left heq)
      exact ⟨rfl, rfl⟩
  | @prefixed op ts e hop he ih =>
      intro ts' e' rest rest' h' hrest hrest' heq
      cases h' with
      | chain hrank _ _ _ => cases hrank
      | prefixed hop' he' =>
          obtain ⟨rfl, htokens⟩ := List.cons.inj heq
          obtain ⟨rfl, rfl⟩ := ih he' hrest hrest' htokens
          exact ⟨rfl, rfl⟩
      | primary he' =>
          obtain ⟨t, us, rfl, ht⟩ := he'.head_primary
          obtain ⟨rfl, -⟩ := List.cons.inj heq
          exact absurd hop ht
  | primary he ih =>
      intro ts' e' rest rest' h' hrest hrest' heq
      cases h' with
      | chain hrank _ _ _ => cases hrank
      | prefixed hop' he' =>
          obtain ⟨t, us, rfl, ht⟩ := he.head_primary
          obtain ⟨rfl, -⟩ := List.cons.inj heq
          exact absurd hop' ht
      | primary he' => exact ih he' hrest hrest' heq
  | literal ht =>
      intro ts' e' rest rest' h' _ _ heq
      cases h' with
      | chain hrank _ _ _ => cases hrank
      | literal ht' =>
          obtain ⟨rfl, -⟩ := List.cons.inj heq
          obtain ⟨rfl, rfl⟩ := Terminal.literal.inj (ht.symm.trans ht')
          exact ⟨rfl, rfl⟩
      | grouping hopener' _ _ =>
          obtain ⟨rfl, -⟩ := List.cons.inj heq
          rw [terminalOf_mark hopener'] at ht
          simp at ht
  | @grouping opener closer ts e hopener hcloser he ih =>
      intro ts' e' rest rest' h' _ _ heq
      cases h' with
      | chain hrank _ _ _ => cases hrank
      | literal ht' =>
          obtain ⟨rfl, -⟩ := List.cons.inj heq
          rw [terminalOf_mark hopener] at ht'
          cases ht'
      | @grouping opener' closer' ts' e' hopener' hcloser' he' =>
          simp only [List.cons_append, List.append_assoc, List.nil_append] at heq
          obtain ⟨rfl, htokens⟩ := List.cons.inj heq
          obtain ⟨rfl, rfl⟩ := ih he' (stops_rightParen hcloser _) (stops_rightParen hcloser' _)
            htokens
          obtain ⟨rfl, -⟩ := List.cons.inj (List.append_cancel_left htokens)
          exact ⟨rfl, rfl⟩

theorem Program.unique {ts : List Token} {e e' : Expr} (h : Program ts e) (h' : Program ts e') :
    e = e' := by
  obtain ⟨body, tail, hderives, htail, rfl⟩ := h
  obtain ⟨body', tail', hderives', htail', heq⟩ := h'
  exact (hderives.unrivalled hderives' htail.stops htail'.stops heq).2

end Grammar

end StackCalc
