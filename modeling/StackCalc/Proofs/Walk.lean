/-
The parser as a walk with counters.

`Expr.ofTokens` hands the tokens that are left, the number of openers that may still follow
and the height of a tree from one reader to the next.  Here the same parser is written as a
walk over a fixed token list that keeps three counters: the place of the next token, how
many openers enclose that place, and the height of the tree that was read last.  Two of them
are easily wrong.  The height is overwritten by every operand, so a chain has to keep a copy
of its own; and the depth has to be set back also when what was enclosed fails.

The place never goes back.  That much is part of what a step answers, because the walk ends
for no other reason: between two visits of a category at the same place the categories get
tighter, and every loop and every opener takes a token.
-/
import StackCalc.Proofs.Grammar

namespace StackCalc

open Grammar

/-- What a walk over the tokens keeps. -/
structure Counters where
  /-- The place of the next token. -/
  pos : Nat
  /-- How many openers enclose the place. -/
  depth : Nat
  /-- The height of the tree that was read last. -/
  height : Nat
deriving DecidableEq, Repr

/-- What came of steps that began at `s`, whether they succeeded or failed. -/
structure Led (s : Counters) (α : Type) where
  outcome : Except ParseError α
  after : Counters
  /-- The place has not gone back. -/
  onward : s.pos ≤ after.pos

namespace Led

variable {s s' : Counters} {α β : Type}

/-- The outcome, without a step. -/
def stay (s : Counters) (outcome : Except ParseError α) : Led s α :=
  ⟨outcome, s, Nat.le_refl _⟩

/-- The same, seen from a place before. -/
def since (h : s.pos ≤ s'.pos) (r : Led s' α) : Led s α :=
  ⟨r.outcome, r.after, Nat.le_trans h r.onward⟩

/-- Goes on after a success. -/
def andThen (r : Led s α) (next : α → (s' : Counters) → s.pos ≤ s'.pos → Led s' β) : Led s β :=
  match r.outcome with
  | .error e => ⟨.error e, r.after, r.onward⟩
  | .ok a => (next a r.after r.onward).since r.onward

/-- Comes back out of a level, whatever came of it. -/
def leave (r : Led { s with depth := s.depth + 1 } α) : Led s α :=
  ⟨r.outcome, { r.after with depth := r.after.depth - 1 }, r.onward⟩

/-- The outcome and the counters, without where the steps began. -/
def result (r : Led s α) : Except ParseError α × Counters :=
  (r.outcome, r.after)

@[simp] theorem result_since (h : s.pos ≤ s'.pos) (r : Led s' α) :
    (r.since h).result = r.result := rfl

end Led

namespace Walk

/-! ### The walk -/

/-- How many categories are tighter. -/
def looseness : Rank → Nat
  | .equality => 5
  | .comparison => 4
  | .term => 3
  | .factor => 2
  | .unary => 1
  | .primary => 0

theorem looseness_of_joins {rank inner : Rank} {level : Level}
    (h : rank.joins = some (level, inner)) : looseness rank = looseness inner + 1 := by
  cases rank <;> cases h <;> rfl

theorem looseness_le (rank : Rank) : looseness rank ≤ 5 := by
  cases rank <;> decide

section Steps

variable (tokens : List Token)

/-- The token that is next at `s`. -/
structure Taken (s : Counters) where
  token : Token
  found : tokens[s.pos]? = some token

namespace Taken

variable {tokens} {s : Counters}

/-- The counters behind the token. -/
def after (_ : Taken tokens s) : Counters :=
  { s with pos := s.pos + 1 }

theorem onward (t : Taken tokens s) : s.pos ≤ t.after.pos :=
  Nat.le_succ s.pos

/-- Behind the token, fewer are left. -/
theorem left_lt (t : Taken tokens s) {place : Nat} (h : t.after.pos ≤ place) :
    tokens.length - place < tokens.length - s.pos := by
  obtain ⟨hlt, -⟩ := List.getElem?_eq_some_iff.mp t.found
  have hafter : t.after.pos = s.pos + 1 := rfl
  omega

end Taken

/-- Takes the next token. -/
def advance (s : Counters) : Option (Taken tokens s) :=
  match h : tokens[s.pos]? with
  | none => none
  | some t => some ⟨t, h⟩

/-- Takes the next token if its kind is wanted. -/
def eat (wanted : TokenKind → Bool) (s : Counters) : Option (Taken tokens s) :=
  (advance tokens s).filter fun t => wanted t.token.kind

/-- Records the height of the node that is about to be built. -/
def grow (height : Nat) (blamed : Token) (s : Counters) : Led s Unit :=
  match Parser.checkHeight height blamed with
  | .error e => .stay s (.error e)
  | .ok () => ⟨.ok (), { s with height := height }, Nat.le_refl _⟩

/-- Takes the parenthesis that closes a grouping. -/
def close (opener : Token) (x : Expr) (s : Counters) : Led s Expr :=
  match advance tokens s with
  | none => .stay s (.error ⟨.missingParen, Parser.endOf tokens⟩)
  | some t =>
    .since t.onward <|
      if t.token.kind = .mark .rightParen then
        (grow (t.after.height + 1) opener t.after).andThen fun _ s₁ _ =>
          .stay s₁ (.ok
            (.grouping ⟨opener.site.position, opener.site.span.merge t.token.site.span⟩ x))
      else .stay t.after (.error ⟨.notParen t.token.literal, t.token.site⟩)

-- The recursion goes down in the number of tokens that are left and then in what can still be
-- entered without taking one.  An opener that has been taken can be followed by any category,
-- a category by its operands and then by the loop over the rest of its chain; the loop takes
-- an operator before it enters anything.

mutual

/-- Reads a phrase of the category. -/
def phrase (rank : Rank) (s : Counters) : Led s Expr :=
  match _ : rank.joins with
  | some (level, inner) =>
    (phrase inner s).andThen fun first s₁ _ => links level inner first s₁.height s₁
  | none => if rank = .unary then unary s else primary s
termination_by (tokens.length - s.pos, 2 * looseness rank + 2)
decreasing_by
  · have hinner := looseness_of_joins ‹rank.joins = _›
    exact Prod.Lex.right _ (by omega)
  · have hinner := looseness_of_joins ‹rank.joins = _›
    exact Prod.Lex.right' _ (by omega) (by omega)
  · have hunary : looseness rank = 1 := by rw [‹rank = .unary›]; rfl
    exact Prod.Lex.right _ (by omega)
  · exact Prod.Lex.right _ (by omega)

/-- Goes on with a chain of operands whose tree so far is `left`, of the height `height`. -/
def links (level : Level) (inner : Rank) (left : Expr) (height : Nat) (s : Counters) : Led s Expr :=
  match eat tokens level.accepts s with
  | none => .stay s (.ok left)
  | some op =>
    .since op.onward <|
      (phrase inner op.after).andThen fun right s₁ _ =>
        (grow (max height s₁.height + 1) op.token s₁).andThen fun _ s₂ _ =>
          links level inner (joined level op.token left right) (max height s₁.height + 1) s₂
termination_by (tokens.length - s.pos, 2 * looseness inner + 3)
decreasing_by
  · exact Prod.Lex.left _ _ (op.left_lt (Nat.le_refl _))
  · exact Prod.Lex.left _ _ (op.left_lt (by omega))

/-- Reads the phrase behind an opener, one level further in. -/
def nested (opener : Token) (rank : Rank) (s : Counters) : Led s Expr :=
  if maxNesting ≤ s.depth then .stay s (.error ⟨.tooNested, opener.site⟩)
  else (phrase rank { s with depth := s.depth + 1 }).leave
termination_by (tokens.length - s.pos, 13)
decreasing_by
  have hrank := looseness_le rank
  exact Prod.Lex.right _ (by omega)

/-- Reads an operand with the prefix operators before it. -/
def unary (s : Counters) : Led s Expr :=
  match eat tokens TokenKind.isPrefixOperator s with
  | none => primary s
  | some op =>
    .since op.onward <|
      (nested op.token .unary op.after).andThen fun x s₁ _ =>
        (grow (s₁.height + 1) op.token s₁).andThen fun _ s₂ _ =>
          .stay s₂ (.ok
            (.unary ⟨op.token.site.position, op.token.site.span.merge x.site.span⟩
              op.token.kind x))
termination_by (tokens.length - s.pos, 3)
decreasing_by
  · exact Prod.Lex.right _ (by omega)
  · exact Prod.Lex.left _ _ (op.left_lt (Nat.le_refl _))

/-- Reads a literal or a grouping. -/
def primary (s : Counters) : Led s Expr :=
  match advance tokens s with
  | none => .stay s (.error ⟨.missingExpression, Parser.endOf tokens⟩)
  | some t =>
    .since t.onward <|
      match t.token.kind.literalKind? with
      | some kind =>
        ⟨.ok (.primary t.token.site (.literal t.token.site kind t.token.literal)),
          { t.after with height := 2 }, Nat.le_refl _⟩
      | none =>
        if t.token.kind = .mark .leftParen then
          (nested t.token .equality t.after).andThen fun x s₁ _ => close tokens t.token x s₁
        else .stay t.after (.error ⟨Parser.refusal t.token, t.token.site⟩)
termination_by (tokens.length - s.pos, 1)
decreasing_by
  exact Prod.Lex.left _ _ (t.left_lt (Nat.le_refl _))

end

/-- Refuses a token that is left. -/
def allTaken (e : Expr) (s : Counters) : Led s Expr :=
  match advance tokens s with
  | none => .stay s (.ok e)
  | some t => .stay s (.error ⟨.trailing t.token.literal, t.token.site⟩)

/-- Takes the dot that may close a program, and refuses what is left then. -/
def finish (e : Expr) (s : Counters) : Led s Expr :=
  match eat tokens (fun kind => kind = .mark .dot) s with
  | none => allTaken tokens e s
  | some dot => .since dot.onward (allTaken tokens e dot.after)

/-- Reads all of the tokens. -/
def program (s : Counters) : Led s Expr :=
  match advance tokens s with
  | none => .stay s (.error ⟨.missingExpression, Parser.endOf tokens⟩)
  | some _ => (phrase tokens .equality s).andThen fun e s₁ _ => finish tokens e s₁

end Steps

/-! ### Single steps -/

section Steps

variable {tokens rest : List Token} {s : Counters} {t : Token}

theorem drop_eq_cons {place : Nat} (h : tokens.drop place = t :: rest) :
    tokens[place]? = some t ∧ tokens.drop (place + 1) = rest ∧ place < tokens.length := by
  have hfound : tokens[place]? = some t := by rw [← List.head?_drop, h, List.head?_cons]
  obtain ⟨hlt, -⟩ := List.getElem?_eq_some_iff.mp hfound
  refine ⟨hfound, ?_, hlt⟩
  rw [← List.tail_drop, h, List.tail_cons]

theorem advance_of_cons (h : tokens.drop s.pos = t :: rest) :
    advance tokens s = some ⟨t, (drop_eq_cons h).1⟩ := by
  have hfound := (drop_eq_cons h).1
  rw [advance]
  split
  · rename_i hnone
    rw [hfound] at hnone
    simp at hnone
  · rename_i t' hsome
    obtain rfl := Option.some.inj (hsome.symm.trans hfound)
    rfl

theorem advance_of_nil (h : tokens.drop s.pos = []) : advance tokens s = none := by
  have hnone : tokens[s.pos]? = none := by rw [← List.head?_drop, h, List.head?_nil]
  rw [advance]
  split
  · rfl
  · rename_i t' hsome
    rw [hnone] at hsome
    simp at hsome

theorem eat_of_wanted {wanted : TokenKind → Bool} (h : tokens.drop s.pos = t :: rest)
    (ht : wanted t.kind = true) : eat tokens wanted s = some ⟨t, (drop_eq_cons h).1⟩ := by
  rw [eat, advance_of_cons h, Option.filter_some, if_pos ht]

theorem eat_of_unwanted {wanted : TokenKind → Bool}
    (h : ∀ t ∈ (tokens.drop s.pos).head?, ¬ wanted t.kind = true) :
    eat tokens wanted s = none := by
  cases hahead : tokens.drop s.pos with
  | nil => rw [eat, advance_of_nil hahead, Option.filter_none]
  | cons t rest =>
      rw [hahead] at h
      rw [eat, advance_of_cons hahead, Option.filter_some, if_neg (h t rfl)]

theorem phrase_of_joins {rank inner : Rank} {level : Level}
    (h : rank.joins = some (level, inner)) (tokens : List Token) (s : Counters) :
    phrase tokens rank s =
      (phrase tokens inner s).andThen fun first s₁ _ =>
        links tokens level inner first s₁.height s₁ := by
  rw [phrase]
  split
  · rename_i level' inner' h'
    obtain ⟨rfl, rfl⟩ := Prod.mk.inj (Option.some.inj (h'.symm.trans h))
    rfl
  · rename_i h'
    rw [h] at h'
    simp at h'

theorem phrase_unary (tokens : List Token) (s : Counters) :
    phrase tokens .unary s = unary tokens s := by
  rw [phrase]
  rfl

theorem phrase_primary (tokens : List Token) (s : Counters) :
    phrase tokens .primary s = primary tokens s := by
  rw [phrase]
  rfl

end Steps

end Walk

end StackCalc
