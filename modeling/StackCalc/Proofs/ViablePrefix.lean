/-
Which token lists begin a program.

Reading a program from left to right, all that matters for what may come next is whether an
operand is awaited or has just ended, and how many parentheses are open.  `Awaits.after`
follows this over a token list and gives up at the first token that does not fit.  Precedence
plays no part: an operator may follow any operand.

A list begins a program exactly when it is followed to its end.  One direction is by induction
on derivations: a phrase takes the place of an operand and leaves no parenthesis open that it
has not found open.  For the other direction each state promises that whatever would finish
the expression from there does.  The promise is stated for all ways to finish, with more
operators at every level, because the tokens still to be read are one of them.
-/
import StackCalc.Proofs.Parsing

namespace StackCalc

namespace Grammar

/-! ### Beginnings of programs -/

/-- The tokens can be continued to a program. -/
def Viable (ts : List Token) : Prop :=
  ∃ more e, Program (ts ++ more) e

/-- An operand can come next.  It must not be one under a prefix operator, since a minus may
also join it to what was read. -/
def OperandNext (ts : List Token) : Prop :=
  ∃ operand e, Derives .primary operand e ∧ Viable (ts ++ operand)

/-! ### Following the tokens -/

/-- What may come next after part of a program, and inside how many parentheses. -/
inductive Awaits where
  | operand (depth : Nat)
  /-- An operator, or what ends the expression. -/
  | operator (depth : Nat)
  /-- Nothing, since the dot has been read. -/
  | nothing
deriving DecidableEq, Repr

namespace Awaits

/-- What is awaited after one more token, if that token is awaited. -/
def next : Awaits → Token → Option Awaits
  | operand depth, t =>
    if t.kind ∈ prefixOperators then some (operand depth)
    else if t.kind = .mark .leftParen then some (operand (depth + 1))
    else
      match terminalOf t with
      | .literal _ _ => some (operator depth)
      | .fixed _ => none
  | operator depth, t =>
    if t.kind ∈ Rank.equality.operators then some (operand depth)
    else if t.kind = .mark .rightParen ∧ 0 < depth then some (operator (depth - 1))
    else if t.kind = .mark .dot ∧ depth = 0 then some nothing
    else none
  | nothing, _ => none

/-- The token is awaited, and the second state comes after it. -/
inductive Step : Awaits → Token → Awaits → Prop
  | prefixed {depth : Nat} {t : Token} (h : t.kind ∈ prefixOperators) :
      Step (.operand depth) t (.operand depth)
  | opener {depth : Nat} {t : Token} (h : t.kind = .mark .leftParen) :
      Step (.operand depth) t (.operand (depth + 1))
  | literal {depth : Nat} {t : Token} {kind : LiteralKind} {text : String}
      (h : terminalOf t = .literal kind text) : Step (.operand depth) t (.operator depth)
  | operator {depth : Nat} {t : Token} (h : t.kind ∈ Rank.equality.operators) :
      Step (.operator depth) t (.operand depth)
  | closer {depth : Nat} {t : Token} (h : t.kind = .mark .rightParen) :
      Step (.operator (depth + 1)) t (.operator depth)
  | dot {t : Token} (h : t.kind = .mark .dot) : Step (.operator 0) t .nothing

theorem Step.next {s s' : Awaits} {t : Token} (h : Step s t s') : s.next t = some s' := by
  cases h with
  | prefixed h => rw [Awaits.next, if_pos h]
  | opener h =>
      have hnot : t.kind ∉ prefixOperators := by
        rw [h]
        decide
      rw [Awaits.next, if_neg hnot, if_pos h]
  | literal h =>
      have hsign : t.kind ∉ prefixOperators := by
        intro hop
        rw [terminalOf_prefixOperator hop] at h
        simp at h
      have hparen : t.kind ≠ .mark .leftParen := by
        intro hparen
        rw [terminalOf_mark hparen] at h
        simp at h
      rw [Awaits.next, if_neg hsign, if_neg hparen, h]
  | operator h => rw [Awaits.next, if_pos h]
  | @closer depth _ h =>
      have hnot : t.kind ∉ Rank.equality.operators := by
        rw [h]
        decide
      rw [Awaits.next, if_neg hnot, if_pos ⟨h, Nat.succ_pos depth⟩]
      rfl
  | dot h =>
      have hnot : t.kind ∉ Rank.equality.operators := by
        rw [h]
        decide
      have hopen : ¬ (t.kind = .mark .rightParen ∧ 0 < 0) := fun hparen => Nat.lt_irrefl 0 hparen.2
      rw [Awaits.next, if_neg hnot, if_neg hopen, if_pos ⟨h, rfl⟩]

/-- There are no other steps. -/
theorem step_of_next {s s' : Awaits} {t : Token} (h : s.next t = some s') : Step s t s' := by
  unfold Awaits.next at h
  split at h
  · split at h
    · rename_i hop
      rw [← Option.some.inj h]
      exact .prefixed hop
    · split at h
      · rename_i hopener
        rw [← Option.some.inj h]
        exact .opener hopener
      · split at h
        · rename_i ht
          rw [← Option.some.inj h]
          exact .literal ht
        · simp at h
  · split at h
    · rename_i hop
      rw [← Option.some.inj h]
      exact .operator hop
    · split at h
      · rename_i hcloser
        obtain ⟨hcloser, hdepth⟩ := hcloser
        obtain ⟨depth, rfl⟩ := Nat.exists_eq_add_one.mpr hdepth
        rw [← Option.some.inj h]
        exact .closer hcloser
      · split at h
        · rename_i hdot
          obtain ⟨hdot, rfl⟩ := hdot
          rw [← Option.some.inj h]
          exact .dot hdot
        · simp at h
  · simp at h

/-- What is awaited after the tokens, if each of them was. -/
def after (s : Awaits) (ts : List Token) : Option Awaits :=
  ts.foldlM next s

theorem after_cons (s : Awaits) (t : Token) (ts : List Token) :
    s.after (t :: ts) = (s.next t).bind fun s' => s'.after ts := rfl

theorem after_append (s : Awaits) (ts us : List Token) :
    s.after (ts ++ us) = (s.after ts).bind fun s' => s'.after us := by
  simp [after, List.foldlM_append]

theorem Step.after_cons {s s' : Awaits} {t : Token} (h : Step s t s') (ts : List Token) :
    s.after (t :: ts) = s'.after ts := by
  rw [Awaits.after_cons, h.next]
  rfl

theorem after_append_of_after {s s' : Awaits} {ts : List Token} (h : s.after ts = some s')
    (us : List Token) : s.after (ts ++ us) = s'.after us := by
  rw [after_append, h]
  rfl

/-- What starts an operand, other than a prefix operator, does not come after one. -/
theorem next_eq_none_of_derives {t : Token} {rest : List Token} {e : Expr}
    (h : Derives .primary (t :: rest) e) (depth : Nat) : (operator depth).next t = none := by
  have hstart : ∀ {m : Mark}, t.kind = .mark m → m = .leftParen := by
    intro m hm
    generalize hts : t :: rest = ts at h
    cases h with
    | chain hrank _ _ _ => cases hrank
    | literal ht =>
        rw [← (List.cons.inj hts).1, terminalOf_mark hm] at ht
        simp at ht
    | grouping hopener _ _ =>
        rw [← (List.cons.inj hts).1, hm] at hopener
        exact TokenKind.mark.inj hopener
  cases hnext : (operator depth).next t with
  | none => rfl
  | some s' =>
      cases step_of_next hnext with
      | operator hop =>
          simp only [Rank.operators, operatorsOf, List.cons_append, List.nil_append, List.mem_cons,
            List.not_mem_nil, or_false] at hop
          rcases hop with h | h | h | h | h | h | h | h | h | h | h | h <;> cases hstart h
      | closer hcloser => cases hstart hcloser
      | dot hdot => cases hstart hdot

end Awaits

open Awaits

/-! ### Programs are followed -/

theorem mem_operators_of_joins {rank inner : Rank} {level : Level} {kind : TokenKind}
    (hrank : rank.joins = some (level, inner)) (h : kind ∈ operatorsOf level) :
    kind ∈ Rank.equality.operators := by
  cases rank <;> cases hrank <;> simp [Rank.operators, h]

/-- A phrase is an operand to what stands around it. -/
theorem Derives.after {rank : Rank} {ts : List Token} {e : Expr} (h : Derives rank ts e) :
    ∀ depth, (operand depth).after ts = some (operator depth) := by
  induction h using Derives.linkInduction with
  | inner _ _ ih => exact ih
  | snoc hrank _ hop _ ihl ihr =>
      intro depth
      rw [after_append_of_after (ihl depth),
        (Step.operator (mem_operators_of_joins hrank hop)).after_cons]
      exact ihr depth
  | prefixed hop _ ih =>
      intro depth
      rw [(Step.prefixed hop).after_cons]
      exact ih depth
  | primary _ ih => exact ih
  | literal ht =>
      intro depth
      rw [(Step.literal ht).after_cons]
      rfl
  | grouping hopener hcloser _ ih =>
      intro depth
      rw [List.cons_append, (Step.opener hopener).after_cons, after_append_of_after (ih (depth + 1)),
        (Step.closer hcloser).after_cons]
      rfl

theorem Program.after {ts : List Token} {e : Expr} (h : Program ts e) :
    (operand 0).after ts = some (operator 0) ∨ (operand 0).after ts = some nothing := by
  obtain ⟨body, tail, hderives, htail, rfl⟩ := h
  rw [after_append_of_after (hderives.after 0)]
  rcases htail with rfl | ⟨dot, hdot, rfl⟩
  · exact Or.inl rfl
  · exact Or.inr ((Step.dot hdot).after_cons [])

theorem Viable.exists_after {ts : List Token} (h : Viable ts) :
    ∃ s, (operand 0).after ts = some s := by
  obtain ⟨more, e, hprogram⟩ := h
  have hwhole : (operand 0).after (ts ++ more) ≠ none := by
    rcases hprogram.after with h | h <;> simp [h]
  cases hafter : (operand 0).after ts with
  | some s => exact ⟨s, rfl⟩
  | none =>
      rw [after_append, hafter] at hwhole
      exact absurd rfl hwhole

/-! ### What is followed begins a program -/

theorem Derives.ofUnary {ts : List Token} {e : Expr} (h : Derives .unary ts e) {rank : Rank}
    (hrank : rank ≠ .primary) : Derives rank ts e := by
  have hfactor : Derives .factor ts e := h.ofInner rfl
  have hterm : Derives .term ts e := hfactor.ofInner rfl
  have hcomparison : Derives .comparison ts e := hterm.ofInner rfl
  cases rank with
  | equality => exact hcomparison.ofInner rfl
  | comparison => exact hcomparison
  | term => exact hterm
  | factor => exact hfactor
  | unary => exact h
  | primary => exact absurd rfl hrank

/-- One more operator and operand after a phrase, whatever the precedence of the operator. -/
theorem Derives.append_operand {rank : Rank} {ts : List Token} {l : Expr}
    (h : Derives rank ts l) {op : Token} {us : List Token} {r : Expr} (hr : Derives .unary us r) :
    op.kind ∈ rank.operators → ∃ e, Derives rank (ts ++ op :: us) e := by
  have hinner : ∀ {rank inner : Rank} {level : Level}, rank.joins = some (level, inner) →
      Derives inner us r := by
    intro rank inner level hrank
    refine hr.ofUnary ?_
    rintro rfl
    cases rank <;> cases hrank
  induction h using Derives.linkInduction with
  | inner hrank h ih =>
      intro hop
      rcases (operators_of_joins hrank op.kind).mp hop with hop | hop
      · exact ⟨_, (h.ofInner hrank).snoc hrank hop (hinner hrank)⟩
      · obtain ⟨e, he⟩ := ih hop
        exact ⟨e, he.ofInner hrank⟩
  | @snoc rank inner level ts vs op' l r' hrank hl hop' hr' ihl ihr =>
      intro hop
      rcases (operators_of_joins hrank op.kind).mp hop with hop | hop
      · exact ⟨_, (hl.snoc hrank hop' hr').snoc hrank hop (hinner hrank)⟩
      · -- A tighter operator goes into the last operand.
        obtain ⟨e, he⟩ := ihr hop
        rw [List.append_assoc]
        exact ⟨_, hl.snoc hrank hop' he⟩
  | prefixed | primary | literal | grouping =>
      intro hop
      simp [Rank.operators] at hop

/-- The tokens finish a program after an operand that stands inside `depth` parentheses. -/
inductive Finishes : Nat → List Token → Prop
  | done : Finishes 0 []
  | operator {depth : Nat} {op : Token} {us rest : List Token} {e : Expr}
      (hop : op.kind ∈ Rank.equality.operators) (he : Derives .unary us e)
      (hrest : Finishes depth rest) : Finishes depth (op :: (us ++ rest))
  | close {depth : Nat} {closer : Token} {rest : List Token}
      (hcloser : closer.kind = .mark .rightParen) (hrest : Finishes depth rest) :
      Finishes (depth + 1) (closer :: rest)

namespace Finishes

theorem exists_rest (depth : Nat) : ∃ rest, Finishes depth rest := by
  induction depth with
  | zero => exact ⟨[], .done⟩
  | succ depth ih =>
      obtain ⟨rest, hrest⟩ := ih
      exact ⟨⟨.mark .rightParen, ")", ⟨⟨1, 1⟩, .unknown⟩⟩ :: rest, .close rfl hrest⟩

/-- Outside all parentheses, the phrase and what finishes it are a phrase. -/
theorem derives {rest : List Token} (h : Finishes 0 rest) :
    ∀ {ts : List Token} {e : Expr}, Derives .equality ts e →
      ∃ e', Derives .equality (ts ++ rest) e' := by
  generalize hdepth : 0 = depth at h
  induction h with
  | done =>
      intro ts e he
      rw [List.append_nil]
      exact ⟨e, he⟩
  | @operator depth op us rest r hop hr _ ih =>
      intro ts e he
      obtain ⟨e', he'⟩ := he.append_operand hr hop
      have hrest := ih hdepth he'
      rwa [List.append_assoc, List.cons_append] at hrest
  | close _ _ _ => simp at hdepth

/-- Inside parentheses, the phrase goes on up to the next one that closes. -/
theorem exists_close {depth : Nat} {rest : List Token} (h : Finishes (depth + 1) rest) :
    ∀ {ts : List Token} {e : Expr}, Derives .equality ts e →
      ∃ inner closer rest' e', rest = inner ++ closer :: rest' ∧
        closer.kind = .mark .rightParen ∧ Derives .equality (ts ++ inner) e' ∧
        Finishes depth rest' := by
  generalize hdepth : depth + 1 = depth' at h
  induction h with
  | done => simp at hdepth
  | @operator depth' op us rest r hop hr _ ih =>
      intro ts e he
      obtain ⟨e', he'⟩ := he.append_operand hr hop
      obtain ⟨inner, closer, rest', e'', rfl, hcloser, hinner, hrest'⟩ := ih hdepth he'
      refine ⟨op :: (us ++ inner), closer, rest', e'', by simp, hcloser, ?_, hrest'⟩
      rwa [List.append_assoc, List.cons_append] at hinner
  | @close depth' closer rest hcloser hrest _ =>
      intro ts e he
      obtain rfl := Nat.succ.inj hdepth
      refine ⟨[], closer, rest, e, rfl, hcloser, ?_, hrest⟩
      rwa [List.append_nil]

end Finishes

/-- Having read the tokens, whatever finishes a program from here on does so. -/
def Promises : Awaits → List Token → Prop
  | .operand depth, ts => ∀ ⦃us rest : List Token⦄ ⦃e : Expr⦄, Derives .unary us e →
      Finishes depth rest → ∃ e', Derives .equality (ts ++ (us ++ rest)) e'
  | .operator depth, ts => ∀ ⦃rest : List Token⦄, Finishes depth rest →
      ∃ e', Derives .equality (ts ++ rest) e'
  | .nothing, ts => ∃ e, Program ts e

theorem promises_start : Promises (.operand 0) [] := by
  intro us rest e he hrest
  exact hrest.derives (he.ofUnary (by simp))

/-- One token that is awaited keeps the promise. -/
theorem Promises.step {s s' : Awaits} {ts : List Token} (h : Promises s ts) {t : Token}
    (hstep : Step s t s') : Promises s' (ts ++ [t]) := by
  cases hstep with
  | prefixed hop =>
      intro us rest e he hrest
      have hpromise := h (.prefixed hop he) hrest
      rwa [List.append_assoc]
  | opener hopener =>
      intro us rest e he hrest
      obtain ⟨inner, closer, rest', e', rfl, hcloser, hinner, hrest'⟩ :=
        hrest.exists_close (he.ofUnary (by simp))
      have hpromise := h (.primary (.grouping hopener hcloser hinner)) hrest'
      simpa using hpromise
  | literal ht =>
      intro rest hrest
      rw [List.append_assoc]
      exact h (.primary (.literal ht)) hrest
  | operator hop =>
      intro us rest e he hrest
      have hpromise := h (.operator hop he hrest)
      rwa [List.append_assoc]
  | closer hcloser =>
      intro rest hrest
      rw [List.append_assoc]
      exact h (.close hcloser hrest)
  | dot hdot =>
      obtain ⟨e, he⟩ := h .done
      rw [List.append_nil] at he
      exact ⟨e, ts, [t], he, Or.inr ⟨t, hdot, rfl⟩, rfl⟩

/-- So do the tokens of a whole list. -/
theorem Promises.after (us : List Token) :
    ∀ {s s' : Awaits} {ts : List Token}, Promises s ts → s.after us = some s' →
      Promises s' (ts ++ us) := by
  induction us with
  | nil =>
      intro s s' ts h hafter
      obtain rfl := Option.some.inj hafter
      rwa [List.append_nil]
  | cons u us ih =>
      intro s s' ts h hafter
      rw [after_cons] at hafter
      obtain ⟨s₁, hnext, hafter⟩ := Option.bind_eq_some_iff.mp hafter
      have hpromise := ih (h.step (step_of_next hnext)) hafter
      rwa [List.append_assoc] at hpromise

/-- A token to stand for an operand. -/
def zero : Token :=
  ⟨.number .integer, "0", ⟨⟨1, 1⟩, .unknown⟩⟩

theorem derives_zero :
    Derives .primary [zero] (.primary zero.site (.literal zero.site (.number .integer) "0")) :=
  .literal rfl

theorem Promises.viable {s : Awaits} {ts : List Token} (h : Promises s ts) : Viable ts := by
  have hprogram : ∀ {us : List Token} {e : Expr}, Derives .equality us e → Program us e :=
    fun he => ⟨_, [], he, Or.inl rfl, (List.append_nil _).symm⟩
  cases s with
  | operand depth =>
      obtain ⟨rest, hrest⟩ := Finishes.exists_rest depth
      obtain ⟨e, he⟩ := h (.primary derives_zero) hrest
      exact ⟨_, e, hprogram he⟩
  | operator depth =>
      obtain ⟨rest, hrest⟩ := Finishes.exists_rest depth
      obtain ⟨e, he⟩ := h hrest
      exact ⟨rest, e, hprogram he⟩
  | nothing =>
      obtain ⟨e, he⟩ := h
      refine ⟨[], e, ?_⟩
      rwa [List.append_nil]

/-- **A token list begins a program exactly when each of its tokens is awaited.** -/
theorem viable_iff {ts : List Token} : Viable ts ↔ ∃ s, (operand 0).after ts = some s := by
  constructor
  · exact Viable.exists_after
  · rintro ⟨s, hafter⟩
    exact (Promises.after ts promises_start hafter).viable

/-- An operand can come next exactly when one is awaited. -/
theorem operandNext_iff {ts : List Token} {s : Awaits} (h : (operand 0).after ts = some s) :
    OperandNext ts ↔ ∃ depth, s = .operand depth := by
  constructor
  · rintro ⟨us, e, he, hviable⟩
    obtain ⟨t, rest, rfl, -⟩ := he.head_primary
    obtain ⟨s', hafter⟩ := hviable.exists_after
    rw [after_append_of_after h, after_cons] at hafter
    cases s with
    | operand depth => exact ⟨depth, rfl⟩
    | operator depth =>
        rw [next_eq_none_of_derives he] at hafter
        cases hafter
    | nothing => cases hafter
  · rintro ⟨depth, rfl⟩
    refine ⟨[zero], _, derives_zero, viable_iff.mpr ⟨.operator depth, ?_⟩⟩
    rw [after_append_of_after h]
    rfl

end Grammar

end StackCalc
