/-
The same tokens elsewhere.

Tokens carry the places where they stand, and so do the nodes made from them, the lines in
the table of the code and the errors of every stage.  Nothing is decided by a place, though,
except whether its line fits the table.  Here two runs of each stage are followed side by
side, over inputs that differ in their places and in nothing else: the parser over two token
lists, lowering over two trees and the machine over two chunks.  They go the same way, step
by step, and end alike.

For the parser the two runs are related as a whole.  A category that reads tokens is compared
with another one, and what builds categories from categories keeps them comparable, so the
induction is the one that builds the parser: on the budget of openers.
-/
import StackCalc.Proofs.Evaluation
import StackCalc.Proofs.Flattening
import StackCalc.Proofs.Parsing

namespace StackCalc

open Grammar

/-! ### Tokens -/

namespace Token

/-- What a token is, without where it stands. -/
def content (t : Token) : TokenKind × String :=
  (t.kind, t.literal)

/-- The token lists differ in their places only. -/
def Alike (ts us : List Token) : Prop :=
  ts.map content = us.map content

theorem content_eq_iff {t u : Token} :
    t.content = u.content ↔ t.kind = u.kind ∧ t.literal = u.literal := by
  simp [content]

theorem alike_nil_left {us : List Token} : Alike [] us ↔ us = [] := by
  simp [Alike, eq_comm]

theorem alike_cons_left {t : Token} {ts us : List Token} :
    Alike (t :: ts) us ↔ ∃ u us', us = u :: us' ∧ t.content = u.content ∧ Alike ts us' := by
  unfold Alike
  rw [List.map_cons, eq_comm, List.map_eq_cons_iff]
  simp only [eq_comm]

end Token

open Token

/-! ### Parsing -/

namespace Parser

/-- The errors differ in the place that is blamed only. -/
def SameFault (err err' : ParseError) : Prop :=
  err.fault = err'.fault

/-- What has been read of two token lists differs in places only. -/
structure SameReading {ts us : List Token} (p : Parsed ts) (q : Parsed us) : Prop where
  expr : p.expr.bare = q.expr.bare
  height : p.height = q.height
  rest : Alike p.rest q.rest

/-- The parsers go the same way over token lists that differ in places only. -/
def Agree (c d : Category) : Prop :=
  ∀ (ts us : List Token), Alike ts us → Matched SameFault SameReading (c ts) (d us)

theorem matched_checkHeight {height height' : Nat} (heq : height = height') (t u : Token) :
    Matched SameFault (fun _ _ => True) (checkHeight height t) (checkHeight height' u) := by
  subst heq
  unfold checkHeight
  by_cases h : maxHeight < height
  · rw [if_pos h, if_pos h]
    exact .error rfl
  · rw [if_neg h, if_neg h]
    exact .ok trivial

theorem matched_chainFrom {level : Level} {c d : Category} (hagree : Agree c d)
    {ts : List Token} (left : Parsed ts) :
    ∀ {us : List Token} {left' : Parsed us}, SameReading left left' →
      Matched SameFault SameReading (chainFrom level c left) (chainFrom level d left') := by
  fun_induction chainFrom level c left with
  | case1 left hrest =>
      intro us left' hsame
      have hrest' := hsame.rest
      rw [hrest, alike_nil_left] at hrest'
      rw [chainFrom_of_nil level d hrest']
      exact .ok hsame
  | case2 left op afterOp hrest haccepts ih =>
      intro us left' hsame
      have hrest' := hsame.rest
      rw [hrest, alike_cons_left] at hrest'
      obtain ⟨op', afterOp', hrest', hop, hafter⟩ := hrest'
      obtain ⟨hkind, -⟩ := content_eq_iff.mp hop
      obtain ⟨grown, hgrown, hparts⟩ := chainFrom_of_accepted level d hrest' (hkind ▸ haccepts)
      rw [hgrown]
      refine (hagree _ _ hafter).bind ?_
      intro right right' hright
      obtain ⟨hexpr, hheight, hgrownRest⟩ := hparts right'
      have heights : max left.height right.height + 1 = max left'.height right'.height + 1 := by
        rw [hsame.height, hright.height]
      refine (matched_checkHeight heights _ _).bind ?_
      intro _ _ _
      refine ih right ⟨?_, heights.trans hheight.symm, ?_⟩
      · rw [hexpr]
        simp [joined, Expr.bare, hsame.expr, hright.expr, hkind]
      · rw [hgrownRest]
        exact hright.rest
  | case3 left op afterOp hrest haccepts =>
      intro us left' hsame
      have hrest' := hsame.rest
      rw [hrest, alike_cons_left] at hrest'
      obtain ⟨op', afterOp', hrest', hop, -⟩ := hrest'
      obtain ⟨hkind, -⟩ := content_eq_iff.mp hop
      rw [chainFrom_of_refused level d hrest' (hkind ▸ haccepts)]
      exact .ok hsame

theorem Agree.chain {c d : Category} (h : Agree c d) (level : Level) :
    Agree (chain level c) (chain level d) := by
  intro ts us hts
  exact (h ts us hts).bind (matched_chainFrom h _)

theorem Agree.expressionOf {c d : Category} (h : Agree c d) :
    Agree (expressionOf c) (expressionOf d) :=
  (((h.chain .factor).chain .term).chain .comparison).chain .equality

theorem matched_prefixed {op op' : Token} (hop : op.content = op'.content) {ts us : List Token}
    {x : Parsed ts} {y : Parsed us} (h : SameReading x y) :
    Matched SameFault SameReading (prefixed op x) (prefixed op' y) := by
  have hheight : x.height + 1 = y.height + 1 := congrArg (· + 1) h.height
  refine (matched_checkHeight hheight _ _).bind ?_
  intro _ _ _
  refine .ok ⟨?_, hheight, h.rest⟩
  simp [Expr.bare, h.expr, (content_eq_iff.mp hop).1]

theorem matched_closed (finish finish' : Site) {opener opener' : Token} {ts us : List Token}
    {x : Parsed ts} {y : Parsed us} (h : SameReading x y) :
    Matched SameFault SameReading (closed finish opener x) (closed finish' opener' y) := by
  have hrest := h.rest
  cases hx : x.rest with
  | nil =>
      rw [hx, alike_nil_left] at hrest
      rw [closed_of_nil hx, closed_of_nil hrest]
      exact .error rfl
  | cons t after =>
      rw [hx, alike_cons_left] at hrest
      obtain ⟨t', after', hy, ht, hafter⟩ := hrest
      obtain ⟨hkind, hliteral⟩ := content_eq_iff.mp ht
      by_cases hparen : t.kind = .mark .rightParen
      · obtain ⟨p, hp, hexpr, hheight, hprest⟩ := closed_of_paren finish opener hx hparen
        obtain ⟨q, hq, hexpr', hheight', hqrest⟩ :=
          closed_of_paren finish' opener' hy (hkind ▸ hparen)
        have heights : x.height + 1 = y.height + 1 := congrArg (· + 1) h.height
        rw [hp, hq]
        refine (matched_checkHeight heights _ _).bind ?_
        intro _ _ _
        refine .ok ⟨?_, ?_, ?_⟩
        · rw [hexpr, hexpr', Expr.bare, Expr.bare, h.expr]
        · rw [hheight, hheight', heights]
        · rw [hprest, hqrest]
          exact hafter
      · rw [closed_of_other finish opener hx hparen,
          closed_of_other finish' opener' hy (hkind ▸ hparen), hliteral]
        exact .error rfl

theorem refusal_eq {t u : Token} (h : t.content = u.content) : refusal t = refusal u := by
  obtain ⟨hkind, hliteral⟩ := content_eq_iff.mp h
  unfold refusal
  rw [hkind, hliteral]

/-- Operands are read alike if those one level further in are. -/
theorem agree_operandStep (finish finish' : Site) {inner inner' : Option Category}
    (hinner : Option.Rel Agree inner inner') :
    Agree (operandStep finish inner) (operandStep finish' inner') := by
  intro ts us hts
  cases ts with
  | nil =>
      rw [alike_nil_left] at hts
      subst hts
      exact .error rfl
  | cons t ts =>
      obtain ⟨u, us, rfl, hcontent, hts⟩ := alike_cons_left.mp hts
      obtain ⟨hkind, hliteral⟩ := content_eq_iff.mp hcontent
      simp only [operandStep, ← hkind]
      by_cases hsign : t.kind.isPrefixOperator = true
      · rw [if_pos hsign, if_pos hsign]
        cases hinner with
        | none => exact .error rfl
        | some hagree => exact (hagree _ _ hts).bind (matched_prefixed hcontent)
      · rw [if_neg hsign, if_neg hsign]
        cases t.kind.literalKind? with
        | some kind =>
            refine .ok ⟨?_, rfl, hts⟩
            simp [literalAt, Expr.bare, hliteral]
        | none =>
            by_cases hparen : t.kind = .mark .leftParen
            · simp only [if_pos hparen]
              cases hinner with
              | none => exact .error rfl
              | some hagree =>
                  exact (hagree.expressionOf _ _ hts).bind (matched_closed finish finish')
            · simp only [if_neg hparen]
              exact .error (refusal_eq hcontent)

theorem agree_operand (finish finish' : Site) (budget : Nat) :
    Agree (operand finish budget) (operand finish' budget) := by
  induction budget with
  | zero => exact agree_operandStep finish finish' .none
  | succ budget ih => exact agree_operandStep finish finish' (.some ih)

theorem alike_dropDot {ts us : List Token} (h : Alike ts us) :
    Alike (dropDot ts) (dropDot us) := by
  cases ts with
  | nil =>
      rw [alike_nil_left.mp h]
      rfl
  | cons t ts =>
      obtain ⟨u, us, rfl, hcontent, hts⟩ := alike_cons_left.mp h
      obtain ⟨hkind, -⟩ := content_eq_iff.mp hcontent
      by_cases hdot : t.kind = .mark .dot
      · rw [dropDot, dropDot, if_pos hdot, if_pos (hkind ▸ hdot)]
        exact hts
      · rw [dropDot, dropDot, if_neg hdot, if_neg (hkind ▸ hdot)]
        exact h

/-- **The parser does not look at places.**  Token lists that differ in nothing else are both
accepted, with the same tree but for places, or both refused for the same fault. -/
theorem matched_ofTokens {ts us : List Token} (h : Alike ts us) :
    Matched SameFault (fun e f => e.bare = f.bare) (Expr.ofTokens ts) (Expr.ofTokens us) := by
  refine ((agree_operand (endOf ts) (endOf us) maxNesting).expressionOf ts us h).bind ?_
  intro p q hsame
  have hrest := alike_dropDot hsame.rest
  cases hp : dropDot p.rest with
  | nil =>
      rw [hp, alike_nil_left] at hrest
      rw [hrest]
      exact .ok hsame.expr
  | cons t after =>
      rw [hp] at hrest
      obtain ⟨u, us', hq, hcontent, -⟩ := alike_cons_left.mp hrest
      rw [hq]
      exact .error (congrArg ParseFault.trailing (content_eq_iff.mp hcontent).2)

end Parser

/-! ### Lowering -/

/-- The chunks differ in their lines only. -/
structure Chunk.SameCode (c d : Chunk) : Prop where
  code : c.code = d.code
  constants : c.constants = d.constants

namespace Expr

theorem literals_bare (e : Expr) : e.bare.literals = e.literals := by
  induction e with
  | literal s kind text => rfl
  | unary s op e ih => exact ih
  | binary s level op l r ihl ihr => simp [bare, literals, ihl, ihr]
  | grouping s e ih => exact ih
  | primary s e ih => exact ih

/-- The bytes of a flattened tree do not depend on its places. -/
theorem flatten_bare (e : Expr) : ∀ used,
    (e.bare.flatten used).map Prod.fst = (e.flatten used).map Prod.fst := by
  induction e with
  | literal s kind text =>
      intro used
      rfl
  | unary s op e ih =>
      intro used
      simp [bare, flatten, ih]
  | binary s level op l r ihl ihr =>
      intro used
      simp [bare, flatten, ihl, ihr, literals_bare]
  | grouping s e ih => exact ih
  | primary s e ih => exact ih

/-- The code of a tree, byte by byte. -/
theorem code_of_lower {e : Expr} {c : Chunk} (h : e.lower = .ok c) :
    c.code.toList = (e.bare.flatten 0).map Prod.fst ++ [Opcode.ret.toByte] := by
  obtain ⟨bytes, hbytes, hprogram⟩ := holds_of_lower h
  have hfirst := congrArg (List.map Prod.fst) hprogram
  rw [List.map_map, program, List.map_append] at hfirst
  rw [hbytes.code, flatten_bare]
  exact hfirst

theorem constants_of_lower {e : Expr} {c : Chunk} (h : e.lower = .ok c) :
    c.constants.toList.map Except.ok = e.bare.literals.map fun l => Value.ofLiteral l.1 l.2 := by
  obtain ⟨c₁, hlow, rfl⟩ := lowered_of_lower h
  rw [literals_bare]
  exact hlow.constants

/-- **Lowering puts places nowhere but into the line table.** -/
theorem sameCode_of_lower {e f : Expr} {c d : Chunk} (hbare : e.bare = f.bare)
    (he : e.lower = .ok c) (hf : f.lower = .ok d) : c.SameCode d := by
  constructor
  · apply Array.toList_inj.mp
    rw [code_of_lower he, code_of_lower hf, hbare]
  · apply Array.toList_inj.mp
    apply List.map_injective_iff.mpr fun _ _ => Except.ok.inj
    rw [constants_of_lower he, constants_of_lower hf, hbare]

end Expr

/-! ### Execution -/

/-- The errors differ in their lines only. -/
structure MachineError.SameStop (err err' : MachineError) : Prop where
  fault : err.fault = err'.fault
  offset : err.offset = err'.offset

namespace Chunk

open MachineError

theorem SameCode.step {c d : Chunk} (h : c.SameCode d) : c.step = d.step := by
  funext offset byte stack
  unfold Chunk.step stepPush
  rw [h.code, h.constants]

/-- An instruction does not look at its line, so neither does a run. -/
theorem SameCode.ending {c d : Chunk} (h : c.SameCode d) (offset : Nat) (stack : Stack) :
    Matched SameStop Eq (c.ending offset stack).result (d.ending offset stack).result := by
  -- As in the run itself, an instruction leaves less code to go.
  induction hn : c.code.size - offset using Nat.strongRecOn generalizing offset stack with
  | ind n ih =>
      cases hb : c.code[offset]? with
      | none =>
          rw [ending_of_end hb, ending_of_end (h.code ▸ hb)]
          exact .error ⟨rfl, rfl⟩
      | some b =>
          obtain ⟨hlt, -⟩ := Array.getElem?_eq_some_iff.mp hb
          have hb' : d.code[offset]? = some b := h.code ▸ hb
          cases hstep : c.step offset b stack with
          | next extra stack' =>
              rw [ending_of_next hb hstep, ending_of_next hb' (h.step ▸ hstep)]
              exact ih _ (by omega) _ _ rfl
          | done v stack' =>
              rw [ending_of_done hb hstep, ending_of_done hb' (h.step ▸ hstep)]
              exact .ok rfl
          | fail fault moved stack' =>
              rw [ending_of_fail hb hstep, ending_of_fail hb' (h.step ▸ hstep)]
              exact .error ⟨rfl, rfl⟩

end Chunk

end StackCalc
