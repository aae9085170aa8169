/-
How the run of a source text can fail.

A text that compiles has code that never goes wrong as code: the only thing left that can
fail is an operation on values.  The instruction that fails belongs to an operator node of
the tree, the node got its position from an operator token, and the token stands on a line
of the text.  The argument follows that chain backwards through every stage, and its end is
that the report of the failure always has a line to point at.
-/
import StackCalc.Proofs.Evaluation
import StackCalc.Proofs.Parsing
import StackCalc.Proofs.Places
import StackCalc.Run

namespace StackCalc

open Grammar

/-! ### Operations without a value -/

/-- The ways in which an operation on values can fail. -/
inductive ValueError.IsOperational : ValueError → Prop
  | unsupportedOperation (op : BinaryOp) (left right : Tag) :
      IsOperational (.unsupportedOperation op left right)
  | unsupportedUnary (op : UnaryOp) (operand : Tag) : IsOperational (.unsupportedUnary op operand)
  | divisionByZero : IsOperational .divisionByZero
  | integerOverflow (symbol : String) : IsOperational (.integerOverflow symbol)

namespace Value

theorem checked_error {symbol : String} {n : Int} {x : ValueError}
    (h : checked symbol n = .error x) : x.IsOperational := by
  unfold checked at h
  split at h
  · simp at h
  · rw [← Except.error.inj h]
    exact .integerOverflow symbol

theorem onIntegers_error {op : BinaryOp} {a b : Int} {x : ValueError}
    (h : onIntegers op a b = .error x) : x.IsOperational := by
  unfold onIntegers at h
  split at h
  · exact checked_error h
  · exact checked_error h
  · exact checked_error h
  · split at h
    · rw [← Except.error.inj h]
      exact .divisionByZero
    · exact checked_error h
  all_goals simp at h

theorem onDoubles_error {op : BinaryOp} {a b : Float} {x : ValueError}
    (h : onDoubles op a b = .error x) : x.IsOperational := by
  unfold onDoubles at h
  split at h
  case h_4 =>
    split at h
    · rw [← Except.error.inj h]
      exact .divisionByZero
    · simp at h
  all_goals simp at h

theorem binary_error {op : BinaryOp} {a b : Value} {x : ValueError}
    (h : a.binary op b = .error x) : x.IsOperational := by
  unfold binary at h
  split at h
  · exact onIntegers_error h
  · exact onDoubles_error h
  · exact onDoubles_error h
  · exact onDoubles_error h
  · split at h
    · simp at h
    · simp at h
    · simp at h
    · rw [← Except.error.inj h]
      exact .unsupportedOperation _ _ _
  · split at h
    · simp at h
    · simp at h
    · rw [← Except.error.inj h]
      exact .unsupportedOperation _ _ _
  · rw [← Except.error.inj h]
    exact .unsupportedOperation _ _ _

theorem unary_error {op : UnaryOp} {a : Value} {x : ValueError}
    (h : a.unary op = .error x) : x.IsOperational := by
  cases a <;> cases op <;> simp only [unary, reduceCtorEq, Except.error.injEq] at h
  · rw [← h]
    exact .unsupportedUnary _ _
  · exact checked_error h
  all_goals
    rw [← h]
    exact .unsupportedUnary _ _

end Value

theorem Expr.OperationFails.isOperational {n : Expr} {x : ValueError} (h : OperationFails n x) :
    x.IsOperational := by
  cases h with
  | unary _ h => exact Value.unary_error h
  | binary _ h => exact Value.binary_error h

/-- An operation that fails is explained under one of three codes. -/
theorem ValueError.IsOperational.code {x : ValueError} (h : x.IsOperational) :
    (Fault.value x).code ∈ ["PL0-R001", "PL0-R002", "PL0-R003"] := by
  cases h <;> simp [Fault.code]

/-! ### The token of an operator node -/

/-- The tokens that the grammar uses as operators. -/
def IsOperator (kind : TokenKind) : Prop :=
  kind ∈ prefixOperators ∨ ∃ level, kind ∈ operatorsOf level

/-- The operator of a node that has one. -/
def Expr.operator? : Expr → Option TokenKind
  | unary _ op _ => some op
  | binary _ _ op _ _ => some op
  | _ => none

theorem Expr.OperationFails.operator? {n : Expr} {x : ValueError} (h : OperationFails n x) :
    ∃ op, n.operator? = some op := by
  cases h with
  | unary _ _ => exact ⟨_, rfl⟩
  | binary _ _ => exact ⟨_, rfl⟩

/-- Each operator node of the expression has the position of an operator among the tokens. -/
def OperatorsFrom (ts : List Token) (e : Expr) : Prop :=
  ∀ ⦃path : List Expr.Turn⦄ ⦃n : Expr⦄ ⦃op : TokenKind⦄, e.nodeAt? path = some n →
    n.operator? = some op →
    ∃ t ∈ ts, t.kind = op ∧ IsOperator t.kind ∧ t.site.position = n.site.position

theorem OperatorsFrom.mono {ts us : List Token} {e : Expr} (h : OperatorsFrom ts e)
    (hsub : ts ⊆ us) : OperatorsFrom us e := by
  intro path n op hn hop
  obtain ⟨t, ht, hrest⟩ := h hn hop
  exact ⟨t, hsub ht, hrest⟩

/-- A node over one operand adds its own operator, if it has one. -/
theorem OperatorsFrom.above {ts : List Token} {outer e : Expr} (h : OperatorsFrom ts e)
    (houter : Expr.OnlyOperand outer e)
    (hown : ∀ op, outer.operator? = some op →
      ∃ t ∈ ts, t.kind = op ∧ IsOperator t.kind ∧ t.site.position = outer.site.position) :
    OperatorsFrom ts outer := by
  intro path n op hn hop
  rcases houter.nodeAt?_cases hn with ⟨rfl, rfl⟩ | ⟨below, rfl, hbelow⟩
  · exact hown op hop
  · exact h hbelow hop

/-- **An operator node has the position of its operator's token.** -/
theorem operatorsFrom_of_derives {rank : Rank} {ts : List Token} {e : Expr}
    (h : Derives rank ts e) : OperatorsFrom ts e := by
  induction h using Derives.linkInduction with
  | inner _ _ ih => exact ih
  | @snoc rank inner level ts us op l r _ _ hop _ ihl ihr =>
      intro path n kind hn hkind
      cases path with
      | nil =>
          obtain rfl := Option.some.inj hn
          obtain rfl := Option.some.inj hkind
          exact ⟨op, by simp, rfl, Or.inr ⟨level, hop⟩, rfl⟩
      | cons turn path =>
          cases turn with
          | inner => simp [joined, Expr.nodeAt?] at hn
          | left => exact ihl.mono (by simp) hn hkind
          | right => exact ihr.mono (by simp) hn hkind
  | @prefixed op ts e hop _ ih =>
      refine (ih.mono (List.subset_cons_self ..)).above (.unary ..) ?_
      intro kind hkind
      obtain rfl := Option.some.inj hkind
      exact ⟨op, by simp, rfl, Or.inl hop, rfl⟩
  | primary _ ih => exact ih
  | literal _ =>
      refine OperatorsFrom.above ?_ (.primary ..) (by simp [Expr.operator?])
      intro path n kind hn hkind
      cases path with
      | nil =>
          obtain rfl := Option.some.inj hn
          simp [Expr.operator?] at hkind
      | cons turn path => simp [Expr.nodeAt?] at hn
  | grouping _ _ _ ih =>
      refine (ih.mono (by simp)).above (.grouping ..) ?_
      simp [Expr.operator?]

/-! ### All stages -/

/-- A text with code has been through every stage. -/
theorem Chunk.ofSource_eq_ok {source : String} {c : Chunk} (h : Chunk.ofSource source = .ok c) :
    ∃ ts e, Token.scan source = .ok ts ∧ Expr.ofTokens ts = .ok e ∧ e.lower = .ok c := by
  obtain ⟨e, he, h⟩ := bind_eq_ok h
  obtain ⟨ts, hts, he⟩ := bind_eq_ok he
  exact ⟨ts, e, mapError_eq_ok hts, mapError_eq_ok he, mapError_eq_ok h⟩

theorem Chunk.ofSource_of_error {source : String} {e : CompileError}
    (h : Expr.ofSource source = .error e) : Chunk.ofSource source = .error e := by
  unfold Chunk.ofSource
  rw [h]
  rfl

/-- A text with a tree has code exactly when the tree has. -/
theorem Chunk.ofSource_of_tree {source : String} {tree : Expr}
    (h : Expr.ofSource source = .ok tree) :
    Chunk.ofSource source = tree.lower.mapError .lower := by
  unfold Chunk.ofSource
  rw [h]
  rfl

/-- A text has the value that its code is run to. -/
theorem interpret_eq_ok {source : String} {v : Value} :
    interpret source = .ok v ↔
      ∃ c, Chunk.ofSource source = .ok c ∧ (Machine.load c).run.1 = .ok v := by
  unfold interpret
  constructor
  · intro h
    split at h
    · cases h
    · exact ⟨_, ‹_›, mapError_eq_ok h⟩
  · rintro ⟨c, hcode, hrun⟩
    rw [hcode]
    show (Machine.load c).run.1.mapError _ = _
    rw [hrun]
    rfl

theorem interpret_eq_execute {source source' : String} {err : MachineError}
    (h : interpret source = .error (.execute err source')) :
    source' = source ∧ ∃ ts e c, Token.scan source = .ok ts ∧ Expr.ofTokens ts = .ok e ∧
      e.lower = .ok c ∧ (Machine.load c).run.1 = .error err := by
  unfold interpret at h
  split at h
  · simp at h
  · rename_i c hc
    obtain ⟨err', hrun, herr⟩ := mapError_eq_error h
    obtain ⟨rfl, rfl⟩ := RunError.execute.inj herr
    obtain ⟨ts, e, hts, he, hlower⟩ := Chunk.ofSource_eq_ok hc
    exact ⟨rfl, ts, e, c, hts, he, hlower, hrun⟩

/-- The line of a failed run is that of an operator token. -/
theorem exists_operator_of_execute {source source' : String} {err : MachineError}
    (h : interpret source = .error (.execute err source')) :
    ∃ x ts t, err.fault = .value x ∧ x.IsOperational ∧ Token.scan source = .ok ts ∧ t ∈ ts ∧
      IsOperator t.kind ∧ t.site.position.line = err.line.toNat := by
  obtain ⟨-, ts, e, c, hscan, hparse, hlower, hrun⟩ := interpret_eq_execute h
  obtain ⟨evalErr, n, x, op, -, hstopped, hemitted, rfl⟩ := Machine.exists_eval_error hlower hrun
  obtain ⟨hprogram, -, -⟩ := Parser.program_of_ofTokens hparse
  obtain ⟨body, tail, hderives, -, rfl⟩ := hprogram
  obtain ⟨kind, hkind⟩ := hstopped.fails.operator?
  obtain ⟨t, ht, -, hoperator, hposition⟩ := operatorsFrom_of_derives hderives hstopped.node hkind
  refine ⟨x, body ++ tail, t, rfl, hstopped.fails.isOperational, hscan, by simp [ht], hoperator, ?_⟩
  rw [hposition]
  exact hemitted.lineAt.symm

/-- **A source text that compiles fails only in an operation on values, on a line of its
own.**  The line is that of an operator in the text, and the report is filed under one of
three codes and points at that line and nothing else. -/
theorem interpret_execute_error {source source' : String} {err : MachineError}
    (h : interpret source = .error (.execute err source')) :
    (∃ x, err.fault = .value x ∧ x.IsOperational) ∧
    1 ≤ err.line.toNat ∧ err.line.toNat ≤ min 65535 (LineMap.ofSource source).lineCount ∧
    (∃ ts, Token.scan source = .ok ts ∧
      ∃ t ∈ ts, IsOperator t.kind ∧ t.site.position.line = err.line.toNat) ∧
    (∃ code ∈ ["PL0-R001", "PL0-R002", "PL0-R003"],
      (RunError.execute err source').report.code = some code) ∧
    ∃ span, (LineMap.ofSource source).lineSpan? err.line.toNat = some span ∧
      (RunError.execute err source').report.labels = [⟨span, "while evaluating this line"⟩] := by
  obtain ⟨x, ts, t, hfault, hx, hscan, ht, hoperator, hline⟩ := exists_operator_of_execute h
  obtain ⟨hpos, hle⟩ := (Token.standsIn_of_scan hscan t ht).line_bounds
  rw [hline] at hpos hle
  have hmax := err.line.toNat_lt
  obtain ⟨span, hspan⟩ := LineMap.exists_lineSpan? hpos hle
  obtain ⟨rfl, -⟩ := interpret_eq_execute h
  refine ⟨⟨x, hfault, hx⟩, hpos, by omega, ⟨ts, hscan, t, ht, hoperator, hline⟩,
    ⟨err.fault.code, ?_, rfl⟩, span, hspan, ?_⟩
  · rw [hfault]
    exact hx.code
  · show RunError.lineLabels source' err.line.toNat = _
    simp [RunError.lineLabels, hspan]

/-- A negated text on the second line, where the report points. -/
theorem interpret_negated_text :
    interpret "\n-\"a\"" =
        .error (.execute ⟨.value (.unsupportedUnary .negate .string), 2, 2⟩ "\n-\"a\"") ∧
      ∃ span, (LineMap.ofSource "\n-\"a\"").lineSpan? 2 = some span ∧
        (RunError.execute ⟨.value (.unsupportedUnary .negate .string), 2, 2⟩
          "\n-\"a\"").report.labels = [⟨span, "while evaluating this line"⟩] := by
  have h : interpret "\n-\"a\"" =
      .error (.execute ⟨.value (.unsupportedUnary .negate .string), 2, 2⟩ "\n-\"a\"") := by
    decide +kernel
  exact ⟨h, (interpret_execute_error h).2.2.2.2.2⟩

end StackCalc
