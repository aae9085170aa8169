/-
How the lowering of a source text can fail.

Of the faults that a tree put together by hand can have, one cannot come from a text at all.
The walk refuses a node with too many nodes above it, and the parser has refused the tree for
its height before; both bounds are the same, so a tree that was parsed is never too deep.
The others can come from a text only in part.  The parser lets through one operator that has
no meaning and the scanner one kind of literal that may have no value.

The walk blames a node, and the node has its site from the text.  So the bytes that a report
points at are always there.
-/
import StackCalc.Proofs.Flattening
import StackCalc.Proofs.Literals
import StackCalc.Proofs.NodeSpans

namespace StackCalc

open Grammar

namespace Expr

/-! ### What is wrong with a node -/

/-- The fault can be found at the node, whatever stands above and to the left of it. -/
inductive Faulty : Expr → LowerFault → Prop
  | line {n : Expr} (h : 65535 < n.site.position.line) : Faulty n .lineOutOfRange
  | text {s : Site} {kind : LiteralKind} {text : String} {x : ValueError}
      (h : Value.ofLiteral kind text = .error x) :
      Faulty (.literal s kind text) (.invalidLiteral x)
  | pool (s : Site) (kind : LiteralKind) (text : String) :
      Faulty (.literal s kind text) .tooManyConstants
  | prefixed {s : Site} {op : TokenKind} {e : Expr} (h : op ∉ prefixTable.map Prod.fst) :
      Faulty (.unary s op e) (.unsupportedOperator op)
  | joined {s : Site} {level : Level} {op : TokenKind} {l r : Expr}
      (h : op ∉ infixTable.map Prod.fst) :
      Faulty (.binary s level op l r) (.unsupportedOperator op)

theorem mem_violationIf {wrong : Prop} [Decidable wrong] {fault : LowerFault} {s : Site}
    {err : LowerError} : err ∈ violationIf wrong fault s ↔ wrong ∧ err = ⟨fault, s⟩ := by
  unfold violationIf
  by_cases h : wrong
  · simp [h]
  · simp [h]

/-- The error is the fault of a node of the tree. -/
def BlamesNode (e : Expr) (err : LowerError) : Prop :=
  ∃ n ∈ e.nodes, err.site = n.site ∧ n.Faulty err.fault

theorem BlamesNode.self {e : Expr} {fault : LowerFault} (hmem : e ∈ e.nodes)
    (h : e.Faulty fault) : e.BlamesNode ⟨fault, e.site⟩ :=
  ⟨e, hmem, rfl, h⟩

theorem BlamesNode.above {outer e : Expr} {err : LowerError} (h : e.BlamesNode err)
    (hsub : e.nodes ⊆ outer.nodes) : outer.BlamesNode err := by
  obtain ⟨n, hn, hsite, hfaulty⟩ := h
  exact ⟨n, hsub hn, hsite, hfaulty⟩

/-- **What is wrong with a tree within the bound on its height is wrong with a node of it**;
in particular no node is too deep. -/
theorem blamesNode_of_mem_violations (e : Expr) : ∀ {depth used : Nat} {err : LowerError},
    depth + e.height ≤ 1024 → err ∈ e.violations depth used → e.BlamesNode err := by
  induction e with
  | literal s kind text =>
      intro depth used err hdepth herr
      simp only [violations, List.mem_append, mem_violationIf] at herr
      simp only [height] at hdepth
      rcases herr with ⟨h, -⟩ | ⟨h, rfl⟩ | h | ⟨-, rfl⟩
      · omega
      · exact .self (by simp [nodes]) (.line h)
      · unfold textViolations at h
        split at h
        · simp at h
        · rename_i x hx
          obtain rfl := List.mem_singleton.mp h
          exact .self (by simp [nodes]) (.text hx)
      · exact .self (by simp [nodes]) (.pool s kind text)
  | unary s op e ih =>
      intro depth used err hdepth herr
      simp only [violations, List.mem_append, mem_violationIf] at herr
      simp only [height] at hdepth
      rcases herr with ⟨h, -⟩ | h | ⟨h, rfl⟩ | ⟨h, rfl⟩
      · omega
      · exact (ih (by omega) h).above (by simp [nodes])
      · exact .self (by simp [nodes]) (.line h)
      · exact .self (by simp [nodes]) (.prefixed h)
  | binary s level op l r ihl ihr =>
      intro depth used err hdepth herr
      simp only [violations, List.mem_append, mem_violationIf] at herr
      simp only [height] at hdepth
      rcases herr with ⟨h, -⟩ | h | h | ⟨h, rfl⟩ | ⟨h, rfl⟩
      · omega
      · exact (ihl (by omega) h).above (by simp [nodes])
      · exact (ihr (by omega) h).above (by simp [nodes])
      · exact .self (by simp [nodes]) (.joined h)
      · exact .self (by simp [nodes]) (.line h)
  | grouping s e ih | primary s e ih =>
      intro depth used err hdepth herr
      simp only [violations, List.mem_append, mem_violationIf] at herr
      simp only [height] at hdepth
      rcases herr with ⟨h, -⟩ | h
      · omega
      · exact (ih (by omega) h).above (by simp [nodes])

/-! ### The nodes of a tree that was read -/

/-- The operator of a node is one that the grammar puts there. -/
def FitsOperator : Expr → Prop
  | unary _ op _ => op ∈ prefixOperators
  | binary _ level op _ _ => op ∈ operatorsOf level
  | literal _ _ _ | grouping _ _ | primary _ _ => True

theorem Fits.fitsOperator {rank : Rank} {e : Expr} (h : e.Fits rank) :
    ∀ n ∈ e.nodes, n.FitsOperator := by
  induction h with
  | binary _ hop _ _ ihl ihr =>
      simp only [nodes, List.forall_mem_cons, List.forall_mem_append]
      exact ⟨hop, ihl, ihr⟩
  | inner _ _ ih => exact ih
  | unary hop _ ih =>
      simp only [nodes, List.forall_mem_cons]
      exact ⟨hop, ih⟩
  | primary _ ih => exact ih
  | literal => simp [nodes, FitsOperator]
  | grouping _ ih =>
      simp only [nodes, List.forall_mem_cons]
      exact ⟨trivial, ih⟩

/-- Every operator between operands has an instruction. -/
theorem mem_infixTable_of_operatorsOf {level : Level} {op : TokenKind}
    (h : op ∈ operatorsOf level) : op ∈ infixTable.map Prod.fst := by
  have hall : ∀ op ∈ operatorsOf level, op ∈ infixTable.map Prod.fst := by
    cases level <;> decide
  exact hall op h

/-- Every operator before an operand has a meaning, but for one. -/
theorem eq_odd_of_prefixOperators {op : TokenKind} (h : op ∈ prefixOperators)
    (hunknown : op ∉ prefixTable.map Prod.fst) : op = .keyword .oddWord := by
  have hall : ∀ op ∈ prefixOperators,
      op ∉ prefixTable.map Prod.fst → op = .keyword .oddWord := by
    decide
  exact hall op h hunknown

end Expr

namespace Grammar

/-- Each literal of the tree is one of the tokens. -/
theorem Derives.exists_literal {rank : Rank} {ts : List Token} {e : Expr}
    (h : Derives rank ts e) {s : Site} {kind : LiteralKind} {text : String} :
    .literal s kind text ∈ e.nodes →
      ∃ t ∈ ts, t.site = s ∧ terminalOf t = .literal kind text := by
  induction h using Derives.linkInduction with
  | inner _ _ ih => exact ih
  | @snoc rank inner level ts us op l r _ _ _ _ ihl ihr =>
      intro hmem
      simp only [joined, Expr.nodes, List.mem_cons, List.mem_append, reduceCtorEq,
        false_or] at hmem
      rcases hmem with hmem | hmem
      · obtain ⟨t, ht, hliteral⟩ := ihl hmem
        exact ⟨t, by simp [ht], hliteral⟩
      · obtain ⟨t, ht, hliteral⟩ := ihr hmem
        exact ⟨t, by simp [ht], hliteral⟩
  | prefixed _ _ ih =>
      intro hmem
      simp only [Expr.nodes, List.mem_cons, reduceCtorEq, false_or] at hmem
      obtain ⟨t, ht, hliteral⟩ := ih hmem
      exact ⟨t, by simp [ht], hliteral⟩
  | primary _ ih => exact ih
  | @literal t kind' text' hterminal =>
      intro hmem
      simp only [Expr.nodes, List.mem_cons, reduceCtorEq, false_or, List.not_mem_nil,
        or_false, Expr.literal.injEq] at hmem
      obtain ⟨rfl, rfl, rfl⟩ := hmem
      exact ⟨t, by simp, rfl, hterminal⟩
  | grouping _ _ _ ih =>
      intro hmem
      simp only [Expr.nodes, List.mem_cons, reduceCtorEq, false_or] at hmem
      obtain ⟨t, ht, hliteral⟩ := ih hmem
      exact ⟨t, by simp [ht], hliteral⟩

end Grammar

/-! ### All stages -/

/-- A text that fails to be lowered has been scanned and parsed. -/
theorem Chunk.ofSource_eq_lower_error {source : String} {err : LowerError}
    (h : Chunk.ofSource source = .error (.lower err)) :
    ∃ ts e, Token.scan source = .ok ts ∧ Expr.ofTokens ts = .ok e ∧ e.lower = .error err := by
  rcases bind_eq_error h with h | ⟨e, he, h⟩
  · -- The stages before have errors of their own.
    rcases bind_eq_error h with h | ⟨ts, -, h⟩
    · obtain ⟨x, -, hx⟩ := mapError_eq_error h
      cases hx
    · obtain ⟨x, -, hx⟩ := mapError_eq_error h
      cases hx
  · obtain ⟨err', hlower, herr⟩ := mapError_eq_error h
    obtain rfl := CompileError.lower.inj herr
    obtain ⟨ts, hscan, hparse⟩ := Expr.ofSource_eq_ok he
    exact ⟨ts, e, hscan, hparse, hlower⟩

/-- The bytes of a node of a tree that was read are in the text, and there are some. -/
theorem Expr.span_of_mem_nodes {source : String} {ts : List Token} {root n : Expr}
    (hscan : Token.scan source = .ok ts) (hroot : Expr.ofTokens ts = .ok root)
    (hn : n ∈ root.nodes) :
    n.site.span.start < n.site.span.stop ∧ n.site.span.stop ≤ source.utf8ByteSize := by
  obtain ⟨⟨body, tail, hderives, -, rfl⟩, -, -⟩ := Parser.program_of_ofTokens hroot
  obtain ⟨us, hus, hof⟩ := hderives.readFrom.mono (List.prefix_append body tail).isInfix n hn
  have horder := (Token.InOrder.of_scan hscan).of_sublist hus.sublist
  have hextent := hof.extent horder
  obtain ⟨text, -, ⟨before, after, hsource, hspan⟩, -⟩ := Token.exists_cut hscan hus hextent
  refine ⟨hextent.nonempty horder, ?_⟩
  rw [hspan, hsource, String.utf8ByteSize_append, String.utf8ByteSize_append]
  exact Nat.le_add_right ..

/-- What the fault of a node of a tree that was read can be. -/
theorem Expr.Faulty.reachable {source : String} {ts : List Token} {root n : Expr}
    {fault : LowerFault} (hscan : Token.scan source = .ok ts) (hroot : Expr.ofTokens ts = .ok root)
    (hn : n ∈ root.nodes) (h : n.Faulty fault) :
    fault = .tooManyConstants ∨ fault = .unsupportedOperator (.keyword .oddWord) ∨
      (∃ t ∈ ts, t.kind = .number .integer ∧ t.site = n.site ∧
        fault = .invalidLiteral (.invalidLiteral .integer t.literal)) ∨
      (fault = .lineOutOfRange ∧ 65535 < n.site.position.line) := by
  obtain ⟨⟨body, tail, hderives, -, rfl⟩, -, -⟩ := Parser.program_of_ofTokens hroot
  have hoperator := hderives.fits.fitsOperator n hn
  cases h with
  | line h => exact Or.inr (Or.inr (Or.inr ⟨rfl, h⟩))
  | pool s kind text => exact Or.inl rfl
  | prefixed h =>
      rw [eq_odd_of_prefixOperators hoperator h]
      exact Or.inr (Or.inl rfl)
  | joined h => exact absurd (mem_infixTable_of_operatorsOf hoperator) h
  | text h =>
      obtain ⟨t, ht, hsite, hterminal⟩ := hderives.exists_literal hn
      have hmem : t ∈ body ++ tail := by simp [ht]
      have hplaced := Token.placed_of_scan hscan t hmem
      obtain ⟨hkind, rfl⟩ := kind_of_ofLiteral_error hplaced hterminal h
      exact Or.inr (Or.inr (Or.inl ⟨t, hmem, hkind, hsite, rfl⟩))

/-- **A source text that parses is refused by lowering for one of four reasons**: too many
literals, the one prefix operator that means nothing, an integer that is too large, or a line
beyond the table.  It is never too deep, no operator between operands is refused, and the
report has bytes of the text to point at. -/
theorem Chunk.ofSource_lower_error {source : String} {err : LowerError}
    (h : Chunk.ofSource source = .error (.lower err)) :
    (err.fault = .tooManyConstants ∨ err.fault = .unsupportedOperator (.keyword .oddWord) ∨
      (∃ ts, Token.scan source = .ok ts ∧ ∃ t ∈ ts, t.kind = .number .integer ∧
        t.site = err.site ∧ err.fault = .invalidLiteral (.invalidLiteral .integer t.literal)) ∨
      (err.fault = .lineOutOfRange ∧ 65535 < err.line)) ∧
    err.fault ≠ .tooDeep ∧
    (∀ level, ∀ op ∈ operatorsOf level, err.fault ≠ .unsupportedOperator op) ∧
    ∃ span, (CompileError.lower err).span? = some span ∧ span.start < span.stop ∧
      span.stop ≤ source.utf8ByteSize := by
  obtain ⟨ts, root, hscan, hroot, hlower⟩ := Chunk.ofSource_eq_lower_error h
  have herr := (root.decides_lower.error_iff err).mp hlower
  have hheight := (Parser.program_of_ofTokens hroot).2.2
  obtain ⟨n, hn, hsite, hfaulty⟩ := root.blamesNode_of_mem_violations
    (by rw [Nat.zero_add]; exact hheight) (List.mem_of_head? herr)
  obtain ⟨hnonempty, hinside⟩ := Expr.span_of_mem_nodes hscan hroot hn
  have hspan : (CompileError.lower err).span? = some n.site.span := by
    show (if err.site.span = .unknown then none else some err.site.span) = _
    rw [hsite, if_neg]
    intro hunknown
    rw [hunknown] at hnonempty
    simp [Span.unknown] at hnonempty
  have hreach := hfaulty.reachable hscan hroot hn
  rw [← hsite] at hreach
  refine ⟨?_, ?_, ?_, n.site.span, hspan, hnonempty, hinside⟩
  · rcases hreach with hpool | hodd | hinteger | hline
    · exact Or.inl hpool
    · exact Or.inr (Or.inl hodd)
    · exact Or.inr (Or.inr (Or.inl ⟨ts, hscan, hinteger⟩))
    · exact Or.inr (Or.inr (Or.inr hline))
  · intro hdeep
    simp [hdeep] at hreach
  · intro level op hop hunsupported
    obtain rfl : op = .keyword .oddWord := by simpa [hunsupported] using hreach
    cases level <;> simp [operatorsOf] at hop

/-- An integer of more than 32 bits on the second line, of which the ticks are no part. -/
theorem Chunk.ofSource_largeInteger :
    Chunk.ofSource "1 +\n 2'147'483'648" =
        .error (.lower ⟨.invalidLiteral (.invalidLiteral .integer "2'147'483'648"),
          ⟨⟨2, 2⟩, ⟨5, 18⟩⟩⟩) ∧
      ∃ span, (CompileError.lower ⟨.invalidLiteral (.invalidLiteral .integer "2'147'483'648"),
          ⟨⟨2, 2⟩, ⟨5, 18⟩⟩⟩).span? = some span ∧ span.start < span.stop ∧
        span.stop ≤ "1 +\n 2'147'483'648".utf8ByteSize := by
  have h : Chunk.ofSource "1 +\n 2'147'483'648" =
      .error (.lower ⟨.invalidLiteral (.invalidLiteral .integer "2'147'483'648"),
        ⟨⟨2, 2⟩, ⟨5, 18⟩⟩⟩) := by
    decide +kernel
  exact ⟨h, (Chunk.ofSource_lower_error h).2.2.2⟩

end StackCalc
