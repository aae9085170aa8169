/-
Printed integers can be read back.

An integer is printed as digits, with a minus in front if it is negative.  There are no negative
literals, so what is read back is one literal, or one literal under a sign: the magnitude is read
first and negated afterwards, and both have to fit in 32 bits.  The magnitude of every integer
does but for the least one, which is one more than the greatest integer there is.  That one is
refused where its literal is lowered, before anything is negated, although a program can compute
it in another way.
-/
import StackCalc.Proofs.ErrorPositions
import StackCalc.Proofs.JsonReading
import StackCalc.Proofs.LiteralValues

namespace StackCalc

open Grammar

/-! ### Digits -/

theorem isDigit_of_mem_toString {n : Nat} {c : Char} (hc : c ∈ (toString n).toList) :
    c.isDigit = true := by
  rw [Nat.toString_eq_ofList_toDigits, String.toList_ofList] at hc
  exact Nat.isDigit_of_mem_toDigits (by omega) (by omega) hc

/-- A printed number is an integer literal. -/
theorem isLexeme_toString (n : Nat) : IsLexeme (.number .integer) (toString n).toList := by
  have hall : ∀ c ∈ (toString n).toList, c.isDigit = true := fun c => isDigit_of_mem_toString
  obtain ⟨d, ds, htext, hd⟩ := Json.exists_digits n
  rw [htext] at hall ⊢
  refine .integer hd ?_
  intro c hc
  rw [isNumberChar, hall c (List.mem_cons_of_mem d hc), Bool.true_or]

/-- A printed number has no ticks and names itself. -/
theorem decimalValue_toString (n : Nat) : decimalValue (toString n) = n := by
  have hticks : Value.withoutTicks (toString n) = Nat.toDigits 10 n := by
    unfold Value.withoutTicks
    rw [List.filter_eq_self.mpr, Nat.toString_eq_ofList_toDigits, String.toList_ofList]
    intro c hc
    rw [bne_iff_ne]
    rintro rfl
    exact absurd (isDigit_of_mem_toString hc) (by decide)
  rw [decimalValue, hticks, Nat.ofDigitChars_toDigits (by omega) (by omega)]

/-- The literal of a printed number is the number, if there is such a value. -/
theorem Value.ofLiteral_toString {n : Int32} {m : Nat} (h : n.toInt = m) :
    ofLiteral (.number .integer) (toString m) = .ok (.integer n) := by
  have hvalue := decimalValue_toString m
  have hword := inWord_toInt n
  unfold InWord at hword
  obtain ⟨k, hk, hread⟩ :=
    exists_ofLiteral_of_le (isLexeme_toString m).isDigits_withoutTicks (by omega)
  have hsame : k.toInt = n.toInt := by rw [hk, h, hvalue]
  rw [hread, Int32.toInt_inj.mp hsame]

/-! ### Texts of one line -/

/-- The tokens of a text without newlines are on its first line. -/
theorem Token.line_eq_one {source : String} (hline : '\n' ∉ source.toList) {ts : List Token}
    (hscan : scan source = .ok ts) : ∀ t ∈ ts, t.site.position.line = 1 := by
  intro t ht
  obtain ⟨hpos, hle⟩ := (standsIn_of_scan hscan t ht).line_bounds
  rw [LineMap.lineCount_ofSource, List.count_eq_zero_of_not_mem hline] at hle
  omega

/-- A text has the value of its tree, if the tree can be lowered. -/
theorem interpret_of_eval {source : String} {ts : List Token} {e : Expr} {v : Value}
    (hscan : Token.scan source = .ok ts) (hparse : Expr.ofTokens ts = .ok e)
    (hlowerable : e.Lowerable) (hv : e.eval = .ok v) : interpret source = .ok v := by
  obtain ⟨c, hlower⟩ := e.decides_lower.ok_iff.mpr (e.lowerable_iff.mpr hlowerable)
  refine interpret_eq_ok.mpr ⟨c, ?_, ?_⟩
  · rw [Chunk.ofSource_of_tree (Expr.ofSource_of_ofTokens hscan hparse), hlower]
    rfl
  · rw [Machine.run_load, Machine.ending_of_eval_ok hlower hv]

/-! ### One literal, and one under a sign -/

/-- An operand with its signs is a whole program. -/
theorem ofTokens_of_unary {ts : List Token} {e : Expr} (h : Derives .unary ts e)
    (hnesting : e.nesting ≤ maxNesting) (hheight : e.height ≤ maxHeight) :
    Expr.ofTokens ts = .ok e := by
  have hfactor : Derives .factor ts e := h.ofInner rfl
  have hterm : Derives .term ts e := hfactor.ofInner rfl
  have hcomparison : Derives .comparison ts e := hterm.ofInner rfl
  have hequality : Derives .equality ts e := hcomparison.ofInner rfl
  exact Parser.ofTokens_of_program ⟨ts, [], hequality, Or.inl rfl, (List.append_nil ts).symm⟩
    hnesting hheight

/-- The program of one literal runs to its value. -/
theorem interpret_literal {source text : String} {t : Token} {kind : LiteralKind} {v : Value}
    (hscan : Token.scan source = .ok [t]) (hline : t.site.position.line ≤ 65535)
    (ht : terminalOf t = .literal kind text) (hv : Value.ofLiteral kind text = .ok v) :
    interpret source = .ok v := by
  refine interpret_of_eval hscan (ofTokens_of_unary (.primary (.literal ht)) ?_ ?_) ?_ ?_
  · simp [Expr.nesting]
  · simp [Expr.height, maxHeight]
  · refine ⟨by simp [Expr.height], by simp [Expr.literals], ?_⟩
    simp [Expr.nodes, Expr.NodeOk, hline, hv]
  · rw [Expr.eval, Expr.eval_literal hv]
    rfl

/-- The program of a literal under a minus negates its value. -/
theorem interpret_negated {source text : String} {sign t : Token} {kind : LiteralKind}
    {a v : Value} (hscan : Token.scan source = .ok [sign, t]) (hsign : sign.kind = .mark .minus)
    (hline : ∀ u ∈ [sign, t], u.site.position.line ≤ 65535)
    (ht : terminalOf t = .literal kind text) (ha : Value.ofLiteral kind text = .ok a)
    (hv : a.unary .negate = .ok v) : interpret source = .ok v := by
  have hop : sign.kind ∈ prefixOperators := by simp [hsign, prefixOperators]
  have hmeaning : sign.kind.prefixMeaning? = some (.compute .negate) := by
    rw [hsign]
    rfl
  refine interpret_of_eval hscan (ofTokens_of_unary (.prefixed hop (.primary (.literal ht))) ?_ ?_)
    ?_ ?_
  · simp [Expr.nesting, maxNesting]
  · simp [Expr.height, maxHeight]
  · refine ⟨by simp [Expr.height], by simp [Expr.literals], ?_⟩
    simp only [List.forall_mem_cons, List.not_mem_nil, false_implies, implies_true, and_true]
      at hline
    simp [Expr.nodes, Expr.NodeOk, Expr.prefixTable, hsign, hline, ha]
  · have heval : (Expr.primary t.site (.literal t.site kind text)).eval = .ok a := by
      rw [Expr.eval, Expr.eval_literal ha]
      rfl
    rw [Expr.eval_unary_ok hmeaning heval, hv]
    rfl

/-- No lexeme but the minus itself starts with a minus. -/
theorem longest_minus (rest : List Char) : Longest ['-'] rest := by
  have hmark : ∀ c : Char, Mark.ofSpelling? (String.ofList ['-', c]) = none := by
    intro c
    rw [Option.eq_none_iff_forall_ne_some]
    intro m hm
    rw [Mark.ofSpelling?_eq_some_iff, ← String.toList_inj, String.toList_ofList] at hm
    cases m <;> simp [Mark.spelling] at hm
  have hfront : Piece.front '-' rest = .lexeme (.mark .minus) 0 := by
    rw [@Piece.front_of_mark .minus '-' [] rfl]
    cases rest with
    | nil => rfl
    | cons c rest =>
        simp only [Piece.mark, List.take_succ_cons, List.take_zero, hmark]
        rfl
  exact (Piece.front_eq_lexeme_iff.mp hfront).2.2

/-- A number is scanned as one literal, also behind a minus. -/
theorem tiling_toString (m : Nat) :
    Tiling (toString m).toList [⟨[], .number .integer, (toString m).toList⟩] [] ∧
      Tiling ("-" ++ toString m).toList
        [⟨[], .mark .minus, ['-']⟩, ⟨[], .number .integer, (toString m).toList⟩] [] := by
  have hlexeme := isLexeme_toString m
  have hdigits : Tiling (toString m).toList [⟨[], .number .integer, (toString m).toList⟩] [] := by
    have hone := Tiling.cons ⟨[], .number .integer, (toString m).toList⟩ .empty hlexeme
      (hlexeme.longest (by simp [Parted])) (.last .empty)
    simpa using hone
  refine ⟨hdigits, ?_⟩
  rw [String.toList_append]
  exact .cons ⟨[], .mark .minus, ['-']⟩ .empty (.mark .minus) (longest_minus _) hdigits

/-- An integer that is not negative is printed as a literal. -/
theorem interpret_toString {n : Int32} {m : Nat} (h : n.toInt = m) :
    interpret (toString m) = .ok (.integer n) := by
  have hscan := Token.scan_of_tiling (tiling_toString m).1
  have hline := Token.line_eq_one (isLexeme_toString m).newline_notMem hscan
  refine interpret_literal hscan ?_ rfl ?_
  · rw [hline _ List.mem_cons_self]
    decide
  · show Value.ofLiteral _ (String.ofList (toString m).toList) = _
    rw [String.ofList_toList]
    exact Value.ofLiteral_toString h

/-- A negative integer is printed as a literal under a minus, and its magnitude is an integer
unless it is the least. -/
theorem interpret_minus_toString {n : Int32} {m : Nat} (h : n.toInt = -m)
    (hm : m ≤ 2147483647) : interpret ("-" ++ toString m) = .ok (.integer n) := by
  have hscan := Token.scan_of_tiling (tiling_toString m).2
  have hnewline : '\n' ∉ ("-" ++ toString m).toList := by
    rw [String.toList_append, List.mem_append]
    rintro (hsign | hdigits)
    · exact absurd hsign (by decide)
    · exact (isLexeme_toString m).newline_notMem hdigits
  have hline := Token.line_eq_one hnewline hscan
  have hword : InWord (m : Int) := by
    unfold InWord
    omega
  have hmagnitude : Value.ofLiteral (.number .integer) (String.ofList (toString m).toList) =
      .ok (.integer (Int32.ofInt m)) := by
    rw [String.ofList_toList]
    exact Value.ofLiteral_toString (Value.toInt_ofInt hword)
  refine interpret_negated hscan rfl ?_ rfl hmagnitude ?_
  · intro u hu
    rw [hline u hu]
    decide
  · show Value.checked _ (-(Int32.ofInt m).toInt) = _
    rw [Value.toInt_ofInt hword, ← h, Value.checked,
      if_pos ((Value.inRange_iff _).mpr (Value.inWord_toInt n)), Int32.ofInt_toInt]

/-- **Every integer but the least can be read back from what is printed for it.**  The least one
is refused for its digits, which name an integer that is too large by one, although it can be
computed and is printed like any other. -/
theorem interpret_text_integer (n : Int32) :
    (interpret (Value.integer n).text =
      if n = Int32.minValue then
        .error (.compile (.lower ⟨.invalidLiteral (.invalidLiteral .integer "2147483648"),
          ⟨⟨1, 2⟩, ⟨1, 11⟩⟩⟩) "-2147483648")
      else .ok (.integer n)) ∧
    interpret "-2147483647 - 1" = .ok (.integer Int32.minValue) ∧
    (Value.integer Int32.minValue).text = "-2147483648" := by
  refine ⟨?_, by decide +kernel, by cbv⟩
  by_cases hleast : n = Int32.minValue
  · rw [if_pos hleast, hleast]
    decide +kernel
  · rw [if_neg hleast]
    have hword := Value.inWord_toInt n
    have hne : n.toInt ≠ -2147483648 := fun h =>
      hleast (Int32.toInt_inj.mp h)
    unfold InWord at hword
    show interpret (toString n.toInt) = _
    cases h : n.toInt with
    | ofNat m => exact interpret_toString h
    | negSucc m => exact interpret_minus_toString h (by omega)

end StackCalc
