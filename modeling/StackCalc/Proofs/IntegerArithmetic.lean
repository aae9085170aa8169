/-
Integer expressions compute exactly.

An expression of integer literals, signs and the four operators has a value over the unbounded
integers, unless it divides by zero.  `Expr.exactValue?` computes it with no bound anywhere, and
`Expr.FitsWord` says of one node that this value exists and has 32 bits.  A run keeps to 32 bits
at every node, so it can give the exact value only when every node fits.

That it gives it then, and what it says otherwise, is one induction.  While all nodes so far
fit, the machine's integers are the exact ones; the first node that does not fit has operands
that do, so its exact result is known and is what the operation was asked for.  Either there is
none, because the right operand is zero, or it is out of range.  A quotient can be out of range
too: the least integer divided by minus one is one more than the greatest.
-/
import StackCalc.Proofs.Typing

namespace StackCalc

/-! ### Exact values -/

/-- The integer has 32 bits. -/
def InWord (z : Int) : Prop :=
  -2147483648 ≤ z ∧ z ≤ 2147483647

instance (z : Int) : Decidable (InWord z) :=
  inferInstanceAs (Decidable (-2147483648 ≤ z ∧ z ≤ 2147483647))

/-- The integer that a literal names, however large it is. -/
def literalInt (text : String) : Int :=
  let (negative, digits) := splitSign (Value.withoutTicks text)
  if negative then -(digitsValue digits : Int) else digitsValue digits

namespace TokenKind

/-- What a sign makes of an integer. -/
def exactPrefix? : TokenKind → Int → Option Int
  | mark .plus, a => some a
  | mark .minus, a => some (-a)
  | _, _ => none

/-- What an operator makes of two integers.  Division goes toward zero, and there is none by
zero. -/
def exactInfix? : TokenKind → Int → Int → Option Int
  | mark .plus, a, b => some (a + b)
  | mark .minus, a, b => some (a - b)
  | mark .star, a, b => some (a * b)
  | mark .slash, a, b => if b = 0 then none else some (a.tdiv b)
  | _, _, _ => none

/-- A plus or a minus before an operand. -/
def IsSign (op : TokenKind) : Prop :=
  op = mark .plus ∨ op = mark .minus

/-- One of the four operators of arithmetic. -/
def IsArithmetic (op : TokenKind) : Prop :=
  op = mark .plus ∨ op = mark .minus ∨ op = mark .star ∨ op = mark .slash

end TokenKind

namespace Expr

/-- The expression is made of integers by signs and the operators of arithmetic. -/
def IsIntegral : Expr → Prop
  | literal _ kind _ => kind = .number .integer
  | unary _ op e => op.IsSign ∧ e.IsIntegral
  | binary _ _ op l r => op.IsArithmetic ∧ l.IsIntegral ∧ r.IsIntegral
  | grouping _ e => e.IsIntegral
  | primary _ e => e.IsIntegral

/-- The value of an expression over the unbounded integers; none if it divides by zero. -/
def exactValue? : Expr → Option Int
  | literal _ _ text => some (literalInt text)
  | unary _ op e => e.exactValue?.bind op.exactPrefix?
  | binary _ _ op l r => l.exactValue?.bind fun a => r.exactValue?.bind fun b => op.exactInfix? a b
  | grouping _ e => e.exactValue?
  | primary _ e => e.exactValue?

/-- The exact value of the node exists and has 32 bits. -/
def FitsWord (e : Expr) : Prop :=
  ∃ z ∈ e.exactValue?, InWord z

instance (e : Expr) : Decidable e.FitsWord :=
  inferInstanceAs (Decidable (∃ z ∈ e.exactValue?, InWord z))

/-- The first node, in the order in which evaluation performs operations, that does not fit. -/
def firstUnfit? (e : Expr) : Option Expr :=
  e.postorder.find? fun m => ¬ m.FitsWord

/-- The operation of the node fails with this error, for what its operands exactly are. -/
inductive Fails : Expr → ValueError → Prop
  | division {s : Site} {level : Level} {l r : Expr} (hzero : r.exactValue? = some 0) :
      Fails (.binary s level (.mark .slash) l r) .divisionByZero
  | sign {s : Site} {op : TokenKind} {e : Expr} {z : Int}
      (hexact : (Expr.unary s op e).exactValue? = some z) (hrange : ¬ InWord z) :
      Fails (.unary s op e) (.integerOverflow op.symbol)
  | operator {s : Site} {level : Level} {op : TokenKind} {l r : Expr} {z : Int}
      (hexact : (Expr.binary s level op l r).exactValue? = some z) (hrange : ¬ InWord z) :
      Fails (.binary s level op l r) (.integerOverflow op.symbol)

end Expr

/-! ### Operations on integers -/

/-- Only a division by zero has no exact result. -/
theorem TokenKind.exactInfix?_eq_none {op : TokenKind} (hop : op.IsArithmetic) {a b : Int}
    (h : op.exactInfix? a b = none) : op = mark .slash ∧ b = 0 := by
  rcases hop with rfl | rfl | rfl | rfl
  · cases h
  · cases h
  · cases h
  · refine ⟨rfl, ?_⟩
    by_contra hzero
    simp [exactInfix?, hzero] at h

namespace Value

theorem inWord_toInt (n : Int32) : InWord n.toInt := by
  have hlow := n.le_toInt
  have hhigh := n.toInt_lt
  unfold InWord
  omega

theorem inRange_iff (z : Int) : inRange z = true ↔ InWord z := by
  simp [inRange, InWord]

theorem toInt_ofInt {z : Int} (h : InWord z) : (Int32.ofInt z).toInt = z := by
  obtain ⟨hlow, hhigh⟩ := h
  exact Int32.toInt_ofInt_of_le (by omega) (by omega)

/-- The outcome of an operation is its exact result, if there is one and it has 32 bits. -/
inductive Exactly (symbol : String) : Option Int → Except ValueError Value → Prop
  | value {z : Int} {n : Int32} (h : n.toInt = z) : Exactly symbol (some z) (.ok (.integer n))
  | overflow {z : Int} (hrange : ¬ InWord z) :
      Exactly symbol (some z) (.error (.integerOverflow symbol))
  | division : Exactly symbol none (.error .divisionByZero)

theorem exactly_checked (symbol : String) (z : Int) :
    Exactly symbol (some z) (checked symbol z) := by
  unfold checked
  by_cases hrange : InWord z
  · rw [if_pos ((inRange_iff z).mpr hrange)]
    exact .value (toInt_ofInt hrange)
  · rw [if_neg (mt (inRange_iff z).mp hrange)]
    exact .overflow hrange

/-- The machine negates as the integers do. -/
theorem exactly_negate {op : TokenKind} (hop : op.IsSign) {u : UnaryOp}
    (hu : op.prefixMeaning? = some (.compute u)) (n : Int32) :
    Exactly op.symbol (op.exactPrefix? n.toInt) ((integer n).unary u) := by
  rcases hop with rfl | rfl
  · cases hu
  · cases hu
    exact exactly_checked _ _

theorem exactly_infix {op : TokenKind} (hop : op.IsArithmetic) {o : BinaryOp}
    (ho : op.binaryOp? = some o) (a b : Int32) :
    Exactly op.symbol (op.exactInfix? a.toInt b.toInt) ((integer a).binary o (integer b)) := by
  rcases hop with rfl | rfl | rfl | rfl
  · cases ho
    exact exactly_checked _ _
  · cases ho
    exact exactly_checked _ _
  · cases ho
    exact exactly_checked _ _
  · cases ho
    show Exactly _ (if b.toInt = 0 then _ else _) (if b.toInt = 0 then _ else _)
    by_cases hzero : b.toInt = 0
    · rw [if_pos hzero, if_pos hzero]
      exact .division
    · rw [if_neg hzero, if_neg hzero]
      exact exactly_checked _ _

/-- Digits are counted up to a bound that is out of range, so nothing is lost of an integer
that is in range. -/
theorem literalInt_of_readInt? {text : String} {z : Int}
    (h : readInt? magnitudeBound (withoutTicks text) = some z) (hrange : InWord z) :
    literalInt text = z := by
  unfold readInt? at h
  unfold literalInt
  generalize splitSign (withoutTicks text) = split at h ⊢
  obtain ⟨negative, digits⟩ := split
  simp only [Option.ite_none_right_eq_some, Option.some.injEq] at h ⊢
  obtain ⟨-, rfl⟩ := h
  by_cases hle : digitsValue digits ≤ magnitudeBound
  · rw [valueUpTo_of_le hle]
  · exfalso
    have habove : 2147483648 < valueUpTo magnitudeBound digits := lt_valueUpTo (Nat.not_le.mp hle)
    unfold InWord at hrange
    split at hrange <;> omega

/-- A literal that has a value has the one that it names. -/
theorem exists_of_ofLiteral {text : String} {v : Value}
    (h : ofLiteral (.number .integer) text = .ok v) :
    ∃ n : Int32, v = .integer n ∧ n.toInt = literalInt text := by
  unfold ofLiteral integerOf? at h
  cases hread : readInt? magnitudeBound (withoutTicks text) with
  | none =>
      rw [hread] at h
      cases h
  | some z =>
      by_cases hrange : inRange z = true
      · simp [hread, hrange] at h
        have hword := (inRange_iff z).mp hrange
        refine ⟨Int32.ofInt z, h.symm, ?_⟩
        rw [toInt_ofInt hword, literalInt_of_readInt? hread hword]
      · simp [hread, hrange] at h

end Value

/-! ### Expressions -/

namespace Expr

theorem fitsWord_of_exactValue {e : Expr} {n : Int32} (h : e.exactValue? = some n.toInt) :
    e.FitsWord :=
  ⟨n.toInt, h, Value.inWord_toInt n⟩

/-- When everything below a node fits, the node is the first that may not. -/
theorem OnlyOperand.firstUnfit? {outer e : Expr} (h : OnlyOperand outer e)
    (hbelow : e.firstUnfit? = none) :
    outer.firstUnfit? = if outer.FitsWord then none else some outer := by
  unfold Expr.firstUnfit? at hbelow ⊢
  rw [h.find?_postorder, hbelow]
  simp

theorem firstUnfit?_binary {l r : Expr} (hl : l.firstUnfit? = none) (hr : r.firstUnfit? = none)
    (s : Site) (level : Level) (op : TokenKind) :
    (binary s level op l r).firstUnfit? =
      if (binary s level op l r).FitsWord then none else some (binary s level op l r) := by
  unfold firstUnfit? at hl hr ⊢
  rw [find?_postorder_binary, hl, hr]
  simp

/-- The outcome of evaluating an expression: the exact value if all nodes fit, and else the
failure of the first that does not. -/
inductive Computed (e : Expr) : Except EvalError Value → Prop
  | value {n : Int32} (hfits : e.firstUnfit? = none) (hexact : e.exactValue? = some n.toInt) :
      Computed e (.ok (.integer n))
  | failure {m : Expr} {x : ValueError} {path : List Turn} (hnode : e.nodeAt? path = some m)
      (hfirst : e.firstUnfit? = some m) (hfails : m.Fails x) :
      Computed e (.error ⟨.value x, path⟩)

/-- An operation that the root performs, when everything below it fits. -/
theorem Computed.ofOperation {e : Expr} {symbol : String} {outcome : Except ValueError Value}
    (h : Value.Exactly symbol e.exactValue? outcome)
    (hfirst : e.firstUnfit? = if e.FitsWord then none else some e)
    (hoverflow : ∀ z, e.exactValue? = some z → ¬ InWord z → e.Fails (.integerOverflow symbol))
    (hdivision : e.exactValue? = none → e.Fails .divisionByZero) :
    Computed e (ofOperation outcome) := by
  generalize hexact : e.exactValue? = result at h
  cases h with
  | @value z n hn =>
      rw [← hn] at hexact
      rw [if_pos (fitsWord_of_exactValue hexact)] at hfirst
      exact .value hfirst hexact
  | @overflow z hrange =>
      have hunfit : ¬ e.FitsWord := by
        rintro ⟨w, hw, hword⟩
        obtain rfl := Option.some.inj (hexact.symm.trans hw)
        exact hrange hword
      rw [if_neg hunfit] at hfirst
      exact .failure (nodeAt?_nil e) hfirst (hoverflow z hexact hrange)
  | division =>
      have hunfit : ¬ e.FitsWord := by
        rintro ⟨w, hw, -⟩
        rw [hexact] at hw
        cases hw
      rw [if_neg hunfit] at hfirst
      exact .failure (nodeAt?_nil e) hfirst (hdivision hexact)

/-- A failure below a node with one operand is a failure of the node. -/
theorem Computed.fails_inner {outer e : Expr} {err : EvalError} (h : Computed e (.error err))
    (houter : OnlyOperand outer e) :
    Computed outer (.error ⟨err.fault, .inner :: err.path⟩) := by
  cases h with
  | failure hnode hfirst hfails =>
      refine .failure (houter.nodeAt?_cons.mpr ⟨rfl, hnode⟩) ?_ hfails
      unfold Expr.firstUnfit? at hfirst ⊢
      rw [houter.find?_postorder, hfirst]
      rfl

/-- A node that evaluates as the node below it and has its exact value. -/
theorem Computed.transparent {outer e : Expr} (h : Computed e e.eval)
    (houter : OnlyOperand outer e) (heval : outer.eval = seenFrom .inner e.eval)
    (hexact : outer.exactValue? = e.exactValue?) : Computed outer outer.eval := by
  rw [heval]
  cases hv : e.eval with
  | error err =>
      rw [hv] at h
      exact h.fails_inner houter
  | ok v =>
      rw [hv] at h
      cases h with
      | value hfits hvalue =>
          have houterExact := hexact.trans hvalue
          have hfirst := houter.firstUnfit? hfits
          rw [if_pos (fitsWord_of_exactValue houterExact)] at hfirst
          exact .value hfirst houterExact

theorem Computed.unary {e : Expr} {op : TokenKind} {u : UnaryOp} (h : Computed e e.eval)
    (hsign : op.IsSign) (hop : op.prefixMeaning? = some (.compute u)) (s : Site) :
    Computed (.unary s op e) (Expr.unary s op e).eval := by
  cases hv : e.eval with
  | error err =>
      rw [hv] at h
      rw [eval_unary_error hv]
      exact h.fails_inner (.unary s op e)
  | ok v =>
      rw [hv] at h
      cases h with
      | @value n hfits hvalue =>
          have hexact : (Expr.unary s op e).exactValue? = op.exactPrefix? n.toInt := by
            rw [exactValue?, hvalue]
            rfl
          have hexactly := Value.exactly_negate hsign hop n
          rw [← hexact] at hexactly
          rw [eval_unary_ok hop hv]
          refine .ofOperation hexactly ((OnlyOperand.unary s op e).firstUnfit? hfits) ?_ ?_
          · intro z hz hrange
            exact .sign hz hrange
          · intro hnone
            rw [hexact] at hnone
            rcases hsign with rfl | rfl <;> cases hnone

theorem Computed.binary {l r : Expr} {op : TokenKind} {o : BinaryOp} (hl : Computed l l.eval)
    (hr : Computed r r.eval) (harith : op.IsArithmetic) (hop : op.binaryOp? = some o) (s : Site)
    (level : Level) : Computed (.binary s level op l r) (Expr.binary s level op l r).eval := by
  cases hlv : l.eval with
  | error err =>
      rw [hlv] at hl
      rw [eval_binary_left hlv]
      cases hl with
      | failure hnode hfirst hfails =>
          refine .failure hnode ?_ hfails
          unfold firstUnfit? at hfirst ⊢
          rw [find?_postorder_binary, hfirst]
          rfl
  | ok v =>
      rw [hlv] at hl
      cases hl with
      | @value a hlfits ha =>
          cases hrv : r.eval with
          | error err =>
              rw [hrv] at hr
              rw [eval_binary_right hlv hrv]
              cases hr with
              | failure hnode hfirst hfails =>
                  refine .failure hnode ?_ hfails
                  unfold firstUnfit? at hfirst hlfits ⊢
                  rw [find?_postorder_binary, hlfits, hfirst]
                  rfl
          | ok w =>
              rw [hrv] at hr
              cases hr with
              | @value b hrfits hb =>
                  have hexact : (Expr.binary s level op l r).exactValue? =
                      op.exactInfix? a.toInt b.toInt := by
                    rw [exactValue?, ha, hb]
                    rfl
                  have hexactly := Value.exactly_infix harith hop a b
                  rw [← hexact] at hexactly
                  rw [eval_binary_ok hop hlv hrv]
                  refine .ofOperation hexactly (firstUnfit?_binary hlfits hrfits s level op) ?_ ?_
                  · intro z hz hrange
                    exact .operator hz hrange
                  · -- Both operands have exact values, so the lack of a result is the divisor's.
                    intro hnone
                    rw [hexact] at hnone
                    obtain ⟨rfl, hzero⟩ := TokenKind.exactInfix?_eq_none harith hnone
                    rw [hzero] at hb
                    exact .division hb

/-- **What has been lowered evaluates exactly**, as far as it fits. -/
theorem Lowered.computed {e : Expr} {c c' : Chunk} (h : Lowered e c c') :
    e.IsIntegral → Computed e e.eval := by
  induction h with
  | @literal s kind text c line v _ hv _ =>
      rintro rfl
      rw [eval_literal hv]
      obtain ⟨n, rfl, hn⟩ := Value.exists_of_ofLiteral hv
      have hexact : (Expr.literal s (.number .integer) text).exactValue? = some n.toInt := by
        rw [exactValue?, hn]
      refine .value ?_ hexact
      simp [firstUnfit?, postorder, fitsWord_of_exactValue hexact]
  | @plus s op e c c' line _ _ hop ih =>
      rintro ⟨hsign, hint⟩
      -- A plus sign has no instruction and no effect, so it is as transparent as parentheses.
      refine (ih hint).transparent (.unary ..) (eval_plus hop _ _) ?_
      rcases hsign with rfl | rfl
      · exact Option.bind_fun_some e.exactValue?
      · cases hop
  | unary _ _ hop ih =>
      rintro ⟨hsign, hint⟩
      exact (ih hint).unary hsign hop _
  | binary _ _ hop _ ihl ihr =>
      rintro ⟨harith, hl, hr⟩
      exact (ihl hl).binary (ihr hr) harith hop _ _
  | grouping _ ih =>
      intro hint
      exact (ih hint).transparent (.grouping ..) rfl rfl
  | primary _ ih =>
      intro hint
      exact (ih hint).transparent (.primary ..) rfl rfl

theorem firstUnfit?_eq_none_iff (e : Expr) :
    e.firstUnfit? = none ↔ ∀ m ∈ e.postorder, m.FitsWord := by
  simp [firstUnfit?]

end Expr

namespace Machine

/-- **Integer expressions compute exactly.**  The run gives an integer exactly when no node of
the expression divides by zero or leaves the range, and the integer is the exact value.  When
some node does, the run fails at the first of them in the order of evaluation, on its line: for
the division, if its right operand is zero, and else for the overflow of its operator. -/
theorem run_of_isIntegral {e : Expr} {c : Chunk} (h : e.lower = .ok c) (hint : e.IsIntegral) :
    ((∃ n, (load c).run.1 = .ok (.integer n)) ↔ ∀ m ∈ e.postorder, m.FitsWord) ∧
    (∀ n : Int32, (load c).run.1 = .ok (.integer n) → e.exactValue? = some n.toInt) ∧
    ((¬ ∀ m ∈ e.postorder, m.FitsWord) → ∃ m x err, e.firstUnfit? = some m ∧ m.Fails x ∧
      (load c).run.1 = .error err ∧ err.fault = .value x ∧
      err.line.toNat = m.site.position.line) := by
  obtain ⟨c₁, hlowered, -⟩ := Expr.lowered_of_lower h
  have hcomputed := hlowered.computed hint
  rw [← Expr.firstUnfit?_eq_none_iff]
  cases heval : e.eval with
  | ok v =>
      rw [heval] at hcomputed
      cases hcomputed with
      | @value n hfits hexact =>
          have hrun : (load c).run.1 = .ok (.integer n) := by
            rw [run_load, ending_of_eval_ok h heval]
          refine ⟨⟨fun _ => hfits, fun _ => ⟨n, hrun⟩⟩, ?_, fun hunfit => absurd hfits hunfit⟩
          intro n' hn'
          obtain rfl := Value.integer.inj (Except.ok.inj (hrun.symm.trans hn'))
          exact hexact
  | error evalErr =>
      obtain ⟨n, x, op, hstopped, hemitted, hrun⟩ := ending_of_eval_error h heval
      have hfault := hstopped.fault
      have hnode := hstopped.node
      rw [heval] at hcomputed
      cases hcomputed with
      | @failure m x' path hnode' hfirst hfails =>
          obtain rfl := Expr.EvalFault.value.inj hfault
          obtain rfl := Option.some.inj (hnode'.symm.trans hnode)
          rw [run_load, hrun, hfirst]
          refine ⟨⟨?_, ?_⟩, ?_, fun _ => ⟨m, x', _, rfl, hfails, rfl, rfl, hemitted.lineAt⟩⟩
          · rintro ⟨n, ⟨⟩⟩
          · rintro ⟨⟩
          · rintro n ⟨⟩

/-- Divides the least integer, which has to be computed, by minus one on the next line. -/
def leastQuotient : Expr :=
  .binary ⟨⟨2, 1⟩, ⟨0, 22⟩⟩ .factor (.mark .slash)
    (.grouping ⟨⟨1, 1⟩, ⟨0, 17⟩⟩
      (.binary ⟨⟨1, 14⟩, ⟨1, 16⟩⟩ .term (.mark .minus)
        (.unary ⟨⟨1, 2⟩, ⟨1, 12⟩⟩ (.mark .minus)
          (.literal ⟨⟨1, 3⟩, ⟨2, 12⟩⟩ (.number .integer) "2147483647"))
        (.literal ⟨⟨1, 16⟩, ⟨15, 16⟩⟩ (.number .integer) "1")))
    (.unary ⟨⟨2, 3⟩, ⟨20, 22⟩⟩ (.mark .minus)
      (.literal ⟨⟨2, 4⟩, ⟨21, 22⟩⟩ (.number .integer) "1"))

def leastQuotientCode : Chunk :=
  ⟨#[1, 0, 3, 1, 1, 6, 1, 2, 3, 7, 0], #[.integer 2147483647, .integer 1, .integer 1],
    ⟨#[⟨1, 6⟩, ⟨2, 4⟩, ⟨0, 1⟩]⟩⟩

/-- The dividend fits, and only the quotient does not. -/
theorem run_leastQuotient :
    leastQuotient.lower = .ok leastQuotientCode ∧ leastQuotient.IsIntegral ∧
      ∃ err, (load leastQuotientCode).run.1 = .error err ∧
        err.fault = .value (.integerOverflow "/") ∧ err.line.toNat = 2 := by
  have hlower : leastQuotient.lower = .ok leastQuotientCode := rfl
  have hint : leastQuotient.IsIntegral := by
    simp [leastQuotient, Expr.IsIntegral, TokenKind.IsSign, TokenKind.IsArithmetic]
  have hfirst : leastQuotient.firstUnfit? = some leastQuotient := rfl
  have hunfit : ¬ ∀ m ∈ leastQuotient.postorder, m.FitsWord := by
    rw [← Expr.firstUnfit?_eq_none_iff, hfirst]
    simp
  obtain ⟨m, x, err, hm, hfails, hrun, hx, hline⟩ := (run_of_isIntegral hlower hint).2.2 hunfit
  obtain rfl := Option.some.inj (hfirst.symm.trans hm)
  refine ⟨hlower, hint, err, hrun, ?_, hline⟩
  cases hfails with
  | division hzero => cases hzero
  | operator => exact hx

end Machine

end StackCalc
