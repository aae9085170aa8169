/-
Running the code of an expression evaluates it.

`eval` gives an expression its value directly, by going down the tree: operands from left to
right, then the operator, and the first operation without a value ends it.  The code has to
do the same with a stack, a pool of constants and a cursor.

The simulation is stated for code in the middle of a chunk.  The code of an expression,
wherever it stands and whatever follows it, moves the cursor from its first byte to just
past its last and leaves the value of the expression on top of the stack that was there; or,
when there is no value, ends the run with the same error at the instruction of the node
where evaluation stops.  Quantifying over the rest of the chunk and of the stack is what lets
the code of an operand be one part of the code of a node.
-/
import StackCalc.Machine.Basic
import StackCalc.Proofs.Lowering

namespace StackCalc

namespace Expr

/-! ### Evaluation -/

/-- Why an expression has no value. -/
inductive EvalFault where
  | value (error : ValueError)
  /-- The operator means nothing. -/
  | meaningless (op : TokenKind)
deriving DecidableEq, Repr

/-- A fault, and the way down to the node where evaluation stopped. -/
structure EvalError where
  fault : EvalFault
  path : List Turn
deriving DecidableEq, Repr

/-- An outcome as it is seen from the node above. -/
def seenFrom (turn : Turn) (outcome : Except EvalError Value) : Except EvalError Value :=
  outcome.mapError fun e => ⟨e.fault, turn :: e.path⟩

/-- The outcome of an operation that the node itself performs. -/
def ofOperation (outcome : Except ValueError Value) : Except EvalError Value :=
  outcome.mapError fun e => ⟨.value e, []⟩

/-- What an operator does with the value after it. -/
def applyPrefix : TokenKind → Value → Except EvalError Value
  | .mark .plus, a => .ok a
  | .mark .minus, a => ofOperation (a.unary .negate)
  | .mark .bang, a => ofOperation (a.unary .not)
  | op, _ => .error ⟨.meaningless op, []⟩

/-- What an operator does with the values on its two sides. -/
def applyOperator : TokenKind → Value → Value → Except EvalError Value
  | .mark .plus, a, b => ofOperation (a.binary .add b)
  | .mark .minus, a, b => ofOperation (a.binary .subtract b)
  | .mark .star, a, b => ofOperation (a.binary .multiply b)
  | .mark .slash, a, b => ofOperation (a.binary .divide b)
  | .mark .less, a, b => ofOperation (a.binary .less b)
  | .mark .lessEqual, a, b => ofOperation (a.binary .lessEqual b)
  | .mark .greater, a, b => ofOperation (a.binary .greater b)
  | .mark .greaterEqual, a, b => ofOperation (a.binary .greaterEqual b)
  | .mark .equal, a, b => ofOperation (a.binary .equal b)
  | .mark .equalEqual, a, b => ofOperation (a.binary .equal b)
  | .mark .bangEqual, a, b => ofOperation (a.binary .notEqual b)
  | .mark .hash, a, b => ofOperation (a.binary .notEqual b)
  | op, _, _ => .error ⟨.meaningless op, []⟩

/-- The value of an expression. -/
def eval : Expr → Except EvalError Value
  | literal _ kind text => ofOperation (Value.ofLiteral kind text)
  | unary _ op e => do
    let a ← seenFrom .inner e.eval
    applyPrefix op a
  | binary _ _ op l r => do
    let a ← seenFrom .left l.eval
    let b ← seenFrom .right r.eval
    applyOperator op a b
  | grouping _ e => seenFrom .inner e.eval
  | primary _ e => seenFrom .inner e.eval

/-! ### Operators mean to evaluation what they mean to lowering -/

theorem applyPrefix_of_nothing {op : TokenKind} (h : op.prefixMeaning? = some .nothing)
    (a : Value) : applyPrefix op a = .ok a := by
  unfold TokenKind.prefixMeaning? at h
  split at h <;> simp at h
  rfl

theorem applyPrefix_of_compute {op : TokenKind} {u : UnaryOp}
    (h : op.prefixMeaning? = some (.compute u)) (a : Value) :
    applyPrefix op a = ofOperation (a.unary u) := by
  unfold TokenKind.prefixMeaning? at h
  split at h <;> simp at h
  all_goals
    rw [← h]
    rfl

theorem applyOperator_of_binaryOp? {op : TokenKind} {o : BinaryOp} (h : op.binaryOp? = some o)
    (a b : Value) : applyOperator op a b = ofOperation (a.binary o b) := by
  unfold TokenKind.binaryOp? at h
  split at h <;> simp at h
  all_goals
    rw [← h]
    rfl

/-! ### The value of a node from those of its operands -/

theorem eval_literal {kind : LiteralKind} {text : String} {v : Value}
    (h : Value.ofLiteral kind text = .ok v) (s : Site) : (literal s kind text).eval = .ok v := by
  rw [eval, h]
  rfl

theorem eval_plus {op : TokenKind} (h : op.prefixMeaning? = some .nothing) (s : Site) (e : Expr) :
    (unary s op e).eval = seenFrom .inner e.eval := by
  rw [eval]
  cases e.eval with
  | ok a => exact applyPrefix_of_nothing h a
  | error err => rfl

theorem eval_unary_ok {op : TokenKind} {u : UnaryOp} {e : Expr} {a : Value}
    (h : op.prefixMeaning? = some (.compute u)) (he : e.eval = .ok a) (s : Site) :
    (unary s op e).eval = ofOperation (a.unary u) := by
  rw [eval, he]
  exact applyPrefix_of_compute h a

theorem eval_unary_error {e : Expr} {err : EvalError} (he : e.eval = .error err) (s : Site)
    (op : TokenKind) : (unary s op e).eval = .error ⟨err.fault, .inner :: err.path⟩ := by
  rw [eval, he]
  rfl

theorem eval_binary_ok {op : TokenKind} {o : BinaryOp} {l r : Expr} {a b : Value}
    (h : op.binaryOp? = some o) (hl : l.eval = .ok a) (hr : r.eval = .ok b) (s : Site)
    (level : Level) : (binary s level op l r).eval = ofOperation (a.binary o b) := by
  rw [eval, hl, hr]
  exact applyOperator_of_binaryOp? h a b

theorem eval_binary_left {l : Expr} {err : EvalError} (hl : l.eval = .error err) (s : Site)
    (level : Level) (op : TokenKind) (r : Expr) :
    (binary s level op l r).eval = .error ⟨err.fault, .left :: err.path⟩ := by
  rw [eval, hl]
  rfl

theorem eval_binary_right {l r : Expr} {a : Value} {err : EvalError} (hl : l.eval = .ok a)
    (hr : r.eval = .error err) (s : Site) (level : Level) (op : TokenKind) :
    (binary s level op l r).eval = .error ⟨err.fault, .right :: err.path⟩ := by
  rw [eval, hl, hr]
  rfl

/-! ### Where evaluation stops -/

/-- The node is an operator whose operation has no value on some operands. -/
inductive OperationFails : Expr → ValueError → Prop
  | unary {s : Site} {op : TokenKind} {e : Expr} {u : UnaryOp} {a : Value} {x : ValueError}
      (hop : op.prefixMeaning? = some (.compute u)) (h : a.unary u = .error x) :
      OperationFails (.unary s op e) x
  | binary {s : Site} {level : Level} {op : TokenKind} {l r : Expr} {o : BinaryOp} {a b : Value}
      {x : ValueError} (hop : op.binaryOp? = some o) (h : a.binary o b = .error x) :
      OperationFails (.binary s level op l r) x

theorem OperationFails.ownOpcode? {n : Expr} {x : ValueError} (h : OperationFails n x) :
    ∃ op, n.ownOpcode? = some op := by
  cases h with
  | @unary s op e u a x hop _ => exact ⟨u.opcode, by simp [Expr.ownOpcode?, hop]⟩
  | @binary s level op l r o a b x hop _ => exact ⟨o.opcode, by simp [Expr.ownOpcode?, hop]⟩

/-- Evaluation stopped at the operator `n`, whose operation failed with `x`. -/
structure StoppedAt (e : Expr) (err : EvalError) (n : Expr) (x : ValueError) : Prop where
  node : e.nodeAt? err.path = some n
  fault : err.fault = .value x
  fails : OperationFails n x

end Expr

/-! ### One instruction -/

namespace Chunk

/-- How a run that nobody watches ends. -/
def ending (c : Chunk) (offset : Nat) (stack : Stack) : Ending :=
  (c.execute (fun _ _ _ => ()) () offset stack).1

theorem ending_of_next {c : Chunk} {offset : Nat} {b : UInt8} {stack stack' : Stack} {extra : Nat}
    (hb : c.code[offset]? = some b) (h : c.step offset b stack = .next extra stack') :
    c.ending offset stack = c.ending (offset + 1 + extra) stack' := by
  obtain ⟨hlt, rfl⟩ := Array.getElem?_eq_some_iff.mp hb
  unfold ending
  rw [execute, dif_pos hlt, h]

theorem ending_of_done {c : Chunk} {offset : Nat} {b : UInt8} {stack stack' : Stack} {v : Value}
    (hb : c.code[offset]? = some b) (h : c.step offset b stack = .done v stack') :
    c.ending offset stack = ⟨.ok v, offset + 1, stack'⟩ := by
  obtain ⟨hlt, rfl⟩ := Array.getElem?_eq_some_iff.mp hb
  unfold ending
  rw [execute, dif_pos hlt, h]

theorem ending_of_fail {c : Chunk} {offset : Nat} {b : UInt8} {stack stack' : Stack}
    {fault : Fault} {moved : Nat} (hb : c.code[offset]? = some b)
    (h : c.step offset b stack = .fail fault moved stack') :
    c.ending offset stack = ⟨.error (c.errorAt fault offset), offset + moved, stack'⟩ := by
  obtain ⟨hlt, rfl⟩ := Array.getElem?_eq_some_iff.mp hb
  unfold ending
  rw [execute, dif_pos hlt, h]

theorem ending_of_end {c : Chunk} {offset : Nat} (h : c.code[offset]? = none) (stack : Stack) :
    c.ending offset stack = ⟨.error (c.errorAt .unexpectedEnd offset), offset, stack⟩ := by
  unfold ending
  rw [execute, dif_neg (Nat.not_lt.mpr (Array.getElem?_eq_none_iff.mp h))]

theorem step_unary (c : Chunk) (offset : Nat) (u : UnaryOp) (stack : Stack) :
    c.step offset u.opcode.toByte stack = stepUnary u stack := by
  simp [step]

theorem step_binary (c : Chunk) (offset : Nat) (o : BinaryOp) (stack : Stack) :
    c.step offset o.opcode.toByte stack = stepBinary o stack := by
  simp [step]

/-- The two bytes of a constant push it. -/
theorem step_constant {c : Chunk} {offset : Nat} {place : UInt8} {v : Value}
    (hplace : c.code[offset + 1]? = some place) (hv : c.constants[place.toNat]? = some v)
    (stack : Stack) :
    c.step offset Opcode.constant.toByte stack = .next 1 (v :: stack) := by
  simp [step, Opcode.action, stepPush, hplace, hv]

/-! ### Instructions as lowering adds them -/

theorem place_withConstant (c : Chunk) (op : Opcode) (v : Value) (line : UInt16) :
    (c.withConstant op v line).code[c.size + 1]? = some c.constants.size.toUInt8 := by
  rw [← Array.getElem?_toList, toList_code_withConstant]
  simp [size]

theorem constant_withConstant {c : Chunk} (h : c.constants.size < maxConstants) (op : Opcode)
    (v : Value) (line : UInt16) :
    (c.withConstant op v line).constants[c.constants.size.toUInt8.toNat]? = some v := by
  rw [toNat_place h, constants_withConstant]
  simp

/-- A constant in the code is pushed, whatever the chunk goes on with. -/
theorem ending_withConstant {c full : Chunk} {v : Value} {line : UInt16}
    (hroom : c.constants.size < maxConstants)
    (hfull : (c.withConstant .constant v line).Extends full) (stack : Stack) :
    full.ending c.size stack = full.ending (c.withConstant .constant v line).size (v :: stack) := by
  rw [size_withConstant]
  exact ending_of_next (hfull.getElem?_code (code_withConstant ..))
    (step_constant (hfull.getElem?_code (place_withConstant ..))
      (hfull.getElem?_constants (constant_withConstant hroom ..)) stack)

end Chunk

namespace Expr

/-! ### The code of an expression -/

/-- The code between two offsets of a chunk evaluates the expression, on any stack. -/
def Simulated (full : Chunk) (e : Expr) (start stop : Nat) : Prop :=
  ∀ stack, match e.eval with
    | .ok v => full.ending start stack = full.ending stop (v :: stack)
    | .error err => ∃ n x, e.StoppedAt err n x ∧ (full.ending start stack).result =
        .error (full.errorAt (.value x) (start + e.opcodeOffset err.path))

/-- The instruction of a prefix operator, after the code of its operand. -/
theorem Simulated.unary {full : Chunk} {e : Expr} {start stop : Nat} {op : TokenKind} {u : UnaryOp}
    (he : Simulated full e start stop) (hop : op.prefixMeaning? = some (.compute u))
    (hcode : full.code[stop]? = some u.opcode.toByte) (hstop : stop = start + e.codeSize)
    (s : Site) : Simulated full (.unary s op e) start (stop + 1) := by
  intro stack
  have hrun := he stack
  cases heval : e.eval with
  | error err =>
      rw [heval] at hrun
      rw [eval_unary_error heval]
      obtain ⟨n, x, hstopped, hresult⟩ := hrun
      exact ⟨n, x, ⟨hstopped.node, hstopped.fault, hstopped.fails⟩, hresult⟩
  | ok a =>
      rw [heval] at hrun
      rw [eval_unary_ok hop heval]
      cases hv : a.unary u with
      | ok v =>
          have hstep : full.step stop u.opcode.toByte (a :: stack) = .next 0 (v :: stack) := by
            rw [Chunk.step_unary, Chunk.stepUnary, hv]
          exact hrun.trans (Chunk.ending_of_next hcode hstep)
      | error x =>
          have hstep : full.step stop u.opcode.toByte (a :: stack) = .fail (.value x) 1 stack := by
            rw [Chunk.step_unary, Chunk.stepUnary, hv]
          refine ⟨.unary s op e, x, ⟨nodeAt?_nil _, rfl, .unary hop hv⟩, ?_⟩
          rw [hrun, Chunk.ending_of_fail hcode hstep, opcodeOffset_nil, codeSize,
            Nat.add_sub_cancel, ← hstop]

/-- The instruction of an operator, after the code of its two operands. -/
theorem Simulated.binary {full : Chunk} {l r : Expr} {start middle stop : Nat} {op : TokenKind}
    {o : BinaryOp} (hl : Simulated full l start middle) (hr : Simulated full r middle stop)
    (hop : op.binaryOp? = some o) (hcode : full.code[stop]? = some o.opcode.toByte)
    (hmiddle : middle = start + l.codeSize) (hstop : stop = middle + r.codeSize)
    (s : Site) (level : Level) : Simulated full (.binary s level op l r) start (stop + 1) := by
  intro stack
  have hleft := hl stack
  cases hlv : l.eval with
  | error err =>
      rw [hlv] at hleft
      rw [eval_binary_left hlv]
      obtain ⟨n, x, hstopped, hresult⟩ := hleft
      exact ⟨n, x, ⟨hstopped.node, hstopped.fault, hstopped.fails⟩, hresult⟩
  | ok a =>
      rw [hlv] at hleft
      have hright := hr (a :: stack)
      cases hrv : r.eval with
      | error err =>
          rw [hrv] at hright
          rw [eval_binary_right hlv hrv]
          obtain ⟨n, x, hstopped, hresult⟩ := hright
          refine ⟨n, x, ⟨hstopped.node, hstopped.fault, hstopped.fails⟩, ?_⟩
          rw [hleft, hresult, hmiddle, Nat.add_assoc]
          rfl
      | ok b =>
          rw [hrv] at hright
          rw [eval_binary_ok hop hlv hrv]
          cases hv : a.binary o b with
          | ok v =>
              have hstep : full.step stop o.opcode.toByte (b :: a :: stack) =
                  .next 0 (v :: stack) := by
                rw [Chunk.step_binary, Chunk.stepBinary, hv]
              exact hleft.trans (hright.trans (Chunk.ending_of_next hcode hstep))
          | error x =>
              have hstep : full.step stop o.opcode.toByte (b :: a :: stack) =
                  .fail (.value x) 1 stack := by
                rw [Chunk.step_binary, Chunk.stepBinary, hv]
              refine ⟨.binary s level op l r, x, ⟨nodeAt?_nil _, rfl, .binary hop hv⟩, ?_⟩
              rw [hleft, hright, Chunk.ending_of_fail hcode hstep, opcodeOffset_nil, codeSize,
                Nat.add_sub_cancel, ← Nat.add_assoc, ← hmiddle, ← hstop]

/-- A node that adds no code evaluates as the node below it. -/
theorem Simulated.transparent {full : Chunk} {e outer : Expr} {start stop : Nat}
    (he : Simulated full e start stop) (houter : OnlyOperand outer e)
    (heval : outer.eval = seenFrom .inner e.eval) : Simulated full outer start stop := by
  intro stack
  have hrun := he stack
  rw [heval]
  cases hv : e.eval with
  | ok v =>
      rw [hv] at hrun
      exact hrun
  | error err =>
      rw [hv] at hrun
      obtain ⟨n, x, hstopped, hresult⟩ := hrun
      have hnode := houter.nodeAt?_cons.mpr ⟨rfl, hstopped.node⟩
      refine ⟨n, x, ⟨hnode, hstopped.fault, hstopped.fails⟩, ?_⟩
      rw [houter.opcodeOffset_inner]
      exact hresult

/-- **The code of an expression evaluates it**, whatever the chunk goes on with. -/
theorem Lowered.simulated {e : Expr} {c c' : Chunk} (h : Lowered e c c') :
    ∀ {full : Chunk}, c'.Extends full → Simulated full e c.size c'.size := by
  induction h with
  | literal hline hv hroom =>
      intro full hfull stack
      rw [eval_literal hv]
      exact Chunk.ending_withConstant hroom hfull stack
  | plus he hline hop ih =>
      intro full hfull
      exact (ih hfull).transparent (.unary ..) (eval_plus hop _ _)
  | unary he hline hop ih =>
      intro full hfull
      rw [Chunk.push_eq, Chunk.size_pushByte]
      exact (ih ((Chunk.Extends.push ..).trans hfull)).unary hop
        (hfull.getElem?_code (Chunk.code_push ..)) he.size _
  | binary hl hr hop hline ihl ihr =>
      intro full hfull
      have hfull₂ := (Chunk.Extends.push ..).trans hfull
      rw [Chunk.push_eq, Chunk.size_pushByte]
      exact (ihl (hr.extends_start.trans hfull₂)).binary (ihr hfull₂) hop
        (hfull.getElem?_code (Chunk.code_push ..)) hl.size hr.size _ _
  | grouping he ih =>
      intro full hfull
      exact (ih hfull).transparent (.grouping ..) rfl
  | primary he ih =>
      intro full hfull
      exact (ih hfull).transparent (.primary ..) rfl

end Expr

namespace Machine

/-! ### Whole runs -/

theorem run_load (c : Chunk) :
    (load c).run =
      ((c.ending 0 []).result, ⟨c, (c.ending 0 []).cursor, (c.ending 0 []).stack, true⟩) := rfl

/-- A run returns what is on top of the stack when it reaches the return. -/
theorem ending_return (c : Chunk) (line : UInt16) (v : Value) (stack : Stack) :
    (c.push .ret line).ending c.size (v :: stack) = ⟨.ok v, c.size + 1, stack⟩ := by
  have hstep : (c.push .ret line).step c.size Opcode.ret.toByte (v :: stack) = .done v stack := by
    simp [Chunk.step, Opcode.action, Chunk.stepFinish]
  exact Chunk.ending_of_done (Chunk.code_push c .ret line) hstep

theorem ending_of_eval_ok {e : Expr} {c : Chunk} (h : e.lower = .ok c) {v : Value}
    (hv : e.eval = .ok v) : c.ending 0 [] = ⟨.ok v, c.size, []⟩ := by
  obtain ⟨c₁, hlow, rfl⟩ := Expr.lowered_of_lower h
  have hrun := hlow.simulated (Chunk.Extends.push c₁ .ret 0) []
  rw [hv] at hrun
  rw [show (0 : Nat) = Chunk.empty.size from rfl, hrun, ending_return, Chunk.push_eq,
    Chunk.size_pushByte]

theorem ending_of_eval_error {e : Expr} {c : Chunk} (h : e.lower = .ok c) {err : Expr.EvalError}
    (herr : e.eval = .error err) :
    ∃ n x op, e.StoppedAt err n x ∧ Expr.EmittedAt c (e.opcodeOffset err.path) n op ∧
      (c.ending 0 []).result = .error (c.errorAt (.value x) (e.opcodeOffset err.path)) := by
  obtain ⟨c₁, hlow, rfl⟩ := Expr.lowered_of_lower h
  have hrun := hlow.simulated (Chunk.Extends.push c₁ .ret 0) []
  rw [herr] at hrun
  obtain ⟨n, x, hstopped, hresult⟩ := hrun
  obtain ⟨op, hop⟩ := hstopped.fails.ownOpcode?
  have hemitted := (hlow.emitted Chunk.covered_empty hstopped.node hop).mono (.push c₁ .ret 0)
  rw [show Chunk.empty.size = 0 from rfl, Nat.zero_add] at hresult hemitted
  exact ⟨n, x, op, hstopped, hemitted, hresult⟩

/-- A run that fails is one of an expression without a value. -/
theorem exists_eval_error {e : Expr} {c : Chunk} (h : e.lower = .ok c) {err : MachineError}
    (hrun : (load c).run.1 = .error err) :
    ∃ evalErr n x op, e.eval = .error evalErr ∧ e.StoppedAt evalErr n x ∧
      Expr.EmittedAt c (e.opcodeOffset evalErr.path) n op ∧
      err = c.errorAt (.value x) (e.opcodeOffset evalErr.path) := by
  rw [run_load] at hrun
  cases heval : e.eval with
  | ok v =>
      rw [ending_of_eval_ok h heval] at hrun
      simp at hrun
  | error evalErr =>
      obtain ⟨n, x, op, hstopped, hemitted, hresult⟩ := ending_of_eval_error h heval
      exact ⟨evalErr, n, x, op, rfl, hstopped, hemitted,
        Except.error.inj (hrun.symm.trans hresult)⟩

/-- **Running the code of an expression evaluates it.**  With a value, the run returns it and
leaves nothing on the stack.  Without, evaluation stopped at some node because an operation
failed, and the run ends with that failure at the instruction of that node, on its line.
Nothing else can go wrong. -/
theorem run_of_lower {e : Expr} {c : Chunk} (h : e.lower = .ok c) :
    (∀ v, e.eval = .ok v → (load c).run.1 = .ok v ∧ (load c).run.2.stack = []) ∧
    (∀ err, e.eval = .error err → ∃ x n op line,
      err.fault = .value x ∧ e.nodeAt? err.path = some n ∧ n.ownOpcode? = some op ∧
      c.code[e.opcodeOffset err.path]? = some op.toByte ∧
      line.toNat = n.site.position.line ∧
      (load c).run.1 = .error ⟨.value x, line, e.opcodeOffset err.path⟩) ∧
    (∀ err, (load c).run.1 = .error err → ∃ x, err.fault = .value x) := by
  refine ⟨?_, ?_, ?_⟩
  · intro v hv
    rw [run_load, ending_of_eval_ok h hv]
    exact ⟨rfl, rfl⟩
  · intro err herr
    obtain ⟨n, x, op, hstopped, hemitted, hresult⟩ := ending_of_eval_error h herr
    exact ⟨x, n, op, c.lineAt (e.opcodeOffset err.path), hstopped.fault, hstopped.node,
      hemitted.opcode, hemitted.code, hemitted.lineAt, hresult⟩
  · intro err hrun
    obtain ⟨-, -, x, -, -, -, -, rfl⟩ := exists_eval_error h hrun
    exact ⟨x, rfl⟩

/-- Adds a text to the negation of another, with the sign on the third line. -/
def negatedText : Expr :=
  .binary ⟨⟨2, 1⟩, ⟨0, 9⟩⟩ .term (.mark .plus)
    (.primary ⟨⟨1, 1⟩, ⟨0, 3⟩⟩ (.literal ⟨⟨1, 1⟩, ⟨0, 3⟩⟩ .string "a"))
    (.unary ⟨⟨3, 1⟩, ⟨6, 9⟩⟩ (.mark .minus)
      (.grouping ⟨⟨3, 2⟩, ⟨7, 9⟩⟩ (.literal ⟨⟨4, 1⟩, ⟨7, 9⟩⟩ .string "b")))

def negatedTextCode : Chunk :=
  ⟨#[1, 0, 1, 1, 3, 4, 0], #[.string "a", .string "b"],
    ⟨#[⟨1, 2⟩, ⟨4, 2⟩, ⟨3, 1⟩, ⟨2, 1⟩, ⟨0, 1⟩]⟩⟩

/-- The sign fails at its own instruction and line, after both texts have been pushed. -/
theorem run_negatedText :
    negatedText.lower = .ok negatedTextCode ∧
      (load negatedTextCode).run.1 =
        .error ⟨.value (.unsupportedUnary .negate .string), 3, 4⟩ := by
  have hlower : negatedText.lower = .ok negatedTextCode := rfl
  refine ⟨hlower, ?_⟩
  obtain ⟨x, n, op, line, hfault, hnode, -, -, hline, hrun⟩ :=
    (run_of_lower hlower).2.1 ⟨.value (.unsupportedUnary .negate .string), [.right]⟩ rfl
  obtain rfl := Expr.EvalFault.value.inj hfault
  obtain rfl := Option.some.inj hnode
  obtain rfl : line = 3 := UInt16.toNat_inj.mp hline
  exact hrun

end Machine

end StackCalc
